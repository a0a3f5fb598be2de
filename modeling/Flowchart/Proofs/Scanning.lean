import Flowchart.Proofs.Lists
import Flowchart.Proofs.Numeral
/-! JSON strings and words as the scalars of YAML. Every reader stops a number of characters
further on, so a place in the text is named by that number. -/
namespace Flowchart.Yaml
open Json

variable {c : Cursor} {ch : Char} {s : Pieces} {g : Gap} {w rest : List Char} {fuel : Nat}

/-! ## Characters of strings -/

/-- The same characters may be escaped in JSON and in YAML. -/
private theorem escapeCode?_of_escape? {code : Nat} (h : escape? ch = some code) :
    escapeCode? ch = some code := by
  unfold escape? at h
  split at h <;> first | exact h | cases h

private theorem hexDigit?_lt {n d : Nat} (h : Text.hexDigit? n = some d) : d < 16 := by
  unfold Text.hexDigit? at h
  split_ifs at h <;> cases h <;> omega

private theorem lt_of_hexNumber? {a b c d code : Nat}
    (h : Text.hexNumber? [a, b, c, d] = some code) : code < 0x10000 := by
  simp only [Text.hexNumber?, List.foldlM_cons, List.foldlM_nil, Option.bind_eq_bind,
    Option.bind_eq_some_iff, Option.map_eq_some_iff, Option.pure_def, Option.some.injEq] at h
  obtain ⟨_, ⟨a, ha, rfl⟩, _, ⟨b, hb, rfl⟩, _, ⟨c, hc, rfl⟩, _, ⟨d, hd, rfl⟩, rfl⟩ := h
  have := hexDigit?_lt ha
  have := hexDigit?_lt hb
  have := hexDigit?_lt hc
  have := hexDigit?_lt hd
  omega

/-- Put a code point before what has been read. -/
def before (code : Nat) (r : List Nat × Cursor) : List Nat × Cursor := (code :: r.1, r.2)

theorem span_of_head {p : Char → Bool} (h : c.rest = ch :: rest) (hp : p ch = true) :
    c.span p = (ch :: (c.next.span p).1, (c.next.span p).2) := by
  have htake : c.rest.takeWhile p = ch :: c.next.rest.takeWhile p := by
    rw [Cursor.rest_next, h, List.takeWhile_cons_of_pos hp, List.tail_cons]
  rw [Cursor.span, htake]
  rfl

private theorem span_of_append {p : Char → Bool} (h : c.rest = w ++ rest)
    (hw : ∀ ch ∈ w, p ch = true)
    (hrest : ∀ ch ∈ rest.head?, p ch = false) : c.span p = (w, c.forward w.length) := by
  rw [Cursor.span, h, (span_append hw hrest).1]

theorem span_of_not_head {p : Char → Bool} (h : ∀ ch ∈ c.rest.head?, p ch = false) :
    c.span p = ([], c) :=
  span_of_append (w := []) rfl nofun h

/-- A character that neither ends a run nor means something else in it. -/
theorem quotedRun_of_plain (h : c.rest = ch :: rest)
    (hp : (isGap ch || ch == '\'' || ch == '"' || ch == '\\') = false) :
    quotedRun true (fuel + 1) c = (quotedRun true (fuel + 1) c.next).map (before ch.toNat) := by
  unfold quotedRun
  rw [span_of_head h (by simp only [hp, Bool.not_false])]
  generalize c.next.span _ = run
  obtain ⟨run, d⟩ := run
  dsimp only
  split_ifs
  · cases quotedRun true fuel (d.forward 2) <;> rfl
  · cases quotedRun true fuel d.next <;> rfl
  · cases escape d.next with
    | error f => rfl
    | ok r =>
      simp only [bind, Except.bind]
      cases quotedRun true fuel r.2 <;> rfl
  · rfl

private theorem quotedRun_of_space (h : c.rest = ' ' :: rest) :
    quotedRun true (fuel + 1) c = .ok ([], c) := by
  unfold quotedRun
  rw [span_of_not_head (by simp [h, isGap, endsWord])]
  simp [Cursor.head_of_cons h]
  rfl

private theorem quotedRun_of_quote (h : c.rest = '"' :: rest) :
    quotedRun true (fuel + 1) c = .ok ([], c) := by
  unfold quotedRun
  rw [span_of_not_head (by simp [h])]
  simp [Cursor.head_of_cons h]
  rfl

private theorem quotedRun_of_apostrophe (h : c.rest = '\'' :: rest) :
    quotedRun true (fuel + 1) c = (quotedRun true fuel c.next).map (before 39) := by
  conv_lhs => unfold quotedRun
  rw [span_of_not_head (by simp [h])]
  simp only [Cursor.head_of_cons h]
  cases quotedRun true fuel c.next <;> rfl

private theorem quotedRun_of_escape {code : Nat} {d : Cursor} (h : c.rest = '\\' :: rest)
    (he : escape c.next = .ok ([code], d)) :
    quotedRun true (fuel + 1) c = (quotedRun true fuel d).map (before code) := by
  conv_lhs => unfold quotedRun
  rw [span_of_not_head (by simp [h])]
  simp only [Cursor.head_of_cons h, he]
  cases hr : quotedRun true fuel d <;> simp [hr, bind, Except.bind] <;> rfl

private theorem escape_of_escaped {code : Nat} (h : c.rest = ch :: rest)
    (hc : escape? ch = some code) : escape c = .ok ([code], c.next) := by
  simp only [escape, Cursor.head_of_cons h, escapeCode?_of_escape? hc]

private theorem escape_of_unicode {x y z v : Char} {code : Nat}
    (h : c.rest = 'u' :: x :: y :: z :: v :: rest)
    (hc : Text.hexNumber? [x.toNat, y.toNat, z.toNat, v.toNat] = some code) :
    escape c = .ok ([code], c.forward 5) := by
  have hdigits : (List.range 4).map (fun i => (c.peek (i + 1)).toNat) =
      [x.toNat, y.toNat, z.toNat, v.toNat] := by
    simp [Cursor.peek, h, List.range, List.range.loop]
  have hlt := lt_of_hexNumber? hc
  have hcode : escapeCode? 'u' = none := rfl
  have hwidth : escapeWidth? 'u' = some 4 := rfl
  simp only [escape, Cursor.head_of_cons h, hcode, hwidth, hdigits, hc]
  rw [if_neg (by omega), if_neg (by omega)]

private theorem of_printable (h : 0x20 ≤ ch.toNat ∧ ch.toNat ≤ 0x7E) :
    isAllowed ch.toNat = true ∧ isBreak ch = false := by
  refine ⟨by simp [isAllowed, h], ?_⟩
  have hne {x : Char} (hx : x.toNat < 0x20 ∨ 0x7E < x.toNat) : (ch == x) = false := by
    rw [beq_eq_false_iff_ne]
    rintro rfl
    omega
  simp only [isBreak, Bool.or_eq_false_iff]
  exact ⟨⟨⟨⟨hne (by decide), hne (by decide)⟩, hne (by decide)⟩, hne (by decide)⟩, hne (by decide)⟩

private theorem printable_of_hexDigit? {n d : Nat} (h : Text.hexDigit? n = some d) :
    0x20 ≤ n ∧ n ≤ 0x7E := by
  unfold Text.hexDigit? at h
  split_ifs at h <;> omega

private theorem printable_of_escape? {code : Nat} (h : escape? ch = some code) :
    0x20 ≤ ch.toNat ∧ ch.toNat ≤ 0x7E := by
  unfold escape? at h
  split at h <;> first | decide | cases h

/-- Every character of a piece may stand in a YAML text and ends no line. -/
private theorem isAllowed_of_mem_piece {p : Piece} (hp : p.IsShared) (hch : ch ∈ p.write) :
    isAllowed ch.toNat = true ∧ isBreak ch = false := by
  cases p with
  | plain x hx => exact List.mem_singleton.1 hch ▸ hp
  | escaped x code hx =>
    simp only [Piece.write, List.mem_cons, List.not_mem_nil, or_false] at hch
    rcases hch with rfl | rfl
    · decide
    · exact of_printable (printable_of_escape? hx)
  | unicode x y z v code hx =>
    simp only [Text.hexNumber?, List.foldlM_cons, List.foldlM_nil, Option.bind_eq_bind,
      Option.bind_eq_some_iff, Option.map_eq_some_iff] at hx
    obtain ⟨_, ⟨a, ha, rfl⟩, _, ⟨b, hb, rfl⟩, _, ⟨c, hc, rfl⟩, _, ⟨d, hd, rfl⟩, -⟩ := hx
    simp only [Piece.write, List.mem_cons, List.not_mem_nil, or_false] at hch
    rcases hch with rfl | rfl | rfl | rfl | rfl | rfl
    · decide
    · decide
    · exact of_printable (printable_of_hexDigit? ha)
    · exact of_printable (printable_of_hexDigit? hb)
    · exact of_printable (printable_of_hexDigit? hc)
    · exact of_printable (printable_of_hexDigit? hd)

theorem isAllowed_of_mem_string (hs : ∀ p ∈ s, p.IsShared) (hch : ch ∈ s.write) :
    isAllowed ch.toNat = true ∧ isBreak ch = false := by
  rcases List.mem_cons.1 hch with rfl | hch
  · decide
  · rcases List.mem_append.1 hch with hch | hch
    · obtain ⟨p, hp, hch⟩ := List.mem_flatMap.1 hch
      exact isAllowed_of_mem_piece (hs p hp) hch
    · rw [List.mem_singleton.1 hch]
      decide

/-! ## Strings -/

/-- How many characters the pieces take. -/
def width (s : Pieces) : Nat := (s.flatMap Piece.write).length

private theorem width_append (s t : Pieces) : width (s ++ t) = width s + width t := by
  rw [width, List.flatMap_append, List.length_append]
  rfl

private theorem writeRest_append (s t : Pieces) :
    Pieces.writeRest (s ++ t) = s.flatMap Piece.write ++ t.writeRest := by
  rw [Pieces.writeRest, List.flatMap_append, List.append_assoc]
  rfl

private theorem writeRest_cons (p : Piece) (s : Pieces) :
    Pieces.writeRest (p :: s) = p.write ++ s.writeRest := by
  rw [← List.singleton_append, writeRest_append, List.flatMap_singleton]

private theorem length_le_width (s : Pieces) : s.length ≤ width s := by
  induction s with
  | nil => exact Nat.le_refl _
  | cons p s ih =>
    have hp : 1 ≤ p.write.length := by cases p <;> simp [Piece.write]
    rw [width, List.flatMap_cons, List.length_append, List.length_cons]
    exact (Nat.add_comm _ _).trans_le (Nat.add_le_add hp ih)

private theorem length_writeRest (s : Pieces) : s.writeRest.length = width s + 1 := by
  rw [Pieces.writeRest, List.length_append]
  rfl

/-- What is left of a string after its first pieces. -/
private theorem rest_forward_width {t : Pieces} (h : c.rest = Pieces.writeRest (s ++ t) ++ rest) :
    (c.forward (width s)).rest = t.writeRest ++ rest := by
  refine Cursor.rest_forward_of_append (h.trans ?_)
  rw [writeRest_append, List.append_assoc]

/-- A piece that is no space is read as the code point it names. -/
theorem quotedRun_of_piece {p : Piece} (hp : p.IsShared) (hne : p.write ≠ [' '])
    (h : c.rest = p.write ++ rest) : ∃ more, fuel ≤ more ∧ quotedRun true (fuel + 1) c =
      (quotedRun true more (c.forward p.write.length)).map (before p.code) := by
  cases p with
  | plain ch hch =>
    obtain ⟨hquote, hback, hcontrol⟩ := hch
    by_cases hapostrophe : ch = '\''
    · subst hapostrophe
      exact ⟨fuel, Nat.le_refl _, quotedRun_of_apostrophe h⟩
    · refine ⟨fuel + 1, Nat.le_succ _, quotedRun_of_plain h ?_⟩
      have hspace : ch ≠ ' ' := fun heq => hne (congrArg (· :: []) heq)
      have htab : ch ≠ '\t' := by rintro rfl; exact absurd hcontrol (by decide)
      have hnull : ch ≠ '\x00' := by rintro rfl; exact absurd hcontrol (by decide)
      simp [isGap, endsWord, endsLine, hp.2, hspace, htab, hnull, hapostrophe, hquote, hback]
  | escaped ch code hch =>
    have hescape : escape c.next = .ok ([code], c.next.next) :=
      escape_of_escaped (by rw [Cursor.rest_next, h]; rfl) hch
    exact ⟨fuel, Nat.le_refl _, quotedRun_of_escape h hescape⟩
  | unicode x y z v code hch =>
    have hescape : escape c.next = .ok ([code], c.next.forward 5) :=
      escape_of_unicode (by rw [Cursor.rest_next, h]; rfl) hch
    exact ⟨fuel, Nat.le_refl _, quotedRun_of_escape h hescape⟩

/-- A run goes on until a space or the closing quote. -/
theorem quotedRun_of_pieces (hs : ∀ p ∈ s, p.IsShared) (h : c.rest = s.writeRest ++ rest)
    (hf : s.length < fuel) : ∃ s₁ s₂ : Pieces, s = s₁ ++ s₂ ∧
      quotedRun true fuel c = .ok (s₁.codes, c.forward (width s₁)) ∧
      ∀ p ∈ s₂.head?, p.write = [' '] := by
  induction s generalizing c fuel with
  | nil =>
    obtain ⟨fuel, rfl⟩ := Nat.exists_eq_add_of_lt hf
    exact ⟨[], [], rfl, quotedRun_of_quote h, nofun⟩
  | cons p s ih =>
    obtain ⟨fuel, rfl⟩ : ∃ n, fuel = n + 1 := Nat.exists_eq_succ_of_ne_zero (Nat.ne_zero_of_lt hf)
    have hrest : c.rest = p.write ++ (Pieces.writeRest s ++ rest) := by
      rw [h, writeRest_cons, List.append_assoc]
    by_cases hspace : p.write = [' ']
    · have hcons : c.rest = ' ' :: (Pieces.writeRest s ++ rest) := by
        rw [hrest, hspace]
        rfl
      refine ⟨[], p :: s, rfl, quotedRun_of_space hcons, ?_⟩
      · rintro _ ⟨⟩
        exact hspace
    · obtain ⟨hp, hs⟩ := List.forall_mem_cons.1 hs
      obtain ⟨more, hmore, hrun⟩ := @quotedRun_of_piece _ _ fuel _ hp hspace hrest
      obtain ⟨s₁, s₂, rfl, hread, hstop⟩ := ih hs (Cursor.rest_forward_of_append hrest)
        (Nat.lt_of_lt_of_le (Nat.lt_of_succ_lt_succ hf) hmore)
      refine ⟨p :: s₁, s₂, rfl, ?_, hstop⟩
      rw [hrun, hread, ← Cursor.forward_add, ← List.singleton_append, width_append]
      simp [Except.map, before, width, Pieces.codes]

private theorem code_of_space {p : Piece} (hp : p.write = [' ']) : p.code = 32 := by
  cases p with
  | plain ch hch =>
    obtain rfl : ch = ' ' := List.singleton_inj.1 hp
    rfl
  | escaped => cases hp
  | unicode => cases hp

private theorem codes_of_spaces (hs : ∀ p ∈ s, p.write = [' ']) :
    codes (s.flatMap Piece.write) = s.codes := by
  induction s with
  | nil => rfl
  | cons p s ih =>
    obtain ⟨hp, hs⟩ := List.forall_mem_cons.1 hs
    have hcodes : Pieces.codes (p :: s) = p.code :: Pieces.codes s := rfl
    rw [List.flatMap_cons, hp, hcodes, code_of_space hp, ← ih hs]
    rfl

/-- A string goes on with neither a line break nor the end of the text. -/
private theorem head_of_string (hs : ∀ p ∈ s, p.IsShared) (h : c.rest = s.writeRest ++ rest) :
    isBreak c.head = false ∧ c.head ≠ '\x00' ∧
      (isBlank c.head = true → ∃ p ∈ s.head?, p.write = [' ']) := by
  cases s with
  | nil =>
    have hhead : c.head = '"' := Cursor.head_of_cons h
    rw [hhead]
    decide
  | cons p s =>
    cases p with
    | plain ch hch =>
      have hhead : c.head = ch := Cursor.head_of_cons h
      have hlow {x : Char} (hx : x.toNat < 32) : ch ≠ x := by
        rintro rfl
        omega
      rw [hhead]
      refine ⟨(hs _ List.mem_cons_self).2, hlow (by decide), fun hblank => ⟨_, rfl, ?_⟩⟩
      simp only [isBlank, Bool.or_eq_true, beq_iff_eq] at hblank
      exact congrArg (· :: []) (hblank.resolve_right (hlow (by decide)))
    | escaped =>
      have hhead : c.head = '\\' := Cursor.head_of_cons h
      rw [hhead]
      exact ⟨by decide, by decide, fun hblank => absurd hblank (by decide)⟩
    | unicode =>
      have hhead : c.head = '\\' := Cursor.head_of_cons h
      rw [hhead]
      exact ⟨by decide, by decide, fun hblank => absurd hblank (by decide)⟩

/-- A string splits behind the spaces that it begins with. -/
private theorem exists_spaces (s : Pieces) : ∃ s₁ s₂ : Pieces, s = s₁ ++ s₂ ∧
    (∀ p ∈ s₁, p.write = [' ']) ∧ ¬∃ p ∈ s₂.head?, p.write = [' '] := by
  induction s with
  | nil => exact ⟨[], [], rfl, nofun, nofun⟩
  | cons p s ih =>
    by_cases hp : p.write = [' ']
    · obtain ⟨s₁, s₂, rfl, hspaces, hstop⟩ := ih
      exact ⟨p :: s₁, s₂, rfl, List.forall_mem_cons.2 ⟨hp, hspaces⟩, hstop⟩
    · refine ⟨[], p :: s, rfl, nofun, ?_⟩
      rintro ⟨_, ⟨⟩, hspace⟩
      exact hp hspace

/-- Spaces inside a string stay as they are. -/
theorem quotedSpaces_of_pieces (hs : ∀ p ∈ s, p.IsShared) (h : c.rest = s.writeRest ++ rest)
    (hhead : ∃ p ∈ s.head?, p.write = [' ']) : ∃ s₁ s₂ : Pieces, s = s₁ ++ s₂ ∧ s₁ ≠ [] ∧
      quotedSpaces c = .ok (s₁.codes, c.forward (width s₁)) := by
  obtain ⟨s₁, s₂, rfl, hspaces, hstop⟩ := exists_spaces s
  refine ⟨s₁, s₂, rfl, ?_, ?_⟩
  · rintro rfl
    exact hstop hhead
  · obtain ⟨hbreak, hnull, hblank⟩ := head_of_string
      (fun p hp => hs p (List.mem_append_right _ hp)) (rest_forward_width h)
    have hspan : c.span isBlank = (s₁.flatMap Piece.write, c.forward (width s₁)) := by
      have hfront : c.rest = s₁.flatMap Piece.write ++ (Pieces.writeRest s₂ ++ rest) := by
        rw [h, writeRest_append, List.append_assoc]
      refine span_of_append hfront (fun ch hch => ?_) fun ch hch => ?_
      · obtain ⟨p, hp, hch⟩ := List.mem_flatMap.1 hch
        rw [hspaces p hp] at hch
        rw [List.mem_singleton.1 hch]
        rfl
      · have hhead : (c.forward (width s₁)).head = ch := by
          rw [← rest_forward_width h] at hch
          obtain ⟨cs, hcs⟩ := List.head?_eq_some_iff.1 hch
          exact Cursor.head_of_cons hcs
        rw [← hhead, ← Bool.not_eq_true]
        exact fun hb => hstop (hblank hb)
    have hend : ((c.forward (width s₁)).head == '\x00') = false := beq_false_of_ne hnull
    simp only [quotedSpaces, hspan, hend, hbreak, codes_of_spaces hspaces]
    rfl

/-- The induction is on the number of pieces: a run takes some, the spaces after it one or more. -/
theorem quotedRest_of_pieces (hs : ∀ p ∈ s, p.IsShared) (h : c.rest = s.writeRest ++ rest)
    (hf : s.length < fuel) :
    quotedRest '"' fuel c = .ok (s.codes, c.forward (width s + 1)) := by
  induction hn : s.length using Nat.strongRecOn generalizing s c fuel with
  | _ n ih =>
    subst hn
    obtain ⟨fuel, rfl⟩ : ∃ n, fuel = n + 1 := Nat.exists_eq_succ_of_ne_zero (Nat.ne_zero_of_lt hf)
    have hfuel : s.length < c.fuel := by
      have hlength := length_le_width s
      rw [Cursor.fuel, h, List.length_append, length_writeRest]
      omega
    obtain ⟨s₁, s₂, rfl, hrun, hstop⟩ := quotedRun_of_pieces hs h hfuel
    have hrest := rest_forward_width h
    have hquote : (('"' : Char) == '"') = true := rfl
    cases s₂ with
    | nil =>
      have hhead : (c.forward (width s₁)).head = '"' := Cursor.head_of_cons hrest
      simp only [quotedRest, hquote, hrun, bind, Except.bind, hhead, List.append_nil,
        Cursor.forward_add]
      rfl
    | cons p s₂ =>
      have hspace : p.write = [' '] := hstop p rfl
      have hhead : (c.forward (width s₁)).head = ' ' := by
        rw [writeRest_cons, hspace] at hrest
        exact Cursor.head_of_cons hrest
      obtain ⟨s₃, s₄, hs₂, hne, hspaces⟩ := quotedSpaces_of_pieces
        (fun p hp => hs p (List.mem_append_right _ hp)) hrest ⟨p, rfl, hspace⟩
      rw [hs₂] at hs h hf hrest ih ⊢
      have hlength : 0 < s₃.length := List.length_pos_iff.2 hne
      have hfuel : s₄.length < fuel := by
        simp only [List.length_append] at hf
        omega
      have hmore := ih s₄.length (by simp only [List.length_append]; omega)
        (fun p hp => hs p (List.mem_append_right _ (List.mem_append_right _ hp)))
        (rest_forward_width hrest) hfuel rfl
      have hother : (' ' == '"') = false := rfl
      simp only [quotedRest, hquote, hrun, bind, Except.bind, hhead, hother, hspaces, hmore,
        width_append, Cursor.forward_add, Pieces.codes, List.map_append, List.append_assoc]
      rfl

/-- A JSON string is a quoted scalar of YAML with the same code points. -/
theorem quotedScalar_of_string (hs : ∀ p ∈ s, p.IsShared) (h : c.rest = s.write ++ rest) :
    quotedScalar c = .ok (s.codes, c.forward s.write.length) := by
  have hrest : c.next.rest = s.writeRest ++ rest := by
    rw [Cursor.rest_next, h]
    rfl
  have hfuel : s.length < c.fuel := by
    have hlength := length_le_width s
    rw [Cursor.fuel, h, List.length_append, Pieces.write, List.length_cons, length_writeRest]
    omega
  rw [quotedScalar, Cursor.head_of_cons h, quotedRest_of_pieces hs hrest hfuel, Pieces.write,
    List.length_cons, length_writeRest]
  rfl

/-! ## Gaps -/

private theorem rest_forward_gap {n : Nat} (h : c.rest = g.write ++ rest) (hn : n ≤ g.length) :
    (c.forward n).rest = Gap.write (g.drop n) ++ rest := by
  rw [Cursor.rest_forward, h, List.drop_append_of_le_length (by rwa [Gap.write, List.length_map]),
    Gap.write, Gap.write, List.map_drop]

theorem rest_after_gap (h : c.rest = g.write ++ rest) : (c.forward g.length).rest = rest := by
  have hrest := rest_forward_gap h (Nat.le_refl _)
  rwa [List.drop_length] at hrest

/-- A line break in a gap takes one place, or two with the line feed behind a carriage return. -/
theorem lineBreak_of_gap {b : Blank} (hb : isBreak b.char = true)
    (h : c.rest = Gap.write (b :: g) ++ rest) (hrest : ∀ ch ∈ rest.head?, isBreak ch = false) :
    ∃ bs n, c.lineBreak = (bs, c.forward (n + 1)) ∧ n + (g.drop n).length = g.length ∧
      (c.forward (n + 1)).rest = Gap.write (g.drop n) ++ rest := by
  have hcons : c.rest = b.char :: (g.write ++ rest) := h
  obtain ⟨bs, n, hn, hline⟩ : ∃ bs n, n ≤ g.length ∧ c.lineBreak = (bs, c.forward (n + 1)) := by
    unfold Cursor.lineBreak
    split
    · next heq =>
      -- The line feed is part of the gap: what follows the gap breaks no line.
      cases g with
      | nil =>
        have htail := (List.cons.inj (hcons.symm.trans heq)).2
        exact absurd (hrest '\n' (by rw [← List.nil_append rest]; exact htail ▸ rfl)) (by decide)
      | cons d g => exact ⟨[10], 1, by simp, rfl⟩
    · next heq =>
      obtain ⟨rfl, -⟩ := List.cons.inj (heq.symm.trans hcons)
      cases b with
      | space => cases hb
      | tab => cases hb
      | lineFeed => exact ⟨[10], 0, Nat.zero_le _, rfl⟩
      | carriageReturn => exact ⟨[10], 0, Nat.zero_le _, rfl⟩
    · next heq =>
      rw [hcons] at heq
      cases heq
  exact ⟨bs, n, hline, by rw [List.length_drop]; omega,
    rest_forward_gap h (Nat.succ_le_succ hn)⟩

theorem beq_space_of_isBreak {b : Blank} (hb : isBreak b.char = true) : (b.char == ' ') = false := by
  cases b with
  | space => cases hb
  | tab | lineFeed | carriageReturn => rfl

/-- No document ends in a gap before a mark. -/
theorem atDocumentEdge_of_gap (hch : isFlowMark ch = true) (h : c.rest = g.write ++ ch :: rest) :
    c.atDocumentEdge = false := by
  have hhead : c.head ≠ '-' ∧ c.head ≠ '.' := by
    cases g with
    | nil =>
      rw [Cursor.head_of_cons h]
      constructor <;> (rintro rfl; cases hch)
    | cons b g =>
      rw [Cursor.head_of_cons h]
      cases b <;> decide
  have hpeek : c.peek 0 = c.head := rfl
  simp [Cursor.atDocumentEdge, Cursor.atMarker, hpeek, hhead]

private theorem of_isFlowMark (h : isFlowMark ch = true) :
    ch ≠ ' ' ∧ ch ≠ '#' ∧ isBreak ch = false ∧ (isGap ch || isFlowMark ch) = true := by
  simp only [isFlowMark, Bool.or_eq_true, beq_iff_eq, or_assoc] at h
  rcases h with rfl | rfl | rfl | rfl | rfl <;> decide

/-- What a gap begins with, and what it goes on with. -/
theorem isShared_cons {b : Blank} (hg : Gap.IsShared (b :: g)) :
    (b = .space ∨ isBreak b.char = true) ∧ g.IsShared := by
  obtain ⟨hb, hg⟩ := List.ne_and_not_mem_of_not_mem_cons hg
  refine ⟨?_, hg⟩
  cases b with
  | space => exact .inl rfl
  | tab => exact absurd rfl hb
  | lineFeed => exact .inr rfl
  | carriageReturn => exact .inr rfl

theorem isShared_drop (hg : g.IsShared) (n : Nat) : Gap.IsShared (g.drop n) := fun hmem =>
  hg (List.mem_of_mem_drop hmem)

/-- The induction is on the length of the gap, since a line break may take two places of it. -/
theorem plainBreaks_of_gap (hg : g.IsShared) (hch : isFlowMark ch = true)
    (h : c.rest = g.write ++ ch :: rest) (hf : g.length < fuel) :
    ∃ bs, plainBreaks fuel c = (some bs, c.forward g.length) := by
  obtain ⟨hspace, -, hbreak, -⟩ := of_isFlowMark hch
  induction hn : g.length using Nat.strongRecOn generalizing g c fuel with
  | _ n ih =>
    subst hn
    obtain ⟨fuel, rfl⟩ : ∃ n, fuel = n + 1 := Nat.exists_eq_succ_of_ne_zero (Nat.ne_zero_of_lt hf)
    cases g with
    | nil =>
      have hhead : c.head = ch := Cursor.head_of_cons h
      exact ⟨[], by simp only [plainBreaks, hhead, beq_false_of_ne hspace, hbreak]; rfl⟩
    | cons b g =>
      have hhead : c.head = b.char := Cursor.head_of_cons h
      obtain ⟨hb, hgap⟩ := isShared_cons hg
      rcases hb with rfl | hb
      · have hrest : (c.forward 1).rest = Gap.write g ++ ch :: rest :=
          rest_forward_gap (n := 1) h (by simp)
        have hfuel : g.length < fuel := Nat.succ_lt_succ_iff.1 hf
        obtain ⟨bs, hbs⟩ := ih g.length (Nat.lt_succ_self _) hgap hrest hfuel rfl
        exact ⟨bs, by rw [plainBreaks, hhead]; exact hbs⟩
      · obtain ⟨b₁, n, hline, hcount, hrest⟩ :=
          lineBreak_of_gap hb h (by rintro _ ⟨⟩; exact hbreak)
        rw [List.length_cons] at hf ih ⊢
        have hfuel : (g.drop n).length < fuel := by omega
        obtain ⟨bs, hbs⟩ := ih (g.drop n).length (by omega) (isShared_drop hgap n) hrest hfuel rfl
        refine ⟨b₁ ++ bs, ?_⟩
        simp only [plainBreaks, hhead, beq_space_of_isBreak hb, hb, hline,
          atDocumentEdge_of_gap hch hrest, hbs, ← Cursor.forward_add]
        rw [← hcount, Nat.add_right_comm]
        rfl

/-! ## Words -/

/-- A character that goes on with a plain scalar wherever it stands. -/
def isWordChar (ch : Char) : Bool := !(isGap ch || isFlowMark ch || ":?#".toList.contains ch)

private theorem plainRun_of_word (hw : ∀ ch ∈ w, isWordChar ch = true)
    (hch : (isGap ch || isFlowMark ch) = true) : plainRun true (w ++ ch :: rest) = w := by
  induction w with
  | nil =>
    rw [List.nil_append, plainRun]
    simp only [Bool.or_eq_true] at hch
    rcases hch with hch | hch <;> simp [hch]
  | cons x w ih =>
    obtain ⟨hx, hw⟩ := List.forall_mem_cons.1 hw
    simp only [isWordChar, Bool.not_eq_true', Bool.or_eq_false_iff] at hx
    obtain ⟨⟨hgap, hmark⟩, hother⟩ := hx
    have hcolon : (x == ':') = false := by
      rw [beq_eq_false_iff_ne]
      rintro rfl
      cases hother
    have hask : (x == '?') = false := by
      rw [beq_eq_false_iff_ne]
      rintro rfl
      cases hother
    rw [List.cons_append, plainRun]
    simp only [hgap, hmark, hcolon, hask, ih hw]
    rfl

private theorem plainSpaces_of_space (h : c.rest = ' ' :: rest) :
    ∃ following, plainSpaces c = (following, (plainSpaces c.next).2) := by
  unfold plainSpaces
  rw [span_of_head h rfl]
  generalize c.next.span _ = run
  obtain ⟨run, d⟩ := run
  dsimp only
  split
  · exact ⟨_, rfl⟩
  · exact ⟨_, rfl⟩

/-- Behind a word a gap is passed, and may end the line. -/
theorem plainSpaces_of_gap (hg : g.IsShared) (hch : isFlowMark ch = true)
    (h : c.rest = g.write ++ ch :: rest) :
    ∃ following broke, plainSpaces c = (following, c.forward g.length, broke) := by
  obtain ⟨hspace, -, hbreak, -⟩ := of_isFlowMark hch
  induction g generalizing c with
  | nil =>
    have hhead : c.head = ch := Cursor.head_of_cons h
    have hrest : c.rest = ch :: rest := h
    refine ⟨[], false, ?_⟩
    rw [plainSpaces, span_of_not_head (by simp [hrest, hspace])]
    simp only [hhead, hbreak]
    rfl
  | cons b g ih =>
    obtain ⟨hb, hgap⟩ := isShared_cons hg
    rcases hb with rfl | hb
    · have hrest : c.next.rest = Gap.write g ++ ch :: rest := rest_forward_gap (n := 1) h (by simp)
      obtain ⟨following, hspaces⟩ := plainSpaces_of_space h
      obtain ⟨_, broke, hnext⟩ := ih hgap hrest
      exact ⟨following, broke, by rw [hspaces, hnext]; rfl⟩
    · have hcons : c.rest = b.char :: (Gap.write g ++ ch :: rest) := h
      obtain ⟨b₁, n, hline, hcount, hrest⟩ :=
        lineBreak_of_gap hb h (by rintro _ ⟨⟩; exact hbreak)
      have hfuel : (g.drop n).length < (c.forward (n + 1)).fuel := by
        rw [Cursor.fuel, hrest, List.length_append, Gap.write, List.length_map]
        omega
      obtain ⟨bs, hbs⟩ := plainBreaks_of_gap (isShared_drop hgap n) hch hrest hfuel
      have hspan : c.span (· == ' ') = ([], c) :=
        span_of_not_head (by rw [hcons]; rintro _ ⟨⟩; exact beq_space_of_isBreak hb)
      rw [List.length_cons, ← hcount, ← Nat.add_right_comm, Cursor.forward_add, plainSpaces, hspan]
      simp only [Cursor.head_of_cons hcons, hb, hline, atDocumentEdge_of_gap hch hrest, hbs]
      exact ⟨_, _, rfl⟩

private theorem plainRun_of_gap (hw : ∀ ch ∈ w, isWordChar ch = true) (hch : isFlowMark ch = true) :
    plainRun true (w ++ (g.write ++ ch :: rest)) = w := by
  cases g with
  | nil => exact plainRun_of_word hw (of_isFlowMark hch).2.2.2
  | cons b g =>
    have hb : (isGap b.char || isFlowMark b.char) = true := by cases b <;> rfl
    exact plainRun_of_word hw hb

/-- In a flow collection a word ends at the gap before the next mark. -/
theorem plainScalar_of_word {indent : Int} (hw : ∀ ch ∈ w, isWordChar ch = true) (hne : w ≠ [])
    (hg : g.IsShared) (hch : isFlowMark ch = true) (h : c.rest = w ++ (g.write ++ ch :: rest)) :
    ∃ broke, plainScalar true indent c = (codes w, c.forward (w.length + g.length), broke) := by
  have hrest := Cursor.rest_forward_of_append h
  obtain ⟨following, broke, hspaces⟩ := plainSpaces_of_gap hg hch hrest
  have hmark : ((c.forward w.length).forward g.length).rest = ch :: rest := rest_after_gap hrest
  have hhead : (c.head == '#') = false := by
    obtain ⟨x, w, rfl⟩ := List.exists_cons_of_ne_nil hne
    rw [Cursor.head_of_cons h, beq_eq_false_iff_ne]
    rintro rfl
    exact absurd (hw '#' List.mem_cons_self) (by decide)
  have hrun : plainRun true c.rest = w := h ▸ plainRun_of_gap hw hch
  have hempty : w.isEmpty = false := by simpa using hne
  -- No word follows the gap, so nothing is added to the first one.
  have hnone {n : Nat} {spaces : List Nat} :
      plainFrom true indent n spaces ((c.forward w.length).forward g.length) broke =
        ([], (c.forward w.length).forward g.length, broke) := by
    cases n with
    | zero => rfl
    | succ n =>
      have hstop : plainRun true (ch :: rest) = [] :=
        plainRun_of_word (w := []) nofun (of_isFlowMark hch).2.2.2
      simp [plainFrom, hmark, hstop]
  refine ⟨broke, ?_⟩
  rw [plainScalar, Cursor.fuel, plainFrom]
  simp only [hhead, hrun, hempty, hspaces, hnone, Bool.false_eq_true, if_false, Cursor.forward_add,
    List.nil_append, List.append_nil, ite_self]

end Flowchart.Yaml
