import Flowchart.Proofs.Lists
import Flowchart.Proofs.Numeral
import Mathlib.Data.List.TakeWhile
/-! The reader of JSON reads the texts of the grammar and no others, each with the value of its
tree. -/
namespace Flowchart.Json

/-! ## White space -/

section
variable {ch : Char} {cs rest : List Char} {g : Gap} {s : Pieces}

private theorem isSpace_char (b : Blank) : isSpace b.char = true := by cases b <;> rfl

private theorem exists_blank (h : isSpace ch = true) : ∃ b : Blank, b.char = ch := by
  simp only [isSpace, Bool.or_eq_true, beq_iff_eq] at h
  rcases h with ((rfl | rfl) | rfl) | rfl
  · exact ⟨.space, rfl⟩
  · exact ⟨.tab, rfl⟩
  · exact ⟨.lineFeed, rfl⟩
  · exact ⟨.carriageReturn, rfl⟩

private theorem skip_gap (g : Gap) (cs : List Char) : skip (g.write ++ cs) = skip cs := by
  induction g with
  | nil => rfl
  | cons b g ih => exact (List.dropWhile_cons_of_pos (isSpace_char b)).trans ih

private theorem skip_of_not_isSpace (h : isSpace ch = false) : skip (ch :: cs) = ch :: cs :=
  List.dropWhile_cons_of_neg (by simp [h])

/-- What is skipped is a gap. -/
private theorem exists_gap (cs : List Char) : ∃ g : Gap, cs = g.write ++ skip cs := by
  induction cs with
  | nil => exact ⟨[], rfl⟩
  | cons ch cs ih =>
    by_cases hch : isSpace ch = true
    · obtain ⟨g, hg⟩ := ih
      obtain ⟨b, rfl⟩ := exists_blank hch
      refine ⟨b :: g, ?_⟩
      have hskip : skip (b.char :: cs) = skip cs := List.dropWhile_cons_of_pos hch
      rw [hskip]
      exact congrArg (b.char :: ·) hg
    · exact ⟨[], (skip_of_not_isSpace (Bool.not_eq_true _ ▸ hch)).symm⟩

private theorem skip_skip (cs : List Char) : skip (skip cs) = skip cs := by
  obtain ⟨g, hg⟩ := exists_gap cs
  rw [← skip_gap g (skip cs), ← hg]

/-! ## Strings -/

private theorem string?_of_piece {p : Piece} : string? (p.write ++ cs) =
    (string? cs).map fun r => (p.code :: r.1, r.2) := by
  cases p with
  | plain ch h =>
    obtain ⟨hquote, hback, hcontrol⟩ := h
    have hwrite : (Piece.plain ch ⟨hquote, hback, hcontrol⟩).write ++ cs = ch :: cs := rfl
    rw [hwrite, string?]
    · rw [if_neg (by omega)]
      rfl
    · exact hquote
    · rintro _ _ _ _ _ rfl
      exact absurd rfl hback
    · rintro _ _ rfl
      exact absurd rfl hback
  | escaped ch code h =>
    have hwrite : (Piece.escaped ch code h).write ++ cs = '\\' :: ch :: cs := rfl
    have hu : ch ≠ 'u' := by
      rintro rfl
      cases h
    rw [hwrite, string?]
    · rw [h]
      cases string? cs <;> rfl
    · rintro _ _ _ _ _ rfl
      exact absurd rfl hu
  | unicode a b c d code h =>
    have hwrite : (Piece.unicode a b c d code h).write ++ cs =
        '\\' :: 'u' :: a :: b :: c :: d :: cs := rfl
    rw [hwrite, string?, h]
    cases string? cs <;> rfl

private theorem string?_write (s : Pieces) (rest : List Char) :
    string? (s.writeRest ++ rest) = some (s.codes, rest) := by
  induction s with
  | nil => rfl
  | cons p s ih =>
    have hcons : Pieces.writeRest (p :: s) ++ rest = p.write ++ (Pieces.writeRest s ++ rest) := by
      simp [Pieces.writeRest]
    rw [hcons, string?_of_piece, ih]
    rfl

private theorem text?_write (s : Pieces) (rest : List Char) :
    text? (s.writeRest ++ rest) = some (s.text, rest) := by
  rw [text?, string?_write]
  rfl

/-- What is read as a string is one. -/
private theorem exists_string {codes : List Nat} (h : string? cs = some (codes, rest)) :
    ∃ s : Pieces, cs = s.writeRest ++ rest := by
  fun_induction string? cs generalizing codes with
  | case1 => cases h
  | case2 cs =>
    cases h
    exact ⟨[], rfl⟩
  | case3 a b c d cs ih =>
    simp only [Option.bind_eq_bind, Option.bind_eq_some_iff] at h
    obtain ⟨code, hcode, ⟨codes', rest'⟩, hread, hr⟩ := h
    cases hr
    obtain ⟨s, rfl⟩ := ih hread
    exact ⟨.unicode a b c d code hcode :: s, rfl⟩
  | case4 ch cs _ ih =>
    simp only [Option.bind_eq_bind, Option.bind_eq_some_iff] at h
    obtain ⟨code, hcode, ⟨codes', rest'⟩, hread, hr⟩ := h
    cases hr
    obtain ⟨s, rfl⟩ := ih hread
    exact ⟨.escaped ch code hcode :: s, rfl⟩
  | case5 => cases h
  | case6 ch cs hquote _ hescape hcontrol ih =>
    obtain ⟨⟨codes', rest'⟩, hread, hr⟩ := Option.map_eq_some_iff.1 h
    cases hr
    have hback : ch ≠ '\\' := by
      rintro rfl
      cases cs with
      | nil => cases hread
      | cons c cs => exact hescape c cs rfl rfl
    obtain ⟨s, rfl⟩ := ih hread
    exact ⟨.plain ch ⟨hquote, hback, by omega⟩ :: s, rfl⟩

end

/-! ## Numbers -/

section
variable {cs rest : List Char} {n : Numeral} {v : Value}

private theorem isDigit_digitChar (d : Fin 10) : (digitChar d).isDigit = true := by
  revert d
  decide

private theorem isDigit_iff {ch : Char} : ch.isDigit = true ↔ 48 ≤ ch.toNat ∧ ch.toNat ≤ 57 := by
  simp only [Char.isDigit, ge_iff_le, Bool.and_eq_true, decide_eq_true_eq, UInt32.le_iff_toNat_le]
  rfl

private theorem exists_digit {ch : Char} (h : ch.isDigit = true) :
    ∃ d : Fin 10, digitChar d = ch := by
  have hrange := isDigit_iff.1 h
  have hcode : 48 + (ch.toNat - 48) = ch.toNat := by omega
  exact ⟨⟨ch.toNat - 48, by omega⟩, (congrArg Char.ofNat hcode).trans (Char.ofNat_toNat ch)⟩

private theorem exists_digits (h : ∀ ch ∈ cs, Char.isDigit ch = true) :
    ∃ ds : List (Fin 10), cs = ds.map digitChar := by
  induction cs with
  | nil => exact ⟨[], rfl⟩
  | cons ch cs ih =>
    obtain ⟨hch, hcs⟩ := List.forall_mem_cons.1 h
    obtain ⟨d, rfl⟩ := exists_digit hch
    obtain ⟨ds, rfl⟩ := ih hcs
    exact ⟨d :: ds, rfl⟩

private theorem span_digits {ds : List (Fin 10)} (h : ∀ ch ∈ rest.head?, Char.isDigit ch = false) :
    (ds.map digitChar ++ rest).takeWhile Char.isDigit = ds.map digitChar ∧
      (ds.map digitChar ++ rest).dropWhile Char.isDigit = rest := by
  refine span_append (fun ch hch => ?_) h
  obtain ⟨d, -, rfl⟩ := List.mem_map.1 hch
  exact isDigit_digitChar d

/-- The characters behind the digits before the point. -/
def Numeral.tail (n : Numeral) : List Char :=
  (n.fraction.elim [] fun ds => '.' :: ds.write) ++ n.exponent.elim [] Exponent.write

private theorem head?_tail : ∀ ch ∈ n.tail.head?, ch ∈ ['.', 'e', 'E'] := by
  unfold Numeral.tail
  cases n.fraction with
  | some ds => simp
  | none =>
    cases n.exponent with
    | none => nofun
    | some e => cases h : e.upper <;> simp [Exponent.write, h]

/-- A numeral begins with a sign or a digit. -/
private theorem Numeral.exists_write_eq (n : Numeral) :
    ∃ ch cs, n.write = ch :: cs ∧ ch ∈ "-0123456789".toList := by
  unfold Numeral.write
  cases n.negative with
  | true => exact ⟨'-', _, rfl, by decide⟩
  | false =>
    have hdigit : ∀ d : Fin 10, digitChar d ∈ "-0123456789".toList := by decide
    exact ⟨digitChar n.whole.first, _, rfl, hdigit _⟩

private theorem takeMinus_write (n : Numeral) :
    takeMinus n.write = (n.negative, n.whole.write ++ n.tail) := by
  have hwrite : n.write = (if n.negative then ['-'] else []) ++ (n.whole.write ++ n.tail) := by
    simp [Numeral.write, Numeral.tail]
  rw [hwrite]
  cases n.negative with
  | true => rfl
  | false =>
    have hfirst : digitChar n.whole.first ≠ '-' := by
      generalize n.whole.first = d
      revert d
      decide
    have hcons : n.whole.write ++ n.tail =
        digitChar n.whole.first :: (n.whole.others.map digitChar ++ n.tail) := rfl
    rw [if_neg (by decide), List.nil_append, hcons]
    unfold takeMinus
    split
    · next heq => exact absurd (List.cons.inj heq).1 hfirst
    · rfl

/-- The digits before the point are not padded with a zero. -/
private theorem Numeral.not_padded (n : Numeral) : ¬(n.whole.write.isEmpty = true ∨
    1 < n.whole.write.length ∧ n.whole.write.head? = some '0') := by
  rintro (hempty | ⟨hlength, hhead⟩)
  · cases hempty
  · have hfirst : n.whole.first = 0 := by
      have hdigit : ∀ d : Fin 10, some (digitChar d) = some '0' → d = 0 := by decide
      exact hdigit _ hhead
    have hothers : n.whole.write.length = n.whole.others.length + 1 := List.length_map ..
    rw [hothers, n.noLeadingZero hfirst] at hlength
    exact absurd hlength (by decide)

private theorem Digits.foldl_write (ds : Digits) :
    ds.write.foldl (fun n c => n * 10 + (c.toNat - 48)) 0 = digitsValue ds.list := by
  rw [Digits.write, List.foldl_map, digitsValue]
  simp only [toNat_digitChar, Nat.add_sub_cancel_left]

private theorem number?_write (n : Numeral) : number? n.write = some n.value := by
  obtain ⟨htake, hdrop⟩ : (n.whole.write ++ n.tail).takeWhile Char.isDigit = n.whole.write ∧
      (n.whole.write ++ n.tail).dropWhile Char.isDigit = n.tail := by
    refine span_digits fun ch hch => ?_
    have hall : ∀ ch ∈ ['.', 'e', 'E'], Char.isDigit ch = false := by simp
    exact hall ch (head?_tail ch hch)
  have hread : Double.read? Text.asciiDigit? (n.write.map Char.toNat) = some n.double := by
    rw [Numeral.map_toNat_write]
    exact Numeral.read?_codes readsDigits_ascii
  simp only [number?, takeMinus_write, htake, hdrop, if_neg n.not_padded, n.whole.foldl_write,
    hread, Numeral.value]
  cases hf : n.fraction with
  | none =>
    cases he : n.exponent with
    | none => simp [Numeral.tail, hf, he]
    | some e =>
      have hdot : e.write.head? ≠ some '.' := by cases h : e.upper <;> simp [Exponent.write, h]
      have hempty : e.write.isEmpty = false := rfl
      have htail : n.tail = e.write := by simp [Numeral.tail, hf, he]
      simp [htail, hdot, hempty]
  | some ds =>
    have htail : n.tail = '.' :: digitChar ds.first ::
        (ds.others.map digitChar ++ n.exponent.elim [] Exponent.write) := by
      rw [Numeral.tail, hf]
      rfl
    simp [htail, isDigit_digitChar]

/-- A text splits behind its leading digits. -/
private theorem exists_span (cs : List Char) : ∃ (ds : List (Fin 10)) (rest : List Char),
    cs = ds.map digitChar ++ rest ∧ ∀ ch ∈ rest.head?, Char.isDigit ch = false := by
  obtain ⟨ds, hds⟩ := exists_digits fun ch hch => List.mem_takeWhile_imp hch
  refine ⟨ds, cs.dropWhile Char.isDigit, ?_, fun ch hch => ?_⟩
  · rw [← hds, List.takeWhile_append_dropWhile]
  · have hnot := List.head?_dropWhile_not Char.isDigit cs
    rw [Option.mem_def.1 hch] at hnot
    exact hnot

private theorem asciiDigit?_eq_none {ch : Char} (h : ch.isDigit = false) :
    Text.asciiDigit? ch.toNat = none :=
  if_neg fun hrange => Bool.false_ne_true (h.symm.trans (isDigit_iff.2 hrange))

private theorem takeDigits_map {ds : List (Fin 10)}
    (h : ∀ ch ∈ rest.head?, Char.isDigit ch = false) :
    Double.takeDigits Text.asciiDigit? ((ds.map digitChar ++ rest).map Char.toNat) =
      (digitsValue ds, ds.length, rest.map Char.toNat) := by
  rw [List.map_append, map_toNat_digitChar]
  refine takeDigits_append readsDigits_ascii fun c hc => ?_
  rw [List.head?_map] at hc
  obtain ⟨ch, hch, rfl⟩ := Option.mem_map.1 hc
  exact asciiDigit?_eq_none (h ch hch)

private theorem eq_of_toNat {ch x : Char} (h : ch.toNat = x.toNat) : ch = x := by
  rw [← Char.ofNat_toNat ch, h, Char.ofNat_toNat]

private theorem exists_sign (cs : List Char) : ∃ (sign : Option Sign) (rest : List Char),
    cs = (sign.map Sign.char).toList ++ rest ∧
      (Text.takeSign (cs.map Char.toNat)).2 = rest.map Char.toNat := by
  cases cs with
  | nil => exact ⟨none, [], rfl, rfl⟩
  | cons ch cs =>
    by_cases hplus : ch = '+'
    · subst hplus
      exact ⟨some .plus, cs, rfl, rfl⟩
    · by_cases hminus : ch = '-'
      · subst hminus
        exact ⟨some .minus, cs, rfl, rfl⟩
      · refine ⟨none, ch :: cs, rfl, ?_⟩
        rw [List.map_cons]
        unfold Text.takeSign
        split
        · next heq => exact absurd (eq_of_toNat (List.cons.inj heq).1) hplus
        · next heq => exact absurd (eq_of_toNat (List.cons.inj heq).1) hminus
        · rfl

private theorem exists_exponent {e : Int}
    (h : Double.exponent? Text.asciiDigit? (cs.map Char.toNat) = some e) :
    ∃ x : Option Exponent, cs = x.elim [] Exponent.write := by
  cases cs with
  | nil => exact ⟨none, rfl⟩
  | cons ch cs =>
    obtain ⟨sign, after, rfl, hsign⟩ := exists_sign cs
    obtain ⟨ds, rest, rfl, hrest⟩ := exists_span after
    simp only [List.map_cons, Double.exponent?, hsign, takeDigits_map hrest] at h
    split at h
    · next hletter =>
      split at h
      · cases h
      · next hcount =>
        obtain ⟨hds, hend⟩ := not_or.1 hcount
        obtain ⟨d, ds, rfl⟩ := List.exists_cons_of_length_pos (Nat.pos_of_ne_zero hds)
        obtain rfl : rest = [] := by simpa using hend
        obtain ⟨upper, rfl⟩ : ∃ upper : Bool, ch = if upper then 'E' else 'e' := by
          rcases hletter with hletter | hletter
          · exact ⟨false, eq_of_toNat hletter⟩
          · exact ⟨true, eq_of_toNat hletter⟩
        exact ⟨some ⟨upper, sign, ⟨d, ds⟩⟩, by rw [List.append_nil]; rfl⟩
    · cases h

private theorem takeMinus_eq (cs : List Char) :
    cs = (if (takeMinus cs).1 then ['-'] else []) ++ (takeMinus cs).2 := by
  unfold takeMinus
  split <;> rfl

/-- What follows the digits before the point in a decimal is the rest of a numeral. -/
private theorem exists_fraction {e : Int}
    (hpoint : (if rest.head? = some '.' then rest[1]? else some '0').any Char.isDigit = true)
    (h : Double.exponent? Text.asciiDigit?
      (Double.takeFraction Text.asciiDigit? (rest.map Char.toNat)).2.2 = some e) :
    ∃ (fraction : Option Digits) (exponent : Option Exponent),
      rest = (fraction.elim [] fun ds => '.' :: ds.write) ++ exponent.elim [] Exponent.write := by
  by_cases hdot : rest.head? = some '.'
  · obtain ⟨part, rfl⟩ := List.head?_eq_some_iff.1 hdot
    obtain ⟨ds, after, rfl, hafter⟩ := exists_span part
    have htake : Double.takeFraction Text.asciiDigit?
        (('.' :: (ds.map digitChar ++ after)).map Char.toNat) =
          (digitsValue ds, ds.length, after.map Char.toNat) := takeDigits_map hafter
    rw [htake] at h
    obtain ⟨x, hx⟩ := exists_exponent h
    cases ds with
    | nil =>
      rw [if_pos hdot] at hpoint
      obtain ⟨ch, hch, hdigit⟩ := (Option.any_eq_true _ _).1 hpoint
      have hhead : after.head? = some ch := by rw [List.head?_eq_getElem?]; exact hch
      rw [hafter ch hhead] at hdigit
      cases hdigit
    | cons d ds => exact ⟨some ⟨d, ds⟩, x, by rw [hx]; rfl⟩
  · have htake : Double.takeFraction Text.asciiDigit? (rest.map Char.toNat) =
        (0, 0, rest.map Char.toNat) := by
      unfold Double.takeFraction
      split
      · next heq =>
        obtain ⟨ch, cs, rfl, hch, -⟩ := List.map_eq_cons_iff.1 heq
        exact absurd (congrArg some (eq_of_toNat hch)) hdot
      · rfl
    rw [htake] at h
    obtain ⟨x, hx⟩ := exists_exponent h
    exact ⟨none, x, hx⟩

/-- Where a decimal is read, its exponent is read behind the digits before the point and those after
it. -/
private theorem exists_exponent_of_read {negative : Bool} {d : Fin 10} {ds : List (Fin 10)}
    {x : Double} (hrest : ∀ ch ∈ rest.head?, Char.isDigit ch = false)
    (hcs : cs = (if negative then ['-'] else []) ++ ((d :: ds).map digitChar ++ rest))
    (h : Double.read? Text.asciiDigit? (cs.map Char.toNat) = some x) :
    ∃ e, Double.exponent? Text.asciiDigit?
      (Double.takeFraction Text.asciiDigit? (rest.map Char.toNat)).2.2 = some e := by
  have hsign : Text.takeSign (cs.map Char.toNat) =
      (negative, (48 + d.val) :: (ds.map digitChar ++ rest).map Char.toNat) := by
    rw [hcs]
    cases negative with
    | true => simp [Text.takeSign, toNat_digitChar]
    | false =>
      simp only [Bool.false_eq_true, if_false, List.nil_append, List.map_cons, List.cons_append,
        toNat_digitChar]
      exact Numeral.takeSign_cons d _
  have hwhole : Double.takeDigits Text.asciiDigit?
      ((48 + d.val) :: (ds.map digitChar ++ rest).map Char.toNat) =
        (digitsValue (d :: ds), (d :: ds).length, rest.map Char.toNat) := by
    rw [← toNat_digitChar]
    exact @takeDigits_map rest (d :: ds) hrest
  rw [Numeral.read?_of_takeSign hsign] at h
  simp only [Double.unsigned?, hwhole] at h
  obtain ⟨-, h⟩ := Option.ite_none_left_eq_some.1 h
  obtain ⟨e, he, -⟩ := Option.bind_eq_some_iff.1 h
  exact ⟨e, he⟩

private theorem exists_number (h : number? cs = some v) : ∃ n : Numeral, n.write = cs := by
  have hsplit := takeMinus_eq cs
  unfold number? at h
  generalize takeMinus cs = signed at h hsplit
  obtain ⟨negative, body⟩ := signed
  obtain ⟨ds, rest, rfl, hrest⟩ := exists_span body
  obtain ⟨htake, hdrop⟩ := @span_digits rest ds hrest
  simp only [htake, hdrop] at h
  split at h
  · cases h
  · next hzero =>
    obtain ⟨hempty, hleading⟩ := not_or.1 hzero
    cases ds with
    | nil => exact absurd rfl hempty
    | cons d ds =>
      have hnone : d = 0 → ds = [] := by
        rintro rfl
        by_contra hne
        refine hleading ⟨?_, rfl⟩
        have hlength := List.length_pos_iff.2 hne
        simpa using hlength
      split at h
      · next hend =>
        refine ⟨⟨negative, ⟨d, ds⟩, none, none, hnone⟩, ?_⟩
        rw [hsplit, List.isEmpty_iff.1 hend]
        simp [Numeral.write, Digits.write, Digits.list]
      · obtain ⟨hpoint, hread⟩ := Option.ite_none_right_eq_some.1 h
        obtain ⟨x, hread, -⟩ := Option.map_eq_some_iff.1 hread
        obtain ⟨e, hexponent⟩ := exists_exponent_of_read hrest hsplit hread
        obtain ⟨fraction, exponent, rfl⟩ := exists_fraction hpoint hexponent
        refine ⟨⟨negative, ⟨d, ds⟩, fraction, exponent, hnone⟩, ?_⟩
        rw [hsplit]
        simp [Numeral.write, Digits.write, Digits.list]

end

/-! ## Words -/

section
variable {cs rest : List Char} {v : Value} {f : Form}

/-- No number goes on behind a value. -/
def EndsValue (rest : List Char) : Prop := ∀ ch ∈ rest.head?, isNumberPart ch = false

private theorem word?_number (n : Numeral) (h : EndsValue rest) :
    word? (n.write ++ rest) = some (n.value, rest) := by
  have hparts : ∀ ch ∈ n.write, isNumberPart ch = true := Numeral.forall_mem_write (by decide)
  obtain ⟨htake, hdrop⟩ := span_append hparts h
  have hhead {ch : Char} {cs : List Char} (hch : isNumberPart ch = false) :
      n.write ++ rest ≠ ch :: cs := by
    obtain ⟨x, w, hw, -⟩ := n.exists_write_eq
    rw [hw]
    rintro ⟨⟩
    rw [hparts ch (hw ▸ List.mem_cons_self)] at hch
    cases hch
  unfold word?
  split
  · next heq => exact absurd heq (hhead (by decide))
  · next heq => exact absurd heq (hhead (by decide))
  · next heq => exact absurd heq (hhead (by decide))
  · rw [htake, hdrop, number?_write]
    rfl

private theorem exists_word (h : word? cs = some (v, rest)) : ∃ f : Form, cs = f.write ++ rest := by
  unfold word? at h
  split at h
  · cases h
    exact ⟨.null, rfl⟩
  · cases h
    exact ⟨.bool true, rfl⟩
  · cases h
    exact ⟨.bool false, rfl⟩
  · obtain ⟨v', hv, hr⟩ := Option.map_eq_some_iff.1 h
    cases hr
    obtain ⟨n, hn⟩ := exists_number hv
    refine ⟨.number n, ?_⟩
    rw [Form.write, hn, List.takeWhile_append_dropWhile]

/-! ## Values -/

private theorem value?_skip (fuel : Nat) (cs : List Char) :
    value? fuel (skip cs) = value? fuel cs := by
  cases fuel with
  | zero => rfl
  | succ fuel => rw [value?, value?, skip_skip]

private theorem items?_skip (fuel : Nat) (cs : List Char) :
    items? fuel (skip cs) = items? fuel cs := by
  cases fuel with
  | zero => rfl
  | succ fuel => rw [items?, items?, value?_skip]

private theorem entries?_skip (fuel : Nat) (cs : List Char) :
    entries? fuel (skip cs) = entries? fuel cs := by
  cases fuel with
  | zero => rfl
  | succ fuel => rw [entries?, entries?, skip_skip]

private theorem value?_gap (fuel : Nat) (g : Gap) (cs : List Char) :
    value? fuel (g.write ++ cs) = value? fuel cs := by
  rw [← value?_skip, skip_gap, value?_skip]

private theorem Form.exists_write_eq (f : Form) :
    ∃ ch cs, f.write = ch :: cs ∧ ch ∈ "-0123456789ntf\"[\x7b".toList := by
  cases f with
  | null => exact ⟨'n', _, rfl, by decide⟩
  | bool b => cases b <;> exact ⟨_, _, rfl, by decide⟩
  | number n =>
    obtain ⟨ch, cs, hcs, hch⟩ := n.exists_write_eq
    have hall : "-0123456789".toList ⊆ "-0123456789ntf\"[\x7b".toList := by decide
    exact ⟨ch, cs, hcs, hall hch⟩
  | string s => exact ⟨'"', _, rfl, by decide⟩
  | emptyArray gap => exact ⟨'[', _, rfl, by decide⟩
  | array items => exact ⟨'[', _, rfl, by decide⟩
  | emptyObject gap => exact ⟨'\x7b', _, rfl, by decide⟩
  | object entries => exact ⟨'\x7b', _, rfl, by decide⟩

private theorem skip_form (f : Form) (cs : List Char) : skip (f.write ++ cs) = f.write ++ cs := by
  obtain ⟨ch, w, hw, hch⟩ := f.exists_write_eq
  have hall : ∀ ch ∈ "-0123456789ntf\"[\x7b".toList, isSpace ch = false := by simp [isSpace]
  rw [hw]
  exact skip_of_not_isSpace (hall ch hch)

private theorem value?_number {fuel : Nat} (n : Numeral) (h : EndsValue rest) :
    value? (fuel + 1) (n.write ++ rest) = some (n.value, rest) := by
  have hskip : skip (n.write ++ rest) = n.write ++ rest := skip_form (.number n) rest
  obtain ⟨ch, cs, hcs, hch⟩ := n.exists_write_eq
  have hhead {x : Char} {xs : List Char} (hx : x ∉ "-0123456789".toList) :
      n.write ++ rest ≠ x :: xs := by
    rw [hcs]
    rintro ⟨⟩
    exact hx hch
  rw [value?, hskip]
  split
  · next heq => exact absurd heq (hhead (by decide))
  · next heq => exact absurd heq (hhead (by decide))
  · next heq => exact absurd heq (hhead (by decide))
  · exact word?_number n h

private theorem endsValue_gap {g : Gap} {ch : Char} (hch : isNumberPart ch = false) :
    EndsValue (g.write ++ ch :: rest) := by
  cases g with
  | nil =>
    rintro _ ⟨⟩
    exact hch
  | cons b g =>
    rintro _ ⟨⟩
    cases b <;> rfl

/-- Behind a gap comes the mark after it. -/
private theorem skip_mark {ch : Char} (g : Gap) (hch : isSpace ch = false) (cs : List Char) :
    skip (g.write ++ ch :: cs) = ch :: cs :=
  (skip_gap g (ch :: cs)).trans (skip_of_not_isSpace hch)

private theorem Items.skip_write (items : Items) (rest cs : List Char) :
    skip (items.write ++ rest) ≠ ']' :: cs := by
  have hform (f : Form) (ds : List Char) : f.write ++ ds ≠ ']' :: cs := by
    obtain ⟨ch, w, hw, hch⟩ := f.exists_write_eq
    rw [hw]
    rintro ⟨⟩
    exact absurd hch (by decide)
  cases items with
  | last before f after =>
    rw [Items.write, List.append_assoc, List.append_assoc, List.append_assoc, skip_gap, skip_form]
    exact hform f _
  | more before f after items =>
    rw [Items.write, List.append_assoc, List.append_assoc, List.append_assoc, skip_gap, skip_form]
    exact hform f _

private theorem Entries.skip_write (entries : Entries) (rest : List Char) :
    ∃ cs, skip (entries.write ++ rest) = '"' :: cs := by
  have hquote : isSpace '"' = false := rfl
  cases entries with
  | last before key behind gap f after =>
    simp only [Entries.write, Pieces.write, List.append_assoc, List.cons_append,
      skip_mark before hquote]
    exact ⟨_, rfl⟩
  | more before key behind gap f after entries =>
    simp only [Entries.write, Pieces.write, List.append_assoc, List.cons_append,
      skip_mark before hquote]
    exact ⟨_, rfl⟩

/-! One equation for each kind of value that a mark opens. -/

private theorem value?_quote {fuel : Nat} : value? (fuel + 1) ('"' :: cs) =
    (text? cs).map fun r => (.text r.1, r.2) := rfl

private theorem value?_bracket {fuel : Nat} : value? (fuel + 1) ('[' :: cs) = match skip cs with
    | ']' :: rest => some (.list [], rest)
    | cs => (items? fuel cs).map fun r => (.list r.1, r.2) := rfl

private theorem value?_brace {fuel : Nat} : value? (fuel + 1) ('\x7b' :: cs) = match skip cs with
    | '\x7d' :: rest => some (.map [], rest)
    | cs => (entries? fuel cs).map fun r => (.map (Table.ofEntries r.1), r.2) := rfl

mutual

/-- The reader takes every value, and what follows it stays. -/
theorem Form.value?_write {fuel : Nat} {rest : List Char} : (f : Form) → f.write.length ≤ fuel →
    EndsValue rest → value? fuel (f.write ++ rest) = some (f.value, rest)
  | .null, h, _ => by
    obtain ⟨fuel, rfl⟩ := Nat.exists_eq_add_of_le' h
    rfl
  | .bool b, h, _ => by
    cases b <;>
    · obtain ⟨fuel, rfl⟩ := Nat.exists_eq_add_of_le' h
      rfl
  | .number n, h, hrest => by
    obtain ⟨ch, cs, hcs, -⟩ := n.exists_write_eq
    rw [Form.write, hcs] at h
    obtain ⟨fuel, rfl⟩ : ∃ n, fuel = n + 1 := Nat.exists_eq_succ_of_ne_zero (Nat.ne_zero_of_lt h)
    exact value?_number n hrest
  | .string s, h, _ => by
    obtain ⟨fuel, rfl⟩ : ∃ n, fuel = n + 1 := Nat.exists_eq_succ_of_ne_zero (Nat.ne_zero_of_lt h)
    have hwrite : (Form.string s).write ++ rest = '"' :: (s.writeRest ++ rest) := rfl
    rw [hwrite, value?_quote, text?_write]
    rfl
  | .emptyArray gap, h, _ => by
    obtain ⟨fuel, rfl⟩ : ∃ n, fuel = n + 1 := Nat.exists_eq_succ_of_ne_zero (Nat.ne_zero_of_lt h)
    have hwrite : (Form.emptyArray gap).write ++ rest = '[' :: (gap.write ++ ']' :: rest) := by
      simp [Form.write]
    rw [hwrite, value?_bracket, skip_mark gap rfl]
    rfl
  | .array items, h, _ => by
    obtain ⟨fuel, rfl⟩ : ∃ n, fuel = n + 1 := Nat.exists_eq_succ_of_ne_zero (Nat.ne_zero_of_lt h)
    have hwrite : (Form.array items).write ++ rest = '[' :: (items.write ++ rest) := rfl
    rw [hwrite, value?_bracket]
    split
    · next heq => exact absurd heq (items.skip_write rest _)
    · rw [items?_skip, items.items?_write (Nat.le_of_succ_le_succ h)]
      rfl
  | .emptyObject gap, h, _ => by
    obtain ⟨fuel, rfl⟩ : ∃ n, fuel = n + 1 := Nat.exists_eq_succ_of_ne_zero (Nat.ne_zero_of_lt h)
    have hwrite : (Form.emptyObject gap).write ++ rest = '\x7b' :: (gap.write ++ '\x7d' :: rest) := by
      simp [Form.write]
    rw [hwrite, value?_brace, skip_mark gap rfl]
    rfl
  | .object entries, h, _ => by
    obtain ⟨fuel, rfl⟩ : ∃ n, fuel = n + 1 := Nat.exists_eq_succ_of_ne_zero (Nat.ne_zero_of_lt h)
    have hwrite : (Form.object entries).write ++ rest = '\x7b' :: (entries.write ++ rest) := rfl
    rw [hwrite, value?_brace]
    obtain ⟨cs, hcs⟩ := entries.skip_write rest
    split
    · next heq =>
      rw [hcs] at heq
      cases heq
    · rw [entries?_skip, entries.entries?_write (Nat.le_of_succ_le_succ h)]
      rfl

theorem Items.items?_write {fuel : Nat} {rest : List Char} : (items : Items) →
    items.write.length ≤ fuel → items? fuel (items.write ++ rest) = some (items.values, rest)
  | .last before f after, h => by
    simp only [Items.write, List.length_append, List.length_singleton] at h
    obtain ⟨fuel, rfl⟩ : ∃ n, fuel = n + 1 := ⟨fuel - 1, by omega⟩
    have hwrite : (Items.last before f after).write ++ rest =
        before.write ++ (f.write ++ (after.write ++ ']' :: rest)) := by simp [Items.write]
    have hbracket : isSpace ']' = false := rfl
    rw [hwrite, items?, value?_gap, f.value?_write (by omega) (endsValue_gap rfl)]
    simp only [Option.bind_eq_bind, Option.bind_some, skip_mark after hbracket]
    rfl
  | .more before f after items, h => by
    simp only [Items.write, List.length_append, List.length_cons] at h
    obtain ⟨fuel, rfl⟩ : ∃ n, fuel = n + 1 := ⟨fuel - 1, by omega⟩
    have hwrite : (Items.more before f after items).write ++ rest =
        before.write ++ (f.write ++ (after.write ++ ',' :: (items.write ++ rest))) := by
      simp [Items.write]
    have hcomma : isSpace ',' = false := rfl
    have hitems : items? fuel (items.write ++ rest) = some (items.values, rest) :=
      items.items?_write (by omega)
    rw [hwrite, items?, value?_gap, f.value?_write (by omega) (endsValue_gap rfl)]
    simp only [Option.bind_eq_bind, Option.bind_some, skip_mark after hcomma, hitems]
    rfl

theorem Entries.entries?_write {fuel : Nat} {rest : List Char} : (entries : Entries) →
    entries.write.length ≤ fuel → entries? fuel (entries.write ++ rest) = some (entries.values, rest)
  | .last before key behind gap f after, h => by
    simp only [Entries.write, List.length_append, List.length_cons, List.length_nil] at h
    obtain ⟨fuel, rfl⟩ : ∃ n, fuel = n + 1 := ⟨fuel - 1, by omega⟩
    have hwrite : (Entries.last before key behind gap f after).write ++ rest =
        before.write ++ '"' :: (key.writeRest ++ (behind.write ++ ':' :: (gap.write ++
          (f.write ++ (after.write ++ '\x7d' :: rest))))) := by
      simp [Entries.write, Pieces.write]
    have hquote : isSpace '"' = false := rfl
    have hcolon : isSpace ':' = false := rfl
    have hbrace : isSpace '\x7d' = false := rfl
    have hvalue : value? fuel (f.write ++ (after.write ++ '\x7d' :: rest)) =
        some (f.value, after.write ++ '\x7d' :: rest) :=
      f.value?_write (by omega) (endsValue_gap rfl)
    rw [hwrite, entries?, skip_mark before hquote]
    simp only [text?_write, Option.bind_eq_bind, Option.bind_some, skip_mark behind hcolon,
      value?_gap, hvalue, skip_mark after hbrace]
    rfl
  | .more before key behind gap f after entries, h => by
    simp only [Entries.write, List.length_append, List.length_cons] at h
    obtain ⟨fuel, rfl⟩ : ∃ n, fuel = n + 1 := ⟨fuel - 1, by omega⟩
    have hwrite : (Entries.more before key behind gap f after entries).write ++ rest =
        before.write ++ '"' :: (key.writeRest ++ (behind.write ++ ':' :: (gap.write ++
          (f.write ++ (after.write ++ ',' :: (entries.write ++ rest)))))) := by
      simp [Entries.write, Pieces.write]
    have hquote : isSpace '"' = false := rfl
    have hcolon : isSpace ':' = false := rfl
    have hcomma : isSpace ',' = false := rfl
    have hvalue : value? fuel (f.write ++ (after.write ++ ',' :: (entries.write ++ rest))) =
        some (f.value, after.write ++ ',' :: (entries.write ++ rest)) :=
      f.value?_write (by omega) (endsValue_gap rfl)
    have hentries : entries? fuel (entries.write ++ rest) = some (entries.values, rest) :=
      entries.entries?_write (by omega)
    rw [hwrite, entries?, skip_mark before hquote]
    simp only [text?_write, Option.bind_eq_bind, Option.bind_some, skip_mark behind hcolon,
      value?_gap, hvalue, skip_mark after hcomma, hentries]
    rfl

end

/-! Conversely, what is read has the form of a value. That its value is the one read then follows:
the reader takes that form. -/

private theorem exists_text {t : Text} (h : text? cs = some (t, rest)) :
    ∃ s : Pieces, cs = s.writeRest ++ rest := by
  obtain ⟨r, hr, heq⟩ := Option.map_eq_some_iff.1 h
  cases heq
  exact exists_string hr

/-- A mark behind a gap. -/
private theorem exists_mark {ch : Char} (h : skip cs = ch :: rest) :
    ∃ g : Gap, cs = g.write ++ ch :: rest := by
  obtain ⟨g, hg⟩ := exists_gap cs
  exact ⟨g, h ▸ hg⟩

mutual

private theorem exists_form : (fuel : Nat) → ∀ {cs rest : List Char} {v : Value},
    value? fuel cs = some (v, rest) → ∃ (g : Gap) (f : Form), cs = g.write ++ (f.write ++ rest)
  | 0, _, _, _, h => by cases h
  | fuel + 1, cs, rest, v, h => by
    obtain ⟨g, hg⟩ := exists_gap cs
    suffices hform : ∃ f : Form, skip cs = f.write ++ rest by
      obtain ⟨f, hf⟩ := hform
      exact ⟨g, f, hf ▸ hg⟩
    rw [value?] at h
    generalize skip cs = shown at h ⊢
    split at h
    · obtain ⟨⟨t, rest'⟩, ht, hr⟩ := Option.map_eq_some_iff.1 h
      cases hr
      obtain ⟨s, rfl⟩ := exists_text ht
      exact ⟨.string s, rfl⟩
    · split at h
      · next hclose =>
        cases h
        obtain ⟨gap, rfl⟩ := exists_mark hclose
        exact ⟨.emptyArray gap, by simp [Form.write]⟩
      · obtain ⟨⟨vs, rest'⟩, hvs, hr⟩ := Option.map_eq_some_iff.1 h
        cases hr
        obtain ⟨items, rfl⟩ := exists_items fuel (items?_skip fuel _ ▸ hvs)
        exact ⟨.array items, rfl⟩
    · split at h
      · next hclose =>
        cases h
        obtain ⟨gap, rfl⟩ := exists_mark hclose
        exact ⟨.emptyObject gap, by simp [Form.write]⟩
      · obtain ⟨⟨es, rest'⟩, hes, hr⟩ := Option.map_eq_some_iff.1 h
        cases hr
        obtain ⟨entries, rfl⟩ := exists_entries fuel (entries?_skip fuel _ ▸ hes)
        exact ⟨.object entries, rfl⟩
    · exact exists_word h

theorem exists_items : (fuel : Nat) → ∀ {cs rest : List Char} {vs : List Value},
    items? fuel cs = some (vs, rest) → ∃ items : Items, cs = items.write ++ rest
  | 0, _, _, _, h => by cases h
  | fuel + 1, cs, rest, vs, h => by
    rw [items?] at h
    obtain ⟨⟨v, behind⟩, hv, hmark⟩ := Option.bind_eq_some_iff.1 h
    obtain ⟨before, f, rfl⟩ := exists_form fuel hv
    dsimp only at hmark
    split at hmark
    · next hcomma =>
      obtain ⟨after, hafter⟩ := exists_mark hcomma
      obtain ⟨⟨vs', rest'⟩, hvs, hr⟩ := Option.map_eq_some_iff.1 hmark
      cases hr
      obtain ⟨items, rfl⟩ := exists_items fuel hvs
      exact ⟨.more before f after items, by simp [Items.write, hafter]⟩
    · next hclose =>
      obtain ⟨after, hafter⟩ := exists_mark hclose
      cases hmark
      exact ⟨.last before f after, by simp [Items.write, hafter]⟩
    · cases hmark

theorem exists_entries : (fuel : Nat) → ∀ {cs rest : List Char} {es : List (Scalar × Value)},
    entries? fuel cs = some (es, rest) → ∃ entries : Entries, cs = entries.write ++ rest
  | 0, _, _, _, h => by cases h
  | fuel + 1, cs, rest, es, h => by
    rw [entries?] at h
    split at h
    case h_2 => cases h
    next hquote =>
    obtain ⟨before, rfl⟩ := exists_mark hquote
    obtain ⟨⟨k, behindKey⟩, hk, hpair⟩ := Option.bind_eq_some_iff.1 h
    obtain ⟨key, rfl⟩ := exists_text hk
    dsimp only at hpair
    split at hpair
    case h_2 => cases hpair
    next hcolon =>
    obtain ⟨behind, hbehind⟩ := exists_mark hcolon
    obtain ⟨⟨v, behindValue⟩, hv, hmark⟩ := Option.bind_eq_some_iff.1 hpair
    obtain ⟨gap, f, rfl⟩ := exists_form fuel hv
    dsimp only at hmark
    split at hmark
    · next hcomma =>
      obtain ⟨after, hafter⟩ := exists_mark hcomma
      obtain ⟨⟨es', rest'⟩, hes, hr⟩ := Option.map_eq_some_iff.1 hmark
      cases hr
      obtain ⟨entries, rfl⟩ := exists_entries fuel hes
      exact ⟨.more before key behind gap f after entries,
        by simp [Entries.write, Pieces.write, hbehind, hafter]⟩
    · next hclose =>
      obtain ⟨after, hafter⟩ := exists_mark hclose
      cases hmark
      exact ⟨.last before key behind gap f after,
        by simp [Entries.write, Pieces.write, hbehind, hafter]⟩
    · cases hmark

end

/-! ## Whole texts -/

/-- The reader takes every text of the grammar. -/
theorem read?_write (w : Whole) : read? w.write = some w.value := by
  obtain ⟨before, f, after⟩ := w
  have hwrite : Whole.write ⟨before, f, after⟩ = before.write ++ (f.write ++ after.write) :=
    List.append_assoc ..
  have hends : EndsValue after.write := by
    cases after with
    | nil => nofun
    | cons b after =>
      rintro _ ⟨⟩
      cases b <;> rfl
  have hlength : f.write.length ≤ (before.write ++ (f.write ++ after.write)).length + 1 := by
    simp only [List.length_append]
    omega
  have hskip : skip after.write = [] := by
    have hgap := skip_gap after []
    rwa [List.append_nil] at hgap
  rw [hwrite, read?, value?_gap, f.value?_write hlength hends]
  simp only [hskip, List.isEmpty_nil, if_true]
  rfl

/-- What the reader takes are the texts of the grammar, each with its own value. -/
theorem read?_eq_some_iff {v : Value} :
    read? cs = some v ↔ ∃ w : Whole, w.write = cs ∧ w.value = v := by
  refine ⟨fun h => ?_, fun ⟨w, hw, hv⟩ => hw ▸ hv ▸ read?_write w⟩
  have hread := h
  unfold read? at hread
  split at hread
  case h_2 => cases hread
  next v' rest hvalue =>
  obtain ⟨hempty, -⟩ := Option.ite_none_right_eq_some.1 hread
  obtain ⟨before, f, rfl⟩ := exists_form _ hvalue
  obtain ⟨after, hafter⟩ := exists_gap rest
  rw [List.isEmpty_iff.1 hempty, List.append_nil] at hafter
  have hwrite : Whole.write ⟨before, f, after⟩ = before.write ++ (f.write ++ rest) := by
    rw [Whole.write, hafter, List.append_assoc]
  refine ⟨⟨before, f, after⟩, hwrite, ?_⟩
  rw [← hwrite, read?_write] at h
  exact Option.some.inj h

end

end Flowchart.Json
