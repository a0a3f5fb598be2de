import Flowchart.Proofs.Scanning
import Flowchart.Yaml.Tree
/-! The tokens of a JSON text under YAML. No block ever opens, so the marks and scalars follow each
other as they are written, and a key gets its mark when its colon is met. -/
namespace Flowchart.Yaml
open Json

namespace Layout
variable {l l' l'' : Layout} {g : Gap} {ch : Char} {rest rest' : List Char} {fuel m n d d' : Nat}
  {ts ts' : List Token}

/-- No block is open, and no place waits for a key. -/
structure IsFlat (l : Layout) : Prop where
  indent : l.indent = -1
  indents : l.indents = []
  key : ∀ p ∈ l.keyPlace, p.required = false
  outerKeys : ∀ k ∈ l.outerKeys, ∀ p ∈ k, p.required = false

/-- From `l` it takes at most `n` steps to the tokens `ts` and `d` open brackets, before `rest`. -/
structure Reaches (l : Layout) (n : Nat) (ts : List Token) (d : Nat) (rest : List Char)
    (l' : Layout) : Prop where
  run : ∃ m ≤ n, ∀ fuel, run (m + fuel) l = run fuel l'
  rest : l'.cursor.rest = rest
  tokens : l'.tokens = ts.reverse ++ l.tokens
  depth : l'.outerKeys.length = d
  flat : l'.IsFlat

private theorem Reaches.trans (h : Reaches l m ts d rest l') (h' : Reaches l' n ts' d' rest' l'') :
    Reaches l (m + n) (ts ++ ts') d' rest' l'' := by
  obtain ⟨k, hk, hrun⟩ := h.run
  obtain ⟨k', hk', hrun'⟩ := h'.run
  refine ⟨⟨k + k', Nat.add_le_add hk hk', fun fuel => ?_⟩, h'.rest, ?_, h'.depth, h'.flat⟩
  · rw [Nat.add_assoc, hrun, hrun']
  · rw [h'.tokens, h.tokens, List.reverse_append, List.append_assoc]

private theorem Reaches.mono (h : Reaches l m ts d rest l') (hn : m ≤ n) :
    Reaches l n ts d rest l' := by
  obtain ⟨k, hk, hrun⟩ := h.run
  exact ⟨⟨k, hk.trans hn, hrun⟩, h.rest, h.tokens, h.depth, h.flat⟩

/-! ## Between tokens -/

/-- What ends a gap. -/
def EndsGap (rest : List Char) : Prop := ∀ ch ∈ rest.head?, ch ≠ ' ' ∧ ch ≠ '#' ∧ isBreak ch = false

private theorem EndsGap.head (h : EndsGap l.cursor.rest) :
    l.cursor.head ≠ '#' ∧ isBreak l.cursor.head = false := by
  cases hr : l.cursor.rest with
  | nil =>
    have hhead : l.cursor.head = '\x00' := by rw [Cursor.head, Cursor.peek, hr]; rfl
    rw [hhead]
    decide
  | cons ch rest =>
    rw [hr] at h
    rw [Cursor.head_of_cons hr]
    exact (h ch rfl).2

private theorem toNextToken_of_space (h : l.cursor.rest = ' ' :: rest) :
    toNextToken (fuel + 1) l = toNextToken (fuel + 1) { l with cursor := l.cursor.next } := by
  have hskip : l.cursor.skipSpaces = l.cursor.next.skipSpaces := by
    rw [Cursor.skipSpaces, Cursor.skip, span_of_head h rfl]
    rfl
  rw [toNextToken, toNextToken, hskip]
  rfl

private theorem toNextToken_of_gap (hg : g.IsShared) (h : l.cursor.rest = g.write ++ rest)
    (hrest : EndsGap rest) (hf : g.length < fuel) : ∃ allowed,
      toNextToken fuel l = { l with cursor := l.cursor.forward g.length, keyAllowed := allowed } ∧
      (l.inFlow = true → allowed = l.keyAllowed) := by
  induction hn : g.length using Nat.strongRecOn generalizing g l fuel with
  | _ n ih =>
    subst hn
    obtain ⟨fuel, rfl⟩ : ∃ n, fuel = n + 1 := Nat.exists_eq_succ_of_ne_zero (Nat.ne_zero_of_lt hf)
    cases g with
    | nil =>
      have hr : l.cursor.rest = rest := h
      have hskip : l.cursor.skipSpaces = l.cursor :=
        congrArg Prod.snd (span_of_not_head fun ch hch => beq_false_of_ne (hrest ch (hr ▸ hch)).1)
      obtain ⟨hcomment, hbreak⟩ := EndsGap.head (hr ▸ hrest)
      refine ⟨l.keyAllowed, ?_, fun _ => rfl⟩
      simp only [toNextToken, hskip, beq_false_of_ne hcomment, hbreak, Bool.false_eq_true, if_false]
      rfl
    | cons b g =>
      obtain ⟨hb, hgap⟩ := isShared_cons hg
      have hcons : l.cursor.rest = b.char :: (Gap.write g ++ rest) := h
      rcases hb with rfl | hb
      · have hnext : l.cursor.next.rest = Gap.write g ++ rest := by rw [Cursor.rest_next, hcons]; rfl
        rw [toNextToken_of_space hcons]
        exact @ih g.length (Nat.lt_succ_self _) { l with cursor := l.cursor.next } g (fuel + 1) hgap hnext
          (Nat.lt_of_succ_lt hf) rfl
      · obtain ⟨bs, n, hline, hcount, hline'⟩ := lineBreak_of_gap hb h fun ch hch => (hrest ch hch).2.2
        have hskip : l.cursor.skipSpaces = l.cursor := congrArg Prod.snd
          (span_of_not_head (by rw [hcons]; rintro _ ⟨⟩; exact beq_space_of_isBreak hb))
        have hcomment : (b.char == '#') = false := by cases b <;> rfl
        rw [List.length_cons] at hf ih ⊢
        obtain ⟨allowed, hnext, hallowed⟩ := @ih (g.drop n).length (by omega)
          { l with cursor := l.cursor.forward (n + 1), keyAllowed := l.keyAllowed || !l.inFlow }
          (g.drop n) fuel (isShared_drop hgap n) hline' (by omega) rfl
        refine ⟨allowed, ?_, fun hflow => (hallowed hflow).trans (by simp [hflow])⟩
        simp only [toNextToken, hskip, Cursor.head_of_cons hcons, hcomment, hb, hline, if_true,
          Bool.false_eq_true, if_false]
        rw [hnext, ← hcount, Nat.add_right_comm]
        simp only [Cursor.forward_add]

/-- The layout before the token that comes after a gap of `n` characters. -/
structure Settles (l : Layout) (n : Nat) (l' : Layout) : Prop where
  cursor : l'.cursor = l.cursor.forward n
  tokens : l'.tokens = l.tokens
  depth : l'.outerKeys.length = l.outerKeys.length
  flat : l'.IsFlat
  keyAllowed : l.inFlow = true → l'.keyAllowed = l.keyAllowed
  keyPlace : ∀ k, l.keyPlace = some k → isStale l'.cursor k = false → l'.keyPlace = some k

private theorem dropStale_of_isFlat (h : l.IsFlat) :
    ∃ l', l.dropStale = .ok l' ∧ l.Settles 0 l' := by
  have hfatal : (l.keyPlace :: l.outerKeys).any
      (fun k => k.any fun p => isStale l.cursor p && p.required) = false := by
    rw [List.any_eq_false]
    intro k hk
    rw [Bool.not_eq_true, Option.any_eq_false]
    intro p hp
    have hrequired : p.required = false := by
      rcases List.mem_cons.1 hk with rfl | hk
      · exact h.key p hp
      · exact h.outerKeys k hk p hp
    simp [hrequired]
  have hkeep {k : Option KeyPlace} {p : KeyPlace}
      (hp : p ∈ if k.any (isStale l.cursor) then none else k) : p ∈ k := by
    split at hp
    · cases hp
    · exact hp
  simp only [dropStale, hfatal]
  refine ⟨_, rfl, rfl, rfl, List.length_map .., ⟨h.indent, h.indents, fun p hp => ?_,
    fun k hk p hp => ?_⟩, fun _ => rfl, fun k hk hfresh => ?_⟩
  · exact h.key p (hkeep hp)
  · obtain ⟨k, hmem, rfl⟩ := List.mem_map.1 hk
    exact h.outerKeys k hmem p (hkeep hp)
  · simp [hk, hfresh]

private theorem unwind_of_isFlat (h : l.IsFlat) (column : Int) : l.unwind column = l := by
  unfold unwind
  rw [h.indents, closeBlocks, ← h.indents]
  exact ite_self l

/-- No gap or comment begins with the character, nor is it the end. -/
def startsToken (ch : Char) : Bool := !(endsWord ch || ch == '#')

private theorem endsGap_of_startsToken (h : startsToken ch = true) :
    EndsGap (ch :: rest) ∧ ch ≠ '\x00' := by
  simp only [startsToken, endsWord, endsLine, Bool.not_eq_true', Bool.or_eq_false_iff,
    beq_eq_false_iff_ne] at h
  obtain ⟨⟨hspace, hnull, hbreak⟩, hcomment⟩ := h
  refine ⟨?_, hnull⟩
  rintro _ ⟨⟩
  exact ⟨hspace, hcomment, hbreak⟩

/-- One step passes a gap, and then reads a token unless the text has ended. -/
theorem run_of_gap (hl : l.IsFlat) (hg : g.IsShared) (h : l.cursor.rest = g.write ++ rest)
    (hrest : EndsGap rest) : ∃ l', l.Settles g.length l' ∧ ∀ fuel, run (fuel + 1) l =
      if l'.cursor.head == '\x00' then l'.streamEnd.map fun l => l.tokens.reverse
      else l'.token >>= run fuel := by
  have hfuel : g.length < l.cursor.fuel := by
    rw [Cursor.fuel, h, List.length_append, Gap.write, List.length_map]
    omega
  obtain ⟨allowed, hnext, hallowed⟩ := toNextToken_of_gap hg h hrest hfuel
  have hflat : { l with cursor := l.cursor.forward g.length, keyAllowed := allowed }.IsFlat :=
    ⟨hl.indent, hl.indents, hl.key, hl.outerKeys⟩
  obtain ⟨l', hdrop, hs⟩ := dropStale_of_isFlat hflat
  refine ⟨l', ⟨hs.cursor, hs.tokens, hs.depth, hs.flat, fun hflow => ?_, hs.keyPlace⟩, fun fuel => ?_⟩
  · rw [← hallowed hflow]
    exact hs.keyAllowed hflow
  · simp only [run, hnext, hdrop, bind, Except.bind, unwind_of_isFlat hs.flat]
    cases l'.streamEnd <;> rfl

private theorem rest_of_settles (hs : l.Settles g.length l') (h : l.cursor.rest = g.write ++ rest) :
    l'.cursor.rest = rest := by
  rw [hs.cursor]
  exact rest_after_gap h

private theorem run_of_token (hl : l.IsFlat) (hg : g.IsShared)
    (h : l.cursor.rest = g.write ++ ch :: rest)
    (hch : startsToken ch = true) : ∃ l', l.Settles g.length l' ∧
      ∀ fuel, run (fuel + 1) l = l'.token >>= run fuel := by
  obtain ⟨hends, hnull⟩ := endsGap_of_startsToken hch
  obtain ⟨l', hs, hrun⟩ := run_of_gap hl hg h hends
  refine ⟨l', hs, fun fuel => ?_⟩
  rw [hrun, Cursor.head_of_cons (rest_of_settles hs h), beq_false_of_ne hnull]
  rfl

/-! ## One token -/

private theorem dropKey_of_isFlat (h : l.IsFlat) : l.dropKey = .ok { l with keyPlace := none } := by
  have hrequired : l.keyPlace.any KeyPlace.required = false := by
    rw [Option.any_eq_false]
    intro p hp
    simp [h.key p hp]
  rw [dropKey, hrequired]
  rfl

/-- A place for a key is never one where only a key can stand. -/
private theorem noteKey_of_isFlat (h : l.IsFlat) :
    ∃ k, l.noteKey = .ok { l with keyPlace := k } ∧ (∀ p ∈ k, p.required = false) ∧
      (l.keyAllowed = true → k = some
        ⟨l.tokens.length, false, l.cursor.index, l.cursor.line, l.cursor.column⟩) := by
  unfold noteKey
  split
  · have hrequired : (!l.inFlow && l.indent == (l.cursor.column : Int)) = false := by
      rw [h.indent, Bool.and_eq_false_iff, beq_eq_false_iff_ne]
      exact .inr (by omega)
    simp only [dropKey_of_isFlat h, bind, Except.bind, pure, Except.pure]
    refine ⟨_, rfl, ?_, fun _ => ?_⟩
    · rintro p ⟨⟩
      exact hrequired
    · exact congrArg (fun b => some (KeyPlace.mk _ b _ _ _)) hrequired
  · next hallowed =>
    exact ⟨l.keyPlace, rfl, h.key, fun h => absurd h hallowed⟩

/-- The token that a bracket opens. -/
def opening? : Char → Option Token
  | '[' => some .flowSequenceStart
  | '\x7b' => some .flowMappingStart
  | _ => none

/-- The token that a bracket closes. -/
def closing? : Char → Option Token
  | ']' => some .flowSequenceEnd
  | '\x7d' => some .flowMappingEnd
  | _ => none

private theorem token_of_opening {t : Token} (h : opening? l.cursor.head = some t) :
    l.token = l.flowStart t := by
  have hpeek : l.cursor.peek 0 = l.cursor.head := rfl
  unfold opening? at h
  split at h
  · next hhead => cases h; simp [token, Cursor.atMarker, hpeek, hhead]
  · next hhead => cases h; simp [token, Cursor.atMarker, hpeek, hhead]
  · cases h

private theorem token_of_closing {t : Token} (h : closing? l.cursor.head = some t) :
    l.token = l.flowEnd t := by
  have hpeek : l.cursor.peek 0 = l.cursor.head := rfl
  unfold closing? at h
  split at h
  · next hhead => cases h; simp [token, Cursor.atMarker, hpeek, hhead]
  · next hhead => cases h; simp [token, Cursor.atMarker, hpeek, hhead]
  · cases h

private theorem token_of_comma (h : l.cursor.head = ',') : l.token = l.flowEntry := by
  have hpeek : l.cursor.peek 0 = ',' := h
  simp [token, Cursor.atMarker, hpeek, h]

private theorem token_of_colon (h : l.cursor.head = ':') (hflow : l.inFlow = true) :
    l.token = l.value := by
  have hpeek : l.cursor.peek 0 = ':' := h
  simp [token, Cursor.atMarker, hpeek, h, hflow]

private theorem token_of_quote (h : l.cursor.head = '"') :
    l.token = l.node fun c => scalarToken false (quotedScalar c) := by
  have hpeek : l.cursor.peek 0 = '"' := h
  simp [token, Cursor.atMarker, hpeek, h]

/-- A word begins with no indicator, except for a sign before something else. -/
private theorem token_of_word (hgap : isGap l.cursor.head = false) (hdot : l.cursor.head ≠ '.')
    (h : isIndicator l.cursor.head = false ∨
      (l.cursor.head = '-' ∧ l.cursor.peek 1 ≠ '-' ∧ isGap (l.cursor.peek 1) = false)) :
    l.token = l.plain := by
  have hpeek : l.cursor.peek 0 = l.cursor.head := rfl
  have hstarts : l.startsPlain = true := by
    rcases h with h | ⟨h, -, hnext⟩
    · simp [startsPlain, hgap, h]
    · simp [startsPlain, h, hnext]
  rcases h with h | ⟨h, hsign, hnext⟩
  · simp [isIndicator] at h
    simp [token, Cursor.atMarker, hpeek, hdot, h, hstarts]
  · simp [token, Cursor.atMarker, hpeek, h, hsign, hnext, hstarts]

/-! ## One step -/

private theorem inFlow_iff : l.inFlow = true ↔ 0 < l.outerKeys.length := by
  rw [inFlow, Bool.not_eq_true', List.isEmpty_eq_false_iff, List.length_pos_iff]

private theorem inFlow_of_depth (hd : l.outerKeys.length = d + 1) : l.inFlow = true := by
  rw [inFlow_iff, hd]
  exact Nat.succ_pos d

/-- The layout after one token. -/
private theorem reaches_of_token (hs : l.Settles n l')
    (hrun : ∀ fuel, run (fuel + 1) l = l'.token >>= run fuel) (ht : l'.token = .ok l'')
    (hrest : l''.cursor.rest = rest) (htokens : l''.tokens = ts.reverse ++ l'.tokens)
    (hdepth : l''.outerKeys.length = d) (hflat : l''.IsFlat) : l.Reaches 1 ts d rest l'' := by
  refine ⟨⟨1, Nat.le_refl _, fun fuel => ?_⟩, hrest, ?_, hdepth, hflat⟩
  · rw [Nat.add_comm, hrun, ht]
    rfl
  · rw [htokens, hs.tokens]

private theorem reaches_opening {t : Token} (ht : opening? ch = some t) (hl : l.IsFlat)
    (hg : g.IsShared) (h : l.cursor.rest = g.write ++ ch :: rest) :
    ∃ l', l.Reaches 1 [t] (l.outerKeys.length + 1) rest l' ∧ l'.keyAllowed = true := by
  have hch : startsToken ch = true := by
    unfold opening? at ht
    split at ht <;> first | rfl | cases ht
  obtain ⟨l₁, hs, hrun⟩ := run_of_token hl hg h hch
  have hrest := rest_of_settles hs h
  obtain ⟨k, hk, hrequired, -⟩ := noteKey_of_isFlat hs.flat
  let l₂ := ({ l₁ with
    keyAllowed := true, keyPlace := none, outerKeys := k :: l₁.outerKeys }.push t).forward 1
  have htoken : l₁.token = .ok l₂ := by
    rw [token_of_opening (by rwa [Cursor.head_of_cons hrest]), flowStart, hk]
    rfl
  have hnext : l₂.cursor.rest = rest := (Cursor.rest_next l₁.cursor).trans (congrArg List.tail hrest)
  have hflat : l₂.IsFlat :=
    ⟨hs.flat.indent, hs.flat.indents, nofun, List.forall_mem_cons.2 ⟨hrequired, hs.flat.outerKeys⟩⟩
  exact ⟨l₂, reaches_of_token hs hrun htoken hnext rfl (congrArg (· + 1) hs.depth) hflat, rfl⟩

private theorem reaches_closing {t : Token} (ht : closing? ch = some t) (hl : l.IsFlat)
    (hg : g.IsShared)
    (hd : l.outerKeys.length = d + 1) (h : l.cursor.rest = g.write ++ ch :: rest) :
    ∃ l', l.Reaches 1 [t] d rest l' := by
  have hch : startsToken ch = true := by
    unfold closing? at ht
    split at ht <;> first | rfl | cases ht
  obtain ⟨l₁, hs, hrun⟩ := run_of_token hl hg h hch
  have hrest := rest_of_settles hs h
  have hdepth := hs.depth.trans hd
  cases hkeys : l₁.outerKeys with
  | nil => rw [hkeys] at hdepth; cases hdepth
  | cons k ks =>
    let l₂ := ({ l₁ with keyAllowed := false, keyPlace := k, outerKeys := ks }.push t).forward 1
    have htoken : l₁.token = .ok l₂ := by
      rw [token_of_closing (by rwa [Cursor.head_of_cons hrest]), flowEnd, dropKey_of_isFlat hs.flat]
      simp only [bind, Except.bind, hkeys]
      rfl
    have hnext : l₂.cursor.rest = rest := (Cursor.rest_next l₁.cursor).trans (congrArg List.tail hrest)
    obtain ⟨hk, hks⟩ := List.forall_mem_cons.1 (hkeys ▸ hs.flat.outerKeys)
    have hflat : l₂.IsFlat := ⟨hs.flat.indent, hs.flat.indents, hk, hks⟩
    rw [hkeys] at hdepth
    exact ⟨l₂, reaches_of_token hs hrun htoken hnext rfl (Nat.succ.inj hdepth) hflat⟩

private theorem reaches_comma (hl : l.IsFlat) (hg : g.IsShared)
    (h : l.cursor.rest = g.write ++ ',' :: rest) :
    ∃ l', l.Reaches 1 [.flowEntry] l.outerKeys.length rest l' ∧ l'.keyAllowed = true := by
  obtain ⟨l₁, hs, hrun⟩ := run_of_token hl hg h rfl
  have hrest := rest_of_settles hs h
  let l₂ := ({ l₁ with keyAllowed := true, keyPlace := none }.push .flowEntry).forward 1
  have htoken : l₁.token = .ok l₂ := by
    have hflat : { l₁ with keyAllowed := true }.IsFlat :=
      ⟨hs.flat.indent, hs.flat.indents, hs.flat.key, hs.flat.outerKeys⟩
    rw [token_of_comma (Cursor.head_of_cons hrest), flowEntry, dropKey_of_isFlat hflat]
    rfl
  have hnext : l₂.cursor.rest = rest := (Cursor.rest_next l₁.cursor).trans (congrArg List.tail hrest)
  have hflat : l₂.IsFlat := ⟨hs.flat.indent, hs.flat.indents, nofun, hs.flat.outerKeys⟩
  exact ⟨l₂, reaches_of_token hs hrun htoken hnext rfl hs.depth hflat, rfl⟩

/-- A string may turn out to be a key: its place is noted where a key is allowed. -/
private theorem reaches_string {s : Pieces} (hp : s.IsShared) (hl : l.IsFlat) (hg : g.IsShared)
    (h : l.cursor.rest = g.write ++ (s.write ++ rest)) : ∃ l',
      l.Reaches 1 [.scalar s.codes false] l.outerKeys.length rest l' ∧
      (l.inFlow = true → l.keyAllowed = true → ∃ p ∈ l'.keyPlace, p.before = l.tokens.length ∧
        l'.cursor.index = p.index + s.write.length ∧ l'.cursor.line = p.line) := by
  obtain ⟨l₁, hs, hrun⟩ := run_of_token hl hg h rfl
  have hrest := rest_of_settles hs h
  obtain ⟨k, hk, hrequired, hplace⟩ := noteKey_of_isFlat hs.flat
  let l₂ : Layout := { l₁ with
    cursor := l₁.cursor.forward s.write.length, tokens := .scalar s.codes false :: l₁.tokens,
    keyAllowed := false, keyPlace := k }
  have htoken : l₁.token = .ok l₂ := by
    rw [token_of_quote (Cursor.head_of_cons hrest), node, hk]
    simp only [bind, Except.bind, quotedScalar_of_string hp.pieces hrest, scalarToken]
    rfl
  have hflat : l₂.IsFlat := ⟨hs.flat.indent, hs.flat.indents, hrequired, hs.flat.outerKeys⟩
  refine ⟨l₂, reaches_of_token hs hrun htoken (Cursor.rest_forward_of_append hrest) rfl hs.depth hflat,
    fun hflow hallowed => ?_⟩
  obtain ⟨hindex, hline⟩ := Cursor.forward_of_append hrest
  refine ⟨_, hplace ((hs.keyAllowed hflow).trans hallowed), congrArg List.length hs.tokens, hindex,
    hline fun ch hch => (isAllowed_of_mem_string hp.pieces hch).2⟩

/-- Spaces leave the place of a key fresh, where the colon comes soon enough. -/
private theorem isStale_of_spaces {c : Cursor} {p : KeyPlace} (hg : ∀ b ∈ g, b = Blank.space)
    (h : c.rest = g.write ++ rest) (hline : c.line = p.line)
    (hlength : c.index + g.length ≤ p.index + 1024) : isStale (c.forward g.length) p = false := by
  have hcount : g.write.length = g.length := List.length_map ..
  have hbreaks : ∀ ch ∈ g.write, isBreak ch = false := by
    intro ch hch
    obtain ⟨b, hb, rfl⟩ := List.mem_map.1 hch
    rw [hg b hb]
    rfl
  obtain ⟨hindex, hsame⟩ := Cursor.forward_of_append h
  rw [hcount] at hindex hsame
  rw [isStale, hsame hbreaks, hindex, hline, bne_self_eq_false, Bool.false_or,
    decide_eq_false_iff_not]
  omega

/-- The colon puts the mark of a key before the scalar that is last so far. -/
private theorem value_of_keyPlace {p : KeyPlace} {t : Token} (hflow : l.inFlow = true)
    (hp : l.keyPlace = some p) (htokens : l.tokens = t :: ts) (hbefore : p.before = ts.length) :
    l.value = .ok (({ l with
      tokens := t :: .key :: ts, keyPlace := none, keyAllowed := false }.push .value).forward 1) := by
  have hlate : l.tokens.length - p.before = 1 := by
    rw [htokens, hbefore, List.length_cons, Nat.add_sub_cancel_left]
  have hvalue : l.valueOf p =
      { l with tokens := t :: .key :: ts, keyPlace := none, keyAllowed := false } := by
    simp only [valueOf, hflow, hlate, Bool.not_true, Bool.false_and, Bool.false_eq_true, if_false]
    rw [htokens]
    rfl
  rw [value, hp]
  simp only [hvalue]
  rfl

/-- A key is behind its mark and before that of its value. -/
private theorem reaches_key {s : Pieces} {behind : Gap} (hk : s.IsSharedKey behind) (hl : l.IsFlat)
    (hflow : l.inFlow = true) (hallowed : l.keyAllowed = true) (hg : g.IsShared)
    (h : l.cursor.rest = g.write ++ (s.write ++ (behind.write ++ ':' :: rest))) :
    ∃ l', l.Reaches 2 [.key, .scalar s.codes false, .value] l.outerKeys.length rest l' := by
  obtain ⟨l₁, hstring, hplace⟩ := reaches_string hk.text hl hg h
  obtain ⟨p, hp, hbefore, hindex, hline⟩ := hplace hflow hallowed
  have hbehind : behind.IsShared := fun hmem => absurd (hk.spaces _ hmem) (by decide)
  obtain ⟨l₂, hs, hrun⟩ := run_of_token hstring.flat hbehind hstring.rest rfl
  have hrest := rest_of_settles hs hstring.rest
  have hfresh : isStale l₂.cursor p = false := by
    have hlimit := hk.length
    rw [hs.cursor]
    exact isStale_of_spaces hk.spaces hstring.rest hline (by omega)
  have hflow₂ : l₂.inFlow = true := by
    rw [inFlow_iff, hs.depth, hstring.depth]
    exact inFlow_iff.1 hflow
  let l₃ := ({ l₂ with
    tokens := .scalar s.codes false :: .key :: l.tokens, keyPlace := none, keyAllowed := false }.push
      .value).forward 1
  have htoken : l₂.token = .ok l₃ := by
    rw [token_of_colon (Cursor.head_of_cons hrest) hflow₂]
    exact value_of_keyPlace hflow₂ (hs.keyPlace p hp hfresh) (hs.tokens.trans hstring.tokens) hbefore
  obtain ⟨m, hm, hfirst⟩ := hstring.run
  refine ⟨l₃, ⟨m + 1, Nat.succ_le_succ hm, fun fuel => ?_⟩,
    (Cursor.rest_next l₂.cursor).trans (congrArg List.tail hrest), rfl,
    hs.depth.trans hstring.depth, hs.flat.indent, hs.flat.indents, nofun, hs.flat.outerKeys⟩
  rw [Nat.add_assoc, hfirst, Nat.add_comm, hrun, htoken]
  rfl

/-- Where a word begins a plain scalar. -/
structure IsWord (w : List Char) : Prop where
  chars : ∀ ch ∈ w, isWordChar ch = true
  start : ∃ ch w', w = ch :: w' ∧ ch ≠ '.' ∧
    (isIndicator ch = false ∨ (ch = '-' ∧ ∃ x ∈ w'.head?, x ≠ '-'))

private theorem token_of_isWord {w : List Char} (hw : IsWord w) (h : l.cursor.rest = w ++ rest) :
    l.token = l.plain := by
  obtain ⟨x, w', rfl, hdot, hstart⟩ := hw.start
  have hgap {y : Char} (hy : y ∈ x :: w') : isGap y = false := by
    have hchar := hw.chars y hy
    simp only [isWordChar, Bool.not_eq_true', Bool.or_eq_false_iff] at hchar
    exact hchar.1.1
  have hhead : l.cursor.head = x := Cursor.head_of_cons h
  refine token_of_word (hhead ▸ hgap List.mem_cons_self) (hhead ▸ hdot) ?_
  rw [hhead]
  refine hstart.imp_right ?_
  rintro ⟨rfl, y, hy, hsign⟩
  obtain ⟨w', rfl⟩ := List.head?_eq_some_iff.1 hy
  have hpeek : l.cursor.peek 1 = y := by
    rw [Cursor.peek, h]
    rfl
  rw [hpeek]
  exact ⟨rfl, hsign, hgap (List.mem_cons_of_mem _ List.mem_cons_self)⟩

private theorem startsToken_of_isWordChar (h : isWordChar ch = true) : startsToken ch = true := by
  simp [isWordChar, isGap] at h
  simp [startsToken, h]

private theorem reaches_word {w : List Char} {g' : Gap} (hw : IsWord w) (hl : l.IsFlat)
    (hflow : l.inFlow = true) (hg : g.IsShared) (hg' : g'.IsShared) (hch : isFlowMark ch = true)
    (h : l.cursor.rest = g.write ++ (w ++ (g'.write ++ ch :: rest))) :
    ∃ l', l.Reaches 1 [.scalar (codes w) true] l.outerKeys.length (ch :: rest) l' := by
  obtain ⟨x, w', hcons, -⟩ := hw.start
  have hx : startsToken x = true :=
    startsToken_of_isWordChar (hw.chars x (hcons ▸ List.mem_cons_self))
  obtain ⟨l₁, hs, hrun⟩ := run_of_token hl hg (by rw [h, hcons]; rfl) hx
  have hrest := rest_of_settles hs h
  have hflow₁ : l₁.inFlow = true := by
    rw [inFlow_iff, hs.depth]
    exact inFlow_iff.1 hflow
  obtain ⟨k, hk, hrequired, -⟩ := noteKey_of_isFlat hs.flat
  obtain ⟨broke, hread⟩ : ∃ broke, plainScalar true l₁.indent l₁.cursor =
      (codes w, l₁.cursor.forward (w.length + g'.length), broke) :=
    plainScalar_of_word hw.chars (by simp [hcons]) hg' hch hrest
  let l₂ : Layout := { l₁ with
    cursor := l₁.cursor.forward (w.length + g'.length), tokens := .scalar (codes w) true :: l₁.tokens,
    keyAllowed := broke, keyPlace := k }
  have htoken : l₁.token = .ok l₂ := by
    have hflow₂ : { l₁ with keyPlace := k }.inFlow = true := hflow₁
    rw [token_of_isWord hw hrest, plain, hk]
    simp only [bind, Except.bind, hflow₂, hread]
    rfl
  have hnext : l₂.cursor.rest = ch :: rest := by
    have hgap := Cursor.rest_forward_of_append hrest
    exact (congrArg Cursor.rest (Cursor.forward_add ..)).trans (rest_after_gap hgap)
  have hflat : l₂.IsFlat := ⟨hs.flat.indent, hs.flat.indents, hrequired, hs.flat.outerKeys⟩
  exact ⟨l₂, reaches_of_token hs hrun htoken hnext rfl hs.depth hflat⟩

/-- The last step passes the gap at the end. -/
theorem run_of_end (hl : l.IsFlat) (hg : g.IsShared) (h : l.cursor.rest = g.write) :
    run (fuel + 1) l = .ok (l.tokens.reverse ++ [.streamEnd]) := by
  have hrest : l.cursor.rest = g.write ++ [] := by rw [h, List.append_nil]
  obtain ⟨l', hs, hrun⟩ := run_of_gap hl hg hrest nofun
  have hhead : l'.cursor.head = '\x00' := by
    rw [Cursor.head, Cursor.peek, rest_of_settles hs hrest]
    rfl
  simp only [hrun, hhead, streamEnd, unwind_of_isFlat hs.flat, dropKey_of_isFlat hs.flat, push, hs.tokens]
  exact congrArg Except.ok List.reverse_cons

end Layout

end Flowchart.Yaml

namespace Flowchart.Json
open Yaml

mutual

/-- The tokens that YAML takes a value for. -/
def Form.tokens : Form → List Token
  | .null => [.scalar (codes Form.null.write) true]
  | .bool b => [.scalar (codes (Form.bool b).write) true]
  | .number n => [.scalar (codes n.write) true]
  | .string s => [.scalar s.codes false]
  | .emptyArray _ => [.flowSequenceStart, .flowSequenceEnd]
  | .array items => .flowSequenceStart :: items.tokens
  | .emptyObject _ => [.flowMappingStart, .flowMappingEnd]
  | .object entries => .flowMappingStart :: entries.tokens

def Items.tokens : Items → List Token
  | .last _ f _ => f.tokens ++ [.flowSequenceEnd]
  | .more _ f _ items => f.tokens ++ .flowEntry :: items.tokens

def Entries.tokens : Entries → List Token
  | .last _ key _ _ f _ => [.key, .scalar key.codes false, .value] ++ f.tokens ++ [.flowMappingEnd]
  | .more _ key _ _ f _ entries =>
    [.key, .scalar key.codes false, .value] ++ f.tokens ++ .flowEntry :: entries.tokens

end

private theorem isWord_null : Layout.IsWord "null".toList :=
  ⟨List.all_eq_true.1 (by decide), 'n', "ull".toList, rfl, by decide, .inl (by decide)⟩

private theorem isWord_bool (b : Bool) : Layout.IsWord (Form.bool b).write := by
  cases b with
  | true =>
    exact ⟨List.all_eq_true.1 (by decide), 't', "rue".toList, rfl, by decide, .inl (by decide)⟩
  | false =>
    exact ⟨List.all_eq_true.1 (by decide), 'f', "alse".toList, rfl, by decide, .inl (by decide)⟩

private theorem isWord_number (n : Numeral) : Layout.IsWord n.write := by
  refine ⟨Numeral.forall_mem_write (by decide), ?_⟩
  · have hdigit : ∀ d : Fin 10, digitChar d ≠ '.' ∧ digitChar d ≠ '-' ∧
        Layout.isIndicator (digitChar d) = false := by decide
    obtain ⟨hdot, hsign, hfirst⟩ := hdigit n.whole.first
    unfold Numeral.write
    cases n.negative with
    | true => exact ⟨'-', _, rfl, by decide, .inr ⟨rfl, _, rfl, hsign⟩⟩
    | false => exact ⟨_, _, rfl, hdot, .inl hfirst⟩

private theorem length_write_number (n : Numeral) : 1 ≤ n.write.length := by
  obtain ⟨ch, w, hw, -⟩ := (isWord_number n).start
  rw [hw]
  exact Nat.succ_le_succ (Nat.zero_le _)

/-- An empty collection is two brackets. -/
private theorem reaches_empty {l : Layout} {g gap : Gap} {c c' : Char} {t t' : Token}
    {rest : List Char}
    (ht : Layout.opening? c = some t) (ht' : Layout.closing? c' = some t') (hl : l.IsFlat)
    (hg : g.IsShared) (hgap : gap.IsShared)
    (h : l.cursor.rest = g.write ++ c :: (gap.write ++ c' :: rest)) :
    ∃ l', l.Reaches 2 [t, t'] l.outerKeys.length rest l' := by
  obtain ⟨l₁, hl₁, -⟩ := Layout.reaches_opening ht hl hg h
  obtain ⟨l₂, hl₂⟩ := Layout.reaches_closing ht' hl₁.flat hgap hl₁.depth hl₁.rest
  exact ⟨l₂, hl₁.trans hl₂⟩

mutual

/-- In a flow collection the tokens of a value are read before the mark behind it. -/
theorem Form.reaches {l : Layout} {g g' : Gap} {ch : Char} {rest : List Char} :
    (f : Form) → f.IsShared → l.IsFlat → l.inFlow = true → g.IsShared → g'.IsShared →
    isFlowMark ch = true → l.cursor.rest = g.write ++ (f.write ++ (g'.write ++ ch :: rest)) →
    ∃ (l' : Layout) (gap : Gap), gap.IsShared ∧
      l.Reaches f.write.length f.tokens l.outerKeys.length (gap.write ++ ch :: rest) l'
  | .null, _, hl, hflow, hg, hg', hch, h => by
    obtain ⟨l', hl'⟩ := Layout.reaches_word isWord_null hl hflow hg hg' hch h
    exact ⟨l', [], nofun, hl'.mono (by decide)⟩
  | .bool b, _, hl, hflow, hg, hg', hch, h => by
    obtain ⟨l', hl'⟩ := Layout.reaches_word (isWord_bool b) hl hflow hg hg' hch h
    exact ⟨l', [], nofun, hl'.mono (by cases b <;> decide)⟩
  | .number n, _, hl, hflow, hg, hg', hch, h => by
    obtain ⟨l', hl'⟩ := Layout.reaches_word (isWord_number n) hl hflow hg hg' hch h
    exact ⟨l', [], nofun, hl'.mono (length_write_number n)⟩
  | .string s, hs, hl, _, hg, hg', _, h => by
    obtain ⟨l', hl', -⟩ := Layout.reaches_string hs hl hg h
    exact ⟨l', g', hg', hl'.mono (Nat.succ_le_succ (Nat.zero_le _))⟩
  | .emptyArray gap, hgap, hl, _, hg, hg', _, h => by
    have hrest : l.cursor.rest = g.write ++ '[' :: (gap.write ++ ']' :: (g'.write ++ ch :: rest)) :=
      h.trans (by simp [Form.write])
    obtain ⟨l', hl'⟩ := reaches_empty rfl rfl hl hg hgap hrest
    exact ⟨l', g', hg', hl'.mono (by simp [Form.write])⟩
  | .array items, hitems, hl, _, hg, hg', _, h => by
    obtain ⟨l₁, hl₁, -⟩ := Layout.reaches_opening rfl hl hg h
    obtain ⟨l₂, hl₂⟩ := items.reaches hitems hl₁.flat hl₁.depth hl₁.rest
    exact ⟨l₂, g', hg', (hl₁.trans hl₂).mono (Nat.add_comm ..).le⟩
  | .emptyObject gap, hgap, hl, _, hg, hg', _, h => by
    have hrest : l.cursor.rest =
        g.write ++ '\x7b' :: (gap.write ++ '\x7d' :: (g'.write ++ ch :: rest)) :=
      h.trans (by simp [Form.write])
    obtain ⟨l', hl'⟩ := reaches_empty rfl rfl hl hg hgap hrest
    exact ⟨l', g', hg', hl'.mono (by simp [Form.write])⟩
  | .object entries, hentries, hl, _, hg, hg', _, h => by
    obtain ⟨l₁, hl₁, hallowed⟩ := Layout.reaches_opening rfl hl hg h
    obtain ⟨l₂, hl₂⟩ := entries.reaches hentries hl₁.flat hl₁.depth hallowed hl₁.rest
    exact ⟨l₂, g', hg', (hl₁.trans hl₂).mono (Nat.add_comm ..).le⟩

/-- The rest of an array, up to its closing bracket. -/
theorem Items.reaches {l : Layout} {d : Nat} {rest : List Char} :
    (items : Items) → items.IsShared → l.IsFlat → l.outerKeys.length = d + 1 →
    l.cursor.rest = items.write ++ rest →
    ∃ l', l.Reaches items.write.length items.tokens d rest l'
  | .last before f after, ⟨hbefore, hf, hafter⟩, hl, hd, h => by
    have hrest : l.cursor.rest = before.write ++ (f.write ++ (after.write ++ ']' :: rest)) :=
      h.trans (by simp [Items.write])
    obtain ⟨l₁, g, hg, hl₁⟩ :=
      f.reaches hf hl (Layout.inFlow_of_depth hd) hbefore hafter rfl hrest
    obtain ⟨l₂, hl₂⟩ := Layout.reaches_closing rfl hl₁.flat hg (hl₁.depth.trans hd) hl₁.rest
    refine ⟨l₂, (hl₁.trans hl₂).mono ?_⟩
    simp only [Items.write, List.length_append, List.length_singleton]
    omega
  | .more before f after items, ⟨⟨hbefore, hf, hafter⟩, hitems⟩, hl, hd, h => by
    have hrest : l.cursor.rest =
        before.write ++ (f.write ++ (after.write ++ ',' :: (items.write ++ rest))) :=
      h.trans (by simp [Items.write])
    obtain ⟨l₁, g, hg, hl₁⟩ :=
      f.reaches hf hl (Layout.inFlow_of_depth hd) hbefore hafter rfl hrest
    obtain ⟨l₂, hl₂, -⟩ := Layout.reaches_comma hl₁.flat hg hl₁.rest
    obtain ⟨l₃, hl₃⟩ := items.reaches hitems hl₂.flat (hl₂.depth.trans (hl₁.depth.trans hd)) hl₂.rest
    have htokens : f.tokens ++ [.flowEntry] ++ items.tokens =
        (Items.more before f after items).tokens := List.append_assoc ..
    refine ⟨l₃, (htokens ▸ (hl₁.trans hl₂).trans hl₃).mono ?_⟩
    simp only [Items.write, List.length_append, List.length_cons]
    omega

/-- The rest of an object, up to its closing brace. -/
theorem Entries.reaches {l : Layout} {d : Nat} {rest : List Char} :
    (entries : Entries) → entries.IsShared → l.IsFlat → l.outerKeys.length = d + 1 →
    l.keyAllowed = true → l.cursor.rest = entries.write ++ rest →
    ∃ l', l.Reaches entries.write.length entries.tokens d rest l'
  | .last before key behind gap f after, ⟨⟨hbefore, hkey⟩, hgap, hf, hafter⟩, hl, hd, hallowed, h => by
    have hrest : l.cursor.rest = before.write ++ (key.write ++ (behind.write ++
        ':' :: (gap.write ++ (f.write ++ (after.write ++ '\x7d' :: rest))))) :=
      h.trans (by simp [Entries.write])
    obtain ⟨l₁, hl₁⟩ :=
      Layout.reaches_key hkey hl (Layout.inFlow_of_depth hd) hallowed hbefore hrest
    have hd₁ := hl₁.depth.trans hd
    obtain ⟨l₂, g, hg, hl₂⟩ :=
      f.reaches hf hl₁.flat (Layout.inFlow_of_depth hd₁) hgap hafter rfl hl₁.rest
    obtain ⟨l₃, hl₃⟩ := Layout.reaches_closing rfl hl₂.flat hg (hl₂.depth.trans hd₁) hl₂.rest
    refine ⟨l₃, ((hl₁.trans hl₂).trans hl₃).mono ?_⟩
    have hlength : 1 ≤ key.write.length := Nat.succ_le_succ (Nat.zero_le _)
    simp only [Entries.write, List.length_append, List.length_cons, List.length_nil]
    omega
  | .more before key behind gap f after entries,
      ⟨⟨⟨hbefore, hkey⟩, hgap, hf, hafter⟩, hentries⟩, hl, hd, hallowed, h => by
    have hrest : l.cursor.rest = before.write ++ (key.write ++ (behind.write ++
        ':' :: (gap.write ++ (f.write ++ (after.write ++ ',' :: (entries.write ++ rest)))))) :=
      h.trans (by simp [Entries.write])
    obtain ⟨l₁, hl₁⟩ :=
      Layout.reaches_key hkey hl (Layout.inFlow_of_depth hd) hallowed hbefore hrest
    have hd₁ := hl₁.depth.trans hd
    obtain ⟨l₂, g, hg, hl₂⟩ :=
      f.reaches hf hl₁.flat (Layout.inFlow_of_depth hd₁) hgap hafter rfl hl₁.rest
    obtain ⟨l₃, hl₃, hallowed₃⟩ := Layout.reaches_comma hl₂.flat hg hl₂.rest
    obtain ⟨l₄, hl₄⟩ := entries.reaches hentries hl₃.flat (hl₃.depth.trans (hl₂.depth.trans hd₁))
      hallowed₃ hl₃.rest
    have htokens : [.key, .scalar key.codes false, .value] ++ f.tokens ++ [.flowEntry] ++
        entries.tokens = (Entries.more before key behind gap f after entries).tokens :=
      List.append_assoc ..
    refine ⟨l₄, (htokens ▸ ((hl₁.trans hl₂).trans hl₃).trans hl₄).mono ?_⟩
    have hlength : 1 ≤ key.write.length := Nat.succ_le_succ (Nat.zero_le _)
    simp only [Entries.write, List.length_append, List.length_cons]
    omega

end

private theorem isFlat_start (cs : List Char) : (Layout.start cs).IsFlat := ⟨rfl, rfl, nofun, nofun⟩

private theorem Form.of_map {f : Form} {es : List (Scalar × Value)} (hmap : f.value = .map es) :
    (∃ gap, f = .emptyObject gap) ∨ ∃ entries, f = .object entries := by
  cases f with
  | null | bool | string | emptyArray | array => cases hmap
  | number n =>
    rw [Form.value, Numeral.value] at hmap
    split at hmap <;> cases hmap
  | emptyObject gap => exact .inl ⟨gap, rfl⟩
  | object entries => exact .inr ⟨entries, rfl⟩

/-- An object is read wherever it stands. -/
private theorem Form.reaches_of_map {l : Layout} {g : Gap} {rest : List Char}
    {es : List (Scalar × Value)}
    {f : Form} (hf : f.IsShared) (hmap : f.value = .map es) (hl : l.IsFlat) (hg : g.IsShared)
    (h : l.cursor.rest = g.write ++ (f.write ++ rest)) :
    ∃ l', l.Reaches f.write.length f.tokens l.outerKeys.length rest l' := by
  obtain ⟨gap, rfl⟩ | ⟨entries, rfl⟩ := Form.of_map hmap
  · have hrest : l.cursor.rest = g.write ++ '\x7b' :: (gap.write ++ '\x7d' :: rest) :=
      h.trans (by simp [Form.write])
    obtain ⟨l', hl'⟩ := reaches_empty rfl rfl hl hg hf hrest
    exact ⟨l', hl'.mono (by simp [Form.write])⟩
  · obtain ⟨l₁, hl₁, hallowed⟩ := Layout.reaches_opening rfl hl hg h
    obtain ⟨l₂, hl₂⟩ := entries.reaches hf hl₁.flat hl₁.depth hallowed hl₁.rest
    exact ⟨l₂, (hl₁.trans hl₂).mono (Nat.add_comm ..).le⟩

/-- The tokens of a text that holds an object. -/
theorem ofChars_write {w : Whole} {es : List (Scalar × Value)} (hw : w.IsShared)
    (hmap : w.value = .map es) : Token.ofChars w.write = .ok (w.form.tokens ++ [.streamEnd]) := by
  have hrest : (Layout.start w.write).cursor.rest =
      w.before.write ++ (w.form.write ++ w.after.write) := List.append_assoc ..
  have hmark : (Layout.start w.write).skipMark = Layout.start w.write := by
    have hhead : (Layout.start w.write).cursor.head ≠ byteOrderMark := by
      obtain ⟨cs, hcs⟩ : ∃ cs, w.form.write = '\x7b' :: cs := by
        obtain ⟨gap, hf⟩ | ⟨entries, hf⟩ := Form.of_map hmap <;> exact ⟨_, by rw [hf]; rfl⟩
      rw [hcs] at hrest
      cases hbefore : w.before with
      | nil =>
        rw [hbefore] at hrest
        rw [Cursor.head_of_cons hrest]
        decide
      | cons b g =>
        rw [hbefore] at hrest
        rw [Cursor.head_of_cons hrest]
        cases b <;> decide
    simp [Layout.skipMark, hhead]
  obtain ⟨l, hl⟩ := Form.reaches_of_map hw.form hmap (isFlat_start _) hw.before hrest
  obtain ⟨m, hm, hrun⟩ := hl.run
  obtain ⟨fuel, hfuel⟩ : ∃ fuel, (Layout.start w.write).cursor.fuel = m + (fuel + 1) := by
    refine ⟨(Layout.start w.write).cursor.fuel - m - 1, ?_⟩
    rw [Cursor.fuel, hrest, List.length_append, List.length_append]
    omega
  rw [Token.ofChars, hmark, hfuel, hrun, Layout.run_of_end hl.flat hw.after hl.rest, hl.tokens,
    List.reverse_append, List.reverse_reverse]
  rfl

end Flowchart.Json
