import Flowchart.Text.Basic
/-! Octets to text by UTF-8: no overlong form, no surrogate, nothing above the last plane. -/
namespace Flowchart.Text

/-- What a lead octet asks for: how many octets follow, the range of the first of these and the
bits the lead octet carries. -/
private def lead? (b : Nat) : Option (Nat × Nat × Nat × Nat) :=
  if b ≤ 0x7F then some (0, 0x80, 0xBF, b)
  else if b < 0xC2 then none
  else if b ≤ 0xDF then some (1, 0x80, 0xBF, b - 0xC0)
  else if b = 0xE0 then some (2, 0xA0, 0xBF, 0)
  else if b = 0xED then some (2, 0x80, 0x9F, 0xD)
  else if b ≤ 0xEF then some (2, 0x80, 0xBF, b - 0xE0)
  else if b = 0xF0 then some (3, 0x90, 0xBF, 0)
  else if b ≤ 0xF3 then some (3, 0x80, 0xBF, b - 0xF0)
  else if b = 0xF4 then some (3, 0x80, 0x8F, 4)
  else none

/-- Decode with `owed` octets of the current character to come, the next of them between `low`
and `high`, and `code` read so far. -/
private def decodeFrom (owed low high code : Nat) : List Nat → Option (List Nat)
  | [] => if owed = 0 then some [] else none
  | b :: bs =>
    match owed with
    | 0 => do
      let (more, low, high, bits) ← lead? b
      let rest ← decodeFrom more low high bits bs
      pure (if more = 0 then bits :: rest else rest)
    | owed + 1 =>
      if low ≤ b ∧ b ≤ high then do
        let code := code * 64 + (b - 0x80)
        let rest ← decodeFrom owed 0x80 0xBF code bs
        pure (if owed = 0 then code :: rest else rest)
      else none

def ofUtf8? (octets : List Nat) : Option Text :=
  (decodeFrom 0 0 0 0 octets).map Text.mk

/-- Octets that end inside no character and yield none are none. -/
private theorem of_decodeFrom_eq_nil {owed low high code : Nat} {os : List Nat}
    (h : decodeFrom owed low high code os = some []) : os = [] ∧ owed = 0 := by
  induction os generalizing owed low high code with
  | nil =>
    rw [decodeFrom] at h
    split at h
    · next howed => exact ⟨rfl, howed⟩
    · cases h
  | cons b bs ih =>
    cases owed with
    | zero =>
      simp only [decodeFrom, Option.bind_eq_bind, Option.bind_eq_some_iff, Option.pure_def,
        Option.some.injEq] at h
      obtain ⟨⟨more, low, high, bits⟩, -, rest, hrest, h⟩ := h
      split at h
      · cases h
      · next hmore =>
        subst h
        exact absurd (ih hrest).2 hmore
    | succ owed =>
      simp only [decodeFrom] at h
      split at h
      · simp only [Option.bind_eq_bind, Option.bind_eq_some_iff, Option.pure_def,
          Option.some.injEq] at h
        obtain ⟨rest, hrest, h⟩ := h
        split at h
        · cases h
        · next howed =>
          subst h
          exact absurd (ih hrest).2 howed
      · cases h

private theorem length_le_of_decodeFrom {owed low high code : Nat} {os cs : List Nat}
    (h : decodeFrom owed low high code os = some cs) : cs.length ≤ os.length := by
  have step {b c : Nat} {bs rest : List Nat} {p : Prop} [Decidable p]
      (hrest : rest.length ≤ bs.length) :
      (if p then c :: rest else rest).length ≤ (b :: bs).length := by
    split
    · exact Nat.succ_le_succ hrest
    · exact Nat.le_succ_of_le hrest
  induction os generalizing owed low high code cs with
  | nil =>
    rw [decodeFrom] at h
    split at h <;> cases h
    exact Nat.le_refl 0
  | cons b bs ih =>
    cases owed with
    | zero =>
      simp only [decodeFrom, Option.bind_eq_bind, Option.bind_eq_some_iff, Option.pure_def,
        Option.some.injEq] at h
      obtain ⟨⟨more, low, high, bits⟩, -, rest, hrest, rfl⟩ := h
      exact step (ih hrest)
    | succ owed =>
      simp only [decodeFrom] at h
      split at h
      · simp only [Option.bind_eq_bind, Option.bind_eq_some_iff, Option.pure_def,
          Option.some.injEq] at h
        obtain ⟨rest, hrest, rfl⟩ := h
        exact step (ih hrest)
      · cases h

/-- A text has no more characters than octets. -/
theorem length_le_of_ofUtf8? {os : List Nat} {t : Text} (h : ofUtf8? os = some t) :
    t.codes.length ≤ os.length := by
  obtain ⟨cs, hcs, rfl⟩ := Option.map_eq_some_iff.1 h
  exact length_le_of_decodeFrom hcs

/-- Only no octets at all decode to the empty text. -/
theorem eq_nil_of_ofUtf8? {os : List Nat} (h : ofUtf8? os = some empty) : os = [] := by
  obtain ⟨cs, hcs, hempty⟩ := Option.map_eq_some_iff.1 h
  cases hempty
  exact (of_decodeFrom_eq_nil hcs).1

end Flowchart.Text
