/-! Decimal digits of every script, where each script's ten digits stand in a row, and signs. -/
namespace Flowchart.Text

/-- The code point of the digit zero of every script. -/
def zeros : List Nat := [
  48, 1632, 1776, 1984, 2406, 2534, 2662, 2790, 2918, 3046, 3174, 3302, 3430, 3558, 3664, 3792,
  3872, 4160, 4240, 6112, 6160, 6470, 6608, 6784, 6800, 6992, 7088, 7232, 7248, 42528, 43216,
  43264, 43472, 43504, 43600, 44016, 65296, 66720, 68912, 69734, 69872, 69942, 70096, 70384,
  70736, 70864, 71248, 71360, 71472, 71904, 72016, 72784, 73040, 73120, 92768, 92864, 93008,
  120782, 120792, 120802, 120812, 120822, 123200, 123632, 125264, 130032]

/-- The value of a decimal digit of any script. -/
def digit? (c : Nat) : Option Nat :=
  (zeros.find? fun z => z ≤ c && c ≤ z + 9).map (c - ·)

/-- The value of an ASCII digit. -/
def asciiDigit? (c : Nat) : Option Nat := if 48 ≤ c ∧ c ≤ 57 then some (c - 48) else none

/-- The value of a hexadecimal digit. -/
def hexDigit? (c : Nat) : Option Nat :=
  if 48 ≤ c ∧ c ≤ 57 then some (c - 48)
  else if 97 ≤ c ∧ c ≤ 102 then some (c - 87)
  else if 65 ≤ c ∧ c ≤ 70 then some (c - 55)
  else none

/-- A sign, and the rest. -/
def takeSign : List Nat → Bool × List Nat
  | 43 :: cs => (false, cs)
  | 45 :: cs => (true, cs)
  | cs => (false, cs)

/-- The number that hexadecimal digits name. -/
def hexNumber? (cs : List Nat) : Option Nat :=
  cs.foldlM (fun n c => (hexDigit? c).map fun d => n * 16 + d) 0

theorem asciiDigit?_lt {c d : Nat} (h : asciiDigit? c = some d) : d < 10 := by
  unfold asciiDigit? at h
  split at h
  · cases h
    omega
  · cases h

/-- An ASCII digit counts among the digits of every script with the same value. -/
theorem digit?_of_asciiDigit? {c d : Nat} (h : asciiDigit? c = some d) : digit? c = some d := by
  unfold asciiDigit? at h
  split at h
  · next hc =>
    have hz : zeros.find? (fun z => z ≤ c && c ≤ z + 9) = some 48 := by
      simp [zeros, hc.1, show c ≤ 48 + 9 by omega]
    simpa [digit?, hz] using h
  · simp at h

end Flowchart.Text
