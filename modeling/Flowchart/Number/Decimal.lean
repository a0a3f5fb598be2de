import Flowchart.Number.Double
import Flowchart.Text.Basic
import Flowchart.Text.Digit
/-! Decimal text to the nearest number. -/
namespace Flowchart.Double

/-- Digits read by `digit`, their value and their count, and the rest. -/
def takeDigits (digit : Nat → Option Nat) : List Nat → Nat × Nat × List Nat
  | [] => (0, 0, [])
  | c :: cs =>
    match digit c with
    | none => (0, 0, c :: cs)
    | some d =>
      let (value, count, rest) := takeDigits digit cs
      (d * Nat.pow 10 count + value, count + 1, rest)

/-- So many digits make up no more than this. -/
theorem takeDigits_lt {digit : Nat → Option Nat} (hd : ∀ c d, digit c = some d → d < 10)
    (cs : List Nat) : (takeDigits digit cs).1 < Nat.pow 10 (takeDigits digit cs).2.1 := by
  induction cs with
  | nil => exact Nat.one_pos
  | cons c cs ih =>
    rw [takeDigits]
    split
    · exact Nat.one_pos
    · next d hc =>
      have hle : d + 1 ≤ 10 := hd c d hc
      generalize takeDigits digit cs = r at ih ⊢
      obtain ⟨value, count, rest⟩ := r
      calc d * Nat.pow 10 count + value < d * Nat.pow 10 count + Nat.pow 10 count :=
          Nat.add_lt_add_left ih _
        _ = (d + 1) * Nat.pow 10 count := (Nat.succ_mul ..).symm
        _ ≤ 10 * Nat.pow 10 count := Nat.mul_le_mul_right _ hle
        _ = Nat.pow 10 (count + 1) := Nat.mul_comm ..

/-- `digits · 10 ^ e`; beyond these bounds it is infinite or zero whatever the digits. -/
def ofDecimal (negative : Bool) (digits count : Nat) (e : Int) : Double :=
  if digits = 0 then zero negative
  else if (count : Int) + e < -330 then zero negative
  else if e > 330 then infinite negative
  else if 0 ≤ e then ofRatio negative (digits * Nat.pow 10 e.toNat) 1
  else ofRatio negative digits (Nat.pow 10 (-e).toNat)

theorem neg_ofDecimal (negative : Bool) (digits count : Nat) (e : Int) :
    (ofDecimal negative digits count e).neg = ofDecimal (!negative) digits count e := by
  simp only [ofDecimal, apply_ite neg, neg_ofRatio]
  rfl

/-- The exponent part, empty or complete. -/
def exponent? (digit : Nat → Option Nat) : List Nat → Option Int
  | [] => some 0
  | c :: cs =>
    if c = 101 ∨ c = 69 then
      let (negative, cs) := Text.takeSign cs
      let (value, count, rest) := takeDigits digit cs
      if count = 0 ∨ ¬rest.isEmpty then none else some (if negative then -(value : Int) else value)
    else none

/-- The digits after a point, none if there is no point. -/
def takeFraction (digit : Nat → Option Nat) : List Nat → Nat × Nat × List Nat
  | 46 :: cs => takeDigits digit cs
  | cs => (0, 0, cs)

/-- Digits with at most one point, at least one digit on either side, then an exponent. -/
def unsigned? (digit : Nat → Option Nat) (negative : Bool) (cs : List Nat) :
    Option Double :=
  let (whole, n, rest) := takeDigits digit cs
  let (part, k, rest) := takeFraction digit rest
  if n + k = 0 then none
  else do
    let e ← exponent? digit rest
    pure (ofDecimal negative (whole * Nat.pow 10 k + part) (n + k) (e - k))

/-- A signed decimal, or one of the words `inf`, `infinity` and `nan` in any case. -/
def read? (digit : Nat → Option Nat) (cs : List Nat) : Option Double :=
  let (negative, cs) := Text.takeSign cs
  let word : Text := Text.lower ⟨cs⟩
  if word = "inf" ∨ word = "infinity" then some (infinite negative)
  else if word = "nan" then some nan
  else unsigned? digit negative cs

end Flowchart.Double
