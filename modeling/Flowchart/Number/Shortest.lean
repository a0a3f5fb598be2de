import Flowchart.Number.Double
import Flowchart.Text.Basic
/-! The decimal text of a number: the fewest digits that read back as the same number. -/
namespace Flowchart.Double

/-- The exponent of the leading decimal digit of a positive fraction. -/
def leadingExponent (num den : Nat) : Int :=
  if den ≤ num then ((Nat.toDigits 10 (num / den)).length : Int) - 1
  else
    let d := (Nat.toDigits 10 (den / num)).length
    if den = num * Nat.pow 10 (d - 1) then 1 - (d : Int) else -(d : Int)

/-- A positive number with the ends of the interval that rounds to it, as numerators over one
denominator; the ends belong to the interval when the mantissa is even. -/
structure Interval where
  low : Nat
  value : Nat
  high : Nat
  den : Nat
  closed : Bool

/-- Below a power of two the next number is half as far away. -/
def Interval.around (m : Nat) (e : Int) : Interval :=
  let unit := if m = Nat.pow 2 52 ∧ e > -1074 then 1 else 2
  let up := if 2 ≤ e then Nat.pow 2 (e - 2).toNat else 1
  let down := if 2 ≤ e then 1 else Nat.pow 2 (2 - e).toNat
  ⟨(4 * m - unit) * up, 4 * m * up, (4 * m + 2) * up, down, m % 2 = 0⟩

/-- Whether `d · num / den` lies in the interval. -/
def Interval.holds (i : Interval) (d num den : Nat) : Bool :=
  let x := d * num * i.den
  if i.closed then i.low * den ≤ x && x ≤ i.high * den else i.low * den < x && x < i.high * den

/-- The multiple of `10 ^ g` in the interval that is nearest to its value, if there is one; of
two at the same distance the even one. -/
def Interval.onGrid? (i : Interval) (g : Int) : Option Nat :=
  let num := Nat.pow 10 g.toNat
  let den := Nat.pow 10 (-g).toNat
  let below := (i.value * den) / (i.den * num)
  let rest := (i.value * den) % (i.den * num)
  let belowFirst := 2 * rest < i.den * num || (2 * rest == i.den * num && below % 2 == 0)
  let hit (d : Nat) : Option Nat := if i.holds d num den then some d else none
  if belowFirst then hit below <|> hit (below + 1) else hit (below + 1) <|> hit below

/-- The digits on the coarsest grid with a hit, and the exponent of that grid. -/
def Interval.shortestFrom (i : Interval) (lead : Int) : Nat → Nat → Nat × Int
  | 0, k => (i.value / i.den, lead - k + 1)
  | fuel + 1, k =>
    match i.onGrid? (lead - k + 1) with
    | some d => (d, lead - k + 1)
    | none => shortestFrom i lead fuel (k + 1)

/-- Significant digits without a trailing zero, and the exponent of the first of them. Seventeen
digits tell any two numbers apart. -/
def significant (m : Nat) (e : Int) : List Char × Int :=
  let i := Interval.around m e
  let (d, g) := i.shortestFrom (leadingExponent i.value i.den) 17 1
  let ds := Nat.toDigits 10 d
  let kept := (ds.reverse.dropWhile (· == '0')).reverse
  (kept, g + ds.length - 1)

/-- Positional from four zeros after the point up to sixteen digits before it, with at least one
digit after the point; otherwise with an exponent of two digits or more. -/
def layOut (ds : List Char) (e : Int) : List Char :=
  if -4 ≤ e ∧ e < 16 then
    if e < 0 then '0' :: '.' :: List.replicate (-e - 1).toNat '0' ++ ds
    else
      let whole := e.toNat + 1
      let front := ds.take whole
      let back := ds.drop whole
      front ++ List.replicate (whole - front.length) '0' ++ '.' :: (if back.isEmpty then ['0'] else back)
  else
    let back := ds.drop 1
    let mantissa := ds.take 1 ++ (if back.isEmpty then [] else '.' :: back)
    let digits := Nat.toDigits 10 e.natAbs
    mantissa ++ ['e', if e < 0 then '-' else '+'] ++ List.replicate (2 - digits.length) '0' ++ digits

def text : Double → Text
  | nan => "nan"
  | infinite s => if s then "-inf" else "inf"
  | finite s m e =>
    let (ds, lead) := if m = 0 then (['0'], 0) else significant m e
    Text.ofChars ((if s then ['-'] else []) ++ layOut ds lead)

end Flowchart.Double
