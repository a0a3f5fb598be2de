/-! Binary64 numbers as exact values: a sign, a mantissa and a power of two. -/
namespace Flowchart

/-- A finite number is `mantissa · 2 ^ exponent`. Every operation below keeps the mantissa under
`2 ^ 53` and the exponent at least `-1074`, and the mantissa at least `2 ^ 52` unless the
exponent is `-1074`, so equal numbers of one sign are equal values. -/
inductive Double where
  | nan
  | infinite (negative : Bool)
  | finite (negative : Bool) (mantissa : Nat) (exponent : Int)
deriving DecidableEq, Inhabited

namespace Double

def zero (negative : Bool) : Double := finite negative 0 (-1074)

/-- The quotient rounded to the nearest natural number, a half to the even neighbour. -/
def roundedQuotient (num den : Nat) : Nat :=
  let q := num / den
  let r := num % den
  if 2 * r < den then q else if den < 2 * r then q + 1 else q + q % 2

/-- The fraction `num / den` in units of `2 ^ e`. -/
private def inUnits (num den : Nat) (e : Int) : Nat × Nat :=
  if 0 ≤ e then (num, den * Nat.pow 2 e.toNat) else (num * Nat.pow 2 (-e).toNat, den)

/-- The number nearest to `num / den`, ties to the even mantissa; past the largest one it is
infinite. -/
def ofRatio (negative : Bool) (num den : Nat) : Double :=
  if num = 0 then zero negative
  else
    let low : Int := (Nat.log2 num : Int) - Nat.log2 den - 53
    let fits := (inUnits num den low).1 / (inUnits num den low).2 < Nat.pow 2 53
    let e := max (if fits then low else low + 1) (-1074)
    let m := roundedQuotient (inUnits num den e).1 (inUnits num den e).2
    let (m, e) := if m = Nat.pow 2 53 then (Nat.pow 2 52, e + 1) else (m, e)
    if e > 971 then infinite negative else finite negative m e

/-- The number nearest to `m · 2 ^ e`. -/
def ofScaled (negative : Bool) (m : Nat) (e : Int) : Double :=
  if 0 ≤ e then ofRatio negative (m * Nat.pow 2 e.toNat) 1
  else ofRatio negative m (Nat.pow 2 (-e).toNat)

def ofInt (i : Int) : Double := ofRatio (i < 0) i.natAbs 1

def isZero : Double → Bool
  | finite _ 0 _ => true
  | _ => false

def isFinite : Double → Bool
  | finite .. => true
  | _ => false

def neg : Double → Double
  | nan => nan
  | infinite s => infinite !s
  | finite s m e => finite (!s) m e

theorem neg_ofRatio (negative : Bool) (num den : Nat) :
    (ofRatio negative num den).neg = ofRatio (!negative) num den := by
  simp only [ofRatio, apply_ite neg]
  rfl

private def signed (negative : Bool) (m : Nat) : Int := if negative then -m else m

def add : Double → Double → Double
  | nan, _ | _, nan => nan
  | infinite s, infinite t => if s = t then infinite s else nan
  | infinite s, finite .. => infinite s
  | finite .., infinite t => infinite t
  | finite s m e, finite t n f =>
    let low := min e f
    let sum := signed s (m * Nat.pow 2 (e - low).toNat) + signed t (n * Nat.pow 2 (f - low).toNat)
    if sum = 0 then zero (s && t) else ofScaled (sum < 0) sum.natAbs low

def mul : Double → Double → Double
  | nan, _ | _, nan => nan
  | infinite s, infinite t => infinite (s != t)
  | infinite s, finite t n _ => if n = 0 then nan else infinite (s != t)
  | finite s m _, infinite t => if m = 0 then nan else infinite (s != t)
  | finite s m e, finite t n f => ofScaled (s != t) (m * n) (e + f)

/-- The integer it equals, if it equals one. -/
def toInt? : Double → Option Int
  | finite s m e =>
    if 0 ≤ e then some (signed s (m * Nat.pow 2 e.toNat))
    else if m % Nat.pow 2 (-e).toNat = 0 then some (signed s (m / Nat.pow 2 (-e).toNat))
    else none
  | _ => none

/-- Its value as a fraction; an infinite one has denominator zero. -/
def ratio? : Double → Option (Int × Nat)
  | nan => none
  | infinite s => some (signed s 1, 0)
  | finite s m e =>
    some (if 0 ≤ e then (signed s (m * Nat.pow 2 e.toNat), 1)
      else (signed s m, Nat.pow 2 (-e).toNat))

/-- A fraction with a denominator, or an infinite one. -/
def IsRatio (x : Int × Nat) : Prop := x.2 = 0 → x.1 = 1 ∨ x.1 = -1

/-- The order of values given as fractions; two infinite ones go by their signs. -/
def ratioAtMost (x y : Int × Nat) : Bool :=
  if x.2 + y.2 = 0 then decide (x.1 ≤ y.1) else decide (x.1 * y.2 ≤ y.1 * x.2)

theorem isRatio_of_ratio? {d : Double} {x : Int × Nat} (h : d.ratio? = some x) : IsRatio x := by
  cases d with
  | nan => cases h
  | infinite s => cases h; cases s <;> simp [IsRatio, signed]
  | finite s m e =>
    have hp : Nat.pow 2 (-e).toNat ≠ 0 := Nat.ne_of_gt (Nat.pow_pos (by decide))
    cases h
    intro hx
    split at hx
    · cases hx
    · exact absurd hx hp

theorem ratioAtMost_total (x y : Int × Nat) : ratioAtMost x y = true ∨ ratioAtMost y x = true := by
  simp only [ratioAtMost, Nat.add_comm y.2]
  split
  · simpa using Int.le_total x.1 y.1
  · simpa using Int.le_total (x.1 * y.2) (y.1 * x.2)

theorem ratioAtMost_iff {x y : Int × Nat} : ratioAtMost x y = true ↔
    x.1 * y.2 ≤ y.1 * x.2 ∧ (x.2 = 0 → y.2 = 0 → x.1 ≤ y.1) := by
  unfold ratioAtMost
  split
  · next h =>
    obtain ⟨hx, hy⟩ := Nat.add_eq_zero_iff.1 h
    simp [hx, hy]
  · next h =>
    have hnot : ¬ (x.2 = 0 ∧ y.2 = 0) := fun hxy => h (Nat.add_eq_zero_iff.2 hxy)
    simp only [decide_eq_true_eq, ← and_imp, hnot, false_imp_iff, and_true]

theorem ratioAtMost_trans {x y z : Int × Nat} (hx : IsRatio x) (hy : IsRatio y) (hz : IsRatio z)
    (hxy : ratioAtMost x y = true) (hyz : ratioAtMost y z = true) : ratioAtMost x z = true := by
  obtain ⟨n, d⟩ := x
  obtain ⟨m, e⟩ := y
  obtain ⟨l, f⟩ := z
  rw [ratioAtMost_iff] at hxy hyz ⊢
  simp only [IsRatio] at hx hy hz hxy hyz ⊢
  rcases Nat.eq_zero_or_pos e with rfl | he
  · -- an infinite number in the middle makes one of the others infinite
    rcases hy rfl with rfl | rfl
    · obtain rfl : f = 0 := by omega
      rcases hz rfl with rfl | rfl <;> omega
    · obtain rfl : d = 0 := by omega
      rcases hx rfl with rfl | rfl <;> omega
  · have he' : (0 : Int) < e := Int.ofNat_lt.2 he
    refine ⟨Int.le_of_mul_le_mul_right ?_ he', fun hd hf => ?_⟩
    · calc n * f * e = n * e * f := Int.mul_right_comm ..
        _ ≤ m * d * f := Int.mul_le_mul_of_nonneg_right hxy.1 (Int.natCast_nonneg f)
        _ = m * f * d := Int.mul_right_comm ..
        _ ≤ l * e * d := Int.mul_le_mul_of_nonneg_right hyz.1 (Int.natCast_nonneg d)
        _ = l * d * e := Int.mul_right_comm ..
    · subst hd hf
      rcases hx rfl with rfl | rfl <;> rcases hz rfl with rfl | rfl <;> omega

end Double

end Flowchart
