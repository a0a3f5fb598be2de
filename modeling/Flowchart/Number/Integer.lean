import Flowchart.Text.Basic
import Flowchart.Text.Digit
import Flowchart.Text.Space
/-! Text to integer in a given base. -/
namespace Flowchart.Integer

/-- The value of a digit or ASCII letter; letters stand for ten and up. -/
def digitValue? (c : Nat) : Option Nat :=
  match Text.digit? c with
  | some d => some d
  | none =>
    let l := Text.lowerCode c
    if 97 ≤ l ∧ l ≤ 122 then some (l - 87) else none

/-- The value of a run of digits under `base`, none of them missing. -/
def digits? (base : Nat) (cs : List Nat) : Option Nat :=
  if cs.isEmpty then none
  else cs.foldlM (fun n c => do
    let d ← digitValue? c
    if d < base then pure (n * base + d) else none) 0

/-- The letter that may follow a leading zero to name the base. -/
def baseLetter? : Nat → Option Nat
  | 2 => some 98
  | 8 => some 111
  | 16 => some 120
  | _ => none

/-- Drop a prefix such as `0x` that names the base. -/
def dropBase (base : Nat) : List Nat → List Nat
  | 48 :: c :: cs => if some (Text.lowerCode c) = baseLetter? base then cs else 48 :: c :: cs
  | cs => cs

/-- Longer runs of decimal digits are neither read nor written. -/
def digitLimit : Nat := 4300

/-- An integer with spaces around it, a sign and, under base 2, 8 or 16, the name of the base. -/
def read? (base : Nat) (cs : List Nat) : Option Int :=
  let cs := Text.strip Text.isSpaceOrSeparator cs
  let (negative, cs) := Text.takeSign cs
  let cs := dropBase base cs
  if base = 10 ∧ digitLimit < cs.length then none
  else (digits? base cs).map fun n => if negative then -(n : Int) else n

/-- As many digits can be written. -/
def isWritten (i : Int) : Bool := i.natAbs < Nat.pow 10 digitLimit

end Flowchart.Integer
