import Flowchart.Text.Digit
import Flowchart.Value.Calendar
/-! Dates and moments as YAML writes them. -/
namespace Flowchart.Yaml

/-- The parts of a timestamp. The time of day may be absent; an offset of nothing is local
time. -/
structure Timestamp where
  date : Date
  /-- Month and day have two digits each. -/
  isPadded : Bool
  time : Option (Nat × Nat × Nat × Nat)
  offset : Option Int
deriving DecidableEq

namespace Timestamp

private def isDigit (c : Nat) : Bool := 48 ≤ c && c ≤ 57

private def isBlank (c : Nat) : Bool := c == 32 || c == 9

private def number (ds : List Nat) : Nat := ds.foldl (fun n c => n * 10 + (c - 48)) 0

/-- Exactly `n` digits. -/
private def exactly? (n : Nat) (cs : List Nat) : Option (Nat × List Nat) :=
  let ds := cs.take n
  if ds.length = n ∧ ds.all isDigit then some (number ds, cs.drop n) else none

/-- One or two digits, with their count. -/
private def oneOrTwo? (cs : List Nat) : Option (Nat × Nat × List Nat) :=
  match exactly? 2 cs with
  | some (n, rest) => some (n, 2, rest)
  | none => (exactly? 1 cs).map fun (n, rest) => (n, 1, rest)

private def mark? (c : Nat) : List Nat → Option (List Nat)
  | d :: cs => if d = c then some cs else none
  | [] => none

/-- The first six digits after the point, as microseconds. -/
private def micros (ds : List Nat) : Nat :=
  let six := ds.take 6
  number six * Nat.pow 10 (6 - six.length)

/-- `Z`, or a sign with hours and perhaps minutes; nothing else may follow. -/
private def offset? (cs : List Nat) : Option (Option Int) :=
  match cs.dropWhile isBlank with
  | [] => if cs.isEmpty then some none else none
  | [90] => some (some 0)
  | s :: cs =>
    if s = 43 ∨ s = 45 then do
      let (hours, _, rest) ← oneOrTwo? cs
      let minutes ←
        match rest with
        | [] => some 0
        | 58 :: rest => (exactly? 2 rest).bind fun (n, rest) => if rest.isEmpty then some n else none
        | _ => none
      let total : Int := hours * 60 + minutes
      some (some (if s = 45 then -total else total))
    else none

private def time? (cs : List Nat) : Option ((Nat × Nat × Nat × Nat) × Option Int) := do
  let (hour, _, rest) ← oneOrTwo? cs
  let rest ← mark? 58 rest
  let (minute, rest) ← exactly? 2 rest
  let rest ← mark? 58 rest
  let (second, rest) ← exactly? 2 rest
  let (micro, rest) :=
    match rest with
    | 46 :: rest => (micros (rest.takeWhile isDigit), rest.dropWhile isDigit)
    | rest => (0, rest)
  let offset ← offset? rest
  some ((hour, minute, second, micro), offset)

/-- A date, then perhaps a `T` or blanks and a time of day. -/
def read? (cs : List Nat) : Option Timestamp := do
  let (year, rest) ← exactly? 4 cs
  let rest ← mark? 45 rest
  let (month, m, rest) ← oneOrTwo? rest
  let rest ← mark? 45 rest
  let (day, d, rest) ← oneOrTwo? rest
  let date : Date := ⟨year, month, day⟩
  let isPadded := m == 2 && d == 2
  match rest with
  | [] => some ⟨date, isPadded, none, none⟩
  | c :: cs =>
    let rest := if c = 84 ∨ c = 116 then some cs else if isBlank c then some (cs.dropWhile isBlank) else none
    let (time, offset) ← rest.bind time?
    some ⟨date, isPadded, some time, offset⟩

/-- Read without a tag, a date alone has two digits for the month and the day. -/
def isPlain (t : Timestamp) : Bool := t.time.isSome || t.isPadded

end Timestamp

end Flowchart.Yaml
