import Flowchart.Text.Basic
/-! Calendar dates and moments with an optional offset from universal time. -/
namespace Flowchart

structure Date where
  year : Nat
  month : Nat
  day : Nat
deriving DecidableEq, Inhabited

/-- A moment of a day; the offset is in minutes, and absent for local time. -/
structure Moment where
  date : Date
  hour : Nat
  minute : Nat
  second : Nat
  micro : Nat
  offset : Option Int
deriving DecidableEq, Inhabited

namespace Date

def isLeap (year : Nat) : Bool := year % 4 == 0 && (year % 100 != 0 || year % 400 == 0)

def daysIn (year month : Nat) : Nat :=
  if month = 2 then if isLeap year then 29 else 28
  else if month = 4 ∨ month = 6 ∨ month = 9 ∨ month = 11 then 30
  else 31

/-- Years run from 1 to 9999. -/
def isValid (d : Date) : Bool :=
  1 ≤ d.year && d.year ≤ 9999 && 1 ≤ d.month && d.month ≤ 12 && 1 ≤ d.day &&
    d.day ≤ daysIn d.year d.month

/-- Days since the day before the first of January of year 1. -/
def dayNumber (d : Date) : Nat :=
  let y := d.year - 1
  y * 365 + y / 4 - y / 100 + y / 400 +
    (List.range (d.month - 1)).foldl (fun days m => days + daysIn d.year (m + 1)) 0 + d.day

def text (d : Date) : Text :=
  Text.padded 4 d.year ++ "-" ++ Text.padded 2 d.month ++ "-" ++ Text.padded 2 d.day

end Date

namespace Moment

/-- An offset stays under a day. -/
def isValid (m : Moment) : Bool :=
  m.date.isValid && m.hour < 24 && m.minute < 60 && m.second < 60 && m.micro < 1000000 &&
    m.offset.all fun o => -1440 < o && o < 1440

def offsetText (o : Int) : Text :=
  (if o < 0 then "-" else "+") ++ Text.padded 2 (o.natAbs / 60) ++ ":" ++
    Text.padded 2 (o.natAbs % 60)

/-- The microseconds only when there are some, the offset only when it is known. -/
def text (separator : Text) (m : Moment) : Text :=
  m.date.text ++ separator ++ Text.padded 2 m.hour ++ ":" ++ Text.padded 2 m.minute ++ ":" ++
    Text.padded 2 m.second ++ (if m.micro = 0 then Text.empty else "." ++ Text.padded 6 m.micro) ++
    (m.offset.elim Text.empty offsetText)

/-- Microseconds of local time since the day before year 1. -/
def localMicros (m : Moment) : Int :=
  (((m.date.dayNumber * 24 + m.hour) * 60 + m.minute) * 60 + m.second) * 1000000 + m.micro

end Moment

end Flowchart
