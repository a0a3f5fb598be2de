import Flowchart.Value.Basic
/-! The text of a value in messages and derived ids. -/
namespace Flowchart.Value

private def between (opening closing : Text) (parts : List Text) : Text :=
  opening ++ Text.joined ", " parts ++ closing

mutual

def quoted : Value → Text
  | scalar s => s.quoted
  | list xs => between "[" "]" (quotedItems xs)
  | tuple [x] => "(" ++ quoted x ++ ",)"
  | tuple xs => between "(" ")" (quotedItems xs)
  | set [] => "set()"
  | set xs => between "\x7b" "\x7d" (xs.map Scalar.quoted)
  | map es => between "\x7b" "\x7d" (quotedEntries es)
  | endless => "..."

def quotedItems : List Value → List Text
  | [] => []
  | x :: xs => quoted x :: quotedItems xs

def quotedEntries : List (Scalar × Value) → List Text
  | [] => []
  | (k, v) :: es => (k.quoted ++ ": " ++ quoted v) :: quotedEntries es

end

/-- A text stands for itself; every other value is written as inside a list. -/
def display : Value → Text
  | scalar s => s.display
  | v => v.quoted

end Flowchart.Value
