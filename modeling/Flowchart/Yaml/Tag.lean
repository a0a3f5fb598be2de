import Flowchart.Text.Basic
import Flowchart.Text.Digit
import Flowchart.Yaml.Timestamp
/-! The kinds of YAML nodes, and the kind of a plain scalar that names none. -/
namespace Flowchart.Yaml

inductive Tag where
  | null | bool | int | float | binary | timestamp
  | str | seq | map | set | omap | pairs
  | merge | value | mark
  | unknown
deriving DecidableEq

namespace Tag

/-- Where the names of the kinds below begin. -/
def coreUri : Text := "tag:yaml.org,2002:"

private def named : List (Text × Tag) := [
  ("null", null), ("bool", bool), ("int", int), ("float", float), ("binary", binary),
  ("timestamp", timestamp), ("str", str), ("seq", seq), ("map", map), ("set", set),
  ("omap", omap), ("pairs", pairs), ("merge", merge), ("value", value), ("yaml", mark)]

/-- The kind with a full name. -/
def ofText (t : Text) : Tag :=
  ((named.find? fun n => coreUri ++ n.1 = t).map (·.2)).getD unknown

/-! ## Plain scalars -/

def isDigit (c : Nat) : Bool := 48 ≤ c && c ≤ 57

def isDigitOrLine (c : Nat) : Bool := isDigit c || c == 95

def isWord (cs : List Nat) (words : List Text) : Bool := words.contains ⟨cs⟩

def isBool (cs : List Nat) : Bool :=
  isWord cs ["yes", "Yes", "YES", "no", "No", "NO", "true", "True", "TRUE", "false", "False",
    "FALSE", "on", "On", "ON", "off", "Off", "OFF"]

def isNull (cs : List Nat) : Bool := isWord cs ["", "~", "null", "Null", "NULL"]

/-- A number below sixty of one or two digits. -/
def isSixtieth : List Nat → Bool
  | [a] => isDigit a
  | [a, b] => 48 ≤ a && a ≤ 53 && isDigit b
  | _ => false

def isInt (cs : List Nat) : Bool :=
  match (Text.takeSign cs).2 with
  | [48] => true
  | 48 :: 98 :: ds => !ds.isEmpty && ds.all fun c => c == 48 || c == 49 || c == 95
  | 48 :: 120 :: ds => !ds.isEmpty && ds.all fun c => (Text.hexDigit? c).isSome || c == 95
  | 48 :: ds => ds.all fun c => (48 ≤ c && c ≤ 55) || c == 95
  | d :: ds =>
    isDigit d &&
    match Text.pieces 58 ds with
    | [whole] => whole.all isDigitOrLine
    | whole :: parts => whole.all isDigitOrLine && parts.all isSixtieth
    | [] => false
  | [] => false

/-- Nothing, or a letter `e` with a sign and digits. -/
def isExponent : List Nat → Bool
  | [] => true
  | e :: s :: ds => (e == 101 || e == 69) && (s == 43 || s == 45) && !ds.isEmpty && ds.all isDigit
  | _ => false

def isFloat (cs : List Nat) : Bool :=
  let body := (Text.takeSign cs).2
  isWord body [".inf", ".Inf", ".INF"] || isWord cs [".nan", ".NaN", ".NAN"] ||
  match body with
  | 46 :: d :: ds =>
    body.length == cs.length && isDigit d && isExponent (ds.dropWhile isDigitOrLine)
  | d :: ds =>
    isDigit d &&
    match ds.dropWhile isDigitOrLine with
    | 46 :: part => isExponent (part.dropWhile isDigitOrLine)
    | 58 :: rest =>
      rest.contains 46 && (Text.pieces 58 (rest.takeWhile (· ≠ 46))).all isSixtieth &&
        (rest.dropWhile (· ≠ 46)).tail.all isDigitOrLine
    | _ => false
  | [] => false

def isTimestamp (cs : List Nat) : Bool := (Timestamp.read? cs).any Timestamp.isPlain

/-- The kind that the text of a plain scalar shows; one line feed at the end does not count. -/
def ofPlain (content : List Nat) : Tag :=
  let cs := if content.getLast? = some 10 then content.dropLast else content
  if content = [10] then str
  else if isBool cs then bool
  else if isFloat cs then float
  else if isInt cs then int
  else if isWord cs ["<<"] then merge
  else if isNull cs then null
  else if isTimestamp cs then timestamp
  else if isWord cs ["="] then value
  else if isWord cs ["!", "&", "*"] then mark
  else str

end Tag

end Flowchart.Yaml
