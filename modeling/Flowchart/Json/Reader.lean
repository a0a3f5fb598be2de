import Flowchart.Number.Decimal
import Flowchart.Value.Basic
/-! JSON text to values. The entries of an object keep their order, and of a repeated key the
last value counts; an escape may name half of a surrogate pair. -/
namespace Flowchart.Json

def isSpace (c : Char) : Bool := c == ' ' || c == '\t' || c == '\n' || c == '\r'

def skip (cs : List Char) : List Char := cs.dropWhile isSpace

/-- The code point of a character after a backslash. -/
def escape? : Char → Option Nat
  | '"' => some 34
  | '\\' => some 92
  | '/' => some 47
  | 'b' => some 8
  | 'f' => some 12
  | 'n' => some 10
  | 'r' => some 13
  | 't' => some 9
  | _ => none

/-- The rest of a string after its opening quote, code point by code point, and what follows. -/
def string? : List Char → Option (List Nat × List Char)
  | [] => none
  | '"' :: cs => some ([], cs)
  | '\\' :: 'u' :: a :: b :: c :: d :: cs => do
    let code ← Text.hexNumber? [a.toNat, b.toNat, c.toNat, d.toNat]
    let (codes, rest) ← string? cs
    pure (code :: codes, rest)
  | '\\' :: c :: cs => do
    let code ← escape? c
    let (codes, rest) ← string? cs
    pure (code :: codes, rest)
  | c :: cs =>
    if c.toNat < 0x20 then none
    else (string? cs).map fun (codes, rest) => (c.toNat :: codes, rest)

/-- The two halves of a surrogate pair become the code point they name. -/
def joinPairs : List Nat → List Nat
  | h :: l :: cs =>
    if 0xD800 ≤ h ∧ h ≤ 0xDBFF ∧ 0xDC00 ≤ l ∧ l ≤ 0xDFFF then
      (0x10000 + (h - 0xD800) * 0x400 + (l - 0xDC00)) :: joinPairs cs
    else h :: joinPairs (l :: cs)
  | cs => cs

def text? (cs : List Char) : Option (Text × List Char) :=
  (string? cs).map fun (codes, rest) => (⟨joinPairs codes⟩, rest)

def isNumberPart (c : Char) : Bool :=
  c.isDigit || c == '+' || c == '-' || c == '.' || c == 'e' || c == 'E'

/-- Whether a minus sign comes first, and the rest. -/
def takeMinus : List Char → Bool × List Char
  | '-' :: cs => (true, cs)
  | cs => (false, cs)

/-- A number: an integer without fraction and exponent, or a binary64 number. -/
def number? (cs : List Char) : Option Value :=
  let (negative, body) := takeMinus cs
  let whole := body.takeWhile Char.isDigit
  let rest := body.dropWhile Char.isDigit
  if whole.isEmpty ∨ (1 < whole.length ∧ whole.head? = some '0') then none
  else if rest.isEmpty then
    let n : Nat := whole.foldl (fun n c => n * 10 + (c.toNat - 48)) 0
    some (.int (if negative then -(n : Int) else n))
  else
    let afterPoint : Option Char := if rest.head? = some '.' then rest[1]? else some '0'
    if afterPoint.any Char.isDigit then
      (Double.read? Text.asciiDigit? (cs.map Char.toNat)).map Value.double
    else none

def word? (cs : List Char) : Option (Value × List Char) :=
  match cs with
  | 'n' :: 'u' :: 'l' :: 'l' :: rest => some (.null, rest)
  | 't' :: 'r' :: 'u' :: 'e' :: rest => some (.bool true, rest)
  | 'f' :: 'a' :: 'l' :: 's' :: 'e' :: rest => some (.bool false, rest)
  | cs => (number? (cs.takeWhile isNumberPart)).map (·, cs.dropWhile isNumberPart)

mutual

/-- A value, and what follows it. No value is nested deeper than `fuel`. -/
def value? : Nat → List Char → Option (Value × List Char)
  | 0, _ => none
  | fuel + 1, cs =>
    match skip cs with
    | '"' :: cs => (text? cs).map fun (t, rest) => (.text t, rest)
    | '[' :: cs =>
      match skip cs with
      | ']' :: rest => some (.list [], rest)
      | cs => (items? fuel cs).map fun (vs, rest) => (.list vs, rest)
    | '{' :: cs =>
      match skip cs with
      | '}' :: rest => some (.map [], rest)
      | cs => (entries? fuel cs).map fun (es, rest) => (.map (Table.ofEntries es), rest)
    | cs => word? cs

def items? : Nat → List Char → Option (List Value × List Char)
  | 0, _ => none
  | fuel + 1, cs => do
    let (v, rest) ← value? fuel cs
    match skip rest with
    | ',' :: rest => (items? fuel rest).map fun (vs, rest) => (v :: vs, rest)
    | ']' :: rest => some ([v], rest)
    | _ => none

def entries? : Nat → List Char → Option (List (Scalar × Value) × List Char)
  | 0, _ => none
  | fuel + 1, cs =>
    match skip cs with
    | '"' :: cs => do
      let (k, rest) ← text? cs
      match skip rest with
      | ':' :: rest =>
        let (v, rest) ← value? fuel rest
        match skip rest with
        | ',' :: rest => (entries? fuel rest).map fun (es, rest) => ((.text k, v) :: es, rest)
        | '}' :: rest => some ([(.text k, v)], rest)
        | _ => none
      | _ => none
    | _ => none

end

/-- The value that a JSON text denotes; none for any other text. -/
def read? (cs : List Char) : Option Value :=
  match value? (cs.length + 1) cs with
  | some (v, rest) => if (skip rest).isEmpty then some v else none
  | none => none

end Flowchart.Json
