import Flowchart.Json.Reader
/-! The grammar of JSON as trees that keep every character. Each tree is written in one way and
denotes one value. -/
namespace Flowchart.Json

/-- White space between tokens. -/
inductive Blank where
  | space | tab | lineFeed | carriageReturn
deriving DecidableEq

def Blank.char : Blank → Char
  | space => ' '
  | tab => '\t'
  | lineFeed => '\n'
  | carriageReturn => '\r'

abbrev Gap := List Blank

def Gap.write (g : Gap) : List Char := g.map Blank.char

/-! ## Numbers -/

/-- At least one decimal digit. -/
structure Digits where
  first : Fin 10
  others : List (Fin 10)

def digitChar (d : Fin 10) : Char := Char.ofNat (48 + d)

/-- The number that digits name in base ten. -/
def digitsValue (ds : List (Fin 10)) : Nat := ds.foldl (fun n d => n * 10 + d.val) 0

def Digits.list (ds : Digits) : List (Fin 10) := ds.first :: ds.others

def Digits.write (ds : Digits) : List Char := ds.list.map digitChar

inductive Sign where
  | plus | minus
deriving DecidableEq

def Sign.char : Sign → Char
  | plus => '+'
  | minus => '-'

structure Exponent where
  upper : Bool
  sign : Option Sign
  digits : Digits

namespace Exponent

def write (e : Exponent) : List Char :=
  (if e.upper then 'E' else 'e') :: (e.sign.map Sign.char).toList ++ e.digits.write

def value (e : Exponent) : Int :=
  if e.sign = some .minus then -(digitsValue e.digits.list : Int) else digitsValue e.digits.list

end Exponent

structure Numeral where
  negative : Bool
  whole : Digits
  fraction : Option Digits
  exponent : Option Exponent
  noLeadingZero : whole.first = 0 → whole.others = []

namespace Numeral

def write (n : Numeral) : List Char :=
  (if n.negative then ['-'] else []) ++ n.whole.write ++
    (n.fraction.elim [] fun ds => '.' :: ds.write) ++ n.exponent.elim [] Exponent.write

/-- The digits before and after the point. -/
def digits (n : Numeral) : List (Fin 10) := n.whole.list ++ n.fraction.elim [] Digits.list

/-- The number as a power of ten times its digits, rounded. -/
def double (n : Numeral) : Double :=
  .ofDecimal n.negative (digitsValue n.digits) n.digits.length
    (n.exponent.elim 0 Exponent.value - (n.fraction.elim [] Digits.list).length)

/-- An integer if there is neither a fraction nor an exponent. -/
def value (n : Numeral) : Value :=
  if n.fraction.isNone ∧ n.exponent.isNone then
    .int (if n.negative then -(digitsValue n.whole.list : Int) else digitsValue n.whole.list)
  else .double n.double

end Numeral

/-! ## Strings -/

/-- A character of a string: itself, or behind a backslash. -/
inductive Piece where
  | plain (c : Char) (h : c ≠ '"' ∧ c ≠ '\\' ∧ 0x20 ≤ c.toNat)
  | escaped (c : Char) (code : Nat) (h : escape? c = some code)
  | unicode (a b c d : Char) (code : Nat)
      (h : Text.hexNumber? [a.toNat, b.toNat, c.toNat, d.toNat] = some code)

namespace Piece

def write : Piece → List Char
  | plain c _ => [c]
  | escaped c _ _ => ['\\', c]
  | unicode a b c d _ _ => ['\\', 'u', a, b, c, d]

def code : Piece → Nat
  | plain c _ => c.toNat
  | escaped _ code _ => code
  | unicode _ _ _ _ code _ => code

end Piece

/-- The characters of a string between its quotes. -/
abbrev Pieces := List Piece

namespace Pieces

/-- The string from its first piece on, with the closing quote. -/
def writeRest (s : Pieces) : List Char := s.flatMap Piece.write ++ ['"']

def write (s : Pieces) : List Char := '"' :: s.writeRest

def codes (s : Pieces) : List Nat := s.map Piece.code

def text (s : Pieces) : Text := ⟨joinPairs s.codes⟩

end Pieces

/-! ## Values -/

mutual

/-- A value without the white space around it. -/
inductive Form where
  | null
  | bool (b : Bool)
  | number (n : Numeral)
  | string (s : Pieces)
  | emptyArray (gap : Gap)
  | array (items : Items)
  | emptyObject (gap : Gap)
  | object (entries : Entries)

/-- The items of an array. -/
inductive Items where
  | last (before : Gap) (f : Form) (after : Gap)
  | more (before : Gap) (f : Form) (after : Gap) (items : Items)

/-- The entries of an object. -/
inductive Entries where
  | last (before : Gap) (key : Pieces) (behind : Gap) (gap : Gap) (f : Form) (after : Gap)
  | more (before : Gap) (key : Pieces) (behind : Gap) (gap : Gap) (f : Form) (after : Gap)
      (entries : Entries)

end

mutual

def Form.write : Form → List Char
  | .null => "null".toList
  | .bool b => if b then "true".toList else "false".toList
  | .number n => n.write
  | .string s => s.write
  | .emptyArray gap => '[' :: gap.write ++ [']']
  | .array items => '[' :: items.write
  | .emptyObject gap => '\x7b' :: gap.write ++ ['\x7d']
  | .object entries => '\x7b' :: entries.write

/-- The items with their commas, and the closing bracket. -/
def Items.write : Items → List Char
  | .last before f after => before.write ++ f.write ++ after.write ++ [']']
  | .more before f after items => before.write ++ f.write ++ after.write ++ ',' :: items.write

/-- The entries with their commas, and the closing brace. -/
def Entries.write : Entries → List Char
  | .last before key behind gap f after =>
    before.write ++ key.write ++ behind.write ++ ':' :: gap.write ++ f.write ++ after.write ++ ['\x7d']
  | .more before key behind gap f after entries =>
    before.write ++ key.write ++ behind.write ++ ':' :: gap.write ++ f.write ++ after.write ++
      ',' :: entries.write

end

mutual

def Form.value : Form → Value
  | .null => .null
  | .bool b => .bool b
  | .number n => n.value
  | .string s => .text s.text
  | .emptyArray _ => .list []
  | .array items => .list items.values
  | .emptyObject _ => .map []
  | .object entries => .map (Table.ofEntries entries.values)

def Items.values : Items → List Value
  | .last _ f _ => [f.value]
  | .more _ f _ items => f.value :: items.values

def Entries.values : Entries → List (Scalar × Value)
  | .last _ key _ _ f _ => [(.text key.text, f.value)]
  | .more _ key _ _ f _ entries => (.text key.text, f.value) :: entries.values

end

/-- A whole text: a value with white space around it. -/
structure Whole where
  before : Gap
  form : Form
  after : Gap

namespace Whole

def write (w : Whole) : List Char := w.before.write ++ w.form.write ++ w.after.write

def value (w : Whole) : Value := w.form.value

end Whole

end Flowchart.Json
