import Flowchart.Text.Digit
import Flowchart.Yaml.Cursor
/-! The text of YAML scalars: quoted, plain and in blocks. Each reader returns the code points of
the scalar and the place after it. -/
namespace Flowchart.Yaml

abbrev Read := Scan (List Nat × Cursor)

def isBlank (c : Char) : Bool := c == ' ' || c == '\t'

/-! ## Quoted scalars -/

/-- The code point of a character after a backslash. -/
def escapeCode? : Char → Option Nat
  | '0' => some 0
  | 'a' => some 7
  | 'b' => some 8
  | 't' | '\t' => some 9
  | 'n' => some 10
  | 'v' => some 11
  | 'f' => some 12
  | 'r' => some 13
  | 'e' => some 27
  | ' ' => some 32
  | '"' => some 34
  | '/' => some 47
  | '\\' => some 92
  | 'N' => some 0x85
  | '_' => some 0xA0
  | 'L' => some 0x2028
  | 'P' => some 0x2029
  | _ => none

/-- How many hexadecimal digits follow a letter after a backslash. -/
def escapeWidth? : Char → Option Nat
  | 'x' => some 2
  | 'u' => some 4
  | 'U' => some 8
  | _ => none

/-- Empty lines inside a quoted scalar; a document may not start or end there. -/
def quotedBreaks : Nat → Cursor → Read
  | 0, c => .ok ([], c)
  | fuel + 1, c =>
    if c.atDocumentEdge then .error .malformed
    else
      let c := c.skip isBlank
      if isBreak c.head then do
        let (b, c) := c.lineBreak
        let (bs, c) ← quotedBreaks fuel c
        pure (b ++ bs, c)
      else .ok ([], c)

/-- Blanks stay as they are; a single line break reads as a space. -/
def quotedSpaces (c : Cursor) : Read :=
  let (blanks, c) := c.span isBlank
  if c.head == '\x00' then .error .malformed
  else if isBreak c.head then do
    let (b, c) := c.lineBreak
    let (bs, c) ← quotedBreaks c.fuel c
    pure ((if b ≠ [10] then b else if bs.isEmpty then [32] else []) ++ bs, c)
  else .ok (codes blanks, c)

/-- What follows a backslash. An escaped line break vanishes together with the blanks around. -/
def escape (c : Cursor) : Read :=
  match escapeCode? c.head, escapeWidth? c.head with
  | some code, _ => .ok ([code], c.next)
  | none, some width =>
    let digits := (List.range width).map fun i => (c.peek (i + 1)).toNat
    match Text.hexNumber? digits with
    | none => .error .malformed
    | some code =>
      if 0x7FFFFFFF < code then .error .hugeCode
      else if 0x10FFFF < code then .error .badNumber
      else .ok ([code], c.forward (width + 1))
  | none, none =>
    if isBreak c.head then
      let c := c.lineBreak.2
      quotedBreaks c.fuel c
    else .error .malformed

/-- A run without blanks and line breaks, up to the closing quote. -/
def quotedRun (double : Bool) : Nat → Cursor → Read
  | 0, c => .ok ([], c)
  | fuel + 1, c => do
    let (run, c) := c.span fun ch => !(isGap ch || ch == '\'' || ch == '"' || ch == '\\')
    let ch := c.head
    if !double && ch == '\'' && c.peek 1 == '\'' then
      let (more, c) ← quotedRun double fuel (c.forward 2)
      pure (codes run ++ 39 :: more, c)
    else if (double && ch == '\'') || (!double && (ch == '"' || ch == '\\')) then
      let (more, c) ← quotedRun double fuel c.next
      pure (codes run ++ ch.toNat :: more, c)
    else if double && ch == '\\' then
      let (escaped, c) ← escape c.next
      let (more, c) ← quotedRun double fuel c
      pure (codes run ++ escaped ++ more, c)
    else pure (codes run, c)

def quotedRest (quote : Char) : Nat → Cursor → Read
  | 0, _ => .error .malformed
  | fuel + 1, c => do
    let (run, c) ← quotedRun (quote == '"') c.fuel c
    if c.head == quote then pure (run, c.next)
    else
      let (spaces, c) ← quotedSpaces c
      let (more, c) ← quotedRest quote fuel c
      pure (run ++ spaces ++ more, c)

/-- A scalar between quotes of the kind at the cursor. -/
def quotedScalar (c : Cursor) : Read := quotedRest c.head c.fuel c.next

/-! ## Plain scalars -/

def isFlowMark (c : Char) : Bool :=
  c == ',' || c == '[' || c == ']' || c == '\x7b' || c == '\x7d'

/-- The characters of a plain scalar up to a blank or a mark that ends it. -/
def plainRun (flow : Bool) : List Char → List Char
  | [] => []
  | ch :: rest =>
    let following := rest.headD '\x00'
    if isGap ch || (ch == ':' && (isGap following || (flow && isFlowMark following))) ||
        (flow && (ch == '?' || isFlowMark ch)) then []
    else ch :: plainRun flow rest

/-- Empty lines inside a plain scalar; none when a document starts or ends there. -/
def plainBreaks : Nat → Cursor → Option (List Nat) × Cursor
  | 0, c => (some [], c)
  | fuel + 1, c =>
    if c.head == ' ' then plainBreaks fuel c.next
    else if isBreak c.head then
      let (b, c) := c.lineBreak
      if c.atDocumentEdge then (none, c)
      else
        let (bs, c) := plainBreaks fuel c
        (bs.map (b ++ ·), c)
    else (some [], c)

/-- The blanks after a run, the place after them, and whether a line ended. -/
def plainSpaces (c : Cursor) : List Nat × Cursor × Bool :=
  let (blanks, c) := c.span (· == ' ')
  if isBreak c.head then
    let (b, c) := c.lineBreak
    if c.atDocumentEdge then ([], c, true)
    else
      match plainBreaks c.fuel c with
      | (none, c) => ([], c, true)
      | (some bs, c) =>
        ((if b ≠ [10] then b else if bs.isEmpty then [32] else []) ++ bs, c, true)
  else (codes blanks, c, false)

def plainFrom (flow : Bool) (indent : Int) :
    Nat → List Nat → Cursor → Bool → List Nat × Cursor × Bool
  | 0, _, c, broke => ([], c, broke)
  | fuel + 1, spaces, c, broke =>
    let run := if c.head == '#' then [] else plainRun flow c.rest
    if run.isEmpty then ([], c, broke)
    else
      let (following, c, broke) := plainSpaces (c.forward run.length)
      if following.isEmpty || c.head == '#' || (!flow && (c.column : Int) ≤ indent) then
        (spaces ++ codes run, c, broke)
      else
        let (more, c, broke) := plainFrom flow indent fuel following c broke
        (spaces ++ codes run ++ more, c, broke)

/-- A plain scalar. Outside of flow collections it ends at a line that is not indented more than
`indent`. The last component tells whether a line ended after it. -/
def plainScalar (flow : Bool) (indent : Int) (c : Cursor) : List Nat × Cursor × Bool :=
  plainFrom flow indent c.fuel [] c false

/-! ## Block scalars -/

/-- Past blanks and a comment to the next line; anything else is refused. -/
def restOfLine (c : Cursor) : Scan Cursor :=
  let c := c.skipSpaces
  let c := if c.head == '#' then c.skip fun ch => !endsLine ch else c
  if endsLine c.head then .ok c.lineBreak.2 else .error .malformed

/-- Whether trailing line breaks are kept, `+`, or dropped, `-`. -/
private def chomping (c : Cursor) : Option Bool × Cursor :=
  if c.head == '+' then (some true, c.next)
  else if c.head == '-' then (some false, c.next)
  else (none, c)

/-- The digit that gives the indentation; it is not zero. -/
private def increment (c : Cursor) : Scan (Option Nat × Cursor) :=
  if c.head == '0' then .error .malformed
  else
    match Text.asciiDigit? c.head.toNat with
    | some d => .ok (some d, c.next)
    | none => .ok (none, c)

private structure Header where
  keep : Option Bool
  increment : Option Nat

private def header (c : Cursor) : Scan (Header × Cursor) := do
  let (keep, c) := chomping c
  let (inc, c) ← increment c
  let (keep, c) := if keep.isNone && inc.isSome then chomping c else (keep, c)
  if endsWord c.head then pure (⟨keep, inc⟩, c) else .error .malformed

/-- Leading empty lines, and the most spaces any of them or the first line begins with. -/
private def blockIndentation : Nat → Nat → Cursor → List Nat × Nat × Cursor
  | 0, most, c => ([], most, c)
  | fuel + 1, most, c =>
    if c.head == ' ' then
      let c := c.next
      blockIndentation fuel (max most c.column) c
    else if isBreak c.head then
      let (b, c) := c.lineBreak
      let (bs, most, c) := blockIndentation fuel most c
      (b ++ bs, most, c)
    else ([], most, c)

private def toColumn (indent : Nat) : Nat → Cursor → Cursor
  | 0, c => c
  | fuel + 1, c =>
    if c.column < indent && c.head == ' ' then toColumn indent fuel c.next else c

/-- Empty lines, up to the indentation of the next line. -/
private def blockBreaks (indent : Nat) : Nat → Cursor → List Nat × Cursor
  | 0, c => ([], c)
  | fuel + 1, c =>
    let c := toColumn indent c.fuel c
    if isBreak c.head then
      let (b, c) := c.lineBreak
      let (bs, c) := blockBreaks indent fuel c
      (b ++ bs, c)
    else ([], c)

/-- The lines of a block, its last line break and the empty lines after it. -/
private structure Block where
  content : List Nat
  lastBreak : List Nat
  empties : List Nat
  after : Cursor

private def inBlock (indent : Nat) (c : Cursor) : Bool := c.column == indent && c.head != '\x00'

/-- In a folded block a line break between two lines that do not begin with a blank reads as a
space, unless empty lines follow it. -/
private def blockLines (folded : Bool) (indent : Nat) : Nat → List Nat → Cursor → Block
  | 0, empties, c => ⟨[], [], empties, c⟩
  | fuel + 1, empties, c =>
    if inBlock indent c then
      let flush := !isBlank c.head
      let (line, c) := c.span fun ch => !endsLine ch
      let (b, c) := c.lineBreak
      let (following, c) := blockBreaks indent c.fuel c
      let front := empties ++ codes line
      if inBlock indent c then
        let gap :=
          if folded && b == [10] && flush && !isBlank c.head then
            if following.isEmpty then [32] else []
          else b
        let more := blockLines folded indent fuel following c
        { more with content := front ++ gap ++ more.content }
      else ⟨front, b, following, c⟩
    else ⟨[], [], empties, c⟩

/-- A block scalar under a line indented by `parent`. -/
def blockScalar (folded : Bool) (parent : Int) (c : Cursor) : Read := do
  let (h, c) ← header c.next
  let c ← restOfLine c
  let least := (max 1 (parent + 1)).toNat
  let (indent, empties, c) :=
    match h.increment with
    | none =>
      let (bs, most, c) := blockIndentation c.fuel 0 c
      (max least most, bs, c)
    | some d =>
      let indent := least + d - 1
      let (bs, c) := blockBreaks indent c.fuel c
      (indent, bs, c)
  let block := blockLines folded indent c.fuel empties c
  let tail :=
    (if h.keep = some false then [] else block.lastBreak) ++
    (if h.keep = some true then block.empties else [])
  pure (block.content ++ tail, block.after)

end Flowchart.Yaml
