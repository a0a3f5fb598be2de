import Flowchart.Yaml.Token
/-! The tokens of a whole text. Indentation opens and closes block collections, and a node turns
out to be a key only when its colon is met; its marks are then put before it. -/
namespace Flowchart.Yaml

/-- A place where a key may have begun: how many tokens came before it, and whether only a key can
stand there. -/
structure KeyPlace where
  before : Nat
  required : Bool
  index : Nat
  line : Nat
  column : Nat

/-- The text read so far. The tokens come newest first, and so do the enclosing indentations and
the places of keys in the enclosing flow collections. -/
structure Layout where
  cursor : Cursor
  tokens : List Token
  indent : Int
  indents : List Int
  keyAllowed : Bool
  keyPlace : Option KeyPlace
  outerKeys : List (Option KeyPlace)

namespace Layout

def start (cs : List Char) : Layout := ⟨.start cs, [], -1, [], true, none, []⟩

def inFlow (l : Layout) : Bool := !l.outerKeys.isEmpty

def push (l : Layout) (t : Token) : Layout := { l with tokens := t :: l.tokens }

def forward (l : Layout) (n : Nat) : Layout := { l with cursor := l.cursor.forward n }

/-- Give up a place where a key may have begun. -/
def dropKey (l : Layout) : Scan Layout :=
  if l.keyPlace.any KeyPlace.required then .error .malformed else .ok { l with keyPlace := none }

/-- A key may begin here. -/
def noteKey (l : Layout) : Scan Layout := do
  if l.keyAllowed then
    let l ← l.dropKey
    let c := l.cursor
    let required := !l.inFlow && l.indent == c.column
    let place : KeyPlace := ⟨l.tokens.length, required, c.index, c.line, c.column⟩
    pure { l with keyPlace := some place }
  else pure l

/-- A key stands on one line and is not too long. -/
def isStale (c : Cursor) (k : KeyPlace) : Bool :=
  k.line != c.line || 1024 < c.index - k.index

def dropStale (l : Layout) : Scan Layout :=
  let stale (k : Option KeyPlace) : Bool := k.any (isStale l.cursor)
  let fatal (k : Option KeyPlace) : Bool := k.any fun p => isStale l.cursor p && p.required
  if (l.keyPlace :: l.outerKeys).any fatal then .error .malformed
  else
    let keep (k : Option KeyPlace) : Option KeyPlace := if stale k then none else k
    .ok { l with keyPlace := keep l.keyPlace, outerKeys := l.outerKeys.map keep }

def closeBlocks (column : Int) : Int → List Int → List Token → Int × List Int × List Token
  | indent, [], tokens => (indent, [], tokens)
  | indent, outer :: indents, tokens =>
    if column < indent then closeBlocks column outer indents (.blockEnd :: tokens)
    else (indent, outer :: indents, tokens)

/-- Close the blocks that are indented more than `column`; flow collections know none. -/
def unwind (l : Layout) (column : Int) : Layout :=
  if l.inFlow then l
  else
    let (indent, indents, tokens) := closeBlocks column l.indent l.indents l.tokens
    { l with indent, indents, tokens }

/-- Whether a block opens at a column that is indented more than the current one. -/
def opens (l : Layout) (column : Nat) : Bool := l.indent < column

def indentTo (l : Layout) (column : Nat) : Layout :=
  { l with indent := column, indents := l.indent :: l.indents }

/-- Open a block at the cursor, if it is indented more. -/
def openBlock (l : Layout) (t : Token) : Layout :=
  let column := l.cursor.column
  if l.opens column then (l.indentTo column).push t else l

/-- Past blanks, comments and line breaks. Outside of flow collections a new line allows a key. -/
def toNextToken : Nat → Layout → Layout
  | 0, l => l
  | fuel + 1, l =>
    let c := l.cursor.skipSpaces
    let c := if c.head == '#' then c.skip fun ch => !endsLine ch else c
    if isBreak c.head then
      toNextToken fuel
        { l with cursor := c.lineBreak.2, keyAllowed := l.keyAllowed || !l.inFlow }
    else { l with cursor := c }

def skipMark (l : Layout) : Layout :=
  if l.cursor.index == 0 && l.cursor.head == byteOrderMark then l.forward 1 else l

/-! ## One token -/

def streamEnd (l : Layout) : Scan Layout := do
  let l ← (l.unwind (-1)).dropKey
  pure (l.push .streamEnd)

def ofRead (l : Layout) (r : Scan (Token × Cursor)) : Scan Layout := do
  let (t, cursor) ← r
  pure { l with tokens := t :: l.tokens, cursor }

def directive (l : Layout) : Scan Layout := do
  let l ← (l.unwind (-1)).dropKey
  { l with keyAllowed := false }.ofRead (Token.ofDirective l.cursor)

def documentMarker (l : Layout) (t : Token) : Scan Layout := do
  let l ← (l.unwind (-1)).dropKey
  pure (({ l with keyAllowed := false }.push t).forward 3)

def flowStart (l : Layout) (t : Token) : Scan Layout := do
  let l ← l.noteKey
  let outerKeys := l.keyPlace :: l.outerKeys
  pure (({ l with keyAllowed := true, keyPlace := none, outerKeys }.push t).forward 1)

def flowEnd (l : Layout) (t : Token) : Scan Layout := do
  let l ← l.dropKey
  match l.outerKeys with
  | [] => .error .malformed
  | k :: ks =>
    pure (({ l with keyAllowed := false, keyPlace := k, outerKeys := ks }.push t).forward 1)

def flowEntry (l : Layout) : Scan Layout := do
  let l ← { l with keyAllowed := true }.dropKey
  pure ((l.push .flowEntry).forward 1)

def blockEntry (l : Layout) : Scan Layout := do
  if !l.inFlow && !l.keyAllowed then .error .malformed
  else
    let l := if l.inFlow then l else l.openBlock .blockSequenceStart
    let l ← { l with keyAllowed := true }.dropKey
    pure ((l.push .blockEntry).forward 1)

def key (l : Layout) : Scan Layout := do
  if !l.inFlow && !l.keyAllowed then .error .malformed
  else
    let l := if l.inFlow then l else l.openBlock .blockMappingStart
    let l ← { l with keyAllowed := !l.inFlow }.dropKey
    pure ((l.push .key).forward 1)

/-- The colon after the key that began at `k`: the marks go before the key. -/
def valueOf (l : Layout) (k : KeyPlace) : Layout :=
  let opening := !l.inFlow && l.opens k.column
  let late := l.tokens.length - k.before
  let marks := if opening then [Token.key, .blockMappingStart] else [.key]
  let l := if opening then l.indentTo k.column else l
  let tokens := l.tokens.take late ++ marks ++ l.tokens.drop late
  { l with tokens, keyPlace := none, keyAllowed := false }

def value (l : Layout) : Scan Layout := do
  let l ←
    match l.keyPlace with
    | some k => pure (l.valueOf k)
    | none =>
      if !l.inFlow && !l.keyAllowed then .error .malformed
      else
        let l := if l.inFlow then l else l.openBlock .blockMappingStart
        { l with keyAllowed := !l.inFlow }.dropKey
  pure ((l.push .value).forward 1)

/-- A token that may be a key, or begin one. -/
def node (l : Layout) (read : Cursor → Scan (Token × Cursor)) : Scan Layout := do
  let l ← l.noteKey
  { l with keyAllowed := false }.ofRead (read l.cursor)

def scalarToken (plain : Bool) (r : Read) : Scan (Token × Cursor) := do
  let (content, c) ← r
  pure (.scalar content plain, c)

def block (l : Layout) (folded : Bool) : Scan Layout := do
  let l ← { l with keyAllowed := true }.dropKey
  l.ofRead (scalarToken false (blockScalar folded l.indent l.cursor))

def plain (l : Layout) : Scan Layout := do
  let l ← l.noteKey
  let (content, cursor, broke) := plainScalar l.inFlow l.indent l.cursor
  pure { l with tokens := .scalar content true :: l.tokens, cursor, keyAllowed := broke }

/-- The characters that begin no plain scalar. -/
def isIndicator (c : Char) : Bool :=
  "-?:,[]\x7b\x7d#&*!|>'\"%@`".toList.contains c

def startsPlain (l : Layout) : Bool :=
  let ch := l.cursor.head
  !(isGap ch || isIndicator ch) ||
    (!isGap (l.cursor.peek 1) && (ch == '-' || (!l.inFlow && (ch == '?' || ch == ':'))))

/-- The token at the cursor. -/
def token (l : Layout) : Scan Layout :=
  let c := l.cursor
  let ch := c.head
  let gapAfter := isGap (c.peek 1)
  if ch == '%' && c.column == 0 then l.directive
  else if c.column == 0 && c.atMarker '-' then l.documentMarker .documentStart
  else if c.column == 0 && c.atMarker '.' then l.documentMarker .documentEnd
  else if ch == '[' then l.flowStart .flowSequenceStart
  else if ch == '\x7b' then l.flowStart .flowMappingStart
  else if ch == ']' then l.flowEnd .flowSequenceEnd
  else if ch == '\x7d' then l.flowEnd .flowMappingEnd
  else if ch == ',' then l.flowEntry
  else if ch == '-' && gapAfter then l.blockEntry
  else if ch == '?' && (l.inFlow || gapAfter) then l.key
  else if ch == ':' && (l.inFlow || gapAfter) then l.value
  else if ch == '*' then l.node (Token.ofName .alias)
  else if ch == '&' then l.node (Token.ofName .anchor)
  else if ch == '!' then l.node Token.ofTag
  else if ch == '|' && !l.inFlow then l.block false
  else if ch == '>' && !l.inFlow then l.block true
  else if ch == '\'' || ch == '"' then l.node fun c => scalarToken false (quotedScalar c)
  else if l.startsPlain then l.plain
  else .error .malformed

def run : Nat → Layout → Scan (List Token)
  | 0, _ => .error .malformed
  | fuel + 1, l => do
    let l := toNextToken l.cursor.fuel l
    let l ← l.dropStale
    let l := l.unwind l.cursor.column
    if l.cursor.head == '\x00' then
      let l ← l.streamEnd
      pure l.tokens.reverse
    else
      let l ← l.token
      run fuel l

end Layout

/-- The tokens of a text, the end of the stream last. -/
def Token.ofChars (cs : List Char) : Scan (List Token) :=
  let l := (Layout.start cs).skipMark
  Layout.run l.cursor.fuel l

end Flowchart.Yaml
