import Flowchart.Text.Utf8
import Flowchart.Yaml.Scalar
/-! The tokens of a YAML text: marks, names, tags and scalars. -/
namespace Flowchart.Yaml

inductive Directive where
  | version (major minor : Nat)
  | tag (handle uri : Text)
  | other
deriving DecidableEq

inductive Token where
  | directive (d : Directive)
  | documentStart
  | documentEnd
  | streamEnd
  | blockSequenceStart
  | blockMappingStart
  | blockEnd
  | flowSequenceStart
  | flowSequenceEnd
  | flowMappingStart
  | flowMappingEnd
  | blockEntry
  | flowEntry
  | key
  | value
  | alias (name : List Char)
  | anchor (name : List Char)
  | tag (handle : Option Text) (suffix : Text)
  | scalar (content : List Nat) (plain : Bool)
deriving DecidableEq

private def isNameChar (c : Char) : Bool := c.isAlphanum || c == '-' || c == '_'

/-! ## Names -/

/-- The name of an anchor or an alias, after its mark. -/
def anchorName (c : Cursor) : Scan (List Char × Cursor) :=
  let (name, c) := c.next.span isNameChar
  if name.isEmpty then .error .malformed
  else if isGap c.head || "?:,]\x7d%@`".toList.contains c.head then .ok (name, c)
  else .error .malformed

/-! ## Tags -/

private def isUriChar (c : Char) : Bool :=
  isNameChar c || ";/?:@&=+$,.!~*'()[]%".toList.contains c

/-- The octets written by a run of percent signs with two digits each. -/
private def percentOctets : Nat → Cursor → Scan (List Nat × Cursor)
  | 0, c => .ok ([], c)
  | fuel + 1, c =>
    if c.head == '%' then
      match Text.hexNumber? [(c.peek 1).toNat, (c.peek 2).toNat] with
      | none => .error .malformed
      | some octet => do
        let (more, c) ← percentOctets fuel (c.forward 3)
        pure (octet :: more, c)
    else .ok ([], c)

private def uriFrom : Nat → Cursor → Scan (Text × Cursor)
  | 0, c => .ok (Text.empty, c)
  | fuel + 1, c => do
    let (run, c) := c.span fun ch => isUriChar ch && ch != '%'
    if c.head == '%' then
      let (octets, c) ← percentOctets c.fuel c
      match Text.ofUtf8? octets with
      | none => .error .malformed
      | some t =>
        let (more, c) ← uriFrom fuel c
        pure (Text.ofChars run ++ t ++ more, c)
    else pure (Text.ofChars run, c)

/-- A run of address characters, not empty. -/
private def uri (c : Cursor) : Scan (Text × Cursor) :=
  if isUriChar c.head then uriFrom c.fuel c else .error .malformed

/-- A tag handle: one exclamation mark, or a name between two. -/
private def tagHandle (c : Cursor) : Scan (Text × Cursor) :=
  if c.head != '!' then .error .malformed
  else if c.peek 1 == ' ' then .ok ("!", c.next)
  else
    let (name, after) := c.next.span isNameChar
    if after.head == '!' then .ok (Text.ofChars ('!' :: name ++ ['!']), after.next)
    else .error .malformed

/-- Whether an exclamation mark comes before the next space. -/
private def hasHandle (c : Cursor) : Bool :=
  ((c.next.span fun ch => !endsWord ch).1).contains '!'

private def tagToken (c : Cursor) : Scan (Token × Cursor) := do
  let (t, c) ←
    if c.peek 1 == '<' then
      let (suffix, c) ← uri (c.forward 2)
      if c.head == '>' then pure (Token.tag none suffix, c.next) else .error .malformed
    else if isGap (c.peek 1) then pure (Token.tag none "!", c.next)
    else
      let (handle, c) ← if hasHandle c then tagHandle c else pure (("!" : Text), c.next)
      let (suffix, c) ← uri c
      pure (Token.tag (some handle) suffix, c)
  if endsWord c.head then pure (t, c) else .error .malformed

/-! ## Directives -/

private def number (c : Cursor) : Scan (Nat × Cursor) :=
  let (digits, after) := c.span Char.isDigit
  if digits.isEmpty then .error .malformed
  else .ok (digits.foldl (fun n d => n * 10 + (d.toNat - 48)) 0, after)

private def version (c : Cursor) : Scan (Directive × Cursor) := do
  let (major, c) ← number c.skipSpaces
  if c.head != '.' then .error .malformed
  else
    let (minor, c) ← number c.next
    if endsWord c.head then pure (.version major minor, c) else .error .malformed

private def tagDirective (c : Cursor) : Scan (Directive × Cursor) := do
  let (handle, c) ← tagHandle c.skipSpaces
  if c.head != ' ' then .error .malformed
  else
    let (address, c) ← uri c.skipSpaces
    if endsWord c.head then pure (.tag handle address, c) else .error .malformed

private def directiveToken (c : Cursor) : Scan (Token × Cursor) := do
  let (name, c) := c.next.span isNameChar
  if name.isEmpty || !endsWord c.head then .error .malformed
  else
    let (d, c) ←
      if name = "YAML".toList then version c
      else if name = "TAG".toList then tagDirective c
      else pure (.other, c.skip fun ch => !endsLine ch)
    let c ← restOfLine c
    pure (.directive d, c)

namespace Token

/-- The token of a directive, at a percent sign. -/
def ofDirective (c : Cursor) : Scan (Token × Cursor) := directiveToken c

/-- The token of a tag, at an exclamation mark. -/
def ofTag (c : Cursor) : Scan (Token × Cursor) := tagToken c

/-- The token of an anchor or an alias, at its mark. -/
def ofName (make : List Char → Token) (c : Cursor) : Scan (Token × Cursor) := do
  let (name, c) ← anchorName c
  pure (make name, c)

end Token

end Flowchart.Yaml
