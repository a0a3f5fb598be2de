import Flowchart.Yaml.Layout
import Flowchart.Yaml.Tag
/-! The tree of a YAML document: nodes with their kinds, every alias replaced by what it names. A node
may hold an alias of itself, as an anchor is known before its node is read. Such a node is written out
into itself, for as many levels as matter. -/
namespace Flowchart.Yaml

inductive Tree where
  | scalar (tag : Tag) (content : List Nat)
  | sequence (tag : Tag) (items : List Tree)
  | mapping (tag : Tag) (entries : List (Tree × Tree))
  /-- The node with this anchor, inside of itself. -/
  | again (anchor : List Char)

namespace Tree

instance : Inhabited Tree := ⟨scalar .null []⟩

/-- Only collections stand inside of themselves; which kind this one has is seen further out. -/
def tag : Tree → Tag
  | scalar t _ | sequence t _ | mapping t _ => t
  | again _ => .map

mutual

/-- The tree with `s` in the place of the node anchored as `a`. -/
def fill (a : List Char) (s : Tree) : Tree → Tree
  | again b => if b = a then s else again b
  | scalar t content => scalar t content
  | sequence t items => sequence t (fillItems a s items)
  | mapping t entries => mapping t (fillEntries a s entries)

def fillItems (a : List Char) (s : Tree) : List Tree → List Tree
  | [] => []
  | t :: ts => fill a s t :: fillItems a s ts

def fillEntries (a : List Char) (s : Tree) : List (Tree × Tree) → List (Tree × Tree)
  | [] => []
  | (k, v) :: es => (fill a s k, fill a s v) :: fillEntries a s es

end

/-- No value of an export is looked at on a deeper level. -/
def levels : Nat := 8

/-- The node anchored as `a`, written out into itself. -/
def unrolled (a : List Char) (t : Tree) : Tree := Nat.repeat (fun s => fill a s t) levels (again a)

/-- What stands where nothing is written. -/
def nothing : Tree := scalar .null []

/-- What the handles of tags stand for. -/
abbrev Handles := List (Text × Text)

def defaultHandles : Handles := [("!", "!"), ("!!", Tag.coreUri)]

/-- The tokens still to come, and the anchored nodes so far. -/
structure Feed where
  tokens : List Token
  anchors : List (List Char × Tree)

def Feed.after (f : Feed) (tokens : List Token) : Feed := { f with tokens }

/-- Where a node stands. As a key or a value of a block mapping a sequence needs no deeper
indentation. -/
inductive Place where
  | flow | block | blockEntry
deriving DecidableEq

/-- The full name of a tag; a lone exclamation mark is a name of its own. -/
def fullTag (handles : Handles) (handle : Option Text) (suffix : Text) : Scan Text :=
  match handle with
  | none => .ok suffix
  | some h =>
    match handles.find? fun x => x.1 = h with
    | some x => .ok (x.2 ++ suffix)
    | none => .error .malformed

/-- The anchor and the tag before a node, in either order. -/
structure Properties where
  anchor : Option (List Char)
  tag : Option Text

def properties (handles : Handles) : List Token → Scan (Properties × List Token)
  | .anchor a :: .tag h s :: ts => (fullTag handles h s).map fun t => (⟨some a, some t⟩, ts)
  | .anchor a :: ts => .ok (⟨some a, none⟩, ts)
  | .tag h s :: .anchor a :: ts => (fullTag handles h s).map fun t => (⟨some a, some t⟩, ts)
  | .tag h s :: ts => (fullTag handles h s).map fun t => (⟨none, some t⟩, ts)
  | ts => .ok (⟨none, none⟩, ts)

/-- The kind that a tag names, or `default` where it names none. -/
def Properties.kind (p : Properties) (default : Tag) : Tag :=
  match p.tag with
  | none => default
  | some t => if t = ("!" : Text) then default else Tag.ofText t

/-- Without a name, the kind of a plain scalar is seen from its text; so is that of a quoted one
behind a lone exclamation mark. -/
def Properties.scalar (p : Properties) (content : List Nat) (plain : Bool) : Tree :=
  let fromText := plain || p.tag = some "!"
  .scalar (p.kind (if fromText then Tag.ofPlain content else .str)) content

/-- Before a node is read its anchor is known, and stands for the node itself; no anchor is given
twice. -/
def opened (p : Properties) (f : Feed) : Scan Feed :=
  match p.anchor with
  | none => .ok f
  | some a =>
    if f.anchors.any fun x => x.1 == a then .error .malformed
    else .ok { f with anchors := (a, again a) :: f.anchors }

/-- When a node has been read, it is put into itself and into the nodes inside of it. -/
def closed (p : Properties) (t : Tree) (f : Feed) : Tree × Feed :=
  match p.anchor with
  | none => (t, f)
  | some a =>
    let t := t.unrolled a
    (t, { f with anchors := f.anchors.map fun x => (x.1, fill a t x.2) })

/-- An entry of a block mapping may be empty before these. -/
def endsBlockEntry : List Token → Bool
  | .key :: _ | .value :: _ | .blockEnd :: _ => true
  | _ => false

def endsFlowItem : List Token → Bool
  | .flowEntry :: _ | .flowSequenceEnd :: _ => true
  | _ => false

def endsFlowEntry : List Token → Bool
  | .flowEntry :: _ | .flowMappingEnd :: _ => true
  | _ => false

mutual

/-- One node. No node is nested deeper than `fuel`. -/
def node : Nat → Handles → Place → Feed → Scan (Tree × Feed)
  | 0, _, _, _ => .error .malformed
  | fuel + 1, hs, place, f =>
    match f.tokens with
    | .alias a :: ts =>
      match f.anchors.find? fun x => x.1 == a with
      | some x => .ok (x.2, f.after ts)
      | none => .error .malformed
    | _ => do
      let (p, tokens) ← properties hs f.tokens
      let f ← opened p f
      let (t, f) ←
        match tokens with
        | .scalar content plain :: ts => pure (p.scalar content plain, f.after ts)
        | .flowSequenceStart :: ts => do
          let (items, f) ← flowItems fuel hs true (f.after ts)
          pure (.sequence (p.kind .seq) items, f)
        | .flowMappingStart :: ts => do
          let (entries, f) ← flowEntries fuel hs true (f.after ts)
          pure (.mapping (p.kind .map) entries, f)
        | .blockSequenceStart :: ts => do
          if place = .flow then throw .malformed
          let (items, f) ← blockItems fuel hs (f.after ts)
          pure (.sequence (p.kind .seq) items, f)
        | .blockMappingStart :: ts => do
          if place = .flow then throw .malformed
          let (entries, f) ← blockEntries fuel hs (f.after ts)
          pure (.mapping (p.kind .map) entries, f)
        | ts =>
          if place = .blockEntry && ts.head? == some .blockEntry then do
            let (items, f) ← looseItems fuel hs (f.after ts)
            pure (.sequence (p.kind .seq) items, f)
          else if p.anchor.isSome || p.tag.isSome then
            pure (p.scalar [] true, f.after ts)
          else throw .malformed
      pure (closed p t f)

/-- A node, or nothing where `isEmpty` holds of the tokens to come. -/
def nodeUnless : Nat → (List Token → Bool) → Handles → Place → Feed → Scan (Tree × Feed)
  | 0, _, _, _, _ => .error .malformed
  | fuel + 1, isEmpty, hs, place, f =>
    if isEmpty f.tokens then .ok (nothing, f) else node fuel hs place f

/-- A value after its colon, or nothing where there is no colon. -/
def valueUnless : Nat → (List Token → Bool) → Handles → Place → Feed → Scan (Tree × Feed)
  | 0, _, _, _, _ => .error .malformed
  | fuel + 1, isEmpty, hs, place, f =>
    match f.tokens with
    | .value :: ts => nodeUnless fuel isEmpty hs place (f.after ts)
    | _ => .ok (nothing, f)

def blockItems : Nat → Handles → Feed → Scan (List Tree × Feed)
  | 0, _, _ => .error .malformed
  | fuel + 1, hs, f =>
    match f.tokens with
    | .blockEnd :: ts => .ok ([], f.after ts)
    | .blockEntry :: ts => do
      let isEmpty (ts : List Token) : Bool :=
        ts.head? == some .blockEntry || ts.head? == some .blockEnd
      let (t, f) ← nodeUnless fuel isEmpty hs .block (f.after ts)
      let (more, f) ← blockItems fuel hs f
      pure (t :: more, f)
    | _ => .error .malformed

/-- The items of a sequence that is not indented: it ends where no item follows. -/
def looseItems : Nat → Handles → Feed → Scan (List Tree × Feed)
  | 0, _, _ => .error .malformed
  | fuel + 1, hs, f =>
    match f.tokens with
    | .blockEntry :: ts => do
      let isEmpty (ts : List Token) : Bool := ts.head? == some .blockEntry || endsBlockEntry ts
      let (t, f) ← nodeUnless fuel isEmpty hs .block (f.after ts)
      let (more, f) ← looseItems fuel hs f
      pure (t :: more, f)
    | _ => .ok ([], f)

def blockEntries : Nat → Handles → Feed → Scan (List (Tree × Tree) × Feed)
  | 0, _, _ => .error .malformed
  | fuel + 1, hs, f =>
    match f.tokens with
    | .blockEnd :: ts => .ok ([], f.after ts)
    | .key :: ts => do
      let (k, f) ← nodeUnless fuel endsBlockEntry hs .blockEntry (f.after ts)
      let (v, f) ← valueUnless fuel endsBlockEntry hs .blockEntry f
      let (more, f) ← blockEntries fuel hs f
      pure ((k, v) :: more, f)
    | _ => .error .malformed

def flowItems : Nat → Handles → Bool → Feed → Scan (List Tree × Feed)
  | 0, _, _, _ => .error .malformed
  | fuel + 1, hs, first, f =>
    match first, f.tokens with
    | _, .flowSequenceEnd :: ts => .ok ([], f.after ts)
    | false, .flowEntry :: .flowSequenceEnd :: ts => .ok ([], f.after ts)
    | false, .flowEntry :: ts => flowItem fuel hs (f.after ts)
    | false, _ => .error .malformed
    | true, _ => flowItem fuel hs f

/-- An item and those after it; a key makes it a mapping of one entry. -/
def flowItem : Nat → Handles → Feed → Scan (List Tree × Feed)
  | 0, _, _ => .error .malformed
  | fuel + 1, hs, f => do
    let (t, f) ←
      match f.tokens with
      | .key :: ts => do
        let isEmpty (ts : List Token) : Bool := ts.head? == some .value || endsFlowItem ts
        let (k, f) ← nodeUnless fuel isEmpty hs .flow (f.after ts)
        let (v, f) ← valueUnless fuel endsFlowItem hs .flow f
        pure (.mapping .map [(k, v)], f)
      | _ => node fuel hs .flow f
    let (more, f) ← flowItems fuel hs false f
    pure (t :: more, f)

def flowEntries : Nat → Handles → Bool → Feed → Scan (List (Tree × Tree) × Feed)
  | 0, _, _, _ => .error .malformed
  | fuel + 1, hs, first, f =>
    match first, f.tokens with
    | _, .flowMappingEnd :: ts => .ok ([], f.after ts)
    | false, .flowEntry :: .flowMappingEnd :: ts => .ok ([], f.after ts)
    | false, .flowEntry :: ts => flowEntry fuel hs (f.after ts)
    | false, _ => .error .malformed
    | true, _ => flowEntry fuel hs f

/-- An entry and those after it; without a key mark it has no value. -/
def flowEntry : Nat → Handles → Feed → Scan (List (Tree × Tree) × Feed)
  | 0, _, _ => .error .malformed
  | fuel + 1, hs, f => do
    let (e, f) ←
      match f.tokens with
      | .key :: ts => do
        let isEmpty (ts : List Token) : Bool := ts.head? == some .value || endsFlowEntry ts
        let (k, f) ← nodeUnless fuel isEmpty hs .flow (f.after ts)
        let (v, f) ← valueUnless fuel endsFlowEntry hs .flow f
        pure ((k, v), f)
      | _ => do
        let (k, f) ← node fuel hs .flow f
        pure ((k, nothing), f)
    let (more, f) ← flowEntries fuel hs false f
    pure (e :: more, f)

end

/-- Directives before a document; only version one is read, and nothing is declared twice. -/
def directives (versioned : Bool) (hs : Handles) : List Token → Scan (Handles × List Token)
  | .directive (.version major _) :: ts =>
    if versioned || major != 1 then .error .malformed else directives true hs ts
  | .directive (.tag handle uri) :: ts =>
    if hs.any fun x => x.1 = handle then .error .malformed
    else directives versioned ((handle, uri) :: hs) ts
  | .directive .other :: ts => directives versioned hs ts
  | ts => .ok (hs ++ defaultHandles, ts)

def startsDocument : List Token → Bool
  | .directive _ :: _ | .documentStart :: _ => true
  | _ => false

/-- The handles and the tokens of the only document's content. -/
def opening (ts : List Token) : Scan (Handles × List Token) :=
  if startsDocument ts then do
    let (hs, ts) ← directives false [] ts
    match ts with
    | .documentStart :: ts => pure (hs, ts)
    | _ => .error .malformed
  else .ok (defaultHandles, ts)

def isEmptyDocument (ts : List Token) : Bool :=
  startsDocument ts || ts.head? == some .documentEnd || ts.head? == some .streamEnd

/-- The tree of the only document; a text without any holds nothing. -/
def ofTokens (ts : List Token) : Scan Tree := do
  if ts.head? == some .streamEnd then pure nothing
  else
    let (hs, content) ← opening ts
    let f : Feed := ⟨content, []⟩
    let (t, f) ←
      if startsDocument ts && isEmptyDocument content then pure (nothing, f)
      else node (4 * content.length + 4) hs .block f
    match f.tokens.dropWhile (· == .documentEnd) with
    | [.streamEnd] => pure t
    | _ => .error .malformed

end Tree

end Flowchart.Yaml
