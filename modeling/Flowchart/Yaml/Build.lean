import Flowchart.Number.Decimal
import Flowchart.Number.Integer
import Flowchart.Yaml.Base64
import Flowchart.Yaml.Tree
/-! Values from YAML trees. The levels of a tree are built from the root down, so of several
faults the one nearest to the root counts, and of those on one level the first. -/
namespace Flowchart.Yaml

/-- A value, or a fault with its level. -/
abbrev Built (α : Type) := Except (Nat × Fault) α

namespace Built

def fail {α : Type} (level : Nat) (f : Fault) : Built α := .error (level, f)

def both {α β : Type} (a : Built α) (b : Built β) : Built (α × β) :=
  match a, b with
  | .ok x, .ok y => .ok (x, y)
  | .ok _, .error e => .error e
  | .error e, .ok _ => .error e
  | .error d, .error e => .error (if e.1 < d.1 then e else d)

def all {α : Type} : List (Built α) → Built (List α)
  | [] => .ok []
  | b :: bs => (both b (all bs)).map fun p => p.1 :: p.2

end Built

/-! ## Scalars -/

/-- Split off a sign; there must be something to read. -/
def signed (cs : List Nat) : Scan (Bool × List Nat) :=
  if cs.isEmpty then .error .noDigits else .ok (Text.takeSign cs)

def orBad {α : Type} : Option α → Scan α
  | some a => .ok a
  | none => .error .badNumber

def dropLines (cs : List Nat) : List Nat := cs.filter (· ≠ 95)

/-- Parts after colons count sixtieths. -/
def integerOf (content : List Nat) : Scan Int := do
  let (negative, cs) ← signed (dropLines content)
  let magnitude ←
    match cs with
    | [] => .error .noDigits
    | [48] => pure 0
    | 48 :: 98 :: cs => orBad (Integer.read? 2 cs)
    | 48 :: 120 :: cs => orBad (Integer.read? 16 cs)
    | 48 :: _ => orBad (Integer.read? 8 cs)
    | cs =>
      if cs.contains 58 then do
        let parts ← (Text.pieces 58 cs).mapM fun p => orBad (Integer.read? 10 p)
        pure (parts.foldl (fun n d => n * 60 + d) 0)
      else orBad (Integer.read? 10 cs)
  pure (if negative then -magnitude else magnitude)

def decimal? (cs : List Nat) : Option Double :=
  Double.read? Text.digit? (Text.strip Text.isSpaceOrSeparator cs)

/-- The sum of the parts, each times its power of sixty, from the last part on. -/
private def sixtieths (parts : List Double) : Double :=
  (parts.reverse.zipIdx.foldl (fun (sum : Double) (d, i) =>
    sum.add (d.mul (.ofInt (Nat.pow 60 i)))) (Double.zero false))

def doubleOf (content : List Nat) : Scan Double := do
  let (negative, cs) ← signed (Text.lower ⟨dropLines content⟩).codes
  let magnitude ←
    if cs = Text.codes ".inf" then pure (Double.infinite false)
    else if cs = Text.codes ".nan" then pure Double.nan
    else if cs.contains 58 then do
      let parts ← (Text.pieces 58 cs).mapM fun p => orBad (decimal? p)
      pure (sixtieths parts)
    else orBad (decimal? cs)
  pure (if negative then magnitude.neg else magnitude)

def boolOf (content : List Nat) : Scan Bool :=
  let word : Text := Text.lower ⟨content⟩
  if word ∈ (["yes", "true", "on"] : List Text) then .ok true
  else if word ∈ (["no", "false", "off"] : List Text) then .ok false
  else .error (.badWord word)

private def timestampOf (content : List Nat) : Scan Scalar :=
  let cs := if content.getLast? = some 10 then content.dropLast else content
  match Timestamp.read? cs with
  | none => .error .noTimestamp
  | some t =>
    match t.time with
    | none => if t.date.isValid then .ok (.date t.date) else .error .badDate
    | some (h, m, s, u) =>
      let moment : Moment := ⟨t.date, h, m, s, u, t.offset⟩
      if moment.isValid then .ok (.moment moment) else .error .badDate

private def binaryOf (content : List Nat) : Scan Scalar :=
  if content.any fun c => 0x7F < c then .error .malformed
  else
    match Base64.decode? content with
    | some os => .ok (.bytes os)
    | none => .error .malformed

/-- The value of a scalar of a kind; kinds of collections are not for scalars, nor are the marks
that only mean something as keys. -/
def scalarOf (tag : Tag) (content : List Nat) : Scan Scalar :=
  match tag with
  | .null => .ok .null
  | .bool => (boolOf content).map .bool
  | .int => (integerOf content).map .int
  | .float => (doubleOf content).map .double
  | .binary => binaryOf content
  | .timestamp => timestampOf content
  | .str => .ok (.text ⟨content⟩)
  | _ => .error .malformed

/-- Only what has the kind of a decimal is read as one. -/
theorem eq_float_of_scalarOf {tag : Tag} {content : List Nat} {x : Double}
    (h : scalarOf tag content = .ok (.double x)) : tag = .float := by
  cases tag with
  | float => rfl
  | bool =>
    simp only [scalarOf] at h
    cases hb : boolOf content <;> simp [hb, Except.map] at h
  | int =>
    simp only [scalarOf] at h
    cases hi : integerOf content <;> simp [hi, Except.map] at h
  | binary =>
    simp only [scalarOf, binaryOf] at h
    split at h
    · cases h
    · split at h <;> cases h
  | timestamp =>
    simp only [scalarOf, timestampOf] at h
    split at h
    · cases h
    · split at h
      · split at h <;> cases h
      · split at h <;> cases h
  | _ => cases h

/-! ## Collections -/

namespace Tree

mutual

/-- The text of a node: its own, or that of the entry under an equals sign. -/
def content? : Tree → Option (List Nat)
  | scalar _ content => some content
  | sequence _ _ | again _ => none
  | mapping _ entries => entryContent? entries

def entryContent? : List (Tree × Tree) → Option (List Nat)
  | [] => none
  | (k, v) :: es => if k.tag = .value then content? v else entryContent? es

end

mutual

/-- The entries that a mapping, or a sequence of mappings, brings to the mapping it is merged
into; of a sequence the last mapping comes first. To itself a node brings nothing new. -/
def merged : Tree → Scan (List (Tree × Tree))
  | mapping _ entries => do
    let (brought, own) ← split entries
    pure (brought ++ own)
  | sequence _ items => mergedItems items
  | again _ => .ok []
  | scalar _ _ => .error .malformed

def mergedItems : List Tree → Scan (List (Tree × Tree))
  | [] => .ok []
  | mapping _ entries :: ts => do
    let (brought, own) ← split entries
    let more ← mergedItems ts
    pure (more ++ (brought ++ own))
  | again _ :: ts => mergedItems ts
  | _ :: _ => .error .malformed

/-- The entries that merge keys bring, and the other entries. -/
def split : List (Tree × Tree) → Scan (List (Tree × Tree) × List (Tree × Tree))
  | [] => .ok ([], [])
  | (k, v) :: es => do
    if k.tag = .merge then
      let here ← merged v
      let (brought, own) ← split es
      pure (here ++ brought, own)
    else
      let (brought, own) ← split es
      pure (brought, (k, v) :: own)

end

def isAgain : Tree → Bool
  | again _ => true
  | _ => false

/-- A node is merged here that this mapping stands in. -/
def mergesAgain : Tree × Tree → Bool
  | (k, sequence _ items) => k.tag = .merge && items.any isAgain
  | (k, v) => k.tag = .merge && v.isAgain

mutual

/-- How deep the node is nested. -/
def depth : Tree → Nat
  | scalar _ _ | again _ => 1
  | sequence _ items => itemsDepth items + 1
  | mapping _ entries => entriesDepth entries + 1

def itemsDepth : List Tree → Nat
  | [] => 0
  | t :: ts => max (depth t) (itemsDepth ts)

def entriesDepth : List (Tree × Tree) → Nat
  | [] => 0
  | (k, v) :: es => max (max (depth k) (depth v)) (entriesDepth es)

end

/-- A fault of a scalar lies on the level it is built on. -/
def onLevel {α : Type} (level : Nat) : Scan α → Built α
  | .ok a => .ok a
  | .error f => Built.fail level f

/-- The value of a scalar node, or of a mapping that stands for the text under its equals sign. -/
def scalarAs (tag : Tag) (t : Tree) : Scan Scalar :=
  match t.content? with
  | some content => scalarOf tag content
  | none => .error .malformed

/-- Only scalars are keys; an equals sign as a key is a text. -/
def keyOf (t : Tree) : Scan Scalar := scalarAs (if t.tag = .value then .str else t.tag) t

/-- Build a node on a level; what a collection holds is built on the next one. -/
def buildOn (fuel level : Nat) (t : Tree) : Built Value :=
  match fuel with
  | 0 => Built.fail level .malformed
  | fuel + 1 =>
    let inner := level + 1
    let item (t : Tree) : Built Value := buildOn fuel inner t
    let entries (es : List (Tree × Tree)) : Built (List (Scalar × Value)) := do
      let (brought, own) ← onLevel inner (split es)
      Built.all ((brought ++ own).map fun e => Built.both (onLevel inner (keyOf e.1)) (item e.2))
    match t.tag, t with
    | _, again _ => .ok .endless
    | .seq, sequence _ items => (Built.all (items.map item)).map Value.list
    | .map, mapping _ es =>
      -- it takes over entries of a node around it, one of which leads back here
      if es.any mergesAgain then .ok .endless
      else (entries es).map fun es => .map (Table.ofEntries es)
    | .set, mapping _ es =>
      (entries es).map fun es => .set ((Table.ofEntries es).map fun e => e.1)
    | .omap, sequence _ items | .pairs, sequence _ items =>
      (Built.all (items.map fun i =>
        match i with
        | mapping _ [(k, v)] => (Built.both (item k) (item v)).map fun p => Value.tuple [p.1, p.2]
        | _ => Built.fail inner .malformed)).map Value.list
    | .seq, _ | .map, _ | .set, _ | .omap, _ | .pairs, _ => Built.fail inner .malformed
    | tag, t => (onLevel level (scalarAs tag t)).map Value.scalar

/-- The value of a tree. -/
def toValue (t : Tree) : Scan Value :=
  match buildOn (t.depth + 1) 0 t with
  | .ok v => .ok v
  | .error e => .error e.2

end Tree

/-- The value of a YAML text. -/
def read (t : Text) : Scan Value :=
  if t.codes.all isAllowed then do
    let tokens ← Token.ofChars (t.codes.map Char.ofNat)
    let tree ← Tree.ofTokens tokens
    tree.toValue
  else .error .malformed

end Flowchart.Yaml
