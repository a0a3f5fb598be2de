import Flowchart.Graph.Basic
import Flowchart.Value.Pairs
/-! Nodes and edges as records, the form in which the editor keeps them. -/
namespace Flowchart

/-- A record is a mapping. -/
def record? : Value → Except Fault Fields
  | .map es => .ok es
  | _ => .error .notMapping

/-- The value under a key that a record must have. -/
def Fields.required? (fs : Fields) (name : Text) : Except Fault Value :=
  match Table.get? fs (.text name) with
  | some v => .ok v
  | none => .error (.missingKey (.text name))

namespace Node

/-- The id becomes text; a blank type, position or data takes its default. -/
def ofRecord? (raw : Value) : Except Fault Node := do
  let fs ← record? raw
  let id ← fs.required? "id"
  let position ← (fs.valueOr "position" (.map origin)).fields?
  let data ← (fs.valueOr "data" (.map [])).fields?
  pure ⟨.text id.display, fs.valueOr "type" "default", some position, some data⟩

def toRecord? (n : Node) : Except Fault Fields :=
  match n.position, n.data with
  | some p, some d =>
    .ok [("id", n.id), ("type", n.type), ("position", .map p), ("data", .map d)]
  | _, _ => .error .notPairs

end Node

namespace Edge

/-- The id of an edge that has none. -/
def derivedId (source target : Text) : Text := "e" ++ source ++ "-" ++ target

/-- Source, target and id become text; label and type are kept as they are. -/
def ofRecord? (raw : Value) : Except Fault Edge := do
  let fs ← record? raw
  let source ← fs.required? "source"
  let target ← fs.required? "target"
  let id := fs.valueOr "id" (derivedId source.display target.display)
  let data ← (fs.valueOr "data" (.map [])).fields?
  pure ⟨.text id.display, .text source.display, .text target.display, fs.value "label",
    fs.value "type", some data⟩

/-- Label and type are written unless null, the data unless empty. -/
def toRecord (e : Edge) : Fields :=
  let ends : Fields := [("id", e.id), ("source", e.source), ("target", e.target)]
  let label : Fields := if e.label = .null then [] else [("label", e.label)]
  let type : Fields := if e.type = .null then [] else [("type", e.type)]
  let data : Fields := if e.fields.isEmpty then [] else [("data", .map e.fields)]
  ends ++ label ++ type ++ data

end Edge

/-- The graph as an export: the records of its nodes and edges, and the settings. -/
def Graph.toRecord? (g : Graph) : Except Fault Fields := do
  let nodes ← g.nodes.mapM Node.toRecord?
  pure [("nodes", .list (nodes.map Value.map)),
    ("edges", .list (g.edges.map fun e => .map e.toRecord)), ("metadata", .map g.metadata)]

end Flowchart
