import Flowchart.Export.Metadata
import Flowchart.Graph.Record
/-! An editor export: lists of nodes and edges with the settings of the workflow. -/
namespace Flowchart

structure NodeSpec where
  id : Text
  type : Text
  position : Fields
  data : Fields
  extras : Fields
deriving DecidableEq

structure EdgeSpec where
  id : Option Text
  source : Text
  target : Text
  label : Option Text
  type : Option Text
  data : Fields
  extras : Fields
deriving DecidableEq

structure Spec where
  nodes : List NodeSpec
  edges : List EdgeSpec
  metadata : Metadata
deriving DecidableEq

namespace NodeSpec

def declared : List (List Text) := [["id"], ["type"], ["position"], ["data"]]

def check (raw : Fields) : Checked NodeSpec :=
  let id := Record.required raw ["id"] (Lenient.text true)
  let type := Record.optional raw ["type"] ("default" : Text) (Lenient.text true)
  let position := Record.optional raw ["position"] Node.origin (Lenient.numbers true)
  let data := Record.optional raw ["data"] [] (Lenient.mapping true)
  (id.and <| type.and <| position.and <| data.and <| Record.extras declared raw).map
    fun (i, t, p, d, x) => ⟨i, t, p, d, x⟩

def ofValue : Value → Checked NodeSpec := Record.read "NodeSpec" check

def toFields (n : NodeSpec) : Fields :=
  let own : Fields := [("id", n.id), ("type", n.type), ("position", .map n.position),
    ("data", .map n.data)]
  own ++ n.extras

def toNode (n : NodeSpec) : Node := ⟨n.id, n.type, some n.position, some n.data⟩

end NodeSpec

namespace EdgeSpec

def declared : List (List Text) :=
  [["id"], ["source", "from"], ["target", "to"], ["label"], ["type"], ["data"]]

def check (raw : Fields) : Checked EdgeSpec :=
  let id := Record.optional raw ["id"] none (Lenient.optionalText true)
  let source := Record.required raw ["source", "from"] (Lenient.text true)
  let target := Record.required raw ["target", "to"] (Lenient.text true)
  let label := Record.optional raw ["label"] none (Lenient.optionalText true)
  let type := Record.optional raw ["type"] none (Lenient.optionalText true)
  let data := Record.optional raw ["data"] [] (Lenient.mapping true)
  (id.and <| source.and <| target.and <| label.and <| type.and <| data.and <|
    Record.extras declared raw).map fun (i, s, t, l, ty, d, x) => ⟨i, s, t, l, ty, d, x⟩

def ofValue : Value → Checked EdgeSpec := Record.read "EdgeSpec" check

def textOrNull (t : Option Text) : Value := t.elim .null Value.text

def toFields (e : EdgeSpec) : Fields :=
  let own : Fields := [("id", textOrNull e.id), ("source", e.source), ("target", e.target),
    ("label", textOrNull e.label), ("type", textOrNull e.type), ("data", .map e.data)]
  own ++ e.extras

/-- An id that is missing or empty is derived from the ends. -/
def toEdge (e : EdgeSpec) : Edge :=
  let id := (e.id.filter fun i => !i.isEmpty).getD (Edge.derivedId e.source e.target)
  ⟨id, e.source, e.target, textOrNull e.label, textOrNull e.type, some e.data⟩

end EdgeSpec

namespace Spec

def declared : List (List Text) := [["nodes"], ["edges"], ["metadata"]]

/-- Lists, tuples and sets are lists of items. -/
def items {α : Type} (read : Value → Checked α) (v : Value) : Checked (List α) :=
  let all (vs : List Value) : Checked (List α) :=
    Checked.all (vs.zipIdx.map fun (v, i) => (read v).under (.index i))
  match v with
  | .list vs | .tuple vs => all vs
  | .set ss => all (ss.map Value.scalar)
  | _ => Checked.fail .noList

def check (raw : Fields) : Checked Spec :=
  let nodes := Record.optional raw ["nodes"] [] (items NodeSpec.ofValue)
  let edges := Record.optional raw ["edges"] [] (items EdgeSpec.ofValue)
  let metadata := Record.optional raw ["metadata"] Metadata.default
    (Record.read "WorkflowMetadata" Metadata.check)
  (nodes.and <| edges.and <| metadata.and <| Record.noExtras declared raw).map
    fun (n, e, m, _) => ⟨n, e, m⟩

def ofValue : Value → Checked Spec := Record.read "FlowSpec" check

def toValue (s : Spec) : Value :=
  .map [("nodes", .list (s.nodes.map fun n => .map n.toFields)),
    ("edges", .list (s.edges.map fun e => .map e.toFields)), ("metadata", .map s.metadata.toFields)]

def toGraph (s : Spec) : Graph :=
  ⟨s.nodes.map NodeSpec.toNode, s.edges.map EdgeSpec.toEdge, s.metadata.toFields⟩

end Spec

end Flowchart
