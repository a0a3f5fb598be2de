import Flowchart.Document.Check
import Flowchart.Editor.Store
/-! Edits of the graph. Each one compiles the whole graph anew, with the edit noted in the
settings, and brings a store up to date. -/
namespace Flowchart

/-- An edit with what it added or took away; an edge that is connected is already among the
edges. -/
inductive Event where
  | nodeAdded (node : Node)
  | nodeDeleted (nodes : List Node)
  | edgeConnected (edge : Edge)
  | edgeDeleted (edges : List Edge)

namespace Event

def name : Event → Text
  | nodeAdded _ => "node_added"
  | nodeDeleted _ => "node_deleted"
  | edgeConnected _ => "edge_connected"
  | edgeDeleted _ => "edge_deleted"

/-- What the edit leaves in the settings beside its name. -/
def trace : Event → Fields
  | nodeAdded _ => []
  | nodeDeleted ns => [("deletedNodes", .list (ns.map fun n => n.id))]
  | edgeConnected e => [("lastConnection", .map [("source", e.source), ("target", e.target)])]
  | edgeDeleted es => [("deletedEdges", .list (es.map fun e => e.id))]

/-- The nodes after the edit. -/
def nodesAfter (nodes : List Node) : Event → List Node
  | nodeAdded n => nodes ++ [n]
  | _ => nodes

/-- The settings with the edit noted at the given time. -/
def stamped (ev : Event) (now : Text) (m : Metadata) : Fields :=
  let noted : Fields := ("lastAction", ev.name) :: ev.trace
  Table.set (Table.update m.toFields noted) "lastModified" now

/-- Compile the graph after the edit. -/
def recompile (ev : Event) (nodes : List Node) (edges : List Edge) (settings : Metadata.Source)
    (now : Text) : Outcome Compiled :=
  let (m, notices) := Metadata.coerce settings
  let out := generate (ev.nodesAfter nodes) edges (.value (.map (ev.stamped now m)))
  ⟨notices ++ .recompiling ev.name :: out.notices, out.result⟩

/-- The store after the edit, whatever becomes of compiling. -/
def store (ev : Event) (nodes : List Node) (edges : List Edge) (s : Store) : Store :=
  (s.setNodes (ev.nodesAfter nodes)).setEdges edges

/-- Handle the edit for a store: what becomes of the store, and what compiling gave. The store is
written before the graph is compiled, so a graph that does not compile is kept there all the same. -/
def handle (ev : Event) (nodes : List Node) (edges : List Edge) (settings : Metadata.Source)
    (now : Text) (s : Store) : Store × Outcome Compiled :=
  let written := ev.store nodes edges s
  (written, ev.recompile nodes edges settings now)

end Event

end Flowchart
