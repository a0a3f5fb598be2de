import Flowchart.Fault
import Flowchart.Notice
import Flowchart.Value.Distinct
/-! The editor's graph: nodes, edges, and the look-ups everything else is built from. Ids are
compared as keys. -/
namespace Flowchart

/-- The position and the data of a node built by hand may be missing. -/
structure Node where
  id : Scalar
  type : Value
  position : Option Fields
  data : Option Fields
deriving DecidableEq, Inhabited

structure Edge where
  id : Scalar
  source : Scalar
  target : Scalar
  label : Value
  type : Value
  data : Option Fields
deriving DecidableEq, Inhabited

namespace Node

def key (n : Node) : Key := n.id.key

/-- The data, empty when missing. -/
def fields (n : Node) : Fields := n.data.getD []

def fields? (n : Node) : Except Fault Fields :=
  match n.data with
  | some d => .ok d
  | none => .error .noData

theorem fields_of_fields? {n : Node} {fs : Fields} (h : n.fields? = .ok fs) : n.fields = fs := by
  unfold fields? at h
  split at h
  · next hd =>
    cases h
    rw [fields, hd, Option.getD_some]
  · cases h

def dataValue (n : Node) : Value := n.data.elim .null .map

def positionValue (n : Node) : Value := n.position.elim .null .map

/-- Where a node stands that gives no position. -/
def origin : Fields := [("x", .int 0), ("y", .int 0)]

end Node

namespace Edge

/-- The end an edge leaves from. -/
def tail (e : Edge) : Key := e.source.key

/-- The end an edge leads to. -/
def head (e : Edge) : Key := e.target.key

/-- The data, empty when missing. -/
def fields (e : Edge) : Fields := e.data.getD []

def dataValue (e : Edge) : Value := e.data.elim .null .map

end Edge

/-- The node with a key; of several the first. -/
def lookup (nodes : List Node) (k : Key) : Option Node := nodes.find? fun n => n.key = k

/-- The nodes that `lookup` can find, in order. -/
def firsts (nodes : List Node) : List Node := distinctOn Node.key nodes

def outgoing (edges : List Edge) (k : Key) : List Edge := edges.filter fun e => e.tail = k

def incoming (edges : List Edge) (k : Key) : List Edge := edges.filter fun e => e.head = k

/-- Both ends of the edge are nodes. -/
def Edge.isAttached (nodes : List Node) (e : Edge) : Bool :=
  nodes.any (fun n => n.key = e.tail) && nodes.any (fun n => n.key = e.head)

/-- The edges whose ends are both nodes. -/
def attached (nodes : List Node) (edges : List Edge) : List Edge :=
  edges.filter (Edge.isAttached nodes)

/-- One notice for each edge that is not attached. -/
def droppedNotices (nodes : List Node) (edges : List Edge) : List Notice :=
  (edges.filter fun e => !e.isAttached nodes).map fun e => .droppedEdge e.id e.source e.target

/-- Nodes, edges and the settings of the workflow, as an import yields them. -/
structure Graph where
  nodes : List Node
  edges : List Edge
  metadata : Fields
deriving DecidableEq, Inhabited

theorem mem_outgoing {edges : List Edge} {k : Key} {e : Edge} :
    e ∈ outgoing edges k ↔ e ∈ edges ∧ e.tail = k := by simp [outgoing]

theorem mem_incoming {edges : List Edge} {k : Key} {e : Edge} :
    e ∈ incoming edges k ↔ e ∈ edges ∧ e.head = k := by simp [incoming]

theorem key_of_lookup {nodes : List Node} {k : Key} {n : Node} (h : lookup nodes k = some n) :
    n.key = k := by simpa using List.find?_some h

theorem mem_of_lookup {nodes : List Node} {k : Key} {n : Node} (h : lookup nodes k = some n) :
    n ∈ nodes := List.mem_of_find?_eq_some h

theorem isAttached_iff {nodes : List Node} {e : Edge} : e.isAttached nodes = true ↔
    (∃ n, lookup nodes e.tail = some n) ∧ ∃ n, lookup nodes e.head = some n := by
  simp only [Edge.isAttached, Bool.and_eq_true, ← Option.isSome_iff_exists, lookup,
    List.find?_isSome, List.any_eq_true]

/-- Marking one more end takes the edges with that end away from those not yet marked. -/
theorem length_filter_unmarked (f : Edge → Key) (edges : List Edge) {seen : List Key} {k : Key}
    (h : k ∉ seen) :
    (edges.filter fun e => f e ∉ seen).length =
      (edges.filter fun e => f e ∉ k :: seen).length + (edges.filter fun e => f e = k).length := by
  induction edges with
  | nil => rfl
  | cons e es ih =>
    by_cases he : f e = k
    · simp [he, h] at ih ⊢; omega
    · by_cases hs : f e ∈ seen
      · simpa [he, hs] using ih
      · simp [he, hs] at ih ⊢; omega

end Flowchart
