import Flowchart.Graph.Role
/-! The condition a node comes from, found by walking edges backwards. -/
namespace Flowchart

/-- What a backward walk found, and the ids it has entered. -/
structure Climb where
  found : Option Node
  seen : List Scalar
deriving DecidableEq

/-- The keys of a list of ids. -/
def keys (ids : List Scalar) : List Key := ids.map Scalar.key

/-- A condition that an edge leaves from and that has no id to report. -/
def leavesNameless (nodes : List Node) (e : Edge) : Bool :=
  (lookup nodes e.tail).any fun n => n.isCondition && n.id = .null

/-- The edges that are walked back from an id: those that end there, up to the first that leaves
a condition without an id. -/
def entering (nodes : List Node) (edges : List Edge) (k : Key) : List Edge :=
  (incoming edges k).takeWhile fun e => !leavesNameless nodes e

theorem length_entering_le (nodes : List Node) (edges : List Edge) (k : Key) :
    (entering nodes edges k).length ≤ (incoming edges k).length :=
  (List.takeWhile_prefix _).length_le

/-- Depth first over the edges still to be walked back: the first source with the property ends
the walk, any other is entered once. -/
def climb (stops : Node → Bool) (nodes : List Node) (edges todo : List Edge)
    (seen : List Scalar) : Climb :=
  match todo with
  | [] => ⟨none, seen⟩
  | e :: todo =>
    match lookup nodes e.tail with
    | none => climb stops nodes edges todo seen
    | some n =>
      if stops n then ⟨some n, seen⟩
      else if n.key ∈ keys seen then climb stops nodes edges todo seen
      else climb stops nodes edges (entering nodes edges n.key ++ todo) (seen ++ [n.id])
termination_by (edges.filter fun e => e.head ∉ keys seen).length + todo.length
decreasing_by
  · simp
  · simp
  · next h =>
    have h₁ := length_filter_unmarked Edge.head edges h
    have h₂ : (edges.filter fun e => e.head ∉ keys (seen ++ [n.id])) =
        edges.filter fun e => e.head ∉ n.key :: keys seen := by
      congr 1; funext e; simp [keys, Node.key, or_comm]
    have h₃ := length_entering_le nodes edges n.key
    rw [h₂]
    unfold incoming at h₃
    simp only [List.length_append, List.length_cons]
    omega

/-- The walk from an id that is a node and not yet entered; from any other it finds nothing. -/
def climbFrom (stops : Node → Bool) (nodes : List Node) (edges : List Edge) (id : Scalar)
    (seen : List Scalar) : Climb :=
  if (lookup nodes id.key).isNone ∨ id.key ∈ keys seen then ⟨none, seen⟩
  else climb stops nodes edges (entering nodes edges id.key) (seen ++ [id])

/-- The condition that `id` comes from, with the ids entered on the way. -/
def parentCondition (nodes : List Node) (edges : List Edge) (id : Scalar) (seen : List Scalar) :
    Climb := climbFrom Node.isCondition nodes edges id seen

/-- `parentCondition`, unless the walk meets a list or a mapping for a type. -/
def parentCondition? (nodes : List Node) (edges : List Edge) (id : Scalar) (seen : List Scalar) :
    Except Fault Climb :=
  let c := climbFrom (fun n => n.isCondition || !n.type.isScalar) nodes edges id seen
  if c.found.all fun n => n.type.isScalar then .ok c else .error .notKey

end Flowchart
