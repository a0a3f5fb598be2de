import Flowchart.Graph.Basic
/-! What can be reached from an id along edges, breadth first. -/
namespace Flowchart

/-- The unmarked ends of the edges leaving an id. -/
def ahead (edges : List Edge) (seen : List Key) (k : Key) : List Key :=
  ((outgoing edges k).map Edge.head).filter fun h => h ∉ seen

theorem length_ahead_le (edges : List Edge) (seen : List Key) (k : Key) :
    (ahead edges seen k).length ≤ (outgoing edges k).length :=
  Nat.le_trans (List.length_filter_le ..) (by simp)

/-- The ids in the order in which they are first taken from the queue. The queue may hold an id
several times; it is marked when it is taken. -/
def visitFrom (edges : List Edge) (queue seen : List Key) : List Key :=
  match queue with
  | [] => []
  | k :: rest =>
    if k ∈ seen then visitFrom edges rest seen
    else k :: visitFrom edges (rest ++ ahead edges (k :: seen) k) (k :: seen)
termination_by (edges.filter fun e => e.tail ∉ seen).length + queue.length
decreasing_by
  · simp
  · next h =>
    have h₁ := length_filter_unmarked Edge.tail edges h
    have h₂ := length_ahead_le edges (k :: seen) k
    simp only [outgoing, List.length_append, List.length_cons] at h₁ h₂ ⊢
    omega

/-- Every id that can be reached from `start`, nearest first. -/
def visitOrder (edges : List Edge) (start : Key) : List Key := visitFrom edges [start] []

structure Subtree where
  nodes : List Node
  edges : List Edge
deriving DecidableEq

/-- The nodes on the way and the edges that leave them, in the order of the visit. An id that is
no node still has its edges followed. -/
def subtree (nodes : List Node) (edges : List Edge) (start : Key) : Subtree :=
  let order := visitOrder edges start
  ⟨order.filterMap (lookup nodes), order.flatMap (outgoing edges)⟩

end Flowchart
