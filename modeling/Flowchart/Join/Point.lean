import Flowchart.Branch.Path
import Flowchart.Join.Ancestor
/-! Join points: the ids on which branches of different conditions meet again. -/
namespace Flowchart

/-- One edge into a join point, with the condition it comes from. -/
structure IncomingBranch where
  source : Scalar
  condition : Value
  parent : Option Scalar
deriving DecidableEq

structure JoinPoint where
  node : Scalar
  type : Value
  branches : List IncomingBranch
  timeout : Value
  onTimeout : Value
deriving DecidableEq

namespace IncomingBranch

def ofEdge? (nodes : List Node) (edges : List Edge) (e : Edge) : Except Fault IncomingBranch := do
  let c ← parentCondition? nodes edges e.source []
  pure ⟨e.source, e.branch, c.found.map Node.id⟩

def toValue (b : IncomingBranch) : Value :=
  .map [("sourceNodeId", b.source), ("condition", b.condition),
    ("parentCondition", b.parent.elim .null Value.scalar)]

end IncomingBranch

namespace JoinPoint

def toValue (j : JoinPoint) : Value :=
  .map [("nodeId", j.node), ("type", j.type),
    ("incomingBranches", .list (j.branches.map IncomingBranch.toValue)),
    ("settings", .map [("timeout", j.timeout), ("onTimeout", j.onTimeout)])]

/-- The different conditions that branches come from; a blank id does not count. -/
def parents (bs : List IncomingBranch) : List Key :=
  distinct ((bs.filterMap fun b => b.parent.filter fun p => !p.isBlank).map Scalar.key)

/-- The join point at an id, if edges from at least two conditions end there. -/
def at? (nodes : List Node) (edges : List Edge) (node : Scalar) :
    Except Fault (Option JoinPoint) := do
  let ins := incoming edges node.key
  if ins.length < 2 then pure none
  else
    let bs ← ins.mapM (IncomingBranch.ofEdge? nodes edges)
    if (parents bs).length < 2 then pure none
    else
      let data : Fields ← (lookup nodes node.key).elim (.ok []) Node.fields?
      pure (some ⟨node, data.valueOr "joinType" "waitForAll", bs,
        data.valueOr "joinTimeout" (.int 300000), data.valueOr "onJoinTimeout" "continue"⟩)

end JoinPoint

/-- The ends of edges, each as it is first written. -/
def firstTargets (edges : List Edge) : List Scalar := distinctOn Scalar.key (edges.map Edge.target)

/-- All join points, in the order in which edges first lead to them. -/
def joinPoints? (nodes : List Node) (edges : List Edge) : Except Fault (List JoinPoint) :=
  ((firstTargets edges).mapM (JoinPoint.at? nodes edges)).map (·.filterMap id)

end Flowchart
