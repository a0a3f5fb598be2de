import Flowchart.Branch.Path
import Flowchart.Value.Display
/-! Execution groups: the branches of all conditions as runs that can be scheduled on their
own. -/
namespace Flowchart

inductive Group.Mode where
  | parallel (maxConcurrency failureHandling : Value)
  | sequential
deriving DecidableEq

structure Group where
  id : Text
  condition : Scalar
  branch : Value
  mode : Group.Mode
  actions : List ActionRef
deriving DecidableEq

namespace Group

/-- Actions in a chain: each waits for the one before it alone. -/
def chain (index : Nat) (before : List Scalar) : List ActionRef → List ActionRef
  | [] => []
  | r :: rs =>
    { r with order := .int index, parallel := false, dependsOn := before } ::
      chain (index + 1) [r.node] rs

def toValue (g : Group) : Value :=
  let (type, settings) : Text × Fields :=
    match g.mode with
    | .parallel limit handling =>
      ("parallel", [("settings", .map [("maxConcurrency", limit), ("failureHandling", handling)])])
    | .sequential => ("sequential", [])
  .map (("id", g.id) :: ("type", type) ::
    ("condition", .map [("nodeId", g.condition), ("branch", g.branch)]) ::
    ("actions", .list (g.actions.map ActionRef.toValue)) :: settings)

end Group

/-- The group of the branch in place `index` of a condition. A parallel branch of several actions
keeps what they wait for; any other that is not empty becomes a chain. -/
def Branch.group? (condition : Scalar) (index : Nat) (b : Branch) : Option Group :=
  let id := condition.display ++ "-" ++ b.label.display ++ "-" ++ Text.ofNat index
  if b.mode = ("parallel" : Value) ∧ 1 < b.actions.length then
    some ⟨id, condition, b.label, .parallel b.maxConcurrency b.failureHandling,
      b.actions.map fun r => { r with parallel := true }⟩
  else if b.actions.isEmpty then none
  else some ⟨id, condition, b.label, .sequential, Group.chain 0 [] b.actions⟩

/-- The groups of all conditions, in order. -/
def executionGroups (paths : Table (List Branch)) : List Group :=
  paths.flatMap fun (condition, bs) =>
    bs.zipIdx.filterMap fun (b, index) => b.group? condition index

end Flowchart
