import Flowchart.Branch.Closure
/-! The branches of a condition. Each label of an outgoing edge is a branch; it lists the actions
that can be reached through actions alone, and under each condition it leads to that condition's
own branches. -/
namespace Flowchart

/-- A condition that a branch leads to, with its own paths. -/
structure Nested (π : Type) where
  node : Scalar
  type : Value
  paths : List π

structure Branch where
  label : Value
  mode : Value
  actions : List ActionRef
  nested : List (Nested Branch)
  maxConcurrency : Value
  failureHandling : Value

namespace ActionRef

def toValue (r : ActionRef) : Value :=
  .map [("nodeId", r.node), ("nodeType", r.type), ("order", r.order), ("parallel", .bool r.parallel),
    ("dependsOn", .list (r.dependsOn.map Value.scalar))]

/-- Append an action whose id is not listed yet. -/
def addTo (listed : List ActionRef) (r : ActionRef) : List ActionRef :=
  if r.key ∈ listed.map key then listed else listed ++ [r]

/-- Each id once, as it is first listed. -/
def onceEach (rs : List ActionRef) : List ActionRef := rs.foldl addTo []

end ActionRef

namespace Branch

def add (b : Branch) (r : ActionRef) : Branch := { b with actions := r.addTo b.actions }

mutual

def toValue : Branch → Value
  | ⟨label, mode, actions, nested, _, _⟩ =>
    .map [("condition", label), ("executionMode", mode),
      ("actions", .list (actions.map ActionRef.toValue)), ("subPaths", .list (nestedValues nested))]

def nestedValues : List (Nested Branch) → List Value
  | [] => []
  | ⟨node, type, paths⟩ :: more =>
    .map [("nodeId", node), ("nodeType", type), ("paths", .list (pathValues paths))] ::
      nestedValues more

def pathValues : List Branch → List Value
  | [] => []
  | b :: bs => toValue b :: pathValues bs

end

end Branch

namespace Edge

/-- The branch an edge belongs to: its label, else the condition in its data, else the default. -/
def branch (e : Edge) : Value := e.label.orElse (e.fields.valueOr "condition" "default")

/-- Two edges with one branch key share a branch. -/
def branchKey (e : Edge) : Option Key := e.branch.scalar?.map Scalar.key

end Edge

/-- The target of an edge, when it is a condition. -/
def conditionAt (nodes : List Node) (e : Edge) : Option Node :=
  (lookup nodes e.head).filter Node.isCondition

/-- The actions an edge of a condition leads to: its target, then what follows from there. -/
def actionsAlong (nodes : List Node) (edges : List Edge) (visited : List Key) (source : Scalar)
    (e : Edge) : List ActionRef :=
  match actionAt nodes e with
  | none => []
  | some n => .ofEdge n e source :: following nodes edges visited n.id

private theorem fewer_unmarked {edges : List Edge} {visited : List Key} {k : Key} {e : Edge}
    (hk : k ∉ visited) (he : e ∈ outgoing edges k) :
    (edges.filter fun e => e.tail ∉ k :: visited).length <
      (edges.filter fun e => e.tail ∉ visited).length := by
  have h₁ := length_filter_unmarked Edge.tail edges hk
  have h₂ := List.length_pos_of_mem he
  unfold outgoing at h₂
  omega

/-- The branches of `c` in the order of their first edges, whose data set how a branch is run.
A condition among `visited` has none, so every chain of nested conditions ends. -/
def branches (nodes : List Node) (edges : List Edge) (visited : List Key) (c : Node) :
    List Branch :=
  if _h : c.key ∈ visited then []
  else
    let out := outgoing edges c.key
    let deeper : List (Edge × Nested Branch) := out.attach.filterMap fun ⟨e, _he⟩ =>
      (conditionAt nodes e).map fun n =>
        (e, ⟨n.id, n.type, branches nodes edges (c.key :: visited) n⟩)
    (distinct (out.map Edge.branchKey)).filterMap fun k =>
      let own := out.filter fun e => e.branchKey = k
      own.head?.map fun first =>
        { label := first.branch
          mode := first.fields.valueOr "executionMode" "parallel"
          actions := ActionRef.onceEach
            (own.flatMap (actionsAlong nodes edges (c.key :: visited) c.id))
          nested := (deeper.filter fun d => d.1.branchKey = k).map (·.2)
          maxConcurrency := first.fields.valueOr "maxConcurrency" (.int (-1))
          failureHandling := first.fields.valueOr "failureHandling" "continue" }
termination_by (edges.filter fun e => e.tail ∉ visited).length
decreasing_by exact fewer_unmarked _h _he

/-- Every label on the way is a scalar, and so is every type that decides where it goes. -/
def areReadable (nodes : List Node) (edges : List Edge) (visited : List Key) (c : Node) : Bool :=
  if _h : c.key ∈ visited then true
  else (outgoing edges c.key).attach.all fun ⟨e, _he⟩ =>
    e.branch.isScalar &&
      match lookup nodes e.head with
      | none => true
      | some n =>
        n.type.isScalar &&
          if n.isCondition then areReadable nodes edges (c.key :: visited) n
          else (followingSees nodes edges (c.key :: visited) n.id).all fun m => m.type.isScalar
termination_by (edges.filter fun e => e.tail ∉ visited).length
decreasing_by exact fewer_unmarked _h _he

/-- `branches`, unless a label or a type on the way is a list or a mapping. -/
def branches? (nodes : List Node) (edges : List Edge) (visited : List Key) (c : Node) :
    Except Fault (List Branch) :=
  if areReadable nodes edges visited c then .ok (branches nodes edges visited c)
  else .error .notKey

end Flowchart
