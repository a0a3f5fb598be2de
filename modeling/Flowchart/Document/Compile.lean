import Flowchart.Document.Basic
import Flowchart.Graph.Settings
import Flowchart.Number.Integer
/-! From a graph to its document. -/
namespace Flowchart

/-- Ids in order, when each two have one. -/
def sorted? (ids : List Scalar) : Except Fault (List Scalar) :=
  let comparable := ids.all fun a => ids.all fun b => (a.atMost? b).isSome
  if ids.length < 2 then .ok ids
  else if comparable then .ok (ids.mergeSort fun a b => (a.atMost? b).getD true)
  else .error .unordered

/-- The different sources of the edges that end at an id, in order. -/
def dependencies? (edges : List Edge) (k : Key) : Except Fault (List Scalar) :=
  sorted? (distinctOn Scalar.key ((incoming edges k).map Edge.source))

/-- The role of an id: of several nodes with the id, the last decides. -/
def roleOf (nodes : List Node) (k : Key) : Role :=
  ((nodes.reverse.find? fun n => n.key = k).map Node.role).getD .custom

/-- Some edge ends at the id. -/
def isTarget (edges : List Edge) (k : Key) : Bool := edges.any fun e => e.head = k

/-- A scalar has a text unless it is a whole number of too many digits. -/
def Scalar.isWritten : Scalar → Bool
  | int i => Integer.isWritten i
  | _ => true

/-- As for scalars; a branch has no other value for its label. -/
def Value.isWritten : Value → Bool
  | scalar s => s.isWritten
  | _ => true

namespace TriggerEntry

def ofNode? (n : Node) : Except Fault TriggerEntry := do
  let data : Fields ← n.fields?
  pure {
    id := n.id
    type := n.type
    name := data.valueOr "name" ("Trigger " ++ n.id.display : Text)
    settings := n.settings.toFields
    enabled := data.isOn "enabled" }

end TriggerEntry

namespace ActionEntry

/-- What an action is run with: the parameters of its settings, else the data it keeps. -/
def parametersOf : Settings.Details → Value
  | .action _ p _ => p
  | .custom d => .map d
  | _ => .map []

def retryPolicyOf : Settings.Details → Value
  | .action _ _ r => r
  | _ => Settings.retryDefault

def ofNode? (edges : List Edge) (n : Node) : Except Fault ActionEntry := do
  let s := n.settings
  let data : Fields ← n.fields?
  let deps ← dependencies? edges n.key
  pure {
    id := n.id
    type := n.type
    name := data.valueOr "name" ("Action " ++ n.id.display : Text)
    description := s.label
    parameters := parametersOf s.details
    dependencies := deps
    retryPolicy := retryPolicyOf s.details
    enabled := data.isOn "enabled"
    position := s.position }

end ActionEntry

def Routing.ofData (data : Fields) (paths : List Branch) : Routing where
  type := data.valueOr "routingType" "if-else"
  defaultBranch := data.valueOr "defaultBranch" "false"
  paths := paths
  parallel := data.isOn "parallelExecution"
  maxConcurrency := data.valueOr "maxConcurrency" (.int (-1))
  failureHandling := data.valueOr "failureHandling" "continue"

namespace ConditionEntry

/-- A node that is no condition itself has no expression to compile. -/
def ofNode? (nodes : List Node) (edges : List Edge) (n : Node) : Except Fault ConditionEntry := do
  let paths ← branches? nodes edges [] n
  match n.settings.details with
  | .condition expression operator value _ =>
    let data : Fields ← n.fields?
    let deps ← dependencies? edges n.key
    pure {
      id := n.id
      type := n.type
      expression := expression
      operator := operator
      value := value
      routing := .ofData data paths
      dependencies := deps
      joinType := data.valueOr "joinType" "waitForAll"
      timeout := data.valueOr "timeoutMs" (.int 300000)
      onTimeout := data.valueOr "onTimeout" "fail" }
  | _ => .error (.missingKey "condition")

/-- Its branches can be named for groups, by the condition and the label; also those without
actions, which make up no group. -/
def isNamed (c : ConditionEntry) : Bool :=
  c.routing.paths.all fun b => c.id.isWritten && b.label.isWritten

end ConditionEntry

def Connection.ofEdge (e : Edge) : Connection :=
  ⟨e.id, e.source, e.target, e.label.orElse "", e.type.orElse "default", e.fields.value "conditions"⟩

namespace Document

/-- The nodes that start the workflow: triggers at which no edge ends. -/
def rootNodes (nodes : List Node) (edges : List Edge) : List Node :=
  nodes.filter fun n => roleOf nodes n.key = .trigger && !isTarget edges n.key

def actionNodes (nodes : List Node) : List Node :=
  nodes.filter fun n => roleOf nodes n.key ≠ .trigger && roleOf nodes n.key ≠ .condition

def conditionNodes (nodes : List Node) : List Node :=
  nodes.filter fun n => roleOf nodes n.key = .condition

/-- The document of a graph whose edges are all attached. -/
def assemble? (nodes : List Node) (edges : List Edge) (m : Metadata) : Except Fault Document := do
  if nodes.all fun n => n.type.isScalar then
    let triggers ← (rootNodes nodes edges).mapM TriggerEntry.ofNode?
    let actions ← (actionNodes nodes).mapM (ActionEntry.ofNode? edges)
    let conditions ← (conditionNodes nodes).mapM (ConditionEntry.ofNode? nodes edges)
    if conditions.all ConditionEntry.isNamed then
      let joins ← joinPoints? nodes edges
      pure ⟨m, triggers, actions, conditions, joins, edges.map Connection.ofEdge, nodes⟩
    else .error .tooManyDigits
  else .error .notKey

end Document

/-- What came of a run, and what was reported on the way. -/
structure Outcome (α : Type) where
  notices : List Notice
  result : Except Fault α

/-- Settings that cannot be read take their defaults, edges that are not attached are dropped,
and the rest is compiled. -/
def compile (nodes : List Node) (edges : List Edge) (settings : Metadata.Source) :
    Outcome Document :=
  let (m, notices) := Metadata.coerce settings
  ⟨notices ++ droppedNotices nodes edges,
    Document.assemble? nodes (attached nodes edges) m⟩

end Flowchart
