import Flowchart.Branch.Group
import Flowchart.Export.Metadata
import Flowchart.Join.Point
/-! The workflow document that a graph is compiled to, and its form as a value. -/
namespace Flowchart

structure TriggerEntry where
  id : Scalar
  type : Value
  name : Value
  settings : Fields
  enabled : Bool
deriving DecidableEq

structure ActionEntry where
  id : Scalar
  type : Value
  name : Value
  description : Value
  parameters : Value
  dependencies : List Scalar
  retryPolicy : Value
  enabled : Bool
  position : Value
deriving DecidableEq

/-- How a condition hands on to its branches. -/
structure Routing where
  type : Value
  defaultBranch : Value
  paths : List Branch
  parallel : Bool
  maxConcurrency : Value
  failureHandling : Value

structure ConditionEntry where
  id : Scalar
  type : Value
  expression : Value
  operator : Value
  value : Value
  routing : Routing
  dependencies : List Scalar
  joinType : Value
  timeout : Value
  onTimeout : Value

structure Connection where
  id : Scalar
  source : Scalar
  target : Scalar
  label : Value
  type : Value
  conditions : Value
deriving DecidableEq

/-- The triggers are those compiled from nodes; the groups and the form as a value follow from
the rest. -/
structure Document where
  metadata : Metadata
  triggers : List TriggerEntry
  actions : List ActionEntry
  conditions : List ConditionEntry
  joinPoints : List JoinPoint
  connections : List Connection
  nodes : List Node

/-- Ids as a value. -/
def ids (ss : List Scalar) : Value := .list (ss.map Value.scalar)

namespace TriggerEntry

/-- What starts a workflow that has no trigger of its own. -/
def manual : TriggerEntry where
  id := "default-trigger"
  type := "manual"
  name := "Manual Trigger"
  settings := [("triggerType", "manual")]
  enabled := true

def toValue (t : TriggerEntry) : Value :=
  .map [("id", t.id), ("type", t.type), ("name", t.name), ("settings", .map t.settings),
    ("enabled", .bool t.enabled)]

end TriggerEntry

def ActionEntry.toValue (a : ActionEntry) : Value :=
  .map [("id", a.id), ("type", a.type), ("name", a.name), ("description", a.description),
    ("parameters", a.parameters), ("dependencies", ids a.dependencies),
    ("retryPolicy", a.retryPolicy), ("enabled", .bool a.enabled), ("position", a.position)]

def Routing.toValue (r : Routing) : Value :=
  .map [("type", r.type), ("defaultBranch", r.defaultBranch),
    ("paths", .list (r.paths.map Branch.toValue)),
    ("parallelExecution", .map [("enabled", .bool r.parallel),
      ("maxConcurrency", r.maxConcurrency), ("failureHandling", r.failureHandling)])]

def ConditionEntry.toValue (c : ConditionEntry) : Value :=
  .map [("id", c.id), ("type", c.type), ("expression", c.expression), ("operator", c.operator),
    ("value", c.value), ("routing", c.routing.toValue), ("dependencies", ids c.dependencies),
    ("flowControl", .map [("joinType", c.joinType), ("timeoutMs", c.timeout),
      ("onTimeout", c.onTimeout)])]

def Connection.toValue (c : Connection) : Value :=
  .map [("id", c.id), ("source", c.source), ("target", c.target), ("label", c.label),
    ("type", c.type), ("conditions", c.conditions)]

namespace Document

/-- The triggers a document shows: never none. -/
def shownTriggers (d : Document) : List TriggerEntry :=
  if d.triggers.isEmpty then [.manual] else d.triggers

/-- The branches of each condition, the last entry of an id in the place of the first. -/
def paths (d : Document) : Table (List Branch) :=
  Table.ofEntries (d.conditions.map fun c => (c.id, c.routing.paths))

def groups (d : Document) : List Group := executionGroups d.paths

def nodeValue (n : Node) : Value :=
  .map [("id", n.id), ("position", n.positionValue), ("type", n.type), ("data", n.dataValue)]

def settingsValue (d : Document) : Value :=
  let m := d.metadata
  .map [
    ("execution", .map [("mode", m.executionMode), ("timeout", .int m.timeout),
      ("retryPolicy", .map m.retryPolicy)]),
    ("conditions", .list (d.conditions.map ConditionEntry.toValue)),
    ("executionFlow", .map [
      ("executionGroups", .list (d.groups.map Group.toValue)),
      ("joinPoints", .list (d.joinPoints.map JoinPoint.toValue)),
      ("errorHandling", .map [("strategy", m.errorHandling), ("maxRetries", .int m.maxRetries),
        ("retryDelay", .int m.retryDelay)])]),
    ("connections", .list (d.connections.map Connection.toValue)),
    ("ui", .map [("layout", "flowchart"), ("nodes", .list (d.nodes.map nodeValue)),
      ("viewport", .map m.viewport)])]

/-- Settings of other names are shown as audit, when there are some. -/
def toFields (d : Document) : Fields :=
  let m := d.metadata
  let own : Fields := [("name", m.name), ("description", m.description), ("active", .bool m.active),
    ("triggers", .list (d.shownTriggers.map TriggerEntry.toValue)),
    ("actions", .list (d.actions.map ActionEntry.toValue)), ("settings", settingsValue d)]
  let audit : Fields := if m.extras.isEmpty then [] else [("audit", .map m.extras)]
  own ++ audit

def toValue (d : Document) : Value := .map d.toFields

end Document

end Flowchart
