import Flowchart.Graph.Role
import Flowchart.Value.Display
/-! The settings a node contributes, by its role. -/
namespace Flowchart

/-- What a node of each kind sets; only a custom node that is no colour keeps all its data. -/
inductive Settings.Details where
  | trigger (triggerType conditions schedule : Value)
  | condition (condition operator value branches : Value)
  | action (actionType parameters retryPolicy : Value)
  | color (color customProperties : Value)
  | custom (data : Fields)
deriving DecidableEq

structure Settings where
  position : Value
  label : Value
  details : Settings.Details
deriving DecidableEq

namespace Settings

/-- How an action is retried that says nothing about it. -/
def retryDefault : Value := .map [("maxRetries", .int 3), ("delay", .int 1000)]

def Details.ofNode (n : Node) : Details :=
  let d := n.fields
  match n.role with
  | .trigger =>
    .trigger (d.valueOr "triggerType" "manual") (d.valueOr "conditions" (.list []))
      (d.value "schedule")
  | .condition =>
    .condition (d.valueOr "condition" "") (d.valueOr "operator" "equals") (d.valueOr "value" "")
      (d.valueOr "branches" (.list ["true", "false"]))
  | .action =>
    .action (d.valueOr "actionType" "custom") (d.valueOr "parameters" (.map []))
      (d.valueOr "retryPolicy" retryDefault)
  | .custom =>
    if n.type = ("colorNode" : Value) then
      .color (d.valueOr "color" "#ff0000") (d.valueOr "customProperties" (.map []))
    else .custom d

def ofNode (n : Node) : Settings :=
  ⟨n.positionValue, n.fields.valueOr "label" (n.type.display ++ (" node" : Text)), Details.ofNode n⟩

def Details.toFields : Details → Fields
  | trigger t c s => [("triggerType", t), ("conditions", c), ("schedule", s)]
  | condition c o v b => [("condition", c), ("operator", o), ("value", v), ("branches", b)]
  | action a p r => [("actionType", a), ("parameters", p), ("retryPolicy", r)]
  | color c p => [("color", c), ("customProperties", p)]
  | custom d => [("customData", .map d)]

def toFields (s : Settings) : Fields :=
  ("position", s.position) :: ("label", s.label) :: s.details.toFields

end Settings

namespace Node

def settings (n : Node) : Settings := Settings.ofNode n

/-- A node whose type is a list or a mapping has no settings. -/
def settings? (n : Node) : Except Fault Settings := n.role?.map fun _ => n.settings

end Node

end Flowchart
