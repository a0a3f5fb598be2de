import Flowchart.Graph.Basic
/-! What a node is for, decided by its type. -/
namespace Flowchart

inductive Role where
  | trigger | action | condition | custom
deriving DecidableEq

namespace Role

def name : Role → Text
  | trigger => "trigger"
  | action => "action"
  | condition => "condition"
  | custom => "custom"

/-- The types with a role of their own. -/
def known : List (Text × Role) := [
  ("triggerNode", trigger), ("emailTrigger", trigger), ("webhookTrigger", trigger),
  ("scheduleTrigger", trigger),
  ("actionNode", action), ("emailAction", action), ("httpAction", action),
  ("databaseAction", action),
  ("conditionalNode", condition), ("ifNode", condition), ("switchNode", condition),
  ("colorNode", custom), ("textNode", custom)]

/-- The role of a type; a type that is not known is custom. -/
def ofType : Value → Role
  | .text t => ((known.find? fun k => k.1 = t).map (·.2)).getD custom
  | _ => custom

/-- As `ofType`, but a list or a mapping is no type. -/
def ofType? (type : Value) : Except Fault Role :=
  if type.isScalar then .ok (ofType type) else .error .notKey

end Role

namespace Node

def role (n : Node) : Role := Role.ofType n.type

def role? (n : Node) : Except Fault Role := Role.ofType? n.type

def isCondition (n : Node) : Bool := n.role = .condition

end Node

end Flowchart
