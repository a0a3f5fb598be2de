import Flowchart.Value.Display
/-! What is reported while a graph is handled. -/
namespace Flowchart

inductive Level where
  | debug | info | warning
deriving DecidableEq

inductive Notice where
  | droppedEdge (id source target : Scalar)
  | ignoredMetadata (kind : Text)
  | defaultedFields (names : List Text)
  | documentRejected (errors : List Text)
  | documentPassed
  | documentGenerated
  | copied (nodes edges : Nat)
  | recompiling (action : Text)
deriving DecidableEq

namespace Notice

def level : Notice → Level
  | droppedEdge .. | ignoredMetadata _ | defaultedFields _ | documentRejected _ => .warning
  | documentPassed | documentGenerated | copied .. => .debug
  | recompiling _ => .info

private def listText (ts : List Text) : Text := (Value.list (ts.map Value.text)).quoted

def text : Notice → Text
  | droppedEdge id source target =>
    "Dropping edge " ++ id.display ++ ": references unknown node (" ++ source.display ++ " -> " ++
      target.display ++ ")"
  | ignoredMetadata kind => "Ignoring workflow metadata of type " ++ kind
  | defaultedFields names =>
    "Invalid workflow metadata fields " ++ listText names ++ ", using defaults"
  | documentRejected errors => "Workflow validation errors: " ++ listText errors
  | documentPassed => "Workflow document validation passed"
  | documentGenerated => "Generated workflow document"
  | copied n m => "Copied " ++ Text.ofNat n ++ " nodes and " ++ Text.ofNat m ++ " edges"
  | recompiling action => "Recompiling workflow after " ++ action

end Notice

end Flowchart
