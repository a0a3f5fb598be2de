import Flowchart.Editor.Event
/-! Sessions: any number of named stores, changed by commands. -/
namespace Flowchart

/-- What can be done to a store. An edit names the graph it is made in, the settings with which
that is compiled, and the time. -/
inductive Command where
  | setNodes (nodes : List Node)
  | setEdges (edges : List Edge)
  | setCopied (nodes : List Node) (edges : List Edge)
  | resetClipboard
  | copyBranch (start : Key)
  | edit (event : Event) (nodes : List Node) (edges : List Edge) (settings : Metadata.Source)
      (now : Text)

namespace Command

/-- What becomes of a store, and what compiling gave if the command is an edit. -/
def call (s : Store) : Command → Store × Option (Outcome Compiled)
  | setNodes ns => (s.setNodes ns, none)
  | setEdges es => (s.setEdges es, none)
  | setCopied ns es => (s.setCopied ns es, none)
  | resetClipboard => (s.resetClipboard, none)
  | copyBranch k => (s.copyBranch k, none)
  | edit ev ns es settings now =>
    let (s, out) := ev.handle ns es settings now s
    (s, some out)

/-- What becomes of a store, whether or not the command ends with a fault. -/
def apply (s : Store) (c : Command) : Store := (c.call s).1

end Command

/-- The stores by name; one that was never used is empty. -/
abbrev Session := Text → Store

namespace Session

def start : Session := fun _ => .empty

def apply (s : Session) (name : Text) (c : Command) : Session :=
  fun other => if other = name then c.apply (s name) else s other

/-- Commands in turn, each on the store it names. -/
def run (s : Session) (cs : List (Text × Command)) : Session :=
  cs.foldl (fun s c => s.apply c.1 c.2) s

end Session

end Flowchart
