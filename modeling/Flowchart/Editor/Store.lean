import Flowchart.Graph.Record
import Flowchart.Graph.Subtree
/-! The editor's store: the last graph it was given, and the copied part. -/
namespace Flowchart

/-- Before anything is copied it is empty. -/
structure Clipboard where
  nodes : List Node
  edges : List Edge
  isCopy : Bool
deriving DecidableEq

namespace Clipboard

def empty : Clipboard := ⟨[], [], false⟩

instance : Inhabited Clipboard := ⟨empty⟩

def toFields? (c : Clipboard) : Except Fault Fields := do
  let nodes ← c.nodes.mapM Node.toRecord?
  pure [("copiedNodes", .list (nodes.map Value.map)),
    ("copiedEdges", .list (c.edges.map fun e => .map e.toRecord)), ("isCopy", .bool c.isCopy)]

end Clipboard

structure Store where
  nodes : List Node
  edges : List Edge
  clipboard : Clipboard
deriving DecidableEq

namespace Store

def empty : Store := ⟨[], [], .empty⟩

instance : Inhabited Store := ⟨empty⟩

def setNodes (s : Store) (nodes : List Node) : Store := { s with nodes }

def setEdges (s : Store) (edges : List Edge) : Store := { s with edges }

def setCopied (s : Store) (nodes : List Node) (edges : List Edge) : Store :=
  { s with clipboard := ⟨nodes, edges, true⟩ }

def resetClipboard (s : Store) : Store := { s with clipboard := .empty }

/-- Copy an id and all that can be reached from it. -/
def copyBranch (s : Store) (start : Key) : Store :=
  let t := subtree s.nodes s.edges start
  s.setCopied t.nodes t.edges

/-- What is reported after copying. -/
def copiedNotice (s : Store) : Notice :=
  .copied s.clipboard.nodes.length s.clipboard.edges.length

end Store

end Flowchart
