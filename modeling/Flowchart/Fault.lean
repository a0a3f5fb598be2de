import Flowchart.Value.Basic
/-! Why reading or compiling a graph fails. -/
namespace Flowchart

inductive Fault where
  /-- A mapping lacks a key it must have. -/
  | missingKey (key : Scalar)
  /-- A node or an edge is not written as a mapping. -/
  | notMapping
  /-- A value is neither a mapping nor a sequence of sequences. -/
  | notPairs
  /-- A sequence that should be a key and its value has another length. -/
  | notTwo
  /-- A list or a mapping stands where a key is needed. -/
  | notKey
  /-- Ids of two kinds have no common order. -/
  | unordered
  /-- A node has no data to read. -/
  | noData
  /-- A mapping of the document has a key that cannot be written. -/
  | unwritableKey
  /-- A whole number has more digits than are written. -/
  | tooManyDigits
  /-- A value that contains itself has no end. -/
  | endless
deriving DecidableEq

/-- The key as it stands in a message. -/
def Fault.message? : Fault → Option Text
  | missingKey k => some k.quoted
  | _ => none

instance decEqExcept {ε α : Type} [DecidableEq ε] [DecidableEq α] : DecidableEq (Except ε α)
  | .error a, .error b => decidable_of_iff (a = b) (by simp)
  | .ok a, .ok b => decidable_of_iff (a = b) (by simp)
  | .error _, .ok _ | .ok _, .error _ => isFalse (by simp)

end Flowchart
