import Flowchart.Document.Compile
/-! What is wrong with a document, given as any value. -/
namespace Flowchart

/-- The items of a list; any other value has none. -/
private def items : Option Value → List Value
  | some (.list vs) => vs
  | _ => []

/-- The entries of a mapping; any other value has none. -/
private def entries : Value → Fields
  | .map es => es
  | _ => []

private def lacks (v : Value) (name : Text) : Bool := ((entries v).value name).isBlank

private def numbered (kind : Text) (index : Nat) (what : Text) : Text :=
  kind ++ " " ++ Text.ofNat index ++ " " ++ what

/-- Each entry needs an id and a type. -/
private def entryErrors (kind : Text) (vs : List Value) : List Text :=
  vs.zipIdx.flatMap fun (v, i) =>
    (if lacks v "id" then [numbered kind i "missing ID"] else []) ++
    (if lacks v "type" then [numbered kind i "missing type"] else [])

private def connectionErrors (vs : List Value) : List Text :=
  vs.zipIdx.flatMap fun (v, i) =>
    if lacks v "source" || lacks v "target" then
      [numbered "Connection" i "missing source or target"]
    else []

private def under (v : Value) (name : Text) : Option Value := Table.get? (entries v) (.text name)

/-- The errors of a document, in the order of its parts. A part that does not have the expected
shape counts as empty. -/
def documentErrors (document : Value) : List Text :=
  match document with
  | .map _ =>
    let triggers := items (under document "triggers")
    let name : List Text := if lacks document "name" then ["Workflow name is required"] else []
    let start : List Text :=
      if triggers.isEmpty then ["At least one trigger is required"] else []
    name ++ start ++ entryErrors "Trigger" triggers ++
    entryErrors "Action" (items (under document "actions")) ++
    connectionErrors (items ((under document "settings").bind fun s => under s "connections"))
  | _ => ["Workflow document must be a mapping"]

def isValidDocument (document : Value) : Bool := (documentErrors document).isEmpty

/-- What is reported about a document with these errors. -/
def verdict (errors : List Text) : Notice :=
  if errors.isEmpty then .documentPassed else .documentRejected errors

/-- Why a scalar cannot be written, if it cannot. -/
def Scalar.fault? (s : Scalar) : Option Fault := if s.isWritten then none else some .tooManyDigits

/-- As a key a scalar is written only if it is a text, a number, a truth value or null. -/
def Scalar.keyFault? : Scalar → Option Fault
  | bytes _ | date _ | moment _ => some .unwritableKey
  | s => s.fault?

namespace Value

mutual

/-- The first fault that is met when a value is written out with all that is inside. -/
def fault? : Value → Option Fault
  | scalar s => s.fault?
  | list vs => itemsFault? vs
  | tuple vs => itemsFault? vs
  | set ss => ss.findSome? Scalar.fault?
  | map es => entriesFault? es
  | endless => some .endless

def itemsFault? : List Value → Option Fault
  | [] => none
  | v :: vs => (fault? v).or (itemsFault? vs)

def entriesFault? : List (Scalar × Value) → Option Fault
  | [] => none
  | (k, v) :: es => (k.keyFault?.or (fault? v)).or (entriesFault? es)

end

end Value

/-- A document with its errors. -/
structure Compiled where
  document : Document
  errors : List Text

/-- Compile and check in one step. A document is returned even with errors, but it must be
possible to write it. -/
def generate (nodes : List Node) (edges : List Edge) (settings : Metadata.Source) :
    Outcome Compiled :=
  let c := compile nodes edges settings
  match c.result with
  | .error f => ⟨c.notices, .error f⟩
  | .ok d =>
    match d.toValue.fault? with
    | some f => ⟨c.notices, .error f⟩
    | none =>
      let errors := documentErrors d.toValue
      ⟨c.notices ++ [.documentGenerated, verdict errors], .ok ⟨d, errors⟩⟩

section
variable {nodes : List Node} {edges : List Edge} {settings : Metadata.Source} {c : Compiled}
  {d : Document} {t : Text}

theorem generate_eq_ok : (generate nodes edges settings).result = .ok c ↔
    (compile nodes edges settings).result = .ok c.document ∧ c.document.toValue.fault? = none ∧
      c.errors = documentErrors c.document.toValue := by
  constructor
  · intro h
    simp only [generate] at h
    split at h
    · cases h
    · next d hd =>
      split at h
      · cases h
      · next hf =>
        cases h
        exact ⟨hd, hf, rfl⟩
  · rintro ⟨hd, hf, he⟩
    simp only [generate, hd, hf, ← he]

end

end Flowchart
