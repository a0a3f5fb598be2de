import Flowchart.Export.Spec
import Flowchart.Yaml.Build
/-! From the text of an export to a graph. -/
namespace Flowchart.Export

inductive Fault where
  | unreadable (f : Yaml.Fault)
  /-- The text holds something else than a mapping. -/
  | notMapping
  | invalid (problems : List Problem)
  /-- The octets of a file are no text. -/
  | undecodable
  | noFile
deriving DecidableEq

/-- What is said first about a fault of the export itself. -/
def Fault.message? : Fault → Option Text
  | notMapping => some "Flow export must be a mapping with 'nodes' and 'edges'"
  | invalid ps =>
    some ("Flow validation error: " ++ Text.ofNat ps.length ++
      (if ps.length = 1 then " validation error" else " validation errors") ++ " for FlowSpec")
  | unreadable (.badWord w) => some w.quoted
  | _ => none

/-- Any value that a text holds, as an export. -/
def check (v : Value) : Except Fault Spec :=
  match Spec.ofValue v with
  | .ok s => .ok s
  | .error ps => .error (.invalid ps)

def load (t : Text) : Except Fault Graph :=
  match Yaml.read t with
  | .error f => .error (.unreadable f)
  | .ok (.map es) => (check (.map es)).map Spec.toGraph
  | .ok _ => .error .notMapping

theorem load_eq_ok {t : Text} {g : Graph} : load t = .ok g ↔
    ∃ es s, Yaml.read t = .ok (.map es) ∧ check (.map es) = .ok s ∧ s.toGraph = g := by
  constructor
  · intro h
    unfold load at h
    split at h
    · cases h
    · next es hread =>
      cases hs : check (.map es) with
      | error f => simp [hs, Except.map] at h
      | ok s =>
        rw [hs] at h
        exact ⟨es, s, hread, hs, Except.ok.inj h⟩
    · cases h
  · rintro ⟨es, s, hread, hs, rfl⟩
    rw [load, hread]
    simp only [hs, Except.map]

/-- Every way to end a line becomes a line feed. -/
def lineFeeds : List Nat → List Nat
  | 13 :: 10 :: cs => 10 :: lineFeeds cs
  | 13 :: cs => 10 :: lineFeeds cs
  | c :: cs => c :: lineFeeds cs
  | [] => []

/-- Load the octets of a file, none if there is no file. -/
def loadFile : Option (List Nat) → Except Fault Graph
  | none => .error .noFile
  | some octets =>
    match Text.ofUtf8? octets with
    | none => .error .undecodable
    | some t => load ⟨lineFeeds t.codes⟩

end Flowchart.Export
