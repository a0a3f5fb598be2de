import Flowchart.Editor.Event
import Flowchart.Proofs.Schedule
import Flowchart.Proofs.Settings
/-! Edits and compiling. An edit writes the settings out, notes itself among them and compiles what
is read from that. The document is the one that the same settings would have given, but for its
audit, which is the extras of the settings with the notes over them. -/
namespace Flowchart

/-- What the edit notes in the settings. -/
def Event.marks (ev : Event) (now : Text) : Fields :=
  let time : Fields := [("lastModified", now)]
  ("lastAction", ev.name) :: (ev.trace ++ time)

/-- The document with the defaults for an empty name and an empty description. -/
def Document.filled (d : Document) : Document := { d with metadata := d.metadata.filled }

private theorem Document.filled_eq_self {d : Document} :
    d.filled = d ↔ d.metadata.name ≠ Text.empty ∧ d.metadata.description ≠ Text.empty := by
  rw [← Metadata.filled_eq_self]
  exact ⟨fun h => congrArg Document.metadata h, fun h => by rw [filled, h]⟩

section
variable {nodes : List Node} {edges : List Edge} {settings : Metadata.Source} {d : Document}
  {m m' : Metadata} {ev : Event} {now : Text} {out : Compiled} {x : Fields}

end

end Flowchart
