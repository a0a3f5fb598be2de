import Flowchart.Fault
/-! What an import finds wrong with an export, and where. -/
namespace Flowchart

/-- One step on the way to a value: a key or a place in a list. -/
inductive Step where
  | name (t : Text)
  | index (i : Int)
deriving DecidableEq

/-- A whole number among the keys is a place when it fits a machine word; every other key that is
no text goes by its quoted text. -/
def Scalar.step : Scalar → Step
  | .text t => .name t
  | .bool b => .index (if b then 1 else 0)
  | .int i =>
    if -9223372036854775808 ≤ i ∧ i < 9223372036854775808 then .index i
    else .name (Scalar.int i).quoted
  | s => .name s.quoted

def Step.text : Step → Text
  | name t => t
  | index i => Text.ofInt i

inductive Defect where
  | missing
  | forbidden
  | badKey
  | noRecord (name : Text)
  | noMapping
  | noList
  | noText
  | undecodable
  | noBool
  | unknownBool
  | noInteger
  | unreadInteger
  | fractional
  | oversized
  | infinite
  | noNumber
  | unreadNumber
deriving DecidableEq

namespace Defect

def code : Defect → Text
  | missing => "missing"
  | forbidden => "extra_forbidden"
  | badKey => "invalid_key"
  | noRecord _ => "model_type"
  | noMapping => "dict_type"
  | noList => "list_type"
  | noText => "string_type"
  | undecodable => "string_unicode"
  | noBool => "bool_type"
  | unknownBool => "bool_parsing"
  | noInteger => "int_type"
  | unreadInteger => "int_parsing"
  | fractional => "int_from_float"
  | oversized => "int_parsing_size"
  | infinite => "finite_number"
  | noNumber => "float_type"
  | unreadNumber => "float_parsing"

def message : Defect → Text
  | missing => "Field required"
  | forbidden => "Extra inputs are not permitted"
  | badKey => "Keys should be strings"
  | noRecord name => "Input should be a valid dictionary or instance of " ++ name
  | noMapping => "Input should be a valid dictionary"
  | noList => "Input should be a valid list"
  | noText => "Input should be a valid string"
  | undecodable => "Input should be a valid string, unable to parse raw data as a unicode string"
  | noBool => "Input should be a valid boolean"
  | unknownBool => "Input should be a valid boolean, unable to interpret input"
  | noInteger => "Input should be a valid integer"
  | unreadInteger => "Input should be a valid integer, unable to parse string as an integer"
  | fractional => "Input should be a valid integer, got a number with a fractional part"
  | oversized => "Unable to parse input string as an integer, exceeded maximum size"
  | infinite => "Input should be a finite number"
  | noNumber => "Input should be a valid number"
  | unreadNumber => "Input should be a valid number, unable to parse string as a number"

end Defect

structure Problem where
  place : List Step
  defect : Defect
deriving DecidableEq

/-- A value that was read, or all that is wrong with it. -/
abbrev Checked (α : Type) := Except (List Problem) α

namespace Checked

variable {α β : Type}

def fail (d : Defect) : Checked α := .error [⟨[], d⟩]

/-- Problems found further down lie under `s`. -/
def under (s : Step) : Checked α → Checked α
  | .ok a => .ok a
  | .error ps => .error (ps.map fun p => { p with place := s :: p.place })

def problems : Checked α → List Problem
  | .ok _ => []
  | .error ps => ps

/-- Both values, or the problems of both in order. -/
def and (a : Checked α) (b : Checked β) : Checked (α × β) :=
  match a, b with
  | .ok x, .ok y => .ok (x, y)
  | a, b => .error (a.problems ++ b.problems)

def all : List (Checked α) → Checked (List α)
  | [] => .ok []
  | c :: cs => (c.and (all cs)).map fun p => p.1 :: p.2

@[simp] theorem under_eq_ok {s : Step} {c : Checked α} {a : α} : c.under s = .ok a ↔ c = .ok a := by
  cases c <;> simp [under]

@[simp] theorem map_eq_ok {f : α → β} {c : Checked α} {b : β} :
    c.map f = .ok b ↔ ∃ a, c = .ok a ∧ f a = b := by
  cases c <;> simp [Except.map]

@[simp] theorem and_eq_ok {c : Checked α} {d : Checked β} {p : α × β} :
    c.and d = .ok p ↔ c = .ok p.1 ∧ d = .ok p.2 := by
  cases c <;> cases d <;> simp [and, Prod.ext_iff]

theorem all_eq_ok {cs : List (Checked α)} {as : List α} : all cs = .ok as ↔ cs = as.map .ok := by
  induction cs generalizing as with
  | nil => cases as <;> simp [all]
  | cons c cs ih => cases as <;> simp [all, ih]

@[simp] theorem problems_map (f : α → β) (c : Checked α) :
    problems (c.map f) = c.problems := by
  cases c <;> rfl

@[simp] theorem problems_and (c : Checked α) (d : Checked β) :
    (c.and d).problems = c.problems ++ d.problems := by
  cases c <;> cases d <;> rfl

/-- What fails says why. -/
def Explained (c : Checked α) : Prop := c ≠ .error []

variable {c : Checked α} {d : Checked β} {cs : List (Checked α)}

theorem explained_ok (a : α) : Explained (.ok a) := nofun

theorem Explained.under (h : c.Explained) (s : Step) : (c.under s).Explained := by
  cases c with
  | ok a => exact explained_ok a
  | error ps => simpa [Explained, Checked.under] using h

theorem Explained.map (h : c.Explained) (f : α → β) : Explained (c.map f) := by
  cases c with
  | ok a => exact explained_ok (f a)
  | error ps => simpa [Explained, Except.map] using h

theorem Explained.bind {f : α → Checked β} (h : c.Explained) (hf : ∀ a, (f a).Explained) :
    Explained (c.bind f) := by
  cases c with
  | ok a => exact hf a
  | error ps => simpa [Explained, Except.bind] using h

theorem Explained.and (hc : c.Explained) (hd : d.Explained) : (c.and d).Explained := by
  cases c <;> cases d <;> simp_all [Explained, Checked.and, problems]

theorem explained_all (h : ∀ c ∈ cs, c.Explained) : (all cs).Explained := by
  induction cs with
  | nil => exact explained_ok []
  | cons c cs ih =>
    obtain ⟨hc, hcs⟩ := List.forall_mem_cons.1 h
    exact (hc.and (ih hcs)).map _

end Checked

end Flowchart
