import Flowchart.Export.Record
import Flowchart.Notice
import Flowchart.Value.Distinct
import Flowchart.Value.Pairs
/-! The settings of a workflow. Entries that are missing or null have defaults, entries of other
names are kept, and an entry that cannot be read costs its own value. -/
namespace Flowchart

structure Metadata where
  name : Text
  description : Text
  active : Bool
  executionMode : Text
  timeout : Int
  retryPolicy : Fields
  errorHandling : Text
  maxRetries : Int
  retryDelay : Int
  viewport : Fields
  extras : Fields
deriving DecidableEq

namespace Metadata

def default : Metadata where
  name := "Untitled Workflow"
  description := "Generated workflow"
  active := true
  executionMode := "sequential"
  timeout := 300000
  retryPolicy := [("enabled", .bool true), ("maxRetries", .int 3), ("backoffStrategy", "exponential")]
  errorHandling := "stopOnError"
  maxRetries := 3
  retryDelay := 1000
  viewport := [("x", .int 0), ("y", .int 0), ("zoom", .int 1)]
  extras := []

instance : Inhabited Metadata := ⟨default⟩

/-- The declared entries. -/
inductive Setting where
  | name
  | description
  | active
  | executionMode
  | timeout
  | retryPolicy
  | errorHandling
  | maxRetries
  | retryDelay
  | viewport
deriving DecidableEq

/-- The forms that values of settings have. -/
inductive Form where
  | text
  | truth
  | integer
  | mapping
  | numbers

namespace Form

@[reducible] def Kind : Form → Type
  | text => Text
  | truth => Bool
  | integer => Int
  | mapping | numbers => Fields

def read : (f : Form) → Value → Checked f.Kind
  | text => Lenient.text false
  | truth => Lenient.bool
  | integer => Lenient.integer
  | mapping => Lenient.mapping false
  | numbers => Lenient.numbers false

def toValue : (f : Form) → f.Kind → Value
  | text => Value.text
  | truth => Value.bool
  | integer => Value.int
  | mapping | numbers => Value.map

end Form

namespace Setting

def all : List Setting := [name, description, active, executionMode, timeout, retryPolicy,
  errorHandling, maxRetries, retryDelay, viewport]

/-- The preferred name. -/
def key : Setting → Text
  | name => "name"
  | description => "description"
  | active => "active"
  | executionMode => "executionMode"
  | timeout => "timeout"
  | retryPolicy => "retryPolicy"
  | errorHandling => "errorHandling"
  | maxRetries => "maxRetries"
  | retryDelay => "retryDelay"
  | viewport => "viewport"

def otherNames : Setting → List Text
  | executionMode => ["execution_mode"]
  | retryPolicy => ["retry_policy"]
  | errorHandling => ["error_handling"]
  | maxRetries => ["max_retries"]
  | retryDelay => ["retry_delay"]
  | _ => []

/-- The names of a setting, the preferred one first. -/
def names (s : Setting) : List Text := s.key :: s.otherNames

@[reducible] def form : Setting → Form
  | name | description | executionMode | errorHandling => .text
  | active => .truth
  | timeout | maxRetries | retryDelay => .integer
  | retryPolicy => .mapping
  | viewport => .numbers

@[reducible] def Kind (s : Setting) : Type := s.form.Kind

def get : (s : Setting) → Metadata → s.Kind
  | name, m => m.name
  | description, m => m.description
  | active, m => m.active
  | executionMode, m => m.executionMode
  | timeout, m => m.timeout
  | retryPolicy, m => m.retryPolicy
  | errorHandling, m => m.errorHandling
  | maxRetries, m => m.maxRetries
  | retryDelay, m => m.retryDelay
  | viewport, m => m.viewport

def toValue (s : Setting) (m : Metadata) : Value := s.form.toValue (s.get m)

/-- Null stands for the default, and so does the empty text as a name or a description. -/
def isUnset (s : Setting) (v : Value) : Bool :=
  v = .null || (s = name || s = description) && v = ("" : Value)

def read (s : Setting) (v : Value) : Checked s.Kind :=
  s.form.read (if s.isUnset v then s.toValue default else v)

/-- The setting as it is read from a mapping. -/
def readFrom (s : Setting) (raw : Fields) : Checked s.Kind :=
  Record.optional raw s.names (s.get default) s.read

end Setting

/-- Settings with these values and these other entries. -/
def ofSettings (x : (s : Setting) → s.Kind) (extras : Fields) : Metadata :=
  ⟨x .name, x .description, x .active, x .executionMode, x .timeout, x .retryPolicy,
    x .errorHandling, x .maxRetries, x .retryDelay, x .viewport, extras⟩

/-- The names of each declared entry. -/
def declared : List (List Text) := Setting.all.map Setting.names

/-- The values of settings, those that are not in the list by default, or the problems with them in
order. -/
def readAll (raw : Fields) : List Setting → Checked ((s : Setting) → s.Kind)
  | [] => .ok fun s => s.get default
  | s :: ss => ((s.readFrom raw).and (readAll raw ss)).map fun p s' =>
    if h : s = s' then h ▸ p.1 else p.2 s'

def check (raw : Fields) : Checked Metadata :=
  ((readAll raw Setting.all).and (Record.extras declared raw)).map fun p => ofSettings p.1 p.2

/-- The declared entries under their preferred names. -/
def ownFields (m : Metadata) : Fields := Setting.all.map fun s => (.text s.key, s.toValue m)

/-- The declared entries, then the others; one of the others with a preferred name takes the place
of the declared one. -/
def toFields (m : Metadata) : Fields := Table.update m.ownFields m.extras

/-- Read a mapping as settings. -/
def ofFields (raw : Fields) : Checked Metadata := Record.guarded raw (check raw)

/-- What settings may be given as. -/
inductive Source where
  | value (v : Value)
  | settings (m : Metadata)

/-- The name of a value's kind. -/
def kindName : Value → Text
  | .scalar s =>
    match s with
    | .null => "NoneType"
    | .bool _ => "bool"
    | .int _ => "int"
    | .double _ => "float"
    | .text _ => "str"
    | .bytes _ => "bytes"
    | .date _ => "date"
    | .moment _ => "datetime"
  | .list _ => "list"
  | .tuple _ => "tuple"
  | .set _ => "set"
  | .map _ | .endless => "dict"

/-- What a first step counts as among the keys of a mapping. -/
private def stepKey : Step → Key
  | .name t => .text t
  | .index i => .int i

/-- Read the settings again without the entries in which the problems lie; if that fails too, all
are defaults. -/
private def withoutBad (raw : Fields) (ps : List Problem) : Metadata × List Notice :=
  let bad := distinct (ps.filterMap fun p => p.place.head?)
  let names := (bad.map Step.text).mergeSort Text.atMost
  let kept := raw.filter fun e => e.1.key ∉ bad.map stepKey
  let m := match ofFields kept with
    | .ok m => m
    | .error _ => default
  (m, [.defaultedFields names])

/-- Settings from anything: never fails. -/
def coerce : Source → Metadata × List Notice
  | .settings m => (m, [])
  | .value .null => (default, [])
  | .value v =>
    match v.fields? with
    | .error _ => (default, [.ignoredMetadata (kindName v)])
    | .ok raw =>
      match ofFields raw with
      | .ok m => (m, [])
      | .error ps => withoutBad raw ps

/-- What settings come to is the defaults, or the settings that were given, or read from a mapping
or part of one. -/
theorem coerce_cases (s : Source) : (coerce s).1 = default ∨ s = .settings (coerce s).1 ∨
    ∃ v raw kept, s = .value v ∧ v.fields? = .ok raw ∧ kept.Sublist raw ∧
      ofFields kept = .ok (coerce s).1 := by
  unfold coerce
  split
  · exact .inr (.inl rfl)
  · exact .inl rfl
  · next v _ =>
    split
    · exact .inl rfl
    · next raw hraw =>
      split
      · next m hm => exact .inr (.inr ⟨v, raw, raw, rfl, hraw, .refl raw, hm⟩)
      · next ps _ =>
        simp only [withoutBad]
        split
        · next m hm => exact .inr (.inr ⟨v, raw, _, rfl, hraw, List.filter_sublist, hm⟩)
        · exact .inl rfl

/-- The entries in which none of the problems lies. -/
def untroubled (raw : Fields) (ps : List Problem) : Fields :=
  raw.filter fun e => ∀ p ∈ ps, p.place.head? ≠ some e.1.step

/-- A mapping with names for keys is read, or what is left of it without the troubled entries. -/
theorem coerce_of_texts {raw : Fields} (ht : ∀ e ∈ raw, ∃ t, e.1 = .text t) :
    (coerce (.value (.map raw))).1 =
      (ofFields (untroubled raw (ofFields raw).problems)).toOption.getD default := by
  have hfields : (Value.map raw).fields? = .ok raw := rfl
  cases hread : ofFields raw with
  | ok m =>
    have hkept : untroubled raw (Checked.problems (.ok m)) = raw :=
      List.filter_eq_self.2 fun e _ => decide_eq_true (List.forall_mem_nil _)
    rw [hkept]
    simp only [coerce, hfields, hread]
    rfl
  | error ps =>
    have hkept : (raw.filter fun e =>
        e.1.key ∉ (distinct (ps.filterMap fun p => p.place.head?)).map stepKey) =
          untroubled raw ps := by
      apply List.filter_congr
      intro e he
      obtain ⟨t, hk⟩ := ht e he
      rw [hk]
      apply decide_eq_decide.2
      constructor
      · intro hnot p hp hhead
        apply hnot
        exact List.mem_map.2 ⟨.name t, mem_distinct.2 (List.mem_filterMap.2 ⟨p, hp, hhead⟩), rfl⟩
      · intro hall hmem
        obtain ⟨s, hs, hkey⟩ := List.mem_map.1 hmem
        obtain ⟨p, hp, hhead⟩ := List.mem_filterMap.1 (mem_distinct.1 hs)
        cases s with
        | name t' =>
          cases hkey
          exact hall p hp hhead
        | index i => cases hkey
    simp only [coerce, hfields, hread, withoutBad, hkept, Checked.problems]
    cases ofFields (untroubled raw ps) <;> rfl

end Metadata

end Flowchart
