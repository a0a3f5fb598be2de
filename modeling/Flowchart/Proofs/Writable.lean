import Flowchart.Document.Check
import Flowchart.Proofs.Settings
/-! Values that can be written out. All that can stop the writer is a key that is a date, a moment or
octets, a whole number of too many digits, or a value that contains itself, however deep inside.
Values that are read from such values are such values. -/
namespace Flowchart

namespace Scalar
variable {s : Scalar}

/-- A key is written as a name; dates, moments and octets are no names. -/
def IsName : Scalar → Prop
  | bytes _ | date _ | moment _ => False
  | _ => True

private theorem fault?_eq_none : s.fault? = none ↔ s.isWritten = true := by
  unfold fault?
  cases s.isWritten <;> simp

private theorem keyFault?_eq_none : s.keyFault? = none ↔ s.IsName ∧ s.isWritten = true := by
  cases s <;> simp [keyFault?, IsName, fault?_eq_none]

end Scalar

namespace Value

/-- The second value is the first or stands inside of it: as an item, a member, a key or under a
key. -/
inductive Holds : Value → Value → Prop where
  | self (v : Value) : Holds v v
  | item {vs : List Value} {v w : Value} (hv : v ∈ vs) (h : Holds v w) : Holds (list vs) w
  | part {vs : List Value} {v w : Value} (hv : v ∈ vs) (h : Holds v w) : Holds (tuple vs) w
  | member {ss : List Scalar} {s : Scalar} (hs : s ∈ ss) : Holds (set ss) (scalar s)
  | key {es : Fields} {e : Scalar × Value} (he : e ∈ es) : Holds (map es) (scalar e.1)
  | entry {es : Fields} {e : Scalar × Value} {w : Value} (he : e ∈ es) (h : Holds e.2 w) :
      Holds (map es) w

/-- The value does not stop the writer by itself. -/
def IsFit : Value → Prop
  | scalar s => s.isWritten = true
  | map es => ∀ e ∈ es, e.1.IsName
  | endless => False
  | _ => True

/-- Nothing inside stops the writer. -/
def IsWritable (v : Value) : Prop := ∀ w, v.Holds w → w.IsFit

section
variable {s : Scalar} {vs : List Value} {ss : List Scalar} {es : Fields} {v d : Value}

@[simp] theorem isWritable_scalar : (scalar s).IsWritable ↔ s.isWritten = true := by
  constructor
  · exact fun h => h _ (.self _)
  · intro h w hw
    cases hw
    exact h

@[simp] theorem isWritable_list : (list vs).IsWritable ↔ ∀ v ∈ vs, v.IsWritable := by
  constructor
  · exact fun h v hv w hw => h w (.item hv hw)
  · intro h w hw
    cases hw with
    | self => trivial
    | item hv hw => exact h _ hv w hw

@[simp] theorem isWritable_tuple : (tuple vs).IsWritable ↔ ∀ v ∈ vs, v.IsWritable := by
  constructor
  · exact fun h v hv w hw => h w (.part hv hw)
  · intro h w hw
    cases hw with
    | self => trivial
    | part hv hw => exact h _ hv w hw

@[simp] theorem isWritable_set : (set ss).IsWritable ↔ ∀ s ∈ ss, s.isWritten = true := by
  constructor
  · exact fun h s hs => h _ (.member hs)
  · intro h w hw
    cases hw with
    | self => trivial
    | member hs => exact h _ hs

theorem isWritable_map : (map es).IsWritable ↔
    ∀ e ∈ es, e.1.IsName ∧ e.1.isWritten = true ∧ e.2.IsWritable := by
  constructor
  · exact fun h e he => ⟨h _ (.self _) e he, h _ (.key he), fun w hw => h w (.entry he hw)⟩
  · intro h w hw
    cases hw with
    | self => exact fun e he => (h e he).1
    | key he => exact (h _ he).2.1
    | entry he hw => exact (h _ he).2.2 w hw

private theorem not_isWritable_endless : ¬ endless.IsWritable := fun h => h _ (.self _)

@[simp] theorem isWritable_map_nil : (map []).IsWritable := isWritable_map.2 nofun

@[simp] theorem isWritable_map_cons {e : Scalar × Value} : (map (e :: es)).IsWritable ↔
    (e.1.IsName ∧ e.1.isWritten = true ∧ e.2.IsWritable) ∧ (map es).IsWritable := by
  rw [isWritable_map, isWritable_map, List.forall_mem_cons]

mutual

/-- The writer finds no fault exactly where there is none inside. -/
theorem fault?_eq_none : (v : Value) → (v.fault? = none ↔ v.IsWritable)
  | scalar s => by rw [fault?, Scalar.fault?_eq_none, isWritable_scalar]
  | list vs => by rw [fault?, itemsFault?_eq_none vs, isWritable_list]
  | tuple vs => by rw [fault?, itemsFault?_eq_none vs, isWritable_tuple]
  | set ss => by
    rw [fault?, List.findSome?_eq_none_iff, isWritable_set]
    exact forall₂_congr fun s _ => Scalar.fault?_eq_none
  | map es => by rw [fault?, entriesFault?_eq_none es, isWritable_map]
  | endless => iff_of_false nofun not_isWritable_endless

theorem itemsFault?_eq_none : (vs : List Value) → (itemsFault? vs = none ↔ ∀ v ∈ vs, v.IsWritable)
  | [] => iff_of_true rfl nofun
  | v :: vs => by
    rw [itemsFault?, Option.or_eq_none_iff, fault?_eq_none v, itemsFault?_eq_none vs,
      List.forall_mem_cons]

theorem entriesFault?_eq_none : (es : Fields) → (entriesFault? es = none ↔
    ∀ e ∈ es, e.1.IsName ∧ e.1.isWritten = true ∧ e.2.IsWritable)
  | [] => iff_of_true rfl nofun
  | (k, v) :: es => by
    rw [entriesFault?, Option.or_eq_none_iff, Option.or_eq_none_iff, Scalar.keyFault?_eq_none,
      fault?_eq_none v, entriesFault?_eq_none es, List.forall_mem_cons]
    exact and_congr_left' and_assoc

end

theorem isWritable_orElse (hv : v.IsWritable) (hd : d.IsWritable) : (v.orElse d).IsWritable := by
  rw [orElse]
  split <;> assumption

end

end Value

@[simp] theorem Scalar.isName_text (t : Text) : (text t).IsName := trivial

@[simp] theorem Scalar.isWritten_text (t : Text) : (text t).isWritten = true := rfl

@[simp] theorem Scalar.isWritten_bool (b : Bool) : (bool b).isWritten = true := rfl

@[simp] theorem Scalar.isWritten_null : null.isWritten = true := rfl

@[simp] theorem Scalar.isWritten_double (d : Double) : (double d).isWritten = true := rfl

theorem Scalar.isWritten_int {i : Int} :
    (int i).isWritten = true ↔ i.natAbs < Nat.pow 10 Integer.digitLimit := by
  rw [isWritten, Integer.isWritten, decide_eq_true_iff]

/-- A number that fits a machine word is written. -/
theorem Scalar.isWritten_of_lt {i : Int} (h : i.natAbs < Nat.pow 10 19) : (int i).isWritten = true := by
  have hle : 19 ≤ Integer.digitLimit := by decide
  rw [isWritten_int]
  generalize Integer.digitLimit = limit at hle ⊢
  exact Nat.lt_of_lt_of_le h (Nat.pow_le_pow_right (by decide) hle)

namespace Fields
variable {fs : Fields}

theorem isWritable_value (h : (Value.map fs).IsWritable) (name : Text) :
    (fs.value name).IsWritable := by
  rw [value]
  cases hv : Table.get? fs (.text name) with
  | none => exact Value.isWritable_scalar.2 rfl
  | some v =>
    obtain ⟨e, he, -, rfl⟩ := Table.exists_of_get? hv
    exact (Value.isWritable_map.1 h e he).2.2

theorem isWritable_valueOr {d : Value} (h : (Value.map fs).IsWritable) (name : Text)
    (hd : d.IsWritable) : (fs.valueOr name d).IsWritable :=
  Value.isWritable_orElse (isWritable_value h name) hd

end Fields

namespace Lenient
variable {v : Value} {i : Int} {t : Text} {cs : List Nat} {fs : Fields} {numeric : Bool}

/-- A whole number that is read from a value can be written if the value can. -/
theorem isWritten_of_integer (hv : v.IsWritable) (h : integer v = .ok i) :
    (Scalar.int i).isWritten = true := by
  obtain rfl | hi := of_integer h
  · exact Value.isWritable_scalar.1 hv
  · exact Scalar.isWritten_int.2 hi

theorem isWritable_of_mapping (hv : v.IsWritable) (h : mapping numeric v = .ok fs) :
    (Value.map fs).IsWritable := by
  cases v with
  | map es =>
    obtain ⟨hnames, hitem⟩ := of_entries h
    refine Value.isWritable_map.2 fun f hf => ?_
    obtain ⟨t, ht⟩ := hnames.texts f hf
    obtain ⟨e, he, hval⟩ := hitem f hf
    rw [ht, ← Except.ok.inj hval]
    exact ⟨trivial, rfl, (Value.isWritable_map.1 hv e he).2.2⟩
  | _ => cases h

theorem isWritable_of_numbers (h : numbers numeric v = .ok fs) : (Value.map fs).IsWritable := by
  obtain ⟨hnames, hdoubles⟩ := of_numbers h
  refine Value.isWritable_map.2 fun f hf => ?_
  obtain ⟨t, ht⟩ := hnames.texts f hf
  obtain ⟨d, hd⟩ := hdoubles f hf
  rw [ht, hd]
  exact ⟨trivial, rfl, Value.isWritable_scalar.2 rfl⟩

end Lenient

end Flowchart
