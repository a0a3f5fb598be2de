import Flowchart.Graph.Record
import Flowchart.Proofs.Compile
/-! Records of the editor that are read, written and read again. Reading fills in what is blank and
makes texts of ids; what it yields is not blank any more, so that the record of a node or an edge is
read as that node or edge, the entries that are left out included. -/
namespace Flowchart

namespace Text

@[simp] theorem isEmpty_append (a b : Text) : (a ++ b).isEmpty = (a.isEmpty && b.isEmpty) := by
  rw [isEmpty, isEmpty, isEmpty, codes_append]
  cases a.codes <;> rfl

@[simp] theorem isEmpty_ofChars (cs : List Char) : (ofChars cs).isEmpty = cs.isEmpty :=
  List.isEmpty_map

private theorem isEmpty_ofNat (n : Nat) : (ofNat n).isEmpty = false := by
  rw [ofNat, isEmpty_ofChars, List.isEmpty_eq_false_iff]
  exact Nat.toDigits_ne_nil

theorem isEmpty_ofInt (i : Int) : (ofInt i).isEmpty = false := by
  unfold ofInt
  split <;> simp [isEmpty_ofNat]

end Text

namespace Double

private theorem layOut_ne_nil (ds : List Char) (e : Int) : layOut ds e ≠ [] := by
  unfold layOut
  split
  · split <;> simp
  · simp

theorem isEmpty_text (d : Double) : d.text.isEmpty = false := by
  cases d with
  | nan => rfl
  | infinite s => cases s <;> rfl
  | finite s m e => simp [text, layOut_ne_nil]

end Double

/-- What is not blank has a text. -/
private theorem Scalar.isEmpty_display {s : Scalar} (h : s.isBlank = false) :
    s.display.isEmpty = false := by
  cases s with
  | null => cases h
  | bool b => cases b <;> rfl
  | int i => exact Text.isEmpty_ofInt i
  | double d => exact d.isEmpty_text
  | text t => exact h
  | bytes os => rfl
  | date d => simp [display, Date.text, show ("-" : Text).isEmpty = false from rfl]
  | moment m => simp [display, Moment.text, show (":" : Text).isEmpty = false from rfl]

private theorem Value.isEmpty_display {v : Value} (h : v.isBlank = false) :
    v.display.isEmpty = false := by
  cases v with
  | scalar s => exact Scalar.isEmpty_display h
  | list xs => rfl
  | tuple xs =>
    match xs with
    | [] => rfl
    | [x] => rfl
    | x :: y :: xs => rfl
  | set xs => cases xs <;> rfl
  | map es => rfl
  | endless => rfl

section
variable {v d : Value} {vs : List Value} {es fs : Fields} {x : Value}

private theorem Value.isBlank_orElse_eq_false (hd : d.isBlank = false) :
    (v.orElse d).isBlank = false := by
  cases hv : v.isBlank with
  | true => rwa [orElse_of_blank hv]
  | false => rwa [orElse_of_not_blank hv]

private theorem Value.members?_ne_nil (hv : v.isBlank = false) (h : v.members? = some vs) :
    vs ≠ [] := by
  rintro rfl
  unfold members? at h
  split at h <;> simp_all [isBlank, Scalar.isBlank, Text.isEmpty]

/-- A mapping that is not blank, or a sequence of pairs that is not, comes to some entries. -/
private theorem Value.ne_nil_of_fields? (hv : v.isBlank = false) (h : v.fields? = .ok es) :
    es ≠ [] := by
  have hpairs {vs : List Value} (hvs : v.members? = some vs)
      (h : (vs.mapM pair?).map Table.ofEntries = .ok es) : es ≠ [] := by
    cases hkvs : vs.mapM pair? with
    | error f =>
      rw [hkvs] at h
      cases h
    | ok kvs =>
      rw [hkvs] at h
      cases h
      have hlength := (forall₂_of_mapM hkvs).length_eq
      refine Table.update_ne_nil fun hnil => members?_ne_nil hv hvs ?_
      rw [← List.length_eq_zero_iff, hlength, hnil, List.length_nil]
  unfold fields? at h
  split at h
  · cases h
    simpa [isBlank] using hv
  · split at h
    · cases h
    · next hvs => exact hpairs hvs h

private theorem record?_eq_ok : record? x = .ok fs ↔ x = .map fs := by
  cases x <;> simp [record?]

end

namespace Node
variable {raw : Value} {n : Node}

/-- A record is read as a node when it has an id, and its position and its data are mappings or
sequences of pairs. -/
theorem ofRecord?_eq_ok : ofRecord? raw = .ok n ↔ ∃ (fs : Fields) (id : Value) (p d : Fields),
    raw = .map fs ∧ fs.required? "id" = .ok id ∧
    (fs.valueOr "position" (.map origin)).fields? = .ok p ∧
    (fs.valueOr "data" (.map [])).fields? = .ok d ∧
    n = ⟨.text id.display, fs.valueOr "type" "default", some p, some d⟩ := by
  constructor
  · intro h
    obtain ⟨fs, hfs, h⟩ := bind_eq_ok h
    obtain ⟨id, hid, h⟩ := bind_eq_ok h
    obtain ⟨p, hp, h⟩ := bind_eq_ok h
    obtain ⟨d, hd, h⟩ := bind_eq_ok h
    exact ⟨fs, id, p, d, record?_eq_ok.1 hfs, hid, hp, hd, (Except.ok.inj h).symm⟩
  · rintro ⟨fs, id, p, d, rfl, hid, hp, hd, rfl⟩
    rw [ofRecord?, record?_eq_ok.2 rfl, ok_bind, hid, ok_bind, hp, ok_bind, hd, ok_bind]
    rfl

/-- The record of a node that was read is read as that node. -/
theorem exists_toRecord? (h : ofRecord? raw = .ok n) :
    ∃ fs, n.toRecord? = .ok fs ∧ ofRecord? (.map fs) = .ok n := by
  obtain ⟨fs, id, p, d, -, -, hp, -, rfl⟩ := ofRecord?_eq_ok.1 h
  have hp : p ≠ [] := Value.ne_nil_of_fields? (Value.isBlank_orElse_eq_false rfl) hp
  have htype : (fs.valueOr "type" "default").isBlank = false :=
    Value.isBlank_orElse_eq_false rfl
  refine ⟨_, rfl, ofRecord?_eq_ok.2 ⟨_, .text id.display, p, d, rfl, rfl, ?_, ?_, ?_⟩⟩
  · have hblank : (Value.map p).isBlank = false := by simpa [Value.isBlank] using hp
    exact congrArg Value.fields? (Value.orElse_of_not_blank hblank)
  · cases d <;> rfl
  · have htype := Value.orElse_of_not_blank (d := "default") htype
    exact congrArg (Node.mk _ · _ _) htype.symm

end Node

namespace Edge
variable {raw : Value} {e : Edge}

theorem ofRecord?_eq_ok : ofRecord? raw = .ok e ↔ ∃ (fs : Fields) (s t : Value) (d : Fields),
    raw = .map fs ∧ fs.required? "source" = .ok s ∧ fs.required? "target" = .ok t ∧
    (fs.valueOr "data" (.map [])).fields? = .ok d ∧
    e = ⟨.text (fs.valueOr "id" (derivedId s.display t.display)).display, .text s.display,
      .text t.display, fs.value "label", fs.value "type", some d⟩ := by
  constructor
  · intro h
    obtain ⟨fs, hfs, h⟩ := bind_eq_ok h
    obtain ⟨s, hs, h⟩ := bind_eq_ok h
    obtain ⟨t, ht, h⟩ := bind_eq_ok h
    obtain ⟨d, hd, h⟩ := bind_eq_ok h
    exact ⟨fs, s, t, d, record?_eq_ok.1 hfs, hs, ht, hd, (Except.ok.inj h).symm⟩
  · rintro ⟨fs, s, t, d, rfl, hs, ht, hd, rfl⟩
    rw [ofRecord?, record?_eq_ok.2 rfl, ok_bind, hs, ok_bind, ht, ok_bind, hd, ok_bind]
    rfl

/-- What a record of an edge says, whichever entries it leaves out. -/
private theorem value_toRecord (e : Edge) : e.toRecord.value "id" = e.id ∧
    e.toRecord.required? "source" = .ok e.source ∧ e.toRecord.required? "target" = .ok e.target ∧
    e.toRecord.value "label" = e.label ∧ e.toRecord.value "type" = e.type ∧
    e.toRecord.valueOr "data" (.map []) = .map e.fields := by
  unfold toRecord
  by_cases hlabel : e.label = .null <;> by_cases htype : e.type = .null <;>
    cases hdata : e.fields <;> simp only [hlabel, htype, if_true, if_false] <;>
    exact ⟨rfl, rfl, rfl, rfl, rfl, rfl⟩

/-- The record of an edge that was read is read as that edge. -/
private theorem read_toRecord (h : ofRecord? raw = .ok e) :
    ofRecord? (.map e.toRecord) = .ok e := by
  obtain ⟨fs, s, t, d, -, -, -, -, he⟩ := ofRecord?_eq_ok.1 h
  obtain ⟨hid, hsource, htarget, hlabel, htype, hdata⟩ := e.value_toRecord
  have hderived : (derivedId s.display t.display).isEmpty = false := rfl
  have hblank : (Value.scalar e.id).isBlank = false := by
    rw [he]
    exact Value.isEmpty_display (Value.isBlank_orElse_eq_false hderived)
  refine ofRecord?_eq_ok.2 ⟨_, e.source, e.target, e.fields, rfl, hsource, htarget, ?_, ?_⟩
  · rw [hdata, Value.fields?_map]
  · rw [hlabel, htype, Fields.valueOr, hid, Value.orElse_of_not_blank hblank, he]
    rfl

end Edge

/-- What is read from a record of the editor, a node or an edge, is read again from its own
record. -/
theorem ofRecord?_toRecord (raw : Value) :
    (∀ n, Node.ofRecord? raw = .ok n →
      ∃ fs, n.toRecord? = .ok fs ∧ Node.ofRecord? (.map fs) = .ok n) ∧
    ∀ e, Edge.ofRecord? raw = .ok e → Edge.ofRecord? (.map e.toRecord) = .ok e :=
  ⟨fun _ => Node.exists_toRecord?, fun _ => Edge.read_toRecord⟩

/-- A record that can be read as a node and as an edge: ids that are no texts, one of them blank, a
blank type, mappings as sequences of pairs, and a label that is blank but not null. -/
def looseRecord : Value :=
  .map [("id", .bool false), ("type", .list []), ("source", .int 7), ("target", .null),
    ("label", ""), ("position", .list [.tuple ["x", .double (.ofRatio false 1 2)], "y2"]),
    ("data", .set [])]

theorem ofRecord?_toRecord_loose :
    (∃ n fs, Node.ofRecord? looseRecord = .ok n ∧ n.id = "False" ∧ n.type = "default" ∧
      n.toRecord? = .ok fs ∧ Node.ofRecord? (.map fs) = .ok n) ∧
    ∃ e, Edge.ofRecord? looseRecord = .ok e ∧ e.id = "e7-None" ∧ e.label = "" ∧
      Edge.ofRecord? (.map e.toRecord) = .ok e := by
  obtain ⟨hnode, hedge⟩ := ofRecord?_toRecord looseRecord
  have hn : Node.ofRecord? looseRecord = .ok ⟨"False", "default",
      some [("x", .double (.ofRatio false 1 2)), ("y", "2")], some []⟩ := by decide +kernel
  have he : Edge.ofRecord? looseRecord = .ok ⟨"e7-None", "7", "None", "", .list [], some []⟩ := by
    decide +kernel
  obtain ⟨fs, hfs, hread⟩ := hnode _ hn
  exact ⟨⟨_, fs, hn, rfl, rfl, hfs, hread⟩, _, he, rfl, rfl, hedge _ he⟩

end Flowchart
