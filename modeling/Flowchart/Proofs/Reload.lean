import Flowchart.Export.Load
import Flowchart.Proofs.Settings
/-! Graphs that are written out as records and read again. What an import has read once is read as it
is: ids and labels are texts by then, mappings have texts as keys, and the entries that a record
leaves out come back as they were. Only the numbers of positions and of the viewport may change
their kind, not their value, and an empty name or description of the workflow is replaced by the
default. -/
namespace Flowchart

namespace Spec
variable {α : Type} {read : Value → Checked α} {v : Value} {vs : List Value} {as : List α}

private theorem forall₂_of_items_list (h : items read (.list vs) = .ok as) :
    List.Forall₂ (fun v a => read v = .ok a) vs as := by
  replace h := Checked.all_eq_ok.1 h
  generalize 0 = k at h
  induction vs generalizing as k with
  | nil =>
    obtain rfl := List.map_eq_nil_iff.1 h.symm
    exact .nil
  | cons v vs ih =>
    rw [List.zipIdx_cons, List.map_cons] at h
    obtain ⟨a, as', rfl, ha, has⟩ := List.map_eq_cons_iff.1 h.symm
    exact .cons (Checked.under_eq_ok.1 ha.symm) (ih (k + 1) has.symm)

/-- The items are read one by one. -/
theorem forall₂_of_items (h : items read v = .ok as) :
    ∃ vs, v.members? = some vs ∧ List.Forall₂ (fun v a => read v = .ok a) vs as := by
  cases v with
  | list vs => exact ⟨vs, rfl, forall₂_of_items_list h⟩
  | tuple vs => exact ⟨vs, rfl, forall₂_of_items_list h⟩
  | set ss => exact ⟨ss.map Value.scalar, rfl, forall₂_of_items_list h⟩
  | scalar s => cases h
  | map es => cases h
  | endless => cases h

private theorem of_items (h : items read v = .ok as) : ∀ a ∈ as, ∃ w, read w = .ok a := by
  intro a ha
  obtain ⟨vs, -, hvs⟩ := forall₂_of_items h
  obtain ⟨w, -, hw⟩ := exists_of_forall₂ hvs ha
  exact ⟨w, hw⟩

private theorem items_list (h : List.Forall₂ (fun v a => read v = .ok a) vs as) :
    items read (.list vs) = .ok as := by
  refine Checked.all_eq_ok.2 ?_
  generalize 0 = k
  induction h generalizing k with
  | nil => rfl
  | cons hv _ ih =>
    rw [List.zipIdx_cons, List.map_cons, List.map_cons, ih]
    exact congrArg (· :: _) (Checked.under_eq_ok.2 hv)

end Spec

/-- The keys are the preferred names of declared entries. -/
def Record.HasDeclared (declared : List (List Text)) (raw : Fields) : Prop :=
  ∀ e ∈ raw, ∃ t, e.1 = .text t ∧ some t ∈ declared.map List.head?

private theorem Record.read_of_hasDeclared {α : Type} {declared : List (List Text)} {raw : Fields}
    {name : Text} {check : Fields → Checked α} {a : α}
    (hd : ∀ names ∈ declared, ∀ t ∈ names, Lenient.hasSurrogate t = false)
    (hraw : Record.HasDeclared declared raw) (h : check raw = .ok a) :
    Record.read name check (.map raw) = .ok a := by
  refine Record.guarded_eq_ok.2 ⟨fun e he t ht => ?_, h⟩
  obtain ⟨t', hk, hhead⟩ := hraw e he
  rw [hk] at ht
  cases ht
  obtain ⟨names, hnames, hhead⟩ := List.mem_map.1 hhead
  exact hd names hnames t (List.mem_of_mem_head? hhead)

namespace NodeSpec
variable {raw : Fields} {n : NodeSpec}

/-- Each entry of the node is read from the record, or has its default. -/
structure ReadFrom (raw : Fields) (n : NodeSpec) : Prop where
  id : Record.required raw ["id"] (Lenient.text true) = .ok n.id
  type : Record.optional raw ["type"] ("default" : Text) (Lenient.text true) = .ok n.type
  position : Record.optional raw ["position"] Node.origin (Lenient.numbers true) = .ok n.position
  data : Record.optional raw ["data"] [] (Lenient.mapping true) = .ok n.data
  extras : Record.extras declared raw = .ok n.extras

theorem check_eq_ok : check raw = .ok n ↔ ReadFrom raw n := by
  unfold check
  simp only [Checked.map_eq_ok, Checked.and_eq_ok]
  constructor
  · rintro ⟨_, ⟨id, type, position, data, extras⟩, rfl⟩
    exact ⟨id, type, position, data, extras⟩
  · intro h
    exact ⟨(n.id, n.type, n.position, n.data, n.extras),
      ⟨h.id, h.type, h.position, h.data, h.extras⟩, rfl⟩

private theorem hasDeclared_own (n : NodeSpec) : Record.HasDeclared declared [("id", n.id),
    ("type", n.type), ("position", .map n.position), ("data", .map n.data)] := by
  simp only [Record.HasDeclared, List.forall_mem_cons]
  exact ⟨⟨_, rfl, by decide⟩, ⟨_, rfl, by decide⟩, ⟨_, rfl, by decide⟩, ⟨_, rfl, by decide⟩, nofun⟩

private theorem areNumbers_position (h : ReadFrom raw n) : n.position.AreNumbers := by
  obtain hd | ⟨-, -, v, -, hread⟩ := Record.of_optional h.position
  · rw [hd]
    exact Metadata.areNumbers_default.sublist (List.sublist_append_left Node.origin _)
  · exact Lenient.areNumbers_of_numbers hread

private theorem hasNames_data (h : ReadFrom raw n) : n.data.HasNames := by
  obtain hd | ⟨-, -, v, -, hread⟩ := Record.of_optional h.data
  · rw [hd]
    exact ⟨.nil, List.forall_mem_nil _⟩
  · exact Lenient.hasNames_of_mapping hread

/-- The record of a node is read as the node, with numbers of the same value in its position. -/
theorem exists_ofValue (hp : n.position.AreNumbers) (hd : n.data.HasNames) : ∃ es m,
    n.toNode.toRecord? = .ok es ∧ ofValue (.map es) = .ok m ∧ m.id = n.id ∧ m.type = n.type ∧
      m.data = n.data ∧ Fields.EqByValue m.position n.position := by
  obtain ⟨p, hread, hvalue⟩ := Lenient.exists_numbers true hp
  refine ⟨_, ⟨n.id, n.type, p, n.data, []⟩, rfl, ?_, rfl, rfl, rfl, hvalue⟩
  refine Record.read_of_hasDeclared (by decide) (hasDeclared_own n) (check_eq_ok.2 ?_)
  exact {
    id := Record.required_of_get? rfl rfl
    type := Record.optional_of_get? rfl rfl
    position := Record.optional_of_get? rfl hread
    data := Record.optional_of_get? rfl (Lenient.mapping_of_hasNames hd)
    extras := Record.extras_of_declared (hasDeclared_own n) }

end NodeSpec

namespace EdgeSpec
variable {raw : Fields} {e : EdgeSpec}

structure ReadFrom (raw : Fields) (e : EdgeSpec) : Prop where
  id : Record.optional raw ["id"] none (Lenient.optionalText true) = .ok e.id
  source : Record.required raw ["source", "from"] (Lenient.text true) = .ok e.source
  target : Record.required raw ["target", "to"] (Lenient.text true) = .ok e.target
  label : Record.optional raw ["label"] none (Lenient.optionalText true) = .ok e.label
  type : Record.optional raw ["type"] none (Lenient.optionalText true) = .ok e.type
  data : Record.optional raw ["data"] [] (Lenient.mapping true) = .ok e.data
  extras : Record.extras declared raw = .ok e.extras

theorem check_eq_ok : check raw = .ok e ↔ ReadFrom raw e := by
  unfold check
  simp only [Checked.map_eq_ok, Checked.and_eq_ok]
  constructor
  · rintro ⟨_, ⟨id, source, target, label, type, data, extras⟩, rfl⟩
    exact ⟨id, source, target, label, type, data, extras⟩
  · intro h
    exact ⟨(e.id, e.source, e.target, e.label, e.type, e.data, e.extras),
      ⟨h.id, h.source, h.target, h.label, h.type, h.data, h.extras⟩, rfl⟩

private theorem hasDeclared_toRecord (e : EdgeSpec) :
    Record.HasDeclared declared e.toEdge.toRecord := by
  have hnames : ∀ k ∈ e.toEdge.toRecord.map (·.1), k ∈ ([("id" : Text), ("source" : Text),
      ("target" : Text), ("label" : Text), ("type" : Text), ("data" : Text)].map Scalar.text) := by
    obtain ⟨id, source, target, label, type, data, extras⟩ := e
    cases label <;> cases type <;> cases data <;>
      simp [toEdge, textOrNull, Edge.toRecord, Edge.fields]
  intro x hx
  obtain ⟨t, ht, hk⟩ := List.mem_map.1 (hnames x.1 (List.mem_map_of_mem hx))
  have hdeclared : ∀ t ∈ [("id" : Text), ("source" : Text), ("target" : Text), ("label" : Text),
      ("type" : Text), ("data" : Text)], some t ∈ declared.map List.head? := by decide
  exact ⟨t, hk.symm, hdeclared t ht⟩

/-- A label or a type that is left out is read as none. -/
private theorem optional_label (e : EdgeSpec) :
    Record.optional e.toEdge.toRecord ["label"] none (Lenient.optionalText true) = .ok e.label := by
  obtain ⟨id, source, target, label, type, data, extras⟩ := e
  cases label <;> cases type <;> cases data <;> rfl

private theorem optional_type (e : EdgeSpec) :
    Record.optional e.toEdge.toRecord ["type"] none (Lenient.optionalText true) = .ok e.type := by
  obtain ⟨id, source, target, label, type, data, extras⟩ := e
  cases label <;> cases type <;> cases data <;> rfl

/-- Data that is left out is read as empty. -/
private theorem optional_data (h : e.data.HasNames) :
    Record.optional e.toEdge.toRecord ["data"] [] (Lenient.mapping true) = .ok e.data := by
  obtain ⟨id, source, target, label, type, data, extras⟩ := e
  cases data with
  | nil => cases label <;> cases type <;> rfl
  | cons d data =>
    refine Record.optional_of_get? ?_ (Lenient.mapping_of_hasNames h)
    cases label <;> cases type <;> rfl

private theorem hasNames_data (h : ReadFrom raw e) : e.data.HasNames := by
  obtain hd | ⟨-, -, v, -, hread⟩ := Record.of_optional h.data
  · rw [hd]
    exact ⟨.nil, List.forall_mem_nil _⟩
  · exact Lenient.hasNames_of_mapping hread

/-- The id that the edge gets. -/
def idOf (e : EdgeSpec) : Text :=
  (e.id.filter fun i => !i.isEmpty).getD (Edge.derivedId e.source e.target)

private theorem idOf_ne_empty (e : EdgeSpec) : e.idOf.isEmpty = false := by
  rw [idOf]
  cases h : e.id.filter fun i => !i.isEmpty with
  | none => rfl
  | some i => simpa using (Option.filter_eq_some_iff.1 h).2

/-- The record of an edge is read as the edge. -/
theorem exists_ofValue (hd : e.data.HasNames) :
    ∃ f, ofValue (.map e.toEdge.toRecord) = .ok f ∧ f.toEdge = e.toEdge := by
  refine ⟨⟨some e.idOf, e.source, e.target, e.label, e.type, e.data, []⟩, ?_, ?_⟩
  · refine Record.read_of_hasDeclared (by decide) (hasDeclared_toRecord e) (check_eq_ok.2 ?_)
    exact {
      id := Record.optional_of_get? rfl rfl
      source := Record.required_of_get? rfl rfl
      target := Record.required_of_get? rfl rfl
      label := optional_label e
      type := optional_type e
      data := optional_data hd
      extras := Record.extras_of_declared (hasDeclared_toRecord e) }
  · have hid := e.idOf_ne_empty
    have hkept : (some e.idOf).filter (fun i => !i.isEmpty) = some e.idOf := by simp [hid]
    simp only [toEdge, hkept, Option.getD_some]
    rfl

end EdgeSpec

/-- The nodes are alike, but for the kinds of the numbers in their positions. -/
def Node.EqByValue (n m : Node) : Prop :=
  n.id = m.id ∧ n.type = m.type ∧ n.data = m.data ∧
    Option.Rel Fields.EqByValue n.position m.position

/-- The entries of settings are alike, but for the kinds of the numbers in a viewport. -/
def Metadata.EntryEqByValue (e f : Scalar × Value) : Prop :=
  e.1 = f.1 ∧ (e.2 = f.2 ∨ e.1 = .text "viewport" ∧
    ∃ p q, e.2 = .map p ∧ f.2 = .map q ∧ Fields.EqByValue p q)

/-- The graphs are alike, but for the kinds of the numbers in positions and in the viewport. -/
structure Graph.EqByValue (g h : Graph) : Prop where
  nodes : List.Forall₂ Node.EqByValue g.nodes h.nodes
  edges : g.edges = h.edges
  metadata : List.Forall₂ Metadata.EntryEqByValue g.metadata h.metadata

section
variable {raw : Fields} {s : Spec} {m : Metadata}

/-- The parts of an export that was read. -/
structure Spec.ReadFrom (raw : Fields) (s : Spec) : Prop where
  nodes : ∀ n ∈ s.nodes, ∃ es, NodeSpec.ReadFrom es n
  edges : ∀ e ∈ s.edges, ∃ es, EdgeSpec.ReadFrom es e
  metadata : s.metadata = Metadata.default ∨
    ∃ es, Table.get? raw (.text "metadata") = some (.map es) ∧ Metadata.ofFields es = .ok s.metadata

theorem Record.exists_of_read {α : Type} {name : Text} {check : Fields → Checked α} {v : Value}
    {a : α} (h : Record.read name check v = .ok a) : ∃ es, v = .map es ∧ check es = .ok a := by
  cases v with
  | map es => exact ⟨es, rfl, (Record.guarded_eq_ok.1 h).2⟩
  | _ => cases h

theorem Spec.optional_of_check (h : Export.check (.map raw) = .ok s) :
    Record.optional raw ["nodes"] [] (items NodeSpec.ofValue) = .ok s.nodes ∧
    Record.optional raw ["edges"] [] (items EdgeSpec.ofValue) = .ok s.edges ∧
    Record.optional raw ["metadata"] Metadata.default (Record.read "WorkflowMetadata" Metadata.check) =
      .ok s.metadata := by
  have hread : Spec.ofValue (.map raw) = .ok s := by
    unfold Export.check at h
    split at h <;> cases h
    assumption
  obtain ⟨raw', hraw, hcheck⟩ := Record.exists_of_read hread
  cases hraw
  simp only [Spec.check, Checked.map_eq_ok, Checked.and_eq_ok] at hcheck
  obtain ⟨_, ⟨hnodes, hedges, hmeta, -⟩, rfl⟩ := hcheck
  exact ⟨hnodes, hedges, hmeta⟩

theorem Spec.readFrom_of_check (h : Export.check (.map raw) = .ok s) : ReadFrom raw s := by
  obtain ⟨hnodes, hedges, hmeta⟩ := optional_of_check h
  refine ⟨fun n hn => ?_, fun e he => ?_, ?_⟩
  · obtain hnil | ⟨-, -, v, -, hitems⟩ := Record.of_optional hnodes
    · rw [hnil] at hn
      cases hn
    · obtain ⟨w, hw⟩ := Spec.of_items hitems n hn
      obtain ⟨es, -, hes⟩ := Record.exists_of_read hw
      exact ⟨es, NodeSpec.check_eq_ok.1 hes⟩
  · obtain hnil | ⟨-, -, v, -, hitems⟩ := Record.of_optional hedges
    · rw [hnil] at he
      cases he
    · obtain ⟨w, hw⟩ := Spec.of_items hitems e he
      obtain ⟨es, -, hes⟩ := Record.exists_of_read hw
      exact ⟨es, EdgeSpec.check_eq_ok.1 hes⟩
  · obtain hd | ⟨t, ht, v, hv, hread⟩ := Record.of_optional hmeta
    · exact .inl hd
    · obtain rfl := List.mem_singleton.1 ht
      cases v with
      | map es => exact .inr ⟨es, hv, hread⟩
      | _ => cases hread

/-- Lists of records that can be read, with settings that can be read, make up an export. -/
theorem Spec.check_of_records {nodes edges : List Fields} {settings : Fields}
    {ns : List NodeSpec} {es : List EdgeSpec}
    (hn : List.Forall₂ (fun r n => NodeSpec.ofValue (.map r) = .ok n) nodes ns)
    (he : List.Forall₂ (fun r e => EdgeSpec.ofValue (.map r) = .ok e) edges es)
    (hm : Metadata.ofFields settings = .ok m) :
    Export.check (.map [("nodes", .list (nodes.map Value.map)),
      ("edges", .list (edges.map Value.map)), ("metadata", .map settings)]) = .ok ⟨ns, es, m⟩ := by
  have hdeclared : Record.HasDeclared declared [("nodes", .list (nodes.map Value.map)),
      ("edges", .list (edges.map Value.map)), ("metadata", .map settings)] := by
    simp only [Record.HasDeclared, List.forall_mem_cons]
    exact ⟨⟨_, rfl, by decide⟩, ⟨_, rfl, by decide⟩, ⟨_, rfl, by decide⟩, nofun⟩
  have hread : Spec.ofValue (.map [("nodes", .list (nodes.map Value.map)),
      ("edges", .list (edges.map Value.map)), ("metadata", .map settings)]) = .ok ⟨ns, es, m⟩ := by
    refine Record.read_of_hasDeclared (by decide) hdeclared ?_
    simp only [Spec.check, Checked.map_eq_ok, Checked.and_eq_ok]
    refine ⟨(ns, es, m, []), ⟨?_, ?_, ?_, Record.noExtras_of_declared hdeclared⟩, rfl⟩
    · exact Record.optional_of_get? rfl (Spec.items_list (List.forall₂_map_left_iff.2 hn))
    · exact Record.optional_of_get? rfl (Spec.items_list (List.forall₂_map_left_iff.2 he))
    · exact Record.optional_of_get? rfl hm
  rw [Export.check, hread]

/-- The records of nodes that were read are read as those nodes. -/
theorem NodeSpec.exists_records {ns : List NodeSpec} (h : ∀ n ∈ ns, ∃ es, ReadFrom es n) :
    ∃ rs ms, (ns.map toNode).mapM Node.toRecord? = .ok rs ∧
      List.Forall₂ (fun r m => ofValue (.map r) = .ok m) rs ms ∧
      List.Forall₂ Node.EqByValue (ms.map toNode) (ns.map toNode) := by
  induction ns with
  | nil => exact ⟨[], [], rfl, .nil, .nil⟩
  | cons n ns ih =>
    obtain ⟨⟨es, hes⟩, h⟩ := List.forall_mem_cons.1 h
    obtain ⟨rs, ms, hrs, hms, hsame⟩ := ih h
    obtain ⟨r, m, hr, hm, hid, htype, hdata, hposition⟩ :=
      exists_ofValue (areNumbers_position hes) (hasNames_data hes)
    refine ⟨r :: rs, m :: ms, ?_, .cons hm hms, .cons ⟨?_, ?_, ?_, .some hposition⟩ hsame⟩
    · rw [List.map_cons, List.mapM_cons, hr, hrs]
      rfl
    · exact congrArg Scalar.text hid
    · exact congrArg Value.text htype
    · exact congrArg some hdata

private theorem EdgeSpec.exists_records {es : List EdgeSpec} (h : ∀ e ∈ es, ∃ raw, ReadFrom raw e) :
    ∃ fs, List.Forall₂ (fun r f => ofValue (.map r) = .ok f)
        ((es.map toEdge).map Edge.toRecord) fs ∧ fs.map toEdge = es.map toEdge := by
  have hread : ∀ e ∈ es, ∃ f, ofValue (.map e.toEdge.toRecord) = .ok f ∧ f.toEdge = e.toEdge := by
    intro e he
    obtain ⟨raw, hraw⟩ := h e he
    exact exists_ofValue (hasNames_data hraw)
  obtain ⟨fs, hfs⟩ := exists_forall₂ hread
  refine ⟨fs, ?_, map_eq_of_forall₂ hfs fun e f hef => hef.2⟩
  rw [List.map_map]
  exact List.forall₂_map_left_iff.2 (hfs.imp fun e f hef => hef.1)

/-- Sound settings are written and read again with a viewport of the same numbers. -/
theorem Metadata.exists_ofFields (h : m.IsSound) : ∃ m', ofFields m.toFields = .ok m' ∧
    List.Forall₂ EntryEqByValue m'.toFields m.filled.toFields := by
  obtain ⟨viewport, hread, hvalue⟩ := ofFields_ownFields h h.extras
  rw [toFields_of_areExtras h.extras]
  refine ⟨_, hread, ?_⟩
  rw [toFields_of_areExtras (m := { m.filled with viewport, extras := m.extras }) h.extras,
    toFields_of_areExtras (m := m.filled) h.extras]
  have hsame (x : Fields) : List.Forall₂ EntryEqByValue x x :=
    List.forall₂_same.2 fun _ _ => ⟨rfl, .inl rfl⟩
  have hviewport : List.Forall₂ EntryEqByValue [("viewport", .map viewport)]
      [("viewport", .map m.viewport)] := .cons ⟨rfl, .inr ⟨rfl, _, _, rfl, rfl, hvalue⟩⟩ .nil
  exact List.rel_append (List.rel_append (hsame (m.filled.ownFields.take 9)) hviewport)
    (hsame m.extras)

/-- The settings are the defaults where none are given. -/
theorem Spec.keepsApart_of_check (h : Export.check (.map raw) = .ok s)
    (hraw : ∀ es, Table.get? raw (.text "metadata") = some (.map es) →
      ∀ e ∈ es, ∀ os, e.1 ≠ .bytes os) : s.metadata.KeepsApart := by
  obtain hd | ⟨es, hes, hread⟩ := (Spec.readFrom_of_check h).metadata
  · rw [hd]
    exact Metadata.keepsApart_default
  · exact Metadata.keepsApart_of_ofFields (hraw es hes) hread

/-- The export with the defaults for an empty name and an empty description of the workflow. -/
def Spec.filled (s : Spec) : Spec := { s with metadata := s.metadata.filled }

private theorem Spec.filled_eq_self :
    s.filled = s ↔ s.metadata.name ≠ Text.empty ∧ s.metadata.description ≠ Text.empty := by
  rw [← Metadata.filled_eq_self]
  exact ⟨fun h => congrArg Spec.metadata h, fun h => by rw [filled, h]⟩

/-- An export that was read is, once its graph is written out as records, read again, and gives the
same graph, with the defaults for an empty name and an empty description. -/
theorem check_toRecord (h : Export.check (.map raw) = .ok s) (ha : s.metadata.KeepsApart) :
    ∃ es s', s.toGraph.toRecord? = .ok es ∧ Export.check (.map es) = .ok s' ∧
      s'.toGraph.EqByValue s.filled.toGraph ∧
      (s.filled = s ↔ s.metadata.name ≠ Text.empty ∧ s.metadata.description ≠ Text.empty) := by
  obtain ⟨hnodes, hedges, hmeta⟩ := Spec.readFrom_of_check h
  have hsound : s.metadata.IsSound := by
    obtain hd | ⟨es, -, hread⟩ := hmeta
    · rw [hd]
      exact Metadata.isSound_default
    · exact Metadata.isSound_of_ofFields hread ha
  obtain ⟨rs, ms, hrs, hms, hsame⟩ := NodeSpec.exists_records hnodes
  obtain ⟨fs, hfs, hback⟩ := EdgeSpec.exists_records hedges
  obtain ⟨m, hm, hfields⟩ := Metadata.exists_ofFields hsound
  refine ⟨_, ⟨ms, fs, m⟩, ?_, Spec.check_of_records hms hfs hm, ⟨hsame, hback, hfields⟩,
    Spec.filled_eq_self⟩
  rw [Graph.toRecord?, Spec.toGraph, hrs]
  simp only [List.map_map]
  rfl

/-- An export with other names for the ends, ids that are numbers, missing or empty, keys that are
numbers, two of which become one text, settings under both names of an entry, and a description of no
octets. -/
def unevenExport : Fields :=
  [("nodes", .list [
      .map [("id", .int 7), ("type", "ifNode"), ("note", "dropped"),
        ("data", .map [(.int 1, "a"), ("1", .map [(.int 2, .null)]), (.double (.ofInt 1), "b")])],
      .map [("position", .map [("x", "2.5"), (.int 3, .bool true)]), ("id", "b")]]),
    ("edges", .tuple [
      .map [("to", "b"), ("from", .int 7), ("label", .null), ("id", "")],
      .map [("source", "b"), ("from", "c"), ("target", .int 7), ("label", .int 1), ("data", .map [])]]),
    ("metadata", .map [("execution_mode", "old"), ("executionMode", "parallel"), ("name", ""),
      ("description", .scalar (.bytes [])), ("timeout", " 0_5.0"), ("theme", .set [.null])])]

theorem check_toRecord_uneven : ∃ s es s', Export.check (.map unevenExport) = .ok s ∧
    s.toGraph.toRecord? = .ok es ∧ Export.check (.map es) = .ok s' ∧
    s'.toGraph.EqByValue s.filled.toGraph := by
  obtain ⟨s, h⟩ : ∃ s, Export.check (.map unevenExport) = .ok s :=
    exists_of_isSome (by decide +kernel)
  have hapart : s.metadata.KeepsApart := by
    refine Spec.keepsApart_of_check h fun es hes => ?_
    cases hes
    simp
  obtain ⟨es, s', hes, hs', hsame, -⟩ := check_toRecord h hapart
  exact ⟨s, es, s', h, hes, hs', hsame⟩

/-- An export whose name is given as no octets. -/
def namelessExport : Fields := [("metadata", .map [("name", .scalar (.bytes []))])]

/-- It is read with an empty name, which is read as the default the next time. -/
theorem not_check_toRecord :
    ¬ ∀ (raw : Fields) (s : Spec), Export.check (.map raw) = .ok s → ∃ es s',
      s.toGraph.toRecord? = .ok es ∧ Export.check (.map es) = .ok s' ∧
      s'.toGraph.EqByValue s.toGraph := by
  intro h
  have hread : Export.check (.map namelessExport) =
      .ok ⟨[], [], { Metadata.default with name := Text.empty }⟩ := by decide +kernel
  obtain ⟨es, s', hes, hs', hsame⟩ := h _ _ hread
  cases hes
  let first (s : Spec) : Option (Scalar × Value) := s.metadata.toFields.head?
  have hname : (Export.check (.map [("nodes", .list []), ("edges", .list []),
      ("metadata", .map { Metadata.default with name := Text.empty }.toFields)])).toOption.map
        first = some (some (.text "name", .text "Untitled Workflow")) := by
    decide +kernel
  obtain ⟨s, hs, hhead⟩ := exists_of_map hname
  cases hs'.symm.trans hs
  obtain ⟨fs, hfs⟩ := List.head?_eq_some_iff.1 hhead
  have hentries : List.Forall₂ Metadata.EntryEqByValue
      ((.text "name", .text "Untitled Workflow") :: fs)
      { Metadata.default with name := Text.empty }.toFields := hfs ▸ hsame.metadata
  obtain ⟨-, hvalue | ⟨hkey, -⟩⟩ := (List.forall₂_cons.1 hentries).1
  · cases hvalue
  · cases hkey

end

end Flowchart
