import Flowchart.Proofs.Depth
import Flowchart.Proofs.Group
import Flowchart.Proofs.Join
import Flowchart.Proofs.Reload
import Flowchart.Proofs.Writable
/-! Documents that can be written out. Apart from texts of its own, a document has its values from the
data of nodes and edges and from the settings, so it can be written where those can. -/
namespace Flowchart

namespace Metadata
variable {raw : Fields} {m : Metadata}

/-- No entry of the settings stops the writer. -/
structure IsWritable (m : Metadata) : Prop where
  settings : ∀ s : Setting, (s.toValue m).IsWritable
  extras : (Value.map m.extras).IsWritable

private theorem isWritable_default : default.IsWritable := by
  have hwritten {i : Int} (hi : i.natAbs < Nat.pow 10 19) : (Scalar.int i).isWritten = true :=
    Scalar.isWritten_of_lt hi
  refine ⟨fun s => ?_, Value.isWritable_map_nil⟩
  cases s <;> simp [Setting.toValue, Setting.get, Form.toValue, default, hwritten]

private theorem IsWritable.ownFields (h : m.IsWritable) : (Value.map m.ownFields).IsWritable :=
  Value.isWritable_map.2 (List.forall_mem_map.2 fun s _ => ⟨trivial, rfl, h.settings s⟩)

/-- What is read from a value that can be written can be written. -/
theorem Form.isWritable_of_read {f : Form} {v : Value} {x : f.Kind} (hv : v.IsWritable)
    (h : f.read v = .ok x) : (f.toValue x).IsWritable := by
  cases f with
  | text => exact Value.isWritable_scalar.2 rfl
  | truth => exact Value.isWritable_scalar.2 rfl
  | integer => exact Value.isWritable_scalar.2 (Lenient.isWritten_of_integer hv h)
  | mapping => exact Lenient.isWritable_of_mapping hv h
  | numbers => exact Lenient.isWritable_of_numbers h

/-- The settings that are read from a mapping that can be written can be written. -/
theorem isWritable_of_readFrom (hraw : (Value.map raw).IsWritable) (h : ReadFrom raw m) :
    m.IsWritable := by
  constructor
  · intro s
    obtain hd | ⟨e, he, -, hread⟩ := h.cases s
    · rw [Setting.toValue, hd]
      exact isWritable_default.settings s
    · refine Form.isWritable_of_read ?_ hread
      split
      · exact isWritable_default.settings s
      · exact (Value.isWritable_map.1 hraw e he).2.2
  · refine Value.isWritable_map.2 fun e he => ?_
    obtain ⟨t, ht, -, r, hr, -, hv⟩ := (Record.of_extras h.extras).2 e he
    rw [ht, ← hv]
    exact ⟨trivial, rfl, (Value.isWritable_map.1 hraw r hr).2.2⟩

private theorem isWritable_coerce (hraw : (Value.map raw).IsWritable) :
    (coerce (.value (.map raw))).1.IsWritable := by
  obtain hd | hs | ⟨v, raw', kept, hv, hraw', hkept, hread⟩ := coerce_cases (.value (.map raw))
  · rw [hd]
    exact isWritable_default
  · cases hs
  · cases hv
    cases hraw'
    refine isWritable_of_readFrom (Value.isWritable_map.2 fun e he => ?_) (ofFields_eq_ok.1 hread).2
    exact Value.isWritable_map.1 hraw e (hkept.subset he)

end Metadata

/-- The id is a text, and nothing else of the node stops the writer. -/
structure Node.IsWritable (n : Node) : Prop where
  id : ∃ t, n.id = .text t
  type : n.type.IsWritable
  position : n.positionValue.IsWritable
  data : n.dataValue.IsWritable

/-- The ends are texts, and nothing else of the edge stops the writer. -/
structure Edge.IsWritable (e : Edge) : Prop where
  id : e.id.isWritten = true
  source : ∃ t, e.source = .text t
  target : ∃ t, e.target = .text t
  label : e.label.IsWritable
  type : e.type.IsWritable
  data : e.dataValue.IsWritable

section
variable {n : Node} {e : Edge} {s : Scalar}

private theorem Scalar.isWritten_of_text (h : ∃ t, s = .text t) : s.isWritten = true := by
  obtain ⟨t, rfl⟩ := h
  rfl

private theorem isWritable_fields {fs : Option Fields} (h : (fs.elim .null Value.map).IsWritable) :
    (Value.map (fs.getD [])).IsWritable := by
  cases fs with
  | none => simp
  | some fs => exact h

namespace Node.IsWritable

private theorem fields (h : n.IsWritable) : (Value.map n.fields).IsWritable :=
  isWritable_fields h.data

private theorem valueOr (h : n.IsWritable) {name : Text} {d : Value} (hd : d.IsWritable) :
    (n.fields.valueOr name d).IsWritable := Fields.isWritable_valueOr h.fields name hd

/-- The settings of the node have their values from its data. -/
theorem details (h : n.IsWritable) : (Value.map n.settings.details.toFields).IsWritable := by
  change (Value.map (Settings.Details.ofNode n).toFields).IsWritable
  have hthree : (Scalar.int 3).isWritten = true := Scalar.isWritten_of_lt (by decide)
  have hthousand : (Scalar.int 1000).isWritten = true := Scalar.isWritten_of_lt (by decide)
  unfold Settings.Details.ofNode
  split
  · simp [Settings.Details.toFields, h.valueOr, Fields.isWritable_value h.fields]
  · simp [Settings.Details.toFields, h.valueOr]
  · simp [Settings.Details.toFields, h.valueOr, Settings.retryDefault, hthree, hthousand]
  · split
    · simp [Settings.Details.toFields, h.valueOr]
    · simpa [Settings.Details.toFields] using h.fields

end Node.IsWritable

namespace Edge.IsWritable

private theorem fields (h : e.IsWritable) : (Value.map e.fields).IsWritable :=
  isWritable_fields h.data

private theorem valueOr (h : e.IsWritable) {name : Text} {d : Value} (hd : d.IsWritable) :
    (e.fields.valueOr name d).IsWritable := Fields.isWritable_valueOr h.fields name hd

private theorem branch (h : e.IsWritable) : e.branch.IsWritable :=
  Value.isWritable_orElse h.label (h.valueOr (by simp))

end Edge.IsWritable

/-! ## The entries of a document -/

private theorem TriggerEntry.isWritable_toValue {t : TriggerEntry} (hn : n.IsWritable)
    (h : ofNode? n = .ok t) : t.toValue.IsWritable := by
  unfold ofNode? at h
  obtain ⟨data, hdata, h⟩ := bind_eq_ok h
  cases h
  rw [← Node.fields_of_fields? hdata]
  have hsettings : (Value.map n.settings.toFields).IsWritable := by
    have hposition : n.settings.position.IsWritable := hn.position
    have hlabel : n.settings.label.IsWritable := hn.valueOr (by simp)
    simp [Settings.toFields, hposition, hlabel, hn.details]
  simp [toValue, Scalar.isWritten_of_text hn.id, hn.type, hn.valueOr, hsettings]

private theorem isWritable_dependencies? {edges : List Edge} {k : Key} {deps : List Scalar}
    (he : ∀ e ∈ edges, e.IsWritable) (h : dependencies? edges k = .ok deps) :
    (ids deps).IsWritable := by
  refine Value.isWritable_list.2 (List.forall_mem_map.2 fun s hs => Value.isWritable_scalar.2 ?_)
  obtain ⟨e, hmem, rfl⟩ :=
    List.mem_map.1 (mem_of_mem_distinctOn ((perm_of_sorted? h).mem_iff.1 hs))
  exact Scalar.isWritten_of_text (he e (mem_incoming.1 hmem).1).source

private theorem ActionEntry.isWritable_toValue {edges : List Edge} {a : ActionEntry}
    (hn : n.IsWritable)
    (he : ∀ e ∈ edges, e.IsWritable) (h : ofNode? edges n = .ok a) : a.toValue.IsWritable := by
  unfold ofNode? at h
  obtain ⟨data, hdata, h⟩ := bind_eq_ok h
  obtain ⟨deps, hdeps, h⟩ := bind_eq_ok h
  cases h
  rw [← Node.fields_of_fields? hdata]
  have hposition : n.settings.position.IsWritable := hn.position
  have hlabel : n.settings.label.IsWritable := hn.valueOr (by simp)
  have hretry : Settings.retryDefault.IsWritable := by
    simp [Settings.retryDefault, Scalar.isWritten_of_lt]
  have hparameters : (parametersOf n.settings.details).IsWritable := by
    have hdetails := hn.details
    cases hd : n.settings.details <;> simp_all [parametersOf, Settings.Details.toFields]
  have hpolicy : (retryPolicyOf n.settings.details).IsWritable := by
    have hdetails := hn.details
    cases hd : n.settings.details <;> simp_all [retryPolicyOf, Settings.Details.toFields]
  simp [toValue, Scalar.isWritten_of_text hn.id, hn.type, hn.valueOr, hposition, hlabel,
    hparameters, hpolicy, isWritable_dependencies? he hdeps]

private theorem Connection.isWritable_toValue (he : e.IsWritable) :
    (ofEdge e).toValue.IsWritable := by
  have hlabel : (e.label.orElse "").IsWritable := Value.isWritable_orElse he.label (by simp)
  have htype : (e.type.orElse "default").IsWritable := Value.isWritable_orElse he.type (by simp)
  have hconditions := Fields.isWritable_value he.fields "conditions"
  simp [toValue, ofEdge, he.id, Scalar.isWritten_of_text he.source,
    Scalar.isWritten_of_text he.target, hlabel, htype, hconditions]

end

section
variable {nodes : List Node} {edges own : List Edge} {visited : List Key} {n c : Node} {e : Edge}
  {source : Scalar} {b : Branch} {r : ActionRef} {rs : List ActionRef}

private theorem ActionRef.isWritable_of_comesAlong (hn : ∀ n ∈ nodes, n.IsWritable)
    (he : ∀ e ∈ edges, e.IsWritable) (h : ComesAlong nodes edges r) : r.toValue.IsWritable := by
  obtain ⟨e, hmem, n, p, hat, htail, rfl⟩ := h
  obtain ⟨hl, -⟩ := actionAt_eq_some.1 hat
  have hnode := hn n (mem_of_lookup hl)
  obtain ⟨t, ht⟩ := (he e hmem).source
  have hp : p = .text t := Scalar.key_eq_text.1 (htail.symm.trans (congrArg Scalar.key ht))
  have hzero : (Scalar.int 0).isWritten = true := Scalar.isWritten_of_lt (by decide)
  simp [toValue, ofEdge, Scalar.isWritten_of_text hnode.id, hnode.type, (he e hmem).valueOr, hzero,
    hp]

private theorem Branch.pathValues_eq_map (bs : List Branch) : pathValues bs = bs.map toValue := by
  induction bs with
  | nil => rfl
  | cons b bs ih => rw [pathValues, ih, List.map_cons]

private theorem Branch.isWritable_nestedValues {xs : List (Nested Branch)}
    (h : ∀ x ∈ xs, x.node.isWritten = true ∧ x.type.IsWritable ∧
      ∀ b ∈ x.paths, b.toValue.IsWritable) : ∀ v ∈ nestedValues xs, v.IsWritable := by
  induction xs with
  | nil => exact nofun
  | cons x xs ih =>
    obtain ⟨node, type, paths⟩ := x
    obtain ⟨⟨hnode, htype, hpaths⟩, hrest⟩ := List.forall_mem_cons.1 h
    rw [nestedValues, pathValues_eq_map]
    refine List.forall_mem_cons.2 ⟨?_, ih hrest⟩
    have hlist : (Value.list (paths.map toValue)).IsWritable :=
      Value.isWritable_list.2 (List.forall_mem_map.2 hpaths)
    simp [-Value.isWritable_list, hnode, htype, hlist]

/-- Branches at any depth can be written. -/
theorem Branch.isWritable_toValue (hn : ∀ n ∈ nodes, n.IsWritable)
    (he : ∀ e ∈ edges, e.IsWritable) :
    ∀ b ∈ branches nodes edges visited c, b.toValue.IsWritable := by
  induction visited, c using branches.induct nodes edges with
  | case1 visited c hc =>
    rw [branches_of_mem hc]
    exact nofun
  | case2 visited c hc out ih =>
    intro b hb
    have hb := branchOf_of_mem hb
    generalize b.label.key? = label at hb
    have hown {e : Edge} (hmem : e ∈ branchEdges edges c.key label) : e ∈ outgoing edges c.key :=
      (mem_branchEdges.1 hmem).1
    have hactions := comesAlong_branchOf (fun e => hown) hb
    have hlists : (Value.list (b.actions.map ActionRef.toValue)).IsWritable ∧
        (Value.list (nestedValues b.nested)).IsWritable := by
      refine ⟨Value.isWritable_list.2 (List.forall_mem_map.2 fun r hr => ?_),
        Value.isWritable_list.2 (isWritable_nestedValues fun x hx => ?_)⟩
      · exact ActionRef.isWritable_of_comesAlong hn he (hactions r hr)
      · obtain ⟨e, hmem, m, hl, -, rfl⟩ := exists_edge_of_mem_nested hb hx
        have hm := hn m (mem_of_lookup hl)
        exact ⟨Scalar.isWritten_of_text hm.id, hm.type, ih e (hown hmem) m⟩
    obtain ⟨first, hfirst, rfl⟩ := Option.map_eq_some_iff.1 hb
    have hedge : first.IsWritable :=
      he first (mem_outgoing.1 (hown (List.mem_of_mem_head? hfirst))).1
    simp [-Value.isWritable_list, toValue, hedge.branch, hedge.valueOr, hlists]

private theorem ConditionEntry.isWritable_toValue {x : ConditionEntry}
    (hn : ∀ n ∈ nodes, n.IsWritable)
    (he : ∀ e ∈ edges, e.IsWritable) (hmem : n ∈ nodes) (h : ofNode? nodes edges n = .ok x) :
    x.toValue.IsWritable := by
  unfold ofNode? at h
  obtain ⟨paths, hpaths, h⟩ := bind_eq_ok h
  have hlist : (Value.list (paths.map Branch.toValue)).IsWritable := by
    rw [← branches?_eq_ok hpaths]
    exact Value.isWritable_list.2 (List.forall_mem_map.2 (Branch.isWritable_toValue hn he))
  have hnode := hn n hmem
  split at h
  · next expression operator value _ hdetails =>
    obtain ⟨data, hdata, h⟩ := bind_eq_ok h
    obtain ⟨deps, hdeps, h⟩ := bind_eq_ok h
    cases h
    rw [← Node.fields_of_fields? hdata]
    have hown := hnode.details
    rw [hdetails] at hown
    simp only [Settings.Details.toFields, Value.isWritable_map_cons] at hown
    have hlimit : (Scalar.int (-1)).isWritten = true := Scalar.isWritten_of_lt (by decide)
    have htimeout : (Scalar.int 300000).isWritten = true := Scalar.isWritten_of_lt (by decide)
    simp [-Value.isWritable_list, toValue, Routing.toValue, Routing.ofData,
      Scalar.isWritten_of_text hnode.id, hnode.type, hnode.valueOr, hown, hlist, hlimit, htimeout,
      isWritable_dependencies? he hdeps]
  · cases h

private theorem ActionRef.isWritable_toValue_iff : r.toValue.IsWritable ↔ r.node.isWritten = true ∧
    r.type.IsWritable ∧ r.order.IsWritable ∧ ∀ p ∈ r.dependsOn, p.isWritten = true := by
  simp [toValue]

/-- In a chain the places of the actions have to be written. -/
theorem Group.isWritable_chain {i : Nat} {before : List Scalar}
    (hb : ∀ p ∈ before, p.isWritten = true) (hr : ∀ r ∈ rs, r.toValue.IsWritable)
    (hi : ∀ j : Nat, j < i + rs.length → (Scalar.int j).isWritten = true) :
    ∀ r ∈ chain i before rs, r.toValue.IsWritable := by
  induction rs generalizing i before with
  | nil => exact nofun
  | cons r rs ih =>
    obtain ⟨hr, hrs⟩ := List.forall_mem_cons.1 hr
    obtain ⟨hnode, htype, -, -⟩ := ActionRef.isWritable_toValue_iff.1 hr
    rw [chain, List.forall_mem_cons]
    constructor
    · exact ActionRef.isWritable_toValue_iff.2 ⟨hnode, htype,
        Value.isWritable_scalar.2 (hi i (by simp)), hb⟩
    · refine ih (List.forall_mem_singleton.2 hnode) hrs fun j hj => hi j ?_
      rw [List.length_cons]
      omega

/-- A branch has no more actions than there are nodes. -/
theorem length_actions_le (hown : ∀ e ∈ own, e ∈ outgoing edges source.key)
    (hb : branchOf nodes edges visited source own = some b) : b.actions.length ≤ nodes.length := by
  have hsub : b.actions.map ActionRef.key ⊆ nodes.map Node.key := by
    intro k hk
    obtain ⟨r, hr, rfl⟩ := List.mem_map.1 hk
    obtain ⟨e, -, n, p, hat, -, rfl⟩ := comesAlong_branchOf hown hb r hr
    exact List.mem_map_of_mem (mem_of_lookup (actionAt_eq_some.1 hat).1)
  have hle := (List.subperm_of_subset (nodup_keys_branchOf hb) hsub).length_le
  rwa [List.length_map, List.length_map] at hle

private theorem Group.isWritable_toValue {g : Group} {i : Nat} (hn : ∀ n ∈ nodes, n.IsWritable)
    (he : ∀ e ∈ edges, e.IsWritable)
    (hcount : ∀ j : Nat, j < nodes.length → (Scalar.int j).isWritten = true)
    (hown : ∀ e ∈ own, e ∈ outgoing edges source.key) (hs : source.isWritten = true)
    (hb : branchOf nodes edges visited source own = some b) (h : b.group? source i = some g) :
    g.toValue.IsWritable := by
  have hactions : ∀ r ∈ b.actions, r.toValue.IsWritable := fun r hr =>
    ActionRef.isWritable_of_comesAlong hn he (comesAlong_branchOf hown hb r hr)
  have hchain : ∀ r ∈ chain 0 [] b.actions, r.toValue.IsWritable := by
    refine isWritable_chain nofun hactions fun j hj => hcount j ?_
    have hle := length_actions_le hown hb
    omega
  have hparallel : ∀ r ∈ b.actions.map ({ · with parallel := true }), r.toValue.IsWritable := by
    refine List.forall_mem_map.2 fun r hr => ?_
    obtain ⟨hnode, htype, horder, hdeps⟩ := ActionRef.isWritable_toValue_iff.1 (hactions r hr)
    exact ActionRef.isWritable_toValue_iff.2 ⟨hnode, htype, horder, hdeps⟩
  have hlist {rs : List ActionRef} (hr : ∀ r ∈ rs, r.toValue.IsWritable) :
      (Value.list (rs.map ActionRef.toValue)).IsWritable :=
    Value.isWritable_list.2 (List.forall_mem_map.2 hr)
  obtain ⟨first, hfirst, rfl⟩ := Option.map_eq_some_iff.1 hb
  have hedge : first.IsWritable :=
    he first (mem_outgoing.1 (hown first (List.mem_of_mem_head? hfirst))).1
  have hlimit : (Scalar.int (-1)).isWritten = true := Scalar.isWritten_of_lt (by decide)
  simp only [Branch.group?] at h
  split at h
  · cases h
    simp [-Value.isWritable_list, -List.map_map, toValue, hs, hedge.branch, hedge.valueOr, hlimit,
      hlist hparallel]
  · split at h <;> cases h
    simp [-Value.isWritable_list, toValue, hs, hedge.branch, hlist hchain]

private theorem JoinPoint.isWritable_toValue {j : JoinPoint} {t : Scalar}
    (hn : ∀ n ∈ nodes, n.IsWritable) (he : ∀ e ∈ edges, e.IsWritable) (ht : t.isWritten = true)
    (h : at? nodes edges t = .ok (some j)) : j.toValue.IsWritable := by
  obtain ⟨rfl, hlists, -⟩ := of_at? h
  obtain ⟨data, hdata, htype, htimeout, honTimeout⟩ := settings_of_at? h
  have hfields : (Value.map data).IsWritable := by
    cases hl : lookup nodes j.node.key with
    | none =>
      rw [hl] at hdata
      cases hdata
      exact Value.isWritable_map_nil
    | some n =>
      rw [hl] at hdata
      rw [← Node.fields_of_fields? hdata]
      exact (hn n (mem_of_lookup hl)).fields
  have hvalueOr {name : Text} {d : Value} (hd : d.IsWritable) : (data.valueOr name d).IsWritable :=
    Fields.isWritable_valueOr hfields name hd
  have hbranches : (Value.list (j.branches.map IncomingBranch.toValue)).IsWritable := by
    refine Value.isWritable_list.2 (List.forall_mem_map.2 fun b hb => ?_)
    obtain ⟨e, hmem, hbe⟩ := exists_of_forall₂ hlists hb
    have hedge := he e (mem_incoming.1 hmem).1
    obtain ⟨walk, hwalk, rfl⟩ := ofEdge?_eq_ok.1 hbe
    have hparent : (walk.found.elim Value.null (Value.scalar ∘ Node.id)).IsWritable := by
      cases hf : walk.found with
      | none => exact Value.isWritable_scalar.2 rfl
      | some c =>
        obtain ⟨-, hl, -⟩ := feeds_of_parentCondition? hwalk hf
        exact Value.isWritable_scalar.2 (Scalar.isWritten_of_text (hn c (mem_of_lookup hl)).id)
    simp [IncomingBranch.toValue, Scalar.isWritten_of_text hedge.source, hedge.branch, hparent]
  have hdefault : (Scalar.int 300000).isWritten = true := Scalar.isWritten_of_lt (by decide)
  simp [-Value.isWritable_list, toValue, ht, htype, htimeout, honTimeout, hvalueOr, hdefault,
    hbranches]

end

section
variable {nodes : List Node} {edges : List Edge} {settings : Metadata.Source} {d : Document}

/-- No entry of the document stops the writer. -/
structure Document.HasWritable (d : Document) : Prop where
  triggers : ∀ t ∈ d.triggers, t.toValue.IsWritable
  actions : ∀ a ∈ d.actions, a.toValue.IsWritable
  conditions : ∀ c ∈ d.conditions, c.toValue.IsWritable
  groups : ∀ g ∈ d.groups, g.toValue.IsWritable
  joinPoints : ∀ j ∈ d.joinPoints, j.toValue.IsWritable
  connections : ∀ x ∈ d.connections, x.toValue.IsWritable
  nodes : ∀ n ∈ d.nodes, (nodeValue n).IsWritable
  metadata : d.metadata.IsWritable

private theorem Document.HasWritable.toValue (h : d.HasWritable) : d.toValue.IsWritable := by
  have hshown : ∀ t ∈ d.shownTriggers, t.toValue.IsWritable := by
    rw [shownTriggers]
    split
    · simp [TriggerEntry.manual, TriggerEntry.toValue]
    · exact h.triggers
  have hlist {α : Type} {f : α → Value} {as : List α} (h : ∀ a ∈ as, (f a).IsWritable) :
      (Value.list (as.map f)).IsWritable := Value.isWritable_list.2 (List.forall_mem_map.2 h)
  have htimeout : (Scalar.int d.metadata.timeout).isWritten = true :=
    Value.isWritable_scalar.1 (h.metadata.settings .timeout)
  have hpolicy : (Value.map d.metadata.retryPolicy).IsWritable := h.metadata.settings .retryPolicy
  have hretries : (Scalar.int d.metadata.maxRetries).isWritten = true :=
    Value.isWritable_scalar.1 (h.metadata.settings .maxRetries)
  have hdelay : (Scalar.int d.metadata.retryDelay).isWritten = true :=
    Value.isWritable_scalar.1 (h.metadata.settings .retryDelay)
  have hviewport : (Value.map d.metadata.viewport).IsWritable := h.metadata.settings .viewport
  have hsettings : (settingsValue d).IsWritable := by
    simp [-Value.isWritable_list, settingsValue, htimeout, hpolicy, hretries, hdelay, hviewport,
      hlist h.conditions, hlist h.groups, hlist h.joinPoints, hlist h.connections, hlist h.nodes]
  rw [Document.toValue, toFields]
  split <;>
    simp [-Value.isWritable_list, hlist hshown, hlist h.actions, hsettings, h.metadata.extras]

/-- A document can be written where its nodes, its edges and its settings can, if there are not too
many nodes to number them. -/
theorem Document.isWritable_toValue (hn : ∀ n ∈ nodes, n.IsWritable)
    (he : ∀ e ∈ attached nodes edges, e.IsWritable) (hm : (Metadata.coerce settings).1.IsWritable)
    (hcount : Integer.isWritten nodes.length = true)
    (h : (compile nodes edges settings).result = .ok d) : d.toValue.IsWritable := by
  have hdoc := compiledFrom_of_compile h
  refine HasWritable.toValue {
    triggers := fun t ht => ?_
    actions := fun a ha => ?_
    conditions := fun c hc => ?_
    groups := fun g hg => ?_
    joinPoints := fun j hj => ?_
    connections := ?_
    nodes := ?_
    metadata := metadata_of_compile h ▸ hm }
  · obtain ⟨n, hmem, hnt⟩ := exists_of_forall₂ hdoc.triggers ht
    exact TriggerEntry.isWritable_toValue (hn n (List.mem_filter.1 hmem).1) hnt
  · obtain ⟨n, hmem, hna⟩ := exists_of_forall₂ hdoc.actions ha
    exact ActionEntry.isWritable_toValue (hn n (List.mem_filter.1 hmem).1) he hna
  · obtain ⟨n, hmem, hnc⟩ := exists_of_forall₂ hdoc.conditions hc
    exact ConditionEntry.isWritable_toValue hn he (List.mem_filter.1 hmem).1 hnc
  · obtain ⟨c, hc, hk, b, hb, i, hgroup⟩ := exists_branchOf_of_mem_groups h hg
    obtain ⟨t, ht⟩ := (hn c (List.mem_filter.1 hc).1).id
    have hid : g.condition = c.id := by
      rw [ht]
      exact Scalar.key_eq_text.1 (hk.symm.trans (congrArg Scalar.key ht))
    have hplace (j : Nat) (hj : j < nodes.length) : (Scalar.int j).isWritten = true := by
      have hlength := Scalar.isWritten_int.1 hcount
      exact Scalar.isWritten_int.2 (by omega)
    rw [hid] at hgroup
    exact Group.isWritable_toValue hn he hplace (fun e hmem => (mem_branchEdges.1 hmem).1)
      (Scalar.isWritten_of_text ⟨t, ht⟩) hb hgroup
  · obtain ⟨t, ht, hat⟩ := (mem_joinPoints? hdoc.joinPoints).1 hj
    obtain ⟨e, hmem, rfl⟩ := List.mem_map.1 (mem_of_mem_distinctOn ht)
    exact JoinPoint.isWritable_toValue hn he (Scalar.isWritten_of_text (he e hmem).target) hat
  · rw [hdoc.connections]
    exact List.forall_mem_map.2 fun e hmem => Connection.isWritable_toValue (he e hmem)
  · rw [hdoc.nodes]
    intro n hmem
    obtain ⟨hid, htype, hposition, hdata⟩ := hn n hmem
    simp [nodeValue, Scalar.isWritten_of_text hid, htype, hposition, hdata]

/-- The document holds the data of all its nodes. -/
theorem Document.isWritable_dataValue (h : d.toValue.IsWritable) {n : Node} (hn : n ∈ d.nodes) :
    n.dataValue.IsWritable := by
  have hsettings : (settingsValue d).IsWritable :=
    (Value.isWritable_map.1 h (("settings" : Text), settingsValue d)
      (by simp [toFields])).2.2
  simp only [settingsValue, Value.isWritable_map_cons, Value.isWritable_list,
    List.forall_mem_map] at hsettings
  obtain ⟨-, -, -, -, ⟨-, -, ⟨-, ⟨-, -, hnodes⟩, -⟩⟩, -⟩ := hsettings
  have hnode := hnodes n hn
  simp only [nodeValue, Value.isWritable_map_cons] at hnode
  exact hnode.2.2.2.1.2.2

end

/-- Nothing in the data of nodes, in the data of edges between nodes and in the settings stops the
writer, and the nodes are not too many to number them. -/
structure Graph.IsWritable (g : Graph) : Prop where
  nodes : ∀ n ∈ g.nodes, n.dataValue.IsWritable
  edges : ∀ e ∈ attached g.nodes g.edges, e.dataValue.IsWritable
  metadata : (Value.map g.metadata).IsWritable
  count : Integer.isWritten g.nodes.length = true

section
variable {t : Text} {g : Graph} {d : Document} {es : Fields}

private theorem NodeSpec.isWritable_toNode {n : NodeSpec} (h : ReadFrom es n)
    (hd : n.toNode.dataValue.IsWritable) : n.toNode.IsWritable where
  id := ⟨n.id, rfl⟩
  type := Value.isWritable_scalar.2 rfl
  position := by
    change (Value.map n.position).IsWritable
    obtain hp | ⟨-, -, v, -, hread⟩ := Record.of_optional h.position
    · rw [hp]
      simp [Node.origin, Scalar.isWritten_of_lt]
    · exact Lenient.isWritable_of_numbers hread
  data := hd

private theorem EdgeSpec.isWritable_toEdge (e : EdgeSpec) (hd : e.toEdge.dataValue.IsWritable) :
    e.toEdge.IsWritable where
  id := rfl
  source := ⟨e.source, rfl⟩
  target := ⟨e.target, rfl⟩
  label := by
    change (textOrNull e.label).IsWritable
    cases e.label <;> exact Value.isWritable_scalar.2 rfl
  type := by
    change (textOrNull e.type).IsWritable
    cases e.type <;> exact Value.isWritable_scalar.2 rfl
  data := hd

/-- What compiles from an import is a result in one step too if its document can be written, and with
the same document. That is so when the data and the settings can be written, and only when the data
of the nodes can. -/
theorem generate_of_load (hl : Export.load t = .ok g)
    (hd : (compile g.nodes g.edges (.value (.map g.metadata))).result = .ok d) :
    let out := (generate g.nodes g.edges (.value (.map g.metadata))).result
    ((∃ c, out = .ok c) ↔ d.toValue.IsWritable) ∧
    (∀ c, out = .ok c → c.document = d ∧ c.errors = documentErrors d.toValue) ∧
    (g.IsWritable → d.toValue.IsWritable) ∧
    (d.toValue.IsWritable → ∀ n ∈ g.nodes, n.dataValue.IsWritable) := by
  intro out
  refine ⟨⟨?_, fun hw => ?_⟩, fun c hc => ?_, fun hw => ?_, fun hw n hn => ?_⟩
  · rintro ⟨c, hc⟩
    obtain ⟨hdoc, hfault, -⟩ := generate_eq_ok.1 hc
    cases hd.symm.trans hdoc
    exact (Value.fault?_eq_none _).1 hfault
  · exact ⟨⟨d, documentErrors d.toValue⟩,
      generate_eq_ok.2 ⟨hd, (Value.fault?_eq_none _).2 hw, rfl⟩⟩
  · obtain ⟨hdoc, -, herrors⟩ := generate_eq_ok.1 hc
    cases hd.symm.trans hdoc
    exact ⟨rfl, herrors⟩
  · obtain ⟨es, s, -, hcheck, rfl⟩ := Export.load_eq_ok.1 hl
    obtain ⟨hnodes, -, -⟩ := Spec.readFrom_of_check hcheck
    refine Document.isWritable_toValue (fun n hn => ?_) (fun e he => ?_)
      (Metadata.isWritable_coerce hw.metadata) hw.count hd
    · obtain ⟨m, hm, rfl⟩ := List.mem_map.1 hn
      obtain ⟨raw, hraw⟩ := hnodes m hm
      exact NodeSpec.isWritable_toNode hraw (hw.nodes _ hn)
    · obtain ⟨m, -, rfl⟩ := List.mem_map.1 (List.mem_filter.1 he).1
      exact EdgeSpec.isWritable_toEdge m (hw.edges _ he)
  · rw [← (compiledFrom_of_compile hd).nodes] at hn
    exact Document.isWritable_dataValue hw hn

/-- A condition and an action with dates, a set and a mapping of numbers among their data. -/
def datedText : Text :=
  Text.joined "\n" ["nodes:", "- id: c", "  type: ifNode", "  data:", "    due: 2024-01-02",
    "    tally: {1: one, ~: none, 2.5: [half, !!set {x}]}", "- id: a", "  type: actionNode",
    "edges:", "- {from: c, to: a, label: go, data: {conditions: [2024-01-02]}}"]

def datedGraph : Graph :=
  let due : Value := .scalar (.date ⟨2024, 1, 2⟩)
  let half : Scalar := .double (.ofRatio false 5 2)
  ⟨[⟨"c", "ifNode", some Node.origin, some [("due", due),
      ("tally", .map [(.int 1, "one"), (.null, "none"), (half, .list ["half", .set ["x"]])])]⟩,
      ⟨"a", "actionNode", some Node.origin, some []⟩],
    [⟨Edge.derivedId "c" "a", "c", "a", "go", .null, some [("conditions", .list [due])]⟩],
    Metadata.default.toFields⟩

set_option maxRecDepth 10000 in
theorem generate_of_load_dated : Export.load datedText = .ok datedGraph ∧
    ∃ d, (compile datedGraph.nodes datedGraph.edges (.value (.map datedGraph.metadata))).result =
        .ok d ∧
      ∃ c, (generate datedGraph.nodes datedGraph.edges
          (.value (.map datedGraph.metadata))).result = .ok c ∧ c.document = d := by
  have hload : Export.load datedText = .ok datedGraph := by decide +kernel
  obtain ⟨d, hd⟩ : ∃ d, (compile datedGraph.nodes datedGraph.edges
      (.value (.map datedGraph.metadata))).result = .ok d := exists_of_isSome (by decide +kernel)
  have hdate (d : Date) : (Scalar.date d).isWritten = true := rfl
  have hone : (Scalar.int 1).isWritten = true := Scalar.isWritten_of_lt (by decide)
  have hwritable : datedGraph.IsWritable := by
    refine ⟨?_, ?_, ?_, Scalar.isWritten_of_lt (by decide)⟩
    · simp [datedGraph, Node.dataValue, Scalar.IsName, hdate, hone]
    · refine fun e he => ?_
      obtain rfl := List.mem_singleton.1 (List.mem_filter.1 he).1
      simp [Edge.dataValue, hdate]
    · exact Metadata.isWritable_default.ownFields
  obtain ⟨hiff, hsame, hdocument, -⟩ := generate_of_load hload hd
  obtain ⟨c, hc⟩ := hiff.2 (hdocument hwritable)
  exact ⟨hload, d, hd, c, hc, (hsame c hc).1⟩

/-- An action with a date as a key. -/
def datedKeyText : Text :=
  Text.joined "\n" ["nodes:", "- id: a", "  type: actionNode", "  data:", "    due: {2024-01-02: x}"]

def datedKeyGraph : Graph :=
  ⟨[⟨"a", "actionNode", some Node.origin,
      some [("due", .map [(.date ⟨2024, 1, 2⟩, "x")])]⟩], [], Metadata.default.toFields⟩

/-- The document of such an action cannot be written. -/
theorem not_generates_of_load :
    ¬ ∀ (t : Text) (g : Graph) (d : Document), Export.load t = .ok g →
      (compile g.nodes g.edges (.value (.map g.metadata))).result = .ok d →
      ∃ c, (generate g.nodes g.edges (.value (.map g.metadata))).result = .ok c ∧
        c.document = d ∧ c.errors = documentErrors d.toValue := by
  intro h
  have hload : Export.load datedKeyText = .ok datedKeyGraph := by decide +kernel
  obtain ⟨d, hd⟩ : ∃ d, (compile datedKeyGraph.nodes datedKeyGraph.edges
      (.value (.map datedKeyGraph.metadata))).result = .ok d := exists_of_isSome (by decide +kernel)
  have hnone : (generate datedKeyGraph.nodes datedKeyGraph.edges
      (.value (.map datedKeyGraph.metadata))).result.toOption.isNone = true := by decide +kernel
  obtain ⟨c, hc, -⟩ := h _ _ d hload hd
  rw [hc] at hnone
  cases hnone

end

end Flowchart
