import Flowchart.Document.Compile
import Flowchart.Proofs.Branch
/-! What a compiled document is made of: each part with the nodes and edges that it comes from. -/
namespace Flowchart

/-- The parts of a document that a graph is compiled to. -/
structure CompiledFrom (nodes : List Node) (edges : List Edge) (d : Document) : Prop where
  scalarTypes : ∀ n ∈ nodes, n.type.isScalar = true
  triggers : List.Forall₂ (fun n t => TriggerEntry.ofNode? n = .ok t)
    (Document.rootNodes nodes (attached nodes edges)) d.triggers
  actions : List.Forall₂ (fun n a => ActionEntry.ofNode? (attached nodes edges) n = .ok a)
    (Document.actionNodes nodes) d.actions
  conditions : List.Forall₂
    (fun n c => ConditionEntry.ofNode? nodes (attached nodes edges) n = .ok c)
    (Document.conditionNodes nodes) d.conditions
  named : ∀ c ∈ d.conditions, c.isNamed = true
  joinPoints : joinPoints? nodes (attached nodes edges) = .ok d.joinPoints
  connections : d.connections = (attached nodes edges).map Connection.ofEdge
  nodes : d.nodes = nodes

section
variable {nodes : List Node} {edges : List Edge} {settings : Metadata.Source} {d : Document}
  {n : Node} {m : Metadata}

theorem compiledFrom_of_compile (h : (compile nodes edges settings).result = .ok d) :
    CompiledFrom nodes edges d := by
  unfold compile at h
  simp only [Document.assemble?] at h
  split at h
  · next hall =>
    obtain ⟨ts, hts, h⟩ := bind_eq_ok h
    obtain ⟨as, has, h⟩ := bind_eq_ok h
    obtain ⟨cs, hcs, h⟩ := bind_eq_ok h
    split at h
    · next hnamed =>
      obtain ⟨js, hjs, h⟩ := bind_eq_ok h
      cases h
      exact ⟨List.all_eq_true.1 hall, forall₂_of_mapM hts, forall₂_of_mapM has,
        forall₂_of_mapM hcs, List.all_eq_true.1 hnamed, hjs, rfl, rfl⟩
    · cases h
  · cases h

/-- Settings go into a document as they are and have no part in the rest. -/
theorem of_assemble? (h : Document.assemble? nodes edges m = .ok d) : d.metadata = m ∧
    ∀ m', Document.assemble? nodes edges m' = .ok { d with metadata := m' } := by
  unfold Document.assemble? at h ⊢
  split at h
  · next ht =>
    obtain ⟨triggers, htriggers, h⟩ := bind_eq_ok h
    obtain ⟨actions, hactions, h⟩ := bind_eq_ok h
    obtain ⟨conditions, hconditions, h⟩ := bind_eq_ok h
    split at h
    · next hnamed =>
      obtain ⟨joins, hjoins, h⟩ := bind_eq_ok h
      cases h
      refine ⟨rfl, fun m' => ?_⟩
      simp only [if_pos ht, htriggers, hactions, hconditions, if_pos hnamed, hjoins, ok_bind]
      rfl
    · cases h
  · cases h

theorem metadata_of_compile (h : (compile nodes edges settings).result = .ok d) :
    d.metadata = (Metadata.coerce settings).1 := (of_assemble? h).1

/-- Where something is read off the document, there is a document. -/
theorem exists_of_groups {gs : List Group}
    (h : (compile nodes edges settings).result.toOption.map Document.groups = some gs) :
    ∃ d, (compile nodes edges settings).result = .ok d ∧ d.groups = gs := exists_of_map h

/-- Only a condition sets an expression. -/
private theorem isCondition_of_details {e o v b : Value}
    (h : n.settings.details = .condition e o v b) : n.isCondition = true := by
  simp only [Node.settings, Settings.ofNode, Settings.Details.ofNode] at h
  split at h
  · cases h
  · next hr => simp [Node.isCondition, hr]
  · cases h
  · split at h <;> cases h

/-- The entry of a condition holds its own branches. -/
theorem of_conditionEntry {c : ConditionEntry} (h : ConditionEntry.ofNode? nodes edges n = .ok c) :
    c.id = n.id ∧ n.isCondition = true ∧ branches? nodes edges [] n = .ok c.routing.paths := by
  unfold ConditionEntry.ofNode? at h
  obtain ⟨paths, hp, h⟩ := bind_eq_ok h
  split at h
  · next hd =>
    obtain ⟨data, -, h⟩ := bind_eq_ok h
    obtain ⟨deps, -, h⟩ := bind_eq_ok h
    cases h
    exact ⟨rfl, isCondition_of_details hd, hp⟩
  · cases h

theorem of_actionEntry {a : ActionEntry} (h : ActionEntry.ofNode? edges n = .ok a) :
    a.id = n.id ∧ a.type = n.type ∧ dependencies? edges n.key = .ok a.dependencies := by
  unfold ActionEntry.ofNode? at h
  obtain ⟨data, -, h⟩ := bind_eq_ok h
  obtain ⟨deps, hd, h⟩ := bind_eq_ok h
  cases h
  exact ⟨rfl, rfl, hd⟩

theorem dependencies_of_conditionEntry {c : ConditionEntry}
    (h : ConditionEntry.ofNode? nodes edges n = .ok c) :
    dependencies? edges n.key = .ok c.dependencies := by
  unfold ConditionEntry.ofNode? at h
  obtain ⟨paths, -, h⟩ := bind_eq_ok h
  split at h
  · obtain ⟨data, -, h⟩ := bind_eq_ok h
    obtain ⟨deps, hd, h⟩ := bind_eq_ok h
    cases h
    exact hd
  · cases h

theorem of_triggerEntry {t : TriggerEntry} (h : TriggerEntry.ofNode? n = .ok t) :
    t.id = n.id ∧ t.type = n.type := by
  unfold TriggerEntry.ofNode? at h
  obtain ⟨data, -, h⟩ := bind_eq_ok h
  cases h
  exact ⟨rfl, rfl⟩

theorem perm_of_sorted? {ids ss : List Scalar} (h : sorted? ids = .ok ss) : ss.Perm ids := by
  simp only [sorted?] at h
  split at h
  · cases h
    exact .refl _
  · split at h <;> cases h
    exact List.mergeSort_perm _ _

theorem exists_lookup_of_isAttached {e : Edge} (h : e.isAttached nodes = true) :
    ∃ n, lookup nodes e.tail = some n := (isAttached_iff.1 h).1

/-- The dependencies of an id are the sources of the edges that end there. -/
theorem mem_dependencies? {k q : Key} {deps : List Scalar} (h : dependencies? edges k = .ok deps) :
    q ∈ deps.map Scalar.key ↔ Leads edges q k := by
  simp only [List.mem_map, (perm_of_sorted? h).mem_iff]
  constructor
  · rintro ⟨s, hs, rfl⟩
    obtain ⟨e, he, rfl⟩ := List.mem_map.1 (mem_of_mem_distinctOn hs)
    obtain ⟨he, hh⟩ := mem_incoming.1 he
    exact ⟨e, he, rfl, hh⟩
  · rintro ⟨e, he, rfl, hh⟩
    exact exists_mem_distinctOn (List.mem_map_of_mem (mem_incoming.2 ⟨he, hh⟩))

/-- The paths of a condition are the branches of its node. -/
theorem exists_branches_of_mem_conditions (h : CompiledFrom nodes edges d) {c : ConditionEntry}
    (hc : c ∈ d.conditions) :
    ∃ n, n.id = c.id ∧ branches nodes (attached nodes edges) [] n = c.routing.paths := by
  obtain ⟨n, -, hn⟩ := exists_of_forall₂ h.conditions hc
  obtain ⟨hid, -, hbs⟩ := of_conditionEntry hn
  exact ⟨n, hid.symm, branches?_eq_ok hbs⟩

/-- The document lists `b` among the dependencies of `a`. -/
def Document.DependsOn (d : Document) (a b : Key) : Prop :=
  ∃ x ∈ d.actions, x.id.key = a ∧ b ∈ x.dependencies.map Scalar.key

theorem dependsOn_iff_leads (h : CompiledFrom nodes edges d) {a b : Key} :
    d.DependsOn a b ↔ (∃ x ∈ d.actions, x.id.key = a) ∧ Leads (attached nodes edges) b a := by
  have deps {x : ActionEntry} (hx : x ∈ d.actions) :
      b ∈ x.dependencies.map Scalar.key ↔ Leads (attached nodes edges) b x.id.key := by
    obtain ⟨n, -, hn⟩ := exists_of_forall₂ h.actions hx
    obtain ⟨hid, -, hdeps⟩ := of_actionEntry hn
    rw [mem_dependencies? hdeps, hid, Node.key]
  constructor
  · rintro ⟨x, hx, rfl, hb⟩
    exact ⟨⟨x, hx, rfl⟩, (deps hx).1 hb⟩
  · rintro ⟨⟨x, hx, rfl⟩, hb⟩
    exact ⟨x, hx, rfl, (deps hx).2 hb⟩

theorem exists_actionEntry (h : CompiledFrom nodes edges d) (hn : n ∈ Document.actionNodes nodes) :
    ∃ x ∈ d.actions, x.id.key = n.key := by
  obtain ⟨x, hx, hxn⟩ := exists_of_forall₂ h.actions.flip hn
  exact ⟨x, hx, congrArg Scalar.key (of_actionEntry hxn).1⟩

theorem isCondition_of_mem_conditionNodes (h : CompiledFrom nodes edges d)
    (hn : n ∈ Document.conditionNodes nodes) : n.isCondition = true := by
  obtain ⟨c, -, hc⟩ := exists_of_forall₂ h.conditions.flip hn
  exact (of_conditionEntry hc).2.1

/-- No action shares its id with a node that is compiled as a condition. -/
theorem noAction_of_mem_conditionNodes (h : CompiledFrom nodes edges d)
    (hn : n ∈ Document.conditionNodes nodes) : NoAction nodes [n.key] := by
  intro k hk m hm
  refine isCondition_of_mem_conditionNodes h (List.mem_filter.2 ⟨mem_of_lookup hm, ?_⟩)
  rw [key_of_lookup hm, List.mem_singleton.1 hk]
  exact (List.mem_filter.1 hn).2

end

end Flowchart
