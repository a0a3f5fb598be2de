import Flowchart.Proofs.Connection
/-! What the ids in a document refer to. Entries are chosen by role and by whether edges end at a
trigger, references are read off the edges; the two differ for the triggers at which edges end. -/
namespace Flowchart

def Document.HasAction (d : Document) (k : Key) : Prop := ∃ a ∈ d.actions, a.id.key = k

def Document.HasCondition (d : Document) (k : Key) : Prop := ∃ c ∈ d.conditions, c.id.key = k

def Document.HasEntry (d : Document) (k : Key) : Prop :=
  (∃ t ∈ d.shownTriggers, t.id.key = k) ∨ d.HasAction k ∨ d.HasCondition k

/-- Every id that the document refers to is that of an entry of the kind that belongs there, or one
of the strays. What is nested under a branch is never a stray. -/
structure Document.RefersWithin (d : Document) (stray : Key → Prop) : Prop where
  dependencies : ∀ x ∈ d.dependencyLists, ∀ q ∈ keys x.2, d.HasEntry q ∨ stray q
  branches : ∀ c ∈ d.conditions, ∀ b : Branch, b.Under c.routing.paths →
    ∀ r ∈ b.actions, d.HasAction r.key ∨ stray r.key
  groups : ∀ g ∈ d.groups, ∀ r ∈ g.actions, d.HasAction r.key ∨ stray r.key
  nested : ∀ c ∈ d.conditions, ∀ b : Branch, b.Under c.routing.paths →
    ∀ x ∈ b.nested, d.HasCondition x.node.key

/-- The id is that of a trigger at which an edge ends. -/
def IsEnteredTriggerAt (nodes : List Node) (edges : List Edge) (k : Key) : Prop :=
  ∃ n ∈ nodes, n.key = k ∧ n.IsEnteredTrigger edges

section
variable {nodes : List Node} {edges : List Edge} {settings : Metadata.Source} {d : Document}
  {n : Node} {r : ActionRef} {k : Key}

private theorem hasAction_of_role (h : CompiledFrom nodes edges d) (hn : (nodes.map Node.key).Nodup)
    (hmem : n ∈ nodes) (hr : n.role = .action ∨ n.role = .custom) : d.HasAction n.key := by
  refine exists_actionEntry h (List.mem_filter.2 ⟨hmem, ?_⟩)
  rw [roleOf_of_nodup hn hmem]
  rcases hr with hr | hr <;> rw [hr] <;> rfl

/-- An id has an entry as a condition when all of its nodes are conditions: the last of them decides
that there is an entry, and then one is made for each. -/
theorem hasCondition_iff (h : CompiledFrom nodes edges d) : d.HasCondition k ↔
    (∃ n ∈ nodes, n.key = k) ∧ ∀ n ∈ nodes, n.key = k → n.isCondition = true := by
  constructor
  · rintro ⟨c, hc, rfl⟩
    obtain ⟨n, hn, hentry⟩ := exists_of_forall₂ h.conditions hc
    obtain ⟨hmem, hrole⟩ := List.mem_filter.1 hn
    rw [(of_conditionEntry hentry).1]
    refine ⟨⟨n, hmem, rfl⟩, fun m hm hk => ?_⟩
    exact isCondition_of_mem_conditionNodes h (List.mem_filter.2 ⟨hm, by rwa [hk]⟩)
  · rintro ⟨⟨n, hmem, rfl⟩, hall⟩
    obtain ⟨m, hm, hk, hrole⟩ := exists_roleOf hmem
    have hcond : m.role = .condition := by simpa [Node.isCondition] using hall m hm hk
    have hnode : n ∈ Document.conditionNodes nodes :=
      List.mem_filter.2 ⟨hmem, decide_eq_true (hrole.trans hcond)⟩
    obtain ⟨c, hc, hentry⟩ := exists_of_forall₂ h.conditions.flip hnode
    exact ⟨c, hc, congrArg Scalar.key (of_conditionEntry hentry).1⟩

private theorem hasCondition_of_isCondition (h : CompiledFrom nodes edges d)
    (hn : (nodes.map Node.key).Nodup) (hmem : n ∈ nodes) (hc : n.isCondition = true) :
    d.HasCondition n.key :=
  (hasCondition_iff h).2 ⟨⟨n, hmem, rfl⟩, fun _ hm hk => eq_of_key_eq hn hm hmem hk ▸ hc⟩

private theorem mem_shownTriggers {t : TriggerEntry} (ht : t ∈ d.triggers) :
    t ∈ d.shownTriggers := by
  rwa [shownTriggers_of_ne_nil (List.ne_nil_of_mem ht)]

private theorem exists_trigger_of_isRoot (h : CompiledFrom nodes edges d)
    (hn : (nodes.map Node.key).Nodup) (hmem : n ∈ nodes) (hr : n.IsRoot (attached nodes edges)) :
    ∃ t ∈ d.shownTriggers, t.id.key = n.key := by
  have hnode : n ∈ Document.rootNodes nodes (attached nodes edges) := by
    rw [rootNodes_of_nodup hn]
    exact List.mem_filter.2 ⟨hmem, decide_eq_true hr⟩
  obtain ⟨t, ht, hentry⟩ := exists_of_forall₂ h.triggers.flip hnode
  exact ⟨t, mem_shownTriggers ht, congrArg Scalar.key (of_triggerEntry hentry).1⟩

private theorem hasEntry_or_enteredTrigger (h : CompiledFrom nodes edges d)
    (hn : (nodes.map Node.key).Nodup) (hmem : n ∈ nodes) :
    d.HasEntry n.key ∨ n.IsEnteredTrigger (attached nodes edges) := by
  cases hr : n.role with
  | trigger =>
    by_cases he : ∃ e ∈ attached nodes edges, e.head = n.key
    · exact .inr ⟨hr, he⟩
    · refine .inl (.inl (exists_trigger_of_isRoot h hn hmem ⟨hr, fun e hmem hk => ?_⟩))
      exact he ⟨e, hmem, hk⟩
  | action => exact .inl (.inr (.inl (hasAction_of_role h hn hmem (.inl hr))))
  | custom => exact .inl (.inr (.inl (hasAction_of_role h hn hmem (.inr hr))))
  | condition =>
    have hc : n.isCondition = true := by simp [Node.isCondition, hr]
    exact .inl (.inr (.inr (hasCondition_of_isCondition h hn hmem hc)))

/-- What an edge leads to as an action is one, or a trigger at which that edge ends. -/
theorem hasAction_of_comesAlong (h : CompiledFrom nodes edges d) (hn : (nodes.map Node.key).Nodup)
    (hr : ComesAlong nodes (attached nodes edges) r) :
    d.HasAction r.key ∨ IsEnteredTriggerAt nodes (attached nodes edges) r.key := by
  obtain ⟨e, he, n, p, hat, -, rfl⟩ := hr
  obtain ⟨hl, hc⟩ := actionAt_eq_some.1 hat
  have hmem : n ∈ nodes := mem_of_lookup hl
  change d.HasAction n.key ∨ IsEnteredTriggerAt nodes (attached nodes edges) n.key
  cases hr : n.role with
  | trigger => exact .inr ⟨n, hmem, rfl, hr, e, he, (key_of_lookup hl).symm⟩
  | action => exact .inl (hasAction_of_role h hn hmem (.inl hr))
  | custom => exact .inl (hasAction_of_role h hn hmem (.inr hr))
  | condition => simp [Node.isCondition, hr] at hc

theorem comesAlong_of_mem_groups (h : (compile nodes edges settings).result = .ok d) {g : Group}
    (hg : g ∈ d.groups) (hr : r ∈ g.actions) :
    ∃ s, ComesAlong nodes (attached nodes edges) s ∧ s.key = r.key := by
  obtain ⟨c, -, -, b, hb, i, hgroup⟩ := exists_branchOf_of_mem_groups h hg
  have hk : r.key ∈ b.actions.map ActionRef.key := keys_group? hgroup ▸ List.mem_map_of_mem hr
  obtain ⟨s, hs, hk⟩ := List.mem_map.1 hk
  exact ⟨s, comesAlong_branchOf (fun e he => (mem_branchEdges.1 he).1) hb s hs, hk⟩

/-- When no two nodes share an id, the ids that a document refers to are those of its entries: of
actions in branches at any depth and in groups, of conditions under branches, of any entry among
dependencies. Only a trigger at which an edge ends is referred to without an entry. -/
theorem refersWithin_of_compile (hn : (nodes.map Node.key).Nodup)
    (h : (compile nodes edges settings).result = .ok d) :
    d.RefersWithin (IsEnteredTriggerAt nodes (attached nodes edges)) where
  dependencies x hx q hq := by
    have hdoc := compiledFrom_of_compile h
    obtain ⟨e, he, rfl, -⟩ := (mem_dependencies? (dependencies_of_mem hdoc hx)).1 hq
    obtain ⟨m, hl⟩ := exists_lookup_of_isAttached (List.mem_filter.1 he).2
    rw [← key_of_lookup hl]
    refine (hasEntry_or_enteredTrigger hdoc hn (mem_of_lookup hl)).imp_right fun hm => ?_
    exact ⟨m, mem_of_lookup hl, rfl, hm⟩
  branches c hc b hb r hr := by
    have hdoc := compiledFrom_of_compile h
    obtain ⟨n, -, hbs⟩ := exists_branches_of_mem_conditions hdoc hc
    rw [← hbs] at hb
    exact hasAction_of_comesAlong hdoc hn (comesAlong_of_under hb hr)
  groups g hg r hr := by
    obtain ⟨s, hs, hk⟩ := comesAlong_of_mem_groups h hg hr
    rw [← hk]
    exact hasAction_of_comesAlong (compiledFrom_of_compile h) hn hs
  nested c hc b hb x hx := by
    have hdoc := compiledFrom_of_compile h
    obtain ⟨n, -, hbs⟩ := exists_branches_of_mem_conditions hdoc hc
    rw [← hbs] at hb
    obtain ⟨m, hm, hid, hcond⟩ := isCondition_of_under hb hx
    rw [← hid]
    exact hasCondition_of_isCondition hdoc hn hm hcond

theorem refersWithin_of_compile_relay :
    ∃ d, (compile relayNodes relayEdges (.value .null)).result = .ok d ∧
      d.RefersWithin (IsEnteredTriggerAt relayNodes (attached relayNodes relayEdges)) ∧
      IsEnteredTriggerAt relayNodes (attached relayNodes relayEdges) (.text "t") := by
  obtain ⟨d, hd⟩ := compile_relay
  refine ⟨d, hd, refersWithin_of_compile (by decide) hd, ?_⟩
  exact ⟨⟨"t", "emailTrigger", some [], some []⟩, by decide, rfl, by decide +kernel⟩

/-- A trigger inside a branch is among the actions of the branch and has no entry. -/
theorem not_refersWithin_entries :
    ¬ ∀ (nodes : List Node) (edges : List Edge) (settings : Metadata.Source) (d : Document),
      (nodes.map Node.key).Nodup → (compile nodes edges settings).result = .ok d →
        d.RefersWithin fun _ => False := by
  intro h
  have hparts : (compile relayNodes relayEdges (.value .null)).result.toOption.map
      (fun d => (keys (d.actions.map ActionEntry.id),
        d.groups.map fun g => g.actions.map ActionRef.key)) =
      some (keys ["a", "x"], [keys ["t", "a"], keys ["x"]]) := by decide +kernel
  obtain ⟨d, hd, hparts⟩ := exists_of_map hparts
  obtain ⟨hactions, hgroups⟩ := Prod.mk.inj hparts
  obtain ⟨g, hg, hks⟩ : ∃ g ∈ d.groups, g.actions.map ActionRef.key = keys ["t", "a"] :=
    List.mem_map.1 (hgroups ▸ List.mem_cons_self)
  obtain ⟨r, hr, hk⟩ : ∃ r ∈ g.actions, r.key = .text "t" :=
    List.mem_map.1 (hks ▸ List.mem_cons_self)
  obtain ⟨a, ha, hka⟩ | hstray := (h _ _ _ d (by decide) hd).groups g hg r hr
  · have hmem : .text "t" ∈ keys (d.actions.map ActionEntry.id) :=
      List.mem_map.2 ⟨a.id, List.mem_map_of_mem ha, hka.trans hk⟩
    rw [hactions] at hmem
    exact absurd hmem (by decide)
  · exact hstray

end

end Flowchart
