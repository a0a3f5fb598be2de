import Flowchart.Proofs.Depth
import Flowchart.Proofs.Entry
import Flowchart.Proofs.Group
/-! The connections of a document and what its parts say of them. Dependencies, triggers, branches
and groups are each read off the edges on their own; all of them agree with the connections. -/
namespace Flowchart

/-- The ids differ, and are in order: texts by their code points. -/
def Scalar.Before (a b : Scalar) : Prop := a.atMost? b = some true ∧ a.key ≠ b.key

section
variable {ids ss deps : List Scalar} {edges : List Edge} {k : Key}

/-- Ids of which each two have an order are sorted by it. -/
private theorem pairwise_of_sorted? (h : sorted? ids = .ok ss) :
    ss.Pairwise fun a b => a.atMost? b = some true := by
  simp only [sorted?] at h
  split at h
  · next hlt =>
    cases h
    rcases ids with _ | ⟨a, _ | ⟨b, rest⟩⟩
    · exact .nil
    · exact List.pairwise_singleton _ _
    · simp only [List.length_cons] at hlt
      omega
  · split at h <;> cases h
    next hall =>
    have hsome {a b : Scalar} (ha : a ∈ ids) (hb : b ∈ ids) :
        (a.atMost? b).getD true = true ↔ a.atMost? b = some true := by
      have hab := List.all_eq_true.1 (List.all_eq_true.1 hall a ha) b hb
      obtain ⟨r, hr⟩ := Option.isSome_iff_exists.1 hab
      simp [hr]
    have hsorted : (ids.mergeSort fun a b => (a.atMost? b).getD true).Pairwise
        fun a b => (a.atMost? b).getD true = true := by
      refine pairwise_mergeSort_of_mem (fun a ha b hb c hc hab hbc => ?_) fun a ha b hb => ?_
      · rw [hsome ha hb] at hab
        rw [hsome hb hc] at hbc
        exact (hsome ha hc).2 (Scalar.atMost?_trans hab hbc)
      · rw [hsome ha hb, hsome hb ha]
        exact Scalar.atMost?_total (List.all_eq_true.1 (List.all_eq_true.1 hall a ha) b hb)
    exact hsorted.imp_of_mem fun ha hb hab =>
      (hsome (List.mem_mergeSort.1 ha) (List.mem_mergeSort.1 hb)).1 hab

/-- The dependencies of an id are listed in order, each once. -/
theorem pairwise_dependencies? (h : dependencies? edges k = .ok deps) :
    deps.Pairwise Scalar.Before := by
  have hnodup : (deps.map Scalar.key).Nodup := by
    rw [((perm_of_sorted? h).map Scalar.key).nodup_iff]
    exact nodup_map_distinctOn Scalar.key _
  exact (pairwise_of_sorted? h).and (List.pairwise_map.1 hnodup)

end

/-- A connection of the document leads from `a` to `b`. -/
def Document.Connects (d : Document) (a b : Key) : Prop :=
  ∃ c ∈ d.connections, c.source.key = a ∧ c.target.key = b

/-- The ids of the actions and the conditions, each with what it depends on. -/
def Document.dependencyLists (d : Document) : List (Scalar × List Scalar) :=
  d.actions.map (fun a => (a.id, a.dependencies)) ++
    d.conditions.map fun c => (c.id, c.dependencies)

section
variable {nodes : List Node} {edges : List Edge} {settings : Metadata.Source} {d : Document}
  {a b : Key} {r : ActionRef}

private theorem connects_iff_leads (h : CompiledFrom nodes edges d) :
    d.Connects a b ↔ Leads (attached nodes edges) a b := by
  simp only [Document.Connects, h.connections, List.mem_map, exists_exists_and_eq_and]
  rfl

theorem dependencies_of_mem (h : CompiledFrom nodes edges d) {x : Scalar × List Scalar}
    (hx : x ∈ d.dependencyLists) : dependencies? (attached nodes edges) x.1.key = .ok x.2 := by
  rcases List.mem_append.1 hx with hx | hx
  · obtain ⟨y, hy, rfl⟩ := List.mem_map.1 hx
    obtain ⟨n, -, hn⟩ := exists_of_forall₂ h.actions hy
    obtain ⟨hid, -, hdeps⟩ := of_actionEntry hn
    rwa [Node.key, ← hid] at hdeps
  · obtain ⟨y, hy, rfl⟩ := List.mem_map.1 hx
    obtain ⟨n, -, hn⟩ := exists_of_forall₂ h.conditions hy
    have hdeps := dependencies_of_conditionEntry hn
    rwa [Node.key, ← (of_conditionEntry hn).1] at hdeps

private theorem leads_of_followsEdge (h : FollowsEdge edges r) :
    ∀ p ∈ r.dependsOn, Leads edges p.key r.key := by
  obtain ⟨q, hq, hl⟩ := h
  intro p hp
  rw [hq] at hp
  rwa [List.mem_singleton.1 hp]

private theorem not_leads_of_mem_triggers (h : CompiledFrom nodes edges d) {t : TriggerEntry}
    (ht : t ∈ d.triggers) : ¬ Leads (attached nodes edges) a t.id.key := by
  rintro ⟨e, he, -, hk⟩
  obtain ⟨n, hn, hentry⟩ := exists_of_forall₂ h.triggers ht
  obtain ⟨-, hroot⟩ := List.mem_filter.1 hn
  rw [(of_triggerEntry hentry).1] at hk
  simp only [Bool.and_eq_true, Bool.not_eq_true', isTarget, List.any_eq_false] at hroot
  exact hroot.2 e he (decide_eq_true hk)

private theorem followsEdge_of_mem_groups (h : (compile nodes edges settings).result = .ok d)
    {g : Group} (hg : g ∈ d.groups) (hm : g.mode ≠ .sequential) (hr : r ∈ g.actions) :
    FollowsEdge (attached nodes edges) r := by
  obtain ⟨c, -, -, b, hb, i, hgroup⟩ := exists_branchOf_of_mem_groups h hg
  obtain ⟨-, -, ⟨-, ha⟩ | ⟨hs, -⟩⟩ := group?_eq_some hgroup
  · rw [ha] at hr
    obtain ⟨s, hs, rfl⟩ := List.mem_map.1 hr
    exact followsEdge_branchOf (fun e he => (mem_branchEdges.1 he).1) hb s hs
  · exact absurd hs hm

/-- There is one connection for each attached edge, in the order of the edges. The dependencies of
an action or a condition are the sources of the connections that end there, in order and each once;
none ends at a trigger that has an entry; and a connection leads to each action of a branch at any
depth, and of a group that is run in parallel, from every id that it waits for. -/
theorem connections_agree (h : (compile nodes edges settings).result = .ok d) :
    List.Forall₂ (fun e c => c.id = e.id ∧ c.source = e.source ∧ c.target = e.target)
      (attached nodes edges) d.connections ∧
    (∀ x ∈ d.dependencyLists, x.2.Pairwise Scalar.Before ∧
      ∀ q, q ∈ keys x.2 ↔ d.Connects q x.1.key) ∧
    (∀ t ∈ d.triggers, ∀ q, ¬ d.Connects q t.id.key) ∧
    (∀ c ∈ d.conditions, ∀ b : Branch, b.Under c.routing.paths →
      ∀ r ∈ b.actions, ∀ p ∈ r.dependsOn, d.Connects p.key r.key) ∧
    ∀ g ∈ d.groups, g.mode ≠ .sequential →
      ∀ r ∈ g.actions, ∀ p ∈ r.dependsOn, d.Connects p.key r.key := by
  have hdoc := compiledFrom_of_compile h
  simp only [connects_iff_leads hdoc]
  refine ⟨?_, fun x hx => ?_, fun t ht q => not_leads_of_mem_triggers hdoc ht,
    fun c hc b hb r hr => ?_, fun g hg hm r hr => ?_⟩
  · rw [hdoc.connections, List.forall₂_map_right_iff, List.forall₂_same]
    exact fun e _ => ⟨rfl, rfl, rfl⟩
  · have hdeps := dependencies_of_mem hdoc hx
    exact ⟨pairwise_dependencies? hdeps, fun q => mem_dependencies? hdeps⟩
  · obtain ⟨n, -, hbs⟩ := exists_branches_of_mem_conditions hdoc hc
    rw [← hbs] at hb
    exact leads_of_followsEdge (followsEdge_of_comesAlong (comesAlong_of_under hb hr))
  · exact leads_of_followsEdge (followsEdge_of_mem_groups h hg hm hr)

theorem connections_agree_relay :
    ∃ d deps, (compile relayNodes relayEdges (.value .null)).result = .ok d ∧
      (.text "a", deps) ∈ d.dependencyLists ∧ deps.Pairwise Scalar.Before ∧
      .text "l" ∈ keys deps ∧ .text "t" ∈ keys deps ∧ .text "s" ∉ keys deps ∧
      ∀ t ∈ d.triggers, ¬ d.Connects (.text "gone") t.id.key := by
  obtain ⟨d, hd⟩ := compile_relay
  obtain ⟨-, hlisted, hroots, -, -⟩ := connections_agree hd
  have hdoc := compiledFrom_of_compile hd
  have hids : d.actions.map ActionEntry.id = ["a", "x"] := ids_actions hdoc (by decide)
  obtain ⟨a, ha, hid⟩ : ∃ a ∈ d.actions, a.id = "a" :=
    List.mem_map.1 (hids ▸ List.mem_cons_self)
  have hmem : (.text "a", a.dependencies) ∈ d.dependencyLists :=
    List.mem_append_left _ (List.mem_map.2 ⟨a, ha, Prod.ext hid rfl⟩)
  obtain ⟨hsorted, hdeps⟩ := hlisted _ hmem
  have hleads (q : Key) : q ∈ keys a.dependencies ↔
      ∃ e ∈ attached relayNodes relayEdges, e.tail = q ∧ e.head = .text "a" :=
    (hdeps q).trans (connects_iff_leads hdoc)
  refine ⟨d, a.dependencies, hd, hmem, hsorted, (hleads _).2 ?_, (hleads _).2 ?_,
    fun hs => absurd ((hleads _).1 hs) ?_, fun t ht => hroots t ht _⟩
  · decide +kernel
  · decide +kernel
  · decide +kernel

end

end Flowchart
