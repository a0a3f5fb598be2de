import Flowchart.Proofs.Group
/-! The order in which a branch lists its actions: by the first of its edges from which an action
is reached, then by the number of edges on the way from there. A chain keeps that order, whatever
dependencies the document lists. -/
namespace Flowchart

section
variable {nodes : List Node} {edges own : List Edge} {visited seen : List Key} {e : Edge}
  {source : Scalar} {n : Node} {a b c k : Key} {ks : List Key}

/-- `b` stands before `a`. -/
def Precedes (ks : List Key) (b a : Key) : Prop := [b, a].Sublist ks

private theorem precedes_of_mem {before after : List Key} (hb : b ∈ before) :
    Precedes (before ++ a :: after) b a :=
  (List.singleton_sublist.2 hb).append (List.singleton_sublist.2 List.mem_cons_self)

/-- The `i`th of the edges leads to an action, and from there `m` edges lead to `k` through
actions. -/
def ReachedBy (nodes : List Node) (edges own : List Edge) (k : Key) (i m : Nat) : Prop :=
  ∃ e, own[i]? = some e ∧ (∃ n, actionAt nodes e = some n) ∧
    Walk (actionEdges nodes edges []) m e.head k

/-- `a` is reached from as early an edge as `b`, and if from the same then over as few others. -/
def NoLater (nodes : List Node) (edges own : List Edge) (a b : Key) : Prop :=
  ∀ i m, ReachedBy nodes edges own b i m →
    ∃ i' m', ReachedBy nodes edges own a i' m' ∧ (i' < i ∨ i' = i ∧ m' ≤ m)

private theorem reachedBy_cons_zero {m : Nat} : ReachedBy nodes edges (e :: own) k 0 m ↔
    (∃ n, actionAt nodes e = some n) ∧ Walk (actionEdges nodes edges []) m e.head k := by
  simp [ReachedBy]

private theorem reachedBy_cons_succ {i m : Nat} :
    ReachedBy nodes edges (e :: own) k (i + 1) m ↔ ReachedBy nodes edges own k i m := by
  simp [ReachedBy]

/-- An edge to an action leads to ids in the order of a visit. -/
private theorem keys_actionsAlong (h : NoAction nodes visited) (hn : actionAt nodes e = some n) :
    (actionsAlong nodes edges visited source e).map ActionRef.key =
      visitOrder (actionEdges nodes edges []) e.head := by
  have hk : n.id.key = e.head := head_of_actionAt hn
  have hkeys := @keys_following nodes edges n.id visited (not_mem_of_actionAt h hn)
  rw [actionEdges_of_noAction h, hk] at hkeys
  rw [actionsAlong, hn, List.map_cons, ← hkeys, key_ofEdge, Node.key, hk]

private theorem pairwise_keys_actionsAlong (own : List Edge) (h : NoAction nodes visited) :
    ((actionsAlong nodes edges visited source e).map ActionRef.key).Pairwise fun a b =>
      ∀ m, ReachedBy nodes edges (e :: own) b 0 m →
        ∃ m' ≤ m, ReachedBy nodes edges (e :: own) a 0 m' := by
  cases hn : actionAt nodes e with
  | none => simp [actionsAlong, hn]
  | some n =>
    rw [keys_actionsAlong h hn]
    refine pairwise_visitOrder.imp fun hab m hm => ?_
    obtain ⟨-, w⟩ := reachedBy_cons_zero.1 hm
    obtain ⟨m', hle, w'⟩ := hab m w
    exact ⟨m', hle, reachedBy_cons_zero.2 ⟨⟨n, hn⟩, w'⟩⟩

/-- What the first edge leads to is no later than what it leads to over as many edges, or not at
all. -/
private theorem noLater_of_first (hab : ∀ m, ReachedBy nodes edges (e :: own) b 0 m →
      ∃ m' ≤ m, ReachedBy nodes edges (e :: own) a 0 m')
    (ha : ∃ m, ReachedBy nodes edges (e :: own) a 0 m) : NoLater nodes edges (e :: own) a b := by
  intro i m hm
  cases i with
  | zero =>
    obtain ⟨m', hle, ha⟩ := hab m hm
    exact ⟨0, m', ha, .inr ⟨rfl, hle⟩⟩
  | succ i =>
    obtain ⟨m', ha⟩ := ha
    exact ⟨0, m', ha, .inl (Nat.succ_pos i)⟩

/-- An edge in front that does not lead to the later id changes nothing. -/
private theorem NoLater.cons (h : NoLater nodes edges own a b)
    (hb : ∀ m, ¬ ReachedBy nodes edges (e :: own) b 0 m) : NoLater nodes edges (e :: own) a b := by
  intro i m hm
  cases i with
  | zero => exact absurd hm (hb m)
  | succ i =>
    obtain ⟨i', m', ha, hle⟩ := h i m (reachedBy_cons_succ.1 hm)
    exact ⟨i' + 1, m', reachedBy_cons_succ.2 ha, by omega⟩

/-- Edges list what they lead to one after the other, and each id only once. -/
private theorem pairwise_novel_flatMap (h : NoAction nodes visited) :
    (novel (own.flatMap fun e => (actionsAlong nodes edges visited source e).map ActionRef.key)
      seen).Pairwise (NoLater nodes edges own) := by
  induction own generalizing seen with
  | nil => exact .nil
  | cons e own ih =>
    have hfirst (k : Key) : k ∈ (actionsAlong nodes edges visited source e).map ActionRef.key ↔
        ∃ m, ReachedBy nodes edges (e :: own) k 0 m := by
      simp only [mem_keys_actionsAlong h, reachedBy_cons_zero, reaches_iff_walk, exists_and_left]
    rw [List.flatMap_cons, novel_append, List.pairwise_append]
    have hpair := @pairwise_keys_actionsAlong nodes edges visited e source own h
    generalize (actionsAlong nodes edges visited source e).map ActionRef.key = L at hfirst hpair ⊢
    have hlead {a : Key} (ha : a ∈ novel L seen) : ∃ m, ReachedBy nodes edges (e :: own) a 0 m :=
      (hfirst a).1 ((novel_sublist L seen).subset ha)
    have hlate {b : Key} {ks : List Key} (hb : b ∈ novel ks (novel L seen ++ seen)) (m : Nat) :
        ¬ ReachedBy nodes edges (e :: own) b 0 m := by
      intro hm
      obtain ⟨-, hs⟩ := mem_novel.1 hb
      by_cases hseen : b ∈ seen
      · exact hs (List.mem_append_right _ hseen)
      · exact hs (List.mem_append_left _ (mem_novel.2 ⟨(hfirst b).2 ⟨m, hm⟩, hseen⟩))
    refine ⟨?_, ?_, fun a ha b hb => ?_⟩
    · exact (hpair.sublist (novel_sublist L seen)).imp_of_mem fun ha _ hab =>
        noLater_of_first hab (hlead ha)
    · exact ih.imp_of_mem fun _ hb hab => hab.cons (hlate hb)
    · exact noLater_of_first (fun m hm => absurd hm (hlate hb m)) (hlead ha)

/-- One or more edges lead from `c` to `k`, each to an id with the property. -/
def WayThrough (edges : List Edge) (s : Key → Prop) (c k : Key) : Prop :=
  Relation.TransGen (fun p q => Leads edges p q ∧ s q) c k

/-- Back along what actions wait for, a way leads to each from where all begin. -/
theorem wayThrough_of_grounded {s : Key → Prop} {ground : List Key} {rs : List ActionRef}
    (hr : Grounded ground rs) (hf : ∀ r ∈ rs, FollowsEdge edges r) (hs : ∀ r ∈ rs, s r.key)
    (hg : ∀ k ∈ ground, k = c ∨ WayThrough edges s c k) : ∀ r ∈ rs, WayThrough edges s c r.key := by
  induction rs generalizing ground with
  | nil => exact nofun
  | cons r rs ih =>
    have hway : WayThrough edges s c r.key := by
      obtain ⟨p, hp, hl⟩ := hf r List.mem_cons_self
      have hstep : Leads edges p.key r.key ∧ s r.key := ⟨hl, hs r List.mem_cons_self⟩
      rcases hg p.key (hr.1 p (by simp [hp])) with he | hw
      · exact .single (he ▸ hstep)
      · exact .tail hw hstep
    intro q hq
    rcases List.mem_cons.1 hq with rfl | hq
    · exact hway
    · refine ih hr.2 (fun r hr => hf r (List.mem_cons_of_mem _ hr))
        (fun r hr => hs r (List.mem_cons_of_mem _ hr)) (fun k hk => ?_) q hq
      rcases List.mem_cons.1 hk with rfl | hk
      · exact .inr hway
      · exact hg k hk

section
variable {before after : List ActionRef} {r : ActionRef}

/-- An edge leads to an action from where all begin, or from an action that stands before it. -/
theorem exists_leads_of_grounded (hr : Grounded [c] (before ++ r :: after))
    (hf : ∀ q ∈ before ++ r :: after, FollowsEdge edges q) :
    ∃ p, Leads edges p r.key ∧ (p = c ∨ p ∈ before.map ActionRef.key) := by
  obtain ⟨p, hp, hl⟩ := hf r (List.mem_append_right _ List.mem_cons_self)
  exact ⟨p.key, hl, (hr.split p (by simp [hp])).imp_left List.mem_singleton.1⟩

/-- A way leads to an action along those before it alone. -/
theorem wayThrough_before (hr : Grounded [c] (before ++ r :: after))
    (hf : ∀ q ∈ before ++ r :: after, FollowsEdge edges q) (hb : b ∉ before.map ActionRef.key)
    (hne : b ≠ r.key) : WayThrough edges
      (fun k => k ∈ (before ++ r :: after).map ActionRef.key ∧ k ≠ b) c r.key := by
  rw [List.append_cons] at hr hf ⊢
  refine wayThrough_of_grounded hr.of_append (fun q hq => hf q (List.mem_append_left _ hq))
    (fun q hq => ⟨List.mem_map_of_mem (List.mem_append_left _ hq), ?_⟩)
    (fun k hk => .inl (List.mem_singleton.1 hk)) r (List.mem_append_right _ List.mem_cons_self)
  rcases List.mem_append.1 hq with hq | hq
  · exact fun he => hb (he ▸ List.mem_map_of_mem hq)
  · exact List.mem_singleton.1 hq ▸ hne.symm

end

end

section
variable {nodes : List Node} {edges own : List Edge} {visited : List Key} {source : Scalar}
  {settings : Metadata.Source} {d : Document} {g : Group} {b : Branch} {i j k : Key}

private theorem pairwise_keys_branchOf (h : NoAction nodes visited)
    (hb : branchOf nodes edges visited source own = some b) :
    (b.actions.map ActionRef.key).Pairwise (NoLater nodes edges own) := by
  obtain ⟨first, -, rfl⟩ := Option.map_eq_some_iff.1 hb
  rw [keys_onceEach, List.map_flatMap]
  exact pairwise_novel_flatMap h

/-- What a branch lists are actions. -/
private theorem lookup_of_mem_branchOf (h : NoAction nodes visited)
    (hb : branchOf nodes edges visited source own = some b) (hk : k ∈ b.actions.map ActionRef.key) :
    ∃ n, lookup nodes k = some n ∧ n.isCondition = false := by
  obtain ⟨e, -, hk⟩ := (mem_keys_branchOf hb).1 hk
  obtain ⟨⟨n, hn⟩, hr⟩ := (mem_keys_actionsAlong h).1 hk
  rcases Relation.ReflTransGen.cases_tail hr with rfl | ⟨_, -, e', he, -, rfl⟩
  · exact ⟨n, actionAt_eq_some.1 hn⟩
  · obtain ⟨-, ⟨m, hm⟩, -⟩ := mem_actionEdges.1 he
    exact ⟨m, actionAt_eq_some.1 hm⟩

/-- An action of a branch stands after another, unless it is reached without that one and no
later; then an edge leads to it from the condition or from an action before it. -/
theorem precedes_or_avoided (h : NoAction nodes [source.key])
    (ho : ∀ e ∈ own, e ∈ outgoing edges source.key)
    (hb : branchOf nodes edges [source.key] source own = some b)
    (hi : i ∈ b.actions.map ActionRef.key) (hj : j ∈ b.actions.map ActionRef.key) (hne : j ≠ i) :
    Precedes (b.actions.map ActionRef.key) j i ∨
      Precedes (b.actions.map ActionRef.key) i j ∧
      (∃ p, Leads edges p i ∧ p ≠ j ∧
        (p = source.key ∨ Precedes (b.actions.map ActionRef.key) p i)) ∧
      WayThrough edges (fun k => k ∈ b.actions.map ActionRef.key ∧ k ≠ j) source.key i ∧
      NoLater nodes edges own i j := by
  have hpair := pairwise_keys_branchOf h hb
  have hground : Grounded [source.key] b.actions := grounded_branchOf hb
  have hfollows := followsEdge_branchOf ho hb
  have hjc : j ≠ source.key := by
    rintro rfl
    obtain ⟨n, hl, hn⟩ := lookup_of_mem_branchOf h hb hj
    simp [h _ List.mem_cons_self n hl] at hn
  obtain ⟨r, hr, rfl⟩ := List.mem_map.1 hi
  obtain ⟨before, after, hsplit⟩ := List.append_of_mem hr
  rw [hsplit] at hground hfollows
  have hkeys : b.actions.map ActionRef.key =
      before.map ActionRef.key ++ r.key :: after.map ActionRef.key := by
    rw [hsplit, List.map_append, List.map_cons]
  by_cases hbefore : j ∈ before.map ActionRef.key
  · exact .inl (hkeys ▸ precedes_of_mem hbefore)
  have hafter : Precedes (b.actions.map ActionRef.key) r.key j := by
    rw [hkeys] at hj ⊢
    have hj : j ∈ after.map ActionRef.key :=
      (List.mem_cons.1 ((List.mem_append.1 hj).resolve_left hbefore)).resolve_left hne
    exact ((List.singleton_sublist.2 hj).cons_cons r.key).trans (List.sublist_append_right _ _)
  have hway := wayThrough_before hground hfollows hbefore hne
  rw [← hsplit] at hway
  refine .inr ⟨hafter, ?_, hway, List.pairwise_iff_forall_sublist.1 hpair hafter⟩
  obtain ⟨p, hl, rfl | hp⟩ := exists_leads_of_grounded hground hfollows
  · exact ⟨source.key, hl, hjc.symm, .inl rfl⟩
  · exact ⟨p, hl, fun he => hbefore (he ▸ hp), .inr (hkeys ▸ precedes_of_mem hp)⟩

/-- An action of a group stands after another that it depends on, unless it is reached without that
one and no later; then its condition or an action before it is a dependency as well. -/
theorem precedes_or_avoided_of_dependsOn (h : (compile nodes edges settings).result = .ok d)
    (hg : g ∈ d.groups) (hi : i ∈ g.actions.map ActionRef.key)
    (hj : j ∈ g.actions.map ActionRef.key) (hne : j ≠ i) (hdep : d.DependsOn i j) :
    Precedes (g.actions.map ActionRef.key) j i ∨
      Precedes (g.actions.map ActionRef.key) i j ∧
      (∃ p, d.DependsOn i p ∧ p ≠ j ∧
        (p = g.condition.key ∨ Precedes (g.actions.map ActionRef.key) p i)) ∧
      WayThrough (attached nodes edges) (fun k => k ∈ g.actions.map ActionRef.key ∧ k ≠ j)
        g.condition.key i ∧
      NoLater nodes (attached nodes edges)
        (branchEdges (attached nodes edges) g.condition.key (g.branch.scalar?.map Scalar.key)) i j := by
  have hdoc := compiledFrom_of_compile h
  obtain ⟨c, hc, hcond, b, hb, index, hgroup⟩ := exists_branchOf_of_mem_groups h hg
  rw [keys_group? hgroup] at hi hj ⊢
  rw [← hcond]
  have hno : NoAction nodes [c.key] := noAction_of_mem_conditionNodes hdoc hc
  rcases precedes_or_avoided hno (fun e he => (mem_branchEdges.1 he).1) hb hi hj hne with
    hji | ⟨hij, ⟨p, hl, hp⟩, havoids⟩
  · exact .inl hji
  · have hentry := ((dependsOn_iff_leads hdoc).1 hdep).1
    exact .inr ⟨hij, ⟨p, (dependsOn_iff_leads hdoc).2 ⟨hentry, hl⟩, hp⟩, havoids⟩

end

section
variable {edges : List Edge}

/-- No edges lead from an id back to it. -/
def Acyclic (edges : List Edge) : Prop := ∀ k, ¬ Relation.TransGen (Leads edges) k k

private theorem acyclic_of_rank (rank : Key → Nat) (h : ∀ e ∈ edges, rank e.tail < rank e.head) :
    Acyclic edges := by
  have climbs {a b : Key} (w : Relation.TransGen (Leads edges) a b) : rank a < rank b := by
    induction w with
    | single hl =>
      obtain ⟨e, he, rfl, rfl⟩ := hl
      exact h e he
    | tail _ hl ih =>
      obtain ⟨e, he, rfl, rfl⟩ := hl
      exact Nat.lt_trans ih (h e he)
  exact fun k w => Nat.lt_irrefl _ (climbs w)

/-- A branch that leads to `a` at once and also by way of `b`. -/
def shortcutNodes : List Node :=
  [⟨"c", "ifNode", some Node.origin, some []⟩, ⟨"a", "actionNode", some Node.origin, some []⟩,
    ⟨"b", "actionNode", some Node.origin, some []⟩]

def shortcutEdges : List Edge :=
  [⟨"1", "c", "a", "go", .null, some [("executionMode", "sequential")]⟩,
    ⟨"2", "c", "b", "go", .null, some []⟩, ⟨"3", "b", "a", .null, .null, some []⟩]

def shortcutGroup : Group :=
  ⟨"c-go-0", "c", "go", .sequential,
    [⟨"a", "actionNode", .int 0, false, []⟩, ⟨"b", "actionNode", .int 1, false, ["a"]⟩]⟩

private theorem compile_shortcut :
    ∃ d, (compile shortcutNodes shortcutEdges (.value .null)).result = .ok d ∧
      shortcutGroup ∈ d.groups ∧ d.DependsOn (.text "a") (.text "b") := by
  have hgroups : (compile shortcutNodes shortcutEdges (.value .null)).result.toOption.map
      Document.groups = some [shortcutGroup] := by decide +kernel
  obtain ⟨d, hd, hg⟩ := exists_of_groups hgroups
  have hdoc := compiledFrom_of_compile hd
  refine ⟨d, hd, hg ▸ List.mem_singleton.2 rfl, (dependsOn_iff_leads hdoc).2 ⟨?_, ?_⟩⟩
  · exact exists_actionEntry (n := ⟨"a", "actionNode", some Node.origin, some []⟩) hdoc
      (by decide +kernel)
  · exact ⟨⟨"3", "b", "a", .null, .null, some []⟩, by decide +kernel, rfl, rfl⟩

/-- Dependencies are not always respected, even without a cycle. -/
theorem not_precedes_of_dependsOn :
    ¬ ∀ (nodes : List Node) (edges : List Edge) (settings : Metadata.Source) (d : Document),
      (nodes.map Node.key).Nodup → Acyclic edges → (compile nodes edges settings).result = .ok d →
      ∀ g ∈ d.groups, g.mode = .sequential → ∀ i ∈ g.actions.map ActionRef.key,
        ∀ j ∈ g.actions.map ActionRef.key, d.DependsOn i j →
          Precedes (g.actions.map ActionRef.key) j i := by
  intro h
  obtain ⟨d, hd, hg, hdep⟩ := compile_shortcut
  let rank : Key → Nat := fun k => if k = .text "c" then 0 else if k = .text "b" then 1 else 2
  have hacyclic : Acyclic shortcutEdges := acyclic_of_rank rank (by decide +kernel)
  have hprecedes := h _ _ _ d (by decide) hacyclic hd _ hg rfl (.text "a") (by decide)
    (.text "b") (by decide) hdep
  have hnot : ¬ [Key.text "b", .text "a"].Sublist (shortcutGroup.actions.map ActionRef.key) := by
    decide
  exact hnot hprecedes

theorem precedes_or_avoided_of_dependsOn_shortcut :
    ∃ d, (compile shortcutNodes shortcutEdges (.value .null)).result = .ok d ∧
      shortcutGroup ∈ d.groups ∧ d.DependsOn (.text "a") (.text "b") ∧
      ∃ p, d.DependsOn (.text "a") p ∧ p ≠ .text "b" ∧
        (p = .text "c" ∨ Precedes (shortcutGroup.actions.map ActionRef.key) p (.text "a")) := by
  obtain ⟨d, hd, hg, hdep⟩ := compile_shortcut
  have hnot : ¬ [Key.text "b", .text "a"].Sublist (shortcutGroup.actions.map ActionRef.key) := by
    decide
  have h := precedes_or_avoided_of_dependsOn hd hg (by decide) (by decide) (by decide) hdep
  exact ⟨d, hd, hg, hdep, (h.resolve_left hnot).2.1⟩

end

end Flowchart
