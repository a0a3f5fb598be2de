import Flowchart.Branch.Path
import Flowchart.Proofs.Closure
import Flowchart.Proofs.Lists
/-! The branches of a condition. Each comes from the outgoing edges with its label, and lists the
actions that those edges lead to through actions alone. -/
namespace Flowchart

section
variable {nodes : List Node} {edges : List Edge} {visited : List Key} {c : Node}

/-- The condition that an edge leads to, with its own branches. -/
def nestedAlong (nodes : List Node) (edges : List Edge) (visited : List Key) (e : Edge) :
    Option (Nested Branch) :=
  (conditionAt nodes e).map fun n => ⟨n.id, n.type, branches nodes edges visited n⟩

/-- The branch that some edges of a condition form; the first of them sets how it is run. -/
def branchOf (nodes : List Node) (edges : List Edge) (visited : List Key) (source : Scalar)
    (own : List Edge) : Option Branch :=
  own.head?.map fun first =>
    { label := first.branch
      mode := first.fields.valueOr "executionMode" "parallel"
      actions := ActionRef.onceEach (own.flatMap (actionsAlong nodes edges visited source))
      nested := own.filterMap (nestedAlong nodes edges visited)
      maxConcurrency := first.fields.valueOr "maxConcurrency" (.int (-1))
      failureHandling := first.fields.valueOr "failureHandling" "continue" }

/-- What a value counts as among labels, when it is one. -/
def Value.key? (v : Value) : Option Key := v.scalar?.map Scalar.key

/-- The edges of a condition that belong to one branch. -/
def branchEdges (edges : List Edge) (c : Key) (label : Option Key) : List Edge :=
  (outgoing edges c).filter fun e => e.branchKey = label

theorem mem_branchEdges {e : Edge} {k : Key} {label : Option Key} :
    e ∈ branchEdges edges k label ↔ e ∈ outgoing edges k ∧ e.branchKey = label := by
  simp [branchEdges]

theorem conditionAt_eq_some {e : Edge} {n : Node} :
    conditionAt nodes e = some n ↔ lookup nodes e.head = some n ∧ n.isCondition = true := by
  simp [conditionAt, Option.filter_eq_some_iff]

theorem head_of_conditionAt {e : Edge} {n : Node} (h : conditionAt nodes e = some n) :
    n.key = e.head :=
  key_of_lookup (conditionAt_eq_some.1 h).1

theorem branches_of_mem (h : c.key ∈ visited) : branches nodes edges visited c = [] := by
  rw [branches, dif_pos h]

private theorem nested_of_branchKey (k : Option Key) (out : List Edge) :
    ((out.filterMap fun e => (nestedAlong nodes edges visited e).map (e, ·)).filter
      fun d => d.1.branchKey = k).map (·.2) =
        (out.filter fun e => e.branchKey = k).filterMap (nestedAlong nodes edges visited) := by
  induction out with
  | nil => rfl
  | cons e out ih =>
    cases hn : nestedAlong nodes edges visited e <;> by_cases hk : e.branchKey = k <;>
      simp [hn, hk, ih]

theorem branches_eq (h : c.key ∉ visited) : branches nodes edges visited c =
    (distinct ((outgoing edges c.key).map Edge.branchKey)).filterMap fun k =>
      branchOf nodes edges (c.key :: visited) c.id (branchEdges edges c.key k) := by
  have deeper : (outgoing edges c.key).attach.filterMap (fun e =>
      (conditionAt nodes e.1).map fun n =>
        (e.1, (⟨n.id, n.type, branches nodes edges (c.key :: visited) n⟩ : Nested Branch))) =
      (outgoing edges c.key).filterMap fun e =>
        (nestedAlong nodes edges (c.key :: visited) e).map (e, ·) := by
    refine Eq.trans ?_ (filterMap_attach_val _ _)
    simp [nestedAlong, Function.comp_def]
  rw [branches, dif_neg h]
  simp only [deeper, branchOf, branchEdges, nested_of_branchKey]

/-- The label of an edge and every type on the way it leads are scalars. -/
def isReadableAlong (nodes : List Node) (edges : List Edge) (visited : List Key) (e : Edge) : Bool :=
  e.branch.isScalar &&
    match lookup nodes e.head with
    | none => true
    | some n =>
      n.type.isScalar &&
        if n.isCondition then areReadable nodes edges visited n
        else (followingSees nodes edges visited n.id).all fun m => m.type.isScalar

theorem mem_branches {b : Branch} (h : c.key ∉ visited) : b ∈ branches nodes edges visited c ↔
    ∃ e ∈ outgoing edges c.key,
      branchOf nodes edges (c.key :: visited) c.id (branchEdges edges c.key e.branchKey) = some b := by
  simp [branches_eq h, List.mem_filterMap]

theorem branches?_eq_ok {bs : List Branch} (h : branches? nodes edges visited c = .ok bs) :
    branches nodes edges visited c = bs := by
  unfold branches? at h
  split at h
  · exact Except.ok.inj h
  · cases h

theorem areReadable_of_mem (h : c.key ∈ visited) : areReadable nodes edges visited c = true := by
  rw [areReadable, dif_pos h]

theorem areReadable_eq (h : c.key ∉ visited) : areReadable nodes edges visited c =
    (outgoing edges c.key).all (isReadableAlong nodes edges (c.key :: visited)) := by
  rw [areReadable, dif_neg h]
  conv => rhs; rw [← List.attach_map_subtype_val (outgoing edges c.key), List.all_map]
  rfl

/-- Nothing stops a condition from being read whose graph has scalar types and labels only. -/
theorem areReadable_of_isScalar (ht : ∀ n ∈ nodes, n.type.isScalar = true)
    (hl : ∀ e ∈ edges, e.branch.isScalar = true) : areReadable nodes edges visited c = true := by
  induction visited, c using areReadable.induct edges with
  | case1 visited c hm => exact areReadable_of_mem hm
  | case2 visited c hm ih =>
    rw [areReadable_eq hm, List.all_eq_true]
    intro e he
    rw [isReadableAlong, hl e (mem_outgoing.1 he).1]
    cases hn : lookup nodes e.head with
    | none => rfl
    | some n =>
      have hsees : (followingSees nodes edges (c.key :: visited) n.id).all fun m => m.type.isScalar := by
        rw [List.all_eq_true]
        exact fun m hm => ht m (mem_nodes_of_mem_followingSees hm)
      simp [ht n (mem_of_lookup hn), ih e he n, hsees]

end

section
variable {nodes : List Node} {edges own : List Edge} {visited : List Key} {c n : Node} {e : Edge}
  {source : Scalar} {k : Key} {rs listed : List ActionRef}

/-- Each id is listed once, as it first comes. -/
private theorem keys_foldl_addTo : (rs.foldl ActionRef.addTo listed).map ActionRef.key =
    listed.map ActionRef.key ++ novel (rs.map ActionRef.key) (listed.map ActionRef.key) := by
  induction rs generalizing listed with
  | nil => simp [novel]
  | cons r rs ih =>
    rw [List.foldl_cons, ih, ActionRef.addTo, List.map_cons, novel]
    by_cases hk : r.key ∈ listed.map ActionRef.key
    · rw [if_pos hk, if_pos hk]
    · have hset : ∀ k, k ∈ listed.map ActionRef.key ++ [r.key] ↔
          k ∈ r.key :: listed.map ActionRef.key := by
        intro k
        simp [or_comm]
      rw [if_neg hk, if_neg hk, List.map_append, List.map_singleton, novel_congr hset,
        List.append_assoc, List.singleton_append]

theorem keys_onceEach : (ActionRef.onceEach rs).map ActionRef.key = novel (rs.map ActionRef.key) [] :=
  keys_foldl_addTo

/-- No action has one of the ids. -/
def NoAction (nodes : List Node) (visited : List Key) : Prop :=
  ∀ k ∈ visited, ∀ n, lookup nodes k = some n → n.isCondition = true

theorem NoAction.cons (h : NoAction nodes visited) (hl : lookup nodes k = some n)
    (hc : n.isCondition = true) : NoAction nodes (k :: visited) := by
  intro a ha m hm
  rcases List.mem_cons.1 ha with rfl | ha
  · exact Option.some.inj (hl.symm.trans hm) ▸ hc
  · exact h a ha m hm

theorem noAction_of_isCondition (hl : lookup nodes c.key = some c) (hc : c.isCondition = true) :
    NoAction nodes [c.key] :=
  .cons nofun hl hc

/-- Ids of conditions hide no action. -/
theorem actionEdges_of_noAction (h : NoAction nodes visited) :
    actionEdges nodes edges visited = actionEdges nodes edges [] := by
  refine List.filter_congr fun e _ => ?_
  cases hn : actionAt nodes e with
  | none => rfl
  | some n =>
    obtain ⟨hl, hc⟩ := actionAt_eq_some.1 hn
    have hv : e.head ∉ visited := fun hm => by simp [h _ hm n hl] at hc
    simp [hv]

theorem not_mem_of_actionAt (h : NoAction nodes visited) (hn : actionAt nodes e = some n) :
    n.key ∉ visited := by
  obtain ⟨hl, hc⟩ := actionAt_eq_some.1 hn
  intro hm
  simp [h _ (head_of_actionAt hn ▸ hm) n hl] at hc

private theorem following_of_noAction {x : Scalar} (h : NoAction nodes visited)
    (hx : x.key ∉ visited) : following nodes edges visited x = following nodes edges [] x := by
  rw [following, following, if_neg hx, if_neg List.not_mem_nil]
  refine closureFrom_congr fun e n hn => ?_
  simp [not_mem_of_actionAt h hn]

theorem actionsAlong_of_noAction (h : NoAction nodes visited) :
    actionsAlong nodes edges visited source e = actionsAlong nodes edges [] source e := by
  unfold actionsAlong
  cases hn : actionAt nodes e with
  | none => rfl
  | some n => simp only [following_of_noAction (x := n.id) h (not_mem_of_actionAt h hn)]

theorem mem_keys_actionsAlong (h : NoAction nodes visited) :
    k ∈ (actionsAlong nodes edges visited source e).map ActionRef.key ↔
      (∃ n, actionAt nodes e = some n) ∧ Reaches (actionEdges nodes edges []) e.head k := by
  unfold actionsAlong
  cases hn : actionAt nodes e with
  | none => simp
  | some n =>
    have hk : n.id.key = e.head := head_of_actionAt hn
    have hv : e.head ∉ visited := hk ▸ not_mem_of_actionAt h hn
    rw [List.map_cons, List.mem_cons, mem_keys_following, actionEdges_of_noAction h, hk, key_ofEdge]
    constructor
    · rintro (rfl | ⟨-, -, hr⟩)
      · exact ⟨⟨n, rfl⟩, hk ▸ .refl⟩
      · exact ⟨⟨n, rfl⟩, hr⟩
    · rintro ⟨-, hr⟩
      by_cases he : k = e.head
      · exact .inl (he.trans hk.symm)
      · exact .inr ⟨hv, he, hr⟩

theorem mem_keys_branchOf {b : Branch} (hb : branchOf nodes edges visited source own = some b) :
    k ∈ b.actions.map ActionRef.key ↔
      ∃ e ∈ own, k ∈ (actionsAlong nodes edges visited source e).map ActionRef.key := by
  obtain ⟨first, -, rfl⟩ := Option.map_eq_some_iff.1 hb
  rw [keys_onceEach, mem_novel]
  simp only [List.mem_map, List.mem_flatMap, List.not_mem_nil, not_false_eq_true, and_true]
  constructor
  · rintro ⟨r, ⟨e, he, hr⟩, rfl⟩
    exact ⟨e, he, r, hr, rfl⟩
  · rintro ⟨e, he, r, hr, rfl⟩
    exact ⟨r, ⟨e, he, hr⟩, rfl⟩

/-- The label of a branch is that of its edges. -/
theorem key?_label {label : Option Key} {b : Branch}
    (hb : branchOf nodes edges visited source (branchEdges edges k label) = some b) :
    b.label.key? = label := by
  obtain ⟨first, hf, rfl⟩ := Option.map_eq_some_iff.1 hb
  exact (mem_branchEdges.1 (List.mem_of_mem_head? hf)).2

/-- Each branch is formed from the edges with its label. -/
theorem branchOf_of_mem {b : Branch} (h : b ∈ branches nodes edges visited c) :
    branchOf nodes edges (c.key :: visited) c.id (branchEdges edges c.key b.label.key?) = some b := by
  by_cases hc : c.key ∈ visited
  · rw [branches_of_mem hc] at h
    cases h
  · obtain ⟨e, -, hb⟩ := (mem_branches hc).1 h
    rwa [key?_label hb]

theorem exists_branchOf (nodes : List Node) (edges : List Edge) (visited : List Key)
    (source : Scalar) (he : e ∈ own) : ∃ b, branchOf nodes edges visited source own = some b := by
  cases own with
  | nil => cases he
  | cons first own => exact ⟨_, rfl⟩

/-- One or more edges to actions lead from `c` to `k`. -/
def Owns (nodes : List Node) (edges : List Edge) : Key → Key → Prop :=
  Relation.TransGen (Leads (actionEdges nodes edges []))

/-- A condition lists, in some branch, exactly the actions that it owns. -/
theorem listed_iff_owns (hc : c.key ∉ visited) (h : NoAction nodes (c.key :: visited)) :
    (∃ b ∈ branches nodes edges visited c, k ∈ b.actions.map ActionRef.key) ↔
      Owns nodes edges c.key k := by
  rw [Owns, Relation.TransGen.head'_iff]
  constructor
  · rintro ⟨b, hb, hk⟩
    obtain ⟨e₀, -, hb⟩ := (mem_branches hc).1 hb
    obtain ⟨e, he, hk⟩ := (mem_keys_branchOf hb).1 hk
    obtain ⟨hn, hr⟩ := (mem_keys_actionsAlong h).1 hk
    obtain ⟨hm, ht⟩ := mem_outgoing.1 (mem_branchEdges.1 he).1
    exact ⟨e.head, ⟨e, mem_actionEdges.2 ⟨hm, hn, by simp⟩, ht, rfl⟩, hr⟩
  · rintro ⟨-, ⟨e, he, ht, rfl⟩, hr⟩
    obtain ⟨hm, hn, -⟩ := mem_actionEdges.1 he
    have ho : e ∈ outgoing edges c.key := mem_outgoing.2 ⟨hm, ht⟩
    have hown : e ∈ branchEdges edges c.key e.branchKey := mem_branchEdges.2 ⟨ho, rfl⟩
    obtain ⟨b, hb⟩ := exists_branchOf nodes edges (c.key :: visited) c.id hown
    refine ⟨b, (mem_branches hc).2 ⟨e, ho, hb⟩, (mem_keys_branchOf hb).2 ⟨e, hown, ?_⟩⟩
    exact (mem_keys_actionsAlong h).2 ⟨hn, hr⟩

end

end Flowchart
