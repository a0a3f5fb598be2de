import Flowchart.Branch.Closure
import Flowchart.Proofs.Visit
import Mathlib.Tactic.Tauto
/-! The actions that follow an id are what a visit finds along the edges that lead to actions. One
search marks an id when it is discovered, the other when it leaves the queue; both list the ids in
the same order. -/
namespace Flowchart

section
variable {nodes : List Node} {edges es : List Edge} {e : Edge} {n : Node} {r : ActionRef}
  {p x : Scalar} {k : Key} {visited seen met met' : List Key}

theorem actionAt_eq_some :
    actionAt nodes e = some n ↔ lookup nodes e.head = some n ∧ n.isCondition = false := by
  simp [actionAt, Option.filter_eq_some_iff]

theorem head_of_actionAt (h : actionAt nodes e = some n) : n.key = e.head :=
  key_of_lookup (actionAt_eq_some.1 h).1

@[simp] theorem key_ofEdge : (ActionRef.ofEdge n e p).key = n.key := rfl

/-- The edges that lead to an action outside `avoid`. -/
def actionEdges (nodes : List Node) (edges : List Edge) (avoid : List Key) : List Edge :=
  edges.filter fun e => (actionAt nodes e).isSome && decide (e.head ∉ avoid)

theorem mem_actionEdges : e ∈ actionEdges nodes edges visited ↔
    e ∈ edges ∧ (∃ n, actionAt nodes e = some n) ∧ e.head ∉ visited := by
  simp [actionEdges, Option.isSome_iff_exists]

theorem exists_of_mem_discover (h : r ∈ discover nodes p es met) :
    ∃ e ∈ es, ∃ n, actionAt nodes e = some n ∧ r = .ofEdge n e p := by
  induction es generalizing met with
  | nil => cases h
  | cons e es ih =>
    have old {met : List Key} (h : r ∈ discover nodes p es met) :
        ∃ e' ∈ e :: es, ∃ n, actionAt nodes e' = some n ∧ r = .ofEdge n e' p := by
      obtain ⟨e', he, h⟩ := ih h
      exact ⟨e', List.mem_cons_of_mem _ he, h⟩
    rw [discover] at h
    split at h
    · exact old h
    · next n hn =>
      split at h
      · exact old h
      · rcases List.mem_cons.1 h with rfl | h
        · exact ⟨e, List.mem_cons_self, n, hn, rfl⟩
        · exact old h

/-- What is discovered depends only on which actions are met already. -/
private theorem discover_congr
    (h : ∀ e n, actionAt nodes e = some n → (n.key ∈ met ↔ n.key ∈ met')) :
    discover nodes p es met = discover nodes p es met' := by
  induction es generalizing met met' with
  | nil => rfl
  | cons e es ih =>
    cases hn : actionAt nodes e with
    | none => simp only [discover, hn, ih h]
    | some n =>
      have hcons : ∀ e m, actionAt nodes e = some m → (m.key ∈ n.key :: met ↔ m.key ∈ n.key :: met') :=
        fun e m hm => by simp only [List.mem_cons, h e m hm]
      simp only [discover, hn, h e n hn, ih h, ih hcons]

theorem closureFrom_congr {queue : List Scalar}
    (h : ∀ e n, actionAt nodes e = some n → (n.key ∈ met ↔ n.key ∈ met')) :
    closureFrom nodes edges queue met = closureFrom nodes edges queue met' := by
  fun_induction closureFrom nodes edges queue met generalizing met' with
  | case1 => rw [closureFrom]
  | case2 met x rest found =>
    rename_i ih
    have hfound : discover nodes x (outgoing edges x.key) met' = found := (discover_congr h).symm
    rw [closureFrom, hfound, ih]
    intro e n hn
    simp only [List.mem_append, h e n hn]

/-- What the edges of one id lead to. -/
def actionHeads (nodes : List Node) (es : List Edge) : List Key :=
  (es.filterMap (actionAt nodes)).map Node.key

theorem keys_discover : (discover nodes p es met).map ActionRef.key = novel (actionHeads nodes es) met := by
  induction es generalizing met with
  | nil => rfl
  | cons e es ih =>
    cases h : actionAt nodes e with
    | none => simp [discover, actionHeads, h, ih]
    | some n =>
      by_cases hm : n.key ∈ met
      · simp [discover, actionHeads, novel, h, hm, ih]
      · simp [discover, actionHeads, novel, h, hm, ih]

private theorem ahead_actionEdges : ahead (actionEdges nodes edges visited) seen k =
    ((actionHeads nodes (outgoing edges k)).filter fun h => h ∉ visited).filter fun h => h ∉ seen := by
  unfold ahead outgoing actionEdges actionHeads
  congr 1
  induction edges with
  | nil => rfl
  | cons e es ih =>
    cases h : actionAt nodes e with
    | none => by_cases ht : e.tail = k <;> simp_all
    | some n =>
      have hk := head_of_actionAt h
      by_cases ht : e.tail = k <;> by_cases hv : e.head ∈ visited <;> simp_all

/-- What holds while the search runs. An id waits once and only before it is taken, and those that
are met are the ids to avoid, the waiting ones and the taken ones. -/
structure Marks (visited queue seen met : List Key) : Prop where
  nodup : queue.Nodup
  fresh : ∀ a ∈ queue, a ∉ seen
  met : ∀ a, a ∈ met ↔ a ∈ visited ∨ a ∈ queue ∨ a ∈ seen

private theorem Marks.start : Marks visited [k] [] (k :: visited) where
  nodup := by simp
  fresh := by simp
  met := by simp [or_comm]

/-- The next id is taken, and what it leads to joins the end of the queue. -/
private theorem Marks.step {rest : List Key} (h : Marks visited (k :: rest) seen met)
    (heads : List Key) :
    Marks visited (rest ++ novel heads met) (k :: seen) (novel heads met ++ met) := by
  obtain ⟨hk, hrest⟩ := List.nodup_cons.1 h.nodup
  have hmet {a : Key} (ha : a ∈ k :: rest) : a ∈ met := (h.met a).2 (.inr (.inl ha))
  have hnew {a : Key} (ha : a ∈ novel heads met) : a ∉ met := (mem_novel.1 ha).2
  constructor
  · refine List.nodup_append.2 ⟨hrest, nodup_novel _ _, ?_⟩
    rintro a ha b hb rfl
    exact hnew hb (hmet (List.mem_cons_of_mem _ ha))
  · intro a ha hmem
    rcases List.mem_append.1 ha with ha | ha <;> rcases List.mem_cons.1 hmem with rfl | hmem
    · exact hk ha
    · exact h.fresh a (List.mem_cons_of_mem _ ha) hmem
    · exact hnew ha (hmet List.mem_cons_self)
    · exact hnew ha ((h.met a).2 (.inr (.inr hmem)))
  · intro a
    simp only [List.mem_append, List.mem_cons, h.met]
    tauto

/-- What the next id discovers is what its edges add to the queue of the visit. -/
private theorem novel_queue {rest : List Key} (h : Marks visited (k :: rest) seen met) :
    novel (rest ++ novel (actionHeads nodes (outgoing edges k)) met) (k :: seen) =
      novel (rest ++ ahead (actionEdges nodes edges visited) (k :: seen) k) (k :: seen) := by
  have hstep := h.step (actionHeads nodes (outgoing edges k))
  obtain ⟨hrest, -, -⟩ := List.nodup_append.1 hstep.nodup
  have hfresh : ∀ a ∈ rest, a ∉ k :: seen := fun a ha => hstep.fresh a (List.mem_append_left _ ha)
  rw [novel_append, novel_append, novel_eq_self hrest hfresh, ahead_actionEdges, novel_filter,
    novel_filter]
  have hset : ∀ a, a ∈ met ↔ a ∈ visited ++ (k :: seen ++ (rest ++ k :: seen)) := by
    intro a
    rw [h.met]
    simp only [List.mem_append, List.mem_cons]
    tauto
  have hnew : ∀ a ∈ novel (actionHeads nodes (outgoing edges k)) met, a ∉ rest ++ k :: seen := by
    intro a ha hmem
    refine (mem_novel.1 ha).2 ((hset a).2 ?_)
    exact List.mem_append_right _ (List.mem_append_right _ hmem)
  rw [novel_eq_self (nodup_novel _ _) hnew, novel_congr hset]

/-- The queue, and after it what is still discovered, are the ids that the visit takes. -/
theorem keys_closureFrom {queue : List Scalar}
    (h : Marks visited (queue.map Scalar.key) seen met) :
    queue.map Scalar.key ++ (closureFrom nodes edges queue met).map ActionRef.key =
      visitFrom (actionEdges nodes edges visited) (queue.map Scalar.key) seen := by
  fun_induction closureFrom nodes edges queue met generalizing seen with
  | case1 => simp [visitFrom]
  | case2 met x rest found =>
    rename_i ih
    rw [List.map_cons] at h ⊢
    have hfound : found.map ActionRef.key = novel (actionHeads nodes (outgoing edges x.key)) met :=
      keys_discover
    have hqueue : (rest ++ found.map ActionRef.node).map Scalar.key =
        rest.map Scalar.key ++ novel (actionHeads nodes (outgoing edges x.key)) met := by
      rw [← hfound, List.map_append, List.map_map]
      rfl
    have hrun := @ih (x.key :: seen) (by rw [hqueue, hfound]; exact h.step _)
    calc x.key :: rest.map Scalar.key ++ (found ++ closureFrom nodes edges
            (rest ++ found.map ActionRef.node) (found.map ActionRef.key ++ met)).map ActionRef.key
        = x.key :: visitFrom (actionEdges nodes edges visited)
            ((rest ++ found.map ActionRef.node).map Scalar.key) (x.key :: seen) := by
          rw [← hrun, hqueue, List.map_append, hfound, List.cons_append, List.append_assoc]
      _ = x.key :: visitFrom (actionEdges nodes edges visited) (rest.map Scalar.key ++
            ahead (actionEdges nodes edges visited) (x.key :: seen) x.key) (x.key :: seen) := by
          rw [hqueue, visitFrom_congr (novel_queue h)]
      _ = visitFrom (actionEdges nodes edges visited) (x.key :: rest.map Scalar.key) seen := by
          rw [visitFrom, if_neg (h.fresh _ List.mem_cons_self)]

/-- The actions that follow an id are, after the id itself, what a visit of the edges to actions
takes. -/
theorem keys_following (h : x.key ∉ visited) :
    x.key :: (following nodes edges visited x).map ActionRef.key =
      visitOrder (actionEdges nodes edges visited) x.key := by
  rw [following, if_neg h]
  have hmarks : Marks visited ([x].map Scalar.key) [] (x.key :: visited) := .start
  exact keys_closureFrom hmarks

theorem following_of_mem (h : x.key ∈ visited) : following nodes edges visited x = [] := by
  rw [following, if_pos h]

private theorem nodup_keys_following (h : x.key ∉ visited) :
    (x.key :: (following nodes edges visited x).map ActionRef.key).Nodup := by
  rw [keys_following h]
  exact nodup_visitOrder

/-- Exactly the actions that can be reached through actions follow. -/
theorem mem_keys_following : k ∈ (following nodes edges visited x).map ActionRef.key ↔
    x.key ∉ visited ∧ k ≠ x.key ∧ Reaches (actionEdges nodes edges visited) x.key k := by
  by_cases hx : x.key ∈ visited
  · simp [following_of_mem hx, hx]
  · obtain ⟨hxk, -⟩ := List.nodup_cons.1 (nodup_keys_following hx)
    rw [← mem_visitOrder, ← keys_following hx, List.mem_cons]
    constructor
    · intro hk
      exact ⟨hx, fun he => hxk (he ▸ hk), .inr hk⟩
    · rintro ⟨-, hne, h⟩
      exact h.resolve_left hne

theorem mem_nodes_of_mem_followingSees (h : n ∈ followingSees nodes edges visited x) : n ∈ nodes := by
  unfold followingSees at h
  split at h
  · cases h
  · obtain ⟨k, -, h⟩ := List.mem_flatMap.1 h
    obtain ⟨e, -, h⟩ := List.mem_filterMap.1 h
    exact mem_of_lookup h

end

end Flowchart
