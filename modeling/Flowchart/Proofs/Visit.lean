import Flowchart.Graph.Subtree
import Flowchart.Proofs.Walk
import Mathlib.Tactic.Tauto
/-! What a visit takes from its queue, and in which order: every id that can be reached, once, and
none before one that fewer edges lead to. -/
namespace Flowchart

section
variable {edges : List Edge} {queue seen : List Key} {k a b : Key} {n : Nat}

theorem mem_ahead : b ∈ ahead edges seen a ↔ Leads edges a b ∧ b ∉ seen := by
  simp [ahead, leads_iff_outgoing]

/-- The ids that an unmarked member of the queue leads to, past marked ids. -/
theorem mem_visitFrom : b ∈ visitFrom edges queue seen ↔
    ∃ a ∈ queue, a ∉ seen ∧ ∃ n, Walk (unmarked edges seen) n a b := by
  fun_induction visitFrom edges queue seen with
  | case1 => simp
  | case2 seen k rest hk ih =>
    rw [ih]
    constructor
    · rintro ⟨a, ha, h⟩
      exact ⟨a, List.mem_cons_of_mem _ ha, h⟩
    · rintro ⟨a, ha, hs, h⟩
      rcases List.mem_cons.1 ha with rfl | ha
      · exact absurd hk hs
      · exact ⟨a, ha, hs, h⟩
  | case3 seen k rest hk ih =>
    rw [List.mem_cons, ih]
    constructor
    · rintro (rfl | ⟨a, ha, hs, n, w⟩)
      · exact ⟨b, List.mem_cons_self, hk, 0, .here b⟩
      · have w' := w.mono fun e he => mem_unmarked_of_cons he
        obtain ⟨-, hs'⟩ := not_or.1 (mt List.mem_cons.2 hs)
        rcases List.mem_append.1 ha with ha | ha
        · exact ⟨a, List.mem_cons_of_mem _ ha, hs', n, w'⟩
        · obtain ⟨hl, -⟩ := mem_ahead.1 ha
          exact ⟨k, List.mem_cons_self, hk, n + 1, w'.cons (leads_unmarked.2 ⟨hl, hs'⟩)⟩
    · rintro ⟨a, ha, hs, n, w⟩
      rcases w.mark (k := k) with rfl | ⟨m, v, -, hv, hvs, w'⟩ | ⟨hak, w'⟩
      · exact .inl rfl
      · exact .inr ⟨v, List.mem_append_right _ (mem_ahead.2 ⟨hv, hvs⟩), hvs, m, w'⟩
      · have ha' : a ∈ rest := (List.mem_cons.1 ha).resolve_left hak
        exact .inr ⟨a, List.mem_append_left _ ha', by simp [hak, hs], n, w'⟩

private theorem not_mem_seen_of_mem_visitFrom (h : b ∈ visitFrom edges queue seen) : b ∉ seen := by
  obtain ⟨a, -, hs, n, w⟩ := mem_visitFrom.1 h
  cases w with
  | here => exact hs
  | snoc _ h => exact (leads_unmarked.1 h).2

private theorem nodup_visitFrom : (visitFrom edges queue seen).Nodup := by
  fun_induction visitFrom edges queue seen with
  | case1 => exact List.nodup_nil
  | case2 seen k rest hk ih => exact ih
  | case3 seen k rest hk ih =>
    refine List.nodup_cons.2 ⟨fun h => ?_, ih⟩
    exact not_mem_seen_of_mem_visitFrom h List.mem_cons_self

/-- Exactly what can be reached is visited. -/
theorem mem_visitOrder : b ∈ visitOrder edges a ↔ Reaches edges a b := by
  simp [visitOrder, mem_visitFrom, reaches_iff_walk]

theorem nodup_visitOrder : (visitOrder edges a).Nodup := nodup_visitFrom

/-- The queue of a visit holds ids of two levels: those of `near`, and after them those of `far`,
one edge further out. `b` is at most `n` edges out. -/
def Within (edges : List Edge) (near far seen : List Key) (n : Nat) (b : Key) : Prop :=
  (∃ a ∈ near, a ∉ seen ∧ ∃ m ≤ n, Walk (unmarked edges seen) m a b) ∨
    ∃ a ∈ far, a ∉ seen ∧ ∃ m < n, Walk (unmarked edges seen) m a b

/-- Taking an unmarked id from the queue moves no other id nearer or further out. -/
private theorem within_step {near far : List Key} (hk : k ∉ seen) (hb : b ≠ k) :
    Within edges (k :: near) far seen n b ↔
      Within edges near (far ++ ahead edges (k :: seen) k) (k :: seen) n b := by
  constructor
  · rintro (⟨a, ha, hs, m, hm, w⟩ | ⟨a, ha, hs, m, hm, w⟩) <;>
      rcases w.mark (k := k) with rfl | ⟨l, v, hl, hv, hvs, w'⟩ | ⟨hak, w'⟩
    · exact absurd rfl hb
    · exact .inr ⟨v, List.mem_append_right _ (mem_ahead.2 ⟨hv, hvs⟩), hvs, l, by omega, w'⟩
    · exact .inl ⟨a, (List.mem_cons.1 ha).resolve_left hak, by simp [hak, hs], m, hm, w'⟩
    · exact absurd rfl hb
    · exact .inr ⟨v, List.mem_append_right _ (mem_ahead.2 ⟨hv, hvs⟩), hvs, l, by omega, w'⟩
    · exact .inr ⟨a, List.mem_append_left _ ha, by simp [hak, hs], m, hm, w'⟩
  · have old {m : Nat} {a : Key} (w : Walk (unmarked edges (k :: seen)) m a b) :
        Walk (unmarked edges seen) m a b := w.mono fun e he => mem_unmarked_of_cons he
    rintro (⟨a, ha, hs, m, hm, w⟩ | ⟨a, ha, hs, m, hm, w⟩) <;>
      obtain ⟨-, hs'⟩ := not_or.1 (mt List.mem_cons.2 hs)
    · exact .inl ⟨a, List.mem_cons_of_mem _ ha, hs', m, hm, old w⟩
    · rcases List.mem_append.1 ha with ha | ha
      · exact .inr ⟨a, ha, hs', m, hm, old w⟩
      · obtain ⟨hl, -⟩ := mem_ahead.1 ha
        exact .inl ⟨k, List.mem_cons_self, hk, m + 1, hm,
          (old w).cons (leads_unmarked.2 ⟨hl, hs'⟩)⟩

/-- When a level is used up the next one begins. -/
private theorem within_far {far : List Key} :
    Within edges [] far seen (n + 1) b ↔ Within edges far [] seen n b := by
  simp only [Within, List.not_mem_nil, false_and, exists_const, false_or, or_false,
    Nat.lt_succ_iff]

/-- A marked member of the queue leads nowhere. -/
private theorem within_of_mem {near far : List Key} (hk : k ∈ seen) :
    (Within edges (k :: near) far seen n b ↔ Within edges near far seen n b) ∧
      (Within edges near (k :: far) seen n b ↔ Within edges near far seen n b) := by
  simp [Within, hk]

/-- The visit takes `b` after `a` only if `b` is no nearer. -/
def InOrder (edges : List Edge) (near far seen : List Key) (a b : Key) : Prop :=
  ∀ n, Within edges near far seen n b → Within edges near far seen n a

private theorem inOrder_far {far : List Key} (h : InOrder edges far [] seen a b) :
    InOrder edges [] far seen a b := by
  intro n hn
  cases n with
  | zero => simp [Within] at hn
  | succ n => exact within_far.2 (h n (within_far.1 hn))

private theorem pairwise_visitFrom {near far : List Key} (hq : queue = near ++ far) :
    (visitFrom edges queue seen).Pairwise (InOrder edges near far seen) := by
  fun_induction visitFrom edges queue seen generalizing near far with
  | case1 => exact .nil
  | case2 seen k rest hk ih =>
    cases near with
    | nil =>
      subst hq
      exact (ih (List.nil_append rest).symm).imp fun h n hn =>
        (within_of_mem hk).2.2 (h n ((within_of_mem hk).2.1 hn))
    | cons x near =>
      obtain ⟨rfl, rfl⟩ := List.cons.inj hq
      exact (ih rfl).imp fun h n hn => (within_of_mem hk).1.2 (h n ((within_of_mem hk).1.1 hn))
  | case3 seen k rest hk ih =>
    have first {near far : List Key} (hr : rest = near ++ far) :
        (k :: visitFrom edges (rest ++ ahead edges (k :: seen) k) (k :: seen)).Pairwise
          (InOrder edges (k :: near) far seen) := by
      refine List.pairwise_cons.2 ⟨fun b _ n _ => ?_, ?_⟩
      · exact .inl ⟨k, List.mem_cons_self, hk, 0, Nat.zero_le n, .here k⟩
      · have hq' : rest ++ ahead edges (k :: seen) k = near ++ (far ++ ahead edges (k :: seen) k) := by
          rw [hr, List.append_assoc]
        refine (ih hq').imp_of_mem fun ha hb h n hn => ?_
        have ne {x : Key} (hx : x ∈ visitFrom edges (rest ++ ahead edges (k :: seen) k) (k :: seen)) :
            x ≠ k := (not_or.1 (mt List.mem_cons.2 (not_mem_seen_of_mem_visitFrom hx))).1
        exact (within_step hk (ne ha)).2 (h n ((within_step hk (ne hb)).1 hn))
    cases near with
    | nil =>
      subst hq
      exact (first (List.append_nil _).symm).imp inOrder_far
    | cons x near =>
      obtain ⟨rfl, rfl⟩ := List.cons.inj hq
      exact first rfl

/-- No id is visited before one that is reached along fewer edges. -/
theorem pairwise_visitOrder : (visitOrder edges k).Pairwise fun a b =>
    ∀ n, Walk edges n k b → ∃ m ≤ n, Walk edges m k a := by
  refine (pairwise_visitFrom (List.append_nil [k]).symm).imp fun h n w => ?_
  simpa [Within] using h n (.inl ⟨k, by simp, by simp, n, Nat.le_refl n, by simpa using w⟩)

/-- The members of a list that are not marked, each once. -/
def novel : List Key → List Key → List Key
  | [], _ => []
  | k :: ks, seen => if k ∈ seen then novel ks seen else k :: novel ks (k :: seen)

theorem novel_congr {ks s t : List Key} (h : ∀ k, k ∈ s ↔ k ∈ t) : novel ks s = novel ks t := by
  induction ks generalizing s t with
  | nil => rfl
  | cons a ks ih =>
    have hcons : ∀ k, k ∈ a :: s ↔ k ∈ a :: t := fun k => by simp [h k]
    simp only [novel, h a, ih h, ih hcons]

theorem novel_append (ks ls seen : List Key) :
    novel (ks ++ ls) seen = novel ks seen ++ novel ls (novel ks seen ++ seen) := by
  induction ks generalizing seen with
  | nil => rfl
  | cons a ks ih =>
    by_cases ha : a ∈ seen
    · simp only [List.cons_append, novel, if_pos ha, ih]
    · have hset : ∀ k, k ∈ novel ks (a :: seen) ++ a :: seen ↔
          k ∈ a :: (novel ks (a :: seen) ++ seen) := by
        intro k
        simp [or_left_comm]
      simp only [List.cons_append, novel, if_neg ha, ih, novel_congr hset]

theorem novel_eq_self {ks : List Key} (hn : ks.Nodup) (hd : ∀ k ∈ ks, k ∉ seen) :
    novel ks seen = ks := by
  induction ks generalizing seen with
  | nil => rfl
  | cons a ks ih =>
    obtain ⟨ha, hn⟩ := List.nodup_cons.1 hn
    rw [novel, if_neg (hd a List.mem_cons_self), ih hn]
    intro k hk hs
    rcases List.mem_cons.1 hs with rfl | hs
    · exact ha hk
    · exact hd k (List.mem_cons_of_mem _ hk) hs

theorem novel_filter (ks avoid : List Key) :
    novel (ks.filter fun k => k ∉ avoid) seen = novel ks (avoid ++ seen) := by
  induction ks generalizing seen with
  | nil => rfl
  | cons a ks ih =>
    by_cases ha : a ∈ avoid
    · rw [List.filter_cons_of_neg (by simpa using ha), ih, novel,
        if_pos (List.mem_append_left _ ha)]
    · rw [List.filter_cons_of_pos (by simpa using ha)]
      by_cases hs : a ∈ seen
      · rw [novel, if_pos hs, ih, novel, if_pos (List.mem_append_right _ hs)]
      · have hset : ∀ k, k ∈ avoid ++ a :: seen ↔ k ∈ a :: (avoid ++ seen) := by
          intro k
          simp [or_left_comm]
        rw [novel, if_neg hs, ih, novel, if_neg (by simp [ha, hs]), novel_congr hset]

theorem mem_novel {ks : List Key} : k ∈ novel ks seen ↔ k ∈ ks ∧ k ∉ seen := by
  induction ks generalizing seen with
  | nil => simp [novel]
  | cons a ks ih =>
    by_cases ha : a ∈ seen
    · rw [novel, if_pos ha, ih, List.mem_cons]
      constructor
      · exact fun h => ⟨.inr h.1, h.2⟩
      · rintro ⟨rfl | hk, hs⟩
        · exact absurd ha hs
        · exact ⟨hk, hs⟩
    · by_cases hka : k = a
      · subst hka
        simp [novel, ha]
      · simp [novel, ha, ih, hka]

theorem novel_sublist (ks seen : List Key) : (novel ks seen).Sublist ks := by
  induction ks generalizing seen with
  | nil => exact .slnil
  | cons a ks ih =>
    rw [novel]
    split
    · exact (ih seen).cons a
    · exact (ih _).cons_cons a

theorem nodup_novel (ks seen : List Key) : (novel ks seen).Nodup := by
  induction ks generalizing seen with
  | nil => exact List.nodup_nil
  | cons a ks ih =>
    by_cases ha : a ∈ seen
    · rw [novel, if_pos ha]
      exact ih seen
    · rw [novel, if_neg ha]
      exact List.nodup_cons.2 ⟨fun h => (mem_novel.1 h).2 List.mem_cons_self, ih _⟩

/-- The members that are not marked are the distinct ones without the marked. -/
private theorem novel_eq_filter (ks seen : List Key) :
    novel ks seen = (distinct ks).filter fun k => k ∉ seen := by
  induction ks generalizing seen with
  | nil => rfl
  | cons a ks ih =>
    have hcons : distinct (a :: ks) = a :: (distinct ks).filter fun k => k ≠ a := rfl
    by_cases ha : a ∈ seen
    · rw [novel, if_pos ha, ih, hcons, List.filter_cons_of_neg (by simpa using ha), List.filter_filter]
      refine List.filter_congr fun k _ => ?_
      by_cases hk : k ∈ seen
      · simp [hk]
      · have hka : k ≠ a := fun he => hk (he ▸ ha)
        simp [hk, hka]
    · rw [novel, if_neg ha, ih, hcons, List.filter_cons_of_pos (by simpa using ha), List.filter_filter]
      refine congrArg _ (List.filter_congr fun k _ => ?_)
      simp [Bool.and_comm]

private theorem novel_nil (ks : List Key) : novel ks [] = distinct ks := by
  rw [novel_eq_filter]
  exact List.filter_eq_self.2 fun k _ => decide_eq_true List.not_mem_nil

/-- A visit takes the members of its queue, and then the ends of the edges from what it takes. -/
theorem visitFrom_eq_novel : visitFrom edges queue seen =
    novel (queue ++ (visitFrom edges queue seen).flatMap fun k => (outgoing edges k).map Edge.head)
      seen := by
  fun_induction visitFrom edges queue seen with
  | case1 => rfl
  | case2 seen k rest hk ih => rwa [List.cons_append, novel, if_pos hk]
  | case3 seen k rest hk ih =>
    have hahead : ahead edges (k :: seen) k =
        ((outgoing edges k).map Edge.head).filter fun h => h ∉ k :: seen := rfl
    rw [List.flatMap_cons, List.cons_append, novel, if_neg hk]
    refine congrArg _ (ih.trans ?_)
    -- the ends that are marked already were not put in the queue
    have hmarked : ∀ l, l ∈ k :: seen ++ (novel rest (k :: seen) ++ k :: seen) ↔
        l ∈ novel rest (k :: seen) ++ k :: seen := by
      intro l
      simp only [List.mem_append, List.mem_cons]
      tauto
    rw [List.append_assoc, novel_append rest, novel_append rest, novel_append _ (List.flatMap _ _),
      novel_append _ (List.flatMap _ _), hahead, novel_filter, novel_congr hmarked]

/-- The ids are visited in the order in which the edges that are followed first lead to them. -/
theorem visitOrder_eq_distinct : visitOrder edges k =
    distinct (k :: ((visitOrder edges k).flatMap (outgoing edges)).map Edge.head) := by
  have h : visitOrder edges k = _ := visitFrom_eq_novel
  rwa [novel_nil, List.singleton_append, ← List.map_flatMap] at h

/-- Without a new member in its queue a visit takes nothing. -/
private theorem visitFrom_eq_nil (h : novel queue seen = []) : visitFrom edges queue seen = [] := by
  induction queue with
  | nil => rw [visitFrom]
  | cons a queue ih =>
    by_cases ha : a ∈ seen
    · rw [visitFrom, if_pos ha]
      exact ih (by rwa [novel, if_pos ha] at h)
    · simp [novel, ha] at h

private theorem visitFrom_eq_cons {ks : List Key} (edges : List Edge)
    (h : novel queue seen = k :: ks) :
    ∃ rest, novel rest (k :: seen) = ks ∧ visitFrom edges queue seen =
      k :: visitFrom edges (rest ++ ahead edges (k :: seen) k) (k :: seen) := by
  induction queue with
  | nil => simp [novel] at h
  | cons a queue ih =>
    by_cases ha : a ∈ seen
    · rw [visitFrom, if_pos ha]
      exact ih (by rwa [novel, if_pos ha] at h)
    · rw [novel, if_neg ha] at h
      obtain ⟨rfl, rfl⟩ := List.cons.inj h
      exact ⟨queue, rfl, by rw [visitFrom, if_neg ha]⟩

/-- A visit depends only on the new members of its queue. -/
theorem visitFrom_congr {queue' : List Key} (h : novel queue seen = novel queue' seen) :
    visitFrom edges queue seen = visitFrom edges queue' seen := by
  fun_induction visitFrom edges queue seen generalizing queue' with
  | case1 => exact (visitFrom_eq_nil h.symm).symm
  | case2 seen k rest hk ih => exact ih (by rwa [novel, if_pos hk] at h)
  | case3 seen k rest hk ih =>
    rw [novel, if_neg hk] at h
    obtain ⟨rest', hr, hv⟩ := visitFrom_eq_cons edges h.symm
    have hq : novel (rest ++ ahead edges (k :: seen) k) (k :: seen) =
        novel (rest' ++ ahead edges (k :: seen) k) (k :: seen) := by
      rw [novel_append, novel_append, hr]
    rw [hv, ih hq]

end

end Flowchart
