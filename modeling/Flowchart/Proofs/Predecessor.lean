import Flowchart.Proofs.Direct
import Flowchart.Proofs.Following
import Mathlib.Order.Bounds.Basic
/-! What the actions that follow an id wait for. Each waits for the first of the ids before it that
an edge leads from, and is run as the first such edge says. Back along what they wait for, each is
as many steps from the start as the fewest edges that lead to it: they form the breadth-first
tree. -/
namespace Flowchart

/-- The action waits for `p`, the first of the ids from which an edge leads to it. It stands after
`p`, and is run as the first edge from there says. -/
structure ActionRef.IsFoundFrom (edges : List Edge) (ids : List Scalar) (r : ActionRef)
    (p : Scalar) : Prop where
  first : ∃ before after, ids = before ++ p :: after ∧
    (∀ q ∈ before, ¬ Leads edges q.key r.key) ∧ r.node ∈ after
  edge : ∃ e, edges.find? (fun e => e.tail = p.key ∧ e.head = r.key) = some e ∧ r.Takes e p

/-- `n` steps back from `y`, each from an action to the one id that it waits for, lead to `x`. -/
inductive WaitsBack (refs : List ActionRef) (x : Scalar) : Nat → Scalar → Prop where
  | start : WaitsBack refs x 0 x
  | wait {n : Nat} {p : Scalar} {r : ActionRef} (hr : r ∈ refs) (hp : r.dependsOn = [p])
      (w : WaitsBack refs x n p) : WaitsBack refs x (n + 1) r.node

section
variable {nodes : List Node} {edges es : List Edge} {visited met : List Key} {p q x : Scalar}
  {r : ActionRef} {ids : List Scalar} {refs : List ActionRef} {n : Nat}

private theorem ActionRef.IsFoundFrom.waits (h : r.IsFoundFrom edges ids p) :
    r.dependsOn = [p] := by
  obtain ⟨e, -, htakes⟩ := h.edge
  exact htakes.waits

private theorem ActionRef.IsFoundFrom.leads (h : r.IsFoundFrom edges ids p) :
    Leads edges p.key r.key := by
  obtain ⟨e, he, -⟩ := h.edge
  obtain ⟨ht, hh⟩ : e.tail = p.key ∧ e.head = r.key := by simpa using List.find?_some he
  exact ⟨e, List.mem_of_find?_eq_some he, ht, hh⟩

private theorem ActionRef.IsFoundFrom.mem (h : r.IsFoundFrom edges ids p) : p ∈ ids := by
  obtain ⟨before, after, rfl, -⟩ := h.first
  exact List.mem_append_right _ List.mem_cons_self

/-- An id in front from which no edge leads to the action changes nothing. -/
theorem ActionRef.IsFoundFrom.cons (h : r.IsFoundFrom edges ids p)
    (hq : ¬ Leads edges q.key r.key) : r.IsFoundFrom edges (q :: ids) p := by
  obtain ⟨before, after, rfl, hbefore, hafter⟩ := h.first
  exact ⟨⟨q :: before, after, rfl, List.forall_mem_cons.2 ⟨hq, hbefore⟩, hafter⟩, h.edge⟩

private theorem not_mem_of_mem_discover (h : r ∈ discover nodes p es met) : r.key ∉ met := by
  have hk : r.key ∈ (discover nodes p es met).map ActionRef.key := List.mem_map_of_mem h
  rw [keys_discover] at hk
  exact (mem_novel.1 hk).2

/-- Of the edges that lead to an action, the first discovers it. -/
private theorem takes_of_mem_discover (h : r ∈ discover nodes p es met) :
    ∃ e, es.find? (fun e => e.head = r.key) = some e ∧ r.Takes e p := by
  induction es generalizing met with
  | nil => cases h
  | cons e es ih =>
    -- an edge that is passed over leads elsewhere
    have later {met : List Key} (hne : e.head ≠ r.key) (h : r ∈ discover nodes p es met) :
        ∃ f, (e :: es).find? (fun e => e.head = r.key) = some f ∧ r.Takes f p := by
      rw [List.find?_cons_of_neg (by simpa using hne)]
      exact ih h
    cases hn : actionAt nodes e with
    | none =>
      rw [discover, hn] at h
      refine later (fun he => ?_) h
      obtain ⟨f, -, m, hm, rfl⟩ := exists_of_mem_discover h
      rw [key_ofEdge, head_of_actionAt hm] at he
      rw [actionAt, he, ← actionAt, hm] at hn
      cases hn
    | some n =>
      have hk : n.key = e.head := head_of_actionAt hn
      rw [discover, hn] at h
      dsimp only at h
      split at h
      · next hmet => exact later (fun he => not_mem_of_mem_discover h (he ▸ hk ▸ hmet)) h
      · rcases List.mem_cons.1 h with rfl | h
        · exact ⟨e, List.find?_cons_of_pos (decide_eq_true hk.symm), takes_ofEdge⟩
        · refine later (fun he => not_mem_of_mem_discover h ?_) h
          rw [← he, ← hk]
          exact List.mem_cons_self

private theorem not_mem_of_mem_closureFrom {queue : List Scalar}
    (h : r ∈ closureFrom nodes edges queue met) : r.key ∉ met := by
  fun_induction closureFrom nodes edges queue met with
  | case1 => cases h
  | case2 met x rest found =>
    rename_i ih
    rcases List.mem_append.1 h with h | h
    · exact not_mem_of_mem_discover h
    · exact fun hmet => ih h (List.mem_append_right _ hmet)

/-- All that an id leads to is met once its edges have been followed. -/
private theorem mem_discover_or_met (hn : IsAction nodes r.key) (hl : Leads edges x.key r.key) :
    r.key ∈ (discover nodes x (outgoing edges x.key) met).map ActionRef.key ++ met := by
  obtain ⟨e, he, ht, hh⟩ := hl
  obtain ⟨n, hn⟩ := isAction_head.1 (hh ▸ hn)
  by_cases hmet : r.key ∈ met
  · exact List.mem_append_right _ hmet
  · refine List.mem_append_left _ ?_
    rw [keys_discover, mem_novel]
    refine ⟨List.mem_map.2 ⟨n, List.mem_filterMap.2 ⟨e, mem_outgoing.2 ⟨he, ht⟩, hn⟩, ?_⟩, hmet⟩
    rw [head_of_actionAt hn, hh]

private theorem isAction_of_comesAlong (h : ComesAlong nodes edges r) : IsAction nodes r.key := by
  obtain ⟨n, hn, hc, -⟩ := exists_node_of_comesAlong h
  exact ⟨n, hn, hc⟩

/-- Ids are expanded in the order in which they are listed, so the first that leads to an action
discovers it. -/
theorem exists_isFoundFrom_closureFrom {queue : List Scalar}
    (h : r ∈ closureFrom nodes edges queue met) : ∃ p, r.IsFoundFrom edges
      (queue ++ (closureFrom nodes edges queue met).map ActionRef.node) p := by
  fun_induction closureFrom nodes edges queue met with
  | case1 => cases h
  | case2 met x rest found =>
    rename_i ih
    rcases List.mem_append.1 h with h | h
    · refine ⟨x, ⟨[], _, rfl, List.forall_mem_nil _, ?_⟩, ?_⟩
      · rw [List.map_append]
        exact List.mem_append_right _ (List.mem_append_left _ (List.mem_map_of_mem h))
      · obtain ⟨e, he, htakes⟩ := takes_of_mem_discover h
        refine ⟨e, ?_, htakes⟩
        rw [outgoing, List.find?_filter] at he
        simpa using he
    · obtain ⟨p, hp⟩ := ih h
      have hnot : ¬ Leads edges x.key r.key := fun hl =>
        not_mem_of_mem_closureFrom h
          (mem_discover_or_met (isAction_of_comesAlong (comesAlong_closureFrom h)) hl)
      refine ⟨p, ?_⟩
      rw [List.map_append, List.cons_append, ← List.append_assoc]
      exact hp.cons hnot

private theorem exists_isFoundFrom (h : r ∈ following nodes edges visited x) :
    ∃ p, r.IsFoundFrom edges (x :: (following nodes edges visited x).map ActionRef.node) p := by
  have hx : x.key ∉ visited := by
    intro hx
    rw [following_of_mem hx] at h
    cases h
  rw [following, if_neg hx] at h ⊢
  exact exists_isFoundFrom_closureFrom h

section
variable (hr : r ∈ following nodes edges visited x)
  (h : r.IsFoundFrom edges (x :: (following nodes edges visited x).map ActionRef.node) p)
include hr h

private theorem ActionRef.IsFoundFrom.leads_actionEdges :
    Leads (actionEdges nodes edges visited) p.key r.key := by
  obtain ⟨-, hne, hreach⟩ := mem_keys_following.1 (List.mem_map_of_mem hr)
  obtain he | ⟨-, -, f, hf, -, hfr⟩ := Relation.ReflTransGen.cases_tail hreach
  · exact absurd he hne
  · obtain ⟨-, -, hvisited⟩ := mem_actionEdges.1 hf
    obtain ⟨e, he, ht, hh⟩ := h.leads
    have hact : IsAction nodes e.head := hh ▸ isAction_of_comesAlong (comesAlong_following hr)
    exact ⟨e, mem_actionEdges.2 ⟨he, isAction_head.1 hact, hh ▸ hfr ▸ hvisited⟩, ht, hh⟩

/-- What an action waits for is nearer to the start. -/
theorem ActionRef.IsFoundFrom.exists_walk_lt
    (w : Walk (actionEdges nodes edges visited) n x.key r.key) :
    ∃ m < n, Walk (actionEdges nodes edges visited) m x.key p.key := by
  obtain ⟨hx, hne, -⟩ := mem_keys_following.1 (List.mem_map_of_mem hr)
  obtain ⟨n, b, rfl, w, hl⟩ := w.exists_last hne
  obtain ⟨before, after, hids, hbefore, -⟩ := h.first
  have hkeys : visitOrder (actionEdges nodes edges visited) x.key =
      before.map Scalar.key ++ p.key :: after.map Scalar.key := by
    rw [← keys_following hx, ← List.map_cons, ← List.map_append, ← hids, List.map_cons, List.map_map]
    rfl
  have hb : b ∈ visitOrder (actionEdges nodes edges visited) x.key := mem_visitOrder.2 w.reaches
  have horder := @pairwise_visitOrder (actionEdges nodes edges visited) x.key
  rw [hkeys] at hb horder
  rcases List.mem_append.1 hb with hb | hb
  · obtain ⟨q, hq, rfl⟩ := List.mem_map.1 hb
    exact absurd (hl.mono fun e he => (mem_actionEdges.1 he).1) (hbefore q hq)
  · rcases List.mem_cons.1 hb with rfl | hb
    · exact ⟨n, n.lt_succ_self, w⟩
    · obtain ⟨hfirst, -⟩ := List.pairwise_cons.1 (List.pairwise_append.1 horder).2.1
      obtain ⟨m, hm, w'⟩ := hfirst b hb n w
      exact ⟨m, Nat.lt_succ_of_le hm, w'⟩

end

/-- As many steps back as the fewest edges out. -/
theorem isLeast_of_waitsBack (h : WaitsBack (following nodes edges visited x) x n q) :
    IsLeast {m | Walk (actionEdges nodes edges visited) m x.key q.key} n := by
  induction h with
  | start => exact ⟨.here x.key, fun m _ => Nat.zero_le m⟩
  | @wait n p r hr hp _ ih =>
    obtain ⟨p', hfound⟩ := exists_isFoundFrom hr
    obtain rfl : p' = p := List.singleton_inj.1 (hfound.waits.symm.trans hp)
    refine ⟨.snoc ih.1 (hfound.leads_actionEdges hr), fun m w => ?_⟩
    obtain ⟨l, hlm, w'⟩ := hfound.exists_walk_lt hr w
    exact Nat.lt_of_le_of_lt (ih.2 w') hlm

private theorem exists_waitsBack
    (hq : q ∈ x :: (following nodes edges visited x).map ActionRef.node)
    (w : Walk (actionEdges nodes edges visited) n x.key q.key) :
    ∃ m, WaitsBack (following nodes edges visited x) x m q := by
  induction n using Nat.strong_induction_on generalizing q with
  | _ n ih =>
    rcases List.mem_cons.1 hq with rfl | hq
    · exact ⟨0, .start⟩
    · obtain ⟨r, hr, rfl⟩ := List.mem_map.1 hq
      obtain ⟨p, hp⟩ := exists_isFoundFrom hr
      obtain ⟨m, hm, w'⟩ := hp.exists_walk_lt hr w
      obtain ⟨l, hl⟩ := ih m hm hp.mem w'
      exact ⟨l + 1, .wait hr hp.waits hl⟩

/-- Each action that follows waits for the first id, among the start and the actions in order, from
which an edge leads to it, and stands after that id. The first edge from there says how it is run.
The steps back to the start are as many as the fewest edges that lead there along actions that may
be entered. -/
theorem following_breadthFirst (nodes : List Node) (edges : List Edge) (visited : List Key)
    (x : Scalar) :
    (∀ refs, following? nodes edges visited x = .ok refs → ∀ r ∈ refs,
      (∃ p, r.IsFoundFrom edges (x :: refs.map ActionRef.node) p) ∧
      ∃ n, (∀ m, WaitsBack refs x m r.node ↔ m = n) ∧
        IsLeast {m | Walk (actionEdges nodes edges visited) m x.key r.key} n) ∧
    ((∀ n ∈ nodes, n.type.isScalar = true) →
      ∃ refs, following? nodes edges visited x = .ok refs) := by
  refine ⟨fun refs h r hr => ?_, exists_following?⟩
  obtain rfl := following?_eq_ok h
  refine ⟨exists_isFoundFrom hr, ?_⟩
  obtain ⟨-, -, hreach⟩ := mem_keys_following.1 (List.mem_map_of_mem hr)
  obtain ⟨k, w⟩ := reaches_iff_walk.1 hreach
  have hmem : r.node ∈ x :: (following nodes edges visited x).map ActionRef.node :=
    List.mem_cons_of_mem _ (List.mem_map_of_mem hr)
  obtain ⟨n, hn⟩ := exists_waitsBack hmem w
  have hleast := isLeast_of_waitsBack hn
  refine ⟨n, fun m => ⟨fun hm => ?_, fun he => he ▸ hn⟩, hleast⟩
  exact (isLeast_of_waitsBack hm).unique hleast

/-- Both `p` and `q` lead to `r`, and `p` along two edges. -/
def pairedEdges : List Edge :=
  forkEdges ++ [⟨"9", "p", "r", .null, .null, some [("order", .int 4)]⟩]

theorem following_breadthFirst_paired :
    ∃ refs, following? forkNodes pairedEdges [.text "z"] "s" = .ok refs ∧
      ∃ r ∈ refs, r.node = "r" ∧
        r.IsFoundFrom pairedEdges ("s" :: refs.map ActionRef.node) "p" ∧
        WaitsBack refs "s" 2 "r" ∧
        IsLeast {m | Walk (actionEdges forkNodes pairedEdges [.text "z"]) m
          (.text "s") (.text "r")} 2 := by
  obtain ⟨hrefs, htotal⟩ := following_breadthFirst forkNodes pairedEdges [.text "z"] "s"
  obtain ⟨refs, h⟩ := htotal (by decide)
  have hlist : refs = [⟨"p", "actionNode", .int 0, true, ["s"]⟩,
      ⟨"q", "textNode", .int 0, true, ["s"]⟩, ⟨"r", "actionNode", .int 0, true, ["p"]⟩] := by
    rw [following?_eq_ok h]
    decide +kernel
  have hp : ⟨"p", "actionNode", .int 0, true, ["s"]⟩ ∈ refs := by simp [hlist]
  have hr : ⟨"r", "actionNode", .int 0, true, ["p"]⟩ ∈ refs := by simp [hlist]
  obtain ⟨⟨p, hfound⟩, n, hsteps, hleast⟩ := hrefs refs h _ hr
  obtain rfl : p = "p" := (List.singleton_inj.1 hfound.waits).symm
  have hback : WaitsBack refs "s" 2 "r" := .wait hr rfl (.wait hp rfl .start)
  obtain rfl := (hsteps 2).1 hback
  exact ⟨refs, h, _, hr, rfl, hfound, hback, hleast⟩

end

end Flowchart
