import Flowchart.Proofs.Branch
import Flowchart.Proofs.Closure
import Mathlib.Data.List.Basic
/-! Copying a branch: the graph that is cut out at an id reads, from every id that can be reached
there, like the graph it was cut from. -/
namespace Flowchart

/-- Two graphs look alike from the ids with `K`: the same nodes and the same outgoing edges, which
lead to ids with `K` again. -/
structure Alike (nodes nodes' : List Node) (edges edges' : List Edge) (K : Key → Prop) : Prop where
  node : ∀ k, K k → lookup nodes' k = lookup nodes k
  leaving : ∀ k, K k → outgoing edges' k = outgoing edges k
  closed : ∀ k, K k → ∀ e ∈ outgoing edges k, K e.head

namespace Alike

section
variable {nodes nodes' : List Node} {edges edges' : List Edge} {K : Key → Prop} {a b : Key} {c : Node}
  {e : Edge} {x : Scalar} {visited seen met : List Key} (h : Alike nodes nodes' edges edges' K)

include h

private theorem reaches (ha : K a) (hr : Reaches edges a b) : K b := by
  induction hr with
  | refl => exact ha
  | tail _ hl ih =>
    obtain ⟨e, he, ht, rfl⟩ := hl
    exact h.closed _ ih e (mem_outgoing.2 ⟨he, ht⟩)

private theorem visitFrom {queue : List Key} (hq : ∀ k ∈ queue, K k) :
    visitFrom edges' queue seen = visitFrom edges queue seen := by
  fun_induction Flowchart.visitFrom edges queue seen with
  | case1 => rw [Flowchart.visitFrom]
  | case2 seen k rest hk ih =>
    rw [Flowchart.visitFrom, if_pos hk]
    exact ih fun a ha => hq a (List.mem_cons_of_mem _ ha)
  | case3 seen k rest hk ih =>
    have hk' : K k := hq k List.mem_cons_self
    have hahead : ahead edges' (k :: seen) k = ahead edges (k :: seen) k := by
      rw [ahead, h.leaving k hk', ahead]
    rw [Flowchart.visitFrom, if_neg hk, hahead, ih]
    intro a ha
    rcases List.mem_append.1 ha with ha | ha
    · exact hq a (List.mem_cons_of_mem _ ha)
    · obtain ⟨⟨e, he, ht, rfl⟩, -⟩ := mem_ahead.1 ha
      exact h.closed k hk' e (mem_outgoing.2 ⟨he, ht⟩)

private theorem subtree (ha : K a) : subtree nodes' edges' a = subtree nodes edges a := by
  have hv : visitOrder edges' a = visitOrder edges a := h.visitFrom (by simpa using ha)
  have hK : ∀ k ∈ visitOrder edges a, K k := fun k hk => h.reaches ha (mem_visitOrder.1 hk)
  have hn : (visitOrder edges a).filterMap (lookup nodes') = (visitOrder edges a).filterMap (lookup nodes) :=
    List.filterMap_congr fun k hk => h.node k (hK k hk)
  have he : (visitOrder edges a).flatMap (outgoing edges') = (visitOrder edges a).flatMap (outgoing edges) :=
    List.flatMap_congr fun k hk => h.leaving k (hK k hk)
  simp only [Flowchart.subtree, hv, hn, he]

private theorem actionAt (he : K e.head) : actionAt nodes' e = actionAt nodes e := by
  rw [Flowchart.actionAt, h.node _ he, Flowchart.actionAt]

private theorem conditionAt (he : K e.head) : conditionAt nodes' e = conditionAt nodes e := by
  rw [Flowchart.conditionAt, h.node _ he, Flowchart.conditionAt]

private theorem discover {p : Scalar} {es : List Edge} (he : ∀ e ∈ es, K e.head) :
    discover nodes' p es met = discover nodes p es met := by
  induction es generalizing met with
  | nil => rfl
  | cons e es ih =>
    have hes : ∀ e ∈ es, K e.head := fun e hm => he e (List.mem_cons_of_mem _ hm)
    simp only [Flowchart.discover, h.actionAt (he e List.mem_cons_self), ih hes]

private theorem closureFrom {queue : List Scalar} (hq : ∀ x ∈ queue, K x.key) :
    closureFrom nodes' edges' queue met = closureFrom nodes edges queue met := by
  fun_induction Flowchart.closureFrom nodes edges queue met with
  | case1 => rw [Flowchart.closureFrom]
  | case2 met x rest found =>
    rename_i ih
    have hx : K x.key := hq x List.mem_cons_self
    have hf : Flowchart.discover nodes' x (outgoing edges' x.key) met = found := by
      rw [h.leaving _ hx, h.discover (h.closed _ hx)]
    rw [Flowchart.closureFrom, hf, ih]
    intro y hy
    rcases List.mem_append.1 hy with hy | hy
    · exact hq y (List.mem_cons_of_mem _ hy)
    · obtain ⟨r, hr, rfl⟩ := List.mem_map.1 hy
      obtain ⟨e, he, n, hn, rfl⟩ := exists_of_mem_discover hr
      have hk : n.key = e.head := head_of_actionAt hn
      exact (congrArg K hk).mpr (h.closed _ hx e he)

private theorem following (hx : K x.key) :
    following nodes' edges' visited x = following nodes edges visited x := by
  rw [Flowchart.following, h.closureFrom (by simpa using hx), Flowchart.following]

private theorem followingSees (hx : K x.key) :
    followingSees nodes' edges' visited x = followingSees nodes edges visited x := by
  unfold Flowchart.followingSees
  rw [h.following hx]
  split
  · rfl
  · refine List.flatMap_congr fun k hk => ?_
    have hk' : K k := by
      rcases List.mem_cons.1 hk with rfl | hk
      · exact hx
      · exact h.reaches hx ((mem_keys_following.1 hk).2.2.mono fun e he => (mem_actionEdges.1 he).1)
    rw [h.leaving k hk']
    exact List.filterMap_congr fun e he => h.node _ (h.closed k hk' e he)

private theorem following? (hx : K x.key) :
    following? nodes' edges' visited x = following? nodes edges visited x := by
  rw [Flowchart.following?, h.followingSees hx, h.following hx, Flowchart.following?]

private theorem actionsAlong {source : Scalar} (he : K e.head) :
    actionsAlong nodes' edges' visited source e = actionsAlong nodes edges visited source e := by
  rw [Flowchart.actionsAlong, h.actionAt he, Flowchart.actionsAlong]
  cases hn : Flowchart.actionAt nodes e with
  | none => rfl
  | some n =>
    have hk : n.key = e.head := head_of_actionAt hn
    simp only [h.following (x := n.id) ((congrArg K hk).mpr he)]

private theorem branches (hc : K c.key) :
    branches nodes' edges' visited c = branches nodes edges visited c := by
  induction visited, c using branches.induct nodes edges with
  | case1 visited c hm => rw [branches_of_mem hm, branches_of_mem hm]
  | case2 visited c hm out ih =>
    rw [branches_eq hm, branches_eq hm, h.leaving _ hc]
    refine List.filterMap_congr fun k _ => ?_
    have hown : ∀ e ∈ branchEdges edges c.key k, e ∈ out ∧ K e.head := fun e he =>
      ⟨(mem_branchEdges.1 he).1, h.closed _ hc e (mem_branchEdges.1 he).1⟩
    have hnested : ∀ e ∈ branchEdges edges c.key k,
        nestedAlong nodes' edges' (c.key :: visited) e = nestedAlong nodes edges (c.key :: visited) e := by
      intro e he
      obtain ⟨he, hK⟩ := hown e he
      rw [nestedAlong, nestedAlong, h.conditionAt hK]
      cases hn : Flowchart.conditionAt nodes e with
      | none => rfl
      | some n => rw [Option.map_some, Option.map_some, ih e he n (head_of_conditionAt hn ▸ hK)]
    have hsame : branchEdges edges' c.key k = branchEdges edges c.key k := by
      rw [branchEdges, h.leaving _ hc, branchEdges]
    rw [branchOf, branchOf, hsame, List.filterMap_congr hnested,
      List.flatMap_congr fun e he => h.actionsAlong (hown e he).2]

private theorem areReadable (hc : K c.key) :
    areReadable nodes' edges' visited c = areReadable nodes edges visited c := by
  induction visited, c using areReadable.induct edges with
  | case1 visited c hm => rw [areReadable_of_mem hm, areReadable_of_mem hm]
  | case2 visited c hm ih =>
    rw [areReadable_eq hm, areReadable_eq hm, h.leaving _ hc]
    have hsame : ∀ e ∈ outgoing edges c.key,
        isReadableAlong nodes' edges' (c.key :: visited) e =
          isReadableAlong nodes edges (c.key :: visited) e := by
      intro e he
      have hK : K e.head := h.closed _ hc e he
      rw [isReadableAlong, isReadableAlong, h.node _ hK]
      cases hn : lookup nodes e.head with
      | none => rfl
      | some n =>
        have hk : K n.key := (congrArg K (key_of_lookup hn)).mpr hK
        simp only [ih e he n hk, h.followingSees (x := n.id) hk]
    rw [Bool.eq_iff_iff, List.all_eq_true, List.all_eq_true]
    exact forall₂_congr fun e he => by rw [hsame e he]

private theorem branches? (hc : K c.key) :
    branches? nodes' edges' visited c = branches? nodes edges visited c := by
  rw [Flowchart.branches?, h.areReadable hc, h.branches hc, Flowchart.branches?]

end

end Alike

private theorem lookup_filterMap {nodes : List Node} {ks : List Key} {k : Key} (hk : k ∈ ks) :
    lookup (ks.filterMap (lookup nodes)) k = lookup nodes k := by
  cases hm : lookup (ks.filterMap (lookup nodes)) k with
  | some n =>
    obtain ⟨a, -, ha⟩ := List.mem_filterMap.1 (mem_of_lookup hm)
    rw [← ha, ← key_of_lookup ha, key_of_lookup hm]
  | none =>
    cases hn : lookup nodes k with
    | none => rfl
    | some n =>
      have hmem : n ∈ ks.filterMap (lookup nodes) := List.mem_filterMap.2 ⟨k, hk, hn⟩
      exact absurd (key_of_lookup hn) (by simpa using List.find?_eq_none.1 hm n hmem)

private theorem outgoing_outgoing (edges : List Edge) (a k : Key) :
    outgoing (outgoing edges a) k = if a = k then outgoing edges k else [] := by
  unfold outgoing
  rw [List.filter_filter]
  split
  · next h =>
    subst h
    exact List.filter_congr fun e _ => by simp
  · next h =>
    refine List.filter_eq_nil_iff.2 fun e _ => ?_
    simp only [Bool.and_eq_true, decide_eq_true_eq]
    rintro ⟨hk, ha⟩
    exact h (ha.symm.trans hk)

private theorem outgoing_flatMap_cons (edges : List Edge) (a k : Key) (ks : List Key) :
    outgoing ((a :: ks).flatMap (outgoing edges)) k =
      (if a = k then outgoing edges k else []) ++ outgoing (ks.flatMap (outgoing edges)) k := by
  rw [List.flatMap_cons, ← outgoing_outgoing]
  exact List.filter_append ..

private theorem outgoing_flatMap_of_not_mem {edges : List Edge} {ks : List Key} {k : Key}
    (h : k ∉ ks) : outgoing (ks.flatMap (outgoing edges)) k = [] := by
  induction ks with
  | nil => rfl
  | cons a ks ih =>
    obtain ⟨ha, hks⟩ := not_or.1 (mt List.mem_cons.2 h)
    rw [outgoing_flatMap_cons, if_neg (Ne.symm ha), ih hks, List.append_nil]

private theorem outgoing_flatMap {edges : List Edge} {ks : List Key} {k : Key} (hn : ks.Nodup)
    (hk : k ∈ ks) : outgoing (ks.flatMap (outgoing edges)) k = outgoing edges k := by
  induction ks with
  | nil => cases hk
  | cons a ks ih =>
    obtain ⟨ha, hn⟩ := List.nodup_cons.1 hn
    rw [outgoing_flatMap_cons]
    rcases List.mem_cons.1 hk with rfl | hk
    · rw [if_pos rfl, outgoing_flatMap_of_not_mem ha, List.append_nil]
    · have hne : a ≠ k := fun he => ha (he ▸ hk)
      rw [if_neg hne, List.nil_append, ih hn hk]

/-- What is cut out at an id looks alike from every id that can be reached there. -/
theorem alike_subtree (nodes : List Node) (edges : List Edge) (start : Key) :
    Alike nodes (subtree nodes edges start).nodes edges (subtree nodes edges start).edges
      (Reaches edges start) where
  node k hk := lookup_filterMap (mem_visitOrder.2 hk)
  leaving k hk := outgoing_flatMap nodup_visitOrder (mem_visitOrder.2 hk)
  closed k hk e he := by
    obtain ⟨he, ht⟩ := mem_outgoing.1 he
    exact .tail hk ⟨e, he, ht, rfl⟩

/-- Whatever can be reached in a branch is read from its copy as from the graph: what can be
reached from there, the actions that follow, and the branches. -/
theorem subtree_reads_alike (nodes : List Node) (edges : List Edge) {start : Key} {x : Scalar}
    (h : Reaches edges start x.key) :
    let copy := subtree nodes edges start
    subtree copy.nodes copy.edges x.key = subtree nodes edges x.key ∧
      (∀ visited, following? copy.nodes copy.edges visited x = following? nodes edges visited x) ∧
      lookup copy.nodes x.key = lookup nodes x.key ∧
      ∀ n, lookup nodes x.key = some n → ∀ visited,
        branches? copy.nodes copy.edges visited n = branches? nodes edges visited n := by
  have ha := alike_subtree nodes edges start
  refine ⟨ha.subtree h, fun visited => ha.following? h, ha.node _ h, fun n hn visited => ?_⟩
  exact ha.branches? ((congrArg (Reaches edges start) (key_of_lookup hn)).mpr h)

/-- A condition whose branch leads back to it, past an id that is no node. -/
def loopNodes : List Node :=
  [⟨"s", "actionNode", some [], some []⟩, ⟨"c", "ifNode", some [], some []⟩,
    ⟨"a", "actionNode", some [], some []⟩]

def loopEdges : List Edge :=
  [⟨"1", "a", "c", .null, .null, some []⟩, ⟨"2", "c", "a", "yes", .null, some []⟩,
    ⟨"3", "a", "gone", .null, .null, some []⟩, ⟨"4", "s", "c", .null, .null, some []⟩]

theorem subtree_reads_alike_loop :
    let copy := subtree loopNodes loopEdges (.text "a")
    Reaches loopEdges (.text "a") (Scalar.text "c").key ∧
      subtree copy.nodes copy.edges (.text "c") = subtree loopNodes loopEdges (.text "c") ∧
      ∀ n, lookup loopNodes (.text "c") = some n → ∀ visited,
        branches? copy.nodes copy.edges visited n = branches? loopNodes loopEdges visited n := by
  have h : Reaches loopEdges (.text "a") (Scalar.text "c").key :=
    .single ⟨⟨"1", "a", "c", .null, .null, some []⟩, by decide, rfl, rfl⟩
  obtain ⟨hs, -, -, hb⟩ := subtree_reads_alike loopNodes loopEdges h
  exact ⟨h, hs, hb⟩

end Flowchart
