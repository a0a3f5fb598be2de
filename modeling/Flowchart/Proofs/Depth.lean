import Flowchart.Proofs.Waiting
/-! Branches at any depth. However deep a branch stands under nested conditions, it is formed like
one at the top, from the edges of the condition that it belongs to. -/
namespace Flowchart

/-- The branch is one of the paths, or belongs to a condition that a branch under them leads to. -/
inductive Branch.Under : List Branch → Branch → Prop where
  | here {bs : List Branch} {b : Branch} (h : b ∈ bs) : Under bs b
  | deeper {bs : List Branch} {b b' : Branch} {x : Nested Branch} (hb : b' ∈ bs)
      (hx : x ∈ b'.nested) (h : Under x.paths b) : Under bs b

/-- The condition is nested under one of the paths, below conditions with the ids of the chain, the
outermost first. -/
inductive Nested.Under : List Branch → List Key → Nested Branch → Prop where
  | here {bs : List Branch} {b : Branch} {x : Nested Branch} (hb : b ∈ bs) (hx : x ∈ b.nested) :
      Under bs [] x
  | deeper {bs : List Branch} {b : Branch} {x y : Nested Branch} {chain : List Key} (hb : b ∈ bs)
      (hy : y ∈ b.nested) (h : Under y.paths chain x) : Under bs (y.node.key :: chain) x

section
variable {nodes : List Node} {edges own : List Edge} {visited chain : List Key} {c n : Node} {e : Edge}
  {source : Scalar} {b : Branch} {x : Nested Branch} {r : ActionRef}

/-- A branch leads to the conditions at the ends of its edges. -/
theorem exists_edge_of_mem_nested (hb : branchOf nodes edges visited source own = some b)
    (hx : x ∈ b.nested) : ∃ e ∈ own, ∃ n, lookup nodes e.head = some n ∧ n.isCondition = true ∧
      x = ⟨n.id, n.type, branches nodes edges visited n⟩ := by
  obtain ⟨first, -, rfl⟩ := Option.map_eq_some_iff.1 hb
  obtain ⟨e, he, hx⟩ := List.mem_filterMap.1 hx
  obtain ⟨n, hn, rfl⟩ := Option.map_eq_some_iff.1 hx
  obtain ⟨hl, hc⟩ := conditionAt_eq_some.1 hn
  exact ⟨e, he, n, hl, hc, rfl⟩

/-- Each condition that an edge leads to stands under the branch of the edge. -/
theorem exists_mem_nested (hc : c.key ∉ visited) (he : e ∈ outgoing edges c.key)
    (hn : conditionAt nodes e = some n) : ∃ b ∈ branches nodes edges visited c,
      b.label.key? = e.branchKey ∧
      ⟨n.id, n.type, branches nodes edges (c.key :: visited) n⟩ ∈ b.nested := by
  have hown : e ∈ branchEdges edges c.key e.branchKey := mem_branchEdges.2 ⟨he, rfl⟩
  obtain ⟨b, hb⟩ := exists_branchOf nodes edges (c.key :: visited) c.id hown
  refine ⟨b, (mem_branches hc).2 ⟨e, he, hb⟩, key?_label hb, ?_⟩
  obtain ⟨first, -, rfl⟩ := Option.map_eq_some_iff.1 hb
  exact List.mem_filterMap.2 ⟨e, hown, by rw [nestedAlong, hn]; rfl⟩

/-- At any depth a nested condition has its own branches, as they are when neither the condition at
the top nor those above it are entered again. None of these ids is that of an action. -/
theorem exists_branches_of_nested (hno : NoAction nodes (c.key :: visited))
    (h : Nested.Under (branches nodes edges visited c) chain x) :
    ∃ d, lookup nodes x.node.key = some d ∧ d.isCondition = true ∧
      NoAction nodes (chain.reverse ++ c.key :: visited) ∧
      x.paths = branches nodes edges (chain.reverse ++ c.key :: visited) d := by
  generalize hbs : branches nodes edges visited c = bs at h
  induction h generalizing visited c with
  | here hb hx =>
    subst hbs
    have hb := branchOf_of_mem hb
    obtain ⟨e, -, n, hl, hc, rfl⟩ := exists_edge_of_mem_nested hb hx
    have hl' : lookup nodes n.key = some n := key_of_lookup hl ▸ hl
    exact ⟨n, hl', hc, hno, rfl⟩
  | deeper hb hy _ ih =>
    subst hbs
    have hb := branchOf_of_mem hb
    obtain ⟨e, -, n, hl, hc, rfl⟩ := exists_edge_of_mem_nested hb hy
    have hl' : lookup nodes n.key = some n := key_of_lookup hl ▸ hl
    obtain ⟨d, hd⟩ := ih (hno.cons hl' hc) rfl
    refine ⟨d, ?_⟩
    rwa [List.reverse_cons, List.append_assoc, List.singleton_append]

/-- At any depth a branch is formed from edges that leave its condition. -/
theorem exists_branchOf_of_under (h : b.Under (branches nodes edges visited c)) :
    ∃ visited' c' own, (∀ e ∈ own, e ∈ outgoing edges (Node.key c')) ∧
      branchOf nodes edges visited' c'.id own = some b := by
  generalize hbs : branches nodes edges visited c = bs at h
  induction h generalizing visited c with
  | here h =>
    subst hbs
    have hb := branchOf_of_mem h
    exact ⟨_, c, _, fun e he => (mem_branchEdges.1 he).1, hb⟩
  | deeper hb hx _ ih =>
    subst hbs
    have hb := branchOf_of_mem hb
    obtain ⟨e, -, n, -, -, rfl⟩ := exists_edge_of_mem_nested hb hx
    exact ih rfl

/-- At any depth an action is what an edge leads to from the id that it waits for. -/
theorem comesAlong_of_under (h : b.Under (branches nodes edges visited c)) (hr : r ∈ b.actions) :
    ComesAlong nodes edges r := by
  obtain ⟨_, _, _, hown, hb⟩ := exists_branchOf_of_under h
  exact comesAlong_branchOf hown hb r hr

/-- At any depth what is nested under a branch is a condition that is found by its id. -/
theorem lookup_of_under (h : b.Under (branches nodes edges visited c)) (hx : x ∈ b.nested) :
    ∃ n, lookup nodes n.key = some n ∧ n.id = x.node ∧ n.isCondition = true := by
  obtain ⟨_, _, _, -, hb⟩ := exists_branchOf_of_under h
  obtain ⟨e, -, n, hl, hc, rfl⟩ := exists_edge_of_mem_nested hb hx
  exact ⟨n, key_of_lookup hl ▸ hl, rfl, hc⟩

theorem isCondition_of_under (h : b.Under (branches nodes edges visited c)) (hx : x ∈ b.nested) :
    ∃ n ∈ nodes, n.id = x.node ∧ n.isCondition = true := by
  obtain ⟨n, hl, hid, hc⟩ := lookup_of_under h hx
  exact ⟨n, mem_of_lookup hl, hid, hc⟩

end

end Flowchart
