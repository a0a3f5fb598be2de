import Flowchart.Proofs.Depth
import Mathlib.Data.List.Basic
/-! Conditions under conditions. A nested condition is routed without entering again the conditions
above it. Those are no actions, so nothing is hidden by that but further nesting: wherever a
condition is nested, its branches are the ones that it has on its own. -/
namespace Flowchart

/-- A branch without the conditions that it leads to. -/
def Branch.flat (b : Branch) : Branch := { b with nested := [] }

section
variable {nodes : List Node} {edges : List Edge} {visited chain : List Key} {c : Node}
  {source : Scalar} {own : List Edge} {x : Nested Branch} {bs : List Branch}

private theorem flat_branchOf (h : NoAction nodes visited) :
    (branchOf nodes edges visited source own).map Branch.flat =
      (branchOf nodes edges [] source own).map Branch.flat := by
  have hactions : own.flatMap (actionsAlong nodes edges visited source) =
      own.flatMap (actionsAlong nodes edges [] source) :=
    List.flatMap_congr fun e _ => actionsAlong_of_noAction h
  simp only [branchOf, Option.map_map, Function.comp_def, Branch.flat, hactions]

/-- Conditions that are not to be entered make no difference to what the branches list. -/
theorem flat_branches (hc : c.key ∉ visited) (h : NoAction nodes (c.key :: visited)) :
    (branches nodes edges visited c).map Branch.flat =
      (branches nodes edges [] c).map Branch.flat := by
  have hown : NoAction nodes [c.key] := fun k hk => h k (List.mem_singleton.1 hk ▸ List.mem_cons_self)
  rw [branches_eq hc, branches_eq List.not_mem_nil, List.map_filterMap, List.map_filterMap]
  refine List.filterMap_congr fun label _ => ?_
  rw [flat_branchOf h, flat_branchOf hown]

/-- At any depth a condition that is not nested inside itself has the branches there that it has on
its own, further nesting apart. -/
theorem nested_routes_alike (hl : lookup nodes c.key = some c) (hc : c.isCondition = true) :
    (∀ bs, branches? nodes edges [] c = .ok bs → ∀ chain x, Nested.Under bs chain x →
      x.node.key ∉ c.key :: chain → ∃ d, lookup nodes x.node.key = some d ∧ d.isCondition = true ∧
        ∀ own, branches? nodes edges [] d = .ok own →
          x.paths.map Branch.flat = own.map Branch.flat) ∧
    ((∀ n ∈ nodes, n.type.isScalar = true) → (∀ e ∈ edges, e.branch.isScalar = true) →
      ∀ n, ∃ bs, branches? nodes edges [] n = .ok bs) := by
  refine ⟨fun bs hbs chain x hx hk => ?_, fun ht hlabels n =>
    ⟨_, if_pos (areReadable_of_isScalar ht hlabels)⟩⟩
  rw [← branches?_eq_ok hbs] at hx
  obtain ⟨d, hd, hcond, hno, hpaths⟩ :=
    exists_branches_of_nested (noAction_of_isCondition hl hc) hx
  refine ⟨d, hd, hcond, fun own hown => ?_⟩
  have hout : d.key ∉ chain.reverse ++ [c.key] := by
    rw [key_of_lookup hd]
    simpa [or_comm] using hk
  rw [hpaths, ← branches?_eq_ok hown, flat_branches hout]
  exact hno.cons (key_of_lookup hd ▸ hd) hcond

/-- Three conditions, of which the first and the last lead back to the one between them, which leads
to both. -/
def mutualNodes : List Node :=
  [⟨"c", "ifNode", some [], some []⟩, ⟨"d", "switchNode", some [], some []⟩,
    ⟨"e", "ifNode", some [], some []⟩, ⟨"a", "actionNode", some [], some []⟩,
    ⟨"b", "actionNode", some [], some []⟩]

def mutualEdges : List Edge :=
  [⟨"1", "c", "d", "yes", .null, some []⟩, ⟨"2", "c", "a", "yes", .null, some []⟩,
    ⟨"3", "d", "c", "back", .null, some []⟩, ⟨"4", "d", "e", "on", .null, some []⟩,
    ⟨"5", "e", "d", "again", .null, some []⟩, ⟨"6", "e", "b", "do", .null, some [("order", .int 2)]⟩,
    ⟨"7", "b", "a", .null, .null, some []⟩, ⟨"8", "e", "a", "do", .null, some []⟩]

theorem nested_routes_alike_mutual :
    ∃ bs x own, branches? mutualNodes mutualEdges [] ⟨"c", "ifNode", some [], some []⟩ = .ok bs ∧
      Nested.Under bs [.text "d"] x ∧ x.node = "e" ∧
      branches? mutualNodes mutualEdges [] ⟨"e", "ifNode", some [], some []⟩ = .ok own ∧
      x.paths.map Branch.flat = own.map Branch.flat ∧
      own.map (fun b => b.actions.map ActionRef.key) = [[], [.text "b", .text "a"]] := by
  obtain ⟨hroutes, htotal⟩ := @nested_routes_alike mutualNodes mutualEdges
    ⟨"c", "ifNode", some [], some []⟩ (by decide) (by decide)
  obtain ⟨bs, hbs⟩ := htotal (by decide) (by decide) ⟨"c", "ifNode", some [], some []⟩
  obtain ⟨own, hown⟩ := htotal (by decide) (by decide) ⟨"e", "ifNode", some [], some []⟩
  obtain ⟨b, hb, -, hd⟩ := @exists_mem_nested mutualNodes mutualEdges []
    ⟨"c", "ifNode", some [], some []⟩ ⟨"d", "switchNode", some [], some []⟩
    ⟨"1", "c", "d", "yes", .null, some []⟩ (by decide) (by decide) (by decide)
  obtain ⟨b', hb', -, he⟩ := @exists_mem_nested mutualNodes mutualEdges [.text "c"]
    ⟨"d", "switchNode", some [], some []⟩ ⟨"e", "ifNode", some [], some []⟩
    ⟨"4", "d", "e", "on", .null, some []⟩ (by decide) (by decide) (by decide)
  have hunder : Nested.Under bs [.text "d"] _ := .deeper (branches?_eq_ok hbs ▸ hb) hd (.here hb' he)
  obtain ⟨d, hl, -, halike⟩ := hroutes bs hbs _ _ hunder (by decide)
  have hnode : d = ⟨"e", "ifNode", some [], some []⟩ := Option.some.inj (hl.symm.trans (by decide))
  refine ⟨bs, _, own, hbs, hunder, rfl, hown, halike own (hnode ▸ hown), ?_⟩
  rw [← branches?_eq_ok hown]
  decide +kernel

end

end Flowchart
