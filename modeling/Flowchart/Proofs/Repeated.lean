import Flowchart.Proofs.Reference
/-! Ids that several nodes share. A branch asks the first node of an id whether it is a condition,
the document the last; an id is a condition for both only if all of its nodes are. -/
namespace Flowchart

section
variable {nodes : List Node} {edges : List Edge} {settings : Metadata.Source} {d : Document}
  {r : ActionRef}

private theorem not_hasCondition_of_comesAlong (h : CompiledFrom nodes edges d)
    (hr : ComesAlong nodes (attached nodes edges) r) : ¬ d.HasCondition r.key := by
  obtain ⟨e, -, n, p, hn, -, rfl⟩ := hr
  obtain ⟨hl, hc⟩ := actionAt_eq_some.1 hn
  intro hentry
  have hcond := ((hasCondition_iff h).1 hentry).2 n (mem_of_lookup hl) rfl
  rw [hc] at hcond
  cases hcond

/-- At any depth what is nested under a branch has an entry as a condition if every node with the id
is a condition, and only then. What a branch at any depth or a group lists as an action never has
one. -/
theorem hasCondition_of_compile (h : (compile nodes edges settings).result = .ok d) :
    (∀ c ∈ d.conditions, ∀ b : Branch, b.Under c.routing.paths →
      (∀ x ∈ b.nested, (∃ n, lookup nodes x.node.key = some n ∧ n.isCondition = true) ∧
        (d.HasCondition x.node.key ↔
          ∀ n ∈ nodes, n.key = x.node.key → n.isCondition = true)) ∧
      ∀ r ∈ b.actions, ¬ d.HasCondition r.key) ∧
    ∀ g ∈ d.groups, ∀ r ∈ g.actions, ¬ d.HasCondition r.key := by
  have hdoc := compiledFrom_of_compile h
  refine ⟨fun c hc b hb => ?_, fun g hg r hr => ?_⟩
  · obtain ⟨n, -, hbs⟩ := exists_branches_of_mem_conditions hdoc hc
    rw [← hbs] at hb
    refine ⟨fun x hx => ?_, fun r hr => not_hasCondition_of_comesAlong hdoc (comesAlong_of_under hb hr)⟩
    obtain ⟨m, hl, hid, hcond⟩ := lookup_of_under hb hx
    rw [← hid]
    refine ⟨⟨m, hl, hcond⟩, ?_⟩
    rw [hasCondition_iff hdoc]
    exact and_iff_right ⟨m, mem_of_lookup hl, rfl⟩
  · obtain ⟨s, hs, hk⟩ := comesAlong_of_mem_groups h hg hr
    rw [← hk]
    exact not_hasCondition_of_comesAlong hdoc hs

/-- A condition with two conditions in its branch. One shares its id with an action that comes after
it, the other with a condition. -/
def sharedNodes : List Node :=
  [⟨"c", "ifNode", some [], some []⟩, ⟨"a", "ifNode", some [], some []⟩,
    ⟨"a", "actionNode", some [], some []⟩, ⟨"e", "switchNode", some [], some []⟩,
    ⟨"e", "ifNode", some [], some []⟩, ⟨"b", "actionNode", some [], some []⟩]

def sharedEdges : List Edge :=
  [⟨"1", "c", "a", "yes", .null, some []⟩, ⟨"2", "c", "e", "yes", .null, some []⟩,
    ⟨"3", "a", "b", "go", .null, some []⟩, ⟨"4", "e", "b", "go", .null, some []⟩]

private theorem compile_shared :
    ∃ d c, (compile sharedNodes sharedEdges (.value .null)).result = .ok d ∧
    c ∈ d.conditions ∧ keys (d.conditions.map ConditionEntry.id) = keys ["c", "e", "e"] ∧
    (∃ b : Branch, b.Under c.routing.paths ∧ ∃ x ∈ b.nested, x.node = "a") ∧
    ∃ b : Branch, b.Under c.routing.paths ∧ ∃ x ∈ b.nested, x.node = "e" := by
  have hids : (compile sharedNodes sharedEdges (.value .null)).result.toOption.map
      (fun d => keys (d.conditions.map ConditionEntry.id)) = some (keys ["c", "e", "e"]) := by
    decide +kernel
  obtain ⟨d, hd, hids⟩ := exists_of_map hids
  have hnode : ⟨"c", "ifNode", some [], some []⟩ ∈ Document.conditionNodes sharedNodes := by
    decide +kernel
  obtain ⟨c, hc, hentry⟩ := exists_of_forall₂ (compiledFrom_of_compile hd).conditions.flip hnode
  obtain ⟨-, -, hbs⟩ := of_conditionEntry hentry
  have hnested : ∀ e n, e ∈ outgoing (attached sharedNodes sharedEdges) (.text "c") →
      conditionAt sharedNodes e = some n →
      ∃ b : Branch, b.Under c.routing.paths ∧ ∃ x ∈ b.nested, x.node = n.id := by
    intro e n he hn
    obtain ⟨b, hb, -, hx⟩ := exists_mem_nested (c := ⟨"c", "ifNode", some [], some []⟩)
      List.not_mem_nil he hn
    rw [branches?_eq_ok hbs] at hb
    exact ⟨b, .here hb, _, hx, rfl⟩
  refine ⟨d, c, hd, hc, hids, ?_, ?_⟩
  · exact hnested ⟨"1", "c", "a", "yes", .null, some []⟩ ⟨"a", "ifNode", some [], some []⟩
      (by decide +kernel) (by decide)
  · exact hnested ⟨"2", "c", "e", "yes", .null, some []⟩ ⟨"e", "switchNode", some [], some []⟩
      (by decide +kernel) (by decide)

theorem hasCondition_of_compile_shared :
    ∃ d, (compile sharedNodes sharedEdges (.value .null)).result = .ok d ∧
      ¬ d.HasCondition (.text "a") ∧ d.HasCondition (.text "e") := by
  obtain ⟨d, c, hd, hc, -, ⟨b, hb, x, hx, hxa⟩, b', hb', y, hy, hye⟩ := compile_shared
  have hunder := (hasCondition_of_compile hd).1 c hc
  have ha := ((hunder b hb).1 x hx).2
  have he := ((hunder b' hb').1 y hy).2
  rw [hxa] at ha
  rw [hye] at he
  exact ⟨d, hd, fun h => absurd (ha.1 h) (by decide), he.2 (by decide)⟩

/-- A branch leads to a condition that has no entry, because an action after it has its id. -/
theorem not_hasCondition_of_nested :
    ¬ ∀ (nodes : List Node) (edges : List Edge) (settings : Metadata.Source) (d : Document),
      (compile nodes edges settings).result = .ok d → ∀ c ∈ d.conditions, ∀ b : Branch,
        b.Under c.routing.paths → ∀ x ∈ b.nested, d.HasCondition x.node.key := by
  intro h
  obtain ⟨d, c, hd, hc, hids, ⟨b, hb, x, hx, hxa⟩, -⟩ := compile_shared
  obtain ⟨c', hc', hk⟩ := h _ _ _ d hd c hc b hb x hx
  have hmem : x.node.key ∈ keys ["c", "e", "e"] :=
    hids ▸ List.mem_map.2 ⟨c'.id, List.mem_map_of_mem hc', hk⟩
  rw [hxa] at hmem
  exact absurd hmem (by decide)

end

end Flowchart
