import Flowchart.Proofs.Depth
import Flowchart.Proofs.Listing
import Mathlib.Data.List.Perm.Subperm
/-! The tree of nested conditions. It unfolds the edges between conditions from the condition at its
top, and stops below a condition that stands above itself; so it is finite on every graph. -/
namespace Flowchart

/-- Some paths stand under others. Each step down names the label of a branch and the id of a
condition that it leads to. -/
inductive Branch.Descends : List Branch → List (Option Key × Key) → List Branch → Prop where
  | here (bs : List Branch) : Descends bs [] bs
  | deeper {bs bs' : List Branch} {b : Branch} {x : Nested Branch} {steps : List (Option Key × Key)}
      (hb : b ∈ bs) (hx : x ∈ b.nested) (h : Descends x.paths steps bs') :
      Descends bs ((b.label.key?, x.node.key) :: steps) bs'

/-- The edges lead one after the other from an id, each of them to a condition. -/
def IsConditionWalk (nodes : List Node) (edges : List Edge) : Key → List Edge → Prop
  | _, [] => True
  | k, e :: es => e ∈ outgoing edges k ∧ (∃ n, conditionAt nodes e = some n) ∧
    IsConditionWalk nodes edges e.head es

/-- The step down that an edge between conditions gives. -/
def Edge.step (e : Edge) : Option Key × Key := (e.branchKey, e.head)

/-- Where edges lead that follow one another from an id. -/
def walkEnd : Key → List Edge → Key
  | k, [] => k
  | _, e :: es => walkEnd e.head es

section
variable {nodes : List Node} {edges es : List Edge} {visited : List Key} {c d n : Node} {e : Edge}
  {k : Key} {steps : List (Option Key × Key)} {bs bs' : List Branch}

private theorem tails_of_isConditionWalk (h : IsConditionWalk nodes edges k es) :
    es.map Edge.tail = (k :: es.map Edge.head).dropLast := by
  induction es generalizing k with
  | nil => rfl
  | cons e es ih =>
    obtain ⟨he, -, h⟩ := h
    rw [List.map_cons, List.map_cons, List.dropLast_cons_cons, ih h, (mem_outgoing.1 he).2]

private theorem walkEnd_eq_getLast :
    walkEnd k es = (k :: es.map Edge.head).getLast (List.cons_ne_nil _ _) := by
  induction es generalizing k with
  | nil => rfl
  | cons e es ih => exact ih

/-- Every edge of a walk leaves a condition. -/
private theorem exists_condition_of_mem_walk (h : IsConditionWalk nodes edges k es)
    (hk : ∃ n, lookup nodes k = some n ∧ n.isCondition = true) :
    ∀ e ∈ es, ∃ n, lookup nodes e.tail = some n ∧ n.isCondition = true := by
  induction es generalizing k with
  | nil => exact List.forall_mem_nil _
  | cons f es ih =>
    obtain ⟨hf, ⟨n, hn⟩, h⟩ := h
    refine List.forall_mem_cons.2 ⟨(mem_outgoing.1 hf).2 ▸ hk, ih h ⟨n, ?_⟩⟩
    exact conditionAt_eq_some.1 hn

/-- A walk ends at a condition. -/
private theorem exists_condition_at_walkEnd (h : IsConditionWalk nodes edges k es)
    (hk : ∃ n, lookup nodes k = some n ∧ n.isCondition = true) :
    ∃ n, lookup nodes (walkEnd k es) = some n ∧ n.isCondition = true := by
  induction es generalizing k with
  | nil => exact hk
  | cons e es ih =>
    obtain ⟨-, ⟨n, hn⟩, h⟩ := h
    exact ih h ⟨n, conditionAt_eq_some.1 hn⟩

private theorem mem_firsts (h : lookup nodes k = some n) : n ∈ firsts nodes := by
  rw [firsts, ← filterMap_find?_distinct]
  refine List.mem_filterMap.2 ⟨k, ?_, h⟩
  exact mem_distinct.2 (key_of_lookup h ▸ List.mem_map_of_mem (mem_of_lookup h))

/-- Different ids that edges leave which follow one another are ids of different conditions. -/
theorem length_le_of_isConditionWalk (h : IsConditionWalk nodes edges k es)
    (hk : ∃ n, lookup nodes k = some n ∧ n.isCondition = true) (hn : (es.map Edge.tail).Nodup) :
    es.length ≤ ((firsts nodes).filter Node.isCondition).length := by
  have hsub : es.map Edge.tail ⊆ ((firsts nodes).filter Node.isCondition).map Node.key := by
    intro a ha
    obtain ⟨e, he, rfl⟩ := List.mem_map.1 ha
    obtain ⟨n, hl, hc⟩ := exists_condition_of_mem_walk h hk e he
    exact List.mem_map.2 ⟨n, List.mem_filter.2 ⟨mem_firsts hl, hc⟩, key_of_lookup hl⟩
  simpa using (List.subperm_of_subset hn hsub).length_le

/-- A step down from the branches of a condition follows an edge to a condition. -/
private theorem descends_cons_iff {step : Option Key × Key} :
    Branch.Descends (branches nodes edges visited c) (step :: steps) bs' ↔
      c.key ∉ visited ∧ ∃ e ∈ outgoing edges c.key, ∃ n, conditionAt nodes e = some n ∧
        step = e.step ∧ Branch.Descends (branches nodes edges (c.key :: visited) n) steps bs' := by
  constructor
  · intro h
    cases h with
    | @deeper _ _ b x _ hb hx h =>
      have hc : c.key ∉ visited := fun hm => by simp [branches_of_mem hm] at hb
      obtain ⟨e, he, n, hn, hcond, rfl⟩ := exists_edge_of_mem_nested (branchOf_of_mem hb) hx
      obtain ⟨he, hlabel⟩ := mem_branchEdges.1 he
      have hk : n.key = e.head := key_of_lookup hn
      refine ⟨hc, e, he, n, conditionAt_eq_some.2 ⟨hn, hcond⟩, ?_, h⟩
      rw [Edge.step, hlabel, ← hk]
      rfl
  · rintro ⟨hc, e, he, n, hn, rfl, h⟩
    obtain ⟨b, hb, hlabel, hx⟩ := exists_mem_nested hc he hn
    have hstep : e.step = (b.label.key?, n.key) := by
      rw [Edge.step, hlabel, head_of_conditionAt hn]
    rw [hstep]
    exact .deeper hb hx h

/-- To leave no id twice, the edges after the first have its id among those to avoid. -/
private theorem tails_cons_iff :
    (((e :: es).map Edge.tail).Nodup ∧ ∀ f ∈ e :: es, f.tail ∉ visited) ↔
    e.tail ∉ visited ∧ (es.map Edge.tail).Nodup ∧ ∀ f ∈ es, f.tail ∉ e.tail :: visited := by
  rw [List.map_cons, List.nodup_cons, List.forall_mem_cons]
  constructor
  · rintro ⟨⟨hnot, hnodup⟩, he, hout⟩
    refine ⟨he, hnodup, fun f hf hmem => ?_⟩
    rcases List.mem_cons.1 hmem with heq | hmem
    · exact hnot (List.mem_map.2 ⟨f, hf, heq⟩)
    · exact hout f hf hmem
  · rintro ⟨he, hnodup, hout⟩
    refine ⟨⟨fun hmem => ?_, hnodup⟩, he, fun f hf hmem => hout f hf (List.mem_cons_of_mem _ hmem)⟩
    obtain ⟨f, hf, heq⟩ := List.mem_map.1 hmem
    exact hout f hf (heq ▸ List.mem_cons_self)

/-- One gets down from the branches of a condition along the walks between conditions that leave no
id twice, and none that is not to be entered again. -/
theorem descends_branches_iff (hl : lookup nodes c.key = some c) :
    Branch.Descends (branches nodes edges visited c) steps bs' ↔
      ∃ es, IsConditionWalk nodes edges c.key es ∧ (es.map Edge.tail).Nodup ∧
        (∀ e ∈ es, e.tail ∉ visited) ∧ steps = es.map Edge.step ∧
        ∃ d, lookup nodes (walkEnd c.key es) = some d ∧
          bs' = branches nodes edges ((es.map Edge.tail).reverse ++ visited) d := by
  induction steps generalizing visited c with
  | nil =>
    constructor
    · rintro ⟨⟩
      exact ⟨[], trivial, .nil, List.forall_mem_nil _, rfl, c, hl, rfl⟩
    · rintro ⟨es, -, -, -, hsteps, d, hd, rfl⟩
      obtain rfl : es = [] := List.map_eq_nil_iff.1 hsteps.symm
      obtain rfl : c = d := Option.some.inj (hl.symm.trans hd)
      exact .here _
  | cons step steps ih =>
    have hbelow {e : Edge} {es : List Edge} (he : e ∈ outgoing edges c.key) :
        ((e :: es).map Edge.tail).reverse ++ visited =
          (es.map Edge.tail).reverse ++ c.key :: visited := by
      rw [List.map_cons, List.reverse_cons, List.append_assoc, (mem_outgoing.1 he).2,
        List.singleton_append]
    rw [descends_cons_iff]
    constructor
    · rintro ⟨hc, e, he, n, hn, rfl, h⟩
      have hk : n.key = e.head := head_of_conditionAt hn
      have ht : e.tail = c.key := (mem_outgoing.1 he).2
      obtain ⟨es, hwalk, hnodup, hout, rfl, d, hd, rfl⟩ :=
        (ih (hk ▸ (conditionAt_eq_some.1 hn).1)).1 h
      obtain ⟨hnodup, hout⟩ := tails_cons_iff.2 ⟨ht ▸ hc, hnodup, ht ▸ hout⟩
      rw [hk] at hwalk hd
      exact ⟨e :: es, ⟨he, ⟨n, hn⟩, hwalk⟩, hnodup, hout, rfl, d, hd, by rw [hbelow he]⟩
    · rintro ⟨es, hwalk, hnodup, hout, hsteps, d, hd, rfl⟩
      cases es with
      | nil => cases hsteps
      | cons e es =>
        obtain ⟨rfl, rfl⟩ := List.cons.inj hsteps
        obtain ⟨he, ⟨n, hn⟩, hwalk⟩ := hwalk
        have hk : n.key = e.head := head_of_conditionAt hn
        have ht : e.tail = c.key := (mem_outgoing.1 he).2
        obtain ⟨hc, hnodup, hout⟩ := tails_cons_iff.1 ⟨hnodup, hout⟩
        rw [ht] at hc hout
        rw [← hk] at hwalk
        refine ⟨hc, e, he, n, hn, rfl, ?_⟩
        refine (ih (hk ▸ (conditionAt_eq_some.1 hn).1)).2 ⟨es, hwalk, hnodup, hout, rfl, d, ?_, ?_⟩
        · rw [hk]
          exact hd
        · rw [hbelow he]

/-- The tree of conditions under `c` has the chains that edges between conditions give, as long as
none is left twice; each step hangs under the label of its edge. Below a condition that stands above
itself there is nothing; any other has the labels of its edges. So no chain has more steps than there
are conditions. Over scalar types and labels the tree is found. -/
theorem nested_unfolds_edges (hl : lookup nodes c.key = some c) (hc : c.isCondition = true) :
    (∀ bs, branches? nodes edges [] c = .ok bs →
      (∀ steps, (∃ bs', Branch.Descends bs steps bs') ↔ ∃ es, IsConditionWalk nodes edges c.key es ∧
        (es.map Edge.tail).Nodup ∧ steps = es.map Edge.step) ∧
      ∀ steps bs', Branch.Descends bs steps bs' →
        let ids := c.key :: steps.map Prod.snd
        let last := ids.getLast (List.cons_ne_nil _ _)
        (last ∈ ids.dropLast → bs' = []) ∧
        (last ∉ ids.dropLast →
          bs'.map Branch.label = distinctOn Value.key? ((outgoing edges last).map Edge.branch)) ∧
        steps.length ≤ ((firsts nodes).filter Node.isCondition).length) ∧
    ((∀ n ∈ nodes, n.type.isScalar = true) → (∀ e ∈ edges, e.branch.isScalar = true) →
      ∃ bs, branches? nodes edges [] c = .ok bs) := by
  refine ⟨fun bs hbs => ?_, fun ht hlabels => ⟨_, if_pos (areReadable_of_isScalar ht hlabels)⟩⟩
  rw [← branches?_eq_ok hbs]
  refine ⟨fun steps => ⟨?_, ?_⟩, fun steps bs' h => ?_⟩
  · rintro ⟨bs', h⟩
    obtain ⟨es, hwalk, hnodup, -, hsteps, -⟩ := (descends_branches_iff hl).1 h
    exact ⟨es, hwalk, hnodup, hsteps⟩
  · rintro ⟨es, hwalk, hnodup, hsteps⟩
    obtain ⟨d, hd, -⟩ := exists_condition_at_walkEnd hwalk ⟨c, hl, hc⟩
    exact ⟨_, (descends_branches_iff hl).2 ⟨es, hwalk, hnodup, by simp, hsteps, d, hd, rfl⟩⟩
  · obtain ⟨es, hwalk, hnodup, -, rfl, d, hd, rfl⟩ := (descends_branches_iff hl).1 h
    have hids : c.key :: (es.map Edge.step).map Prod.snd = c.key :: es.map Edge.head := by
      rw [List.map_map]
      rfl
    have hkey : d.key = walkEnd c.key es := key_of_lookup hd
    simp only [hids, ← tails_of_isConditionWalk hwalk, ← walkEnd_eq_getLast, ← hkey]
    refine ⟨fun hm => branches_of_mem (by simpa using hm), fun hm => labels_branches (by simpa using hm), ?_⟩
    rw [List.length_map]
    exact length_le_of_isConditionWalk hwalk ⟨c, hl, hc⟩ hnodup

/-- Two conditions that lead to each other, and one of them to itself. -/
def spiralNodes : List Node :=
  [⟨"c", "ifNode", some [], some []⟩, ⟨"d", "switchNode", some [], some []⟩,
    ⟨"a", "actionNode", some [], some []⟩]

def spiralEdges : List Edge :=
  [⟨"1", "c", "d", "yes", .null, some []⟩, ⟨"2", "d", "d", "again", .null, some []⟩,
    ⟨"3", "d", "c", "back", .null, some []⟩, ⟨"4", "d", "a", "on", .null, some []⟩]

theorem nested_unfolds_edges_spiral :
    ∃ bs, branches? spiralNodes spiralEdges [] ⟨"c", "ifNode", some [], some []⟩ = .ok bs ∧
      Branch.Descends bs [(some (.text "yes"), .text "d"), (some (.text "back"), .text "c")] [] ∧
      ∀ steps bs', Branch.Descends bs steps bs' → steps.length ≤ 2 := by
  obtain ⟨hunfolds, htotal⟩ := @nested_unfolds_edges spiralNodes spiralEdges
    ⟨"c", "ifNode", some [], some []⟩ (by decide) (by decide)
  obtain ⟨bs, hbs⟩ := htotal (by decide) (by decide)
  obtain ⟨hchains, hends⟩ := hunfolds bs hbs
  have hwalk : IsConditionWalk spiralNodes spiralEdges (.text "c")
      [⟨"1", "c", "d", "yes", .null, some []⟩, ⟨"3", "d", "c", "back", .null, some []⟩] :=
    ⟨by decide, ⟨_, rfl⟩, by decide, ⟨_, rfl⟩, trivial⟩
  obtain ⟨bs', hdown⟩ := (hchains _).2 ⟨_, hwalk, by decide, rfl⟩
  obtain rfl : bs' = [] := (hends _ _ hdown).1 (by decide)
  exact ⟨bs, hbs, hdown, fun steps bs' h => (hends steps bs' h).2.2⟩

end

end Flowchart
