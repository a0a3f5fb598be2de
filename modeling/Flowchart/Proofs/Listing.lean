import Flowchart.Proofs.Waiting
import Mathlib.Data.List.Chain
/-! What the branches of a condition say. They come in the order in which their labels are first
seen; each lists the actions that its edges lead to along actions, is run as its first edge says,
and leads to the conditions at the ends of its edges. -/
namespace Flowchart

/-- The id is that of a node that is no condition. -/
def IsAction (nodes : List Node) (k : Key) : Prop :=
  ∃ n, lookup nodes k = some n ∧ n.isCondition = false

/-- Edges lead one after the other from the end of `e` to `k`, and the ends of `e` and of all of
them are actions. -/
def LeadsAlong (nodes : List Node) (edges : List Edge) (e : Edge) (k : Key) : Prop :=
  ∃ ks : List Key, (∀ a ∈ e.head :: ks, IsAction nodes a) ∧
    List.IsChain (Leads edges) (e.head :: ks) ∧ (e.head :: ks).getLast (List.cons_ne_nil _ _) = k

/-- What a branch of `c` says is read off the edges of `c` with its label. -/
structure Branch.Tells (nodes : List Node) (edges : List Edge) (c : Node) (b : Branch) : Prop where
  /-- It lists no id twice. -/
  once : (b.actions.map ActionRef.key).Nodup
  /-- It lists the actions that its edges lead to along actions. -/
  lists : ∀ id : Scalar, id ∈ b.actions.map ActionRef.node ↔
    ∃ n, n.id = id ∧ lookup nodes n.key = some n ∧ n.isCondition = false ∧
      ∃ e ∈ branchEdges edges c.key b.label.key?, LeadsAlong nodes edges e n.key
  /-- The first of its edges sets how it is run. -/
  run : ∃ first, (branchEdges edges c.key b.label.key?).head? = some first ∧
    b.mode = first.fields.valueOr "executionMode" "parallel" ∧
    b.maxConcurrency = first.fields.valueOr "maxConcurrency" (.int (-1)) ∧
    b.failureHandling = first.fields.valueOr "failureHandling" "continue"
  /-- Each of its edges to a condition leads there, in order. -/
  leads : b.nested.map (fun x => (x.node, x.type)) =
    ((branchEdges edges c.key b.label.key?).filterMap (conditionAt nodes)).map fun n => (n.id, n.type)

section
variable {nodes : List Node} {edges own : List Edge} {visited : List Key} {c n : Node} {e : Edge}
  {source : Scalar} {b : Branch} {k : Key}

theorem isAction_head : IsAction nodes e.head ↔ ∃ n, actionAt nodes e = some n :=
  exists_congr fun _ => actionAt_eq_some.symm

private theorem leads_of_isAction {a : Key} (h : IsAction nodes k) (hl : Leads edges a k) :
    Leads (actionEdges nodes edges []) a k := by
  obtain ⟨e, he, ht, rfl⟩ := hl
  exact ⟨e, mem_actionEdges.2 ⟨he, isAction_head.1 h, List.not_mem_nil⟩, ht, rfl⟩

private theorem leads_actionEdges_iff {a : Key} :
    Leads (actionEdges nodes edges []) a k ↔ Leads edges a k ∧ IsAction nodes k := by
  refine ⟨?_, fun h => leads_of_isAction h.2 h.1⟩
  rintro ⟨e, he, ht, rfl⟩
  obtain ⟨he, hn, -⟩ := mem_actionEdges.1 he
  exact ⟨⟨e, he, ht, rfl⟩, isAction_head.2 hn⟩

theorem leadsAlong_iff : LeadsAlong nodes edges e k ↔
    (∃ n, actionAt nodes e = some n) ∧ Reaches (actionEdges nodes edges []) e.head k := by
  constructor
  · rintro ⟨ks, hact, hchain, rfl⟩
    refine ⟨isAction_head.1 (hact _ List.mem_cons_self), ?_⟩
    refine List.relationReflTransGen_of_exists_isChain_cons ks ?_ rfl
    exact hchain.imp_of_mem_imp fun _ b _ hb hl => leads_of_isAction (hact b hb) hl
  · rintro ⟨hn, hr⟩
    obtain ⟨ks, hchain, hlast⟩ := List.exists_isChain_cons_of_relationReflTransGen hr
    refine ⟨ks, List.forall_mem_cons.2 ⟨isAction_head.2 hn, ?_⟩, ?_, hlast⟩
    · exact hchain.cons_induction _ _ (fun _ _ hl _ => (leads_actionEdges_iff.1 hl).2)
        (isAction_head.2 hn)
    · exact hchain.imp fun _ _ hl => (leads_actionEdges_iff.1 hl).1

theorem exists_node_of_comesAlong {r : ActionRef} (h : ComesAlong nodes edges r) :
    ∃ n, lookup nodes r.key = some n ∧ n.isCondition = false ∧ n.id = r.node := by
  obtain ⟨e, -, n, p, hn, -, rfl⟩ := h
  obtain ⟨hl, hc⟩ := actionAt_eq_some.1 hn
  exact ⟨n, by rwa [key_ofEdge, key_of_lookup hl], hc, rfl⟩

private theorem label_branchOf : (branchOf nodes edges visited source own).map Branch.label =
    own.head?.map Edge.branch := by
  simp [branchOf, Function.comp_def]

/-- What a branch has from its edges, beside its actions. -/
private theorem of_branchOf (hb : branchOf nodes edges visited source own = some b) :
    ∃ first, own.head? = some first ∧ b.mode = first.fields.valueOr "executionMode" "parallel" ∧
      b.maxConcurrency = first.fields.valueOr "maxConcurrency" (.int (-1)) ∧
      b.failureHandling = first.fields.valueOr "failureHandling" "continue" ∧
      b.nested = own.filterMap (nestedAlong nodes edges visited) := by
  obtain ⟨first, hf, rfl⟩ := Option.map_eq_some_iff.1 hb
  exact ⟨first, hf, rfl, rfl, rfl, rfl⟩

/-- The labels come in the order in which they are first seen, however they are written later. -/
theorem labels_branches (h : c.key ∉ visited) : (branches nodes edges visited c).map Branch.label =
    distinctOn Value.key? ((outgoing edges c.key).map Edge.branch) := by
  have hfirst (label : Option Key) : (branchOf nodes edges (c.key :: visited) c.id
      (branchEdges edges c.key label)).map Branch.label =
      ((outgoing edges c.key).find? fun e => e.branchKey = label).map Edge.branch := by
    rw [label_branchOf, branchEdges, List.head?_filter]
  rw [branches_eq h, List.map_filterMap, ← map_distinctOn, ← filterMap_find?_distinct,
    List.map_filterMap]
  exact List.filterMap_congr fun label _ => hfirst label

theorem tells_of_mem_branches (h : NoAction nodes (c.key :: visited))
    (hb : b ∈ branches nodes edges visited c) : b.Tells nodes edges c := by
  have hb := branchOf_of_mem hb
  have hcomes := comesAlong_branchOf (fun e he => (mem_branchEdges.1 he).1) hb
  have hkeys (k : Key) : k ∈ b.actions.map ActionRef.key ↔
      ∃ e ∈ branchEdges edges c.key b.label.key?, LeadsAlong nodes edges e k := by
    simp only [mem_keys_branchOf hb, mem_keys_actionsAlong h, leadsAlong_iff]
  obtain ⟨first, hf, hmode, hlimit, hhandling, hnested⟩ := of_branchOf hb
  refine ⟨nodup_keys_branchOf hb, fun id => ⟨fun hid => ?_, ?_⟩,
    ⟨first, hf, hmode, hlimit, hhandling⟩, ?_⟩
  · obtain ⟨r, hr, rfl⟩ := List.mem_map.1 hid
    obtain ⟨n, hl, hn, hnode⟩ := exists_node_of_comesAlong (hcomes r hr)
    have hk : n.key = r.key := key_of_lookup hl
    exact ⟨n, hnode, hk ▸ hl, hn, (hkeys n.key).1 (hk ▸ List.mem_map_of_mem hr)⟩
  · rintro ⟨n, rfl, hl, -, hway⟩
    obtain ⟨r, hr, hk⟩ := List.mem_map.1 ((hkeys n.key).2 hway)
    obtain ⟨m, hm, -, hnode⟩ := exists_node_of_comesAlong (hcomes r hr)
    have hmn : m = n := Option.some.inj (hm.symm.trans (hk ▸ hl))
    exact List.mem_map.2 ⟨r, hr, hnode.symm.trans (congrArg Node.id hmn)⟩
  · rw [hnested, List.map_filterMap, List.map_filterMap]
    exact List.filterMap_congr fun e _ => by simp [nestedAlong, Function.comp_def]

/-- The branches of a condition are the labels of its edges, as they are first seen, and each tells
what the edges with its label lead to. Over scalar types and labels they are found. -/
theorem branches_tell_edges (hl : lookup nodes c.key = some c) (hc : c.isCondition = true) :
    (∀ bs, branches? nodes edges [] c = .ok bs →
      bs.map Branch.label = distinctOn Value.key? ((outgoing edges c.key).map Edge.branch) ∧
        ∀ b ∈ bs, b.Tells nodes edges c) ∧
    ((∀ n ∈ nodes, n.type.isScalar = true) → (∀ e ∈ edges, e.branch.isScalar = true) →
      ∃ bs, branches? nodes edges [] c = .ok bs) := by
  refine ⟨fun bs hbs => ?_, fun ht hlabels => ⟨_, if_pos (areReadable_of_isScalar ht hlabels)⟩⟩
  rw [← branches?_eq_ok hbs]
  exact ⟨labels_branches List.not_mem_nil, fun b hb =>
    tells_of_mem_branches (noAction_of_isCondition hl hc) hb⟩

/-- A condition with two labels, one of them written in two ways. What one of them leads to leads
back to the condition, and the other leads to an id that is no node. -/
def looseNodes : List Node :=
  [⟨"c", "ifNode", some [], some []⟩, ⟨"a", "actionNode", some [], some []⟩,
    ⟨"b", "textNode", some [], some []⟩, ⟨"d", "actionNode", some [], some []⟩,
    ⟨"e", "switchNode", some [], some []⟩]

def looseEdges : List Edge :=
  [⟨"1", "c", "a", .int 1, .null, some [("executionMode", "sequential")]⟩,
    ⟨"2", "a", "b", .null, .null, some []⟩, ⟨"3", "b", "c", .null, .null, some []⟩,
    ⟨"4", "c", "gone", "no", .null, some []⟩, ⟨"5", "c", "b", .bool true, .null, some []⟩,
    ⟨"6", "c", "e", "no", .null, some []⟩, ⟨"7", "b", "d", .null, .null, some []⟩]

theorem branches_tell_edges_loose :
    ∃ bs b, branches? looseNodes looseEdges [] ⟨"c", "ifNode", some [], some []⟩ = .ok bs ∧
      bs.map Branch.label = [Value.int 1, "no"] ∧ b ∈ bs ∧ b.label = .int 1 ∧
      ("d" : Scalar) ∈ b.actions.map ActionRef.node ∧ b.mode = "sequential" := by
  obtain ⟨htell, htotal⟩ := @branches_tell_edges looseNodes looseEdges
    ⟨"c", "ifNode", some [], some []⟩ (by decide) (by decide)
  obtain ⟨bs, hbs⟩ := htotal (by decide) (by decide)
  obtain ⟨hlabels, htells⟩ := htell bs hbs
  have hlabels : bs.map Branch.label = [Value.int 1, "no"] := hlabels.trans (by decide +kernel)
  obtain ⟨b, hb, hlabel⟩ : ∃ b ∈ bs, b.label = .int 1 := by
    rw [← List.mem_map, hlabels]
    exact List.mem_cons_self
  obtain ⟨-, hlists, ⟨first, hf, hmode, -⟩, -⟩ := htells b hb
  rw [hlabel] at hlists hf
  have hfirst : first =
      ⟨"1", "c", "a", .int 1, .null, some [("executionMode", "sequential")]⟩ :=
    Option.some.inj (hf.symm.trans (by decide +kernel))
  refine ⟨bs, b, hbs, hlabels, hb, hlabel, ?_, hmode.trans (by rw [hfirst]; decide +kernel)⟩
  -- the way from `c` to `d` by the edges 1, 2 and 7
  have hacts : ∀ k ∈ [Key.text "a", .text "b", .text "d"], IsAction looseNodes k := by
    simp only [List.forall_mem_cons]
    exact ⟨⟨_, rfl, rfl⟩, ⟨_, rfl, rfl⟩, ⟨_, rfl, rfl⟩, nofun⟩
  have hchain : List.IsChain (Leads looseEdges) [.text "a", .text "b", .text "d"] :=
    .cons_cons ⟨⟨"2", "a", "b", .null, .null, some []⟩, by decide, rfl, rfl⟩
      (.cons_cons ⟨⟨"7", "b", "d", .null, .null, some []⟩, by decide, rfl, rfl⟩ (.singleton _))
  exact (hlists "d").2 ⟨⟨"d", "actionNode", some [], some []⟩, rfl, by decide, by decide,
    ⟨"1", "c", "a", .int 1, .null, some [("executionMode", "sequential")]⟩, by decide +kernel,
    [.text "b", .text "d"], hacts, hchain, rfl⟩

end

end Flowchart
