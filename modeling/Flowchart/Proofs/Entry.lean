import Flowchart.Proofs.Compile
import Mathlib.Data.List.Nodup
/-! Where the nodes of a graph are found in its document. When no two of them share an id, each has
one entry, in the part for its role; a trigger at which an edge ends has none. -/
namespace Flowchart

/-- The ids of the entries that are made for nodes, part by part. -/
def Document.entryKeys (d : Document) : List Key :=
  keys (d.triggers.map TriggerEntry.id) ++ keys (d.actions.map ActionEntry.id) ++
    keys (d.conditions.map ConditionEntry.id)

/-- The workflow starts at the node: a trigger at which no edge ends. -/
def Node.IsRoot (edges : List Edge) (n : Node) : Prop :=
  n.role = .trigger ∧ ∀ e ∈ edges, e.head ≠ n.key

/-- A trigger at which an edge ends. -/
def Node.IsEnteredTrigger (edges : List Edge) (n : Node) : Prop :=
  n.role = .trigger ∧ ∃ e ∈ edges, e.head = n.key

instance (edges : List Edge) (n : Node) : Decidable (n.IsRoot edges) :=
  inferInstanceAs (Decidable (_ ∧ _))

instance (edges : List Edge) (n : Node) : Decidable (n.IsEnteredTrigger edges) :=
  inferInstanceAs (Decidable (_ ∧ _))

section
variable {nodes : List Node} {edges : List Edge} {settings : Metadata.Source} {d : Document}
  {m n : Node} {k : Key}

theorem eq_of_key_eq (hn : (nodes.map Node.key).Nodup) (hm : m ∈ nodes) (h : n ∈ nodes)
    (he : m.key = n.key) : m = n :=
  List.inj_on_of_nodup_map hn hm h he

/-- The role of an id is that of one of its nodes. -/
theorem exists_roleOf (h : n ∈ nodes) :
    ∃ m ∈ nodes, m.key = n.key ∧ roleOf nodes n.key = m.role := by
  obtain ⟨m, hm⟩ : ∃ m, nodes.reverse.find? (fun m => m.key = n.key) = some m :=
    Option.isSome_iff_exists.1 (List.find?_isSome.2 ⟨n, List.mem_reverse.2 h, by simp⟩)
  have hmem : m ∈ nodes := List.mem_reverse.1 (List.mem_of_find?_eq_some hm)
  have hkey : m.key = n.key := by simpa using List.find?_some hm
  exact ⟨m, hmem, hkey, by rw [roleOf, hm]; rfl⟩

/-- The role of an id is that of its only node. -/
theorem roleOf_of_nodup (hn : (nodes.map Node.key).Nodup) (h : n ∈ nodes) :
    roleOf nodes n.key = n.role := by
  obtain ⟨m, hm, hk, hr⟩ := exists_roleOf h
  rw [hr, eq_of_key_eq hn hm h hk]

theorem rootNodes_of_nodup (hn : (nodes.map Node.key).Nodup) : Document.rootNodes nodes edges =
    nodes.filter fun n => n.IsRoot edges := by
  refine List.filter_congr fun n h => ?_
  rw [roleOf_of_nodup hn h, Bool.eq_iff_iff, decide_eq_true_eq]
  simp [Node.IsRoot, isTarget]

theorem actionNodes_of_nodup (hn : (nodes.map Node.key).Nodup) : Document.actionNodes nodes =
    nodes.filter fun n => n.role = .action ∨ n.role = .custom := by
  refine List.filter_congr fun n h => ?_
  rw [roleOf_of_nodup hn h]
  cases n.role <;> rfl

private theorem conditionNodes_of_nodup (hn : (nodes.map Node.key).Nodup) :
    Document.conditionNodes nodes = nodes.filter fun n => n.role = .condition := by
  refine List.filter_congr fun n h => ?_
  rw [roleOf_of_nodup hn h]

private theorem ids_triggers (h : CompiledFrom nodes edges d) (hn : (nodes.map Node.key).Nodup) :
    d.triggers.map TriggerEntry.id =
      (nodes.filter fun n => n.IsRoot (attached nodes edges)).map Node.id := by
  rw [map_eq_of_forall₂ h.triggers fun _ _ ht => (of_triggerEntry ht).1, rootNodes_of_nodup hn]

theorem ids_actions (h : CompiledFrom nodes edges d) (hn : (nodes.map Node.key).Nodup) :
    d.actions.map ActionEntry.id =
      (nodes.filter fun n => n.role = .action ∨ n.role = .custom).map Node.id := by
  rw [map_eq_of_forall₂ h.actions fun _ _ ha => (of_actionEntry ha).1, actionNodes_of_nodup hn]

private theorem ids_conditions_of_nodup (h : CompiledFrom nodes edges d)
    (hn : (nodes.map Node.key).Nodup) : d.conditions.map ConditionEntry.id =
      (nodes.filter fun n => n.role = .condition).map Node.id := by
  rw [map_eq_of_forall₂ h.conditions fun _ _ hc => (of_conditionEntry hc).1,
    conditionNodes_of_nodup hn]

/-- A node is counted among those with a property if it has the property. -/
private theorem count_keys_filter (hn : (nodes.map Node.key).Nodup) (h : n ∈ nodes)
    (p : Node → Bool) :
    (keys ((nodes.filter p).map Node.id)).count n.key = if p n then 1 else 0 := by
  have hkeys : keys ((nodes.filter p).map Node.id) = (nodes.filter p).map Node.key := List.map_map
  have hnodup : ((nodes.filter p).map Node.key).Nodup := (List.filter_sublist.map Node.key).nodup hn
  have hmem : n.key ∈ (nodes.filter p).map Node.key ↔ p n = true := by
    constructor
    · intro hk
      obtain ⟨m, hm, hk⟩ := List.mem_map.1 hk
      obtain ⟨hm, hp⟩ := List.mem_filter.1 hm
      rwa [← eq_of_key_eq hn hm h hk]
    · exact fun hp => List.mem_map_of_mem (List.mem_filter.2 ⟨h, hp⟩)
  rw [hkeys, hnodup.count]
  simp only [hmem]

/-- Each node has one entry in all, but a trigger at which an edge ends has none. -/
theorem count_entryKeys (h : CompiledFrom nodes edges d) (hn : (nodes.map Node.key).Nodup)
    (hmem : n ∈ nodes) : d.entryKeys.count n.key =
      if n.IsEnteredTrigger (attached nodes edges) then 0 else 1 := by
  rw [Document.entryKeys, ids_triggers h hn, ids_actions h hn, ids_conditions_of_nodup h hn,
    List.count_append, List.count_append, count_keys_filter hn hmem, count_keys_filter hn hmem,
    count_keys_filter hn hmem]
  by_cases he : ∃ e ∈ attached nodes edges, e.head = n.key
  · have hroot : ¬ n.IsRoot (attached nodes edges) := by
      rintro ⟨-, hno⟩
      obtain ⟨e, hmem, hk⟩ := he
      exact hno e hmem hk
    cases hr : n.role <;> simp [hroot, Node.IsEnteredTrigger, hr, he]
  · cases hr : n.role <;> simp [Node.IsRoot, Node.IsEnteredTrigger, hr, he]

/-- The manual trigger is made for no node: its type is none of a trigger. -/
private theorem manual_not_mem_triggers (h : CompiledFrom nodes edges d)
    (hn : (nodes.map Node.key).Nodup) : TriggerEntry.manual ∉ d.triggers := by
  intro hmem
  obtain ⟨n, hnode, ht⟩ := exists_of_forall₂ h.triggers hmem
  rw [rootNodes_of_nodup hn] at hnode
  have hroot : n.IsRoot (attached nodes edges) := by simpa using (List.mem_filter.1 hnode).2
  have hrole : Role.ofType n.type = .trigger := hroot.1
  rw [← (of_triggerEntry ht).2] at hrole
  exact absurd hrole (by decide)

theorem shownTriggers_of_ne_nil (h : d.triggers ≠ []) : d.shownTriggers = d.triggers := by
  rw [Document.shownTriggers, if_neg (by simpa using h)]

private theorem shownTriggers_of_eq_nil (h : d.triggers = []) : d.shownTriggers = [.manual] := by
  rw [Document.shownTriggers, if_pos (by simpa using h)]

private theorem triggers_eq_nil_iff (h : CompiledFrom nodes edges d)
    (hn : (nodes.map Node.key).Nodup) :
    d.triggers = [] ↔ ¬ ∃ n ∈ nodes, n.IsRoot (attached nodes edges) := by
  have hids := ids_triggers h hn
  rw [← List.map_eq_nil_iff (f := TriggerEntry.id), hids, List.map_eq_nil_iff, List.filter_eq_nil_iff]
  simp

/-- When no two nodes share an id, the triggers at which no edge ends, the actions and custom
nodes, and the conditions have an entry each, in their parts of the document and in the order of the
nodes. No node has two entries, and a trigger at which an edge ends has none. Without a trigger
that has an entry, and only then, the manual trigger alone is shown. -/
theorem nodes_have_entries (hn : (nodes.map Node.key).Nodup)
    (h : (compile nodes edges settings).result = .ok d) :
    d.triggers.map TriggerEntry.id =
      (nodes.filter fun n => n.IsRoot (attached nodes edges)).map Node.id ∧
    d.actions.map ActionEntry.id =
      (nodes.filter fun n => n.role = .action ∨ n.role = .custom).map Node.id ∧
    d.conditions.map ConditionEntry.id = (nodes.filter fun n => n.role = .condition).map Node.id ∧
    (∀ n ∈ nodes, d.entryKeys.count n.key =
      if n.IsEnteredTrigger (attached nodes edges) then 0 else 1) ∧
    ((∃ n ∈ nodes, n.IsRoot (attached nodes edges)) → d.shownTriggers = d.triggers) ∧
    (d.shownTriggers = [.manual] ↔ ¬ ∃ n ∈ nodes, n.IsRoot (attached nodes edges)) ∧
    d.shownTriggers ≠ [] := by
  have hdoc := compiledFrom_of_compile h
  have hnil := triggers_eq_nil_iff hdoc hn
  refine ⟨ids_triggers hdoc hn, ids_actions hdoc hn, ids_conditions_of_nodup hdoc hn,
    fun n => count_entryKeys hdoc hn,
    fun hroot => shownTriggers_of_ne_nil fun hempty => hnil.1 hempty hroot, ?_, ?_⟩
  · rw [← hnil]
    refine ⟨fun hshown => ?_, shownTriggers_of_eq_nil⟩
    by_contra hne
    rw [shownTriggers_of_ne_nil hne] at hshown
    exact manual_not_mem_triggers hdoc hn (hshown ▸ List.mem_singleton.2 rfl)
  · by_cases hempty : d.triggers = []
    · rw [shownTriggers_of_eq_nil hempty]
      exact List.cons_ne_nil _ _
    · rwa [shownTriggers_of_ne_nil hempty]

/-- A trigger inside a branch hands on to an action, another leads to itself; at the one that starts
the workflow an edge from an id that is no node ends. -/
def relayNodes : List Node :=
  [⟨"s", "triggerNode", some [], some []⟩, ⟨"c", "ifNode", some [], some []⟩,
    ⟨"t", "emailTrigger", some [], some []⟩, ⟨"a", "actionNode", some [], some []⟩,
    ⟨"l", "webhookTrigger", some [], some []⟩, ⟨"d", "switchNode", some [], some []⟩,
    ⟨"x", "textNode", some [], some []⟩]

def relayEdges : List Edge :=
  [⟨"1", "s", "c", .null, .null, some []⟩, ⟨"2", "gone", "s", .null, .null, some []⟩,
    ⟨"3", "c", "t", "yes", .null, some []⟩, ⟨"4", "t", "a", .null, .null, some []⟩,
    ⟨"5", "l", "l", .null, .null, some []⟩, ⟨"6", "c", "d", "no", .null, some []⟩,
    ⟨"7", "d", "x", .null, .null, some []⟩, ⟨"8", "l", "a", .null, .null, some []⟩]

theorem compile_relay : ∃ d, (compile relayNodes relayEdges (.value .null)).result = .ok d := by
  have hkeys : (compile relayNodes relayEdges (.value .null)).result.toOption.map
      Document.entryKeys = some (keys ["s", "a", "x", "c", "d"]) := by decide +kernel
  obtain ⟨d, hd, -⟩ := exists_of_map hkeys
  exact ⟨d, hd⟩

theorem nodes_have_entries_relay :
    ∃ d, (compile relayNodes relayEdges (.value .null)).result = .ok d ∧
      d.shownTriggers.map TriggerEntry.id = ["s"] ∧ d.actions.map ActionEntry.id = ["a", "x"] ∧
      d.conditions.map ConditionEntry.id = ["c", "d"] ∧
      d.entryKeys.count (.text "t") = 0 ∧ d.entryKeys.count (.text "l") = 0 := by
  obtain ⟨d, hd⟩ := compile_relay
  obtain ⟨hts, has, hcs, hcount, hshown, -, -⟩ := nodes_have_entries (by decide) hd
  have hroot : ∃ n ∈ relayNodes, n.IsRoot (attached relayNodes relayEdges) := by decide +kernel
  refine ⟨d, hd, ?_, has, hcs, ?_, ?_⟩
  · rw [hshown hroot, hts]
    decide +kernel
  · exact (hcount ⟨"t", "emailTrigger", some [], some []⟩ (by decide)).trans (by decide +kernel)
  · exact (hcount ⟨"l", "webhookTrigger", some [], some []⟩ (by decide)).trans (by decide +kernel)

end

end Flowchart
