import Flowchart.Proofs.Group
/-! Groups and branches. When no two nodes share an id, the groups of a condition are its branches
with actions, one by one and in order; a group keeps what its branch says or is a chain of its
actions. -/
namespace Flowchart

/-- A branch that is run in parallel: it says so, and has more than one action. -/
def Branch.IsParallel (b : Branch) : Prop := b.mode = ("parallel" : Value) ∧ 1 < b.actions.length

/-- The group is how the branch of a condition is run. In a chain each action waits for the last of
those before it alone. -/
structure Group.Runs (condition : Scalar) (b : Branch) (g : Group) : Prop where
  condition : g.condition = condition
  label : g.branch = b.label
  ids : g.actions.map ActionRef.node = b.actions.map ActionRef.node
  parallel_iff : g.mode ≠ .sequential ↔ b.IsParallel
  kept : b.IsParallel → g.mode = .parallel b.maxConcurrency b.failureHandling ∧
    g.actions = b.actions.map ({ · with parallel := true })
  chained : ¬ b.IsParallel → g.mode = .sequential ∧
    g.actions = b.actions.mapIdx fun i r =>
      { r with
        order := .int i
        parallel := false
        dependsOn := (b.actions.take i).getLast?.elim [] fun s => [s.node] }

section
variable {b : Branch} {bs : List Branch} {c : Scalar} {g : Group} {i : Nat} {rs : List ActionRef}

private theorem chain_eq_mapIdx (i : Nat) (before : List Scalar) (rs : List ActionRef) :
    Group.chain i before rs = rs.mapIdx fun j r =>
      { r with
        order := .int (i + j : Nat)
        parallel := false
        dependsOn := (rs.take j).getLast?.elim before fun s => [s.node] } := by
  induction rs generalizing i before with
  | nil => rfl
  | cons r rs ih =>
    rw [Group.chain, ih, List.mapIdx_cons]
    refine congrArg₂ List.cons rfl (congrArg (rs.mapIdx ·) (funext fun j => funext fun s => ?_))
    have hlast : ((r :: rs).take (j + 1)).getLast? = some ((rs.take j).getLast?.getD r) := by
      rw [List.take_succ_cons, List.getLast?_cons]
    have hindex : i + 1 + j = i + (j + 1) := by omega
    rw [hlast, hindex]
    cases (rs.take j).getLast? <;> rfl

private theorem group?_eq_none : b.group? c i = none ↔ b.actions = [] := by
  simp only [Branch.group?]
  split
  · next h => simpa using List.ne_nil_of_length_pos (Nat.lt_of_succ_lt h.2)
  · split <;> simp_all

private theorem runs_of_group? (h : b.group? c i = some g) : g.Runs c b := by
  have hids := nodes_group? h
  simp only [Branch.group?] at h
  split at h
  · next hp =>
    cases h
    exact ⟨rfl, rfl, hids, ⟨fun _ => hp, fun _ h => by cases h⟩, fun _ => ⟨rfl, rfl⟩,
      fun hn => absurd hp hn⟩
  · next hp =>
    split at h <;> cases h
    refine ⟨rfl, rfl, hids, ⟨fun h => absurd rfl h, fun h => absurd h hp⟩, fun h => absurd h hp,
      fun _ => ⟨rfl, ?_⟩⟩
    simpa using chain_eq_mapIdx 0 [] b.actions

/-- The groups of a condition are its branches with actions. -/
private theorem forall₂_runs (c : Scalar) (bs : List Branch) (i : Nat) :
    List.Forall₂ (fun b g => g.Runs c b) (bs.filter fun b => b.actions ≠ [])
      ((bs.zipIdx i).filterMap fun (b, index) => b.group? c index) := by
  induction bs generalizing i with
  | nil => exact .nil
  | cons b bs ih =>
    rw [List.zipIdx_cons, List.filterMap_cons]
    cases hg : b.group? c i with
    | none =>
      rw [List.filter_cons_of_neg (by simpa using group?_eq_none.1 hg)]
      simpa only [hg] using ih (i + 1)
    | some g =>
      have hb : b.actions ≠ [] := fun h => by simp [group?_eq_none.2 h] at hg
      rw [List.filter_cons_of_pos (by simpa using hb)]
      simpa only [hg] using .cons (runs_of_group? hg) (ih (i + 1))

end

section
variable {nodes : List Node} {edges : List Edge} {settings : Metadata.Source} {d : Document}

private theorem ids_conditions (h : CompiledFrom nodes edges d) :
    d.conditions.map ConditionEntry.id = (Document.conditionNodes nodes).map Node.id :=
  map_eq_of_forall₂ h.conditions fun _ _ hc => (of_conditionEntry hc).1

theorem nodup_conditions (h : CompiledFrom nodes edges d) (hn : (nodes.map Node.key).Nodup) :
    (d.conditions.map fun c => c.id.key).Nodup := by
  have hkeys : (d.conditions.map fun c => c.id.key) = (Document.conditionNodes nodes).map Node.key := by
    have hids := congrArg (List.map Scalar.key) (ids_conditions h)
    rwa [List.map_map, List.map_map] at hids
  rw [hkeys]
  exact (List.filter_sublist.map Node.key).nodup hn

/-- The groups of a condition, in the order of its branches. -/
def ConditionEntry.groups (c : ConditionEntry) : List Group :=
  c.routing.paths.zipIdx.filterMap fun (b, index) => b.group? c.id index

theorem groups_of_nodup (h : CompiledFrom nodes edges d) (hn : (nodes.map Node.key).Nodup) :
    d.groups = d.conditions.flatMap ConditionEntry.groups := by
  have hpaths : d.paths = d.conditions.map fun c => (c.id, c.routing.paths) := by
    refine Table.ofEntries_of_nodup ?_
    rw [List.map_map]
    exact nodup_conditions h hn
  rw [Document.groups, executionGroups, hpaths, List.flatMap_map]
  rfl

theorem condition_of_mem_groups {c : ConditionEntry} {g : Group} (h : g ∈ c.groups) :
    g.condition = c.id := by
  obtain ⟨⟨b, i⟩, -, hg⟩ := List.mem_filterMap.1 h
  exact (group?_eq_some hg).1

/-- The groups of a condition are its branches with actions, each run as the branch says; and there
are no other groups. -/
theorem groups_run_branches (hn : (nodes.map Node.key).Nodup)
    (h : (compile nodes edges settings).result = .ok d) :
    (∀ c ∈ d.conditions, List.Forall₂ (fun b g => g.Runs c.id b)
      (c.routing.paths.filter fun b => b.actions ≠ [])
      (d.groups.filter fun g => g.condition.key = c.id.key)) ∧
    ∀ g ∈ d.groups, ∃ c ∈ d.conditions, g.condition = c.id := by
  have hdoc := compiledFrom_of_compile h
  rw [groups_of_nodup hdoc hn]
  refine ⟨fun c hc => ?_, fun g hg => ?_⟩
  · have hkey : ∀ c : ConditionEntry, ∀ g ∈ c.groups, g.condition.key = c.id.key :=
      fun _ _ hg => congrArg Scalar.key (condition_of_mem_groups hg)
    rw [filter_flatMap_of_nodup hkey (nodup_conditions hdoc hn) hc]
    exact forall₂_runs c.id c.routing.paths 0
  · obtain ⟨c, hc, hg⟩ := List.mem_flatMap.1 hg
    exact ⟨c, hc, condition_of_mem_groups hg⟩

/-- A condition with a branch run in parallel, one without actions and a chain, and a condition
inside it. -/
def fanNodes : List Node :=
  [⟨"c", "ifNode", some [], some []⟩, ⟨"a", "actionNode", some [], some []⟩,
    ⟨"b", "actionNode", some [], some []⟩, ⟨"d", "switchNode", some [], some []⟩]

def fanEdges : List Edge :=
  [⟨"1", "c", "a", "all", .null, some []⟩, ⟨"2", "c", "b", "all", .null, some []⟩,
    ⟨"3", "c", "d", "more", .null, some []⟩,
    ⟨"4", "c", "b", "then", .null, some [("executionMode", "sequential")]⟩,
    ⟨"5", "d", "a", "last", .null, some []⟩, ⟨"6", "b", "a", .null, .null, some []⟩]

def fanGroups : List Group :=
  [⟨"c-all-0", "c", "all", .parallel (.int (-1)) "continue",
      [⟨"a", "actionNode", .int 0, true, ["c"]⟩, ⟨"b", "actionNode", .int 0, true, ["c"]⟩]⟩,
    ⟨"c-then-2", "c", "then", .sequential,
      [⟨"b", "actionNode", .int 0, false, []⟩, ⟨"a", "actionNode", .int 1, false, ["b"]⟩]⟩,
    ⟨"d-last-0", "d", "last", .sequential, [⟨"a", "actionNode", .int 0, false, []⟩]⟩]

theorem groups_run_branches_fan :
    ∃ d c, (compile fanNodes fanEdges (.value .null)).result = .ok d ∧ c ∈ d.conditions ∧
      List.Forall₂ (fun b g => g.Runs "c" b) (c.routing.paths.filter fun b => b.actions ≠ [])
        (fanGroups.take 2) := by
  have hgroups : (compile fanNodes fanEdges (.value .null)).result.toOption.map Document.groups =
      some fanGroups := by decide +kernel
  obtain ⟨d, hd, hg⟩ := exists_of_groups hgroups
  have hc : ⟨"c", "ifNode", some [], some []⟩ ∈ Document.conditionNodes fanNodes := by
    decide +kernel
  obtain ⟨c, hmem, hentry⟩ := exists_of_forall₂ (compiledFrom_of_compile hd).conditions.flip hc
  have hid : c.id = "c" := (of_conditionEntry hentry).1
  have hruns := (groups_run_branches (by decide) hd).1 c hmem
  have hown : (fanGroups.filter fun g => g.condition.key = Scalar.key "c") = fanGroups.take 2 := by
    decide
  rw [hid, hg, hown] at hruns
  exact ⟨d, c, hd, hmem, hruns⟩

end

end Flowchart
