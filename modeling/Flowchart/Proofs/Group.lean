import Flowchart.Proofs.Compile
import Flowchart.Proofs.Waiting
/-! The groups of a document. Each is made from a branch of a condition: it lists the same actions
in the same order, and each of them waits for what stands before it. -/
namespace Flowchart

section
variable {nodes : List Node} {edges : List Edge} {settings : Metadata.Source} {d : Document}
  {g : Group} {b : Branch} {n : Node} {rs : List ActionRef} {ground : List Key}

/-- A group that is not sequential keeps what its actions wait for; one that is, is a chain. -/
theorem group?_eq_some {c : Scalar} {i : Nat} (h : b.group? c i = some g) :
    g.condition = c ∧ g.branch = b.label ∧
      (g.mode ≠ .sequential ∧ g.actions = b.actions.map ({ · with parallel := true }) ∨
        g.mode = .sequential ∧ g.actions = Group.chain 0 [] b.actions) := by
  simp only [Branch.group?] at h
  split at h
  · cases h
    exact ⟨rfl, rfl, .inl ⟨nofun, rfl⟩⟩
  · split at h <;> cases h
    exact ⟨rfl, rfl, .inr ⟨rfl, rfl⟩⟩

/-- A group is made from the branch of a condition that has its label. -/
theorem exists_branchOf_of_mem_groups (h : (compile nodes edges settings).result = .ok d)
    (hg : g ∈ d.groups) : ∃ c ∈ Document.conditionNodes nodes, c.key = g.condition.key ∧
      ∃ b, branchOf nodes (attached nodes edges) [c.key] c.id (branchEdges (attached nodes edges)
          c.key (g.branch.scalar?.map Scalar.key)) = some b ∧
        ∃ i, b.group? g.condition i = some g := by
  obtain ⟨⟨k, bs⟩, he, hg⟩ := List.mem_flatMap.1 hg
  obtain ⟨⟨b, i⟩, hb, hgroup⟩ := List.mem_filterMap.1 hg
  obtain ⟨hk, hlabel, -⟩ := group?_eq_some hgroup
  obtain ⟨p, hp, hpk, rfl⟩ := Table.exists_of_mem_ofEntries he
  obtain ⟨x, hx, rfl⟩ := List.mem_map.1 hp
  obtain ⟨c, hc, hentry⟩ := exists_of_forall₂ (compiledFrom_of_compile h).conditions hx
  obtain ⟨hid, -, hbs⟩ := of_conditionEntry hentry
  rw [← branches?_eq_ok hbs] at hb
  have hb : b ∈ branches nodes (attached nodes edges) [] c :=
    List.mem_of_getElem? (List.mem_zipIdx_iff_getElem?.1 hb)
  refine ⟨c, hc, by rw [hk, ← hpk, Node.key, hid], b, ?_, i, hk ▸ hgroup⟩
  rw [hlabel]
  exact branchOf_of_mem hb

@[simp] theorem nodes_chain {i : Nat} {before : List Scalar} :
    (Group.chain i before rs).map ActionRef.node = rs.map ActionRef.node := by
  induction rs generalizing i before with
  | nil => rfl
  | cons r rs ih => rw [Group.chain, List.map_cons, List.map_cons, ih]

private theorem grounded_chain {i : Nat} {before : List Scalar} (h : ∀ p ∈ before, p.key ∈ ground) :
    Grounded ground (Group.chain i before rs) := by
  induction rs generalizing i before ground with
  | nil => trivial
  | cons r rs ih =>
    exact ⟨h, ih (by simp [ActionRef.key])⟩

private theorem Grounded.map {f : ActionRef → ActionRef} (hk : ∀ r, (f r).key = r.key)
    (hd : ∀ r, (f r).dependsOn = r.dependsOn) (h : Grounded ground rs) :
    Grounded ground (rs.map f) := by
  induction rs generalizing ground with
  | nil => trivial
  | cons r rs ih => exact ⟨by rw [hd]; exact h.1, by rw [hk]; exact ih h.2⟩

/-- A group lists the ids of its branch. -/
theorem nodes_group? {c : Scalar} {i : Nat} (h : b.group? c i = some g) :
    g.actions.map ActionRef.node = b.actions.map ActionRef.node := by
  obtain ⟨-, -, ⟨-, ha⟩ | ⟨-, ha⟩⟩ := group?_eq_some h
  · rw [ha, List.map_map]
    rfl
  · rw [ha, nodes_chain]

theorem keys_group? {c : Scalar} {i : Nat} (h : b.group? c i = some g) :
    g.actions.map ActionRef.key = b.actions.map ActionRef.key := by
  have hids := congrArg (List.map Scalar.key) (nodes_group? h)
  rwa [List.map_map, List.map_map] at hids

private theorem grounded_group? {c : Scalar} {i : Nat} (h : b.group? c i = some g)
    (hb : Grounded ground b.actions) : Grounded ground g.actions := by
  obtain ⟨-, -, ⟨-, ha⟩ | ⟨-, ha⟩⟩ := group?_eq_some h
  · rw [ha]
    exact hb.map (fun _ => rfl) fun _ => rfl
  · rw [ha]
    exact grounded_chain nofun

/-- A group lists no id twice, and an action of it waits only for the condition and for actions
that stand before it; unless the group is sequential, it waits for one id alone, from which an edge
leads to it. -/
theorem groups_wait_backwards (h : (compile nodes edges settings).result = .ok d)
    (hg : g ∈ d.groups) :
    (g.actions.map ActionRef.key).Nodup ∧
      (∀ before r after, g.actions = before ++ r :: after → ∀ p ∈ r.dependsOn,
        p.key = g.condition.key ∨ p.key ∈ before.map ActionRef.key) ∧
      (g.mode ≠ .sequential → ∀ r ∈ g.actions, FollowsEdge (attached nodes edges) r) := by
  obtain ⟨c, -, hk, b, hb, i, hgroup⟩ := exists_branchOf_of_mem_groups h hg
  refine ⟨?_, fun before r after ha p hp => ?_, fun hm r hr => ?_⟩
  · rw [keys_group? hgroup]
    exact nodup_keys_branchOf hb
  · have hground : Grounded [c.key] g.actions := grounded_group? hgroup (grounded_branchOf hb)
    rw [ha] at hground
    rw [← hk]
    exact (hground.split p hp).imp_left List.mem_singleton.1
  · obtain ⟨-, -, ⟨-, ha⟩ | ⟨hs, -⟩⟩ := group?_eq_some hgroup
    · rw [ha] at hr
      obtain ⟨s, hs, rfl⟩ := List.mem_map.1 hr
      exact followsEdge_branchOf (fun e he => (mem_branchEdges.1 he).1) hb s hs
    · exact absurd hs hm

/-- A branch that two edges open; what they lead to forms a ring and leads back to the condition. -/
def weaveNodes : List Node :=
  [⟨"c", "ifNode", some [], some []⟩, ⟨"a", "actionNode", some [], some []⟩,
    ⟨"b", "actionNode", some [], some []⟩]

def weaveEdges : List Edge :=
  [⟨"1", "c", "a", "yes", .null, some []⟩, ⟨"2", "c", "b", "yes", .null, some []⟩,
    ⟨"3", "a", "b", .null, .null, some []⟩, ⟨"4", "b", "a", .null, .null, some []⟩,
    ⟨"5", "b", "c", .null, .null, some []⟩]

def weaveGroup : Group :=
  ⟨"c-yes-0", "c", "yes", .parallel (.int (-1)) "continue",
    [⟨"a", "actionNode", .int 0, true, ["c"]⟩, ⟨"b", "actionNode", .int 0, true, ["a"]⟩]⟩

theorem groups_wait_backwards_weave :
    ∃ d, (compile weaveNodes weaveEdges (.value .null)).result = .ok d ∧ weaveGroup ∈ d.groups ∧
      (weaveGroup.actions.map ActionRef.key).Nodup ∧
      ∀ r ∈ weaveGroup.actions, FollowsEdge (attached weaveNodes weaveEdges) r := by
  have hgroups : (compile weaveNodes weaveEdges (.value .null)).result.toOption.map
      Document.groups = some [weaveGroup] := by decide +kernel
  obtain ⟨d, hd, hg⟩ := exists_of_groups hgroups
  have hmem : weaveGroup ∈ d.groups := hg ▸ List.mem_singleton.2 rfl
  obtain ⟨hn, -, hf⟩ := groups_wait_backwards hd hmem
  exact ⟨d, hd, hmem, hn, hf nofun⟩

end

end Flowchart
