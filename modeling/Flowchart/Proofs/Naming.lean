import Flowchart.Proofs.Schedule
/-! The ids of groups. An id joins the id of a condition, the label of a branch and the place of the
branch by dashes. The place can be read off, and so a condition has no two groups of one id. Where
the id of the condition ends cannot: groups of two conditions may share an id. -/
namespace Flowchart

namespace Text
variable {a l a' l' : Text} {m n : Nat}

/-- Two texts of two parts each are the same when a dash joins the parts. -/
def JoinAlike (a l a' l' : Text) : Prop :=
  (a = a' ∧ l = l') ∨ (∃ s, a' = a ++ "-" ++ s ∧ l = s ++ "-" ++ l') ∨
    ∃ s, a = a' ++ "-" ++ s ∧ l' = s ++ "-" ++ l

private theorem codes_injective : Function.Injective codes := by
  rintro ⟨_⟩ ⟨_⟩ h
  exact congrArg Text.mk h

private theorem codes_append_dash (a b : Text) : (a ++ "-" ++ b).codes = a.codes ++ 45 :: b.codes :=
  List.append_assoc a.codes [45] b.codes

private theorem dash_not_mem_ofNat (n : Nat) : 45 ∉ (ofNat n).codes := by
  intro h
  obtain ⟨c, hc, hdash⟩ := List.mem_map.1 h
  have hdigit : c.isDigit = true := Nat.isDigit_of_mem_toDigits (by decide) (by decide) hc
  rw [(Char.toNat_inj (d := '-')).1 hdash] at hdigit
  cases hdigit

private theorem ofNat_injective : Function.Injective ofNat := by
  intro m n h
  have hdigits : Nat.toDigits 10 m = Nat.toDigits 10 n :=
    List.map_injective_iff.2 (fun _ _ => Char.toNat_inj.1) (Text.mk.inj h)
  calc
    m = Nat.ofDigitChars 10 (Nat.toDigits 10 m) 0 := Nat.ofDigitChars_ten_toDigits.symm
    _ = Nat.ofDigitChars 10 (Nat.toDigits 10 n) 0 := by rw [hdigits]
    _ = n := Nat.ofDigitChars_ten_toDigits

private theorem exists_of_append_dash {s : List Nat} (ha : a'.codes = a.codes ++ s)
    (hl : 45 :: l.codes = s ++ 45 :: l'.codes) :
    (a = a' ∧ l = l') ∨ ∃ s, a' = a ++ "-" ++ s ∧ l = s ++ "-" ++ l' := by
  obtain ⟨rfl, hl⟩ | ⟨s, rfl, hl⟩ := List.cons_eq_append_iff.1 hl
  · exact .inl ⟨codes_injective (by simpa using ha.symm),
      codes_injective (List.cons.inj hl).2⟩
  · exact .inr ⟨⟨s⟩, codes_injective (ha.trans (codes_append_dash a ⟨s⟩).symm),
      codes_injective ((List.cons.inj hl).2.trans (codes_append_dash ⟨s⟩ l').symm)⟩

private theorem append_dash_eq_iff : a ++ "-" ++ l = a' ++ "-" ++ l' ↔ JoinAlike a l a' l' := by
  constructor
  · intro h
    have hcodes := congrArg codes h
    rw [codes_append_dash, codes_append_dash] at hcodes
    obtain ⟨s, ha, hl⟩ | ⟨s, ha, hl⟩ := List.append_eq_append_iff.1 hcodes
    · exact (exists_of_append_dash ha hl).imp_right .inl
    · exact (exists_of_append_dash ha hl).imp (fun ⟨ha, hl⟩ => ⟨ha.symm, hl.symm⟩) .inr
  · rintro (⟨rfl, rfl⟩ | ⟨s, rfl, rfl⟩ | ⟨s, rfl, rfl⟩)
    · rfl
    · simp only [append_assoc]
    · simp only [append_assoc]

/-- A number after the last dash can be read off. -/
private theorem append_dash_ofNat_eq_iff :
    a ++ "-" ++ ofNat m = a' ++ "-" ++ ofNat n ↔ a = a' ∧ m = n := by
  have hno : ∀ (s : Text) (m n : Nat), ofNat m ≠ s ++ "-" ++ ofNat n := by
    intro s m n h
    refine dash_not_mem_ofNat m ?_
    rw [h, codes_append_dash]
    exact List.mem_append_right _ List.mem_cons_self
  rw [append_dash_eq_iff, ← ofNat_injective.eq_iff]
  exact ⟨fun h => h.resolve_right (by simp [hno]), .inl⟩

end Text

/-- The group is made from the branch that a condition of the document has in place `i`. -/
def Document.GroupAt (d : Document) (g : Group) (i : Nat) : Prop :=
  ∃ c ∈ d.conditions, ∃ b, c.routing.paths[i]? = some b ∧ b.group? c.id i = some g

section
variable {nodes : List Node} {edges : List Edge} {settings : Metadata.Source} {d : Document}
  {g : Group} {b : Branch} {c : ConditionEntry} {i : Nat}

private theorem id_of_group? {c : Scalar} (h : b.group? c i = some g) :
    g.id = g.condition.display ++ "-" ++ g.branch.display ++ "-" ++ Text.ofNat i := by
  simp only [Branch.group?] at h
  split at h
  · cases h
    rfl
  · split at h <;> cases h
    rfl

private theorem id_of_groupAt (h : d.GroupAt g i) :
    g.id = g.condition.display ++ "-" ++ g.branch.display ++ "-" ++ Text.ofNat i := by
  obtain ⟨c, -, b, -, hg⟩ := h
  exact id_of_group? hg

private theorem exists_groupAt (hc : c ∈ d.conditions) (hg : g ∈ c.groups) :
    ∃ i, d.GroupAt g i := by
  obtain ⟨⟨b, i⟩, hb, hg⟩ := List.mem_filterMap.1 hg
  exact ⟨i, c, hc, b, List.mem_zipIdx_iff_getElem?.1 hb, hg⟩

/-- The groups of a condition stand in different places, which their ids show. -/
theorem pairwise_id_groups (c : ConditionEntry) : c.groups.Pairwise fun g g' => g.id ≠ g'.id := by
  have hplaces : (c.routing.paths.zipIdx).Pairwise fun p q => p.2 ≠ q.2 := by
    rw [← List.pairwise_map, List.zipIdx_map_snd]
    exact List.nodup_range'
  refine List.pairwise_filterMap.2 (hplaces.imp fun hne g hg g' hg' hid => hne ?_)
  rw [id_of_group? hg, id_of_group? hg', Text.append_dash_ofNat_eq_iff] at hid
  exact hid.2

/-- When no two nodes share an id, each group has a place, and the id of a group joins the id of its
condition, the label of its branch and its place. Two groups share an id just when they belong to
different conditions, stand in the same place, and for both the id of the condition and the label
make up the same text. -/
theorem groups_named (hn : (nodes.map Node.key).Nodup)
    (h : (compile nodes edges settings).result = .ok d) :
    (∀ g ∈ d.groups, ∃ i, d.GroupAt g i) ∧
      (∀ g i, d.GroupAt g i →
        g.id = g.condition.display ++ "-" ++ g.branch.display ++ "-" ++ Text.ofNat i) ∧
      d.groups.Pairwise fun g g' => ∀ i i', d.GroupAt g i → d.GroupAt g' i' →
        (g.id = g'.id ↔ g.condition.key ≠ g'.condition.key ∧ i = i' ∧
          Text.JoinAlike g.condition.display g.branch.display
            g'.condition.display g'.branch.display) := by
  have hdoc := compiledFrom_of_compile h
  rw [groups_of_nodup hdoc hn]
  refine ⟨fun g hg => ?_, fun g i => id_of_groupAt, List.pairwise_flatMap.2 ⟨fun c hc => ?_, ?_⟩⟩
  · obtain ⟨c, hc, hg⟩ := List.mem_flatMap.1 hg
    exact exists_groupAt hc hg
  · refine (pairwise_id_groups c).imp_of_mem fun hg hg' hne i i' _ _ => ?_
    rw [condition_of_mem_groups hg, condition_of_mem_groups hg']
    exact ⟨fun h => absurd h hne, fun h => absurd rfl h.1⟩
  · refine (List.pairwise_map.1 (nodup_conditions hdoc hn)).imp fun hne g hg g' hg' i i' hi hi' => ?_
    rw [id_of_groupAt hi, id_of_groupAt hi', Text.append_dash_ofNat_eq_iff,
      Text.append_dash_eq_iff, condition_of_mem_groups hg, condition_of_mem_groups hg']
    exact ⟨fun ⟨htext, hplace⟩ => ⟨hne, hplace, htext⟩, fun ⟨_, hplace, htext⟩ => ⟨htext, hplace⟩⟩

/-- Two conditions, of which one's id goes on where the other's ends, after a dash. A label of the
shorter id begins with what the longer one adds. -/
def dashedNodes : List Node :=
  [⟨"a", "ifNode", some [], some []⟩, ⟨"a-b", "ifNode", some [], some []⟩,
    ⟨"x", "actionNode", some [], some []⟩, ⟨"y", "actionNode", some [], some []⟩]

def dashedEdges : List Edge :=
  [⟨"1", "a", "x", "b-c", .null, some []⟩, ⟨"2", "a", "y", "d", .null, some []⟩,
    ⟨"3", "a-b", "y", "c", .null, some []⟩]

private theorem compile_dashed :
    ∃ d, (compile dashedNodes dashedEdges (.value .null)).result = .ok d ∧
    d.groups.map Group.id = [("a-b-c-0" : Text), ("a-d-1" : Text), ("a-b-c-0" : Text)] := by
  have hids : (compile dashedNodes dashedEdges (.value .null)).result.toOption.map
      (fun d => d.groups.map Group.id) =
        some [("a-b-c-0" : Text), ("a-d-1" : Text), ("a-b-c-0" : Text)] := by decide +kernel
  exact exists_of_map hids

theorem groups_named_dashed :
    ∃ d first second third, (compile dashedNodes dashedEdges (.value .null)).result = .ok d ∧
      d.groups = [first, second, third] ∧ first.id = third.id ∧
      first.condition.key ≠ third.condition.key ∧
      Text.JoinAlike first.condition.display first.branch.display
        third.condition.display third.branch.display := by
  obtain ⟨d, hd, hids⟩ := compile_dashed
  obtain ⟨hplaces, -, hpairs⟩ := groups_named (by decide) hd
  obtain ⟨first, rest, hgroups, hfirst, hrest⟩ := List.map_eq_cons_iff.1 hids
  obtain ⟨second, rest, rfl, -, hrest⟩ := List.map_eq_cons_iff.1 hrest
  obtain ⟨third, rest, rfl, hthird, hrest⟩ := List.map_eq_cons_iff.1 hrest
  obtain rfl := List.map_eq_nil_iff.1 hrest
  have hid : first.id = third.id := hfirst.trans hthird.symm
  rw [hgroups] at hplaces hpairs
  obtain ⟨i, hi⟩ := hplaces first (by simp)
  obtain ⟨i', hi'⟩ := hplaces third (by simp)
  have hpair := (List.pairwise_cons.1 hpairs).1 third (by simp)
  obtain ⟨hne, -, halike⟩ := (hpair i i' hi hi').1 hid
  exact ⟨d, first, second, third, hd, hgroups, hid, hne, halike⟩

/-- Groups of two conditions share an id. -/
theorem not_nodup_ids_groups :
    ¬ ∀ (nodes : List Node) (edges : List Edge) (settings : Metadata.Source) (d : Document),
      (nodes.map Node.key).Nodup → (compile nodes edges settings).result = .ok d →
        (d.groups.map Group.id).Nodup := by
  intro h
  obtain ⟨d, hd, hids⟩ := compile_dashed
  have hnodup := h _ _ _ d (by decide) hd
  rw [hids] at hnodup
  exact absurd hnodup (by decide)

end

end Flowchart
