import Flowchart.Proofs.Branch
/-! What an action of a branch waits for stands before it: the condition itself, or an action that
is listed earlier and has an edge to it. -/
namespace Flowchart

/-- Every action waits only for ids in `ground` and for actions listed before it. -/
def Grounded : List Key → List ActionRef → Prop
  | _, [] => True
  | ground, r :: rs => (∀ p ∈ r.dependsOn, p.key ∈ ground) ∧ Grounded (r.key :: ground) rs

/-- The action waits for one id alone, and an edge leads from there. -/
def FollowsEdge (edges : List Edge) (r : ActionRef) : Prop :=
  ∃ p, r.dependsOn = [p] ∧ Leads edges p.key r.key

/-- The action is what an edge leads to, and waits for the id alone that the edge leaves. -/
def ComesAlong (nodes : List Node) (edges : List Edge) (r : ActionRef) : Prop :=
  ∃ e ∈ edges, ∃ n p, actionAt nodes e = some n ∧ e.tail = p.key ∧ r = .ofEdge n e p

section
variable {nodes : List Node} {edges own : List Edge} {visited met : List Key} {e : Edge}
  {source p x : Scalar} {ground g : List Key} {rs ss listed : List ActionRef} {r : ActionRef}

theorem followsEdge_of_comesAlong (h : ComesAlong nodes edges r) : FollowsEdge edges r := by
  obtain ⟨e, he, n, p, hn, ht, rfl⟩ := h
  exact ⟨p, rfl, e, he, ht, (head_of_actionAt hn).symm⟩

namespace Grounded

private theorem mono (hs : ∀ k ∈ g, k ∈ ground) (h : Grounded g rs) : Grounded ground rs := by
  induction rs generalizing g ground with
  | nil => trivial
  | cons r rs ih =>
    obtain ⟨hr, h⟩ := h
    refine ⟨fun p hp => hs _ (hr p hp), ih (fun k hk => ?_) h⟩
    exact (List.mem_cons.1 hk).elim (fun he => he ▸ List.mem_cons_self)
      fun hk => List.mem_cons_of_mem _ (hs k hk)

private theorem of_forall (h : ∀ r ∈ rs, ∀ p ∈ r.dependsOn, p.key ∈ ground) :
    Grounded ground rs := by
  induction rs generalizing ground with
  | nil => trivial
  | cons r rs ih =>
    refine ⟨h r List.mem_cons_self, ih fun s hs p hp => ?_⟩
    exact List.mem_cons_of_mem _ (h s (List.mem_cons_of_mem _ hs) p hp)

private theorem append (hr : Grounded ground rs)
    (hs : Grounded (rs.map ActionRef.key ++ ground) ss) : Grounded ground (rs ++ ss) := by
  induction rs generalizing ground with
  | nil => exact hs
  | cons r rs ih =>
    refine ⟨hr.1, ih hr.2 (hs.mono fun k hk => ?_)⟩
    simpa [or_left_comm] using hk

theorem of_append (h : Grounded ground (rs ++ ss)) : Grounded ground rs := by
  induction rs generalizing ground with
  | nil => trivial
  | cons r rs ih => exact ⟨h.1, ih h.2⟩

/-- An action that stands at a place waits for what is in `ground` or stands before that place. -/
theorem split {before after : List ActionRef} (h : Grounded ground (before ++ r :: after)) :
    ∀ p ∈ r.dependsOn, p.key ∈ ground ∨ p.key ∈ before.map ActionRef.key := by
  induction before generalizing ground with
  | nil => exact fun p hp => .inl (h.1 p hp)
  | cons s before ih =>
    intro p hp
    rcases ih h.2 p hp with hk | hk
    · rcases List.mem_cons.1 hk with he | hk
      · exact .inr (he ▸ List.mem_cons_self)
      · exact .inl hk
    · exact .inr (List.mem_cons_of_mem _ hk)

/-- Dropping actions that are listed already leaves the others grounded. -/
private theorem foldl_addTo (hl : Grounded ground listed)
    (hr : Grounded (listed.map ActionRef.key ++ ground) rs) :
    Grounded ground (rs.foldl ActionRef.addTo listed) := by
  induction rs generalizing listed with
  | nil => exact hl
  | cons r rs ih =>
    obtain ⟨hd, hr⟩ := hr
    rw [List.foldl_cons]
    by_cases hk : r.key ∈ listed.map ActionRef.key
    · rw [ActionRef.addTo, if_pos hk]
      refine ih hl (hr.mono fun k hk' => ?_)
      exact (List.mem_cons.1 hk').elim (fun he => he ▸ List.mem_append_left _ hk) id
    · rw [ActionRef.addTo, if_neg hk]
      refine ih (hl.append ⟨hd, trivial⟩) (hr.mono fun k hk' => ?_)
      simpa [or_left_comm, or_comm, or_assoc] using hk'

end Grounded

private theorem grounded_discover {es : List Edge} (hp : p.key ∈ ground) :
    Grounded ground (discover nodes p es met) := by
  refine .of_forall fun r hr q hq => ?_
  obtain ⟨e, -, n, -, rfl⟩ := exists_of_mem_discover hr
  rwa [List.mem_singleton.1 hq]

private theorem grounded_closureFrom {queue : List Scalar} (hq : ∀ x ∈ queue, x.key ∈ ground) :
    Grounded ground (closureFrom nodes edges queue met) := by
  fun_induction closureFrom nodes edges queue met generalizing ground with
  | case1 => trivial
  | case2 met x rest found =>
    rename_i ih
    refine .append (grounded_discover (hq x List.mem_cons_self)) (ih fun y hy => ?_)
    rcases List.mem_append.1 hy with hy | hy
    · exact List.mem_append_right _ (hq y (List.mem_cons_of_mem _ hy))
    · obtain ⟨r, hr, rfl⟩ := List.mem_map.1 hy
      exact List.mem_append_left _ (List.mem_map_of_mem hr)

theorem grounded_following (hx : x.key ∈ ground) :
    Grounded ground (following nodes edges visited x) := by
  unfold following
  split
  · trivial
  · exact grounded_closureFrom (by simpa using hx)

private theorem grounded_actionsAlong (hs : source.key ∈ ground) :
    Grounded ground (actionsAlong nodes edges visited source e) := by
  unfold actionsAlong
  cases hn : actionAt nodes e with
  | none => trivial
  | some n =>
    exact ⟨by simpa [ActionRef.ofEdge] using hs, grounded_following List.mem_cons_self⟩

private theorem grounded_flatMap (hs : source.key ∈ ground) :
    Grounded ground (own.flatMap (actionsAlong nodes edges visited source)) := by
  induction own with
  | nil => trivial
  | cons e own ih =>
    exact .append (grounded_actionsAlong hs) (ih.mono fun k hk => List.mem_append_right _ hk)

/-- The actions of a branch wait for its condition and for one another, backwards. -/
theorem grounded_branchOf {b : Branch} (hb : branchOf nodes edges visited source own = some b) :
    Grounded [source.key] b.actions := by
  obtain ⟨first, -, rfl⟩ := Option.map_eq_some_iff.1 hb
  exact .foldl_addTo trivial (grounded_flatMap (by simp))

theorem comesAlong_closureFrom {queue : List Scalar}
    (h : r ∈ closureFrom nodes edges queue met) : ComesAlong nodes edges r := by
  fun_induction closureFrom nodes edges queue met with
  | case1 => cases h
  | case2 met x rest found =>
    rename_i ih
    rcases List.mem_append.1 h with h | h
    · obtain ⟨e, he, n, hn, rfl⟩ := exists_of_mem_discover h
      obtain ⟨he, ht⟩ := mem_outgoing.1 he
      exact ⟨e, he, n, x, hn, ht, rfl⟩
    · exact ih h

theorem comesAlong_following (h : r ∈ following nodes edges visited x) :
    ComesAlong nodes edges r := by
  unfold following at h
  split at h
  · cases h
  · exact comesAlong_closureFrom h

private theorem comesAlong_actionsAlong (he : e ∈ outgoing edges source.key)
    (h : r ∈ actionsAlong nodes edges visited source e) : ComesAlong nodes edges r := by
  obtain ⟨he, ht⟩ := mem_outgoing.1 he
  unfold actionsAlong at h
  cases hn : actionAt nodes e with
  | none => simp [hn] at h
  | some n =>
    rw [hn] at h
    rcases List.mem_cons.1 h with rfl | h
    · exact ⟨e, he, n, source, hn, ht, rfl⟩
    · exact comesAlong_following h

private theorem mem_of_mem_foldl_addTo (h : r ∈ rs.foldl ActionRef.addTo listed) :
    r ∈ listed ∨ r ∈ rs := by
  induction rs generalizing listed with
  | nil => exact .inl h
  | cons s rs ih =>
    rw [List.foldl_cons] at h
    rcases ih h with h | h
    · unfold ActionRef.addTo at h
      split at h
      · exact .inl h
      · rcases List.mem_append.1 h with h | h
        · exact .inl h
        · exact .inr (List.mem_singleton.1 h ▸ List.mem_cons_self)
    · exact .inr (List.mem_cons_of_mem _ h)

theorem comesAlong_branchOf {b : Branch} (ho : ∀ e ∈ own, e ∈ outgoing edges source.key)
    (hb : branchOf nodes edges visited source own = some b) :
    ∀ r ∈ b.actions, ComesAlong nodes edges r := by
  obtain ⟨first, -, rfl⟩ := Option.map_eq_some_iff.1 hb
  intro r hr
  obtain ⟨e, he, hr⟩ := List.mem_flatMap.1
    ((mem_of_mem_foldl_addTo hr).resolve_left List.not_mem_nil)
  exact comesAlong_actionsAlong (ho e he) hr

/-- An edge leads to each action of a branch from the one id that it waits for. -/
theorem followsEdge_branchOf {b : Branch} (ho : ∀ e ∈ own, e ∈ outgoing edges source.key)
    (hb : branchOf nodes edges visited source own = some b) :
    ∀ r ∈ b.actions, FollowsEdge edges r :=
  fun r hr => followsEdge_of_comesAlong (comesAlong_branchOf ho hb r hr)

/-- A branch lists no id twice. -/
theorem nodup_keys_branchOf {b : Branch} (hb : branchOf nodes edges visited source own = some b) :
    (b.actions.map ActionRef.key).Nodup := by
  obtain ⟨first, -, rfl⟩ := Option.map_eq_some_iff.1 hb
  rw [keys_onceEach]
  exact nodup_novel _ _

end

end Flowchart
