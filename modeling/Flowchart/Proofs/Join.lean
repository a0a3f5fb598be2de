import Flowchart.Proofs.Compile
import Flowchart.Proofs.Owner
import Mathlib.Data.Finset.Card
/-! Where branches meet again. An id is reported when edges from different conditions end there,
and the condition of an edge is one that feeds its source: with that, what is reported is sound and
complete. An edge that leaves a condition counts for the conditions before it, never for its own. -/
namespace Flowchart

section
variable {nodes : List Node} {edges : List Edge} {e e' : Edge} {t : Scalar} {b : IncomingBranch}
  {bs : List IncomingBranch} {j : JoinPoint} {js : List JoinPoint} {data : Fields} {k : Key}

theorem mem_parents : k ∈ JoinPoint.parents bs ↔
    ∃ b ∈ bs, ∃ p, b.parent = some p ∧ p.isBlank = false ∧ p.key = k := by
  simp only [JoinPoint.parents, mem_distinct, List.mem_map, List.mem_filterMap,
    Option.filter_eq_some_iff, Bool.not_eq_true']
  constructor
  · rintro ⟨p, ⟨b, hb, hp, hblank⟩, hk⟩
    exact ⟨b, hb, p, hp, hblank, hk⟩
  · rintro ⟨b, hb, p, hp, hblank, hk⟩
    exact ⟨p, ⟨b, hb, hp, hblank⟩, hk⟩

theorem one_lt_parents : 1 < (JoinPoint.parents bs).length ↔
    ∃ k ∈ JoinPoint.parents bs, ∃ l ∈ JoinPoint.parents bs, k ≠ l := by
  have hn : (JoinPoint.parents bs).Nodup := nodup_distinct _
  rw [← List.toFinset_card_of_nodup hn, Finset.one_lt_card]
  simp only [List.mem_toFinset]

theorem ofEdge?_eq_ok : IncomingBranch.ofEdge? nodes edges e = .ok b ↔
    ∃ walk, parentCondition? nodes edges e.source [] = .ok walk ∧
      b = ⟨e.source, e.branch, walk.found.map Node.id⟩ := by
  constructor
  · intro h
    obtain ⟨walk, hwalk, h⟩ := bind_eq_ok h
    cases h
    exact ⟨walk, hwalk, rfl⟩
  · rintro ⟨walk, hwalk, rfl⟩
    rw [IncomingBranch.ofEdge?, hwalk]
    rfl

/-- Every edge that ends at an id, as the id lists them. -/
def ListsEdges (nodes : List Node) (edges : List Edge) : List Edge → List IncomingBranch → Prop :=
  List.Forall₂ fun e b => IncomingBranch.ofEdge? nodes edges e = .ok b

/-- A join point lists the edges that end there, from more than one condition. -/
theorem of_at? (h : JoinPoint.at? nodes edges t = .ok (some j)) :
    j.node = t ∧ ListsEdges nodes edges (incoming edges t.key) j.branches ∧
      1 < (JoinPoint.parents j.branches).length := by
  unfold JoinPoint.at? at h
  simp only at h
  split at h
  · cases h
  · obtain ⟨bs, hbs, h⟩ := bind_eq_ok h
    split at h
    · cases h
    · next hp =>
      obtain ⟨data, -, h⟩ := bind_eq_ok h
      cases h
      exact ⟨rfl, forall₂_of_mapM hbs, Nat.lt_of_not_le fun hle => hp (Nat.lt_succ_of_le hle)⟩

/-- How a join point waits is said by the data of its node, if it has one. -/
theorem settings_of_at? (h : JoinPoint.at? nodes edges t = .ok (some j)) :
    ∃ data : Fields, (lookup nodes t.key).elim (.ok []) Node.fields? = .ok data ∧
      j.type = data.valueOr "joinType" "waitForAll" ∧
      j.timeout = data.valueOr "joinTimeout" (.int 300000) ∧
      j.onTimeout = data.valueOr "onJoinTimeout" "continue" := by
  unfold JoinPoint.at? at h
  simp only at h
  split at h
  · cases h
  · obtain ⟨bs, -, h⟩ := bind_eq_ok h
    split at h
    · cases h
    · obtain ⟨data, hdata, h⟩ := bind_eq_ok h
      cases h
      exact ⟨data, hdata, rfl, rfl, rfl⟩

private theorem length_parents_le : (JoinPoint.parents bs).length ≤ bs.length := by
  refine Nat.le_trans (distinctOn_sublist id _).length_le ?_
  rw [List.length_map]
  exact List.length_filterMap_le _ bs

/-- Nothing stops an id from being judged in a graph of scalar types that lacks no data. -/
theorem exists_at? (edges : List Edge) (t : Scalar) (ht : ∀ n ∈ nodes, n.type.isScalar = true)
    (hd : ∀ n ∈ nodes, ∃ fs, n.data = some fs) :
    ∃ bs, ListsEdges nodes edges (incoming edges t.key) bs ∧
      ∃ o, JoinPoint.at? nodes edges t = .ok o ∧
        (1 < (JoinPoint.parents bs).length → o.isSome) := by
  obtain ⟨bs, hbs⟩ : ∃ bs, (incoming edges t.key).mapM (IncomingBranch.ofEdge? nodes edges) =
      .ok bs := by
    refine exists_mapM_iff.2 fun e _ => ?_
    obtain ⟨walk, hwalk⟩ := exists_walk_back edges e.source ht
    exact ⟨_, ofEdge?_eq_ok.2 ⟨walk, hwalk, rfl⟩⟩
  obtain ⟨data, hdata⟩ : ∃ data, (lookup nodes t.key).elim (.ok []) Node.fields? = .ok data := by
    cases hn : lookup nodes t.key with
    | none => exact ⟨[], rfl⟩
    | some n =>
      obtain ⟨fs, hfs⟩ := hd n (mem_of_lookup hn)
      exact ⟨fs, by simp [Node.fields?, hfs]⟩
  have hlists : ListsEdges nodes edges (incoming edges t.key) bs := forall₂_of_mapM hbs
  refine ⟨bs, hlists, ?_⟩
  unfold JoinPoint.at?
  simp only [hbs, hdata, ok_bind]
  split
  · next hlt =>
    have hle : (JoinPoint.parents bs).length ≤ (incoming edges t.key).length :=
      hlists.length_eq ▸ length_parents_le
    exact ⟨none, rfl, fun h => by omega⟩
  · split
    · next hlt => exact ⟨none, rfl, fun h => by omega⟩
    · exact ⟨some _, rfl, fun _ => rfl⟩

private theorem joinPoints?_eq_ok : joinPoints? nodes edges = .ok js ↔
    ∃ os, (firstTargets edges).mapM (JoinPoint.at? nodes edges) = .ok os ∧ os.filterMap id = js := by
  unfold joinPoints?
  cases (firstTargets edges).mapM (JoinPoint.at? nodes edges) with
  | error f => simp [Except.map]
  | ok os => simp [Except.map]

theorem mem_joinPoints? (h : joinPoints? nodes edges = .ok js) :
    j ∈ js ↔ ∃ t ∈ firstTargets edges, JoinPoint.at? nodes edges t = .ok (some j) := by
  obtain ⟨os, hos, rfl⟩ := joinPoints?_eq_ok.1 h
  have hjudged := forall₂_of_mapM hos
  simp only [List.mem_filterMap, id, exists_eq_right]
  constructor
  · exact exists_of_forall₂ hjudged
  · rintro ⟨t, ht, hj⟩
    obtain ⟨o, ho, hto⟩ := exists_of_forall₂ hjudged.flip ht
    rw [hj] at hto
    cases hto
    exact ho

/-- Some of the ids at which edges end are reported, in the order of their first edges. -/
private theorem sublist_firstTargets (h : joinPoints? nodes edges = .ok js) :
    (js.map JoinPoint.node).Sublist (firstTargets edges) := by
  obtain ⟨os, hos, rfl⟩ := joinPoints?_eq_ok.1 h
  have hjudged := forall₂_of_mapM hos
  clear hos h
  generalize firstTargets edges = ts at hjudged ⊢
  induction hjudged with
  | nil => exact .slnil
  | @cons t o ts os ho _ ih =>
    cases o with
    | none => exact ih.cons t
    | some j =>
      obtain ⟨rfl, -⟩ := of_at? ho
      exact ih.cons_cons j.node

theorem exists_joinPoints? (edges : List Edge) (ht : ∀ n ∈ nodes, n.type.isScalar = true)
    (hd : ∀ n ∈ nodes, ∃ fs, n.data = some fs) : ∃ js, joinPoints? nodes edges = .ok js := by
  obtain ⟨os, hos⟩ : ∃ os, (firstTargets edges).mapM (JoinPoint.at? nodes edges) = .ok os := by
    refine exists_mapM_iff.2 fun t _ => ?_
    obtain ⟨_, -, o, ho, -⟩ := exists_at? edges t ht hd
    exact ⟨o, ho⟩
  exact ⟨os.filterMap id, joinPoints?_eq_ok.2 ⟨os, hos, rfl⟩⟩

/-- The id is that of a node, and `p` is the id of a condition that feeds it. -/
def ComesFrom (nodes : List Node) (edges : List Edge) (s p : Scalar) : Prop :=
  (∃ n, lookup nodes s.key = some n) ∧
    (∃ c, lookup nodes p.key = some c ∧ c.id = p ∧ c.isCondition = true) ∧
    Feeds nodes edges p.key s.key

private theorem comesFrom_of_ofEdge? {p : Scalar} (h : IncomingBranch.ofEdge? nodes edges e = .ok b)
    (hp : b.parent = some p) : ComesFrom nodes edges b.source p := by
  obtain ⟨walk, hwalk, rfl⟩ := ofEdge?_eq_ok.1 h
  obtain ⟨c, hf, rfl⟩ := Option.map_eq_some_iff.1 hp
  obtain ⟨hn, hl, hc, hfeeds⟩ := feeds_of_parentCondition? hwalk hf
  exact ⟨hn, ⟨c, hl, rfl, hc⟩, hfeeds⟩

private theorem ListsEdges.ends {es : List Edge} (h : ListsEdges nodes edges es bs) :
    (bs.map fun b => (b.source, b.condition)) = es.map fun e => (e.source, e.branch) := by
  induction h with
  | nil => rfl
  | cons hb _ ih =>
    obtain ⟨walk, -, rfl⟩ := ofEdge?_eq_ok.1 hb
    rw [List.map_cons, List.map_cons, ih]

end

section
variable {nodes : List Node} {edges : List Edge} {e e' : Edge}

/-- Ids are reported in the order in which edges first end there, none of them twice. Each lists the
edges that end there, and the conditions that two of them come from differ. In a graph of scalar
types that lacks no data the report is made. -/
theorem joinPoints_meet (nodes : List Node) (edges : List Edge) :
    ((∀ n ∈ nodes, n.type.isScalar = true) → (∀ n ∈ nodes, ∃ fs, n.data = some fs) →
      ∃ js, joinPoints? nodes edges = .ok js) ∧
    ∀ js, joinPoints? nodes edges = .ok js →
      (js.Pairwise fun i j => (edges.map Edge.head).idxOf i.node.key <
        (edges.map Edge.head).idxOf j.node.key) ∧
      ∀ j ∈ js, j.node ∈ edges.map Edge.target ∧
        (j.branches.map fun b => (b.source, b.condition)) =
          ((edges.filter fun e => e.head = j.node.key).map fun e => (e.source, e.branch)) ∧
        (∀ b ∈ j.branches, ∀ p, b.parent = some p → ComesFrom nodes edges b.source p) ∧
        ∃ b ∈ j.branches, ∃ b' ∈ j.branches, ∃ p p',
          b.parent = some p ∧ b'.parent = some p' ∧ p.key ≠ p'.key := by
  refine ⟨exists_joinPoints? edges, fun js h => ⟨?_, fun j hj => ?_⟩⟩
  · have horder := (pairwise_idxOf_distinctOn Scalar.key (edges.map Edge.target)).sublist
      (sublist_firstTargets h)
    have hheads : (edges.map Edge.target).map Scalar.key = edges.map Edge.head := List.map_map
    rwa [hheads, List.pairwise_map] at horder
  · obtain ⟨t, ht, hat⟩ := (mem_joinPoints? h).1 hj
    obtain ⟨rfl, hlists, hp⟩ := of_at? hat
    obtain ⟨k, hk, l, hl, hne⟩ := one_lt_parents.1 hp
    obtain ⟨b, hb, p, hbp, -, rfl⟩ := mem_parents.1 hk
    obtain ⟨b', hb', p', hbp', -, rfl⟩ := mem_parents.1 hl
    refine ⟨mem_of_mem_distinctOn ht, hlists.ends, fun b hb p hp => ?_,
      b, hb, b', hb', p, p', hbp, hbp', hne⟩
    obtain ⟨e, -, he⟩ := exists_of_forall₂ hlists hb
    exact comesFrom_of_ofEdge? he hp

/-- Branches of two conditions that meet; one of them comes from a condition further back, and an
edge from an id that is no node ends there as well. -/
def crossingNodes : List Node :=
  [⟨"c", "ifNode", some [], some []⟩, ⟨"d", "switchNode", some [], some []⟩,
    ⟨"a", "actionNode", some [], some []⟩, ⟨"b", "actionNode", some [], some []⟩,
    ⟨"j", "actionNode", some [], some []⟩]

def crossingEdges : List Edge :=
  [⟨"1", "c", "d", "yes", .null, some []⟩, ⟨"2", "c", "a", "no", .null, some []⟩,
    ⟨"3", "d", "b", .null, .null, some []⟩, ⟨"4", "a", "j", "done", .null, some []⟩,
    ⟨"5", "b", "j", .null, .null, some []⟩, ⟨"6", "gone", "j", .null, .null, some []⟩]

def crossing : JoinPoint :=
  ⟨"j", "waitForAll", [⟨"a", "done", some "c"⟩, ⟨"b", "default", some "d"⟩, ⟨"gone", "default", none⟩],
    .int 300000, "continue"⟩

theorem joinPoints_meet_crossing : joinPoints? crossingNodes crossingEdges = .ok [crossing] ∧
    ComesFrom crossingNodes crossingEdges "a" "c" ∧ ComesFrom crossingNodes crossingEdges "b" "d" := by
  have hjs : joinPoints? crossingNodes crossingEdges = .ok [crossing] := by decide +kernel
  obtain ⟨-, hmeet⟩ := (joinPoints_meet crossingNodes crossingEdges).2 _ hjs
  obtain ⟨-, -, hfrom, -⟩ := hmeet crossing (by simp)
  exact ⟨hjs, hfrom ⟨"a", "done", some "c"⟩ (by simp [crossing]) "c" rfl,
    hfrom ⟨"b", "default", some "d"⟩ (by simp [crossing]) "d" rfl⟩

/-- The id is that of a condition. -/
def IsConditionAt (nodes : List Node) (k : Key) : Prop :=
  ∃ c, lookup nodes k = some c ∧ c.isCondition = true

/-- A condition that the source of the edge comes from. -/
def Behind (nodes : List Node) (edges : List Edge) (e : Edge) (k : Key) : Prop :=
  IsConditionAt nodes k ∧ Feeds nodes edges k e.tail

/-- An edge behind which there is a condition is listed with one. -/
private theorem exists_parent_of_behind {bs : List IncomingBranch} {t : Scalar} {k : Key}
    (hid : ∀ n ∈ nodes, n.id.isBlank = false) (he : e ∈ incoming edges t.key)
    (ha : e.isAttached nodes = true) (hk : Behind nodes edges e k)
    (h : ListsEdges nodes edges (incoming edges t.key) bs) :
    ∃ p ∈ JoinPoint.parents bs, Behind nodes edges e p := by
  obtain ⟨b, hb, hbe⟩ := exists_of_forall₂ h.flip he
  obtain ⟨walk, hwalk, rfl⟩ := ofEdge?_eq_ok.1 hbe
  obtain ⟨⟨c, hl, hc⟩, hfeeds⟩ := hk
  obtain ⟨n, hn⟩ := exists_lookup_of_isAttached ha
  obtain rfl := key_of_lookup hl
  obtain ⟨p, hp⟩ := exists_found_of_feeds (areNamed_of_not_blank hid) hn hl hc hfeeds hwalk
  obtain ⟨-, hpl, hpc, hpf⟩ := feeds_of_parentCondition? hwalk hp
  refine ⟨p.key, mem_parents.2 ⟨_, hb, p.id, by simp [hp], hid p (mem_of_lookup hpl), rfl⟩, ?_⟩
  exact ⟨⟨p, hpl, hpc⟩, hpf⟩

/-- Where two edges end behind which there are conditions, but none that is behind both, is
reported. -/
theorem exists_joinPoint_of_disjoint (ht : ∀ n ∈ nodes, n.type.isScalar = true)
    (hd : ∀ n ∈ nodes, ∃ fs, n.data = some fs) (hid : ∀ n ∈ nodes, n.id.isBlank = false)
    (ha : ∀ e ∈ edges, e.isAttached nodes = true) (he : e ∈ edges) (he' : e' ∈ edges)
    (hh : e.head = e'.head) (hb : ∃ k, Behind nodes edges e k)
    (hb' : ∃ k, Behind nodes edges e' k)
    (hdisjoint : ∀ k, Behind nodes edges e k → ¬ Behind nodes edges e' k) :
    ∃ js, joinPoints? nodes edges = .ok js ∧ ∃ j ∈ js, j.node.key = e.head := by
  obtain ⟨js, hjs⟩ := exists_joinPoints? edges ht hd
  obtain ⟨t, htarget, hte : t.key = e.head⟩ :=
    exists_mem_distinctOn (f := Scalar.key) (List.mem_map_of_mem he)
  have hin : e ∈ incoming edges t.key := mem_incoming.2 ⟨he, hte.symm⟩
  have hin' : e' ∈ incoming edges t.key := mem_incoming.2 ⟨he', hh.symm.trans hte.symm⟩
  obtain ⟨bs, hlists, o, ho, hsome⟩ := exists_at? edges t ht hd
  obtain ⟨k, hk⟩ := hb
  obtain ⟨k', hk'⟩ := hb'
  obtain ⟨p, hp, hpe⟩ := exists_parent_of_behind hid hin (ha e he) hk hlists
  obtain ⟨p', hp', hpe'⟩ := exists_parent_of_behind hid hin' (ha e' he') hk' hlists
  have hne : p ≠ p' := fun heq => hdisjoint p hpe (heq ▸ hpe')
  obtain ⟨j, rfl⟩ := Option.isSome_iff_exists.1 (hsome (one_lt_parents.2 ⟨p, hp, p', hp', hne⟩))
  refine ⟨js, hjs, j, (mem_joinPoints? hjs).2 ⟨t, htarget, ho⟩, ?_⟩
  rw [(of_at? ho).1, hte]

/-- No edge to an action leads to a condition, so it alone feeds what can only be reached from it. -/
theorem eq_of_feeds {c k l : Key} (hc : IsConditionAt nodes c)
    (honly : ∀ e ∈ edges, e.head = l → e.tail = c) (h : Feeds nodes edges k l) : k = c := by
  obtain ⟨u, hr, e, he, rfl, hh⟩ := h
  rw [honly e he hh] at hr
  rcases Relation.ReflTransGen.cases_tail hr with heq | ⟨-, -, e', he', -, rfl⟩
  · exact heq.symm
  · obtain ⟨m, hm, hmc⟩ := hc
    obtain ⟨-, ⟨n, hn⟩, -⟩ := mem_actionEdges.1 he'
    obtain ⟨hl, hnc⟩ := actionAt_eq_some.1 hn
    rw [hm] at hl
    cases hl
    simp [hmc] at hnc

theorem exists_joinPoint_of_disjoint_crossing :
    let edges := attached crossingNodes crossingEdges
    (∀ k, Behind crossingNodes edges ⟨"4", "a", "j", "done", .null, some []⟩ k → k = .text "c") ∧
    (∀ k, Behind crossingNodes edges ⟨"5", "b", "j", .null, .null, some []⟩ k → k = .text "d") ∧
    ∃ js, joinPoints? crossingNodes edges = .ok js ∧ ∃ j ∈ js, j.node.key = .text "j" := by
  intro edges
  have hc : IsConditionAt crossingNodes (.text "c") := ⟨_, rfl, by decide⟩
  have hd : IsConditionAt crossingNodes (.text "d") := ⟨_, rfl, by decide⟩
  have hbehind : ∀ k, Behind crossingNodes edges ⟨"4", "a", "j", "done", .null, some []⟩ k →
      k = .text "c" := fun k hk => eq_of_feeds hc (by decide +kernel) hk.2
  have hbehind' : ∀ k, Behind crossingNodes edges ⟨"5", "b", "j", .null, .null, some []⟩ k →
      k = .text "d" := fun k hk => eq_of_feeds hd (by decide +kernel) hk.2
  refine ⟨hbehind, hbehind', ?_⟩
  have he : ⟨"4", "a", "j", "done", .null, some []⟩ ∈ edges := by decide +kernel
  have he' : ⟨"5", "b", "j", .null, .null, some []⟩ ∈ edges := by decide +kernel
  refine exists_joinPoint_of_disjoint (by decide) ?_ (by decide) (by decide +kernel) he he' rfl
    ⟨.text "c", hc, .text "c", .refl, ?_⟩ ⟨.text "d", hd, .text "d", .refl, ?_⟩ fun k hk hk' => ?_
  · simp [crossingNodes]
  · exact ⟨⟨"2", "c", "a", "no", .null, some []⟩, by decide +kernel, rfl, rfl⟩
  · exact ⟨⟨"3", "d", "b", .null, .null, some []⟩, by decide +kernel, rfl, rfl⟩
  · have hcd : Key.text "c" ≠ .text "d" := by decide
    exact hcd ((hbehind k hk).symm.trans (hbehind' k hk'))

/-- A condition to whose branches the edge belongs: its source alone, if that is a condition. -/
def OpensBranch (nodes : List Node) (edges : List Edge) (e : Edge) (k : Key) : Prop :=
  IsConditionAt nodes e.tail ∧ k = e.tail ∨ ¬ IsConditionAt nodes e.tail ∧ Behind nodes edges e k

/-- Two conditions with an edge each to one action. -/
def abreastNodes : List Node :=
  [⟨"c", "ifNode", some Node.origin, some []⟩, ⟨"d", "ifNode", some Node.origin, some []⟩,
    ⟨"j", "actionNode", some Node.origin, some []⟩]

def abreastEdges : List Edge :=
  [⟨"1", "c", "j", "yes", .null, some []⟩, ⟨"2", "d", "j", "yes", .null, some []⟩]

/-- Branches that lead from two conditions straight to one id are not reported. -/
theorem not_reported_of_opensBranch :
    ¬ ∀ (nodes : List Node) (edges : List Edge), (nodes.map Node.key).Nodup →
      (∀ n ∈ nodes, n.type.isScalar = true) → (∀ n ∈ nodes, ∃ fs, n.data = some fs) →
      (∀ n ∈ nodes, n.id.isBlank = false) → (∀ e ∈ edges, e.isAttached nodes = true) →
      ∀ e ∈ edges, ∀ e' ∈ edges, e.head = e'.head → (∃ k, OpensBranch nodes edges e k) →
      (∃ k, OpensBranch nodes edges e' k) →
      (∀ k, OpensBranch nodes edges e k → ¬ OpensBranch nodes edges e' k) →
      ∃ js, joinPoints? nodes edges = .ok js ∧ ∃ j ∈ js, j.node.key = e.head := by
  intro h
  have hnone : joinPoints? abreastNodes abreastEdges = .ok [] := by decide +kernel
  have hc : IsConditionAt abreastNodes (.text "c") := ⟨_, rfl, by decide⟩
  have hd : IsConditionAt abreastNodes (.text "d") := ⟨_, rfl, by decide⟩
  have hcd : Key.text "c" ≠ .text "d" := by decide
  obtain ⟨js, hjs, j, hj, -⟩ := h abreastNodes abreastEdges (by decide) (by decide)
    (by simp [abreastNodes]) (by decide) (by decide) ⟨"1", "c", "j", "yes", .null, some []⟩
    (by decide) ⟨"2", "d", "j", "yes", .null, some []⟩ (by decide) rfl ⟨.text "c", .inl ⟨hc, rfl⟩⟩
    ⟨.text "d", .inl ⟨hd, rfl⟩⟩ fun k hk hk' => by
      rcases hk with ⟨-, rfl⟩ | ⟨hk, -⟩
      · rcases hk' with ⟨-, hk'⟩ | ⟨hk', -⟩
        · exact hcd hk'
        · exact hk' hd
      · exact hk hc
  rw [hnone] at hjs
  cases hjs
  cases hj

end

end Flowchart
