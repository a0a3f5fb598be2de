import Flowchart.Proofs.Join
/-! Join points and the order of the edges. The walk back commits to the first condition that it
meets, so where two conditions feed an id the order of the edges that end there decides which of
them counts, and with that what is reported; nothing else about the order does. -/
namespace Flowchart

section
variable {stops : Node → Bool} {nodes : List Node} {edges edges' todo more : List Edge}
  {seen : List Key} {ids : List Scalar} {e f : Edge} {c : Node} {k : Key}

/-- The walk back does the same at the id for both orders of the edges: those that end there stand
in the same order, or whichever is taken first leads to the same find. -/
def Settled (stops : Node → Bool) (nodes : List Node) (edges edges' : List Edge) (k : Key) : Prop :=
  incoming edges k = incoming edges' k ∨ ∀ c c', MayFind stops nodes edges [] (incoming edges k) c →
    MayFind stops nodes edges [] (incoming edges k) c' → c = c'

private theorem WalksBack.reorder (hid : AreNamed nodes) (hp : edges.Perm edges')
    (h : WalksBack stops nodes edges seen e f) : WalksBack stops nodes edges' seen e f := by
  refine Relation.ReflTransGen.mono (fun e f ⟨hpass, hf⟩ => ⟨hpass, ?_⟩) _ _ h
  rw [entering_eq_incoming hid] at hf ⊢
  exact (hp.filter _).mem_iff.1 hf

private theorem MayFind.reorder (hid : AreNamed nodes) (hp : edges.Perm edges')
    (h : MayFind stops nodes edges seen todo c) : MayFind stops nodes edges' [] todo c := by
  obtain ⟨e, he, f, hw, hf⟩ := h
  exact ⟨e, he, f, (hw.reorder hid hp).mono nofun, hf⟩

/-- Behind edges listed in another order the walk marks the same ids, when it finds nothing. -/
private theorem mem_seen_of_perm (hp : todo.Perm more)
    (hnone : (climb stops nodes edges more ids).found = none)
    (hk : k ∈ keys (climb stops nodes edges todo ids).seen) :
    k ∈ keys (climb stops nodes edges more ids).seen := by
  rcases exists_of_mem_seen hk with hk | ⟨e, he, f, hw, hpass, rfl⟩
  · exact mem_seen_of_mem hk
  · exact mem_seen_of_climb_none hnone e (hp.mem_iff.1 he) f hw hpass

/-- Edges behind which one node alone can be found may be walked back in any order. -/
theorem climb_found_perm {block block' : List Edge} (hp : block.Perm block')
    (hone : ∀ c c', MayFind stops nodes edges (keys ids) block c →
      MayFind stops nodes edges (keys ids) block c' → c = c') :
    (climb stops nodes edges (block ++ more) ids).found =
      (climb stops nodes edges (block' ++ more) ids).found := by
  have hfind (c : Node) : MayFind stops nodes edges (keys ids) block c ↔
      MayFind stops nodes edges (keys ids) block' c :=
    ⟨.mono fun e => hp.mem_iff.1, .mono fun e => hp.mem_iff.2⟩
  rw [climb_append, climb_append]
  cases h : (climb stops nodes edges block ids).found with
  | some c =>
    have hc := exists_of_climb_found h
    cases h' : (climb stops nodes edges block' ids).found with
    | some c' =>
      have hc' := (hfind c').2 (exists_of_climb_found h')
      simp only [Option.isSome_some, if_true, h, h', hone c c' hc hc']
    | none => exact absurd ((hfind c).1 hc) (climb_none_iff.1 h' c)
  | none =>
    have h' : (climb stops nodes edges block' ids).found = none :=
      climb_none_iff.2 fun c hc => climb_none_iff.1 h c ((hfind c).2 hc)
    simp only [h', Option.isSome_none, Bool.false_eq_true, if_false]
    exact climb_found_congr fun k => ⟨mem_seen_of_perm hp h', mem_seen_of_perm hp.symm h⟩

/-- The edges that end at a settled id may be walked back in either order. -/
private theorem climb_found_entering (more : List Edge) (hid : AreNamed nodes)
    (hp : edges.Perm edges') (hk : Settled stops nodes edges edges' k) :
    (climb stops nodes edges' (entering nodes edges k ++ more) ids).found =
      (climb stops nodes edges' (entering nodes edges' k ++ more) ids).found := by
  rw [entering_eq_incoming hid, entering_eq_incoming hid]
  rcases hk with hk | hone
  · rw [hk]
  · refine climb_found_perm (hp.filter _) fun c c' hc hc' => ?_
    exact hone c c' (hc.reorder hid hp.symm) (hc'.reorder hid hp.symm)

/-- The order of the edges makes no difference to a walk that passes settled ids alone. -/
private theorem climb_found_reorder (hid : AreNamed nodes) (hp : edges.Perm edges')
    (h : ∀ e ∈ todo, ∀ f, WalksBack stops nodes edges (keys ids) e f →
      Passes stops nodes (keys ids) f → Settled stops nodes edges edges' f.tail) :
    (climb stops nodes edges todo ids).found = (climb stops nodes edges' todo ids).found := by
  fun_induction climb stops nodes edges todo ids with
  | case1 => rw [climb]
  | case2 ids e todo hn ih =>
    rw [climb_missing hn, ih fun g hg => h g (List.mem_cons_of_mem _ hg)]
  | case3 ids e todo n hn hs => rw [climb_stop hn hs]
  | case4 ids e todo n hn hs hk ih =>
    rw [climb_marked hn hs hk, ih fun g hg => h g (List.mem_cons_of_mem _ hg)]
  | case5 ids e todo n hn hs hk ih =>
    have hpass : Passes stops nodes (keys ids) e :=
      ⟨n, hn, by simpa using hs, key_of_lookup hn ▸ hk⟩
    have hsettled : Settled stops nodes edges edges' n.key :=
      key_of_lookup hn ▸ h e List.mem_cons_self e .refl hpass
    rw [climb_enter hn hs hk, ← climb_found_entering todo hid hp hsettled]
    rw [keys_append_id] at ih
    refine ih fun g hg f hw hf => ?_
    obtain ⟨g, hg, hw⟩ := hw.leave (key_of_lookup hn) hpass hg
    exact h g hg f hw (hf.mono fun _ => List.mem_append_left _)

end

/-- At most one condition feeds the id. -/
def HasOneFeeder (nodes : List Node) (edges : List Edge) (k : Key) : Prop :=
  ∀ c c', IsConditionAt nodes c → IsConditionAt nodes c' → Feeds nodes edges c k →
    Feeds nodes edges c' k → c = c'

/-- The walk back from `s` may come to the edges that end at `u`: it is `s` itself, or that of a
node which is no condition and feeds `s`. -/
def LooksAt (nodes : List Node) (edges : List Edge) (s u : Key) : Prop :=
  u = s ∨ (∃ n, lookup nodes u = some n ∧ n.isCondition = false) ∧ Feeds nodes edges u s

/-- The walk back from the source of an edge to `k` finds `p`, a condition whose id is not blank. -/
def IsParentOf (nodes : List Node) (edges : List Edge) (p k : Key) : Prop :=
  ∃ e ∈ incoming edges k, ∃ c, (climbFrom halts nodes edges e.source []).found = some c ∧
    c.id.isBlank = false ∧ c.key = p

section
variable {nodes : List Node} {edges edges' : List Edge} {js js' : List JoinPoint} {k p : Key}
  {s : Scalar}

private theorem settled_of_hasOneFeeder (ht : ∀ n ∈ nodes, n.type.isScalar = true)
    (hone : HasOneFeeder nodes edges k) : Settled halts nodes edges edges' k := by
  have feeds {c : Node} (h : MayFind halts nodes edges [] (incoming edges k) c) :
      lookup nodes c.key = some c ∧ c.isCondition = true ∧ Feeds nodes edges c.key k := by
    obtain ⟨e, he, f, hw, hl, hs⟩ := h
    have hc : c.isCondition = true := isCondition_of_halts (ht c (mem_of_lookup hl)) hs
    rw [key_of_lookup hl]
    exact ⟨hl, hc, feeds_of_walksBack he hw⟩
  refine .inr fun c c' h h' => ?_
  obtain ⟨hl, hc, hf⟩ := feeds h
  obtain ⟨hl', hc', hf'⟩ := feeds h'
  have hkey : c.key = c'.key := hone _ _ ⟨c, hl, hc⟩ ⟨c', hl', hc'⟩ hf hf'
  rw [hkey, hl'] at hl
  exact (Option.some.inj hl).symm

/-- The condition found from an id is the same for two orders of the edges, when every id that the
walk back may come to keeps the order of its edges or is fed by one condition at most. -/
private theorem found_eq_of_perm (ht : ∀ n ∈ nodes, n.type.isScalar = true) (hid : AreNamed nodes)
    (hp : edges.Perm edges') (h : ∀ u, LooksAt nodes edges s.key u →
      incoming edges u = incoming edges' u ∨ HasOneFeeder nodes edges u) :
    (climbFrom halts nodes edges s []).found = (climbFrom halts nodes edges' s []).found := by
  have settled {u : Key} (hu : LooksAt nodes edges s.key u) :
      Settled halts nodes edges edges' u :=
    (h u hu).elim .inl (settled_of_hasOneFeeder ht)
  cases hn : lookup nodes s.key with
  | none => rw [climbFrom_of_none_or_mem (.inl hn), climbFrom_of_none_or_mem (.inl hn)]
  | some n =>
    rw [climbFrom_node hn, climbFrom_node hn]
    have hstart : (climb halts nodes edges' (entering nodes edges s.key) [s]).found =
        (climb halts nodes edges' (entering nodes edges' s.key) [s]).found := by
      simpa using climb_found_entering [] hid hp (settled (.inl rfl))
    rw [← hstart]
    refine climb_found_reorder hid hp fun e he f hw hpass => settled (.inr ⟨?_, ?_⟩)
    · obtain ⟨m, hm, hs, -⟩ := hpass
      exact ⟨m, hm, isCondition_of_not_halts hs⟩
    · exact feeds_of_walksBack (mem_incoming_of_mem_entering he) (hw.mono nofun)

private theorem mem_parents_iff {bs : List IncomingBranch}
    (hlists : ListsEdges nodes edges (incoming edges k) bs) :
    p ∈ JoinPoint.parents bs ↔ IsParentOf nodes edges p k := by
  rw [mem_parents]
  constructor
  · rintro ⟨b, hb, q, hq, hblank, rfl⟩
    obtain ⟨e, he, hbe⟩ := exists_of_forall₂ hlists hb
    obtain ⟨walk, hwalk, rfl⟩ := ofEdge?_eq_ok.1 hbe
    obtain ⟨rfl, -⟩ := climb_of_parentCondition? hwalk
    obtain ⟨c, hc, rfl⟩ := Option.map_eq_some_iff.1 hq
    exact ⟨e, he, c, hc, hblank, rfl⟩
  · rintro ⟨e, he, c, hc, hblank, rfl⟩
    obtain ⟨b, hb, hbe⟩ := exists_of_forall₂ hlists.flip he
    obtain ⟨walk, hwalk, rfl⟩ := ofEdge?_eq_ok.1 hbe
    obtain ⟨rfl, -⟩ := climb_of_parentCondition? hwalk
    exact ⟨_, hb, c.id, by rw [hc]; rfl, hblank, rfl⟩

/-- An id is reported when different conditions are found from the edges that end there. -/
theorem reported_iff (ht : ∀ n ∈ nodes, n.type.isScalar = true)
    (hd : ∀ n ∈ nodes, ∃ fs, n.data = some fs) (h : joinPoints? nodes edges = .ok js) :
    (∃ j ∈ js, j.node.key = k) ↔
      ∃ p q, IsParentOf nodes edges p k ∧ IsParentOf nodes edges q k ∧ p ≠ q := by
  constructor
  · rintro ⟨j, hj, rfl⟩
    obtain ⟨t, -, hat⟩ := (mem_joinPoints? h).1 hj
    obtain ⟨rfl, hlists, hlt⟩ := of_at? hat
    obtain ⟨p, hp, q, hq, hne⟩ := one_lt_parents.1 hlt
    exact ⟨p, q, (mem_parents_iff hlists).1 hp, (mem_parents_iff hlists).1 hq, hne⟩
  · rintro ⟨p, q, hp, hq, hne⟩
    obtain ⟨e, he, -⟩ := id hp
    obtain ⟨hmem, rfl⟩ := mem_incoming.1 he
    obtain ⟨t, htarget, hte : t.key = e.head⟩ :=
      exists_mem_distinctOn (f := Scalar.key) (List.mem_map_of_mem hmem)
    rw [← hte] at hp hq
    obtain ⟨bs, hlists, o, ho, hsome⟩ := exists_at? edges t ht hd
    have hlt : 1 < (JoinPoint.parents bs).length :=
      one_lt_parents.2 ⟨p, (mem_parents_iff hlists).2 hp, q, (mem_parents_iff hlists).2 hq, hne⟩
    obtain ⟨j, rfl⟩ := Option.isSome_iff_exists.1 (hsome hlt)
    exact ⟨j, (mem_joinPoints? h).2 ⟨t, htarget, ho⟩, by rw [(of_at? ho).1, hte]⟩

private theorem isParentOf_of_perm (hp : edges.Perm edges')
    (h : ∀ e ∈ incoming edges k, (climbFrom halts nodes edges e.source []).found =
      (climbFrom halts nodes edges' e.source []).found) (hpar : IsParentOf nodes edges p k) :
    IsParentOf nodes edges' p k := by
  obtain ⟨e, he, c, hc, hpar⟩ := hpar
  exact ⟨e, (hp.filter _).mem_iff.1 he, c, h e he ▸ hc, hpar⟩

/-- Two orders of the edges lead to a report of the same ids, as far as the edges that end at an
id which the walk back may come to keep their order, or one condition at most feeds that id. -/
theorem joinPoints_of_perm (ht : ∀ n ∈ nodes, n.type.isScalar = true)
    (hd : ∀ n ∈ nodes, ∃ fs, n.data = some fs) (hid : AreNamed nodes) (hp : edges.Perm edges') :
    ∃ js js', joinPoints? nodes edges = .ok js ∧ joinPoints? nodes edges' = .ok js' ∧
      ∀ k, (∀ e ∈ edges, e.head = k → ∀ u, LooksAt nodes edges e.tail u →
          incoming edges u = incoming edges' u ∨ HasOneFeeder nodes edges u) →
        ((∃ j ∈ js, j.node.key = k) ↔ ∃ j ∈ js', j.node.key = k) := by
  obtain ⟨js, hjs⟩ := exists_joinPoints? edges ht hd
  obtain ⟨js', hjs'⟩ := exists_joinPoints? edges' ht hd
  refine ⟨js, js', hjs, hjs', fun k hk => ?_⟩
  have hfound (e : Edge) (he : e ∈ incoming edges k) :
      (climbFrom halts nodes edges e.source []).found =
        (climbFrom halts nodes edges' e.source []).found := by
    obtain ⟨hmem, hhead⟩ := mem_incoming.1 he
    exact found_eq_of_perm ht hid hp (hk e hmem hhead)
  have hparent (p : Key) : IsParentOf nodes edges p k ↔ IsParentOf nodes edges' p k :=
    ⟨isParentOf_of_perm hp hfound,
      isParentOf_of_perm hp.symm fun e he => (hfound e ((hp.filter _).mem_iff.2 he)).symm⟩
  rw [reported_iff ht hd hjs, reported_iff ht hd hjs']
  simp only [hparent]

private theorem exists_edge_of_feeds (h : Feeds nodes edges p k) : ∃ e ∈ edges, e.tail = p := by
  obtain ⟨u, hr, e, he, ht, -⟩ := h
  rcases Relation.ReflTransGen.cases_head hr with rfl | ⟨_, ⟨g, hg, hgt, -⟩, -⟩
  · exact ⟨e, he, ht⟩
  · exact ⟨g, (mem_actionEdges.1 hg).1, hgt⟩

/-- Two conditions lead to the action `a`, one of them to `b` twice; both actions lead to `j`. -/
def braidNodes : List Node :=
  [⟨"c", "ifNode", some [], some []⟩, ⟨"d", "ifNode", some [], some []⟩,
    ⟨"a", "actionNode", some [], some []⟩, ⟨"b", "actionNode", some [], some []⟩,
    ⟨"j", "actionNode", some [], some []⟩]

def braidEdges : List Edge :=
  [⟨"1", "d", "a", "yes", .null, some []⟩, ⟨"2", "c", "a", "yes", .null, some []⟩,
    ⟨"3", "c", "b", "no", .null, some []⟩, ⟨"4", "c", "b", "else", .null, some []⟩,
    ⟨"5", "a", "j", .null, .null, some []⟩, ⟨"6", "b", "j", .null, .null, some []⟩]

def braid : JoinPoint :=
  ⟨"j", "waitForAll", [⟨"a", "default", some "d"⟩, ⟨"b", "default", some "c"⟩], .int 300000,
    "continue"⟩

/-- The same edges; of those that end at one id, only those that end at `a` keep their order. -/
def shiftedEdges : List Edge := (braidEdges.drop 2).reverse ++ braidEdges.take 2

private theorem perm_shiftedEdges : braidEdges.Perm shiftedEdges := by decide +kernel

private theorem incoming_shiftedEdges (hb : k ≠ .text "b") (hj : k ≠ .text "j") :
    incoming braidEdges k = incoming shiftedEdges k := by
  by_cases ha : k = .text "a"
  · rw [ha]
    decide +kernel
  have hheads : ∀ e ∈ braidEdges, e.head = .text "a" ∨ e.head = .text "b" ∨ e.head = .text "j" := by
    decide
  have hnone (e : Edge) (he : e ∈ braidEdges) : ¬ e.head = k := by
    rcases hheads e he with h | h | h <;> rw [h]
    exacts [Ne.symm ha, Ne.symm hb, Ne.symm hj]
  have hnil : incoming braidEdges k = [] :=
    List.filter_eq_nil_iff.2 fun e he => by simpa using hnone e he
  have hperm : (incoming braidEdges k).Perm (incoming shiftedEdges k) := perm_shiftedEdges.filter _
  rw [hnil] at hperm ⊢
  exact hperm.nil_eq

/-- Only the condition `c` feeds `b`. -/
private theorem hasOneFeeder_braid : HasOneFeeder braidNodes braidEdges (.text "b") := by
  have hc : IsConditionAt braidNodes (.text "c") := ⟨_, rfl, by decide⟩
  have honly : ∀ e ∈ braidEdges, e.head = .text "b" → e.tail = .text "c" := by decide
  intro p q _ _ hp hq
  rw [eq_of_feeds hc honly hp, eq_of_feeds hc honly hq]

theorem joinPoints_of_perm_braid :
    incoming braidEdges (.text "b") ≠ incoming shiftedEdges (.text "b") ∧
    incoming braidEdges (.text "j") ≠ incoming shiftedEdges (.text "j") ∧
    ∃ js, joinPoints? braidNodes shiftedEdges = .ok js ∧ ∃ j ∈ js, j.node.key = .text "j" := by
  have hreport : joinPoints? braidNodes braidEdges = .ok [braid] := by decide +kernel
  obtain ⟨js, js', hjs, hjs', hsame⟩ := @joinPoints_of_perm braidNodes braidEdges shiftedEdges
    (by decide) (by simp [braidNodes]) (areNamed_of_not_blank (by decide)) perm_shiftedEdges
  rw [hreport] at hjs
  cases hjs
  refine ⟨by decide +kernel, by decide +kernel, js', hjs', ?_⟩
  refine (hsame (.text "j") fun e he _ u hu => ?_).1 ⟨braid, List.mem_singleton.2 rfl, rfl⟩
  by_cases hb : u = .text "b"
  · exact .inr (hb ▸ hasOneFeeder_braid)
  refine .inl (incoming_shiftedEdges hb ?_)
  -- no edge leaves `j`, so the walk back never comes to it
  rintro rfl
  have hleaf : ¬ ∃ e ∈ braidEdges, e.tail = .text "j" := by decide
  rcases hu with hu | ⟨-, hfeeds⟩
  · exact hleaf ⟨e, he, hu.symm⟩
  · exact hleaf (exists_edge_of_feeds hfeeds)

/-- With its edges in another order the same graph has no join point. -/
theorem not_reported_alike :
    ¬ ∀ (nodes : List Node) (edges edges' : List Edge), (nodes.map Node.key).Nodup →
      (∀ n ∈ nodes, n.type.isScalar = true) → (∀ n ∈ nodes, ∃ fs, n.data = some fs) →
      AreNamed nodes → (∀ e ∈ edges, e.isAttached nodes = true) → edges.Perm edges' →
      ∃ js js', joinPoints? nodes edges = .ok js ∧ joinPoints? nodes edges' = .ok js' ∧
        ∀ k, (∃ j ∈ js, j.node.key = k) ↔ ∃ j ∈ js', j.node.key = k := by
  intro h
  have hreport : joinPoints? braidNodes braidEdges = .ok [braid] := by decide +kernel
  have hnone : joinPoints? braidNodes braidEdges.reverse = .ok [] := by decide +kernel
  obtain ⟨js, js', hjs, hjs', hsame⟩ := h braidNodes braidEdges braidEdges.reverse (by decide)
    (by decide) (by simp [braidNodes]) (areNamed_of_not_blank (by decide)) (by decide)
    (List.reverse_perm _).symm
  rw [hreport] at hjs
  rw [hnone] at hjs'
  cases hjs
  cases hjs'
  obtain ⟨j, hj, -⟩ := (hsame (.text "j")).1 ⟨braid, List.mem_singleton.2 rfl, rfl⟩
  cases hj

end

end Flowchart
