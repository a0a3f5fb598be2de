import Flowchart.Join.Ancestor
import Mathlib.Data.List.Basic
import Mathlib.Logic.Relation
/-! What a walk back finds. Every id is entered once for the whole walk, so an edge may be cut off
by a mark that another route has set; nothing is lost by that, as the other route goes on from the
marked id. -/
namespace Flowchart

section
variable {stops : Node → Bool} {nodes : List Node} {edges todo : List Edge} {seen : List Key}
  {ids ids' : List Scalar} {e f g : Edge} {c n : Node} {k : Key}

theorem climb_missing (hn : lookup nodes e.tail = none) :
    climb stops nodes edges (e :: todo) ids = climb stops nodes edges todo ids := by
  rw [climb, hn]

theorem climb_stop (hn : lookup nodes e.tail = some n) (hs : stops n = true) :
    climb stops nodes edges (e :: todo) ids = ⟨some n, ids⟩ := by
  rw [climb, hn]
  exact if_pos hs

theorem climb_marked (hn : lookup nodes e.tail = some n) (hs : ¬ stops n = true)
    (hk : n.key ∈ keys ids) :
    climb stops nodes edges (e :: todo) ids = climb stops nodes edges todo ids := by
  rw [climb, hn]
  simp only [if_neg hs, if_pos hk]

theorem climb_enter (hn : lookup nodes e.tail = some n) (hs : ¬ stops n = true)
    (hk : n.key ∉ keys ids) : climb stops nodes edges (e :: todo) ids =
      climb stops nodes edges (entering nodes edges n.key ++ todo) (ids ++ [n.id]) := by
  rw [climb, hn]
  simp only [if_neg hs, if_neg hk]

theorem keys_concat (id : Scalar) : keys (ids ++ [id]) = keys ids ++ [id.key] := by simp [keys]

theorem keys_append_id : keys (ids ++ [n.id]) = keys ids ++ [n.key] := keys_concat n.id

/-- The walk goes on behind the source of an edge: a node without the property, not yet marked. -/
def Passes (stops : Node → Bool) (nodes : List Node) (seen : List Key) (e : Edge) : Prop :=
  ∃ n, lookup nodes e.tail = some n ∧ stops n = false ∧ e.tail ∉ seen

/-- From an edge the walk goes back to another, past unmarked nodes without the property. -/
def WalksBack (stops : Node → Bool) (nodes : List Node) (edges : List Edge) (seen : List Key) :
    Edge → Edge → Prop :=
  Relation.ReflTransGen fun e f => Passes stops nodes seen e ∧ f ∈ entering nodes edges e.tail

theorem not_passes_of_lookup_none (hn : lookup nodes e.tail = none) :
    ¬ Passes stops nodes seen e := by
  rintro ⟨n, hn', -⟩
  simp [hn] at hn'

theorem not_passes_of_mem (hs : e.tail ∈ seen) : ¬ Passes stops nodes seen e := by
  rintro ⟨_, _, _, hn⟩
  exact hn hs

theorem Passes.mono {t : List Key} (hs : ∀ k ∈ t, k ∈ seen) (h : Passes stops nodes seen e) :
    Passes stops nodes t e := by
  obtain ⟨n, hn, hp, hk⟩ := h
  exact ⟨n, hn, hp, fun hm => hk (hs _ hm)⟩

theorem WalksBack.mono {t : List Key} (hs : ∀ k ∈ t, k ∈ seen)
    (h : WalksBack stops nodes edges seen e f) : WalksBack stops nodes edges t e f :=
  Relation.ReflTransGen.mono (fun _ _ ⟨hp, hf⟩ => ⟨hp.mono hs, hf⟩) _ _ h

/-- Nothing lies behind an edge that the walk does not pass. -/
theorem WalksBack.eq_of_not_passes (hp : ¬ Passes stops nodes seen e)
    (h : WalksBack stops nodes edges seen e f) : f = e := by
  induction h with
  | refl => rfl
  | tail _ hstep ih =>
    subst ih
    exact absurd hstep.1 hp

/-- Mark `k`: a walk back avoids it, or can start over from the edges that enter it. -/
theorem WalksBack.mark (k : Key) (h : WalksBack stops nodes edges seen e f) :
    WalksBack stops nodes edges (seen ++ [k]) e f ∨
      ∃ g ∈ entering nodes edges k, WalksBack stops nodes edges (seen ++ [k]) g f := by
  induction h with
  | refl => exact .inl .refl
  | @tail f f' _ hstep ih =>
    obtain ⟨⟨n, hn, hp, hs⟩, hf⟩ := hstep
    by_cases hk : f.tail = k
    · exact .inr ⟨f', hk ▸ hf, .refl⟩
    · have hp' : Passes stops nodes (seen ++ [k]) f := ⟨n, hn, hp, by simp [hs, hk]⟩
      rcases ih with h | ⟨g, hg, h⟩
      · exact .inl (.tail h ⟨hp', hf⟩)
      · exact .inr ⟨g, hg, .tail h ⟨hp', hf⟩⟩

/-- Mark the id where a walk back starts: it can start over from there. -/
theorem WalksBack.mark_start (h : WalksBack stops nodes edges seen e f)
    (he : e ∈ entering nodes edges k) :
    ∃ e ∈ entering nodes edges k, WalksBack stops nodes edges (seen ++ [k]) e f := by
  rcases h.mark k with hw | hw
  · exact ⟨e, he, hw⟩
  · exact hw

/-- Nothing is passed behind an edge that the walk does not pass. -/
private theorem Passes.of_walksBack (hw : WalksBack stops nodes edges seen e f)
    (hp : Passes stops nodes seen f) : Passes stops nodes seen e := by
  rcases Relation.ReflTransGen.cases_head hw with rfl | ⟨_, hstep, -⟩
  · exact hp
  · exact hstep.1

/-- Mark the source of the first edge: what lies behind the edges is that edge, or lies behind
those that take its place. -/
theorem WalksBack.enter (hk : k = e.tail) (hg : g ∈ e :: todo)
    (h : WalksBack stops nodes edges seen g f) : f = e ∨
      ∃ g ∈ entering nodes edges k ++ todo, WalksBack stops nodes edges (seen ++ [k]) g f := by
  rcases h.mark k with hw | ⟨g, hg, hw⟩
  · rcases List.mem_cons.1 hg with rfl | hg
    · have hmem : g.tail ∈ seen ++ [k] := by simp [hk]
      exact .inl (hw.eq_of_not_passes (not_passes_of_mem hmem))
    · exact .inr ⟨g, List.mem_append_right _ hg, hw⟩
  · exact .inr ⟨g, List.mem_append_left _ hg, hw⟩

/-- What lies behind the edges that take the place of one that is passed lies behind that one. -/
theorem WalksBack.leave (hk : k = e.tail) (hp : Passes stops nodes seen e)
    (hg : g ∈ entering nodes edges k ++ todo) (h : WalksBack stops nodes edges (seen ++ [k]) g f) :
    ∃ g ∈ e :: todo, WalksBack stops nodes edges seen g f := by
  have hw : WalksBack stops nodes edges seen g f := h.mono fun _ => List.mem_append_left _
  subst hk
  rcases List.mem_append.1 hg with hg | hg
  · exact ⟨e, List.mem_cons_self, .head ⟨hp, hg⟩ hw⟩
  · exact ⟨g, List.mem_cons_of_mem _ hg, hw⟩

/-- Behind the edges lies a node with the property. -/
def MayFind (stops : Node → Bool) (nodes : List Node) (edges : List Edge) (seen : List Key)
    (todo : List Edge) (c : Node) : Prop :=
  ∃ e ∈ todo, ∃ f, WalksBack stops nodes edges seen e f ∧ lookup nodes f.tail = some c ∧
    stops c = true

/-- A node that is found lies behind an edge still to be walked back. -/
theorem exists_of_climb_found (h : (climb stops nodes edges todo ids).found = some c) :
    ∃ e ∈ todo, ∃ f, WalksBack stops nodes edges (keys ids) e f ∧ lookup nodes f.tail = some c ∧
      stops c = true := by
  fun_induction climb stops nodes edges todo ids with
  | case1 => cases h
  | case2 ids e todo hn ih => exact List.exists_mem_cons_of_exists (ih h)
  | case3 ids e todo n hn hs =>
    cases h
    exact ⟨e, List.mem_cons_self, e, .refl, hn, hs⟩
  | case4 ids e todo n hn hs hk ih => exact List.exists_mem_cons_of_exists (ih h)
  | case5 ids e todo n hn hs hk ih =>
    rw [keys_append_id] at ih
    obtain ⟨g, hg, f, hw, hf⟩ := ih h
    have hp : Passes stops nodes (keys ids) e := ⟨n, hn, by simpa using hs, key_of_lookup hn ▸ hk⟩
    obtain ⟨g, hg, hw⟩ := hw.leave (key_of_lookup hn) hp hg
    exact ⟨g, hg, f, hw, hf⟩

/-- A walk that finds nothing has met every edge behind those still to be walked back. -/
theorem stops_eq_false_of_climb_none (h : (climb stops nodes edges todo ids).found = none) :
    ∀ e ∈ todo, ∀ f, WalksBack stops nodes edges (keys ids) e f →
      ∀ c, lookup nodes f.tail = some c → stops c = false := by
  fun_induction climb stops nodes edges todo ids with
  | case1 => simp
  | case2 ids e todo hn ih =>
    intro e' he f hw c hc
    rcases List.mem_cons.1 he with rfl | he
    · rw [hw.eq_of_not_passes (not_passes_of_lookup_none hn), hn] at hc
      cases hc
    · exact ih h e' he f hw c hc
  | case3 ids e todo n hn hs => cases h
  | case4 ids e todo n hn hs hk ih =>
    intro e' he f hw c hc
    rcases List.mem_cons.1 he with rfl | he
    · rw [hw.eq_of_not_passes (not_passes_of_mem (key_of_lookup hn ▸ hk)), hn] at hc
      cases hc
      simpa using hs
    · exact ih h e' he f hw c hc
  | case5 ids e todo n hn hs hk ih =>
    rw [keys_append_id] at ih
    intro e' he f hw c hc
    rcases hw.enter (key_of_lookup hn) he with rfl | ⟨g, hg, hw⟩
    · rw [hn] at hc
      cases hc
      simpa using hs
    · exact ih h g hg f hw c hc

theorem climb_none_iff : (climb stops nodes edges todo ids).found = none ↔
    ∀ c, ¬ MayFind stops nodes edges (keys ids) todo c := by
  constructor
  · rintro h c ⟨e, he, f, hw, hl, hs⟩
    rw [stops_eq_false_of_climb_none h e he f hw c hl] at hs
    cases hs
  · intro h
    refine Option.eq_none_iff_forall_ne_some.2 fun c hc => ?_
    exact h c (exists_of_climb_found hc)

theorem MayFind.mono {todo' : List Edge} (hm : ∀ e ∈ todo, e ∈ todo')
    (h : MayFind stops nodes edges seen todo c) : MayFind stops nodes edges seen todo' c := by
  obtain ⟨e, he, h⟩ := h
  exact ⟨e, hm e he, h⟩

/-- What a walk finds depends on which ids are marked, not on how they are listed. -/
theorem climb_found_congr (hids : ∀ k, k ∈ keys ids ↔ k ∈ keys ids') :
    (climb stops nodes edges todo ids).found = (climb stops nodes edges todo ids').found := by
  fun_induction climb stops nodes edges todo ids generalizing ids' with
  | case1 => rw [climb]
  | case2 ids e todo hn ih => rw [climb_missing hn, ih hids]
  | case3 ids e todo n hn hs => rw [climb_stop hn hs]
  | case4 ids e todo n hn hs hk ih => rw [climb_marked hn hs ((hids _).1 hk), ih hids]
  | case5 ids e todo n hn hs hk ih =>
    have hids' : ∀ k, k ∈ keys (ids ++ [n.id]) ↔ k ∈ keys (ids' ++ [n.id]) := fun k => by
      simp only [keys_append_id, List.mem_append, hids]
    rw [climb_enter hn hs (mt (hids _).2 hk), ih hids']

/-- Once nothing is found behind some edges, the walk goes on with the others. -/
theorem climb_append (todo more : List Edge) (ids : List Scalar) :
    climb stops nodes edges (todo ++ more) ids =
      if (climb stops nodes edges todo ids).found.isSome then climb stops nodes edges todo ids
      else climb stops nodes edges more (climb stops nodes edges todo ids).seen := by
  fun_induction climb stops nodes edges todo ids with
  | case1 => rfl
  | case2 ids e todo hn ih => rw [List.cons_append, climb_missing hn, ih]
  | case3 ids e todo n hn hs => rw [List.cons_append, climb_stop hn hs]; rfl
  | case4 ids e todo n hn hs hk ih => rw [List.cons_append, climb_marked hn hs hk, ih]
  | case5 ids e todo n hn hs hk ih =>
    rw [List.cons_append, climb_enter hn hs hk, ← List.append_assoc, ih]

theorem mem_seen_of_mem (hk : k ∈ keys ids) : k ∈ keys (climb stops nodes edges todo ids).seen := by
  fun_induction climb stops nodes edges todo ids with
  | case1 | case3 => exact hk
  | case2 ids e todo hn ih => exact ih hk
  | case4 ids e todo n hn hs _ ih => exact ih hk
  | case5 ids e todo n hn hs _ ih => exact ih (keys_append_id ▸ List.mem_append_left _ hk)

/-- The ids that a walk marks are those of nodes that it passes. -/
theorem exists_of_mem_seen (h : k ∈ keys (climb stops nodes edges todo ids).seen) :
    k ∈ keys ids ∨ ∃ e ∈ todo, ∃ f, WalksBack stops nodes edges (keys ids) e f ∧
      Passes stops nodes (keys ids) f ∧ f.tail = k := by
  fun_induction climb stops nodes edges todo ids with
  | case1 | case3 => exact .inl h
  | case2 ids e todo hn ih => exact (ih h).imp_right List.exists_mem_cons_of_exists
  | case4 ids e todo n hn hs hk ih => exact (ih h).imp_right List.exists_mem_cons_of_exists
  | case5 ids e todo n hn hs hk ih =>
    have hp : Passes stops nodes (keys ids) e := ⟨n, hn, by simpa using hs, key_of_lookup hn ▸ hk⟩
    rw [keys_append_id] at ih
    rcases ih h with hk | ⟨g, hg, f, hw, hpf, hf⟩
    · rcases List.mem_append.1 hk with hk | hk
      · exact .inl hk
      · rw [List.mem_singleton.1 hk, key_of_lookup hn]
        exact .inr ⟨e, List.mem_cons_self, e, .refl, hp, rfl⟩
    · obtain ⟨g, hg, hw⟩ := hw.leave (key_of_lookup hn) hp hg
      exact .inr ⟨g, hg, f, hw, hpf.mono fun _ => List.mem_append_left _, hf⟩

/-- A walk that finds nothing has marked every id that it can pass. -/
theorem mem_seen_of_climb_none (h : (climb stops nodes edges todo ids).found = none) :
    ∀ e ∈ todo, ∀ f, WalksBack stops nodes edges (keys ids) e f →
      Passes stops nodes (keys ids) f → f.tail ∈ keys (climb stops nodes edges todo ids).seen := by
  fun_induction climb stops nodes edges todo ids with
  | case1 => simp
  | case2 ids e todo hn ih =>
    intro e' he f hw hp
    rcases List.mem_cons.1 he with rfl | he
    · exact absurd (hp.of_walksBack hw) (not_passes_of_lookup_none hn)
    · exact ih h e' he f hw hp
  | case3 => cases h
  | case4 ids e todo n hn hs hk ih =>
    intro e' he f hw hp
    rcases List.mem_cons.1 he with rfl | he
    · exact absurd (hp.of_walksBack hw) (not_passes_of_mem (key_of_lookup hn ▸ hk))
    · exact ih h e' he f hw hp
  | case5 ids e todo n hn hs hk ih =>
    rw [keys_append_id] at ih
    intro e' he f hw hp
    have hmarked : e.tail ∈ keys (ids ++ [n.id]) := by simp [keys_append_id, key_of_lookup hn]
    rcases hw.enter (key_of_lookup hn) he with rfl | ⟨g, hg, hw⟩
    · exact mem_seen_of_mem hmarked
    · by_cases hf : f.tail = e.tail
      · exact hf ▸ mem_seen_of_mem hmarked
      · obtain ⟨m, hm, hs, hk⟩ := hp
        exact ih h g hg f hw ⟨m, hm, hs, by simp [hk, hf, key_of_lookup hn]⟩

end

end Flowchart
