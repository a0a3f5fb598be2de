import Flowchart.Proofs.Ascent
import Flowchart.Proofs.Lists
import Flowchart.Proofs.Walk
import Mathlib.Data.List.Lex
/-! Which of several conditions the walk back finds. It goes along the first edge behind which there
is something to find, and so to the end of the first way: ways back are compared place by place, in
the order in which their edges are listed, and not by their length. -/
namespace Flowchart

/-- Edges walked back one after the other from `k` to the condition `c`, over nodes that are no
conditions. None of the ids on the way is marked, and none comes twice. -/
inductive WayBack (nodes : List Node) (edges : List Edge) :
    List Key → Key → List Edge → Node → Prop where
  | stop {seen : List Key} {k : Key} {e : Edge} {c : Node} (hk : k ∉ seen)
      (he : e ∈ incoming edges k) (hn : lookup nodes e.tail = some c) (hc : c.isCondition = true) :
      WayBack nodes edges seen k [e] c
  | pass {seen : List Key} {k : Key} {e : Edge} {n c : Node} {way : List Edge} (hk : k ∉ seen)
      (he : e ∈ incoming edges k) (hn : lookup nodes e.tail = some n) (hc : n.isCondition = false)
      (w : WayBack nodes edges (seen ++ [k]) e.tail way c) : WayBack nodes edges seen k (e :: way) c

/-- Where the edges of a way are listed. -/
def places (edges way : List Edge) : List Nat := way.map fun e => edges.idxOf e

/-- The condition stands at the end of the way back from `k` whose edges are listed first. -/
def IsFirstWay (nodes : List Node) (edges : List Edge) (k : Key) (way : List Edge) (c : Node) : Prop :=
  WayBack nodes edges [] k way c ∧
    ∀ way' d, WayBack nodes edges [] k way' d → places edges way ≤ places edges way'

/-- The way of a walk that takes, each time, the first edge behind which something can be found. -/
inductive TakesWay (stops : Node → Bool) (nodes : List Node) (edges : List Edge) :
    List Key → List Edge → List Edge → Node → Prop where
  | skip {seen : List Key} {e : Edge} {todo way : List Edge} {c : Node}
      (he : ∀ d, ¬ MayFind stops nodes edges seen [e] d)
      (w : TakesWay stops nodes edges seen todo way c) : TakesWay stops nodes edges seen (e :: todo) way c
  | stop {seen : List Key} {e : Edge} {todo : List Edge} {c : Node}
      (hn : lookup nodes e.tail = some c) (hs : stops c = true) :
      TakesWay stops nodes edges seen (e :: todo) [e] c
  | pass {seen : List Key} {e : Edge} {todo way : List Edge} {c : Node}
      (hp : Passes stops nodes seen e)
      (w : TakesWay stops nodes edges (seen ++ [e.tail]) (entering nodes edges e.tail) way c) :
      TakesWay stops nodes edges seen (e :: todo) (e :: way) c

section
variable {stops : Node → Bool} {nodes : List Node} {edges todo block way : List Edge}
  {seen seen' : List Key} {ids : List Scalar} {e : Edge} {c : Node} {k : Key}

private theorem MayFind.fewer (hs : ∀ k ∈ seen', k ∈ seen)
    (h : MayFind stops nodes edges seen todo c) : MayFind stops nodes edges seen' todo c := by
  obtain ⟨e, he, f, hw, hf⟩ := h
  exact ⟨e, he, f, hw.mono hs, hf⟩

/-- Mark `k`: what may be found behind some edges is behind them still, or behind those that
enter `k`. -/
private theorem MayFind.mark (k : Key) (h : MayFind stops nodes edges seen todo c) :
    MayFind stops nodes edges (seen ++ [k]) todo c ∨
      MayFind stops nodes edges (seen ++ [k]) (entering nodes edges k) c := by
  obtain ⟨e, he, f, hw, hf⟩ := h
  rcases hw.mark k with hw | ⟨g, hg, hw⟩
  · exact .inl ⟨e, he, f, hw, hf⟩
  · exact .inr ⟨g, hg, f, hw, hf⟩

/-- Behind an edge that is not passed lies only its source. -/
private theorem not_mayFind_of_not_passes (hp : ¬ Passes stops nodes seen e)
    (hs : ∀ n, lookup nodes e.tail = some n → stops n = false) :
    ¬ MayFind stops nodes edges seen [e] c := by
  rintro ⟨e', he, f, hw, hl, hc⟩
  obtain rfl := List.mem_singleton.1 he
  rw [hw.eq_of_not_passes hp] at hl
  rw [hs c hl] at hc
  cases hc

/-- A mark behind which nothing is found makes no difference to the way. -/
private theorem TakesWay.unmark (h : TakesWay stops nodes edges seen todo way c)
    (hseen : ∀ l, l ∈ seen ↔ l ∈ seen' ∨ l = k)
    (hk : ∀ d, ¬ MayFind stops nodes edges seen (entering nodes edges k) d) :
    TakesWay stops nodes edges seen' todo way c := by
  induction h generalizing seen' with
  | @skip seen e todo way c he w ih =>
    refine .skip (fun d hd => ?_) (ih hseen hk)
    have hmore : ∀ l ∈ seen, l ∈ seen' ++ [k] := fun l hl => by simpa using (hseen l).1 hl
    rcases hd.mark k with hd | hd
    · exact he d (hd.fewer hmore)
    · exact hk d (hd.fewer hmore)
  | stop hn hs => exact .stop hn hs
  | @pass seen e todo way c hp w ih =>
    refine .pass (hp.mono fun l hl => (hseen l).2 (.inl hl)) (ih (fun l => ?_) fun d hd => ?_)
    · simp only [List.mem_append, hseen l]
      tauto
    · exact hk d (hd.fewer fun _ => List.mem_append_left _)

/-- The way begins in the first block of edges, unless nothing can be found behind that. -/
private theorem TakesWay.of_append (h : TakesWay stops nodes edges seen (block ++ todo) way c) :
    TakesWay stops nodes edges seen block way c ∨
      (∀ d, ¬ MayFind stops nodes edges seen block d) ∧ TakesWay stops nodes edges seen todo way c := by
  induction block with
  | nil => exact .inr ⟨fun d ⟨_, he, _⟩ => List.not_mem_nil he, h⟩
  | cons e block ih =>
    cases h with
    | skip he w =>
      rcases ih w with w | ⟨hb, w⟩
      · exact .inl (.skip he w)
      · refine .inr ⟨?_, w⟩
        rintro d ⟨e', he', hd⟩
        rcases List.mem_cons.1 he' with rfl | he'
        · exact he d ⟨e', List.mem_singleton_self e', hd⟩
        · exact hb d ⟨e', he', hd⟩
    | stop hn hs => exact .inl (.stop hn hs)
    | pass hp w => exact .inl (.pass hp w)

/-- A walk that finds something has come along such a way. -/
private theorem exists_takes_of_found (h : (climb stops nodes edges todo ids).found = some c) :
    ∃ way, TakesWay stops nodes edges (keys ids) todo way c := by
  fun_induction climb stops nodes edges todo ids with
  | case1 => cases h
  | case2 ids e todo hn ih =>
    obtain ⟨way, w⟩ := ih h
    have hp : ¬ Passes stops nodes (keys ids) e := not_passes_of_lookup_none hn
    exact ⟨way, .skip (fun d => not_mayFind_of_not_passes hp (by simp [hn])) w⟩
  | case3 ids e todo n hn hs =>
    cases h
    exact ⟨[e], .stop hn hs⟩
  | case4 ids e todo n hn hs hk ih =>
    obtain ⟨way, w⟩ := ih h
    have hp : ¬ Passes stops nodes (keys ids) e := not_passes_of_mem (key_of_lookup hn ▸ hk)
    exact ⟨way, .skip (fun d => not_mayFind_of_not_passes hp (by simpa [hn] using hs)) w⟩
  | case5 ids e todo n hn hs hk ih =>
    have hkey : n.key = e.tail := key_of_lookup hn
    have hp : Passes stops nodes (keys ids) e := ⟨n, hn, by simpa using hs, hkey ▸ hk⟩
    obtain ⟨way, w⟩ := ih h
    rw [keys_append_id, hkey] at w
    rcases w.of_append with w | ⟨hnone, w⟩
    · exact ⟨e :: way, .pass hp w⟩
    · -- nothing lies behind the node that has been entered, so its mark may go
      have he (d : Node) : ¬ MayFind stops nodes edges (keys ids) [e] d := by
        rintro ⟨g, hg, f, hw, hl, hd⟩
        rcases hw.enter rfl hg with rfl | ⟨g, hg, hw⟩
        · rw [hn] at hl
          cases hl
          exact hs hd
        · exact hnone d ⟨g, by simpa using hg, f, hw, hl, hd⟩
      exact ⟨way, .skip he (w.unmark (by simp) hnone)⟩

end

section
variable {nodes : List Node} {edges todo skipped way way' : List Edge} {seen : List Key} {e : Edge}
  {c d : Node} {k : Key}

private theorem places_cons : places edges (e :: way) = edges.idxOf e :: places edges way := rfl

/-- A way back is at its end when its first edge leaves a condition, and only then. -/
private theorem WayBack.exists_head (h : WayBack nodes edges seen k way c) : ∃ e rest n,
    way = e :: rest ∧ e ∈ incoming edges k ∧ lookup nodes e.tail = some n ∧
      (n.isCondition = true ∧ rest = [] ∧ c = n ∨
        n.isCondition = false ∧ WayBack nodes edges (seen ++ [k]) e.tail rest c) := by
  cases h with
  | stop _ he hn hc => exact ⟨_, _, _, rfl, he, hn, .inl ⟨hc, rfl, rfl⟩⟩
  | pass _ he hn hc w => exact ⟨_, _, _, rfl, he, hn, .inr ⟨hc, w⟩⟩

private theorem WayBack.not_mem (h : WayBack nodes edges seen k way c) : k ∉ seen := by
  cases h with
  | stop hk => exact hk
  | pass hk => exact hk

/-- The first edge of a way back leads to something that the walk can find. -/
private theorem WayBack.exists_mayFind (hid : AreNamed nodes)
    (h : WayBack nodes edges seen k way c) : ∃ e ∈ incoming edges k, way.head? = some e ∧
      ∃ d, MayFind halts nodes edges (seen ++ [k]) [e] d := by
  induction h with
  | @stop seen k e c hk he hn hc =>
    exact ⟨e, he, rfl, c, e, List.mem_singleton_self e, e, .refl, hn, halts_of_isCondition hc⟩
  | @pass seen k e n c way hk he hn hc w ih =>
    refine ⟨e, he, rfl, ?_⟩
    by_cases hp : halts n = true
    · exact ⟨n, e, List.mem_singleton_self e, e, .refl, hn, hp⟩
    · obtain ⟨g, hg, -, d, g', hg', f, hw, hf⟩ := ih
      obtain rfl := List.mem_singleton.1 hg'
      have hpass : Passes halts nodes (seen ++ [k]) e := ⟨n, hn, by simpa using hp, w.not_mem⟩
      have hw : WalksBack halts nodes edges (seen ++ [k]) g' f :=
        hw.mono fun _ => List.mem_append_left _
      exact ⟨d, e, List.mem_singleton_self e, f,
        .head ⟨hpass, entering_eq_incoming hid ▸ hg⟩ hw, hf⟩

private theorem TakesWay.wayBack (h : TakesWay halts nodes edges seen todo way c)
    {marked : List Key} (hseen : seen = marked ++ [k]) (hk : k ∉ marked) (hc : c.isCondition = true)
    (ht : ∀ e ∈ todo, e ∈ incoming edges k) : WayBack nodes edges marked k way c := by
  induction h generalizing marked k with
  | skip _ _ ih => exact ih hseen hk hc fun e he => ht e (List.mem_cons_of_mem _ he)
  | stop hn _ => exact .stop hk (ht _ List.mem_cons_self) hn hc
  | @pass seen e todo way c hp w ih =>
    obtain ⟨n, hn, hs, hmark⟩ := hp
    subst hseen
    exact .pass hk (ht _ List.mem_cons_self) hn (isCondition_of_not_halts hs)
      (ih rfl hmark hc fun _ => mem_incoming_of_mem_entering)

/-- When nothing can be found behind the edges before `e`, a way back begins with `e` or is listed
after every way that does. -/
private theorem WayBack.head_or_lt (hid : AreNamed nodes) (hw : WayBack nodes edges seen k way' d)
    (ht : incoming edges k = skipped ++ e :: todo)
    (hskip : ∀ g ∈ skipped, ∀ d, ¬ MayFind halts nodes edges (seen ++ [k]) [g] d) :
    way'.head? = some e ∨ ∀ way, places edges (e :: way) < places edges way' := by
  obtain ⟨e', he', hhead, m, hm⟩ := hw.exists_mayFind hid
  have hnot : e' ∉ skipped := fun h => hskip e' h m hm
  by_cases hne : e' = e
  · exact .inl (hne ▸ hhead)
  have hafter : e' ∈ todo := by
    rw [ht] at he'
    exact List.mem_of_ne_of_mem hne ((List.mem_append.1 he').resolve_left hnot)
  obtain ⟨rest, rfl⟩ := List.head?_eq_some_iff.1 hhead
  exact .inr fun way => .rel (idxOf_lt_of_filter ht hafter hnot hne)

/-- No way back is listed before the one that the walk takes. -/
theorem TakesWay.places_le (hid : AreNamed nodes) (h : TakesWay halts nodes edges seen todo way c)
    {marked : List Key} (hseen : seen = marked ++ [k]) (skipped : List Edge)
    (ht : incoming edges k = skipped ++ todo)
    (hskip : ∀ g ∈ skipped, ∀ d, ¬ MayFind halts nodes edges seen [g] d)
    (hc : c.isCondition = true) (hw : WayBack nodes edges marked k way' d) :
    places edges way ≤ places edges way' := by
  induction h generalizing marked k skipped way' d with
  | @skip seen e todo way c he w ih =>
    refine ih hseen (skipped ++ [e]) (by simp [ht]) (fun g hg => ?_) hc hw
    rcases List.mem_append.1 hg with hg | hg
    · exact hskip g hg
    · exact List.mem_singleton.1 hg ▸ he
  | @stop seen e todo c hn hs =>
    subst hseen
    rcases hw.head_or_lt hid ht hskip with hhead | hlt
    · obtain ⟨e', rest, n, rfl, -, hn', hrest⟩ := hw.exists_head
      obtain rfl : e' = e := Option.some.inj hhead
      obtain rfl : c = n := Option.some.inj (hn.symm.trans hn')
      rcases hrest with ⟨-, rfl, -⟩ | ⟨hnc, -⟩
      · exact le_rfl
      · simp [hc] at hnc
    · exact (hlt []).le
  | @pass seen e todo way c hp w ih =>
    subst hseen
    rcases hw.head_or_lt hid ht hskip with hhead | hlt
    · obtain ⟨m, hm, hs, -⟩ := hp
      obtain ⟨e', rest, n, rfl, -, hn, hrest⟩ := hw.exists_head
      obtain rfl : e' = e := Option.some.inj hhead
      obtain rfl : m = n := Option.some.inj (hm.symm.trans hn)
      rcases hrest with ⟨hmc, -⟩ | ⟨-, w'⟩
      · simp [halts_of_isCondition hmc] at hs
      · have hle := ih rfl [] (entering_eq_incoming hid).symm (by simp) hc w'
        rw [places_cons, places_cons]
        exact List.cons_le_cons _ hle
    · exact (hlt way).le

/-- A way back is a walk from the condition at its end. -/
theorem WayBack.walk (h : WayBack nodes edges seen k way c) : Walk edges way.length c.key k := by
  induction h with
  | stop _ he hn _ =>
    rw [key_of_lookup hn]
    exact .snoc (.here _) (leads_of_mem_incoming he)
  | pass _ he _ _ _ ih => exact .snoc ih (leads_of_mem_incoming he)

private theorem WayBack.isAbove {s : Key} (h : WayBack nodes edges seen k way c)
    (hk : Ascends nodes edges [] s k) : IsAbove nodes edges [] s c := by
  induction h with
  | stop _ he hn hc =>
    have hkey := key_of_lookup hn
    exact ⟨hkey ▸ hn, hc, _, hk, hkey ▸ leads_of_mem_incoming he⟩
  | pass _ he hn hc _ ih => exact ih (hk.up (leads_of_mem_incoming he) hn hc List.not_mem_nil)

/-- Ways back whose edges are listed in the same places end at the same condition. -/
private theorem WayBack.eq_of_places (h : WayBack nodes edges seen k way c)
    (h' : WayBack nodes edges seen k way' d) (hp : places edges way = places edges way') : c = d := by
  induction h generalizing way' d with
  | stop _ he hn hc =>
    obtain ⟨e', rest, n, rfl, -, hn', hrest⟩ := h'.exists_head
    obtain rfl := (List.idxOf_inj (mem_incoming.1 he).1).1 (List.cons.inj hp).1
    obtain rfl := Option.some.inj (hn.symm.trans hn')
    rcases hrest with ⟨-, -, rfl⟩ | ⟨hnc, -⟩
    · rfl
    · simp [hc] at hnc
  | pass _ he hn hnc _ ih =>
    obtain ⟨e', rest, n, rfl, -, hn', hrest⟩ := h'.exists_head
    obtain rfl := (List.idxOf_inj (mem_incoming.1 he).1).1 (List.cons.inj hp).1
    obtain rfl := Option.some.inj (hn.symm.trans hn')
    rcases hrest with ⟨hc, -⟩ | ⟨-, w'⟩
    · simp [hnc] at hc
    · exact ih w' (List.cons.inj hp).2

end

section
variable {nodes : List Node} {edges : List Edge} {id : Scalar} {c d n : Node} {way way' : List Edge}

private theorem exists_isFirstWay_of_found (hid : AreNamed nodes)
    (hn : lookup nodes id.key = some n)
    (hf : (climbFrom halts nodes edges id []).found = some c) (hc : c.type.isScalar = true) :
    ∃ way, IsFirstWay nodes edges id.key way c := by
  rw [climbFrom_unmarked hn List.not_mem_nil] at hf
  obtain ⟨way, w⟩ := exists_takes_of_found hf
  have hcond : c.isCondition = true := (isAbove_of_found hn List.not_mem_nil hf hc).2.1
  refine ⟨way, w.wayBack rfl List.not_mem_nil hcond fun _ => mem_incoming_of_mem_entering, ?_⟩
  intro way' d hw
  exact w.places_le hid rfl [] (entering_eq_incoming hid).symm (by simp) hcond hw

private theorem IsFirstWay.unique (h : IsFirstWay nodes edges id.key way c)
    (h' : IsFirstWay nodes edges id.key way' d) : c = d :=
  h.1.eq_of_places h'.1 (le_antisymm (h.2 way' d h'.1) (h'.2 way c h.1))

/-- The walk back finds the condition at the end of the first way back. A condition that fewer
edges lead from stands at the end of ways that are listed later. -/
theorem found_iff_isFirstWay (hid : AreNamed nodes) :
    (∀ walk, parentCondition? nodes edges id [] = .ok walk →
      (∀ c, walk.found = some c ↔
        (∃ n, lookup nodes id.key = some n) ∧ ∃ way, IsFirstWay nodes edges id.key way c) ∧
      ∀ c way, walk.found = some c → IsFirstWay nodes edges id.key way c →
        ∀ way' d, WayBack nodes edges [] id.key way' d →
          (∀ m, Walk edges m c.key id.key → way'.length < m) →
          places edges way < places edges way') ∧
    ((∀ n ∈ nodes, n.type.isScalar = true) →
      ∃ walk, parentCondition? nodes edges id [] = .ok walk) := by
  refine ⟨fun walk h => ⟨fun c => ⟨fun hf => ?_, ?_⟩, ?_⟩, exists_walk_back edges id⟩
  · obtain ⟨⟨n, hn⟩, -⟩ := feeds_of_parentCondition? h hf
    obtain ⟨rfl, hscalar⟩ := climb_of_parentCondition? h
    exact ⟨⟨n, hn⟩, exists_isFirstWay_of_found hid hn hf (hscalar c hf)⟩
  · rintro ⟨⟨n, hn⟩, way, hway⟩
    obtain ⟨rfl, hscalar⟩ := climb_of_parentCondition? h
    have habove := hway.1.isAbove (.start hn List.not_mem_nil)
    obtain ⟨d, hd⟩ : ∃ d, (climbFrom halts nodes edges id []).found = some d := by
      rw [climbFrom_unmarked hn List.not_mem_nil]
      exact Option.ne_none_iff_exists'.1 (found_ne_none_of_isAbove hid habove)
    obtain ⟨way', hway'⟩ := exists_isFirstWay_of_found hid hn hd (hscalar d hd)
    rw [hd, hway.unique hway']
  · intro c way _ hway way' d hw hnear
    refine lt_of_le_of_ne (hway.2 way' d hw) fun heq => ?_
    have hlength : way.length = way'.length := by simpa [places] using congrArg List.length heq
    exact absurd (hnear _ hway.1.walk) (by omega)

/-- A condition one edge away, and before its edge another that leads to a condition further off. -/
def bypassNodes : List Node :=
  [⟨"c", "ifNode", some Node.origin, some []⟩, ⟨"d", "ifNode", some Node.origin, some []⟩,
    ⟨"a", "actionNode", some Node.origin, some []⟩, ⟨"j", "actionNode", some Node.origin, some []⟩]

def bypassEdges : List Edge :=
  [⟨"1", "a", "j", .null, .null, some []⟩, ⟨"2", "c", "a", "yes", .null, some []⟩,
    ⟨"3", "d", "j", "yes", .null, some []⟩]

private theorem one_lt_of_walk_bypass {m : Nat} (w : Walk bypassEdges m (.text "c") (.text "j")) :
    1 < m :=
  w.one_lt (by decide) (by unfold Leads; decide)

private theorem parentCondition_bypass : parentCondition? bypassNodes bypassEdges "j" [] =
    .ok ⟨some ⟨"c", "ifNode", some Node.origin, some []⟩, ["j", "a"]⟩ := by decide +kernel

theorem found_iff_isFirstWay_bypass :
    ∃ way, IsFirstWay bypassNodes bypassEdges (.text "j") way
        ⟨"c", "ifNode", some Node.origin, some []⟩ ∧
      WayBack bypassNodes bypassEdges [] (.text "j") [⟨"3", "d", "j", "yes", .null, some []⟩]
        ⟨"d", "ifNode", some Node.origin, some []⟩ ∧
      places bypassEdges way < [2] := by
  obtain ⟨hfound, hlater⟩ := (@found_iff_isFirstWay bypassNodes bypassEdges "j"
    (areNamed_of_not_blank (by decide))).1 _ parentCondition_bypass
  obtain ⟨-, way, hway⟩ := (hfound _).1 rfl
  have hd : WayBack bypassNodes bypassEdges [] (.text "j")
      [⟨"3", "d", "j", "yes", .null, some []⟩] ⟨"d", "ifNode", some Node.origin, some []⟩ :=
    .stop (by simp) (by decide) (by decide) (by decide)
  refine ⟨way, hway, hd, hlater _ way rfl hway _ _ hd fun m w => ?_⟩
  exact one_lt_of_walk_bypass w

/-- The condition that is found need not be the nearest. -/
theorem not_found_nearest :
    ¬ ∀ (nodes : List Node) (edges : List Edge) (id : Scalar) (walk : Climb) (c d : Node) (m : Nat),
      (nodes.map Node.key).Nodup → (∀ n ∈ nodes, n.type.isScalar = true) → AreNamed nodes →
      (∀ e ∈ edges, e.isAttached nodes = true) → parentCondition? nodes edges id [] = .ok walk →
      walk.found = some c → lookup nodes d.key = some d → d.isCondition = true →
      Walk edges (m + 1) d.key id.key → ∃ l ≤ m + 1, Walk edges l c.key id.key := by
  intro h
  have hd : Walk bypassEdges (0 + 1) (.text "d") (.text "j") :=
    .snoc (.here _) ⟨⟨"3", "d", "j", "yes", .null, some []⟩, by decide, rfl, rfl⟩
  obtain ⟨l, hl, w⟩ := h bypassNodes bypassEdges "j" _ _ ⟨"d", "ifNode", some Node.origin, some []⟩ 0
    (by decide) (by decide) (areNamed_of_not_blank (by decide)) (by decide) parentCondition_bypass rfl
    (by decide) (by decide) hd
  exact absurd (one_lt_of_walk_bypass w) (by omega)

end

end Flowchart
