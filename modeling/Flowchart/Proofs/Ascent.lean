import Flowchart.Proofs.Owner
/-! How far the walk back from an id comes. One list of marks serves the whole walk, and an id that
is met again counts as if nothing were behind it. This hides no condition: what lies behind a marked
id is looked at when the id is entered. -/
namespace Flowchart

/-- A walk back along edges from `s` comes to `k`. It enters nodes that are not marked, and past `s`
none that is a condition. -/
inductive Ascends (nodes : List Node) (edges : List Edge) (seen : List Key) (s : Key) : Key → Prop where
  | start {n : Node} (hn : lookup nodes s = some n) (hs : s ∉ seen) : Ascends nodes edges seen s s
  | up {k u : Key} {n : Node} (w : Ascends nodes edges seen s k) (h : Leads edges u k)
      (hn : lookup nodes u = some n) (hc : n.isCondition = false) (hs : u ∉ seen) :
      Ascends nodes edges seen s u

/-- The condition has an edge to an id that the walk back from `s` comes to. -/
def IsAbove (nodes : List Node) (edges : List Edge) (seen : List Key) (s : Key) (c : Node) : Prop :=
  lookup nodes c.key = some c ∧ c.isCondition = true ∧
    ∃ k, Ascends nodes edges seen s k ∧ Leads edges c.key k

section
variable {nodes : List Node} {edges : List Edge} {e f : Edge} {c n : Node} {s k : Key}
  {seen : List Key} {id : Scalar} {ids : List Scalar} {walk : Climb}

/-- Only from an unmarked node can a walk back start. -/
private theorem Ascends.of_start (h : Ascends nodes edges seen s k) :
    (∃ n, lookup nodes s = some n) ∧ s ∉ seen := by
  induction h with
  | start hn hs => exact ⟨⟨_, hn⟩, hs⟩
  | up _ _ _ _ _ ih => exact ih

/-- An edge behind one that ends where the walk comes to ends there as well. -/
theorem exists_ascends_of_walksBack (hk : Ascends nodes edges seen s k) (he : e ∈ incoming edges k)
    (hw : WalksBack halts nodes edges seen e f) :
    ∃ u, Ascends nodes edges seen s u ∧ f ∈ incoming edges u := by
  induction hw with
  | refl => exact ⟨k, hk, he⟩
  | @tail f g _ hstep ih =>
    obtain ⟨u, hu, hf⟩ := ih
    obtain ⟨⟨n, hn, hp, hs⟩, hg⟩ := hstep
    have hup := hu.up (leads_of_mem_incoming hf) hn (isCondition_of_not_halts hp) hs
    exact ⟨f.tail, hup, mem_incoming_of_mem_entering hg⟩

/-- The mark of the start may go: the walk comes to where an edge ends that lies behind one that
enters the start. -/
theorem exists_ascends_of_entering (hn : lookup nodes s = some n) (hs : s ∉ seen)
    (he : e ∈ entering nodes edges s) (hw : WalksBack halts nodes edges (seen ++ [s]) e f) :
    ∃ u, Ascends nodes edges seen s u ∧ f ∈ incoming edges u := by
  refine exists_ascends_of_walksBack (.start hn hs) (mem_incoming_of_mem_entering he) ?_
  exact hw.mono fun _ => List.mem_append_left _

/-- An edge that ends where the walk comes to lies behind one that ends at the start, unless the
walk is halted at a type on the way. -/
theorem exists_walksBack_of_ascends (hid : AreNamed nodes) (h : Ascends nodes edges seen s k)
    (hf : f ∈ incoming edges k) : ∃ e ∈ entering nodes edges s, ∃ g,
      WalksBack halts nodes edges seen e g ∧
        (g = f ∨ ∃ m, lookup nodes g.tail = some m ∧ halts m = true) := by
  induction h generalizing f with
  | start => exact ⟨f, entering_eq_incoming hid ▸ hf, f, .refl, .inl rfl⟩
  | @up k u n _ hl hn _ hs ih =>
    obtain ⟨e', he', rfl, hh⟩ := hl
    obtain ⟨e, he, g, hw, hg⟩ := ih (mem_incoming.2 ⟨he', hh⟩)
    by_cases hp : halts n = true
    · rcases hg with rfl | hg
      · exact ⟨e, he, g, hw, .inr ⟨n, hn, hp⟩⟩
      · exact ⟨e, he, g, hw, .inr hg⟩
    · rcases hg with rfl | hg
      · have hpass : Passes halts nodes seen g := ⟨n, hn, by simpa using hp, hs⟩
        have hf' : f ∈ entering nodes edges g.tail := entering_eq_incoming hid ▸ hf
        exact ⟨e, he, f, .tail hw ⟨hpass, hf'⟩, .inl rfl⟩
      · exact ⟨e, he, g, hw, .inr hg⟩

/-- If nothing is found, every edge that ends where the walk comes to has been looked at with the
start marked, and leaves no node at which the walk would halt. -/
private theorem walksBack_of_climb_none (hid : AreNamed nodes)
    (hnone : (climb halts nodes edges (entering nodes edges s) ids).found = none)
    (hids : keys ids = seen ++ [s]) (h : Ascends nodes edges seen s k) (hf : f ∈ incoming edges k) :
    (∃ e ∈ entering nodes edges s, WalksBack halts nodes edges (keys ids) e f) ∧
      ∀ m, lookup nodes f.tail = some m → halts m = false := by
  obtain ⟨e, he, g, hw, hg⟩ := exists_walksBack_of_ascends hid h hf
  obtain ⟨e, he, hw⟩ := hids ▸ hw.mark_start he
  have hhalts := stops_eq_false_of_climb_none hnone e he g hw
  rcases hg with rfl | ⟨m, hm, hp⟩
  · exact ⟨⟨e, he, hw⟩, hhalts⟩
  · rw [hhalts m hm] at hp
    cases hp

/-- What is found from an unmarked node stands above it. -/
theorem isAbove_of_found (hn : lookup nodes id.key = some n) (hs : id.key ∉ keys ids)
    (hf : (climb halts nodes edges (entering nodes edges id.key) (ids ++ [id])).found = some c)
    (hc : c.type.isScalar = true) : IsAbove nodes edges (keys ids) id.key c := by
  obtain ⟨e, he, f, hw, hl, hp⟩ := exists_of_climb_found hf
  have hkey : c.key = f.tail := key_of_lookup hl
  rw [keys_concat] at hw
  obtain ⟨u, hu, hfu⟩ := exists_ascends_of_entering hn hs he hw
  exact ⟨hkey ▸ hl, isCondition_of_halts hc hp, u, hu, hkey ▸ leads_of_mem_incoming hfu⟩

/-- A condition above an unmarked node is not missed. -/
theorem found_ne_none_of_isAbove (hid : AreNamed nodes)
    (h : IsAbove nodes edges (keys ids) id.key c) :
    (climb halts nodes edges (entering nodes edges id.key) (ids ++ [id])).found ≠ none := by
  intro hnone
  obtain ⟨hl, hc, k, hk, f, hf, ht, hh⟩ := h
  obtain ⟨-, hhalts⟩ := walksBack_of_climb_none hid hnone (keys_concat id) hk (mem_incoming.2 ⟨hf, hh⟩)
  have hnc := isCondition_of_not_halts (hhalts c (ht ▸ hl))
  simp [hc] at hnc

/-- A walk from an unmarked node that finds nothing marks the ids that it comes to. -/
theorem mem_seen_iff_ascends (hid : AreNamed nodes) (hn : lookup nodes id.key = some n)
    (hs : id.key ∉ keys ids)
    (hnone : (climb halts nodes edges (entering nodes edges id.key) (ids ++ [id])).found = none) :
    k ∈ keys (climb halts nodes edges (entering nodes edges id.key) (ids ++ [id])).seen ↔
      k ∈ keys ids ∨ Ascends nodes edges (keys ids) id.key k := by
  constructor
  · intro hk
    rcases exists_of_mem_seen hk with hk | ⟨e, he, f, hw, ⟨m, hm, hp, hms⟩, rfl⟩
    · rw [keys_concat] at hk
      rcases List.mem_append.1 hk with hk | hk
      · exact .inl hk
      · rw [List.mem_singleton.1 hk]
        exact .inr (.start hn hs)
    · rw [keys_concat] at hw hms
      obtain ⟨u, hu, hfu⟩ := exists_ascends_of_entering hn hs he hw
      have hc := isCondition_of_not_halts hp
      exact .inr (hu.up (leads_of_mem_incoming hfu) hm hc fun h => hms (List.mem_append_left _ h))
  · have old {k : Key} (hk : k ∈ keys (ids ++ [id])) :
        k ∈ keys (climb halts nodes edges (entering nodes edges id.key) (ids ++ [id])).seen :=
      mem_seen_of_mem hk
    rintro (hk | hk)
    · exact old (keys_concat id ▸ List.mem_append_left _ hk)
    · cases hk with
      | start => exact old (by simp [keys_concat])
      | @up k u m hk hl hm _ hms =>
        obtain ⟨f, hf, rfl, hh⟩ := hl
        obtain ⟨⟨e, he, hw⟩, hhalts⟩ :=
          walksBack_of_climb_none hid hnone (keys_concat id) hk (mem_incoming.2 ⟨hf, hh⟩)
        by_cases hmark : f.tail ∈ keys (ids ++ [id])
        · exact old hmark
        · exact mem_seen_of_climb_none hnone e he f hw ⟨m, hm, hhalts m hm, hmark⟩

/-- The walk back finds a condition above its start, if there is one. If it finds nothing, what it
has marked are the ids marked before and those that it comes to. Over scalar types it ends without
a fault. -/
theorem finds_iff_isAbove (nodes : List Node) (edges : List Edge) (id : Scalar)
    (seen : List Scalar) :
    (∀ walk, parentCondition? nodes edges id seen = .ok walk →
      (∀ c, walk.found = some c → IsAbove nodes edges (keys seen) id.key c) ∧
      (AreNamed nodes →
        ((∃ c, walk.found = some c) ↔ ∃ c, IsAbove nodes edges (keys seen) id.key c) ∧
        (walk.found = none → ∀ k, k ∈ keys walk.seen ↔
          k ∈ keys seen ∨ Ascends nodes edges (keys seen) id.key k))) ∧
    ((∀ n ∈ nodes, n.type.isScalar = true) →
      ∃ walk, parentCondition? nodes edges id seen = .ok walk) := by
  refine ⟨fun walk h => ?_, exists_walk_back edges id⟩
  obtain ⟨rfl, hscalar⟩ := climb_of_parentCondition? h
  by_cases hstart : (∃ n, lookup nodes id.key = some n) ∧ id.key ∉ keys seen
  · obtain ⟨⟨n, hn⟩, hs⟩ := hstart
    rw [climbFrom_unmarked hn hs] at hscalar ⊢
    have habove (c : Node) (hf : _ = some c) : IsAbove nodes edges (keys seen) id.key c :=
      isAbove_of_found hn hs hf (hscalar c hf)
    refine ⟨habove, fun hid => ⟨⟨fun ⟨c, hf⟩ => ⟨c, habove c hf⟩, fun ⟨c, hc⟩ => ?_⟩, ?_⟩⟩
    · exact Option.ne_none_iff_exists'.1 (found_ne_none_of_isAbove hid hc)
    · exact fun hnone _ => mem_seen_iff_ascends hid hn hs hnone
  · have hnone : lookup nodes id.key = none ∨ id.key ∈ keys seen := by
      rw [Option.eq_none_iff_forall_ne_some, ← not_exists]
      tauto
    rw [climbFrom_of_none_or_mem hnone]
    have hascends (k : Key) : ¬ Ascends nodes edges (keys seen) id.key k := fun h =>
      hstart h.of_start
    refine ⟨nofun, fun _ => ⟨⟨nofun, fun ⟨_, _, _, k, hk, _⟩ => absurd hk (hascends k)⟩, ?_⟩⟩
    intro _ k
    simp [hascends k]

/-- Two actions in a ring; the condition leads to one of them past a third. -/
def fencedNodes : List Node :=
  [⟨"c", "ifNode", some [], some []⟩, ⟨"d", "actionNode", some [], some []⟩,
    ⟨"a", "actionNode", some [], some []⟩, ⟨"b", "actionNode", some [], some []⟩]

def fencedEdges : List Edge :=
  [⟨"1", "b", "a", .null, .null, some []⟩, ⟨"2", "a", "b", .null, .null, some []⟩,
    ⟨"3", "d", "b", .null, .null, some []⟩, ⟨"4", "c", "d", "yes", .null, some []⟩]

/-- The condition is found, but not past a mark. -/
theorem finds_iff_isAbove_fenced :
    IsAbove fencedNodes fencedEdges [] (.text "a") ⟨"c", "ifNode", some [], some []⟩ ∧
    (¬ ∃ c, IsAbove fencedNodes fencedEdges [.text "d"] (.text "a") c) ∧
    ∀ k, k ∈ [Key.text "d", .text "a", .text "b"] ↔
      k ∈ [Key.text "d"] ∨ Ascends fencedNodes fencedEdges [.text "d"] (.text "a") k := by
  have hfree : parentCondition? fencedNodes fencedEdges "a" [] =
      .ok ⟨some ⟨"c", "ifNode", some [], some []⟩, ["a", "b", "d"]⟩ := by decide +kernel
  have hfenced : parentCondition? fencedNodes fencedEdges "a" ["d"] =
      .ok ⟨none, ["d", "a", "b"]⟩ := by decide +kernel
  have hid : AreNamed fencedNodes := areNamed_of_not_blank (by decide)
  obtain ⟨habove, -⟩ := (finds_iff_isAbove fencedNodes fencedEdges "a" []).1 _ hfree
  obtain ⟨-, hexact⟩ := (finds_iff_isAbove fencedNodes fencedEdges "a" ["d"]).1 _ hfenced
  obtain ⟨hiff, hseen⟩ := hexact hid
  refine ⟨habove _ rfl, fun h => ?_, hseen rfl⟩
  obtain ⟨c, hc⟩ := hiff.2 h
  cases hc

end

end Flowchart
