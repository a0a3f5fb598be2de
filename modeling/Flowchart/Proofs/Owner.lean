import Flowchart.Proofs.Branch
import Flowchart.Proofs.Climb
import Mathlib.Data.List.TakeWhile
/-! Forward and backward agree on whose an action is: the condition found by walking back lists the
action, and where none is found no condition lists it. -/
namespace Flowchart

section
variable {nodes : List Node} {edges : List Edge} {e f : Edge} {n : Node} {c k u : Key}

/-- The walk back for a condition halts at one, and at a type that cannot be looked up. -/
def halts (n : Node) : Bool := n.isCondition || !n.type.isScalar

theorem halts_of_isCondition (hc : n.isCondition = true) : halts n = true := by simp [halts, hc]

theorem isCondition_of_halts (ht : n.type.isScalar = true) (h : halts n = true) :
    n.isCondition = true := by simpa [halts, ht] using h

theorem isCondition_of_not_halts (h : halts n = false) : n.isCondition = false :=
  (Bool.or_eq_false_iff.1 h).1

/-- Every condition has an id to report. An id that is a text always is one. -/
def AreNamed (nodes : List Node) : Prop := ∀ n ∈ nodes, n.isCondition = true → n.id ≠ .null

theorem areNamed_of_not_blank (h : ∀ n ∈ nodes, n.id.isBlank = false) : AreNamed nodes := by
  intro n hn _ hnull
  simpa [hnull, Scalar.isBlank] using h n hn

theorem mem_incoming_of_mem_entering (h : e ∈ entering nodes edges k) : e ∈ incoming edges k :=
  (List.takeWhile_prefix _).subset h

theorem entering_eq_incoming (hid : AreNamed nodes) : entering nodes edges k = incoming edges k := by
  refine List.takeWhile_eq_self_iff.2 fun e _ => ?_
  cases hn : lookup nodes e.tail with
  | none => simp [leavesNameless, hn]
  | some n =>
    have hname := hid n (mem_of_lookup hn)
    cases hc : n.isCondition <;> simp_all [leavesNameless]

/-- One or more edges lead from `c` to `k`, past actions alone. -/
def Feeds (nodes : List Node) (edges : List Edge) (c k : Key) : Prop :=
  ∃ u, Reaches (actionEdges nodes edges []) c u ∧ Leads edges u k

private theorem leads_actionEdges (hn : lookup nodes k = some n) (hc : n.isCondition = false)
    (h : Leads edges u k) : Leads (actionEdges nodes edges []) u k := by
  obtain ⟨e, he, ht, rfl⟩ := h
  exact ⟨e, mem_actionEdges.2 ⟨he, ⟨n, actionAt_eq_some.2 ⟨hn, hc⟩⟩, by simp⟩, ht, rfl⟩

private theorem leads_of_actionEdges (h : Leads (actionEdges nodes edges []) u k) :
    Leads edges u k :=
  h.mono fun _ he => (mem_actionEdges.1 he).1

private theorem feeds_of_owns (h : Owns nodes edges c k) : Feeds nodes edges c k := by
  obtain ⟨u, hu, hl⟩ := Relation.TransGen.tail'_iff.1 h
  exact ⟨u, hu, leads_of_actionEdges hl⟩

private theorem owns_of_feeds (hn : lookup nodes k = some n) (hc : n.isCondition = false)
    (h : Feeds nodes edges c k) : Owns nodes edges c k := by
  obtain ⟨u, hu, hl⟩ := h
  exact Relation.TransGen.tail'_iff.2 ⟨u, hu, leads_actionEdges hn hc hl⟩

/-- Whatever the walk back gets to feeds the id from which it starts. -/
theorem feeds_of_walksBack (he : e ∈ incoming edges k)
    (hw : WalksBack halts nodes edges [] e f) : Feeds nodes edges f.tail k := by
  induction hw using Relation.ReflTransGen.head_induction_on generalizing k with
  | refl =>
    obtain ⟨hm, hh⟩ := mem_incoming.1 he
    exact ⟨f.tail, .refl, f, hm, rfl, hh⟩
  | @head e g hstep _ ih =>
    obtain ⟨⟨m, hm, hp, -⟩, hg⟩ := hstep
    obtain ⟨he, hh⟩ := mem_incoming.1 he
    have howns := owns_of_feeds hm (isCondition_of_not_halts hp) (ih (mem_incoming_of_mem_entering hg))
    exact ⟨e.tail, howns.to_reflTransGen, e, he, rfl, hh⟩

/-- Back from what a condition feeds the walk gets as far as the condition, unless it is halted at
a type on the way. -/
theorem exists_walksBack_of_feeds (hid : AreNamed nodes) (h : Feeds nodes edges c k) :
    ∃ e ∈ incoming edges k, ∃ f, WalksBack halts nodes edges [] e f ∧
      (f.tail = c ∨ ∃ m, lookup nodes f.tail = some m ∧ halts m = true) := by
  obtain ⟨u, hu, hl⟩ := h
  induction hu generalizing k with
  | refl =>
    obtain ⟨e, he, ht, hh⟩ := hl
    exact ⟨e, mem_incoming.2 ⟨he, hh⟩, e, .refl, .inl ht⟩
  | tail _ hbu ih =>
    obtain ⟨e, he, rfl, hh⟩ := hl
    have hek : e ∈ incoming edges k := mem_incoming.2 ⟨he, hh⟩
    obtain ⟨g, hg, f, hw, hf⟩ := ih (leads_of_actionEdges hbu)
    -- the edge by which the way gets to `e.tail` shows that it is a node
    obtain ⟨e', he', -, hb⟩ := hbu
    obtain ⟨-, ⟨m, hm⟩, -⟩ := mem_actionEdges.1 he'
    have hl : lookup nodes e.tail = some m := hb ▸ (actionAt_eq_some.1 hm).1
    by_cases hp : halts m = true
    · exact ⟨e, hek, e, .refl, .inr ⟨m, hl, hp⟩⟩
    · have hg' : g ∈ entering nodes edges e.tail := entering_eq_incoming hid ▸ hg
      exact ⟨e, hek, f, .head ⟨⟨m, hl, by simpa using hp, by simp⟩, hg'⟩ hw, hf⟩

private theorem owns_of_walksBack (hn : lookup nodes k = some n) (hc : n.isCondition = false)
    (he : e ∈ incoming edges k) (hw : WalksBack halts nodes edges [] e f) :
    Owns nodes edges f.tail k :=
  owns_of_feeds hn hc (feeds_of_walksBack he hw)

private theorem exists_walksBack_of_owns (hid : AreNamed nodes) (h : Owns nodes edges c k) :
    ∃ e ∈ incoming edges k, ∃ f, WalksBack halts nodes edges [] e f ∧
      (f.tail = c ∨ ∃ m, lookup nodes f.tail = some m ∧ halts m = true) :=
  exists_walksBack_of_feeds hid (feeds_of_owns h)

end

section
variable {nodes : List Node} {edges : List Edge} {c n : Node} {id : Scalar} {seen : List Scalar}
  {walk : Climb}

/-- The walk back from an unmarked node starts at the edges that enter it. -/
theorem climbFrom_unmarked (hn : lookup nodes id.key = some n) (hs : id.key ∉ keys seen) :
    climbFrom halts nodes edges id seen =
      climb halts nodes edges (entering nodes edges id.key) (seen ++ [id]) := by
  rw [climbFrom, if_neg (by simp [hn, hs])]

theorem climbFrom_node (hn : lookup nodes id.key = some n) :
    climbFrom halts nodes edges id [] = climb halts nodes edges (entering nodes edges id.key) [id] :=
  climbFrom_unmarked hn List.not_mem_nil

/-- Behind an id that is no node, or that is marked, nothing is found. -/
theorem climbFrom_of_none_or_mem (h : lookup nodes id.key = none ∨ id.key ∈ keys seen) :
    climbFrom halts nodes edges id seen = ⟨none, seen⟩ := by
  rw [climbFrom, if_pos (h.imp_left fun hn => by simp [hn])]

private theorem parentCondition?_eq : parentCondition? nodes edges id seen =
    if (climbFrom halts nodes edges id seen).found.all fun m => m.type.isScalar then
      .ok (climbFrom halts nodes edges id seen)
    else .error .notKey := rfl

theorem climb_of_parentCondition? (h : parentCondition? nodes edges id seen = .ok walk) :
    walk = climbFrom halts nodes edges id seen ∧
      ∀ c, walk.found = some c → c.type.isScalar = true := by
  rw [parentCondition?_eq] at h
  split at h
  · next hall =>
    cases h
    exact ⟨rfl, fun c hc => by simpa [hc] using hall⟩
  · cases h

private theorem found_of_parentCondition? (hn : lookup nodes n.key = some n)
    (h : parentCondition? nodes edges n.id [] = .ok walk) :
    walk = climb halts nodes edges (entering nodes edges n.key) [n.id] ∧
      ∀ c, walk.found = some c → c.type.isScalar = true := by
  have hwalk := climb_of_parentCondition? h
  rwa [climbFrom_node hn] at hwalk

/-- A node that is found stands in the list. -/
private theorem mem_of_climbFrom_found (h : (climbFrom halts nodes edges id seen).found = some c) :
    c ∈ nodes := by
  rw [climbFrom] at h
  split at h
  · cases h
  · obtain ⟨_, _, _, _, hl, _⟩ := exists_of_climb_found h
    exact mem_of_lookup hl

/-- A walk back over scalar types ends without a fault. -/
theorem exists_walk_back (edges : List Edge) (id : Scalar)
    (ht : ∀ n ∈ nodes, n.type.isScalar = true) :
    ∃ walk, parentCondition? nodes edges id seen = .ok walk := by
  have hall : ((climbFrom halts nodes edges id seen).found.all fun m => m.type.isScalar) = true := by
    cases hf : (climbFrom halts nodes edges id seen).found with
    | none => rfl
    | some c => exact ht c (mem_of_climbFrom_found hf)
  exact ⟨climbFrom halts nodes edges id seen, if_pos hall⟩

/-- What the walk back from an id finds is a condition that feeds it, and the id is a node. -/
theorem feeds_of_parentCondition? (h : parentCondition? nodes edges id [] = .ok walk)
    (hf : walk.found = some c) : (∃ n, lookup nodes id.key = some n) ∧
      lookup nodes c.key = some c ∧ c.isCondition = true ∧ Feeds nodes edges c.key id.key := by
  obtain ⟨rfl, hscalar⟩ := climb_of_parentCondition? h
  cases hn : lookup nodes id.key with
  | none => simp [climbFrom_of_none_or_mem (.inl hn)] at hf
  | some n =>
    have hc := hscalar c hf
    rw [climbFrom_node hn] at hf
    obtain ⟨e, he, f, hw, hl, hs⟩ := exists_of_climb_found hf
    have hkey : c.key = f.tail := key_of_lookup hl
    rw [hkey]
    refine ⟨⟨n, rfl⟩, hl, isCondition_of_halts hc hs, ?_⟩
    exact feeds_of_walksBack (mem_incoming_of_mem_entering he) (hw.mono (by simp))

/-- The walk back from a node that a condition feeds finds something. -/
theorem exists_found_of_feeds (hid : AreNamed nodes) (hn : lookup nodes id.key = some n)
    (hl : lookup nodes c.key = some c) (hc : c.isCondition = true)
    (hfeeds : Feeds nodes edges c.key id.key)
    (h : parentCondition? nodes edges id [] = .ok walk) : ∃ p, walk.found = some p := by
  obtain ⟨rfl, -⟩ := climb_of_parentCondition? h
  rw [climbFrom_node hn]
  obtain ⟨e, he, f, hw, hend⟩ := exists_walksBack_of_feeds hid hfeeds
  obtain ⟨m, hm, hhalts⟩ : ∃ m, lookup nodes f.tail = some m ∧ halts m = true := by
    rcases hend with hend | h
    · exact ⟨c, hend ▸ hl, halts_of_isCondition hc⟩
    · exact h
  refine Option.ne_none_iff_exists'.1 fun hnone => ?_
  have hek : e ∈ entering nodes edges id.key := entering_eq_incoming hid ▸ he
  obtain ⟨g, hg, hw⟩ := hw.mark_start hek
  simp [stops_eq_false_of_climb_none hnone g hg f hw m hm] at hhalts

/-- The condition that is found by walking back from an action lists it in one of its branches; if
none is found, no condition does. Over scalar types and labels both are found. -/
theorem parentCondition_lists (hn : lookup nodes n.key = some n) (hc : n.isCondition = false) :
    (∀ walk, parentCondition? nodes edges n.id [] = .ok walk →
      (∀ c, walk.found = some c → lookup nodes c.key = some c ∧ c.isCondition = true ∧
        ∀ bs, branches? nodes edges [] c = .ok bs → ∃ b ∈ bs, n.key ∈ b.actions.map ActionRef.key) ∧
      (walk.found = none → AreNamed nodes →
        ∀ c, lookup nodes c.key = some c → c.isCondition = true →
          ∀ bs, branches? nodes edges [] c = .ok bs →
            ∀ b ∈ bs, n.key ∉ b.actions.map ActionRef.key)) ∧
    ((∀ m ∈ nodes, m.type.isScalar = true) →
      (∃ walk, parentCondition? nodes edges n.id [] = .ok walk) ∧
      ((∀ e ∈ edges, e.branch.isScalar = true) →
        ∀ c, ∃ bs, branches? nodes edges [] c = .ok bs)) := by
  refine ⟨fun walk hwalk => ?_, fun ht => ⟨exists_walk_back edges n.id ht, fun hb c =>
    ⟨_, if_pos (areReadable_of_isScalar ht hb)⟩⟩⟩
  obtain ⟨rfl, hscalar⟩ := found_of_parentCondition? hn hwalk
  refine ⟨fun c hf => ?_, fun hf hid c hl hcond bs hbs b hmem hk => ?_⟩
  · obtain ⟨e, he, f, hw, hl, hs⟩ := exists_of_climb_found hf
    have hkey : c.key = f.tail := key_of_lookup hl
    rw [← hkey] at hl
    have hcond : c.isCondition = true := by simpa [halts, hscalar c hf] using hs
    refine ⟨hl, hcond, fun bs hbs => ?_⟩
    rw [← branches?_eq_ok hbs, listed_iff_owns (by simp) (noAction_of_isCondition hl hcond), hkey]
    exact owns_of_walksBack hn hc (mem_incoming_of_mem_entering he) (hw.mono (by simp))
  · rw [← branches?_eq_ok hbs] at hmem
    have howns : Owns nodes edges c.key n.key :=
      (listed_iff_owns (by simp) (noAction_of_isCondition hl hcond)).1 ⟨b, hmem, hk⟩
    obtain ⟨e, he, f, hw, hend⟩ := exists_walksBack_of_owns hid howns
    obtain ⟨m, hm, hhalts⟩ : ∃ m, lookup nodes f.tail = some m ∧ halts m = true := by
      rcases hend with hend | h
      · exact ⟨c, hend ▸ hl, by simp [halts, hcond]⟩
      · exact h
    have hnot (g : Edge) (hg : g ∈ entering nodes edges n.key)
        (hw : WalksBack halts nodes edges ([] ++ [n.key]) g f) : False := by
      simp [stops_eq_false_of_climb_none hf g hg f hw m hm] at hhalts
    rcases hw.mark n.key with hw | ⟨g, hg, hw⟩
    · exact hnot e (entering_eq_incoming hid ▸ he) hw
    · exact hnot g hg hw

/-- Two actions in a ring, one of them under a condition; the walk back from it takes the way round
the ring first. -/
def ringNodes : List Node :=
  [⟨"c", "ifNode", some [], some []⟩, ⟨"a", "actionNode", some [], some []⟩,
    ⟨"b", "actionNode", some [], some []⟩]

def ringEdges : List Edge :=
  [⟨"1", "b", "a", .null, .null, some []⟩, ⟨"2", "a", "b", .null, .null, some []⟩,
    ⟨"3", "c", "a", "yes", .null, some []⟩]

theorem parentCondition_lists_ring :
    ∃ walk c bs, parentCondition? ringNodes ringEdges "b" [] = .ok walk ∧ walk.found = some c ∧
      branches? ringNodes ringEdges [] c = .ok bs ∧
      ∃ b ∈ bs, Key.text "b" ∈ b.actions.map ActionRef.key := by
  have h := @parentCondition_lists ringNodes ringEdges ⟨"b", "actionNode", some [], some []⟩
    (by decide) (by decide)
  obtain ⟨hfound, htotal⟩ := h
  obtain ⟨⟨walk, hw⟩, hbs⟩ := htotal (by decide)
  have hf : walk.found = some ⟨"c", "ifNode", some [], some []⟩ := by
    obtain ⟨rfl, -⟩ := found_of_parentCondition? (by decide) hw
    decide +kernel
  obtain ⟨bs, hbs⟩ := hbs (by decide) ⟨"c", "ifNode", some [], some []⟩
  exact ⟨walk, _, bs, hw, hf, hbs, ((hfound walk hw).1 _ hf).2.2 bs hbs⟩

end

end Flowchart
