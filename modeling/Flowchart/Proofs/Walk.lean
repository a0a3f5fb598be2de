import Flowchart.Graph.Basic
import Mathlib.Logic.Relation
/-! Walks along edges. A search that marks what it has met sees only the edges that lead to
unmarked ids; how a walk changes when one more id is marked is what carries the proofs about
searches. -/
namespace Flowchart

/-- An edge leads from `a` to `b`. -/
def Leads (edges : List Edge) (a b : Key) : Prop := ∃ e ∈ edges, e.tail = a ∧ e.head = b

/-- Some edges, possibly none, lead one after the other from `a` to `b`. -/
def Reaches (edges : List Edge) : Key → Key → Prop := Relation.ReflTransGen (Leads edges)

/-- `n` edges lead one after the other from `a` to `b`. -/
inductive Walk (edges : List Edge) : Nat → Key → Key → Prop where
  | here (a : Key) : Walk edges 0 a a
  | snoc {n : Nat} {a b c : Key} (w : Walk edges n a b) (h : Leads edges b c) : Walk edges (n + 1) a c

/-- The edges that do not lead to a marked id. -/
def unmarked (edges : List Edge) (seen : List Key) : List Edge := edges.filter fun e => e.head ∉ seen

section
variable {edges sub : List Edge} {seen : List Key} {a b c k : Key} {n : Nat}

theorem Leads.mono (hs : ∀ e ∈ sub, e ∈ edges) (h : Leads sub a b) : Leads edges a b := by
  obtain ⟨e, he, ht, hh⟩ := h
  exact ⟨e, hs e he, ht, hh⟩

theorem Reaches.mono (hs : ∀ e ∈ sub, e ∈ edges) (h : Reaches sub a b) : Reaches edges a b :=
  Relation.ReflTransGen.mono (fun _ _ => Leads.mono hs) _ _ h

theorem leads_iff_outgoing : Leads edges a b ↔ b ∈ (outgoing edges a).map Edge.head := by
  simp only [Leads, List.mem_map, mem_outgoing]
  constructor
  · rintro ⟨e, he, ht, hh⟩
    exact ⟨e, ⟨he, ht⟩, hh⟩
  · rintro ⟨e, ⟨he, ht⟩, hh⟩
    exact ⟨e, he, ht, hh⟩

theorem leads_of_mem_incoming {e : Edge} (h : e ∈ incoming edges k) : Leads edges e.tail k := by
  obtain ⟨he, hk⟩ := mem_incoming.1 h
  exact ⟨e, he, rfl, hk⟩

theorem leads_unmarked : Leads (unmarked edges seen) a b ↔ Leads edges a b ∧ b ∉ seen := by
  simp only [Leads, unmarked, List.mem_filter, decide_eq_true_eq]
  constructor
  · rintro ⟨e, ⟨he, hs⟩, ht, rfl⟩
    exact ⟨⟨e, he, ht, rfl⟩, hs⟩
  · rintro ⟨⟨e, he, ht, rfl⟩, hs⟩
    exact ⟨e, ⟨he, hs⟩, ht, rfl⟩

@[simp] theorem unmarked_nil : unmarked edges [] = edges := by simp [unmarked]

theorem mem_unmarked_of_cons {e : Edge} (h : e ∈ unmarked edges (k :: seen)) :
    e ∈ unmarked edges seen := by
  simp only [unmarked, List.mem_filter, decide_eq_true_eq, List.mem_cons, not_or] at h ⊢
  exact ⟨h.1, h.2.2⟩

namespace Walk

theorem mono (hs : ∀ e ∈ sub, e ∈ edges) (w : Walk sub n a b) : Walk edges n a b := by
  induction w with
  | here => exact .here _
  | snoc _ h ih => exact .snoc ih (h.mono hs)

theorem cons (h : Leads edges a b) (w : Walk edges n b c) : Walk edges (n + 1) a c := by
  induction w with
  | here => exact .snoc (.here a) h
  | snoc _ h' ih => exact .snoc (ih h) h'

theorem reaches (w : Walk edges n a b) : Reaches edges a b := by
  induction w with
  | here => exact .refl
  | snoc _ h ih => exact .tail ih h

/-- The last edge of a walk that goes somewhere. -/
theorem exists_last (w : Walk edges n a b) (hne : b ≠ a) :
    ∃ m c, n = m + 1 ∧ Walk edges m a c ∧ Leads edges c b := by
  cases w with
  | here => exact absurd rfl hne
  | @snoc m _ c _ w h => exact ⟨m, c, rfl, w, h⟩

theorem one_lt (w : Walk edges n a b) (hne : a ≠ b) (hl : ¬ Leads edges a b) : 1 < n := by
  cases w with
  | here => exact absurd rfl hne
  | snoc w h =>
    cases w with
    | here => exact absurd h hl
    | snoc w _ => omega

/-- Mark `k`: a walk ends in `k`, or its part after the last visit to `k` is a shorter walk that
avoids `k`, or the whole walk avoids it. -/
theorem mark (w : Walk (unmarked edges seen) n a b) :
    b = k ∨ (∃ m v, m < n ∧ Leads edges k v ∧ v ∉ k :: seen ∧
      Walk (unmarked edges (k :: seen)) m v b) ∨
      (a ≠ k ∧ Walk (unmarked edges (k :: seen)) n a b) := by
  induction w with
  | here a =>
    by_cases h : a = k
    · exact .inl h
    · exact .inr (.inr ⟨h, .here a⟩)
  | @snoc n a b c _ h ih =>
    by_cases hc : c = k
    · exact .inl hc
    obtain ⟨hl, hs⟩ := leads_unmarked.1 h
    have hcs : c ∉ k :: seen := by simp [hc, hs]
    have hstep : Leads (unmarked edges (k :: seen)) b c := leads_unmarked.2 ⟨hl, hcs⟩
    rcases ih with rfl | ⟨m, v, hm, hv, hvs, w⟩ | ⟨ha, w⟩
    · exact .inr (.inl ⟨0, c, by omega, hl, hcs, .here c⟩)
    · exact .inr (.inl ⟨m + 1, v, by omega, hv, hvs, .snoc w hstep⟩)
    · exact .inr (.inr ⟨ha, .snoc w hstep⟩)

end Walk

theorem reaches_iff_walk : Reaches edges a b ↔ ∃ n, Walk edges n a b := by
  constructor
  · intro h
    induction h with
    | refl => exact ⟨0, .here a⟩
    | tail _ h ih =>
      obtain ⟨n, w⟩ := ih
      exact ⟨n + 1, .snoc w h⟩
  · rintro ⟨n, w⟩
    exact w.reaches

end

end Flowchart
