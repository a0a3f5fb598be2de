/-! The distinct members of a list in order. -/
namespace Flowchart

/-- The members of a list whose image under `f` has not come before. -/
def distinctOn {α β : Type} [DecidableEq β] (f : α → β) : List α → List α
  | [] => []
  | a :: as => a :: (distinctOn f as).filter fun b => f b ≠ f a

/-- The distinct members of a list, each where it stands first. -/
def distinct {α : Type} [DecidableEq α] (as : List α) : List α := distinctOn id as

variable {α β : Type}

theorem mem_of_mem_distinctOn [DecidableEq β] {f : α → β} {a : α} {as : List α}
    (h : a ∈ distinctOn f as) : a ∈ as := by
  induction as with
  | nil => exact h
  | cons b as ih =>
    rcases List.mem_cons.1 h with rfl | h
    · exact List.mem_cons_self
    · exact List.mem_cons_of_mem _ (ih (List.mem_filter.1 h).1)

theorem exists_mem_distinctOn [DecidableEq β] {f : α → β} {a : α} {as : List α} (h : a ∈ as) :
    ∃ b ∈ distinctOn f as, f b = f a := by
  induction as with
  | nil => cases h
  | cons b as ih =>
    by_cases hb : f b = f a
    · exact ⟨b, List.mem_cons_self, hb⟩
    · rcases List.mem_cons.1 h with rfl | h
      · exact absurd rfl hb
      · obtain ⟨c, hc, hca⟩ := ih h
        refine ⟨c, List.mem_cons_of_mem _ (List.mem_filter.2 ⟨hc, ?_⟩), hca⟩
        simpa [hca] using Ne.symm hb

theorem nodup_map_distinctOn [DecidableEq β] (f : α → β) (as : List α) :
    ((distinctOn f as).map f).Nodup := by
  induction as with
  | nil => exact List.nodup_nil
  | cons b as ih =>
    refine List.nodup_cons.2 ⟨by simp, ?_⟩
    exact (List.filter_sublist.map f).nodup ih

@[simp] theorem mem_distinct [DecidableEq α] {a : α} {as : List α} : a ∈ distinct as ↔ a ∈ as := by
  refine ⟨mem_of_mem_distinctOn, fun h => ?_⟩
  obtain ⟨b, hb, rfl⟩ : ∃ b ∈ distinctOn id as, id b = id a := exists_mem_distinctOn h
  exact hb

theorem nodup_distinct [DecidableEq α] (as : List α) : (distinct as).Nodup := by
  simpa [distinct] using nodup_map_distinctOn id as

end Flowchart
