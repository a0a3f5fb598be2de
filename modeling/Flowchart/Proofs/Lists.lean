import Flowchart.Value.Distinct
import Mathlib.Data.List.Forall2
/-! Lists of anything: which members come first, lists without repetitions, lists that agree pair by
pair, and lists that a computation that may fail goes through. -/
namespace Flowchart

variable {ε α β γ : Type}

theorem filterMap_attach_val (l : List α) (f : α → Option β) :
    l.attach.filterMap (fun x => f x.1) = l.filterMap f := by
  conv => rhs; rw [← List.attach_map_subtype_val l, List.filterMap_map]
  rfl

/-- A list is split at its first member with a property. -/
theorem exists_first {s : α → Prop} {as : List α} (h : ∃ a ∈ as, s a) :
    ∃ earlier a later, as = earlier ++ a :: later ∧ (∀ b ∈ earlier, ¬ s b) ∧ s a := by
  classical
  obtain ⟨a, ha, hs⟩ := h
  have hfound : (as.find? fun a => s a).isSome := List.find?_isSome.2 ⟨a, ha, by simpa using hs⟩
  obtain ⟨a, ha⟩ := Option.isSome_iff_exists.1 hfound
  obtain ⟨hs, earlier, later, rfl, hearlier⟩ := List.find?_eq_some_iff_append.1 ha
  exact ⟨earlier, a, later, rfl, by simpa using hearlier, by simpa using hs⟩

/-- A list is split where the predicate ends. -/
theorem span_append {p : α → Bool} {as bs : List α} (has : ∀ a ∈ as, p a = true)
    (hbs : ∀ b ∈ bs.head?, p b = false) :
    (as ++ bs).takeWhile p = as ∧ (as ++ bs).dropWhile p = bs := by
  rw [List.takeWhile_append_of_pos has, List.dropWhile_append_of_pos has]
  cases bs with
  | nil => exact ⟨List.append_nil as, rfl⟩
  | cons b bs =>
    have hb : ¬p b = true := by simp [hbs b rfl]
    rw [List.takeWhile_cons_of_neg hb, List.dropWhile_cons_of_neg hb, List.append_nil]
    exact ⟨rfl, rfl⟩

/-- What a member of a list contributes is told apart from the rest by the member's key. -/
theorem filter_flatMap_of_nodup [DecidableEq γ] {key : α → γ} {f : β → γ} {F : α → List β}
    {a : α} {as : List α} (hF : ∀ a, ∀ b ∈ F a, f b = key a) (hn : (as.map key).Nodup)
    (ha : a ∈ as) : (as.flatMap F).filter (fun b => f b = key a) = F a := by
  induction as with
  | nil => cases ha
  | cons a' as ih =>
    obtain ⟨hnot, hn⟩ := List.nodup_cons.1 hn
    rw [List.flatMap_cons, List.filter_append]
    rcases List.mem_cons.1 ha with rfl | ha
    · have hrest : (as.flatMap F).filter (fun b => f b = key a) = [] := by
        refine List.filter_eq_nil_iff.2 fun b hb => ?_
        obtain ⟨a', ha', hb⟩ := List.mem_flatMap.1 hb
        have hne : key a' ≠ key a := fun h => hnot (h ▸ List.mem_map_of_mem ha')
        simpa [hF a' b hb] using hne
      rw [hrest, List.append_nil]
      exact List.filter_eq_self.2 fun b hb => by simpa using hF a b hb
    · have hne : key a' ≠ key a := fun h => hnot (h ▸ List.mem_map_of_mem ha)
      have hfirst : (F a').filter (fun b => f b = key a) = [] :=
        List.filter_eq_nil_iff.2 fun b hb => by simpa [hF a' b hb] using hne
      rw [hfirst, List.nil_append, ih hn ha]

/-- Of two members, the one that stands first in a selection stands first in the list. -/
theorem idxOf_lt_of_filter [DecidableEq α] {p : α → Bool} {as before after : List α} {a b : α}
    (h : as.filter p = before ++ a :: after) (hb : b ∈ after) (hbefore : b ∉ before) (hne : b ≠ a) :
    as.idxOf a < as.idxOf b := by
  induction as generalizing before with
  | nil => simp at h
  | cons x as ih =>
    by_cases hp : p x = true
    · rw [List.filter_cons_of_pos hp] at h
      cases before with
      | nil =>
        obtain ⟨rfl, -⟩ := List.cons.inj h
        rw [List.idxOf_cons_self, List.idxOf_cons_ne _ hne.symm]
        exact Nat.succ_pos _
      | cons y before =>
        obtain ⟨rfl, h'⟩ := List.cons.inj h
        obtain ⟨hbx, hbefore⟩ := not_or.1 (mt List.mem_cons.2 hbefore)
        rw [List.idxOf_cons_ne _ (Ne.symm hbx)]
        by_cases hxa : x = a
        · subst hxa
          rw [List.idxOf_cons_self]
          exact Nat.succ_pos _
        · rw [List.idxOf_cons_ne _ hxa]
          exact Nat.succ_lt_succ (ih h' hbefore)
    · rw [List.filter_cons_of_neg hp] at h
      have hout {y : α} (hy : y ∈ before ++ a :: after) : x ≠ y := by
        rintro rfl
        exact hp (List.mem_filter.1 (h ▸ hy)).2
      rw [List.idxOf_cons_ne _ (hout (by simp)), List.idxOf_cons_ne _ (hout (by simp [hb]))]
      exact Nat.succ_lt_succ (ih h hbefore)

/-- An order on the members of a list is enough to sort it. -/
theorem pairwise_mergeSort_of_mem {le : α → α → Bool} {as : List α}
    (htrans : ∀ a ∈ as, ∀ b ∈ as, ∀ c ∈ as, le a b = true → le b c = true → le a c = true)
    (htotal : ∀ a ∈ as, ∀ b ∈ as, le a b = true ∨ le b a = true) :
    (as.mergeSort le).Pairwise fun a b => le a b = true := by
  have hmap : (as.attach.mergeSort fun a b => le a.1 b.1).map Subtype.val = as.mergeSort le :=
    calc (as.attach.mergeSort fun a b => le a.1 b.1).map Subtype.val
        = (as.attach.map Subtype.val).mergeSort le := List.map_mergeSort fun _ _ _ _ => rfl
      _ = as.mergeSort le := by rw [List.attach_map_subtype_val]
  rw [← hmap, List.pairwise_map]
  refine List.pairwise_mergeSort (fun a b c => htrans a.1 a.2 b.1 b.2 c.1 c.2) (fun a b => ?_) _
  exact Bool.or_eq_true_iff.2 (htotal a.1 a.2 b.1 b.2)

/-! ## Distinct members -/

theorem distinctOn_sublist [DecidableEq β] (f : α → β) (as : List α) :
    (distinctOn f as).Sublist as := by
  induction as with
  | nil => exact .slnil
  | cons a as ih => exact (List.filter_sublist.trans ih).cons_cons a

/-- Distinct members stand in the order in which their images first come. -/
theorem pairwise_idxOf_distinctOn [DecidableEq β] (f : α → β) (as : List α) :
    (distinctOn f as).Pairwise fun a b => (as.map f).idxOf (f a) < (as.map f).idxOf (f b) := by
  induction as with
  | nil => exact .nil
  | cons a as ih =>
    have later {b : α} (hb : b ∈ (distinctOn f as).filter fun b => f b ≠ f a) :
        ((a :: as).map f).idxOf (f b) = (as.map f).idxOf (f b) + 1 := by
      have hne : f b ≠ f a := by simpa using (List.mem_filter.1 hb).2
      rw [List.map_cons, List.idxOf_cons_ne _ hne.symm]
    refine List.pairwise_cons.2 ⟨fun b hb => ?_, ?_⟩
    · rw [later hb, List.map_cons, List.idxOf_cons_self]
      exact Nat.succ_pos _
    · refine (ih.filter _).imp_of_mem fun hb hc h => ?_
      rw [later hb, later hc]
      exact Nat.succ_lt_succ h

theorem map_distinctOn [DecidableEq γ] (f : β → γ) (g : α → β) (as : List α) :
    (distinctOn (fun a => f (g a)) as).map g = distinctOn f (as.map g) := by
  induction as with
  | nil => rfl
  | cons a as ih => simp only [distinctOn, List.map_cons, ← ih, List.filter_map, Function.comp_def]

private theorem filter_find? [DecidableEq γ] (f : α → γ) (as : List α) (c x : γ) :
    (as.find? fun a => f a = c).filter (fun a => f a ≠ x) =
      if c = x then none else as.find? fun a => f a = c := by
  cases h : as.find? fun a => f a = c with
  | none => simp
  | some a =>
    have ha : f a = c := by simpa using List.find?_some h
    by_cases hc : c = x <;> simp [Option.filter, ha, hc]

/-- The distinct members of a list are those that are found first under their images. -/
theorem filterMap_find?_distinct [DecidableEq γ] (f : α → γ) (as : List α) :
    (distinct (as.map f)).filterMap (fun c => as.find? fun a => f a = c) = distinctOn f as := by
  induction as with
  | nil => rfl
  | cons a as ih =>
    have hfirst : (distinct ((a :: as).map f)) = f a :: (distinct (as.map f)).filter (· ≠ f a) := rfl
    rw [hfirst, distinctOn, ← ih, List.filterMap_cons_some (b := a) (by simp), List.filterMap_filter,
      List.filter_filterMap]
    congr 1
    refine List.filterMap_congr fun c _ => ?_
    rw [filter_find?]
    by_cases hc : c = f a
    · simp [hc]
    · simp [hc, Ne.symm hc]

/-! ## Pair by pair -/

theorem exists_of_forall₂ {R : α → β → Prop} {as : List α} {bs : List β} {b : β}
    (h : List.Forall₂ R as bs) (hb : b ∈ bs) : ∃ a ∈ as, R a b := by
  induction h with
  | nil => cases hb
  | @cons a _ _ _ hr _ ih =>
    rcases List.mem_cons.1 hb with rfl | hb
    · exact ⟨a, List.mem_cons_self, hr⟩
    · obtain ⟨a', ha, hr⟩ := ih hb
      exact ⟨a', List.mem_cons_of_mem _ ha, hr⟩

/-- Lists that agree member by member have equal images. -/
theorem map_eq_of_forall₂ {R : α → β → Prop} {f : α → γ} {g : β → γ} {as : List α}
    {bs : List β} (h : List.Forall₂ R as bs) (hR : ∀ a b, R a b → g b = f a) :
    bs.map g = as.map f := by
  induction h with
  | nil => rfl
  | cons hr _ ih => rw [List.map_cons, List.map_cons, hR _ _ hr, ih]

theorem exists_forall₂ {R : α → β → Prop} {as : List α} (h : ∀ a ∈ as, ∃ b, R a b) :
    ∃ bs, List.Forall₂ R as bs := by
  induction as with
  | nil => exact ⟨[], .nil⟩
  | cons a as ih =>
    obtain ⟨⟨b, hb⟩, h⟩ := List.forall_mem_cons.1 h
    obtain ⟨bs, hbs⟩ := ih h
    exact ⟨b :: bs, .cons hb hbs⟩

/-! ## Computations that may fail -/

theorem bind_eq_ok {x : Except ε α} {f : α → Except ε β} {b : β}
    (h : x >>= f = .ok b) : ∃ a, x = .ok a ∧ f a = .ok b := by
  cases x with
  | error e => cases h
  | ok a => exact ⟨a, rfl, h⟩

@[simp] theorem ok_bind (a : α) (f : α → Except ε β) : (Except.ok a >>= f) = f a := rfl

theorem exists_of_isSome {x : Except ε α} (h : x.toOption.isSome = true) : ∃ a, x = .ok a := by
  cases x with
  | error e => cases h
  | ok a => exact ⟨a, rfl⟩

theorem exists_of_map {x : Except ε α} {f : α → β} {b : β} (h : x.toOption.map f = some b) :
    ∃ a, x = .ok a ∧ f a = b := by
  cases x with
  | error e => cases h
  | ok a => exact ⟨a, rfl, Option.some.inj h⟩

theorem forall₂_of_mapM {f : α → Except ε β} {as : List α} {bs : List β}
    (h : as.mapM f = .ok bs) : List.Forall₂ (fun a b => f a = .ok b) as bs := by
  induction as generalizing bs with
  | nil =>
    cases h
    exact .nil
  | cons a as ih =>
    rw [List.mapM_cons] at h
    obtain ⟨b, hb, h⟩ := bind_eq_ok h
    obtain ⟨bs', hbs, h⟩ := bind_eq_ok h
    cases h
    exact .cons hb (ih hbs)

theorem exists_mapM_iff {f : α → Except ε β} {as : List α} :
    (∃ bs, as.mapM f = .ok bs) ↔ ∀ a ∈ as, ∃ b, f a = .ok b := by
  constructor
  · rintro ⟨bs, h⟩ a ha
    obtain ⟨b, -, hb⟩ := exists_of_forall₂ (forall₂_of_mapM h).flip ha
    exact ⟨b, hb⟩
  · intro h
    induction as with
    | nil => exact ⟨[], rfl⟩
    | cons a as ih =>
      obtain ⟨b, hb⟩ := h a List.mem_cons_self
      obtain ⟨bs, hbs⟩ := ih fun a ha => h a (List.mem_cons_of_mem _ ha)
      refine ⟨b :: bs, ?_⟩
      rw [List.mapM_cons, hb, hbs]
      rfl

end Flowchart
