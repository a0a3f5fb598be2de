import Flowchart.Value.Scalar
/-! Tables in insertion order. A key is looked up by what it counts as, and the first spelling
of a key stays. -/
namespace Flowchart

abbrev Table (α : Type) := List (Scalar × α)

namespace Table

variable {α : Type}

def get? (t : Table α) (k : Key) : Option α :=
  (t.find? fun e => e.1.key = k).map (·.2)

def has (t : Table α) (k : Key) : Bool := t.any fun e => e.1.key = k

/-- Replace the value in place, or add the entry at the end. -/
def set : Table α → Scalar → α → Table α
  | [], k, v => [(k, v)]
  | (k', v') :: t, k, v => if k'.key = k.key then (k', v) :: t else (k', v') :: set t k v

def ofEntries (es : List (Scalar × α)) : Table α := es.foldl (fun t e => set t e.1 e.2) []

/-- All entries of `u` set in turn. -/
def update (t u : Table α) : Table α := u.foldl (fun t e => set t e.1 e.2) t

@[simp] theorem get?_nil (k : Key) : get? ([] : Table α) k = none := rfl

theorem get?_cons (e : Scalar × α) (t : Table α) (k : Key) :
    get? (e :: t) k = if e.1.key = k then some e.2 else get? t k := by
  by_cases h : e.1.key = k <;> simp [get?, h]

theorem get?_append (t u : Table α) (k : Key) : get? (t ++ u) k = (get? t k).or (get? u k) := by
  simp only [get?, List.find?_append]
  cases t.find? (fun e => e.1.key = k) <;> rfl

theorem exists_of_get? {t : Table α} {k : Key} {v : α} (h : get? t k = some v) :
    ∃ e ∈ t, e.1.key = k ∧ e.2 = v := by
  obtain ⟨e, he, hv⟩ := Option.map_eq_some_iff.1 h
  exact ⟨e, List.mem_of_find?_eq_some he, by simpa using List.find?_some he, hv⟩

/-- Where the kept entries are told by their keys, a key is kept with its value or not at all. -/
theorem get?_filter {t : Table α} {p : Scalar × α → Bool} {k : Key} (kept : Bool)
    (h : ∀ e ∈ t, e.1.key = k → p e = kept) :
    get? (t.filter p) k = if kept then get? t k else none := by
  induction t with
  | nil => cases kept <;> rfl
  | cons e t ih =>
    obtain ⟨he, ht⟩ := List.forall_mem_cons.1 h
    rw [List.filter_cons, get?_cons]
    by_cases hk : e.1.key = k
    · rw [if_pos hk, he hk]
      cases kept with
      | true => rw [if_pos rfl, get?_cons, if_pos hk, if_pos rfl]
      | false => exact ih ht
    · rw [if_neg hk, ← ih ht]
      split
      · rw [get?_cons, if_neg hk]
      · rfl

variable {t u : Table α} {es : List (Scalar × α)} {e : Scalar × α}

theorem mem_set {k : Scalar} {v : α} (h : e ∈ set t k v) : e.1.key = k.key ∧ e.2 = v ∨ e ∈ t := by
  induction t with
  | nil =>
    rw [List.mem_singleton.1 h]
    exact .inl ⟨rfl, rfl⟩
  | cons d t ih =>
    rw [set] at h
    split at h
    · next hk =>
      rcases List.mem_cons.1 h with rfl | h
      · exact .inl ⟨hk, rfl⟩
      · exact .inr (List.mem_cons_of_mem _ h)
    · rcases List.mem_cons.1 h with rfl | h
      · exact .inr List.mem_cons_self
      · exact (ih h).imp_right (List.mem_cons_of_mem _)

theorem exists_of_mem_update (h : e ∈ update t es) :
    e ∈ t ∨ ∃ d ∈ es, d.1.key = e.1.key ∧ d.2 = e.2 := by
  induction es generalizing t with
  | nil => exact .inl h
  | cons d es ih =>
    rcases ih h with h | ⟨d', hd, h⟩
    · rcases mem_set h with ⟨hk, hv⟩ | h
      · exact .inr ⟨d, List.mem_cons_self, hk.symm, hv.symm⟩
      · exact .inl h
    · exact .inr ⟨d', List.mem_cons_of_mem _ hd, h⟩

/-- The value of an entry was given to its key, if under another spelling. -/
theorem exists_of_mem_ofEntries (h : e ∈ ofEntries es) :
    ∃ d ∈ es, d.1.key = e.1.key ∧ d.2 = e.2 :=
  (exists_of_mem_update (t := []) h).resolve_left List.not_mem_nil

theorem exists_get? (h : e ∈ t) : ∃ v, get? t e.1.key = some v := by
  obtain ⟨d, hd⟩ : ∃ d, t.find? (fun d => d.1.key = e.1.key) = some d :=
    Option.isSome_iff_exists.1 (List.find?_isSome.2 ⟨e, h, by simp⟩)
  exact ⟨d.2, by rw [get?, hd]; rfl⟩

/-- In a table without repeated keys each entry is found. -/
theorem get?_of_mem (hn : (t.map fun e => e.1.key).Nodup) (h : e ∈ t) :
    get? t e.1.key = some e.2 := by
  induction t with
  | nil => cases h
  | cons d t ih =>
    obtain ⟨hnot, hn⟩ := List.nodup_cons.1 hn
    rw [get?_cons]
    rcases List.mem_cons.1 h with rfl | h
    · rw [if_pos rfl]
    · rw [if_neg fun hk => hnot (List.mem_map.2 ⟨e, h, hk.symm⟩), ih hn h]

theorem set_of_not_mem {k : Scalar} (v : α) (h : k.key ∉ t.map fun e => e.1.key) :
    set t k v = t ++ [(k, v)] := by
  induction t with
  | nil => rfl
  | cons e t ih =>
    obtain ⟨hk, h⟩ := not_or.1 (mt List.mem_cons.2 h)
    rw [set, if_neg (Ne.symm hk), ih h, List.cons_append]

theorem set_ne_nil (t : Table α) (k : Scalar) (v : α) : set t k v ≠ [] := by
  cases t with
  | nil => exact List.cons_ne_nil _ _
  | cons e t =>
    rw [set]
    split <;> exact List.cons_ne_nil _ _

theorem update_ne_nil (h : es ≠ []) : update t es ≠ [] := by
  induction es generalizing t with
  | nil => exact absurd rfl h
  | cons e es ih =>
    cases es with
    | nil => exact set_ne_nil t e.1 e.2
    | cons d es => exact ih (List.cons_ne_nil d es)

theorem nodup_set (k : Scalar) (v : α) (h : (t.map fun e => e.1.key).Nodup) :
    ((set t k v).map fun e => e.1.key).Nodup := by
  induction t with
  | nil => simp [set]
  | cons e t ih =>
    obtain ⟨hnot, hnodup⟩ := List.nodup_cons.1 h
    rw [set]
    split
    · exact h
    · next hk =>
      refine List.nodup_cons.2 ⟨fun hmem => ?_, ih hnodup⟩
      obtain ⟨e', he, hkey⟩ := List.mem_map.1 hmem
      rcases mem_set he with ⟨hk', -⟩ | he
      · exact hk (hkey.symm.trans hk')
      · exact hnot (List.mem_map.2 ⟨e', he, hkey⟩)

theorem nodup_update (h : (t.map fun e => e.1.key).Nodup) :
    ((update t es).map fun e => e.1.key).Nodup := by
  induction es generalizing t with
  | nil => exact h
  | cons e es ih => exact ih (nodup_set e.1 e.2 h)

theorem nodup_ofEntries (es : List (Scalar × α)) : ((ofEntries es).map fun e => e.1.key).Nodup :=
  nodup_update (t := []) .nil

/-- A table goes untouched where its keys are not set. -/
theorem set_append {k : Scalar} (v : α) (h : ∀ e ∈ t, e.1.key ≠ k.key) :
    set (t ++ u) k v = t ++ set u k v := by
  induction t with
  | nil => rfl
  | cons e t ih =>
    obtain ⟨hk, h⟩ := List.forall_mem_cons.1 h
    rw [List.cons_append, set, if_neg hk, ih h, List.cons_append]

theorem update_append (h : ∀ e ∈ t, ∀ d ∈ es, e.1.key ≠ d.1.key) :
    update (t ++ u) es = t ++ update u es := by
  induction es generalizing u with
  | nil => rfl
  | cons d es ih =>
    have hset : set (t ++ u) d.1 d.2 = t ++ set u d.1 d.2 :=
      set_append d.2 fun e he => h e he d List.mem_cons_self
    have hrest := ih (u := set u d.1 d.2) fun e he d' hd => h e he d' (List.mem_cons_of_mem _ hd)
    rw [← hset] at hrest
    exact hrest

theorem update_of_nodup (h : ((t ++ es).map fun e => e.1.key).Nodup) : update t es = t ++ es := by
  induction es generalizing t with
  | nil => exact (List.append_nil t).symm
  | cons e es ih =>
    rw [List.append_cons] at h ⊢
    have hnew : e.1.key ∉ t.map fun e => e.1.key := by
      rw [List.map_append, List.map_append] at h
      obtain ⟨-, -, hne⟩ := List.nodup_append.1 (List.nodup_append.1 h).1
      exact fun hmem => hne _ hmem _ List.mem_cons_self rfl
    rw [← ih h, ← set_of_not_mem e.2 hnew]
    rfl

/-- Entries with different keys make up a table as they are. -/
theorem ofEntries_of_nodup (h : (es.map fun e => e.1.key).Nodup) : ofEntries es = es :=
  update_of_nodup (t := []) h

end Table

end Flowchart
