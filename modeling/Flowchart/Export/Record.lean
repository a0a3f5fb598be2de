import Flowchart.Export.Lenient
/-! Records of an export: declared entries, read under one of several names, and the entries left
over. -/
namespace Flowchart.Record

/-- The first of the names that is a key, with its value. -/
def given? (raw : Fields) (names : List Text) : Option (Text × Value) :=
  names.findSome? fun n => (Table.get? raw (.text n)).map fun v => (n, v)

/-- A declared entry that has the default where it is absent. -/
def optional {α : Type} (raw : Fields) (names : List Text) (default : α)
    (read : Value → Checked α) : Checked α :=
  match given? raw names with
  | none => .ok default
  | some (n, v) => (read v).under (.name n)

/-- A declared entry that must be there. -/
def required {α : Type} (raw : Fields) (names : List Text) (read : Value → Checked α) :
    Checked α :=
  match given? raw names with
  | none => (Checked.fail .missing).under (.name (names.headD Text.empty))
  | some (n, v) => (read v).under (.name n)

/-- The names under which declared entries were found. -/
def usedNames (raw : Fields) (declared : List (List Text)) : List Text :=
  declared.filterMap fun names => (given? raw names).map (·.1)

/-- A key as a name; octets are decoded. -/
def name? : Scalar → Option Text
  | .text t => some t
  | .bytes os => Text.ofUtf8? os
  | _ => none

/-- The entries whose names are not used, read by `left`; a key that is no name is a problem. -/
private def leftover (used : List Text) (left : Scalar × Value → Text → Checked Fields)
    (raw : Fields) : Checked Fields :=
  (Checked.all (raw.map fun e =>
    match name? e.1 with
    | none => (Checked.fail .badKey).under e.1.step
    | some t => if t ∈ used then .ok [] else left e t)).map fun fs => Table.ofEntries fs.flatten

/-- The entries left over, kept as they are. -/
def extras (declared : List (List Text)) (raw : Fields) : Checked Fields :=
  leftover (usedNames raw declared) (fun e t => .ok [(.text t, e.2)]) raw

/-- No entry may be left over. -/
def noExtras (declared : List (List Text)) (raw : Fields) : Checked Fields :=
  leftover (usedNames raw declared) (fun e _ => (Checked.fail .forbidden).under e.1.step) raw

/-- A key that cannot be encoded spoils the whole record. -/
def guarded {α : Type} (raw : Fields) (c : Checked α) : Checked α :=
  if raw.any fun e => (name? e.1).any Lenient.hasSurrogate then Checked.fail .undecodable else c

/-- A record of the given name is a mapping. -/
def read {α : Type} (name : Text) (check : Fields → Checked α) : Value → Checked α
  | .map raw => guarded raw (check raw)
  | _ => Checked.fail (.noRecord name)

section
variable {α : Type} {raw own rest : Fields} {declared : List (List Text)} {names : List Text}
  {n : Text} {v : Value} {a default : α} {read : Value → Checked α}

theorem given?_of_get? (h : Table.get? raw (.text n) = some v) :
    given? raw (n :: names) = some (n, v) := by
  rw [given?, List.findSome?_cons, h]
  rfl

/-- What stands under the preferred name is read. -/
theorem required_of_get? (h : Table.get? raw (.text n) = some v) (hr : read v = .ok a) :
    required raw (n :: names) read = .ok a := by
  rw [required, given?_of_get? h]
  exact Checked.under_eq_ok.2 hr

theorem optional_of_get? (h : Table.get? raw (.text n) = some v) (hr : read v = .ok a) :
    optional raw (n :: names) default read = .ok a := by
  rw [optional, given?_of_get? h]
  exact Checked.under_eq_ok.2 hr

theorem read_of_required (hv : Table.get? raw (.text n) = some v)
    (h : required raw (n :: names) read = .ok a) : read v = .ok a := by
  rw [required, given?_of_get? hv] at h
  exact Checked.under_eq_ok.1 h

theorem exists_of_required (h : required raw [n] read = .ok a) :
    ∃ v, Table.get? raw (.text n) = some v ∧ read v = .ok a := by
  cases hv : Table.get? raw (.text n) with
  | none => simp [required, given?, hv, Checked.fail, Checked.under] at h
  | some v => exact ⟨v, rfl, read_of_required hv h⟩

/-- What stands under the first name, or else what is found under the others. -/
theorem optional_cons : optional raw (n :: names) default read =
    (Table.get? raw (.text n)).elim (optional raw names default read) fun v =>
      (read v).under (.name n) := by
  cases hv : Table.get? raw (.text n) <;> simp [optional, given?, hv]

/-- What stands under the only name, or the default. -/
theorem optional_singleton : optional raw [n] default read =
    (Table.get? raw (.text n)).elim (.ok default) fun v => (read v).under (.name n) := optional_cons

theorem of_given? (h : given? raw names = some (n, v)) :
    n ∈ names ∧ Table.get? raw (.text n) = some v := by
  obtain ⟨n', hn, hv⟩ := List.exists_of_findSome?_eq_some h
  obtain ⟨v', hv, hpair⟩ := Option.map_eq_some_iff.1 hv
  cases hpair
  exact ⟨hn, hv⟩

theorem of_optional (h : optional raw names default read = .ok a) :
    a = default ∨ ∃ n ∈ names, ∃ v, Table.get? raw (.text n) = some v ∧ read v = .ok a := by
  unfold optional at h
  split at h
  · cases h
    exact .inl rfl
  · next n v hg =>
    obtain ⟨hn, hv⟩ := of_given? hg
    exact .inr ⟨n, hn, v, hv, Checked.under_eq_ok.1 h⟩

/-- Each key that is a name can be encoded. -/
def IsEncodable (raw : Fields) : Prop :=
  ∀ e ∈ raw, ∀ t, name? e.1 = some t → Lenient.hasSurrogate t = false

theorem any_eq_false_iff :
    (raw.any fun e => (name? e.1).any Lenient.hasSurrogate) = false ↔ IsEncodable raw := by
  simp only [List.any_eq_false, Option.any_eq_true, not_exists, not_and, Bool.not_eq_true]
  rfl

theorem guarded_of_isEncodable (h : IsEncodable raw) (c : Checked α) : guarded raw c = c := by
  rw [guarded, any_eq_false_iff.2 h]
  rfl

theorem guarded_of_not_isEncodable (h : ¬ IsEncodable raw) (c : Checked α) :
    guarded raw c = Checked.fail .undecodable := by
  rw [guarded, eq_true_of_ne_false (mt any_eq_false_iff.1 h)]
  rfl

theorem guarded_eq_ok {c : Checked α} : guarded raw c = .ok a ↔
    (∀ e ∈ raw, ∀ t, name? e.1 = some t → Lenient.hasSurrogate t = false) ∧ c = .ok a := by
  by_cases h : IsEncodable raw
  · rw [guarded_of_isEncodable h]
    exact (and_iff_right h).symm
  · rw [guarded_of_not_isEncodable h]
    exact iff_of_false nofun fun hc => h hc.1

/-- A preferred name that is a key is used. -/
theorem mem_usedNames (hd : (n :: names) ∈ declared) (h : Table.get? raw (.text n) = some v) :
    n ∈ usedNames raw declared :=
  List.mem_filterMap.2 ⟨_, hd, by rw [given?_of_get? h]; rfl⟩

/-- What is left over has different names, which are not used, and values that are given there. -/
theorem of_extras (h : extras declared raw = .ok rest) :
    (rest.map fun e => e.1.key).Nodup ∧ ∀ e ∈ rest, ∃ t, e.1 = .text t ∧
      t ∉ usedNames raw declared ∧ ∃ r ∈ raw, name? r.1 = some t ∧ r.2 = e.2 := by
  obtain ⟨fs, hfs, rfl⟩ := Checked.map_eq_ok.1 h
  rw [Checked.all_eq_ok] at hfs
  refine ⟨Table.nodup_ofEntries _, fun e he => ?_⟩
  obtain ⟨d, hd, hk, hv⟩ := Table.exists_of_mem_ofEntries he
  obtain ⟨f, hf, hd⟩ := List.mem_flatten.1 hd
  obtain ⟨r, hr, hread⟩ := List.mem_map.1 (hfs ▸ List.mem_map_of_mem (f := Except.ok) hf)
  split at hread
  · simp [Checked.fail, Checked.under] at hread
  · next t ht =>
    split at hread <;> cases hread
    · cases hd
    · next hused =>
      cases List.mem_singleton.1 hd
      exact ⟨t, Scalar.key_eq_text.1 hk.symm, hused, r, hr, ht, hv⟩

/-- Where the keys are texts, the entries under names that are not used are left over. -/
theorem extras_of_texts (ht : ∀ e ∈ raw, ∃ t, e.1 = .text t) : extras declared raw =
    .ok (Table.ofEntries (raw.filter fun e => e.1 ∉ (usedNames raw declared).map Scalar.text)) := by
  have hflat (used : List Scalar) : (raw.map fun e => if e.1 ∈ used then [] else [e]).flatten =
      raw.filter fun e => e.1 ∉ used := by
    clear ht
    induction raw with
    | nil => rfl
    | cons e raw ih => by_cases he : e.1 ∈ used <;> simp [he, ih]
  refine Checked.map_eq_ok.2 ⟨_, ?_, congrArg Table.ofEntries (hflat _)⟩
  rw [Checked.all_eq_ok, List.map_map]
  apply List.map_congr_left
  intro e he
  obtain ⟨t, hk⟩ := ht e he
  by_cases hused : t ∈ usedNames raw declared <;> simp [hk, name?, hused, Prod.ext_iff]

/-- Entries under used names are dropped, what comes after them is left over. -/
theorem extras_append (hown : ∀ e ∈ own, ∃ t ∈ usedNames (own ++ rest) declared, e.1 = .text t)
    (hrest : ∀ e ∈ rest, ∃ t, e.1 = .text t ∧ t ∉ usedNames (own ++ rest) declared)
    (hn : (rest.map fun e => e.1.key).Nodup) : extras declared (own ++ rest) = .ok rest := by
  have htexts : ∀ e ∈ own ++ rest, ∃ t, e.1 = .text t := by
    intro e he
    rcases List.mem_append.1 he with he | he
    · obtain ⟨t, -, hk⟩ := hown e he
      exact ⟨t, hk⟩
    · obtain ⟨t, hk, -⟩ := hrest e he
      exact ⟨t, hk⟩
  rw [extras_of_texts htexts]
  generalize usedNames (own ++ rest) declared = used at hown hrest
  have hdropped : own.filter (fun e => e.1 ∉ used.map Scalar.text) = [] := by
    apply List.filter_eq_nil_iff.2
    intro e he
    obtain ⟨t, ht, hk⟩ := hown e he
    simpa [hk] using ht
  have hkept : rest.filter (fun e => e.1 ∉ used.map Scalar.text) = rest := by
    apply List.filter_eq_self.2
    intro e he
    obtain ⟨t, hk, ht⟩ := hrest e he
    simpa [hk] using ht
  rw [List.filter_append, hdropped, hkept, List.nil_append, Table.ofEntries_of_nodup hn]

/-- Where each key is the preferred name of a declared entry, nothing is left over. -/
private theorem leftover_of_declared (left : Scalar × Value → Text → Checked Fields)
    (h : ∀ e ∈ raw, ∃ t, e.1 = .text t ∧ some t ∈ declared.map List.head?) :
    leftover (usedNames raw declared) left raw = .ok [] := by
  refine Checked.map_eq_ok.2 ⟨raw.map fun _ => [], ?_, ?_⟩
  · rw [Checked.all_eq_ok, List.map_map]
    refine List.map_congr_left fun e he => ?_
    obtain ⟨t, hk, ht⟩ := h e he
    obtain ⟨names, hd, hhead⟩ := List.mem_map.1 ht
    obtain ⟨ns, rfl⟩ := List.head?_eq_some_iff.1 hhead
    obtain ⟨v, hv⟩ := Table.exists_get? he
    rw [hk] at hv
    have hused : t ∈ usedNames raw declared := mem_usedNames hd hv
    simp [hk, name?, hused]
  · have hflat : (raw.map fun _ => ([] : Fields)).flatten = [] := by simp
    rw [hflat]
    rfl

theorem extras_of_declared
    (h : ∀ e ∈ raw, ∃ t, e.1 = .text t ∧ some t ∈ declared.map List.head?) :
    extras declared raw = .ok [] := leftover_of_declared _ h

theorem noExtras_of_declared
    (h : ∀ e ∈ raw, ∃ t, e.1 = .text t ∧ some t ∈ declared.map List.head?) :
    noExtras declared raw = .ok [] := leftover_of_declared _ h

end

end Flowchart.Record
