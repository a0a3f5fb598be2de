import Flowchart.Proofs.Settings
/-! Settings some of which cannot be read. They are read a second time, without the entries that
spoiled the first reading: each setting is then read apart, under the first of its names where that
can be done. A setting that cannot be read under either of its two names spoils the second reading
as well, and so does a key that cannot be encoded. All settings are then lost. -/
namespace Flowchart.Metadata

/-- A value that cannot be read is a problem. -/
private theorem Form.explained_read (f : Form) (v : Value) : (f.read v).Explained := by
  cases f with
  | text => exact Lenient.explained_text _ _
  | truth => exact Lenient.explained_bool _
  | integer => exact Lenient.explained_integer _
  | mapping => exact Lenient.explained_mapping _ _
  | numbers => exact Lenient.explained_numbers _ _

namespace Setting

/-- The setting as it is read under one name. -/
def at? (s : Setting) (raw : Fields) (n : Text) : Option (Checked s.Kind) :=
  (Table.get? raw (.text n)).map s.read

def isGood (s : Setting) (raw : Fields) (n : Text) : Bool :=
  (s.at? raw n).any fun c => c.toOption.isSome

def isBad (s : Setting) (raw : Fields) (n : Text) : Bool :=
  (s.at? raw n).any fun c => c.toOption.isNone

/-- The setting under the first of its names where it can be read. -/
def recovered? (s : Setting) (raw : Fields) : Option s.Kind :=
  s.names.findSome? fun n => (s.at? raw n).bind Except.toOption

/-- The key is no name of the setting, or another name is preferred and the setting can be read
under that. -/
def Spares (s : Setting) (raw : Fields) (k : Scalar) : Prop :=
  ∀ n ∈ s.names, k = .text n → ∃ p ∈ s.names.head?, p ≠ n ∧ s.isGood raw p = true

instance (s : Setting) (raw : Fields) (k : Scalar) : Decidable (s.Spares raw k) :=
  inferInstanceAs (Decidable (∀ n ∈ s.names, k = .text n →
    ∃ p ∈ s.names.head?, p ≠ n ∧ s.isGood raw p = true))

/-- Of the names of the setting at most one is bad. -/
def IsApart (s : Setting) (raw : Fields) : Prop :=
  ∀ a ∈ s.names, ∀ b ∈ s.names, s.isBad raw a = true → s.isBad raw b = true → a = b

/-- The name under which the setting is read. -/
def used? (s : Setting) (raw : Fields) : Option Text := (Record.given? raw s.names).map (·.1)

/-- The name under which reading the setting fails. -/
def lost? (s : Setting) (raw : Fields) : Option Text := (s.used? raw).filter (s.isBad raw)

/-- Of the names of the setting, the one that is lost is gone. -/
def IsCleared (s : Setting) (raw kept : Fields) : Prop :=
  ∀ n ∈ s.names, Table.get? kept (.text n) =
    if s.lost? raw = some n then none else Table.get? raw (.text n)

variable {s : Setting} {raw kept : Fields} {n t : Text}

private theorem names_cases (s : Setting) :
    (∃ a, s.names = [a]) ∨ ∃ a b, a ≠ b ∧ s.names = [a, b] := by
  cases s
  all_goals first
    | exact .inl ⟨_, rfl⟩
    | exact .inr ⟨_, _, by decide, rfl⟩

/-- No two settings share a name. -/
private theorem eq_of_mem_names (s s' : Setting) : ∀ n ∈ s.names, n ∈ s'.names → s = s' := by
  cases s <;> cases s' <;> decide

private theorem explained_read (s : Setting) (v : Value) : (s.read v).Explained :=
  s.form.explained_read _

private theorem mem_names_of_used? (h : s.used? raw = some n) : n ∈ s.names := by
  obtain ⟨⟨n', v⟩, hgiven, rfl⟩ := Option.map_eq_some_iff.1 h
  exact (Record.of_given? hgiven).1

private theorem mem_names_of_lost? (h : s.lost? raw = some n) : n ∈ s.names :=
  mem_names_of_used? (Option.filter_eq_some_iff.1 h).1

/-- What goes wrong with a setting lies under the name that is lost. -/
private theorem exists_problem_iff :
    (∃ p ∈ (s.readFrom raw).problems, p.place.head? = some (.name t)) ↔ s.lost? raw = some t := by
  rw [readFrom, Record.optional, lost?, used?]
  cases hgiven : Record.given? raw s.names with
  | none => simp [Checked.problems]
  | some e =>
    obtain ⟨n, v⟩ := e
    have hat : s.at? raw n = some (s.read v) := by
      rw [at?, (Record.of_given? hgiven).2, Option.map_some]
    have hexplained := s.explained_read v
    rw [Option.map_some, Option.filter_some, isBad, hat]
    dsimp only
    generalize s.read v = c at hexplained
    cases c with
    | ok a => simp [Checked.under, Checked.problems, Except.toOption]
    | error ps =>
      cases ps with
      | nil => exact absurd rfl hexplained
      | cons p ps => simp [Checked.under, Checked.problems, Except.toOption]

private theorem readFrom_one {a : Text} (hn : s.names = [a]) : s.readFrom raw =
    (s.at? raw a).elim (.ok (s.get default)) fun c => c.under (.name a) := by
  rw [readFrom, hn, Record.optional_cons, at?]
  cases Table.get? raw (.text a) <;> rfl

private theorem readFrom_two {a b : Text} (hn : s.names = [a, b]) : s.readFrom raw =
    (s.at? raw a).elim ((s.at? raw b).elim (.ok (s.get default)) fun c => c.under (.name b))
      fun c => c.under (.name a) := by
  rw [readFrom, hn, Record.optional_cons, Record.optional_cons, at?, at?]
  cases Table.get? raw (.text a) <;> cases Table.get? raw (.text b) <;> rfl

private theorem used?_eq (s : Setting) (raw : Fields) :
    s.used? raw = s.names.find? fun n => (s.at? raw n).isSome := by
  unfold used? Record.given? at?
  induction s.names with
  | nil => rfl
  | cons n ns ih =>
    rw [List.findSome?_cons, List.find?_cons]
    cases Table.get? raw (.text n) with
    | none => exact ih
    | some v => rfl

private theorem at?_of_isCleared (hk : s.IsCleared raw kept) (hn : n ∈ s.names) :
    s.at? kept n = if s.lost? raw = some n then none else s.at? raw n := by
  rw [at?, hk n hn]
  split <;> rfl

private theorem lost?_one {a : Text} (hn : s.names = [a]) :
    s.lost? raw = if s.isBad raw a then some a else none := by
  rw [lost?, used?_eq, hn, isBad]
  cases hat : s.at? raw a <;> simp [hat, isBad, Option.filter]

/-- The preferred name is lost if it is bad, the other one only where the preferred one is not
given. -/
private theorem lost?_two {a b : Text} (hn : s.names = [a, b]) : s.lost? raw =
    if s.isBad raw a then some a
    else if (s.at? raw a).isNone ∧ s.isBad raw b then some b else none := by
  rw [lost?, used?_eq, hn, isBad, isBad]
  cases hata : s.at? raw a <;> cases hatb : s.at? raw b <;>
    simp [hata, hatb, isBad, Option.filter]

section
variable {a b : Text} (hk : s.IsCleared raw kept)
include hk

private theorem at?_one (hn : s.names = [a]) :
    s.at? kept a = if s.isBad raw a then none else s.at? raw a := by
  rw [at?_of_isCleared hk (by simp [hn]), lost?_one hn]
  cases s.isBad raw a <;> simp

private theorem at?_two (hab : a ≠ b) (hn : s.names = [a, b]) :
    s.at? kept a = (if s.isBad raw a then none else s.at? raw a) ∧
      s.at? kept b =
        if (s.at? raw a).isNone ∧ s.isBad raw b then none else s.at? raw b := by
  rw [at?_of_isCleared hk (n := a) (by simp [hn]), at?_of_isCleared hk (n := b) (by simp [hn]),
    lost?_two hn]
  cases hat : s.at? raw a with
  | none => cases hbad : s.isBad raw b <;> simp [isBad, hat, hab.symm]
  | some c => cases hbad : s.isBad raw a <;> simp [hab]

/-- The setting is read a second time, unless both of its names are bad. -/
theorem readFrom_of_isCleared (hb : s.IsApart raw) :
    s.readFrom kept = .ok ((s.recovered? raw).getD (s.get default)) := by
  obtain ⟨a, hn⟩ | ⟨a, b, hab, hn⟩ := s.names_cases
  · rw [readFrom_one hn, at?_one hk hn, recovered?, hn]
    rcases hat : s.at? raw a with _ | ⟨ps | x⟩ <;>
      simp [hat, isBad, Except.toOption, Checked.under]
  · obtain ⟨ha, hb'⟩ := at?_two hk hab hn
    have hone := hb a (by simp [hn]) b (by simp [hn])
    rw [readFrom_two hn, ha, hb', recovered?, hn]
    -- Under either name there is nothing, a value that cannot be read, or one that can.
    rcases hata : s.at? raw a with _ | ⟨ps | x⟩ <;> rcases hatb : s.at? raw b with _ | ⟨qs | y⟩ <;>
      simp_all [isBad, Except.toOption, Checked.under]

/-- Two bad names are read one after the other, so that the second reading fails as well. -/
theorem isApart_of_readFrom {x : s.Kind} (h : s.readFrom kept = .ok x) : s.IsApart raw := by
  obtain ⟨p, hn⟩ | ⟨p, q, hpq, hn⟩ := s.names_cases
  · intro a ha b hb _ _
    rw [hn, List.mem_singleton] at ha hb
    rw [ha, hb]
  · have hnot (hbadp : s.isBad raw p = true) (hbadq : s.isBad raw q = true) : False := by
      obtain ⟨hp, hq⟩ := at?_two hk hpq hn
      obtain ⟨c, hc, -⟩ := (Option.any_eq_true _ _).1 hbadp
      obtain ⟨d, hd, hfails⟩ := (Option.any_eq_true _ _).1 hbadq
      rw [if_pos hbadp] at hp
      rw [hc, if_neg (by simp), hd] at hq
      rw [readFrom_two hn, hp, hq] at h
      rw [Checked.under_eq_ok.1 h] at hfails
      cases hfails
    intro a ha b hb hbada hbadb
    simp only [hn, List.mem_cons, List.not_mem_nil, or_false] at ha hb
    rcases ha with rfl | rfl <;> rcases hb with rfl | rfl
    · rfl
    · exact (hnot hbada hbadb).elim
    · exact (hnot hbadb hbada).elim
    · rfl

/-- A given name is left over unless the setting is read, or fails to be read, under it. -/
private theorem spares_iff (hb : s.IsApart raw)
    (hgiven : (Table.get? raw (.text t)).isSome = true) :
    s.Spares raw (.text t) ↔ s.lost? raw ≠ some t ∧ s.used? kept ≠ some t := by
  by_cases ht : t ∈ s.names
  · have hat : (s.at? raw t).isSome = true := by rwa [at?, Option.isSome_map]
    have hspares : s.Spares raw (.text t) ↔
        ∃ p ∈ s.names.head?, p ≠ t ∧ s.isGood raw p = true := by
      constructor
      · intro h
        exact h t ht rfl
      · intro h n _ hn
        cases hn
        exact h
    rw [hspares, used?_eq]
    obtain ⟨a, hn⟩ | ⟨a, b, hab, hn⟩ := s.names_cases
    · have ha := at?_one hk hn
      obtain rfl := List.mem_singleton.1 (hn ▸ ht)
      rw [lost?_one hn, hn, List.find?_cons, ha]
      rcases hata : s.at? raw t with _ | ⟨ps | x⟩ <;> simp_all [isBad, Except.toOption]
    · obtain ⟨ha, hb'⟩ := at?_two hk hab hn
      have hone := hb a (by simp [hn]) b (by simp [hn])
      have htab : t = a ∨ t = b := by simpa [hn] using ht
      rw [lost?_two hn, hn, List.find?_cons, List.find?_cons, ha, hb']
      rcases htab with rfl | rfl
      · have hba := hab.symm
        rcases hata : s.at? raw t with _ | ⟨ps | x⟩ <;>
          simp_all [isBad, isGood, Except.toOption]
      · rcases hata : s.at? raw a with _ | ⟨ps | x⟩ <;>
          rcases hatb : s.at? raw t with _ | ⟨qs | y⟩ <;>
            simp_all [isBad, isGood, Except.toOption]
  · refine iff_of_true ?_ ⟨?_, ?_⟩
    · intro n hn hk
      cases hk
      exact absurd hn ht
    · intro h
      exact ht (mem_names_of_lost? h)
    · intro h
      exact ht (mem_names_of_used? h)

end

end Setting

section
variable {raw : Fields} {m : Metadata}

private theorem problems_readAll (raw : Fields) (ss : List Setting) :
    (readAll raw ss).problems = ss.flatMap fun s => (s.readFrom raw).problems := by
  induction ss with
  | nil => rfl
  | cons s ss ih => rw [readAll, Checked.problems_map, Checked.problems_and, ih, List.flatMap_cons]

/-- The problems of the settings come one after the other, then those of other entries. -/
theorem problems_check (raw : Fields) : (check raw).problems =
    Setting.all.flatMap (fun s => (s.readFrom raw).problems) ++
      (Record.extras declared raw).problems := by
  rw [check, Checked.problems_map, Checked.problems_and, problems_readAll]

private theorem usedNames_eq (raw : Fields) :
    Record.usedNames raw declared = Setting.all.filterMap fun s => s.used? raw := rfl

/-- What is left for the second reading. -/
def rest (raw : Fields) : Fields := untroubled raw (ofFields raw).problems

/-- What is left over by the second reading. -/
def leftOver (raw : Fields) : Fields :=
  (rest raw).filter fun e => e.1 ∉ (Record.usedNames (rest raw) declared).map Scalar.text

/-- The keys can be encoded, and of the two names of a setting at most one is bad. -/
structure IsRecoverable (raw : Fields) : Prop where
  encodable : Record.IsEncodable raw
  apart : ∀ s : Setting, s.IsApart raw

/-- Each setting is what its own names come to, and the entries left over are kept. -/
structure IsReadApart (raw : Fields) (m : Metadata) : Prop where
  settings : ∀ s : Setting, s.get m = (s.recovered? raw).getD (s.get default)
  sublist : m.extras.Sublist raw
  extras : ∀ e ∈ raw, e ∈ m.extras ↔ ∀ s : Setting, s.Spares raw e.1

variable (h : raw.HasNames) (henc : Record.IsEncodable raw)
include h henc

private theorem exists_problem_ofFields_iff {t : Text} :
    (∃ p ∈ (ofFields raw).problems, p.place.head? = some (.name t)) ↔
      ∃ s : Setting, s.lost? raw = some t := by
  rw [ofFields, Record.guarded_of_isEncodable henc, problems_check,
    Record.extras_of_texts h.texts]
  simp only [Checked.problems, List.append_nil, List.mem_flatMap]
  constructor
  · rintro ⟨p, ⟨s, -, hp⟩, hhead⟩
    exact ⟨s, Setting.exists_problem_iff.1 ⟨p, hp, hhead⟩⟩
  · rintro ⟨s, hs⟩
    obtain ⟨p, hp, hhead⟩ := Setting.exists_problem_iff.2 hs
    exact ⟨p, ⟨s, s.mem_all, hp⟩, hhead⟩

private theorem mem_rest_iff {e : Scalar × Value} {t : Text} (he : e ∈ raw) (ht : e.1 = .text t) :
    e ∈ rest raw ↔ ∀ s : Setting, s.lost? raw ≠ some t := by
  rw [rest, untroubled, List.mem_filter, and_iff_right he, decide_eq_true_eq, ht]
  have hiff := not_congr (exists_problem_ofFields_iff h henc (t := t))
  simp only [not_exists, not_and] at hiff
  exact hiff

private theorem isCleared_rest (s : Setting) : s.IsCleared raw (rest raw) := by
  intro n hn
  have hlost : (∀ s' : Setting, s'.lost? raw ≠ some n) ↔ s.lost? raw ≠ some n := by
    constructor
    · intro hall
      exact hall s
    · intro hs s' hs'
      rw [s'.eq_of_mem_names s n (Setting.mem_names_of_lost? hs') hn] at hs'
      exact hs hs'
  have hkept : ∀ e ∈ raw, e.1.key = .text n →
      decide (∀ p ∈ (ofFields raw).problems, p.place.head? ≠ some e.1.step) =
        decide (s.lost? raw ≠ some n) := by
    intro e he hk
    apply decide_eq_decide.2
    rw [← hlost, ← mem_rest_iff h henc he (Scalar.key_eq_text.1 hk), rest, untroubled,
      List.mem_filter, decide_eq_true_iff]
    exact (and_iff_right he).symm
  rw [rest, untroubled, Table.get?_filter _ hkept]
  by_cases hs : s.lost? raw = some n <;> simp [hs]

omit henc in
private theorem extras_rest : Record.extras declared (rest raw) = .ok (leftOver raw) := by
  have hsub : (rest raw).Sublist raw := List.filter_sublist
  rw [Record.extras_of_texts fun e he => h.texts e (hsub.subset he), Table.ofEntries_of_nodup]
  · rfl
  exact ((List.filter_sublist.trans hsub).map _).nodup h.nodup

omit henc in
/-- An entry is left over when no setting is read, or fails to be read, under its name. -/
private theorem mem_leftOver_iff (hr : IsRecoverable raw) {e : Scalar × Value} (he : e ∈ raw) :
    e ∈ leftOver raw ↔ ∀ s : Setting, s.Spares raw e.1 := by
  obtain ⟨t, ht⟩ := h.texts e he
  have hgiven : (Table.get? raw (.text t)).isSome = true := by
    obtain ⟨v, hv⟩ := Table.exists_get? he
    rw [ht] at hv
    exact Option.isSome_iff_exists.2 ⟨v, hv⟩
  have hused : e.1 ∉ (Record.usedNames (rest raw) declared).map Scalar.text ↔
      ∀ s : Setting, s.used? (rest raw) ≠ some t := by
    rw [usedNames_eq, ht]
    constructor
    · intro hnot s hs
      exact hnot (List.mem_map_of_mem (List.mem_filterMap.2 ⟨s, s.mem_all, hs⟩))
    · intro hall hmem
      obtain ⟨t', ht', hk⟩ := List.mem_map.1 hmem
      cases hk
      obtain ⟨s, -, hs⟩ := List.mem_filterMap.1 ht'
      exact hall s hs
  rw [leftOver, List.mem_filter, decide_eq_true_iff, hused, mem_rest_iff h hr.encodable he ht,
    ← forall_and, ht]
  apply forall_congr'
  intro s
  exact (Setting.spares_iff (isCleared_rest h hr.encodable s) (hr.apart s) hgiven).symm

omit h henc

/-- The second reading succeeds only where at most one name of each setting is bad. -/
theorem isRecoverable_of_ofFields (h : raw.HasNames) (hok : ofFields (rest raw) = .ok m) :
    IsRecoverable raw := by
  by_cases henc : Record.IsEncodable raw
  · refine ⟨henc, ?_⟩
    intro s
    have hcheck : check (rest raw) = .ok m := (Record.guarded_eq_ok.1 hok).2
    exact Setting.isApart_of_readFrom (isCleared_rest h henc s) ((check_eq_ok.1 hcheck).settings s)
  · -- The problem with the key has no place, so that nothing is left out of the second reading.
    have hfail : ofFields raw = Checked.fail .undecodable :=
      Record.guarded_of_not_isEncodable henc _
    have hrest : rest raw = raw := by
      rw [rest, hfail]
      apply List.filter_eq_self.2
      intro e he
      apply decide_eq_true
      intro p hp
      rw [List.mem_singleton.1 hp]
      exact nofun
    rw [hrest, hfail] at hok
    cases hok

private theorem isReadApart_of_isRecoverable (h : raw.HasNames) (hr : IsRecoverable raw) :
    ∃ m, ofFields (rest raw) = .ok m ∧ IsReadApart raw m := by
  have hsub : (rest raw).Sublist raw := List.filter_sublist
  refine ⟨ofSettings (fun s => (s.recovered? raw).getD (s.get default)) (leftOver raw), ?_, ?_⟩
  · have henc : Record.IsEncodable (rest raw) := by
      intro e he
      exact hr.encodable e (hsub.subset he)
    rw [ofFields, Record.guarded_of_isEncodable henc]
    refine check_eq_ok.2 ⟨?_, extras_rest h⟩
    intro s
    rw [get_ofSettings]
    exact Setting.readFrom_of_isCleared (isCleared_rest h hr.encodable s) (hr.apart s)
  · refine ⟨get_ofSettings _ _, List.filter_sublist.trans hsub, ?_⟩
    intro e he
    exact mem_leftOver_iff h hr he

/-- Of a mapping with names for keys each setting is read apart and the other entries are kept,
whatever else cannot be read, as long as no setting is bad under both of its names and every key can
be encoded. Otherwise all settings are lost. -/
theorem coerce_recovers (h : raw.HasNames) :
    (IsRecoverable raw → IsReadApart raw (coerce (.value (.map raw))).1) ∧
      (¬ IsRecoverable raw → (coerce (.value (.map raw))).1 = default) := by
  have hcoerce : (coerce (.value (.map raw))).1 = (ofFields (rest raw)).toOption.getD default :=
    coerce_of_texts h.texts
  rw [hcoerce]
  constructor
  · intro hr
    obtain ⟨m, hm, hapart⟩ := isReadApart_of_isRecoverable h hr
    rw [hm]
    exact hapart
  · intro hr
    cases hm : ofFields (rest raw) with
    | error ps => rfl
    | ok m => exact absurd (isRecoverable_of_ofFields h hm) hr

/-- Settings of which some cannot be read, one only under its preferred name and one only under its
other name. -/
def mixedSettings : Fields :=
  [("name", "wf"), ("timeout", "soon"), ("executionMode", .list []),
    ("execution_mode", "parallel"), ("maxRetries", "5"), ("max_retries", "many"),
    ("viewport", .list [.int 1]), ("theme", .int 1)]

/-- A setting that cannot be read under either of its names. -/
def tornSettings : Fields :=
  [("name", "wf"), ("executionMode", .int 1), ("execution_mode", .int 2), ("theme", .int 1)]

private theorem hasNames_tornSettings : tornSettings.HasNames := by
  refine ⟨by decide, ?_⟩
  simp only [tornSettings, List.forall_mem_cons]
  exact ⟨⟨_, rfl⟩, ⟨_, rfl⟩, ⟨_, rfl⟩, ⟨_, rfl⟩, nofun⟩

theorem coerce_recovers_mixed :
    (∃ m, (coerce (.value (.map mixedSettings))).1 = m ∧ m.name = "wf" ∧ m.timeout = 300000 ∧
      m.executionMode = "parallel" ∧ m.maxRetries = 5 ∧ m.extras.Sublist mixedSettings ∧
      ∀ e ∈ mixedSettings, e ∈ m.extras ↔ e.1 = "max_retries" ∨ e.1 = "theme") ∧
    (coerce (.value (.map tornSettings))).1 = default := by
  have hmixed : mixedSettings.HasNames := by
    refine ⟨by decide, ?_⟩
    simp only [mixedSettings, List.forall_mem_cons]
    exact ⟨⟨_, rfl⟩, ⟨_, rfl⟩, ⟨_, rfl⟩, ⟨_, rfl⟩, ⟨_, rfl⟩, ⟨_, rfl⟩, ⟨_, rfl⟩, ⟨_, rfl⟩, nofun⟩
  constructor
  · have hr : IsRecoverable mixedSettings := by
      refine ⟨Record.any_eq_false_iff.1 (by decide +kernel), ?_⟩
      intro s
      unfold Setting.IsApart
      cases s <;> decide +kernel
    obtain ⟨hapart, -⟩ := coerce_recovers hmixed
    obtain ⟨hsettings, hsub, hextras⟩ := hapart hr
    have hspared : ∀ e ∈ mixedSettings, (∀ s ∈ Setting.all, s.Spares mixedSettings e.1) ↔
        e.1 = "max_retries" ∨ e.1 = "theme" := by decide +kernel
    refine ⟨_, rfl, hsettings .name, hsettings .timeout, hsettings .executionMode,
      hsettings .maxRetries, hsub, fun e he => ?_⟩
    rw [hextras e he, ← hspared e he]
    exact forall_congr' fun s => (imp_iff_right s.mem_all).symm
  · refine (coerce_recovers hasNames_tornSettings).2 fun hr => ?_
    have hsame := hr.apart .executionMode "executionMode" (by decide) "execution_mode" (by decide)
      (by decide +kernel) (by decide +kernel)
    exact absurd hsame (by decide)

theorem not_recovers_each : ¬ ∀ raw : Fields, raw.HasNames →
    (∀ (s : Setting) (n : Text) (v : Value) (a : s.Kind), Record.given? raw s.names = some (n, v) →
      s.read v = .ok a → s.get (coerce (.value (.map raw))).1 = a) ∧
    ∀ e ∈ raw, (∀ s : Setting, ∀ n ∈ s.names, e.1 ≠ .text n) →
      e ∈ (coerce (.value (.map raw))).1.extras := by
  intro h
  have hname : (coerce (.value (.map tornSettings))).1.name = "wf" :=
    (h tornSettings hasNames_tornSettings).1 .name "name" "wf" _ rfl rfl
  exact absurd hname (by decide +kernel)

end

end Flowchart.Metadata
