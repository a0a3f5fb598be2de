import Flowchart.Proofs.Compile
/-! Settings that are written out and read again. Each declared entry is read as it was written, and
entries of other names are kept. Only the numbers of a viewport may change their kind, not their
value, and an empty name or description is replaced by the default. -/
namespace Flowchart

namespace Fields
variable {es fs : Fields}

/-- The keys are texts, and no two are alike. -/
structure HasNames (fs : Fields) : Prop where
  nodup : (fs.map fun e => e.1.key).Nodup
  texts : ∀ e ∈ fs, ∃ t, e.1 = .text t

/-- The same keys in the same order, with scalars that are alike as keys: numbers of one value. -/
def EqByValue (es fs : Fields) : Prop :=
  List.Forall₂ (fun e f => e.1 = f.1 ∧ ∃ s t, e.2 = .scalar s ∧ f.2 = .scalar t ∧ s.key = t.key) es fs

/-- Names with numbers, each of which is read as a number of its value. -/
def AreNumbers (fs : Fields) : Prop :=
  fs.HasNames ∧ ∀ e ∈ fs, ∃ s d, e.2 = .scalar s ∧ Lenient.number e.2 = .ok d ∧
    s.key = (Scalar.double d).key

theorem AreNumbers.sublist (h : es.AreNumbers) (hs : fs.Sublist es) : fs.AreNumbers :=
  ⟨⟨(hs.map _).nodup h.1.nodup, fun e he => h.1.texts e (hs.subset he)⟩,
    fun e he => h.2 e (hs.subset he)⟩

end Fields

namespace Lenient
variable {numeric : Bool} {item : Value → Checked Value} {es fs : Fields}

theorem of_entries (h : entries numeric item es = .ok fs) :
    fs.HasNames ∧ ∀ f ∈ fs, ∃ e ∈ es, item e.2 = .ok f.2 := by
  obtain ⟨kvs, hkvs, rfl⟩ := Checked.map_eq_ok.1 h
  rw [Checked.all_eq_ok] at hkvs
  refine ⟨⟨Table.nodup_ofEntries _, fun f hf => ?_⟩, fun f hf => ?_⟩
  all_goals
    obtain ⟨d, hd, hk, hv⟩ := Table.exists_of_mem_ofEntries hf
    obtain ⟨kv, hkv, rfl⟩ := List.mem_map.1 hd
  · exact ⟨kv.1, Scalar.key_eq_text.1 hk.symm⟩
  · obtain ⟨e, hmem, he⟩ := List.mem_map.1 (hkvs ▸ List.mem_map_of_mem (f := Except.ok) hkv)
    simp only [Checked.and_eq_ok, Checked.under_eq_ok] at he
    exact ⟨e, hmem, hv ▸ he.2⟩

/-- Named entries keep their keys and their order. -/
private theorem exists_entries (numeric : Bool) (item : Value → Checked Value) (hn : es.HasNames)
    (h : ∀ e ∈ es, ∃ v, item e.2 = .ok v) :
    ∃ fs, entries numeric item es = .ok fs ∧
      List.Forall₂ (fun f e => f.1 = e.1 ∧ item e.2 = .ok f.2) fs es := by
  obtain ⟨kvs, hall, hkvs⟩ : ∃ kvs : List (Text × Value),
      (es.map fun e => (((text numeric e.1).under (.name "[key]")).under e.1.step).and
        ((item e.2).under e.1.step)) = kvs.map .ok ∧
      List.Forall₂ (fun kv e => .text kv.1 = e.1 ∧ item e.2 = .ok kv.2) kvs es := by
    replace hn := hn.texts
    induction es with
    | nil => exact ⟨[], rfl, .nil⟩
    | cons e es ih =>
      obtain ⟨⟨t, ht⟩, hn⟩ := List.forall_mem_cons.1 hn
      obtain ⟨⟨v, hv⟩, h⟩ := List.forall_mem_cons.1 h
      obtain ⟨kvs, hall, hkvs⟩ := ih h hn
      refine ⟨(t, v) :: kvs, ?_, .cons ⟨ht.symm, hv⟩ hkvs⟩
      rw [List.map_cons, hall, ht, hv]
      rfl
  have hfs : List.Forall₂ (fun f e => f.1 = e.1 ∧ item e.2 = .ok f.2)
      (kvs.map fun kv => (Scalar.text kv.1, kv.2)) es := List.forall₂_map_left_iff.2 hkvs
  have hkeys : ((kvs.map fun kv => (Scalar.text kv.1, kv.2)).map fun f => f.1.key) =
      es.map fun e => e.1.key :=
    (map_eq_of_forall₂ hfs fun f e h => congrArg Scalar.key h.1.symm).symm
  refine ⟨_, Checked.map_eq_ok.2 ⟨kvs, Checked.all_eq_ok.2 hall, ?_⟩, hfs⟩
  exact Table.ofEntries_of_nodup (hkeys ▸ hn.nodup)

theorem hasNames_of_mapping {v : Value} (h : mapping numeric v = .ok fs) : fs.HasNames := by
  cases v with
  | map es => exact (of_entries h).1
  | _ => cases h

theorem of_numbers {v : Value} (h : numbers numeric v = .ok fs) :
    fs.HasNames ∧ ∀ f ∈ fs, ∃ d, f.2 = .double d := by
  cases v with
  | map es =>
    have hentries : entries numeric (fun v => (number v).map Value.double) es = .ok fs := h
    obtain ⟨hn, hitem⟩ := of_entries hentries
    refine ⟨hn, fun f hf => ?_⟩
    obtain ⟨e, -, he⟩ := hitem f hf
    obtain ⟨d, -, hd⟩ := Checked.map_eq_ok.1 he
    exact ⟨d, hd.symm⟩
  | _ => cases h

theorem areNumbers_of_numbers {v : Value} (h : numbers numeric v = .ok fs) : fs.AreNumbers := by
  obtain ⟨hnames, hdoubles⟩ := of_numbers h
  refine ⟨hnames, fun e he => ?_⟩
  obtain ⟨d, hd⟩ := hdoubles e he
  rw [hd]
  exact ⟨.double d, d, rfl, rfl, rfl⟩

/-- A mapping of names is read as it is. -/
theorem mapping_of_hasNames (h : fs.HasNames) : mapping numeric (.map fs) = .ok fs := by
  obtain ⟨gs, hgs, hread⟩ := exists_entries numeric .ok h fun e _ => ⟨e.2, rfl⟩
  have hsame : gs = fs := by
    refine List.forall₂_eq_eq_eq ▸ hread.imp fun f e hfe => ?_
    exact Prod.ext hfe.1 (Except.ok.inj hfe.2).symm
  rw [hsame] at hgs
  exact hgs

theorem exists_numbers (numeric : Bool) (h : fs.AreNumbers) :
    ∃ gs, numbers numeric (.map fs) = .ok gs ∧ Fields.EqByValue gs fs := by
  obtain ⟨gs, hgs, hread⟩ := exists_entries numeric (fun v => (number v).map Value.double) h.1
    fun e he => by
      obtain ⟨s, d, -, hd, -⟩ := h.2 e he
      exact ⟨.double d, Checked.map_eq_ok.2 ⟨d, hd, rfl⟩⟩
  refine ⟨gs, hgs, ((List.forall₂_and_left _ _).2 ⟨h.2, hread.flip⟩).flip.imp fun f e hfe => ?_⟩
  obtain ⟨⟨s, d, hs, hd, hk⟩, hkey, hread⟩ := hfe
  obtain ⟨d', hd', hf⟩ := Checked.map_eq_ok.1 hread
  obtain rfl := Except.ok.inj (hd.symm.trans hd')
  exact ⟨hkey, .double d, s, hf.symm, hs, hk.symm⟩

end Lenient

namespace Metadata
variable {raw x : Fields} {m : Metadata} {v : Value} {s : Setting}

theorem Setting.mem_all (s : Setting) : s ∈ all := by
  cases s <;> decide

/-! ## Reading -/

/-- Each setting is read from the mapping, and the other entries are kept. -/
structure ReadFrom (raw : Fields) (m : Metadata) : Prop where
  settings : ∀ s : Setting, s.readFrom raw = .ok (s.get m)
  extras : Record.extras declared raw = .ok m.extras

theorem get_ofSettings (f : (s : Setting) → s.Kind) (x : Fields) (s : Setting) :
    s.get (ofSettings f x) = f s := by
  cases s <;> rfl

/-- What is read from the list, with the defaults for the other settings. -/
private theorem readAll_eq_ok {ss : List Setting} {f : (s : Setting) → s.Kind} :
    readAll raw ss = .ok f ↔
    ∀ s, if s ∈ ss then s.readFrom raw = .ok (f s) else f s = s.get default := by
  induction ss generalizing f with
  | nil =>
    simp only [readAll, Except.ok.injEq, List.not_mem_nil, if_false]
    exact ⟨fun h s => (congrFun h s).symm, fun h => funext fun s => (h s).symm⟩
  | cons t ss ih =>
    simp only [readAll, Checked.map_eq_ok, Checked.and_eq_ok]
    constructor
    · rintro ⟨⟨a, g⟩, ⟨ha, hg⟩, rfl⟩ s
      by_cases hs : t = s
      · subst hs
        simpa using ha
      · have := ih.1 hg s
        simpa [hs, Ne.symm hs] using this
    · intro h
      refine ⟨(f t, fun s => if s ∈ ss then f s else s.get default), ⟨?_, ih.2 fun s => ?_⟩, ?_⟩
      · simpa using h t
      · have := h s
        by_cases hs : s ∈ ss
        · simpa [hs] using this
        · simp [hs]
      · funext s
        have := h s
        by_cases ht : t = s
        · subst ht
          simp
        · by_cases hs : s ∈ ss
          · simp [ht, hs]
          · simpa [ht, hs, Ne.symm ht, eq_comm] using this

theorem check_eq_ok : check raw = .ok m ↔ ReadFrom raw m := by
  simp only [check, Checked.map_eq_ok, Checked.and_eq_ok, readAll_eq_ok, Setting.mem_all, if_true]
  constructor
  · rintro ⟨⟨f, x⟩, ⟨hf, hx⟩, rfl⟩
    exact ⟨fun s => by rw [get_ofSettings]; exact hf s, hx⟩
  · intro h
    exact ⟨(fun s => s.get m, m.extras), ⟨h.settings, h.extras⟩, rfl⟩

theorem ofFields_eq_ok : ofFields raw = .ok m ↔ Record.IsEncodable raw ∧ ReadFrom raw m := by
  rw [ofFields, Record.guarded_eq_ok, check_eq_ok]
  rfl

/-- A setting has its default, or is read from an entry under one of its names. -/
theorem ReadFrom.cases (h : ReadFrom raw m) (s : Setting) : s.get m = s.get default ∨
    ∃ e ∈ raw, (∃ n ∈ s.names, e.1 = .text n) ∧ s.read e.2 = .ok (s.get m) := by
  obtain hd | ⟨n, hn, v, hv, hread⟩ := Record.of_optional (h.settings s)
  · exact .inl hd
  · obtain ⟨e, he, hk, rfl⟩ := Table.exists_of_get? hv
    exact .inr ⟨e, he, ⟨n, hn, Scalar.key_eq_text.1 hk⟩, hread⟩

/-! ## Other entries -/

/-- The preferred names of the declared entries. -/
def preferred : List Text := Setting.all.map Setting.key

/-- The keys are texts that can be encoded and are none of the preferred names. -/
def HasOtherNames (x : Fields) : Prop :=
  ∀ e ∈ x, ∃ t, e.1 = .text t ∧ Lenient.hasSurrogate t = false ∧ t ∉ preferred

/-- Entries that can be kept beside the declared ones. -/
structure AreExtras (x : Fields) : Prop where
  nodup : (x.map fun e => e.1.key).Nodup
  names : HasOtherNames x

theorem AreExtras.update {es : Fields} (h : AreExtras x) (hes : HasOtherNames es) :
    AreExtras (Table.update x es) := by
  refine ⟨Table.nodup_update h.nodup, fun e he => ?_⟩
  obtain he | ⟨d, hd, hk, -⟩ := Table.exists_of_mem_update he
  · exact h.names e he
  · obtain ⟨t, ht, hname⟩ := hes d hd
    rw [ht] at hk
    exact ⟨t, Scalar.key_eq_text.1 hk.symm, hname⟩

/-- No entry is kept under a preferred name. -/
def KeepsApart (m : Metadata) : Prop := ∀ e ∈ m.extras, ∀ t ∈ preferred, e.1 ≠ .text t

instance (m : Metadata) : Decidable m.KeepsApart :=
  inferInstanceAs (Decidable (∀ e ∈ m.extras, ∀ t ∈ preferred, e.1 ≠ .text t))

theorem keepsApart_default : default.KeepsApart := nofun

private theorem ReadFrom.areExtras (h : ReadFrom raw m) (henc : Record.IsEncodable raw)
    (ha : m.KeepsApart) : AreExtras m.extras := by
  obtain ⟨hnodup, hnames⟩ := Record.of_extras h.extras
  refine ⟨hnodup, fun e he => ?_⟩
  obtain ⟨t, ht, -, r, hr, hname, -⟩ := hnames e he
  exact ⟨t, ht, henc r hr t hname, fun hp => ha e he t hp ht⟩

/-- Only octets can be kept under a preferred name: a text that is one is read. -/
theorem keepsApart_of_ofFields (hraw : ∀ e ∈ raw, ∀ os, e.1 ≠ .bytes os)
    (h : ofFields raw = .ok m) : m.KeepsApart := by
  intro e he t hp ht
  obtain ⟨t', ht', hused, r, hr, hname, -⟩ :=
    (Record.of_extras (ofFields_eq_ok.1 h).2.extras).2 e he
  obtain rfl := Scalar.text.inj (ht'.symm.trans ht)
  have hkey : r.1 = .text t' := by
    unfold Record.name? at hname
    split at hname
    · next hk =>
      cases hname
      exact hk
    · next os hk => exact absurd hk (hraw r hr os)
    · cases hname
  obtain ⟨s, hs, rfl⟩ := List.mem_map.1 hp
  obtain ⟨v, hv⟩ := Table.exists_get? hr
  rw [hkey] at hv
  exact hused (Record.mem_usedNames (List.mem_map_of_mem hs) hv)

/-! ## Writing out and reading again -/

/-- What can be written out and read again as it is, but for an empty name or description. -/
structure IsSound (m : Metadata) : Prop where
  retryPolicy : m.retryPolicy.HasNames
  viewport : m.viewport.AreNumbers
  extras : AreExtras m.extras

/-- Given settings are sound, and from a given value nothing is kept under a preferred name. -/
def Source.IsSound : Source → Prop
  | .value v => (coerce (.value v)).1.KeepsApart
  | .settings m => m.IsSound

theorem areNumbers_default : default.viewport.AreNumbers := by
  have hread : Lenient.mapping false (.map default.viewport) = .ok default.viewport := by
    decide +kernel
  refine ⟨Lenient.hasNames_of_mapping hread, ?_⟩
  simp only [default, List.forall_mem_cons]
  exact ⟨⟨.int 0, .ofInt 0, rfl, by decide +kernel, by decide +kernel⟩,
    ⟨.int 0, .ofInt 0, rfl, by decide +kernel, by decide +kernel⟩,
    ⟨.int 1, .ofInt 1, rfl, by decide +kernel, by decide +kernel⟩, nofun⟩

private theorem hasNames_default : default.retryPolicy.HasNames := by
  have hread : Lenient.mapping false (.map default.retryPolicy) = .ok default.retryPolicy := by
    decide +kernel
  exact Lenient.hasNames_of_mapping hread

/-- The default viewport has whole numbers, one that was read has doubles. -/
theorem isSound_of_ofFields (h : ofFields raw = .ok m) (ha : m.KeepsApart) : m.IsSound := by
  obtain ⟨henc, h⟩ := ofFields_eq_ok.1 h
  refine ⟨?_, ?_, h.areExtras henc ha⟩
  · obtain hd | ⟨e, -, -, hread⟩ := h.cases .retryPolicy
    · exact (show m.retryPolicy = default.retryPolicy from hd) ▸ hasNames_default
    · exact Lenient.hasNames_of_mapping hread
  · obtain hd | ⟨e, -, -, hread⟩ := h.cases .viewport
    · exact (show m.viewport = default.viewport from hd) ▸ areNumbers_default
    · exact Lenient.areNumbers_of_numbers hread

theorem isSound_default : default.IsSound := by
  have hread : ofFields [] = .ok default := rfl
  exact isSound_of_ofFields hread keepsApart_default

/-- The defaults stand in the place of an empty name and an empty description. -/
def filled (m : Metadata) : Metadata :=
  { m with
    name := if m.name = Text.empty then default.name else m.name
    description := if m.description = Text.empty then default.description else m.description }

theorem filled_eq_self : m.filled = m ↔ m.name ≠ Text.empty ∧ m.description ≠ Text.empty := by
  have hname : default.name ≠ Text.empty := by decide
  have hdescription : default.description ≠ Text.empty := by decide
  constructor
  · intro h
    constructor
    · intro he
      have hm : m.filled.name = default.name := if_pos he
      rw [h, he] at hm
      exact hname hm.symm
    · intro he
      have hm : m.filled.description = default.description := if_pos he
      rw [h, he] at hm
      exact hdescription hm.symm
  · rintro ⟨hn, hd⟩
    rw [filled, if_neg hn, if_neg hd]

/-- The declared entries are written under the preferred names. -/
private theorem names_ownFields (m : Metadata) : m.ownFields.map (·.1) = preferred.map .text := rfl

private theorem exists_preferred {e : Scalar × Value} (he : e ∈ m.ownFields) :
    ∃ t ∈ preferred, e.1 = .text t := by
  obtain ⟨t, ht, hk⟩ := List.mem_map.1 (names_ownFields m ▸ List.mem_map_of_mem he)
  exact ⟨t, ht, hk.symm⟩

private theorem get?_ownFields (s : Setting) :
    Table.get? (m.ownFields ++ x) (.text s.key) = some (s.toValue m) := by
  have hnodup : (m.ownFields.map fun e => e.1.key).Nodup := by
    change (preferred.map Key.text).Nodup
    decide +kernel
  have hmem : (Scalar.text s.key, s.toValue m) ∈ m.ownFields := List.mem_map_of_mem s.mem_all
  rw [Table.get?_append, show Key.text s.key = (Scalar.text s.key).key from rfl,
    Table.get?_of_mem hnodup hmem]
  rfl

private theorem usedNames_ownFields : Record.usedNames (m.ownFields ++ x) declared = preferred := by
  rw [Record.usedNames, declared, List.filterMap_map, preferred, ← List.filterMap_eq_map]
  refine List.filterMap_congr fun s _ => ?_
  rw [Function.comp_apply, Setting.names, Record.given?_of_get? (get?_ownFields s)]
  rfl

private theorem extras_ownFields (hx : AreExtras x) :
    Record.extras declared (m.ownFields ++ x) = .ok x := by
  refine Record.extras_append (fun e he => ?_) (fun e he => ?_) hx.nodup
  · rw [usedNames_ownFields]
    exact exists_preferred he
  · rw [usedNames_ownFields]
    obtain ⟨t, hk, -, ht⟩ := hx.names e he
    exact ⟨t, hk, ht⟩

/-- Entries of other names are set among the extras. -/
theorem update_ownFields {es : Fields} (hes : HasOtherNames es) :
    Table.update (m.ownFields ++ x) es = m.ownFields ++ Table.update x es := by
  refine Table.update_append fun e he d hd hk => ?_
  obtain ⟨s, hs, hes'⟩ := exists_preferred he
  obtain ⟨t, hdt, -, ht⟩ := hes d hd
  rw [hes', hdt, Scalar.key_text, Scalar.key_text, Key.text.injEq] at hk
  exact ht (hk ▸ hs)

theorem toFields_of_areExtras (h : AreExtras m.extras) : m.toFields = m.ownFields ++ m.extras := by
  have hown := update_ownFields (m := m) (x := []) h.names
  rw [List.append_nil] at hown
  rw [toFields, hown, Table.update_of_nodup h.nodup]
  rfl

private theorem preferred_encodable : ∀ t ∈ preferred, Lenient.hasSurrogate t = false := by
  decide +kernel

private theorem Setting.isUnset_text {t : Text} (s : Setting) (ht : t ≠ Text.empty) :
    s.isUnset t = false := by
  have hempty : Text.ofString "" = Text.empty := rfl
  simp [isUnset, hempty, ht]

/-- The empty text is read as the default, every other text as it is. -/
private theorem read_eq_ite (s : Setting) (read : Text → Checked Text) {d t : Text}
    (hread : ∀ t : Text, s.isUnset t = false → read t = .ok t) (hd : read Text.empty = .ok d) :
    read t = .ok (if t = Text.empty then d else t) := by
  by_cases ht : t = Text.empty
  · rw [if_pos ht, ht, hd]
  · rw [if_neg ht, hread t (s.isUnset_text ht)]

/-- A setting is read as it was written, or as its default. -/
theorem IsSound.read_toValue (h : m.IsSound) (hs : s ≠ .viewport) :
    s.read (s.toValue m) = .ok (s.get m.filled) := by
  have hread {s : Setting} {t : Text} (ht : s.isUnset t = false) :
      s.read t = s.form.read t := by
    rw [Setting.read, ht]
    rfl
  cases s with
  | name => exact read_eq_ite .name (fun t => Setting.name.read t) (fun _ ht => hread ht) rfl
  | description =>
    exact read_eq_ite .description (fun t => Setting.description.read t) (fun _ ht => hread ht) rfl
  | retryPolicy => exact Lenient.mapping_of_hasNames h.retryPolicy
  | viewport => exact absurd rfl hs
  | _ => rfl

/-- Sound settings are read as they were written, with other extras in the place of theirs. -/
theorem ofFields_ownFields (h : m.IsSound) (hx : AreExtras x) : ∃ viewport,
    ofFields (m.ownFields ++ x) = .ok { m.filled with viewport, extras := x } ∧
      Fields.EqByValue viewport m.viewport := by
  obtain ⟨viewport, hviewport, hvalue⟩ := Lenient.exists_numbers false h.viewport
  refine ⟨viewport, ofFields_eq_ok.2 ⟨fun e he t ht => ?_, ⟨fun s => ?_, extras_ownFields hx⟩⟩,
    hvalue⟩
  · rcases List.mem_append.1 he with he | he
    · obtain ⟨n, hn, hk⟩ := exists_preferred he
      rw [hk] at ht
      cases ht
      exact preferred_encodable t hn
    · obtain ⟨n, hk, henc, -⟩ := hx.names e he
      rw [hk] at ht
      cases ht
      exact henc
  · refine Record.optional_of_get? (get?_ownFields s) ?_
    by_cases hs : s = .viewport
    · subst hs
      exact hviewport
    · rw [h.read_toValue hs]
      cases s with
      | viewport => exact absurd rfl hs
      | _ => rfl

end Metadata

end Flowchart
