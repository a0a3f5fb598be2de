import Flowchart.Proofs.EditorRecord
import Flowchart.Proofs.Reload
/-! Ids and ends of an export, read by the import and record by record as the editor's. Both ways
make texts of ids, and derive the id of an edge that has none. They differ on octets, which are
decoded by the import alone, and on an edge whose id is the number zero: it is an id to the import,
and none to the editor. -/
namespace Flowchart

namespace Value

/-- What a record holds under a name. -/
def entry (v : Value) (name : Text) : Value :=
  match v with
  | map fs => Fields.value fs name
  | _ => null

/-- The record has an entry of the name. -/
def hasEntry (v : Value) (name : Text) : Bool :=
  match v with
  | map fs => (Table.get? fs (.text name)).isSome
  | _ => false

def isOctets : Value → Bool
  | scalar (.bytes _) => true
  | _ => false

/-- As the id of an edge the value is a zero, or some octets. -/
def isTornId : Value → Bool
  | int i => i == 0
  | double d => d.isZero
  | scalar (.bytes os) => !os.isEmpty
  | _ => false

end Value

/-- The items that an export lists under a name. -/
def Spec.listed (raw : Fields) (name : Text) : List Value :=
  (Table.get? raw (.text name)).elim [] fun v => v.members?.getD []

/-- The id of an edge and the ids of its ends. -/
def Edge.identity (e : Edge) : Scalar × Scalar × Scalar := (e.id, e.source, e.target)

namespace Text
variable {os : List Nat} {t : Text}

private theorem one_le_length_quotedOctet (q c : Nat) : 1 ≤ (quotedOctet q c).length := by
  have hquoted : 1 ≤ (quotedCode q c).length := by
    unfold quotedCode
    repeat' split
    all_goals simp
  unfold quotedOctet
  split
  · exact hquoted
  · simp

private theorem length_le_flatMap_quotedOctet (q : Nat) (os : List Nat) :
    os.length ≤ (os.flatMap (quotedOctet q)).length := by
  induction os with
  | nil => exact Nat.le_refl 0
  | cons o os ih =>
    have hone := one_le_length_quotedOctet q o
    rw [List.flatMap_cons, List.length_append, List.length_cons]
    omega

/-- Octets between quotes are longer than the text that they decode to. -/
private theorem quotedOctets_ne (h : ofUtf8? os = some t) : quotedOctets os ≠ t := by
  rintro rfl
  have hle := length_le_of_ofUtf8? h
  have hmore := length_le_flatMap_quotedOctet (quoteFor os) os
  simp only [quotedOctets, List.length_append, List.length_cons, List.length_nil] at hle
  omega

end Text

section
variable {α β γ : Type} {v : Value} {t : Text} {vs : List Value} {as : List α}

/-- A text, octets that decode to one, or a number. -/
theorem Lenient.of_text (h : Lenient.text true v = .ok t) :
    v = .text t ∨ (∃ os, v = .scalar (.bytes os) ∧ Text.ofUtf8? os = some t) ∨
      (∃ i, v = .int i ∧ Text.ofInt i = t) ∨ ∃ d, v = .double d ∧ d.text = t := by
  unfold Lenient.text at h
  split at h
  · cases h
    exact .inl rfl
  · next os =>
    split at h
    · next hos =>
      cases h
      exact .inr (.inl ⟨os, rfl, hos⟩)
    · cases h
  · next i =>
    cases h
    exact .inr (.inr (.inl ⟨i, rfl, rfl⟩))
  · next d =>
    cases h
    exact .inr (.inr (.inr ⟨d, rfl, rfl⟩))
  · cases h

private theorem display_eq_iff (h : Lenient.text true v = .ok t) :
    t = v.display ↔ v.isOctets = false := by
  rcases Lenient.of_text h with rfl | ⟨os, rfl, hos⟩ | ⟨i, rfl, rfl⟩ | ⟨d, rfl, rfl⟩
  · exact iff_of_true rfl rfl
  · exact iff_of_false (Text.quotedOctets_ne hos).symm (Bool.not_eq_false _ ▸ rfl)
  · exact iff_of_true rfl rfl
  · exact iff_of_true rfl rfl

/-- Two ways to read items agree on a list when they agree on each of its items. -/
private theorem exists_mapM_agree {read : Value → Checked α} {f : Value → Except Fault β}
    {g : α → γ}
    {h : β → γ} {p : Value → Prop} (hread : List.Forall₂ (fun v a => read v = .ok a) vs as)
    (hone : ∀ v ∈ vs, ∀ a, read v = .ok a → ∃ b, f v = .ok b ∧ (g a = h b ↔ p v)) :
    ∃ bs, vs.mapM f = .ok bs ∧ (as.map g = bs.map h ↔ ∀ v ∈ vs, p v) := by
  induction hread with
  | nil => exact ⟨[], rfl, iff_of_true rfl (List.forall_mem_nil _)⟩
  | @cons v a vs as hv _ ih =>
    obtain ⟨hfirst, hrest⟩ := List.forall_mem_cons.1 hone
    obtain ⟨b, hb, hagree⟩ := hfirst a hv
    obtain ⟨bs, hbs, hagrees⟩ := ih hrest
    refine ⟨b :: bs, ?_, ?_⟩
    · rw [List.mapM_cons, hb, hbs]
      rfl
    · rw [List.map_cons, List.map_cons, List.cons.injEq, hagree, hagrees, List.forall_mem_cons]

end

section
variable {raw fs : Fields} {name t derived : Text} {v : Value} {default a : Fields} {n : NodeSpec}
  {e : EdgeSpec} {i : Option Text} {s : Spec}

private theorem value_of_get? (h : Table.get? raw (.text name) = some v) : raw.value name = v := by
  rw [Fields.value, h, Option.getD_some]

/-- An entry that the import reads as a mapping, or that is left out, is a mapping to the editor. -/
private theorem exists_fields? {read : Value → Checked Fields} (es : Fields)
    (hmap : ∀ v a, read v = .ok a → ∃ es, v = .map es)
    (h : Record.optional raw [name] default read = .ok a) :
    ∃ fs, (Fields.valueOr raw name (.map es)).fields? = .ok fs := by
  rw [Record.optional_singleton] at h
  cases hv : Table.get? raw (.text name) with
  | none => exact ⟨es, by rw [Fields.valueOr, Fields.value, hv]; rfl⟩
  | some v =>
    rw [hv] at h
    obtain ⟨fs, rfl⟩ := hmap v a (Checked.under_eq_ok.1 h)
    rw [Fields.valueOr, value_of_get? hv]
    cases fs with
    | nil => exact ⟨es, rfl⟩
    | cons f fs => exact ⟨f :: fs, rfl⟩

private theorem exists_map_of_mapping (v : Value) (a : Fields)
    (h : Lenient.mapping true v = .ok a) : ∃ es, v = .map es := by
  cases v with
  | map es => exact ⟨es, rfl⟩
  | _ => cases h

private theorem exists_map_of_numbers (v : Value) (a : Fields)
    (h : Lenient.numbers true v = .ok a) : ∃ es, v = .map es := by
  cases v with
  | map es => exact ⟨es, rfl⟩
  | _ => cases h

private theorem required?_of_get? (h : Table.get? raw (.text name) = some v) :
    raw.required? name = .ok v := by
  rw [Fields.required?, h]

/-- The editor reads each node that the import reads, with the same id unless it is octets. -/
theorem NodeSpec.exists_ofRecord? (h : ofValue v = .ok n) : ∃ m, Node.ofRecord? v = .ok m ∧
    (n.toNode.id = m.id ↔ (v.entry "id").isOctets = false) := by
  obtain ⟨raw, rfl, hcheck⟩ := Record.exists_of_read h
  obtain ⟨hid, -, hposition, hdata, -⟩ := check_eq_ok.1 hcheck
  obtain ⟨id, hget, hid⟩ := Record.exists_of_required hid
  obtain ⟨p, hp⟩ := exists_fields? Node.origin exists_map_of_numbers hposition
  obtain ⟨d, hd⟩ := exists_fields? [] exists_map_of_mapping hdata
  refine ⟨_, Node.ofRecord?_eq_ok.2 ⟨raw, id, p, d, rfl, required?_of_get? hget, hp, hd, rfl⟩, ?_⟩
  have hentry : (Value.map raw).entry "id" = id := value_of_get? hget
  rw [hentry, ← display_eq_iff hid]
  exact Scalar.text.injEq .. ▸ Iff.rfl

/-- What is not blank is read as a text that is not empty. -/
private theorem Lenient.isEmpty_of_text (h : Lenient.text true v = .ok t) (hv : v.isBlank = false) :
    t.isEmpty = false := by
  rcases Lenient.of_text h with rfl | ⟨os, rfl, hos⟩ | ⟨i, rfl, rfl⟩ | ⟨d, rfl, rfl⟩
  · exact hv
  · cases ht : t.isEmpty with
    | false => rfl
    | true =>
      obtain rfl : t = Text.empty := congrArg Text.mk (List.isEmpty_iff.1 ht)
      rw [Text.eq_nil_of_ofUtf8? hos] at hv
      cases hv
  · exact Text.isEmpty_ofInt i
  · exact d.isEmpty_text

private theorem Double.head?_text_of_isZero {d : Double} (h : d.isZero = true) :
    d.text.codes.head? ≠ some 101 := by
  cases d with
  | finite s m e =>
    obtain rfl : m = 0 := by
      cases m with
      | zero => rfl
      | succ m => cases h
    cases s <;> exact nofun
  | nan => cases h
  | infinite s => cases h

private theorem EdgeSpec.id_eq_of_blank (hd : derived.codes.head? = some 101)
    (hv : v.isBlank = true) (h : Lenient.text true v = .ok t) :
    (if t.isEmpty then derived else t) = derived ↔ v.isTornId = false := by
  have hne {t : Text} (ht : t.codes.head? ≠ some 101) : t ≠ derived := fun he => ht (he ▸ hd)
  rcases Lenient.of_text h with rfl | ⟨os, rfl, hos⟩ | ⟨i, rfl, rfl⟩ | ⟨d, rfl, rfl⟩
  · exact iff_of_true (if_pos hv) rfl
  · obtain rfl : os = [] := List.isEmpty_iff.1 hv
    obtain rfl : Text.empty = t := Option.some.inj hos
    exact iff_of_true rfl rfl
  · obtain rfl : i = 0 := beq_iff_eq.1 hv
    exact iff_of_false (hne nofun) nofun
  · have htorn : (Value.double d).isTornId = true := hv
    rw [d.isEmpty_text, htorn]
    exact iff_of_false (hne (Double.head?_text_of_isZero hv)) nofun

/-- The id that the import gives to an edge is the editor's, unless the given one is torn: a derived
id starts with a letter, unlike a number. -/
private theorem EdgeSpec.id_eq_iff (hd : derived.codes.head? = some 101)
    (h : Record.optional raw ["id"] none (Lenient.optionalText true) = .ok i) :
    (i.filter fun i => !i.isEmpty).getD derived = (Fields.valueOr raw "id" derived).display ↔
      (raw.value "id").isTornId = false := by
  rw [Record.optional_singleton] at h
  cases hv : Table.get? raw (.text "id") with
  | none =>
    rw [hv] at h
    cases h
    rw [Fields.valueOr, Fields.value, hv]
    exact iff_of_true rfl rfl
  | some v =>
    rw [hv] at h
    rw [Fields.valueOr, value_of_get? hv]
    replace h := Checked.under_eq_ok.1 h
    unfold Lenient.optionalText at h
    split at h
    · cases h
      exact iff_of_true rfl rfl
    · obtain ⟨t, ht, rfl⟩ := Checked.map_eq_ok.1 h
      have hkept : ((some t).filter fun i => !i.isEmpty).getD derived =
          if t.isEmpty then derived else t := by
        rw [Option.filter_some]
        cases t.isEmpty <;> rfl
      rw [hkept]
      cases hblank : v.isBlank with
      | true =>
        rw [Value.orElse_of_blank hblank]
        exact id_eq_of_blank hd hblank ht
      | false =>
        have htorn : v.isTornId = v.isOctets := by
          rcases Lenient.of_text ht with rfl | ⟨os, rfl, -⟩ | ⟨i, rfl, -⟩ | ⟨d, rfl, -⟩
          · rfl
          · exact congrArg (! ·) hblank
          · exact hblank
          · exact hblank
        rw [Value.orElse_of_not_blank hblank, Lenient.isEmpty_of_text ht hblank, htorn]
        exact display_eq_iff ht

/-- The editor reads each edge that the import reads and that has a source and a target. Id and ends
are the same unless an end is octets or the id is torn. -/
theorem EdgeSpec.exists_ofRecord? (h : ofValue v = .ok e) (hs : v.hasEntry "source" = true)
    (ht : v.hasEntry "target" = true) : ∃ f, Edge.ofRecord? v = .ok f ∧
      (e.toEdge.identity = f.identity ↔ (v.entry "source").isOctets = false ∧
        (v.entry "target").isOctets = false ∧ (v.entry "id").isTornId = false) := by
  obtain ⟨raw, rfl, hcheck⟩ := Record.exists_of_read h
  obtain ⟨hid, hsource, htarget, -, -, hdata, -⟩ := check_eq_ok.1 hcheck
  obtain ⟨s, hs⟩ := Option.isSome_iff_exists.1 hs
  obtain ⟨t, ht⟩ := Option.isSome_iff_exists.1 ht
  have hsource := display_eq_iff (Record.read_of_required hs hsource)
  have htarget := display_eq_iff (Record.read_of_required ht htarget)
  obtain ⟨d, hd⟩ := exists_fields? [] exists_map_of_mapping hdata
  refine ⟨_, Edge.ofRecord?_eq_ok.2
    ⟨raw, s, t, d, rfl, required?_of_get? hs, required?_of_get? ht, hd, rfl⟩, ?_⟩
  have hsentry : (Value.map raw).entry "source" = s := value_of_get? hs
  have htentry : (Value.map raw).entry "target" = t := value_of_get? ht
  have hidentity (i s' t' i' : Text) :
      (Scalar.text i, Scalar.text e.source, Scalar.text e.target) =
        (Scalar.text i', Scalar.text s', Scalar.text t') ↔
          e.source = s' ∧ e.target = t' ∧ i = i' := by
    simp only [Prod.mk.injEq, Scalar.text.injEq]
    exact and_rotate
  rw [hsentry, htentry, ← hsource, ← htarget]
  refine (hidentity ..).trans (and_congr_right fun hs => and_congr_right fun ht => ?_)
  rw [hs, ht]
  exact id_eq_iff rfl hid

/-- What an optional list holds is read item by item. -/
theorem Spec.forall₂_listed {α : Type} {read : Value → Checked α} {as : List α}
    (h : Record.optional raw [name] [] (items read) = .ok as) :
    List.Forall₂ (fun v a => read v = .ok a) (listed raw name) as := by
  rw [Record.optional_singleton] at h
  unfold listed
  cases hv : Table.get? raw (.text name) with
  | none =>
    rw [hv] at h
    cases h
    exact .nil
  | some v =>
    rw [hv] at h
    obtain ⟨vs, hvs, hall⟩ := forall₂_of_items (Checked.under_eq_ok.1 h)
    rw [Option.elim_some, hvs]
    exact hall

/-- An export whose edges have sources and targets is read by the import and by the editor. The ids
of its nodes are the same both ways unless one is octets; the ids and ends of its edges are the same
unless an end is octets, or an id is a zero or some octets. -/
theorem identities_eq_iff (h : Export.check (.map raw) = .ok s)
    (hends : ∀ v ∈ Spec.listed raw "edges",
      v.hasEntry "source" = true ∧ v.hasEntry "target" = true) :
    (∀ t, Yaml.read t = .ok (.map raw) → Export.load t = .ok s.toGraph) ∧
    (∃ ns, (Spec.listed raw "nodes").mapM Node.ofRecord? = .ok ns ∧
      (s.toGraph.nodes.map Node.id = ns.map Node.id ↔
        ∀ v ∈ Spec.listed raw "nodes", (v.entry "id").isOctets = false)) ∧
    ∃ es, (Spec.listed raw "edges").mapM Edge.ofRecord? = .ok es ∧
      (s.toGraph.edges.map Edge.identity = es.map Edge.identity ↔
        ∀ v ∈ Spec.listed raw "edges", (v.entry "source").isOctets = false ∧
          (v.entry "target").isOctets = false ∧ (v.entry "id").isTornId = false) := by
  obtain ⟨hnodes, hedges, -⟩ := Spec.optional_of_check h
  refine ⟨fun t ht => Export.load_eq_ok.2 ⟨raw, s, ht, h, rfl⟩, ?_, ?_⟩
  · obtain ⟨ns, hns, hiff⟩ := exists_mapM_agree (Spec.forall₂_listed hnodes)
      fun v _ n hn => NodeSpec.exists_ofRecord? hn
    exact ⟨ns, hns, by rw [← hiff, Spec.toGraph, List.map_map]; rfl⟩
  · obtain ⟨es, hes, hiff⟩ := exists_mapM_agree (Spec.forall₂_listed hedges)
      fun v hv e he => EdgeSpec.exists_ofRecord? he (hends v hv).1 (hends v hv).2
    exact ⟨es, hes, by rw [← hiff, Spec.toGraph, List.map_map]; rfl⟩

/-- Ids that are numbers, texts, empty, null or not there. -/
def looseExport : Fields :=
  [("nodes", .list [.map [("id", .int 7)], .map [("id", ""), ("type", "ifNode")],
      .map [("id", .double (.ofRatio false 3 2))]]),
    ("edges", .tuple [
      .map [("source", .int 7), ("target", ""), ("from", "a")],
      .map [("target", .int 7), ("id", .null), ("source", .double (.ofRatio false 3 2))],
      .map [("id", ""), ("source", ""), ("target", "")],
      .map [("id", .int (-1)), ("source", .int 0), ("target", "b")],
      .map [("id", .double (.ofInt 2)), ("source", "b"), ("target", .int 7)],
      .map [("id", "0"), ("source", "b"), ("target", "b")]])]

theorem identities_eq_iff_loose : ∃ s ns es, Export.check (.map looseExport) = .ok s ∧
    (Spec.listed looseExport "nodes").mapM Node.ofRecord? = .ok ns ∧
    (Spec.listed looseExport "edges").mapM Edge.ofRecord? = .ok es ∧
    s.toGraph.nodes.map Node.id = ns.map Node.id ∧ ns.map Node.id = ["7", "", "1.5"] ∧
    s.toGraph.edges.map Edge.identity = es.map Edge.identity ∧
    es.map Edge.id = ["e7-", "e1.5-7", "e-", "-1", "2.0", "0"] := by
  obtain ⟨s, h⟩ : ∃ s, Export.check (.map looseExport) = .ok s :=
    exists_of_isSome (by decide +kernel)
  obtain ⟨-, ⟨ns, hns, hnodes⟩, es, hes, hedges⟩ := identities_eq_iff h (by decide +kernel)
  have hnids : ((Spec.listed looseExport "nodes").mapM Node.ofRecord?).toOption.map
      (List.map Node.id) = some (["7", "", "1.5"] : List Scalar) := by decide +kernel
  have heids : ((Spec.listed looseExport "edges").mapM Edge.ofRecord?).toOption.map
      (List.map Edge.id) = some (["e7-", "e1.5-7", "e-", "-1", "2.0", "0"] : List Scalar) := by
    decide +kernel
  rw [hns] at hnids
  rw [hes] at heids
  exact ⟨s, ns, es, h, hns, hes, hnodes.2 (by decide +kernel), Option.some.inj hnids,
    hedges.2 (by decide +kernel), Option.some.inj heids⟩

/-- The id of the edge is the number zero. -/
def zeroExport : Fields :=
  [("edges", .list [.map [("id", .int 0), ("source", "a"), ("target", "b")]])]

theorem not_identities_eq : ¬ ∀ (raw : Fields) (s : Spec), Export.check (.map raw) = .ok s →
    (∀ v ∈ Spec.listed raw "edges", v.hasEntry "source" = true ∧ v.hasEntry "target" = true) →
    (∃ ns, (Spec.listed raw "nodes").mapM Node.ofRecord? = .ok ns ∧
      s.toGraph.nodes.map Node.id = ns.map Node.id) ∧
    ∃ es, (Spec.listed raw "edges").mapM Edge.ofRecord? = .ok es ∧
      s.toGraph.edges.map Edge.identity = es.map Edge.identity := by
  intro h
  have hcheck : Export.check (.map zeroExport) =
      .ok ⟨[], [⟨some "0", "a", "b", none, none, [], []⟩], Metadata.default⟩ := by decide +kernel
  obtain ⟨-, es, hes, hsame⟩ := h zeroExport _ hcheck (by decide +kernel)
  have hread : (Spec.listed zeroExport "edges").mapM Edge.ofRecord? =
      .ok [⟨"ea-b", "a", "b", .null, .null, some []⟩] := by decide +kernel
  obtain rfl := Except.ok.inj (hread.symm.trans hes)
  exact absurd hsame (by decide +kernel)

end

end Flowchart
