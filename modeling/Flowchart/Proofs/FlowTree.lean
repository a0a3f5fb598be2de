import Flowchart.Proofs.Tokens
/-! The YAML tree of a JSON text, and the value that is built from it. -/
namespace Flowchart.Json
open Yaml Yaml.Tree

mutual

/-- The tree that YAML takes a value for. -/
def Form.tree : Form → Yaml.Tree
  | .null => .scalar (Tag.ofPlain (codes Form.null.write)) (codes Form.null.write)
  | .bool b => .scalar (Tag.ofPlain (codes (Form.bool b).write)) (codes (Form.bool b).write)
  | .number n => .scalar (Tag.ofPlain (codes n.write)) (codes n.write)
  | .string s => .scalar .str s.codes
  | .emptyArray _ => .sequence .seq []
  | .array items => .sequence .seq items.trees
  | .emptyObject _ => .mapping .map []
  | .object entries => .mapping .map entries.trees

def Items.trees : Items → List Yaml.Tree
  | .last _ f _ => [f.tree]
  | .more _ f _ items => f.tree :: items.trees

def Entries.trees : Entries → List (Yaml.Tree × Yaml.Tree)
  | .last _ key _ _ f _ => [(.scalar .str key.codes, f.tree)]
  | .more _ key _ _ f _ entries => (.scalar .str key.codes, f.tree) :: entries.trees

end

/-! ## Trees from tokens -/

/-- A node begins with the token, and it has neither an anchor nor a tag. -/
def startsNode : Token → Bool
  | .scalar _ _ | .flowSequenceStart | .flowMappingStart => true
  | _ => false

private theorem Form.exists_tokens_eq (f : Form) :
    ∃ t ts, f.tokens = t :: ts ∧ startsNode t = true := by
  cases f <;> exact ⟨_, _, rfl, rfl⟩

private theorem Items.exists_tokens_eq (items : Items) :
    ∃ t ts, items.tokens = t :: ts ∧ startsNode t = true := by
  cases items with
  | last before f after =>
    obtain ⟨t, ts, hts, ht⟩ := f.exists_tokens_eq
    exact ⟨t, _, by rw [Items.tokens, hts]; rfl, ht⟩
  | more before f after items =>
    obtain ⟨t, ts, hts, ht⟩ := f.exists_tokens_eq
    exact ⟨t, _, by rw [Items.tokens, hts]; rfl, ht⟩

private theorem Entries.exists_tokens_eq (entries : Entries) :
    ∃ ts, entries.tokens = .key :: ts := by
  cases entries <;> exact ⟨_, rfl⟩

section
variable {fuel : Nat} {hs : Handles} {place : Place} {content : List Nat} {plain : Bool}
  {t : Token} {ts : List Token} {anchors : List (List Char × Yaml.Tree)}

private theorem node_scalar : node (fuel + 1) hs place ⟨.scalar content plain :: ts, anchors⟩ =
    .ok (.scalar (if plain then Tag.ofPlain content else .str) content, ⟨ts, anchors⟩) := by
  rw [node]
  cases plain <;> rfl

private theorem node_sequence : node (fuel + 1) hs place ⟨.flowSequenceStart :: ts, anchors⟩ =
    (flowItems fuel hs true ⟨ts, anchors⟩).map fun r => (.sequence .seq r.1, r.2) := by
  rw [node]
  simp only [properties, opened, bind, Except.bind, Feed.after]
  cases flowItems fuel hs true ⟨ts, anchors⟩ <;> rfl

private theorem node_mapping : node (fuel + 1) hs place ⟨.flowMappingStart :: ts, anchors⟩ =
    (flowEntries fuel hs true ⟨ts, anchors⟩).map fun r => (.mapping .map r.1, r.2) := by
  rw [node]
  simp only [properties, opened, bind, Except.bind, Feed.after]
  cases flowEntries fuel hs true ⟨ts, anchors⟩ <;> rfl

private theorem Items.flowItems_first (items : Items) :
    flowItems (fuel + 1) hs true ⟨items.tokens ++ ts, anchors⟩ =
      flowItem fuel hs ⟨items.tokens ++ ts, anchors⟩ := by
  obtain ⟨t, us, hus, ht⟩ := items.exists_tokens_eq
  rw [hus]
  cases t <;> first | rfl | simp [startsNode] at ht

private theorem Items.flowItems_comma (items : Items) :
    flowItems (fuel + 1) hs false ⟨.flowEntry :: (items.tokens ++ ts), anchors⟩ =
      flowItem fuel hs ⟨items.tokens ++ ts, anchors⟩ := by
  obtain ⟨t, us, hus, ht⟩ := items.exists_tokens_eq
  rw [hus]
  cases t <;> first | rfl | simp [startsNode] at ht

private theorem flowItems_of_end {first : Bool} :
    flowItems (fuel + 1) hs first ⟨.flowSequenceEnd :: ts, anchors⟩ = .ok ([], ⟨ts, anchors⟩) := by
  cases first <;> rfl

/-- An item and those after it. -/
private theorem flowItem_of_form {f : Form} (h : node fuel hs .flow ⟨f.tokens ++ ts, anchors⟩ =
      .ok (f.tree, ⟨ts, anchors⟩)) :
    flowItem (fuel + 1) hs ⟨f.tokens ++ ts, anchors⟩ =
      (flowItems fuel hs false ⟨ts, anchors⟩).map fun r => (f.tree :: r.1, r.2) := by
  have hitem : flowItem (fuel + 1) hs ⟨f.tokens ++ ts, anchors⟩ = (do
      let item ← node fuel hs .flow ⟨f.tokens ++ ts, anchors⟩
      let more ← flowItems fuel hs false item.2
      pure (item.1 :: more.1, more.2)) := by
    obtain ⟨t, us, hus, ht⟩ := f.exists_tokens_eq
    rw [hus]
    cases t <;> first | rfl | simp [startsNode] at ht
  rw [hitem, h]
  simp only [bind, Except.bind]
  cases flowItems fuel hs false ⟨ts, anchors⟩ <;> rfl

private theorem flowEntries_of_end {first : Bool} :
    flowEntries (fuel + 1) hs first ⟨.flowMappingEnd :: ts, anchors⟩ = .ok ([], ⟨ts, anchors⟩) := by
  cases first <;> rfl

private theorem Entries.flowEntries_first (entries : Entries) :
    flowEntries (fuel + 1) hs true ⟨entries.tokens ++ ts, anchors⟩ =
      flowEntry fuel hs ⟨entries.tokens ++ ts, anchors⟩ := by
  obtain ⟨us, hus⟩ := entries.exists_tokens_eq
  rw [hus]
  rfl

private theorem Entries.flowEntries_comma (entries : Entries) :
    flowEntries (fuel + 1) hs false ⟨.flowEntry :: (entries.tokens ++ ts), anchors⟩ =
      flowEntry fuel hs ⟨entries.tokens ++ ts, anchors⟩ := by
  obtain ⟨us, hus⟩ := entries.exists_tokens_eq
  rw [hus]
  rfl

/-- An entry and those after it. -/
private theorem flowEntry_of_form {f : Form} (h : node fuel hs .flow ⟨f.tokens ++ ts, anchors⟩ =
      .ok (f.tree, ⟨ts, anchors⟩)) :
    flowEntry (fuel + 3) hs
        ⟨[.key, .scalar content false, .value] ++ (f.tokens ++ ts), anchors⟩ =
      (flowEntries (fuel + 2) hs false ⟨ts, anchors⟩).map fun r =>
        ((.scalar .str content, f.tree) :: r.1, r.2) := by
  have hentry : flowEntry (fuel + 3) hs
      ⟨[.key, .scalar content false, .value] ++ (f.tokens ++ ts), anchors⟩ = (do
      let v ← node fuel hs .flow ⟨f.tokens ++ ts, anchors⟩
      let more ← flowEntries (fuel + 2) hs false v.2
      pure ((.scalar .str content, v.1) :: more.1, more.2)) := by
    obtain ⟨t, us, hus, ht⟩ := f.exists_tokens_eq
    rw [hus]
    cases t <;> first | rfl | simp [startsNode] at ht
  rw [hentry, h]
  simp only [bind, Except.bind]
  cases flowEntries (fuel + 2) hs false ⟨ts, anchors⟩ <;> rfl

end

mutual

/-- Four levels for every token are enough: no token leads through more functions. -/
theorem Form.node_eq {fuel : Nat} {hs : Handles} {place : Place} {ts : List Token}
    {anchors : List (List Char × Yaml.Tree)} : (f : Form) → 4 * f.tokens.length ≤ fuel →
    node fuel hs place ⟨f.tokens ++ ts, anchors⟩ = .ok (f.tree, ⟨ts, anchors⟩)
  | .null, h | .bool _, h | .number _, h | .string _, h => by
    obtain ⟨fuel, rfl⟩ := Nat.exists_eq_add_of_le' h
    exact node_scalar
  | .emptyArray _, h => by
    obtain ⟨fuel, rfl⟩ := Nat.exists_eq_add_of_le' h
    exact node_sequence
  | .array items, h => by
    have hlength : 4 * items.tokens.length + 4 ≤ fuel := h
    obtain ⟨fuel, rfl⟩ : ∃ n, fuel = n + 2 := ⟨fuel - 2, by omega⟩
    have hfirst : flowItems (fuel + 1) hs true ⟨items.tokens ++ ts, anchors⟩ =
        .ok (items.trees, ⟨ts, anchors⟩) :=
      items.flowItems_first.trans (items.flowItem_eq (by omega))
    exact node_sequence.trans
      (congrArg (Except.map fun r => (sequence .seq r.1, r.2)) hfirst)
  | .emptyObject _, h => by
    obtain ⟨fuel, rfl⟩ := Nat.exists_eq_add_of_le' h
    exact node_mapping
  | .object entries, h => by
    have hlength : 4 * entries.tokens.length + 4 ≤ fuel := h
    obtain ⟨fuel, rfl⟩ : ∃ n, fuel = n + 2 := ⟨fuel - 2, by omega⟩
    have hfirst : flowEntries (fuel + 1) hs true ⟨entries.tokens ++ ts, anchors⟩ =
        .ok (entries.trees, ⟨ts, anchors⟩) :=
      entries.flowEntries_first.trans (entries.flowEntry_eq (by omega))
    exact node_mapping.trans (congrArg (Except.map fun r => (mapping .map r.1, r.2)) hfirst)

theorem Items.flowItem_eq {fuel : Nat} {hs : Handles} {ts : List Token}
    {anchors : List (List Char × Yaml.Tree)} : (items : Items) → 4 * items.tokens.length ≤ fuel →
    flowItem fuel hs ⟨items.tokens ++ ts, anchors⟩ = .ok (items.trees, ⟨ts, anchors⟩)
  | .last before f after, h => by
    simp only [Items.tokens, List.length_append, List.length_singleton] at h
    obtain ⟨fuel, rfl⟩ : ∃ n, fuel = n + 2 := ⟨fuel - 2, by omega⟩
    have htokens : (Items.last before f after).tokens ++ ts = f.tokens ++ .flowSequenceEnd :: ts :=
      List.append_assoc ..
    rw [htokens, flowItem_of_form (f.node_eq (by omega)), flowItems_of_end]
    rfl
  | .more before f after items, h => by
    simp only [Items.tokens, List.length_append, List.length_cons] at h
    obtain ⟨fuel, rfl⟩ : ∃ n, fuel = n + 2 := ⟨fuel - 2, by omega⟩
    have hmore : flowItems (fuel + 1) hs false ⟨.flowEntry :: (items.tokens ++ ts), anchors⟩ =
        .ok (items.trees, ⟨ts, anchors⟩) :=
      items.flowItems_comma.trans (items.flowItem_eq (by omega))
    have htokens : (Items.more before f after items).tokens ++ ts =
        f.tokens ++ .flowEntry :: (items.tokens ++ ts) := List.append_assoc ..
    rw [htokens, flowItem_of_form (f.node_eq (by omega)), hmore]
    rfl

theorem Entries.flowEntry_eq {fuel : Nat} {hs : Handles} {ts : List Token}
    {anchors : List (List Char × Yaml.Tree)} : (entries : Entries) → 4 * entries.tokens.length ≤ fuel →
    flowEntry fuel hs ⟨entries.tokens ++ ts, anchors⟩ = .ok (entries.trees, ⟨ts, anchors⟩)
  | .last before key behind gap f after, h => by
    simp only [Entries.tokens, List.length_append, List.length_cons, List.length_nil] at h
    obtain ⟨fuel, rfl⟩ : ∃ n, fuel = n + 3 := ⟨fuel - 3, by omega⟩
    have htokens : (Entries.last before key behind gap f after).tokens ++ ts =
        [.key, .scalar key.codes false, .value] ++ (f.tokens ++ .flowMappingEnd :: ts) := by
      simp [Entries.tokens]
    rw [htokens, flowEntry_of_form (f.node_eq (by omega)), flowEntries_of_end]
    rfl
  | .more before key behind gap f after entries, h => by
    simp only [Entries.tokens, List.length_append, List.length_cons, List.length_nil] at h
    obtain ⟨fuel, rfl⟩ : ∃ n, fuel = n + 3 := ⟨fuel - 3, by omega⟩
    have hmore : flowEntries (fuel + 2) hs false
        ⟨.flowEntry :: (entries.tokens ++ ts), anchors⟩ = .ok (entries.trees, ⟨ts, anchors⟩) :=
      entries.flowEntries_comma.trans (entries.flowEntry_eq (by omega))
    have htokens : (Entries.more before key behind gap f after entries).tokens ++ ts =
        [.key, .scalar key.codes false, .value] ++
          (f.tokens ++ .flowEntry :: (entries.tokens ++ ts)) := by
      simp [Entries.tokens]
    rw [htokens, flowEntry_of_form (f.node_eq (by omega)), hmore]
    rfl

end

/-- One document holds nothing but the value. -/
theorem ofTokens_tokens (f : Form) : ofTokens (f.tokens ++ [.streamEnd]) = .ok f.tree := by
  have hnode : node (4 * (f.tokens ++ [Token.streamEnd]).length + 4) defaultHandles .block
      ⟨f.tokens ++ [.streamEnd], []⟩ = .ok (f.tree, ⟨[.streamEnd], []⟩) :=
    f.node_eq (by rw [List.length_append]; omega)
  obtain ⟨t, us, hus, ht⟩ := f.exists_tokens_eq
  rw [hus] at hnode ⊢
  have hstart : startsDocument (t :: us ++ [.streamEnd]) = false := by
    cases t <;> first | rfl | simp [startsNode] at ht
  have hend : ((t :: us ++ [Token.streamEnd]).head? == some .streamEnd) = false := by
    cases t <;> first | rfl | simp [startsNode] at ht
  simp only [ofTokens, hend, opening, hstart, bind, Except.bind, Bool.false_eq_true,
    if_false, Bool.false_and, hnode]
  rfl

/-! ## Values from trees -/

/-- A word is a scalar with its JSON value. -/
private theorem scalarOf_word (f : Form) (hf : f.IsShared)
    (hword : f = .null ∨ (∃ b, f = .bool b) ∨ ∃ n, f = .number n) :
    (scalarOf (Tag.ofPlain (codes f.write)) (codes f.write)).map Value.scalar = .ok f.value := by
  obtain rfl | ⟨b, rfl⟩ | ⟨n, rfl⟩ := hword
  · decide +kernel
  · cases b <;> decide +kernel
  · have hcodes : codes (Form.number n).write = n.codes := n.map_toNat_write
    rw [hcodes]
    exact (Numeral.scalarOf_codes_iff _).2 hf

private theorem buildOn_scalar {fuel level : Nat} {tag : Tag} {content : List Nat} {v : Value}
    (h : (scalarOf tag content).map Value.scalar = .ok v) :
    buildOn (fuel + 1) level (.scalar tag content) = .ok v := by
  have hbuild : buildOn (fuel + 1) level (.scalar tag content) =
      (onLevel level (scalarOf tag content)).map Value.scalar := by
    cases tag <;> first | rfl | cases h
  rw [hbuild]
  cases hs : scalarOf tag content with
  | error f =>
    rw [hs] at h
    cases h
  | ok s =>
    rw [hs] at h
    exact congrArg Except.ok (Except.ok.inj h)

private theorem buildOn_sequence {fuel level : Nat} {items : List Tree} {vs : List Value}
    (h : Built.all (items.map (buildOn fuel (level + 1))) = .ok vs) :
    buildOn (fuel + 1) level (.sequence .seq items) = .ok (.list vs) := by
  have hbuild : buildOn (fuel + 1) level (.sequence .seq items) =
      (Built.all (items.map (buildOn fuel (level + 1)))).map Value.list := rfl
  rw [hbuild, h]
  rfl

private theorem split_of_ne_merge {es : List (Yaml.Tree × Yaml.Tree)}
    (h : ∀ e ∈ es, e.1.tag ≠ .merge) : split es = .ok ([], es) := by
  induction es with
  | nil => rfl
  | cons e es ih =>
    obtain ⟨he, hes⟩ := List.forall_mem_cons.1 h
    rw [split, if_neg he, ih hes]
    rfl

private theorem not_mergesAgain {e : Yaml.Tree × Yaml.Tree} (h : e.1.tag ≠ .merge) :
    mergesAgain e = false := by
  obtain ⟨k, v⟩ := e
  have hk : decide (k.tag = .merge) = false := decide_eq_false h
  cases v <;> rw [mergesAgain, hk, Bool.false_and] <;> exact nofun

/-- Without merge keys the entries are built in order. -/
theorem buildOn_mapping {fuel level : Nat} {es : List (Yaml.Tree × Yaml.Tree)}
    {vs : List (Scalar × Value)} (hkeys : ∀ e ∈ es, e.1.tag ≠ .merge)
    (h : Built.all (es.map fun e => Built.both (onLevel (level + 1) (keyOf e.1))
      (buildOn fuel (level + 1) e.2)) = .ok vs) :
    buildOn (fuel + 1) level (.mapping .map es) = .ok (.map (Table.ofEntries vs)) := by
  have hagain : es.any mergesAgain = false :=
    List.any_eq_false.2 fun e he => Bool.not_eq_true _ ▸ not_mergesAgain (hkeys e he)
  simp only [buildOn, tag, hagain, split_of_ne_merge hkeys, onLevel, bind, Except.bind,
    List.nil_append, Bool.false_eq_true, if_false]
  exact congrArg (Except.map fun es => Value.map (Table.ofEntries es)) h

private theorem tag_of_mem_trees : (entries : Entries) → ∀ e ∈ entries.trees, e.1.tag ≠ .merge
  | .last _ _ _ _ _ _ => List.forall_mem_singleton.2 nofun
  | .more _ _ _ _ _ _ entries => List.forall_mem_cons.2 ⟨nofun, tag_of_mem_trees entries⟩

private theorem key_text {key : Pieces} {behind : Gap} (hk : key.IsSharedKey behind) :
    keyOf (.scalar .str key.codes) = .ok (.text key.text) := by
  rw [Pieces.text, hk.text.pairs]
  rfl

mutual

/-- Every level of the tree is built with the values that JSON gives. -/
theorem Form.buildOn_eq {fuel level : Nat} : (f : Form) → f.IsShared → f.tree.depth ≤ fuel →
    buildOn fuel level f.tree = .ok f.value
  | .null, hf, h => by
    obtain ⟨fuel, rfl⟩ := Nat.exists_eq_add_of_le' h
    exact buildOn_scalar (scalarOf_word _ hf (.inl rfl))
  | .bool b, hf, h => by
    obtain ⟨fuel, rfl⟩ := Nat.exists_eq_add_of_le' h
    exact buildOn_scalar (scalarOf_word _ hf (.inr (.inl ⟨b, rfl⟩)))
  | .number n, hf, h => by
    obtain ⟨fuel, rfl⟩ := Nat.exists_eq_add_of_le' h
    exact buildOn_scalar (scalarOf_word _ hf (.inr (.inr ⟨n, rfl⟩)))
  | .string s, hs, h => by
    obtain ⟨fuel, rfl⟩ := Nat.exists_eq_add_of_le' h
    refine buildOn_scalar ?_
    rw [Form.value, Pieces.text, hs.pairs]
    rfl
  | .emptyArray _, _, h => by
    obtain ⟨fuel, rfl⟩ := Nat.exists_eq_add_of_le' h
    exact buildOn_sequence rfl
  | .array items, hitems, h => by
    obtain ⟨fuel, rfl⟩ : ∃ n, fuel = n + 1 := Nat.exists_eq_succ_of_ne_zero (Nat.ne_zero_of_lt h)
    exact buildOn_sequence (items.all_eq hitems (Nat.le_of_succ_le_succ h))
  | .emptyObject _, _, h => by
    obtain ⟨fuel, rfl⟩ := Nat.exists_eq_add_of_le' h
    exact buildOn_mapping (List.forall_mem_nil _) rfl
  | .object entries, hentries, h => by
    obtain ⟨fuel, rfl⟩ : ∃ n, fuel = n + 1 := Nat.exists_eq_succ_of_ne_zero (Nat.ne_zero_of_lt h)
    exact buildOn_mapping (tag_of_mem_trees entries)
      (entries.all_eq hentries (Nat.le_of_succ_le_succ h))

theorem Items.all_eq {fuel level : Nat} : (items : Items) → items.IsShared →
    itemsDepth items.trees ≤ fuel →
    Built.all (items.trees.map (buildOn fuel level)) = .ok items.values
  | .last _ f _, ⟨_, hf, _⟩, h => by
    have hvalue : buildOn fuel level f.tree = .ok f.value :=
      f.buildOn_eq hf ((Nat.le_max_left ..).trans h)
    rw [Items.trees, List.map_singleton, Built.all, hvalue]
    rfl
  | .more _ f _ items, ⟨⟨_, hf, _⟩, hitems⟩, h => by
    have hvalue : buildOn fuel level f.tree = .ok f.value :=
      f.buildOn_eq hf ((Nat.le_max_left ..).trans h)
    have hmore : Built.all (items.trees.map (buildOn fuel level)) = .ok items.values :=
      items.all_eq hitems ((Nat.le_max_right ..).trans h)
    rw [Items.trees, List.map_cons, Built.all, hvalue, hmore]
    rfl

theorem Entries.all_eq {fuel level : Nat} : (entries : Entries) → entries.IsShared →
    entriesDepth entries.trees ≤ fuel →
    Built.all (entries.trees.map fun e => Built.both (onLevel level (keyOf e.1))
      (buildOn fuel level e.2)) = .ok entries.values
  | .last _ key _ _ f _, ⟨⟨_, hkey⟩, _, hf, _⟩, h => by
    have hdepth : f.tree.depth ≤ fuel := ((Nat.le_max_right ..).trans (Nat.le_max_left ..)).trans h
    rw [Entries.trees, List.map_singleton, Built.all, key_text hkey, f.buildOn_eq hf hdepth]
    rfl
  | .more _ key _ _ f _ entries, ⟨⟨⟨_, hkey⟩, _, hf, _⟩, hentries⟩, h => by
    have hdepth : f.tree.depth ≤ fuel := ((Nat.le_max_right ..).trans (Nat.le_max_left ..)).trans h
    rw [Entries.trees, List.map_cons, Built.all, key_text hkey, f.buildOn_eq hf hdepth,
      entries.all_eq hentries ((Nat.le_max_right ..).trans h)]
    rfl

end

private theorem toValue_tree {f : Form} (hf : f.IsShared) : f.tree.toValue = .ok f.value := by
  rw [toValue, f.buildOn_eq hf (Nat.le_succ _)]

/-! ## Whole texts -/

/-- All the characters may stand in a YAML text. -/
def AreAllowed (cs : List Char) : Prop := ∀ ch ∈ cs, isAllowed ch.toNat = true

@[simp] theorem areAllowed_nil : AreAllowed [] := nofun

@[simp] theorem areAllowed_append {cs ds : List Char} :
    AreAllowed (cs ++ ds) ↔ AreAllowed cs ∧ AreAllowed ds := List.forall_mem_append

@[simp] theorem areAllowed_cons {ch : Char} {cs : List Char} :
    AreAllowed (ch :: cs) ↔ isAllowed ch.toNat = true ∧ AreAllowed cs := List.forall_mem_cons

@[simp] theorem areAllowed_gap (g : Gap) : AreAllowed g.write := by
  intro ch hch
  obtain ⟨b, -, rfl⟩ := List.mem_map.1 hch
  cases b <;> decide

private theorem areAllowed_number (n : Numeral) : AreAllowed n.write :=
  Numeral.forall_mem_write (p := fun ch => isAllowed ch.toNat) (by decide)

private theorem areAllowed_string {s : Pieces} (hs : s.IsShared) : AreAllowed s.write :=
  fun _ hch =>
  (isAllowed_of_mem_string hs.pieces hch).1

mutual

private theorem Form.areAllowed : (f : Form) → f.IsShared → AreAllowed f.write
  | .null, _ => List.all_eq_true.1 (by decide)
  | .bool b, _ => by cases b <;> exact List.all_eq_true.1 (by decide)
  | .number n, _ => areAllowed_number n
  | .string _, hs => areAllowed_string hs
  | .emptyArray gap, _ => by
    simp only [Form.write, areAllowed_append, areAllowed_cons, areAllowed_nil, areAllowed_gap]
    decide
  | .array items, hitems => areAllowed_cons.2 ⟨by decide, items.areAllowed hitems⟩
  | .emptyObject gap, _ => by
    simp only [Form.write, areAllowed_append, areAllowed_cons, areAllowed_nil, areAllowed_gap]
    decide
  | .object entries, hentries => areAllowed_cons.2 ⟨by decide, entries.areAllowed hentries⟩

theorem Items.areAllowed : (items : Items) → items.IsShared → AreAllowed items.write
  | .last before f after, ⟨_, hf, _⟩ => by
    simp only [Items.write, areAllowed_append, areAllowed_cons, areAllowed_nil, areAllowed_gap,
      f.areAllowed hf]
    decide
  | .more before f after items, ⟨⟨_, hf, _⟩, hitems⟩ => by
    simp only [Items.write, areAllowed_append, areAllowed_cons, areAllowed_gap, f.areAllowed hf,
      items.areAllowed hitems]
    decide

theorem Entries.areAllowed : (entries : Entries) → entries.IsShared → AreAllowed entries.write
  | .last before key behind gap f after, ⟨⟨_, hkey⟩, _, hf, _⟩ => by
    simp only [Entries.write, areAllowed_append, areAllowed_cons, areAllowed_nil, areAllowed_gap,
      areAllowed_string hkey.text, f.areAllowed hf]
    decide
  | .more before key behind gap f after entries, ⟨⟨⟨_, hkey⟩, _, hf, _⟩, hentries⟩ => by
    simp only [Entries.write, areAllowed_append, areAllowed_cons, areAllowed_gap,
      areAllowed_string hkey.text, f.areAllowed hf, entries.areAllowed hentries]
    decide

end

/-- A shared text that holds an object is a YAML text with the same value. -/
theorem read_write {w : Whole} {es : List (Scalar × Value)} (hw : w.IsShared)
    (hmap : w.value = .map es) : Yaml.read (Text.ofChars w.write) = .ok w.value := by
  have hallowed : (Text.ofChars w.write).codes.all isAllowed = true := by
    have hwrite : AreAllowed w.write := by simp [Whole.write, w.form.areAllowed hw.form]
    rw [Text.ofChars, List.all_map, List.all_eq_true]
    exact hwrite
  have hchars : (Text.ofChars w.write).codes.map Char.ofNat = w.write := by
    rw [Text.ofChars, List.map_map]
    exact (List.map_congr_left fun ch _ => Char.ofNat_toNat ch).trans (List.map_id _)
  rw [Yaml.read, hallowed, if_pos rfl, hchars, ofChars_write hw hmap]
  simp only [bind, Except.bind, ofTokens_tokens, toValue_tree hw.form]
  rfl

end Flowchart.Json
