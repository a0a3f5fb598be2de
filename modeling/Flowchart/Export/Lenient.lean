import Flowchart.Export.Problem
import Flowchart.Number.Decimal
import Flowchart.Number.Integer
import Flowchart.Text.Space
import Flowchart.Text.Utf8
/-! Scalars and mappings of an export, read leniently: a value of another kind is accepted where
it names the wanted one without loss. -/
namespace Flowchart.Lenient

/-- The text holds half of a surrogate pair, so it has no octets. -/
def hasSurrogate (t : Text) : Bool := t.codes.any fun c => 0xD800 ≤ c && c ≤ 0xDFFF

/-- The text of a text or of octets; `bad` is the defect of octets that decode to none. -/
private def words? (bad : Defect) : Value → Option (Checked Text)
  | .text t => some (if hasSurrogate t then Checked.fail .undecodable else .ok t)
  | .scalar (.bytes os) =>
    some (match Text.ofUtf8? os with
      | some t => .ok t
      | none => Checked.fail bad)
  | _ => none

/-- A text, or octets that decode to one; numbers only where `numbers` allows them. -/
def text (numbers : Bool) : Value → Checked Text
  | .text t => .ok t
  | .scalar (.bytes os) =>
    match Text.ofUtf8? os with
    | some t => .ok t
    | none => Checked.fail .undecodable
  | .int i => if numbers then .ok (Scalar.int i).display else Checked.fail .noText
  | .double d => if numbers then .ok d.text else Checked.fail .noText
  | _ => Checked.fail .noText

/-- Null, or a text. -/
def optionalText (numbers : Bool) : Value → Checked (Option Text)
  | .null => .ok none
  | v => (text numbers v).map some

private def truths : List Text := ["1", "on", "t", "true", "y", "yes"]

private def falsehoods : List Text := ["0", "off", "f", "false", "n", "no"]

private def boolOfInt (i : Int) : Checked Bool :=
  if i = 0 then .ok false else if i = 1 then .ok true else Checked.fail .unknownBool

private def isWord (i : Int) : Bool := -9223372036854775808 ≤ i && i < 9223372036854775808

/-- The integer a number equals, when it lies strictly inside the range of a machine word. -/
private def integerOfDouble (d : Double) : Checked Int :=
  if !d.isFinite then Checked.fail .infinite
  else
    match d.toInt? with
    | none => Checked.fail .fractional
    | some i =>
      if -9223372036854775808 < i ∧ i < 9223372036854775808 then .ok i
      else Checked.fail .oversized

def bool (v : Value) : Checked Bool :=
  match words? .unknownBool v with
  | some t => t.bind fun t =>
    if t.lower ∈ truths then .ok true
    else if t.lower ∈ falsehoods then .ok false
    else Checked.fail .unknownBool
  | none =>
    match v with
    | .bool b => .ok b
    | .int i => if isWord i then boolOfInt i else Checked.fail .noBool
    | .double d =>
      match integerOfDouble d with
      | .ok i => boolOfInt i
      | .error _ => Checked.fail .noBool
    | _ => Checked.fail .noBool

/-- Drop zeros, and underscores among them, before the first other digit or the point; one zero
stays where no other digit follows. Text that begins with neither a digit nor a minus sign is
refused. -/
def dropLeadingZeros : List Nat → Option (List Nat)
  | 48 :: cs => go 48 cs
  | c :: cs => if c = 45 ∨ (49 ≤ c ∧ c ≤ 57) then some (c :: cs) else none
  | [] => none
where
  go (last : Nat) : List Nat → Option (List Nat)
    | [] => some [last]
    | c :: cs =>
      if c = 48 ∨ c = 95 then go c cs
      else if 49 ≤ c ∧ c ≤ 57 then some (c :: cs)
      else if c = 46 then some (last :: c :: cs)
      else none

/-- Cut off a point followed by zeros alone, at least one. -/
def dropZeroDecimals (cs : List Nat) : List Nat :=
  match cs.dropWhile (· ≠ 46) with
  | _ :: z :: zs => if (z :: zs).all (· = 48) then cs.takeWhile (· ≠ 46) else cs
  | _ => cs

/-- Two underscores stand side by side. -/
private def hasGap : List Nat → Bool
  | 95 :: 95 :: _ => true
  | _ :: cs => hasGap cs
  | [] => false

/-- The text without its underscores, when each stands alone and inside. -/
def dropUnderscores? (cs : List Nat) : Option (List Nat) :=
  if !cs.contains 95 || hasGap cs || cs.head? = some 95 || cs.getLast? = some 95 then none
  else some (cs.filter (· ≠ 95))

/-- Digits without a leading zero, after an optional minus sign. -/
def plainInteger (cs : List Nat) : Checked Int :=
  let (negative, ds) :=
    match cs with
    | 45 :: ds => (true, ds)
    | ds => (false, ds)
  let (value, count, rest) := Double.takeDigits Text.asciiDigit? ds
  if count = 0 ∨ ¬rest.isEmpty ∨ (1 < count ∧ ds.head? = some 48) then
    Checked.fail .unreadInteger
  else if Integer.digitLimit < count then Checked.fail .oversized
  else .ok (if negative then -(value : Int) else value)

/-- An integer with spaces around it, a plus sign, leading zeros, zero decimals or single
underscores between its digits. -/
def integerText (t : Text) : Checked Int :=
  let cs := Text.strip Text.isSpace t.codes
  let unsigned :=
    match cs with
    | 43 :: 45 :: _ => none
    | 43 :: cs => dropLeadingZeros cs
    | cs => dropLeadingZeros cs
  match unsigned with
  | none => Checked.fail .unreadInteger
  | some cs =>
    let cs := dropZeroDecimals cs
    plainInteger ((dropUnderscores? cs).getD cs)

def integer (v : Value) : Checked Int :=
  match words? .unreadInteger v with
  | some t => t.bind integerText
  | none =>
    match v with
    | .bool b => .ok (if b then 1 else 0)
    | .int i => .ok i
    | .double d => integerOfDouble d
    | _ => Checked.fail .noInteger

theorem natAbs_lt_of_plainInteger {cs : List Nat} {i : Int} (h : plainInteger cs = .ok i) :
    i.natAbs < Nat.pow 10 Integer.digitLimit := by
  rw [Nat.pow_eq]
  have hbound (negative : Bool) (ds : List Nat) :
      (if negative then -((Double.takeDigits Text.asciiDigit? ds).1 : Int)
        else (Double.takeDigits Text.asciiDigit? ds).1).natAbs <
          10 ^ (Double.takeDigits Text.asciiDigit? ds).2.1 := by
    have hdigit : ∀ c d, Text.asciiDigit? c = some d → d < 10 := fun _ _ => Text.asciiDigit?_lt
    have hvalue := Double.takeDigits_lt hdigit ds
    cases negative <;> simpa using hvalue
  unfold plainInteger at h
  generalize (match cs with | 45 :: ds => (true, ds) | ds => (false, ds)) = signed at h
  obtain ⟨negative, ds⟩ := signed
  dsimp only at h
  split at h
  · cases h
  · split at h
    · cases h
    · next hd =>
      cases h
      generalize Integer.digitLimit = limit at hd ⊢
      exact Nat.lt_of_lt_of_le (hbound negative ds)
        (Nat.pow_le_pow_right (by decide) (Nat.le_of_not_lt hd))

/-- A whole number that is read is the given one, or has not too many digits. -/
theorem of_integer {v : Value} {i : Int} (h : integer v = .ok i) :
    v = .int i ∨ i.natAbs < Nat.pow 10 Integer.digitLimit := by
  have hsmall {j : Int} (hj : j.natAbs < 10 ^ 19) : j.natAbs < Nat.pow 10 Integer.digitLimit := by
    have hle : 19 ≤ Integer.digitLimit := by decide
    generalize Integer.digitLimit = limit at hle ⊢
    exact Nat.lt_of_lt_of_le hj (Nat.pow_le_pow_right (by decide) hle)
  unfold integer at h
  split at h
  · next c _ =>
    cases c with
    | error ps => cases h
    | ok t =>
      change integerText t = .ok i at h
      simp only [integerText] at h
      split at h
      · cases h
      · exact .inr (natAbs_lt_of_plainInteger h)
  · split at h
    · cases h
      exact .inr (hsmall (by split <;> decide))
    · cases h
      exact .inl rfl
    · unfold integerOfDouble at h
      refine .inr (hsmall ?_)
      split at h
      · cases h
      · split at h
        · cases h
        · split at h
          · cases h
            omega
          · cases h
    · cases h

/-- A decimal with spaces around it, or one with single underscores inside. -/
def numberText (t : Text) : Checked Double :=
  match Double.read? Text.asciiDigit? (Text.strip Text.isSpace t.codes) with
  | some d => .ok d
  | none =>
    match (dropUnderscores? t.codes).bind (Double.read? Text.asciiDigit?) with
    | some d => .ok d
    | none => Checked.fail .unreadNumber

private def numberOfInt (i : Int) : Checked Double :=
  let d := Double.ofInt i
  if d.isFinite then .ok d else Checked.fail .noNumber

def number (v : Value) : Checked Double :=
  match words? .unreadNumber v with
  | some t => t.bind numberText
  | none =>
    match v with
    | .double d => .ok d
    | .bool b => numberOfInt (if b then 1 else 0)
    | .int i => numberOfInt i
    | _ => Checked.fail .noNumber

/-- Keys are read as texts, and every value by `item`. -/
def entries (numbers : Bool) (item : Value → Checked Value) (es : Fields) : Checked Fields :=
  (Checked.all (es.map fun e =>
    (((text numbers e.1).under (.name "[key]")).under e.1.step).and
      ((item e.2).under e.1.step))).map fun kvs =>
        Table.ofEntries (kvs.map fun kv => (Scalar.text kv.1, kv.2))

/-- A mapping from texts to anything. -/
def mapping (numbers : Bool) : Value → Checked Fields
  | .map es => entries numbers .ok es
  | _ => Checked.fail .noMapping

/-- A mapping from texts to numbers. -/
def numbers (numeric : Bool) : Value → Checked Fields
  | .map es => entries numeric (fun v => (number v).map Value.double) es
  | _ => Checked.fail .noMapping

theorem explained_text (numbers : Bool) (v : Value) : (text numbers v).Explained := by
  unfold text
  repeat' split
  all_goals exact nofun

private theorem explained_words? {bad : Defect} {v : Value} {c : Checked Text}
    (h : words? bad v = some c) : c.Explained := by
  unfold words? at h
  split at h
  · cases h
    split <;> exact nofun
  · cases h
    split <;> exact nofun
  · cases h

private theorem explained_boolOfInt (i : Int) : (boolOfInt i).Explained := by
  unfold boolOfInt
  repeat' split
  all_goals exact nofun

private theorem explained_integerOfDouble (d : Double) : (integerOfDouble d).Explained := by
  unfold integerOfDouble
  repeat' split
  all_goals exact nofun

private theorem explained_numberOfInt (i : Int) : (numberOfInt i).Explained := by
  unfold numberOfInt
  dsimp only
  split <;> exact nofun

theorem explained_bool (v : Value) : (bool v).Explained := by
  unfold bool
  split
  · next c hc =>
    refine (explained_words? hc).bind fun t => ?_
    repeat' split
    all_goals exact nofun
  · split
    · exact nofun
    · split
      · exact explained_boolOfInt _
      · exact nofun
    · split
      · exact explained_boolOfInt _
      · exact nofun
    · exact nofun

theorem explained_plainInteger (cs : List Nat) : (plainInteger cs).Explained := by
  unfold plainInteger
  dsimp only
  repeat' split
  all_goals exact nofun

theorem explained_integer (v : Value) : (integer v).Explained := by
  unfold integer
  split
  · next c hc =>
    refine (explained_words? hc).bind fun t => ?_
    unfold integerText
    dsimp only
    generalize (match Text.strip Text.isSpace t.codes with
      | 43 :: 45 :: _ => none
      | 43 :: cs => dropLeadingZeros cs
      | cs => dropLeadingZeros cs) = unsigned
    cases unsigned with
    | none => exact nofun
    | some cs => exact explained_plainInteger _
  · split
    · exact nofun
    · exact nofun
    · exact explained_integerOfDouble _
    · exact nofun

theorem explained_number (v : Value) : (number v).Explained := by
  unfold number
  split
  · next c hc =>
    refine (explained_words? hc).bind fun t => ?_
    unfold numberText
    repeat' split
    all_goals exact nofun
  · split
    · exact nofun
    · exact explained_numberOfInt _
    · exact explained_numberOfInt _
    · exact nofun

theorem explained_entries (numbers : Bool) {item : Value → Checked Value} (es : Fields)
    (h : ∀ v, (item v).Explained) : (entries numbers item es).Explained := by
  refine (Checked.explained_all fun c hc => ?_).map _
  obtain ⟨e, -, rfl⟩ := List.mem_map.1 hc
  exact (((explained_text numbers e.1).under _).under _).and ((h e.2).under _)

theorem explained_mapping (numbers : Bool) (v : Value) : (mapping numbers v).Explained := by
  cases v with
  | map es => exact explained_entries numbers es fun v => Checked.explained_ok v
  | _ => exact nofun

theorem explained_numbers (numeric : Bool) (v : Value) : (numbers numeric v).Explained := by
  cases v with
  | map es => exact explained_entries numeric es fun v => (explained_number v).map _
  | _ => exact nofun

end Flowchart.Lenient
