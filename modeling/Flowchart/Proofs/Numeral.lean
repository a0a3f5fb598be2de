import Flowchart.Json.Shared
import Flowchart.Yaml.Build
import Mathlib.Tactic.Ring
/-! Numbers as JSON writes them, read back: by the reader of decimals, and as plain scalars of YAML.
There a number is a number only with digits after a point, or with neither point nor exponent, and an
exponent needs a sign. -/
namespace Flowchart.Json

/-! ## Digits -/

/-- The code points of digits. -/
def digitCodes (ds : List (Fin 10)) : List Nat := ds.map fun d => 48 + d.val

section
variable {ds : List (Fin 10)} {rest : List Nat} {digit : Nat → Option Nat}

theorem toNat_digitChar (d : Fin 10) : (digitChar d).toNat = 48 + d := by
  revert d
  decide

theorem map_toNat_digitChar (ds : List (Fin 10)) :
    (ds.map digitChar).map Char.toNat = digitCodes ds := by
  rw [List.map_map, digitCodes]
  exact List.map_congr_left fun d _ => toNat_digitChar d

private theorem foldl_digits (ds : List (Fin 10)) (n : Nat) :
    ds.foldl (fun n d => n * 10 + d.val) n = n * 10 ^ ds.length + digitsValue ds := by
  rw [digitsValue]
  induction ds generalizing n with
  | nil => simp
  | cons d ds ih =>
    rw [List.foldl_cons, List.foldl_cons, ih, ih (0 * 10 + d.val), List.length_cons, Nat.pow_succ]
    ring

private theorem digitsValue_append (ds es : List (Fin 10)) :
    digitsValue (ds ++ es) = digitsValue ds * 10 ^ es.length + digitsValue es := by
  rw [digitsValue, List.foldl_append, foldl_digits]
  rfl

private theorem digitsValue_cons (d : Fin 10) (ds : List (Fin 10)) :
    digitsValue (d :: ds) = d * 10 ^ ds.length + digitsValue ds := by
  rw [digitsValue, List.foldl_cons, foldl_digits, Nat.zero_mul, Nat.zero_add]

/-- The function reads the ten digits, and no other code point that may follow them. -/
structure ReadsDigits (digit : Nat → Option Nat) : Prop where
  reads : ∀ d : Fin 10, digit (48 + d) = some d.val
  other : ∀ c ∈ [46, 69, 101], digit c = none

theorem readsDigits_ascii : ReadsDigits Text.asciiDigit? := ⟨by decide, by decide⟩

private theorem readsDigits_any : ReadsDigits Text.digit? := by
  refine ⟨fun d => Text.digit?_of_asciiDigit? (readsDigits_ascii.reads d), ?_⟩
  decide +kernel

theorem takeDigits_append (hd : ReadsDigits digit) (hr : ∀ c ∈ rest.head?, digit c = none) :
    Double.takeDigits digit (digitCodes ds ++ rest) = (digitsValue ds, ds.length, rest) := by
  induction ds with
  | nil =>
    cases rest with
    | nil => rfl
    | cons c rest =>
      have hc : digit c = none := hr c rfl
      rw [digitCodes, List.map_nil, List.nil_append, Double.takeDigits, hc]
      rfl
  | cons d ds ih =>
    have hcons : digitCodes (d :: ds) ++ rest = (48 + d.val) :: (digitCodes ds ++ rest) := rfl
    rw [hcons, Double.takeDigits, hd.reads d, ih, digitsValue_cons]
    rfl

end

/-! ## Decimals -/

namespace Exponent
variable {e : Exponent}

def codes (e : Exponent) : List Nat :=
  (if e.upper then 69 else 101) :: (e.sign.map fun s => s.char.toNat).toList ++
    digitCodes e.digits.list

private theorem map_toNat_write (e : Exponent) : e.write.map Char.toNat = e.codes := by
  obtain ⟨upper, sign, digits⟩ := e
  have hdigits : digits.write.map Char.toNat = digitCodes digits.list :=
    map_toNat_digitChar digits.list
  cases upper <;> cases sign <;> simp [write, codes, hdigits]

end Exponent

namespace Numeral
variable {n : Numeral} {digit : Nat → Option Nat}

/-- The code points after the digits before the point. -/
def tailCodes (n : Numeral) : List Nat :=
  (n.fraction.elim [] fun ds => 46 :: digitCodes ds.list) ++ n.exponent.elim [] Exponent.codes

/-- The code points after the sign. -/
def bodyCodes (n : Numeral) : List Nat := digitCodes n.whole.list ++ n.tailCodes

def codes (n : Numeral) : List Nat := (if n.negative then [45] else []) ++ n.bodyCodes

theorem map_toNat_write (n : Numeral) : n.write.map Char.toNat = n.codes := by
  obtain ⟨negative, whole, fraction, exponent, h⟩ := n
  have hdigits (ds : Digits) : ds.write.map Char.toNat = digitCodes ds.list :=
    map_toNat_digitChar ds.list
  have hpoint : '.'.toNat = 46 := rfl
  have hminus : '-'.toNat = 45 := rfl
  cases negative <;> cases fraction <;> cases exponent <;>
    simp [write, codes, bodyCodes, tailCodes, hdigits, Exponent.map_toNat_write, hpoint, hminus]

/-- Digits begin with neither a sign nor a letter. -/
theorem takeSign_cons (d : Fin 10) (cs : List Nat) :
    Text.takeSign ((48 + d.val) :: cs) = (false, (48 + d.val) :: cs) := by
  unfold Text.takeSign
  split
  · next h =>
    injection h with h
    omega
  · next h =>
    injection h with h
    omega
  · rfl

private theorem lower_cons_ne {d : Fin 10} {cs : List Nat} {t : Text}
    (ht : ∀ c ∈ t.codes.head?, c < 48 ∨ 57 < c) (hne : t.codes ≠ []) :
    Text.lower ⟨(48 + d.val) :: cs⟩ ≠ t := by
  rintro rfl
  have hlower : Text.lowerCode (48 + d.val) = 48 + d.val := by
    rw [Text.lowerCode, if_neg (by omega)]
  have hhead := ht (48 + d.val) (by rw [Text.lower, List.map_cons, hlower]; rfl)
  omega

private theorem exponent?_codes (hd : ReadsDigits digit) (e : Exponent) :
    Double.exponent? digit e.codes = some e.value := by
  obtain ⟨upper, sign, digits⟩ := e
  have hdigits : Double.takeDigits digit (digitCodes digits.list) =
      (digitsValue digits.list, digits.list.length, []) := by
    rw [← List.append_nil (digitCodes digits.list)]
    exact takeDigits_append hd nofun
  have hcount : digits.list.length ≠ 0 := by simp [Digits.list]
  have hplain : Text.takeSign (digitCodes digits.list) = (false, digitCodes digits.list) :=
    takeSign_cons digits.first _
  cases sign with
  | none => simp [Exponent.codes, Exponent.value, Double.exponent?, hplain, hdigits, hcount]
  | some s =>
    cases s
    · have hsign : Text.takeSign (43 :: digitCodes digits.list) =
        (false, digitCodes digits.list) := rfl
      have hcode : Sign.plus.char.toNat = 43 := rfl
      simp [Exponent.codes, Exponent.value, Double.exponent?, hcode, hsign, hdigits, hcount]
    · have hsign : Text.takeSign (45 :: digitCodes digits.list) =
        (true, digitCodes digits.list) := rfl
      have hcode : Sign.minus.char.toNat = 45 := rfl
      simp [Exponent.codes, Exponent.value, Double.exponent?, hcode, hsign, hdigits, hcount]

private theorem head?_exponent :
    ∀ c ∈ (n.exponent.elim [] Exponent.codes).head?, c ∈ [69, 101] := by
  cases n.exponent with
  | none => nofun
  | some e =>
    obtain ⟨upper, sign, digits⟩ := e
    cases upper <;> simp [Exponent.codes]

private theorem head?_tailCodes : ∀ c ∈ n.tailCodes.head?, c ∈ [46, 69, 101] := by
  unfold tailCodes
  cases n.fraction with
  | none => exact fun c hc => List.mem_cons_of_mem 46 (head?_exponent c hc)
  | some ds => simp

private theorem exponent?_elim (h : ReadsDigits digit) :
    Double.exponent? digit (n.exponent.elim [] Exponent.codes) =
      some (n.exponent.elim 0 Exponent.value) := by
  cases n.exponent with
  | none => rfl
  | some e => exact exponent?_codes h e

/-- The digits after the point and their count, with what follows them. -/
private theorem takeFraction_tailCodes (h : ReadsDigits digit) :
    Double.takeFraction digit n.tailCodes =
    (digitsValue (n.fraction.elim [] Digits.list), (n.fraction.elim [] Digits.list).length,
      n.exponent.elim [] Exponent.codes) := by
  unfold tailCodes
  cases n.fraction with
  | none =>
    rw [Option.elim_none, List.nil_append]
    unfold Double.takeFraction
    split
    · next rest hrest =>
      have hmem : 46 ∈ [69, 101] := head?_exponent 46 (by rw [hrest]; rfl)
      exact absurd hmem (by decide)
    · rfl
  | some ds =>
    exact takeDigits_append h fun c hc => h.other c (List.mem_cons_of_mem 46 (head?_exponent c hc))

private theorem unsigned?_bodyCodes (h : ReadsDigits digit) (negative : Bool) :
    Double.unsigned? digit negative n.bodyCodes = some { n with negative }.double := by
  have hcount : n.whole.list.length + (n.fraction.elim [] Digits.list).length ≠ 0 := by
    simp [Digits.list]
  unfold Double.unsigned? bodyCodes
  rw [takeDigits_append h fun c hc => h.other c (head?_tailCodes c hc)]
  simp only [takeFraction_tailCodes h, exponent?_elim h, if_neg hcount, double, digits, digitsValue_append,
    List.length_append, Nat.pow_eq]
  rfl

private theorem takeSign_codes (n : Numeral) :
    Text.takeSign n.codes = (n.negative, n.bodyCodes) := by
  unfold codes
  cases n.negative with
  | true => rfl
  | false => exact takeSign_cons n.whole.first _

/-- What begins with a digit is no word. -/
theorem read?_of_takeSign {d : Fin 10} {cs body : List Nat} {negative : Bool}
    (h : Text.takeSign cs = (negative, (48 + d.val) :: body)) :
    Double.read? digit cs = Double.unsigned? digit negative ((48 + d.val) :: body) := by
  have hword {t : Text} (ht : ∀ c ∈ t.codes.head?, c < 48 ∨ 57 < c) (hne : t.codes ≠ []) :
      Text.lower ⟨(48 + d.val) :: body⟩ ≠ t := lower_cons_ne ht hne
  unfold Double.read?
  simp only [h]
  rw [if_neg (not_or.2 ⟨hword (by decide) (by decide), hword (by decide) (by decide)⟩),
    if_neg (hword (by decide) (by decide))]

/-- A reader of decimals reads every numeral. -/
theorem read?_codes (h : ReadsDigits digit) : Double.read? digit n.codes = some n.double :=
  (read?_of_takeSign n.takeSign_codes).trans (unsigned?_bodyCodes h n.negative)

end Numeral

namespace Numeral
variable {n : Numeral} {c : Nat} {cs : List Nat} {words : List Text}

/-! ## Plain scalars -/

/-- The code points of a numeral. -/
def IsCode (c : Nat) : Prop := (48 ≤ c ∧ c ≤ 57) ∨ c ∈ [43, 45, 46, 69, 101]

instance : DecidablePred IsCode := fun c =>
  inferInstanceAs (Decidable ((48 ≤ c ∧ c ≤ 57) ∨ c ∈ [43, 45, 46, 69, 101]))

private theorem isCode_of_mem_digitCodes {ds : List (Fin 10)} (h : c ∈ digitCodes ds) :
    IsCode c := by
  obtain ⟨d, -, rfl⟩ := List.mem_map.1 h
  exact .inl (by omega)

private theorem isCode_of_mem_exponent {e : Exponent} (h : c ∈ e.codes) : IsCode c := by
  obtain ⟨upper, sign, digits⟩ := e
  have hmarks : ∀ c ∈ (if upper then 69 else 101) :: (sign.map fun s => s.char.toNat).toList,
      c ∈ [43, 45, 46, 69, 101] := by
    rcases sign with _ | (_ | _) <;> cases upper <;> decide
  rcases List.mem_append.1 h with h | h
  · exact .inr (hmarks c h)
  · exact isCode_of_mem_digitCodes h

private theorem isCode_of_mem_tailCodes (h : c ∈ n.tailCodes) : IsCode c := by
  rcases List.mem_append.1 h with h | h
  · cases hf : n.fraction with
    | none => simp [hf] at h
    | some ds =>
      rw [hf] at h
      rcases List.mem_cons.1 h with rfl | h
      · exact .inr (by decide)
      · exact isCode_of_mem_digitCodes h
  · cases he : n.exponent with
    | none => simp [he] at h
    | some e =>
      rw [he] at h
      exact isCode_of_mem_exponent h

private theorem isCode_of_mem_bodyCodes (h : c ∈ n.bodyCodes) : IsCode c :=
  (List.mem_append.1 h).elim isCode_of_mem_digitCodes isCode_of_mem_tailCodes

private theorem isCode_of_mem (h : c ∈ n.codes) : IsCode c := by
  rcases List.mem_append.1 h with h | h
  · split at h
    · rw [List.mem_singleton.1 h]
      exact .inr (by decide)
    · cases h
  · exact isCode_of_mem_bodyCodes h

/-- What holds of every such character holds throughout a numeral. -/
theorem forall_mem_write {p : Char → Bool} (hp : ∀ c < 128, IsCode c → p (Char.ofNat c) = true) :
    ∀ ch ∈ n.write, p ch = true := by
  intro ch hch
  have hcode : IsCode ch.toNat :=
    isCode_of_mem (n := n) (n.map_toNat_write ▸ List.mem_map_of_mem hch)
  have hlt : ch.toNat < 128 := by
    simp only [IsCode, List.mem_cons, List.not_mem_nil, or_false] at hcode
    omega
  rw [← Char.ofNat_toNat ch]
  exact hp ch.toNat hlt hcode

section
open Yaml

private theorem exists_codes_eq (n : Numeral) :
    ∃ c cs, n.codes = c :: cs ∧ (c = 45 ∨ (48 ≤ c ∧ c ≤ 57)) := by
  unfold codes
  cases n.negative with
  | true => exact ⟨45, n.bodyCodes, rfl, .inl rfl⟩
  | false => exact ⟨48 + n.whole.first, _, rfl, .inr (by omega)⟩

/-- No word that begins otherwise is a numeral. -/
private theorem isWord_eq_false (hc : c = 45 ∨ (48 ≤ c ∧ c ≤ 57))
    (hw : words.all fun w => w.codes.head?.any fun x => x != 45 && (x < 48 || 57 < x)) :
    Tag.isWord (c :: cs) words = false := by
  rw [Tag.isWord, ← Bool.not_eq_true, List.contains_iff_mem]
  intro hmem
  have hhead := List.all_eq_true.1 hw _ hmem
  simp at hhead
  omega

private theorem dropWhile_digitCodes {ds : List (Fin 10)}
    (h : ∀ c ∈ cs.head?, Tag.isDigitOrLine c = false) :
    (digitCodes ds ++ cs).dropWhile Tag.isDigitOrLine = cs := by
  induction ds with
  | nil =>
    cases cs with
    | nil => rfl
    | cons c cs => exact List.dropWhile_cons_of_neg (by simp [h c rfl])
  | cons d ds ih =>
    have hd : Tag.isDigitOrLine (48 + d.val) = true := by
      simp [Tag.isDigitOrLine, Tag.isDigit]
      omega
    exact (List.dropWhile_cons_of_pos hd).trans ih

private theorem all_isDigit {ds : List (Fin 10)} : (digitCodes ds).all Tag.isDigit = true := by
  simp [digitCodes, Tag.isDigit]
  omega

private theorem isExponent_codes (e : Exponent) : Tag.isExponent e.codes = e.sign.isSome := by
  obtain ⟨upper, sign, digits⟩ := e
  have hempty : (digitCodes digits.list).isEmpty = false := rfl
  cases sign with
  | some s =>
    cases upper <;> cases s <;>
      simp [Exponent.codes, Tag.isExponent, Sign.char, all_isDigit, hempty]
  | none =>
    have hfirst : (48 + digits.first.val == 43 || 48 + digits.first.val == 45) = false := by
      simp
      omega
    have hcodes : Exponent.codes ⟨upper, none, digits⟩ =
        (if upper then 69 else 101) :: (48 + digits.first.val) :: digitCodes digits.others := rfl
    rw [hcodes, Tag.isExponent, hfirst, Bool.and_false, Bool.false_and, Bool.false_and]
    rfl

private theorem isExponent_elim (n : Numeral) : Tag.isExponent (n.exponent.elim [] Exponent.codes) =
    n.exponent.all fun e => e.sign.isSome := by
  cases n.exponent with
  | none => rfl
  | some e => exact isExponent_codes e

private theorem tailCodes_of_fraction {ds : Digits} (hf : n.fraction = some ds) :
    n.tailCodes = 46 :: (digitCodes ds.list ++ n.exponent.elim [] Exponent.codes) := by
  rw [tailCodes, hf]
  rfl

private theorem tailCodes_eq_nil (hf : n.fraction = none) (he : n.exponent = none) :
    n.tailCodes = [] := by
  rw [tailCodes, hf, he]
  rfl

/-- A number with a point is one for YAML if there is a sign in its exponent; no other is. -/
private theorem isFloat_codes (n : Numeral) : Tag.isFloat n.codes =
    (n.fraction.isSome && n.exponent.all fun e => e.sign.isSome) := by
  obtain ⟨c, cs, hcodes, hc⟩ := n.exists_codes_eq
  have hnan : Tag.isWord n.codes [".nan", ".NaN", ".NAN"] = false :=
    hcodes ▸ isWord_eq_false hc (by decide)
  have hdigit : 48 ≤ 48 + n.whole.first.val ∧ 48 + n.whole.first.val ≤ 57 := by omega
  have hinf : Tag.isWord n.bodyCodes [".inf", ".Inf", ".INF"] = false :=
    isWord_eq_false (.inr hdigit) (by decide)
  have hbody : n.bodyCodes = (48 + n.whole.first.val) :: (digitCodes n.whole.others ++ n.tailCodes) :=
    rfl
  have hfirst : Tag.isDigit (48 + n.whole.first.val) = true := by simpa [Tag.isDigit] using hdigit.2
  have hdrop : (digitCodes n.whole.others ++ n.tailCodes).dropWhile Tag.isDigitOrLine = n.tailCodes :=
    dropWhile_digitCodes fun c hc => by
      have hall : ∀ c ∈ [46, 69, 101], Tag.isDigitOrLine c = false := by decide
      exact hall c (head?_tailCodes c hc)
  simp only [Tag.isFloat, takeSign_codes, hnan, hinf, Bool.or_self, Bool.false_or]
  rw [hbody]
  split
  · next heq =>
    injection heq with heq
    omega
  · next d ds _ heq =>
    obtain ⟨rfl, rfl⟩ := List.cons.inj heq
    rw [hdrop, hfirst, Bool.true_and]
    cases hf : n.fraction with
    | none =>
      have hpoint : ∀ c ∈ n.tailCodes.head?, c ∈ [69, 101] := by
        rw [tailCodes, hf]
        exact head?_exponent
      split
      · next heq => exact absurd (hpoint 46 (by rw [heq]; rfl)) (by decide)
      · next heq => exact absurd (hpoint 58 (by rw [heq]; rfl)) (by decide)
      · rfl
    | some ds =>
      have hpart : (digitCodes ds.list ++ n.exponent.elim [] Exponent.codes).dropWhile
          Tag.isDigitOrLine = n.exponent.elim [] Exponent.codes :=
        dropWhile_digitCodes fun c hc => by
          have hall : ∀ c ∈ [69, 101], Tag.isDigitOrLine c = false := by decide
          exact hall c (head?_exponent c hc)
      rw [tailCodes_of_fraction hf]
      simp only [hpart, isExponent_elim, Option.isSome_some, Bool.true_and]
  · next heq => cases heq

private theorem bodyCodes_of_whole (hf : n.fraction = none) (he : n.exponent = none) :
    n.bodyCodes = digitCodes n.whole.list := by
  rw [bodyCodes, tailCodes_eq_nil hf he, List.append_nil]

private theorem isInt_codes (hf : n.fraction = none) (he : n.exponent = none) :
    Tag.isInt n.codes = true := by
  simp only [Tag.isInt, takeSign_codes, bodyCodes_of_whole hf he]
  by_cases hzero : n.whole.first = 0
  · have hlist : n.whole.list = [0] := by rw [Digits.list, hzero, n.noLeadingZero hzero]
    rw [hlist]
    rfl
  · have hfirst : n.whole.first.val ≠ 0 := fun h0 => hzero (Fin.ext h0)
    have hcons : digitCodes n.whole.list = (48 + n.whole.first.val) :: digitCodes n.whole.others := rfl
    rw [hcons]
    have hne : 48 + n.whole.first.val ≠ 48 := by omega
    have hdigit : Tag.isDigit (48 + n.whole.first.val) = true := by
      simp [Tag.isDigit]
      omega
    have hcolon : 58 ∉ digitCodes n.whole.others := fun hmem =>
      absurd (isCode_of_mem_digitCodes hmem) (by simp [IsCode])
    have hall : (digitCodes n.whole.others).all Tag.isDigitOrLine = true := by
      have hdigits := @all_isDigit n.whole.others
      simp only [List.all_eq_true, Tag.isDigitOrLine, Bool.or_eq_true] at hdigits ⊢
      exact fun c hc => .inl (hdigits c hc)
    split
    · next heq => exact absurd (List.cons.inj heq).1 hne
    · next heq => exact absurd (List.cons.inj heq).1 hne
    · next heq => exact absurd (List.cons.inj heq).1 hne
    · next heq => exact absurd (List.cons.inj heq).1 hne
    · next heq =>
      obtain ⟨rfl, rfl⟩ := List.cons.inj heq
      rw [Text.pieces_of_notMem hcolon]
      simp only [hdigit, hall, Bool.and_self]
    · next heq => cases heq

private theorem ofPlain_codes (n : Numeral) : ∃ tag ≠ Tag.float, Tag.ofPlain n.codes =
    if n.fraction.isSome && n.exponent.all fun e => e.sign.isSome then .float
    else if Tag.isInt n.codes then .int else tag := by
  obtain ⟨c, cs, hcodes, hc⟩ := n.exists_codes_eq
  have hbool : Tag.isBool n.codes = false := hcodes ▸ isWord_eq_false hc (by decide)
  have hlast : n.codes.getLast? ≠ some 10 := fun hlast =>
    absurd (isCode_of_mem (List.mem_of_getLast? hlast)) (by simp [IsCode])
  have hline : n.codes ≠ [10] := fun hline => hlast (by rw [hline]; rfl)
  simp only [Tag.ofPlain, if_neg hlast, if_neg hline, hbool, isFloat_codes, Bool.false_eq_true,
    if_false]
  refine ⟨_, ?_, rfl⟩
  split_ifs <;> decide

private theorem ofPlain_eq_float_iff : Tag.ofPlain n.codes = .float ↔
    n.fraction.isSome ∧ ∀ e ∈ n.exponent, e.sign.isSome := by
  obtain ⟨tag, htag, hplain⟩ := n.ofPlain_codes
  have hfloat : (n.fraction.isSome && n.exponent.all fun e => e.sign.isSome) = true ↔
      n.fraction.isSome ∧ ∀ e ∈ n.exponent, e.sign.isSome := by
    simp [Option.all_eq_true]
  rw [hplain, ← hfloat]
  split_ifs with hpoint hint
  · exact iff_of_true rfl hpoint
  · exact iff_of_false (by decide) hpoint
  · exact iff_of_false htag hpoint

private theorem ofPlain_of_whole (hf : n.fraction = none) (he : n.exponent = none) :
    Tag.ofPlain n.codes = .int := by
  obtain ⟨tag, -, hplain⟩ := n.ofPlain_codes
  rw [hplain, hf, isInt_codes hf he]
  rfl

/-! ### Integers -/

private theorem digits?_digitCodes {ds : List (Fin 10)} (hds : ds ≠ []) :
    Integer.digits? 10 (digitCodes ds) = some (digitsValue ds) := by
  have hvalue (d : Fin 10) : Integer.digitValue? (48 + d.val) = some d.val := by
    rw [Integer.digitValue?, readsDigits_any.reads d]
  have hempty : (digitCodes ds).isEmpty = false := by
    simpa [digitCodes] using hds
  rw [Integer.digits?, hempty, if_neg (by decide), digitsValue]
  generalize 0 = n
  clear hds hempty
  induction ds generalizing n with
  | nil => rfl
  | cons d ds ih =>
    have hcons : digitCodes (d :: ds) = (48 + d.val) :: digitCodes ds := rfl
    rw [hcons, List.foldlM_cons, hvalue]
    simp only [Option.bind_eq_bind, Option.bind_some, d.isLt, if_true, Option.pure_def]
    exact ih _

private theorem dropBase_ten (cs : List Nat) : Integer.dropBase 10 cs = cs := by
  unfold Integer.dropBase
  split
  · exact if_neg (by simp [Integer.baseLetter?])
  · rfl

/-- White space is no part of a numeral. -/
private theorem strip_of_isCode (h : ∀ c ∈ cs, IsCode c) :
    Text.strip Text.isSpaceOrSeparator cs = cs := by
  refine Text.strip_of_forall fun c hc => ?_
  obtain hdigit | hmark := h c hc
  · simp [Text.isSpaceOrSeparator, Text.isSpace]
    omega
  · have hall : ∀ c ∈ [43, 45, 46, 69, 101], Text.isSpaceOrSeparator c = false := by decide
    exact hall c hmark

private theorem read?_digitCodes (ds : Digits) : Integer.read? 10 (digitCodes ds.list) =
    if ds.list.length ≤ Integer.digitLimit then some (digitsValue ds.list : Int) else none := by
  have hlength : (digitCodes ds.list).length = ds.list.length := List.length_map ..
  have hsign : Text.takeSign (digitCodes ds.list) = (false, digitCodes ds.list) :=
    takeSign_cons ds.first _
  have hne : ds.list ≠ [] := List.cons_ne_nil _ _
  unfold Integer.read?
  simp only [strip_of_isCode fun c hc => isCode_of_mem_digitCodes hc, hsign, dropBase_ten]
  by_cases hshort : ds.list.length ≤ Integer.digitLimit
  · simp [hlength, hshort, digits?_digitCodes hne]
  · simp [hlength, hshort, Nat.lt_of_not_le hshort]

/-- There is no line between the digits of a numeral. -/
private theorem dropLines_codes : dropLines n.codes = n.codes := by
  refine List.filter_eq_self.2 fun c hc => ?_
  obtain hdigit | hmark := isCode_of_mem hc
  · exact decide_eq_true (by omega)
  · have hall : ∀ c ∈ [43, 45, 46, 69, 101], decide (c ≠ 95) = true := by decide
    exact hall c hmark

private theorem signed_codes (n : Numeral) : signed n.codes = .ok (n.negative, n.bodyCodes) := by
  obtain ⟨c, cs, hcodes, -⟩ := n.exists_codes_eq
  have hsome : n.codes.isEmpty = false := by
    rw [hcodes]
    rfl
  rw [signed, hsome, takeSign_codes]
  rfl

private theorem integerOf_codes (hf : n.fraction = none) (he : n.exponent = none) :
    integerOf n.codes = if n.whole.list.length ≤ Integer.digitLimit then
      .ok (if n.negative then -(digitsValue n.whole.list : Int) else digitsValue n.whole.list)
    else .error .badNumber := by
  have hsigned : signed n.codes = .ok (n.negative, digitCodes n.whole.list) := by
    rw [signed_codes, bodyCodes_of_whole hf he]
  have hread := read?_digitCodes n.whole
  have hcolon : (digitCodes n.whole.list).contains 58 = false := by
    rw [List.contains_eq_mem]
    exact decide_eq_false fun hmem => absurd (isCode_of_mem_digitCodes hmem) (by simp [IsCode])
  simp only [integerOf, dropLines_codes, hsigned, bind, Except.bind]
  by_cases hzero : n.whole.first = 0
  · have hlist : n.whole.list = [0] := by rw [Digits.list, hzero, n.noLeadingZero hzero]
    rw [hlist]
    rfl
  · have hhead {cs : List Nat} : digitCodes n.whole.list ≠ 48 :: cs := fun heq =>
      hzero (Fin.ext (Nat.add_left_cancel (List.cons.inj heq).1))
    split
    · next heq => cases heq
    · next heq => exact absurd heq hhead
    · next heq => exact absurd heq hhead
    · next heq => exact absurd heq hhead
    · next heq => exact absurd heq hhead
    · rw [hcolon, hread]
      by_cases hshort : n.whole.list.length ≤ Integer.digitLimit
      · simp only [if_pos hshort]
        rfl
      · simp only [if_neg hshort]
        rfl

/-! ### Decimals -/

/-- The letter of the exponent in lower case. -/
def lowered (n : Numeral) : Numeral :=
  { n with exponent := n.exponent.map fun e => { e with upper := false } }

private theorem lower_digitCodes (ds : List (Fin 10)) :
    (digitCodes ds).map Text.lowerCode = digitCodes ds := by
  rw [digitCodes, List.map_map]
  refine List.map_congr_left fun d _ => ?_
  rw [Function.comp_apply, Text.lowerCode, if_neg (by omega)]

private theorem lower_codes (n : Numeral) : (Text.lower ⟨n.codes⟩).codes = n.lowered.codes := by
  obtain ⟨negative, whole, fraction, exponent, h⟩ := n
  have hexponent (e : Exponent) : e.codes.map Text.lowerCode = { e with upper := false }.codes := by
    obtain ⟨upper, sign, digits⟩ := e
    rcases sign with _ | (_ | _) <;> cases upper <;>
      simp [Exponent.codes, lower_digitCodes, Text.lowerCode, Sign.char]
  cases negative <;> cases fraction <;> cases exponent <;>
    simp [Text.lower, lowered, codes, bodyCodes, tailCodes, lower_digitCodes, hexponent,
      Text.lowerCode]

private theorem double_lowered (n : Numeral) : n.lowered.double = n.double := by
  obtain ⟨negative, whole, fraction, exponent, h⟩ := n
  cases exponent <;> rfl

/-- The numeral without its sign. -/
def magnitude (n : Numeral) : Numeral := { n with negative := false }

private theorem double_eq (n : Numeral) :
    n.double = if n.negative then n.magnitude.double.neg else n.magnitude.double := by
  obtain ⟨negative, whole, fraction, exponent, h⟩ := n
  cases negative with
  | true => exact (Double.neg_ofDecimal false _ _ _).symm
  | false => rfl

/-- YAML reads a decimal with its sign apart. -/
theorem doubleOf_codes (n : Numeral) : doubleOf n.codes = .ok n.double := by
  have hsigned : signed n.lowered.codes = .ok (n.negative, n.lowered.bodyCodes) := n.lowered.signed_codes
  have hcolon : n.lowered.bodyCodes.contains 58 = false := by
    rw [List.contains_eq_mem]
    exact decide_eq_false fun hmem => absurd (isCode_of_mem_bodyCodes hmem) (by simp [IsCode])
  have hword {t : Text} (ht : ∀ c ∈ t.codes.head?, c < 48 ∨ 57 < c) :
      n.lowered.bodyCodes ≠ t.codes := by
    intro heq
    have := ht (48 + n.whole.first.val) (by rw [← heq]; rfl)
    omega
  have hread : decimal? n.lowered.bodyCodes = some n.lowered.magnitude.double := by
    rw [decimal?, strip_of_isCode fun c hc => isCode_of_mem_bodyCodes hc]
    exact read?_codes (n := n.lowered.magnitude) readsDigits_any
  simp only [doubleOf, dropLines_codes, lower_codes, hsigned, bind, Except.bind,
    if_neg (hword (t := ".inf") (by decide)), if_neg (hword (t := ".nan") (by decide)), hcolon, hread]
  rw [← double_lowered n, double_eq n.lowered]
  rfl

private theorem value_of_whole (hf : n.fraction = none) (he : n.exponent = none) : n.value =
    .int (if n.negative then -(digitsValue n.whole.list : Int) else digitsValue n.whole.list) := by
  rw [value, hf, he]
  rfl

private theorem value_of_decimal (h : n.fraction.isSome ∨ n.exponent.isSome) :
    n.value = .double n.double := by
  rw [value, if_neg]
  rintro ⟨hf, he⟩
  rw [Option.isNone_iff_eq_none] at hf he
  simp [hf, he] at h

/-- A numeral is a plain scalar with the value that it has in JSON if it is shared, and no other
numeral is. -/
theorem scalarOf_codes_iff (n : Numeral) :
    (scalarOf (Tag.ofPlain n.codes) n.codes).map Value.scalar = .ok n.value ↔ n.IsShared := by
  by_cases hdecimal : n.fraction.isSome ∨ n.exponent.isSome
  · rw [value_of_decimal hdecimal]
    constructor
    · intro h
      cases hs : scalarOf (Tag.ofPlain n.codes) n.codes with
      | error f =>
        rw [hs] at h
        cases h
      | ok s =>
        rw [hs] at h
        cases h
        obtain ⟨hfraction, hsign⟩ := ofPlain_eq_float_iff.1 (eq_float_of_scalarOf hs)
        exact ⟨fun _ => hfraction, hsign, fun hf => by simp [hf] at hfraction⟩
    · intro h
      have hfraction : n.fraction.isSome := hdecimal.elim id h.fraction
      rw [ofPlain_eq_float_iff.2 ⟨hfraction, h.sign⟩]
      simp [scalarOf, doubleOf_codes, Except.map]
  · obtain ⟨hf, he⟩ : n.fraction = none ∧ n.exponent = none := by simpa using hdecimal
    rw [value_of_whole hf he, ofPlain_of_whole hf he, scalarOf, integerOf_codes hf he]
    constructor
    · intro h
      by_cases hlength : n.whole.list.length ≤ Integer.digitLimit
      · exact ⟨by simp [he], by simp [he], fun _ => hlength⟩
      · rw [if_neg hlength] at h
        cases h
    · intro h
      rw [if_pos (h.digits hf)]
      rfl

end

end Numeral

end Flowchart.Json
