import Flowchart.Json.Form
import Flowchart.Number.Integer
import Flowchart.Yaml.Cursor
/-! The JSON texts that are YAML texts with the same value. The others have a tab between tokens, a
key that is too long or has its colon on another line, a character that YAML does not take as it is,
an escaped surrogate pair, a number with an exponent but no point or no sign behind its letter, or an
integer with too many digits. -/
namespace Flowchart.Json

/-- No tab stands between two tokens. -/
def Gap.IsShared (g : Gap) : Prop := Blank.tab ∉ g

instance (g : Gap) : Decidable g.IsShared := inferInstanceAs (Decidable (Blank.tab ∉ g))

/-- An exponent needs a point before it and a sign, and an integer can be read. -/
structure Numeral.IsShared (n : Numeral) : Prop where
  fraction : n.exponent.isSome → n.fraction.isSome
  sign : ∀ e ∈ n.exponent, e.sign.isSome
  digits : n.fraction = none → n.whole.list.length ≤ Integer.digitLimit

instance (n : Numeral) : Decidable n.IsShared :=
  decidable_of_iff ((n.exponent.isSome → n.fraction.isSome) ∧
      (∀ e ∈ n.exponent, e.sign.isSome) ∧
      (n.fraction.isNone → n.whole.list.length ≤ Integer.digitLimit))
    ⟨fun h => ⟨h.1, h.2.1, fun hf => h.2.2 (Option.isNone_iff_eq_none.2 hf)⟩,
      fun h => ⟨h.fraction, h.sign, fun hf => h.digits (Option.isNone_iff_eq_none.1 hf)⟩⟩

/-- A character that stands for itself may do so in YAML, where it ends no line. -/
def Piece.IsShared : Piece → Prop
  | plain c _ => Yaml.isAllowed c.toNat = true ∧ Yaml.isBreak c = false
  | escaped _ _ _ | unicode _ _ _ _ _ _ => True

instance : (p : Piece) → Decidable p.IsShared
  | .plain c _ =>
    inferInstanceAs (Decidable (Yaml.isAllowed c.toNat = true ∧ Yaml.isBreak c = false))
  | .escaped _ _ _ | .unicode _ _ _ _ _ _ => inferInstanceAs (Decidable True)

/-- No two escapes make up one character. -/
structure Pieces.IsShared (s : Pieces) : Prop where
  pieces : ∀ p ∈ s, p.IsShared
  pairs : joinPairs s.codes = s.codes

instance (s : Pieces) : Decidable s.IsShared :=
  decidable_of_iff ((∀ p ∈ s, p.IsShared) ∧ joinPairs s.codes = s.codes)
    ⟨fun h => ⟨h.1, h.2⟩, fun h => ⟨h.pieces, h.pairs⟩⟩

/-- The colon of a key follows on the same line and soon enough. -/
structure Pieces.IsSharedKey (key : Pieces) (behind : Gap) : Prop where
  text : key.IsShared
  spaces : ∀ b ∈ behind, b = Blank.space
  length : key.write.length + behind.length ≤ 1024

instance (key : Pieces) (behind : Gap) : Decidable (key.IsSharedKey behind) :=
  decidable_of_iff (key.IsShared ∧ (∀ b ∈ behind, b = Blank.space) ∧
      key.write.length + behind.length ≤ 1024)
    ⟨fun h => ⟨h.1, h.2.1, h.2.2⟩, fun h => ⟨h.text, h.spaces, h.length⟩⟩

mutual

def Form.IsShared : Form → Prop
  | .null | .bool _ => True
  | .number n => n.IsShared
  | .string s => s.IsShared
  | .emptyArray gap | .emptyObject gap => gap.IsShared
  | .array items => items.IsShared
  | .object entries => entries.IsShared

def Items.IsShared : Items → Prop
  | .last before f after => before.IsShared ∧ f.IsShared ∧ after.IsShared
  | .more before f after items =>
    (before.IsShared ∧ f.IsShared ∧ after.IsShared) ∧ items.IsShared

def Entries.IsShared : Entries → Prop
  | .last before key behind gap f after =>
    (before.IsShared ∧ key.IsSharedKey behind) ∧ gap.IsShared ∧ f.IsShared ∧ after.IsShared
  | .more before key behind gap f after entries =>
    ((before.IsShared ∧ key.IsSharedKey behind) ∧ gap.IsShared ∧ f.IsShared ∧ after.IsShared) ∧
      entries.IsShared

end

mutual

def Form.decIsShared : (f : Form) → Decidable f.IsShared
  | .null | .bool _ => inferInstanceAs (Decidable True)
  | .number n => inferInstanceAs (Decidable n.IsShared)
  | .string s => inferInstanceAs (Decidable s.IsShared)
  | .emptyArray gap | .emptyObject gap => inferInstanceAs (Decidable gap.IsShared)
  | .array items => items.decIsShared
  | .object entries => entries.decIsShared

def Items.decIsShared : (items : Items) → Decidable items.IsShared
  | .last before f after =>
    @instDecidableAnd before.IsShared _ _ (@instDecidableAnd _ after.IsShared f.decIsShared _)
  | .more before f after items =>
    @instDecidableAnd _ _
      (@instDecidableAnd before.IsShared _ _ (@instDecidableAnd _ after.IsShared f.decIsShared _))
      items.decIsShared

def Entries.decIsShared : (entries : Entries) → Decidable entries.IsShared
  | .last before key behind gap f after =>
    @instDecidableAnd (before.IsShared ∧ key.IsSharedKey behind) _ _
      (@instDecidableAnd gap.IsShared _ _ (@instDecidableAnd _ after.IsShared f.decIsShared _))
  | .more before key behind gap f after entries =>
    @instDecidableAnd _ _
      (@instDecidableAnd (before.IsShared ∧ key.IsSharedKey behind) _ _
        (@instDecidableAnd gap.IsShared _ _ (@instDecidableAnd _ after.IsShared f.decIsShared _)))
      entries.decIsShared

end

instance (f : Form) : Decidable f.IsShared := f.decIsShared

/-- The text is read by YAML as JSON reads it. -/
structure Whole.IsShared (w : Whole) : Prop where
  before : w.before.IsShared
  form : w.form.IsShared
  after : w.after.IsShared

instance (w : Whole) : Decidable w.IsShared :=
  decidable_of_iff (w.before.IsShared ∧ w.form.IsShared ∧ w.after.IsShared)
    ⟨fun h => ⟨h.1, h.2.1, h.2.2⟩, fun h => ⟨h.before, h.form, h.after⟩⟩

end Flowchart.Json
