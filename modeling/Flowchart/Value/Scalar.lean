import Flowchart.Number.Shortest
import Flowchart.Text.Quoted
import Flowchart.Value.Calendar
/-! Scalars: the values that can be keys and ids. -/
namespace Flowchart

inductive Scalar where
  | null
  | bool (b : Bool)
  | int (i : Int)
  | double (d : Double)
  | text (t : Text)
  | bytes (octets : List Nat)
  | date (d : Date)
  | moment (m : Moment)
deriving DecidableEq, Inhabited

/-- What two scalars share when they count as the same key: numbers are told apart by value
alone, true and false are the numbers one and zero, and a moment with an offset is the instant
it names. -/
inductive Key where
  | null
  | int (i : Int)
  | double (d : Double)
  | text (t : Text)
  | bytes (octets : List Nat)
  | date (d : Date)
  | clock (m : Moment)
  | instant (micros : Int)
deriving DecidableEq, Inhabited

namespace Scalar

instance : Coe Text Scalar := ⟨text⟩

instance : Coe String Scalar := ⟨fun s => text s⟩

/-- The key that a scalar counts as. All NaN values share one key here; where values have an identity,
two of them that were made apart are told apart. -/
def key : Scalar → Key
  | null => .null
  | bool b => .int (if b then 1 else 0)
  | int i => .int i
  | double d =>
    match d.toInt? with
    | some i => .int i
    | none => .double d
  | text t => .text t
  | bytes os => .bytes os
  | date d => .date d
  | moment m =>
    match m.offset with
    | none => .clock m
    | some o => .instant (m.localMicros - o * 60000000)

/-- Null, zero, false and the empty text stand for a value that was not given. -/
def isBlank : Scalar → Bool
  | null => true
  | bool b => !b
  | int i => i == 0
  | double d => d.isZero
  | text t => t.isEmpty
  | bytes os => os.isEmpty
  | date _ => false
  | moment _ => false

private def listed (ns : List Nat) : Text := Text.joined ", " (ns.map Text.ofNat)

private def quotedOffset (o : Int) : Text :=
  if o = 0 then "datetime.timezone.utc"
  else
    let days : List Text := if o < 0 then ["days=" ++ Text.ofInt (o * 60 / 86400)] else []
    let seconds : List Text :=
      if o * 60 % 86400 = 0 then [] else ["seconds=" ++ Text.ofInt (o * 60 % 86400)]
    "datetime.timezone(datetime.timedelta(" ++ Text.joined ", " (days ++ seconds) ++ "))"

/-- Seconds and microseconds are left out from the right while they are zero. -/
private def quotedMoment (m : Moment) : Text :=
  let small := if m.micro ≠ 0 then [m.second, m.micro] else if m.second ≠ 0 then [m.second] else []
  "datetime.datetime(" ++
    listed ([m.date.year, m.date.month, m.date.day, m.hour, m.minute] ++ small) ++
    m.offset.elim Text.empty (fun o => ", tzinfo=" ++ quotedOffset o) ++ ")"

/-- The text of a scalar inside a list or a mapping. -/
def quoted : Scalar → Text
  | null => "None"
  | bool b => if b then "True" else "False"
  | int i => Text.ofInt i
  | double d => d.text
  | text t => t.quoted
  | bytes os => Text.quotedOctets os
  | date d => "datetime.date(" ++ listed [d.year, d.month, d.day] ++ ")"
  | moment m => quotedMoment m

/-- The text of a scalar on its own: a text is its own text. -/
def display : Scalar → Text
  | text t => t
  | date d => d.text
  | moment m => m.text " "
  | s => s.quoted

/-- The value of a number as a fraction. -/
private def number? : Scalar → Option (Int × Nat)
  | bool b => some (if b then 1 else 0, 1)
  | int i => some (i, 1)
  | double d => d.ratio?
  | _ => none

/-- The order among texts, by code points, and among numbers, by value; scalars of two kinds
have none. -/
def atMost? (a b : Scalar) : Option Bool :=
  match a, b with
  | text s, text t => some (s.atMost t)
  | a, b => do
    let x ← number? a
    let y ← number? b
    pure (Double.ratioAtMost x y)

private theorem isRatio_number? {a : Scalar} {x : Int × Nat} (h : number? a = some x) :
    Double.IsRatio x := by
  unfold number? at h
  split at h
  · cases h; exact nofun
  · cases h; exact nofun
  · exact Double.isRatio_of_ratio? h
  · cases h

/-- Only two texts and two numbers are in order. -/
private theorem atMost?_eq_some {a b : Scalar} {r : Bool} : a.atMost? b = some r ↔
    (∃ s t, a = text s ∧ b = text t ∧ s.atMost t = r) ∨
      ∃ x y, number? a = some x ∧ number? b = some y ∧ Double.ratioAtMost x y = r := by
  unfold atMost?
  split
  · simp [number?]
  · next hne =>
    have hnot : ¬ ∃ s t, a = text s ∧ b = text t ∧ s.atMost t = r :=
      fun ⟨s, t, ha, hb, _⟩ => hne s t ha hb
    rw [or_iff_right hnot]
    simp [Option.bind_eq_some_iff]

theorem atMost?_total {a b : Scalar} (h : (a.atMost? b).isSome) :
    a.atMost? b = some true ∨ b.atMost? a = some true := by
  obtain ⟨r, h⟩ := Option.isSome_iff_exists.1 h
  simp only [atMost?_eq_some]
  rcases atMost?_eq_some.1 h with ⟨s, t, ha, hb, -⟩ | ⟨x, y, hx, hy, -⟩
  · rcases Bool.or_eq_true_iff.1 (Text.atMost_total s t) with hst | hts
    · exact .inl (.inl ⟨s, t, ha, hb, hst⟩)
    · exact .inr (.inl ⟨t, s, hb, ha, hts⟩)
  · rcases Double.ratioAtMost_total x y with hxy | hyx
    · exact .inl (.inr ⟨x, y, hx, hy, hxy⟩)
    · exact .inr (.inr ⟨y, x, hy, hx, hyx⟩)

theorem atMost?_trans {a b c : Scalar} (hab : a.atMost? b = some true)
    (hbc : b.atMost? c = some true) : a.atMost? c = some true := by
  rw [atMost?_eq_some] at hab hbc ⊢
  rcases hab with ⟨s, t, rfl, rfl, hst⟩ | ⟨x, y, hx, hy, hxy⟩
  · rcases hbc with ⟨t', u, ht, rfl, htu⟩ | ⟨_, _, hy, _⟩
    · cases ht
      exact .inl ⟨s, u, rfl, rfl, Text.atMost_trans hst htu⟩
    · cases hy
  · rcases hbc with ⟨_, _, rfl, _⟩ | ⟨y', z, hy', hz, hyz⟩
    · cases hy
    · cases hy.symm.trans hy'
      exact .inr ⟨x, z, hx, hz, Double.ratioAtMost_trans (isRatio_number? hx)
        (isRatio_number? hy) (isRatio_number? hz) hxy hyz⟩

@[simp] theorem key_text (t : Text) : (text t).key = .text t := rfl

/-- A text is a key of its own. -/
theorem key_eq_text {s : Scalar} {t : Text} : s.key = .text t ↔ s = text t := by
  cases s with
  | double d => cases h : d.toInt? <;> simp [key, h]
  | moment m => cases h : m.offset <;> simp [key, h]
  | _ => simp [key]

end Scalar

end Flowchart
