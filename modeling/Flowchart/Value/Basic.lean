import Flowchart.Value.Table
/-! Values of graphs and documents: scalars, lists and mappings, with pairs and sets as they
come from an import. A value of an import may contain itself. It is then written out for some levels,
more than are looked at. -/
namespace Flowchart

inductive Value where
  | scalar (s : Scalar)
  | list (items : List Value)
  | tuple (items : List Value)
  | set (items : List Scalar)
  | map (entries : List (Scalar × Value))
  /-- The rest of a value that contains itself. -/
  | endless
deriving Inhabited

abbrev Fields := Table Value

namespace Value

instance : Coe Scalar Value := ⟨scalar⟩

instance : Coe Text Value := ⟨fun t => scalar t⟩

instance : Coe String Value := ⟨fun s => scalar (s : Text)⟩

@[match_pattern] abbrev null : Value := scalar .null

@[match_pattern] abbrev bool (b : Bool) : Value := scalar (.bool b)

@[match_pattern] abbrev int (i : Int) : Value := scalar (.int i)

@[match_pattern] abbrev double (d : Double) : Value := scalar (.double d)

@[match_pattern] abbrev text (t : Text) : Value := scalar (.text t)

mutual

def decEq : (a b : Value) → Decidable (a = b)
  | scalar s, scalar t => decidable_of_iff (s = t) (by simp)
  | list xs, list ys => @decidable_of_iff _ _ (by simp) (decEqItems xs ys)
  | tuple xs, tuple ys => @decidable_of_iff _ _ (by simp) (decEqItems xs ys)
  | set xs, set ys => decidable_of_iff (xs = ys) (by simp)
  | map xs, map ys => @decidable_of_iff _ _ (by simp) (decEqEntries xs ys)
  | endless, endless => isTrue rfl
  | scalar _, list _ | scalar _, tuple _ | scalar _, set _ | scalar _, map _ | scalar _, endless
  | list _, scalar _ | list _, tuple _ | list _, set _ | list _, map _ | list _, endless
  | tuple _, scalar _ | tuple _, list _ | tuple _, set _ | tuple _, map _ | tuple _, endless
  | set _, scalar _ | set _, list _ | set _, tuple _ | set _, map _ | set _, endless
  | map _, scalar _ | map _, list _ | map _, tuple _ | map _, set _ | map _, endless
  | endless, scalar _ | endless, list _ | endless, tuple _ | endless, set _ | endless, map _ =>
    isFalse (by simp)

def decEqItems : (xs ys : List Value) → Decidable (xs = ys)
  | [], [] => isTrue rfl
  | [], _ :: _ | _ :: _, [] => isFalse (by simp)
  | x :: xs, y :: ys =>
    match decEq x y, decEqItems xs ys with
    | isTrue h, isTrue hs => isTrue (by simp [h, hs])
    | isFalse h, _ => isFalse (by simp [h])
    | _, isFalse hs => isFalse (by simp [hs])

def decEqEntries : (xs ys : List (Scalar × Value)) → Decidable (xs = ys)
  | [], [] => isTrue rfl
  | [], _ :: _ | _ :: _, [] => isFalse (by simp)
  | (k, x) :: xs, (l, y) :: ys =>
    match decEq x y, decEqEntries xs ys with
    | isTrue h, isTrue hs => decidable_of_iff (k = l) (by simp [h, hs])
    | isFalse h, _ => isFalse (by simp [h])
    | _, isFalse hs => isFalse (by simp [hs])

end

instance : DecidableEq Value := decEq

/-- A value that counts as not given: a blank scalar or an empty collection. -/
def isBlank : Value → Bool
  | scalar s => s.isBlank
  | list xs => xs.isEmpty
  | tuple xs => xs.isEmpty
  | set xs => xs.isEmpty
  | map es => es.isEmpty
  | endless => false

/-- The value, or the default where it is blank. -/
def orElse (v default : Value) : Value := if v.isBlank then default else v

/-- Only scalars can be keys. -/
def scalar? : Value → Option Scalar
  | scalar s => some s
  | _ => none

def isScalar : Value → Bool
  | scalar _ => true
  | _ => false

@[simp] theorem orElse_of_blank {v d : Value} (h : v.isBlank = true) : v.orElse d = d := by
  simp [orElse, h]

@[simp] theorem orElse_of_not_blank {v d : Value} (h : v.isBlank = false) : v.orElse d = v := by
  simp [orElse, h]

end Value

namespace Fields

/-- The value under a text key, null when there is none. -/
def value (fs : Fields) (name : Text) : Value := (Table.get? fs (.text name)).getD .null

/-- The value under a text key, or the default where it is absent or blank. -/
def valueOr (fs : Fields) (name : Text) (default : Value) : Value := (fs.value name).orElse default

/-- False only when the key holds false itself. -/
def isOn (fs : Fields) (name : Text) : Bool := fs.value name ≠ .bool false

end Fields

end Flowchart
