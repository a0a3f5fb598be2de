/-! Text as a list of code points. Unlike a string it can hold a lone surrogate, which an
escape in an export may name. -/
namespace Flowchart

structure Text where
  codes : List Nat
deriving DecidableEq, Inhabited

namespace Text

def ofChars (cs : List Char) : Text := ⟨cs.map Char.toNat⟩

def ofString (s : String) : Text := ofChars s.toList

instance : Coe String Text := ⟨ofString⟩

def empty : Text := ⟨[]⟩

instance : Append Text := ⟨fun a b => ⟨a.codes ++ b.codes⟩⟩

def isEmpty (t : Text) : Bool := t.codes.isEmpty

/-- The texts in order with `gap` between neighbours. -/
def joined (gap : Text) : List Text → Text
  | [] => empty
  | [t] => t
  | t :: ts => t ++ gap ++ joined gap ts

/-- The runs between the occurrences of `c`, always at least one. -/
def pieces (c : Nat) : List Nat → List (List Nat)
  | [] => [[]]
  | d :: cs =>
    if d = c then [] :: pieces c cs
    else
      match pieces c cs with
      | [] => [[d]]
      | run :: runs => (d :: run) :: runs

/-- The first difference decides; a list comes before those it begins. -/
def inOrder : List Nat → List Nat → Bool
  | [], _ => true
  | _ :: _, [] => false
  | a :: as, b :: bs => decide (a < b) || (decide (a = b) && inOrder as bs)

/-- Code point order. -/
def atMost (a b : Text) : Bool := inOrder a.codes b.codes

def ofNat (n : Nat) : Text := ofChars (Nat.toDigits 10 n)

def ofInt (i : Int) : Text :=
  if i < 0 then "-" ++ ofNat i.natAbs else ofNat i.natAbs

/-- A natural number in decimal, filled up with zeros on the left to `width` digits. -/
def padded (width n : Nat) : Text :=
  let ds := (ofNat n).codes
  ⟨List.replicate (width - ds.length) 48 ++ ds⟩

def lowerCode (c : Nat) : Nat := if 65 ≤ c ∧ c ≤ 90 then c + 32 else c

/-- ASCII letters become lower case; every other code point stays. -/
def lower (t : Text) : Text := ⟨t.codes.map lowerCode⟩

/-- Without an occurrence there is one run. -/
theorem pieces_of_notMem {c : Nat} {cs : List Nat} (h : c ∉ cs) : pieces c cs = [cs] := by
  induction cs with
  | nil => rfl
  | cons d cs ih =>
    obtain ⟨hd, hcs⟩ := List.ne_and_not_mem_of_not_mem_cons h
    rw [pieces, if_neg (Ne.symm hd), ih hcs]

@[simp] theorem codes_append (a b : Text) : (a ++ b).codes = a.codes ++ b.codes := rfl

theorem append_assoc (a b c : Text) : a ++ b ++ c = a ++ (b ++ c) := by
  cases a; cases b; cases c
  exact congrArg Text.mk (List.append_assoc ..)

theorem inOrder_total (as bs : List Nat) : (inOrder as bs || inOrder bs as) = true := by
  induction as generalizing bs with
  | nil => rfl
  | cons a as ih =>
    cases bs with
    | nil => rfl
    | cons b bs =>
      have h := ih bs
      simp only [inOrder, Bool.or_eq_true, Bool.and_eq_true, decide_eq_true_eq] at h ⊢
      rcases Nat.lt_trichotomy a b with hab | rfl | hab
      · exact .inl (.inl hab)
      · exact h.imp (fun h => .inr ⟨rfl, h⟩) fun h => .inr ⟨rfl, h⟩
      · exact .inr (.inl hab)

theorem inOrder_trans {as bs cs : List Nat} (hab : inOrder as bs = true)
    (hbc : inOrder bs cs = true) : inOrder as cs = true := by
  induction as generalizing bs cs with
  | nil => rfl
  | cons a as ih =>
    cases bs with
    | nil => cases hab
    | cons b bs =>
      cases cs with
      | nil => cases hbc
      | cons c cs =>
        simp only [inOrder, Bool.or_eq_true, Bool.and_eq_true, decide_eq_true_eq] at hab hbc ⊢
        rcases hab with hab | ⟨rfl, hab⟩
        · rcases hbc with hbc | ⟨rfl, -⟩
          · exact .inl (Nat.lt_trans hab hbc)
          · exact .inl hab
        · exact hbc.imp id fun h => ⟨h.1, ih hab h.2⟩

theorem atMost_total (a b : Text) : (a.atMost b || b.atMost a) = true := inOrder_total ..

theorem atMost_trans {a b c : Text} (hab : a.atMost b = true) (hbc : b.atMost c = true) :
    a.atMost c = true := inOrder_trans hab hbc

end Text

end Flowchart
