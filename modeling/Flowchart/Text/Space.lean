/-! The white space code points of the Unicode property table. -/
namespace Flowchart.Text

/-- Code points with the property White_Space. -/
def isSpace (c : Nat) : Bool :=
  (9 ≤ c && c ≤ 13) || c == 0x20 || c == 0x85 || c == 0xA0 || c == 0x1680 ||
  (0x2000 ≤ c && c ≤ 0x200A) || c == 0x2028 || c == 0x2029 || c == 0x202F || c == 0x205F ||
  c == 0x3000

/-- White space together with the four ASCII information separators. -/
def isSpaceOrSeparator (c : Nat) : Bool := isSpace c || (0x1C ≤ c && c ≤ 0x1F)

/-- Drop the code points that satisfy `p` from both ends. -/
def strip (p : Nat → Bool) (cs : List Nat) : List Nat :=
  ((cs.dropWhile p).reverse.dropWhile p).reverse

theorem strip_of_forall {p : Nat → Bool} {cs : List Nat} (h : ∀ c ∈ cs, p c = false) :
    strip p cs = cs := by
  have hdrop {cs : List Nat} (h : ∀ c ∈ cs, p c = false) : cs.dropWhile p = cs := by
    cases cs with
    | nil => rfl
    | cons c cs => rw [List.dropWhile_cons_of_neg]; simp [h c List.mem_cons_self]
  rw [strip, hdrop h, hdrop fun c hc => h c (List.mem_reverse.1 hc), List.reverse_reverse]

end Flowchart.Text
