import Flowchart.Value.Basic
/-! A place in a YAML text. The end of the text reads as the null character, which the text
itself never holds. -/
namespace Flowchart.Yaml

/-- Why a text is no YAML value. -/
inductive Fault where
  /-- The text breaks a rule of the format. -/
  | malformed
  /-- A number has no digits at all. -/
  | noDigits
  /-- A number or a character code cannot be read. -/
  | badNumber
  /-- A character code does not fit a machine word. -/
  | hugeCode
  /-- A date or a time of day does not exist. -/
  | badDate
  /-- What is tagged a timestamp is none. -/
  | noTimestamp
  /-- What is tagged a truth value is none. -/
  | badWord (word : Text)
deriving DecidableEq

abbrev Scan (α : Type) := Except Fault α

/-- The characters a text may hold. -/
def isAllowed (c : Nat) : Bool :=
  c == 0x09 || c == 0x0A || c == 0x0D || (0x20 ≤ c && c ≤ 0x7E) || c == 0x85 ||
  (0xA0 ≤ c && c ≤ 0xD7FF) || (0xE000 ≤ c && c ≤ 0xFFFD) || (0x10000 ≤ c && c ≤ 0x10FFFF)

def isBreak (c : Char) : Bool :=
  c == '\r' || c == '\n' || c == '\x85' || c == '\u2028' || c == '\u2029'

/-- A line break or the end. -/
def endsLine (c : Char) : Bool := c == '\x00' || isBreak c

/-- A space, a line break or the end. -/
def endsWord (c : Char) : Bool := c == ' ' || endsLine c

/-- A space, a tab, a line break or the end. -/
def isGap (c : Char) : Bool := c == '\t' || endsWord c

/-- The mark that may open a text; it takes no column. -/
def byteOrderMark : Char := '\uFEFF'

structure Cursor where
  rest : List Char
  index : Nat
  line : Nat
  column : Nat

namespace Cursor

def start (cs : List Char) : Cursor := ⟨cs, 0, 0, 0⟩

/-- The character `n` places ahead. -/
def peek (c : Cursor) (n : Nat) : Char := c.rest.getD n '\x00'

def head (c : Cursor) : Char := c.peek 0

/-- Past one character. A carriage return ends no line when a line feed follows. -/
def next (c : Cursor) : Cursor :=
  match c.rest with
  | [] => c
  | ch :: rest =>
    if isBreak ch && !(ch == '\r' && rest.head? == some '\n') then
      ⟨rest, c.index + 1, c.line + 1, 0⟩
    else if ch == byteOrderMark then ⟨rest, c.index + 1, c.line, c.column⟩
    else ⟨rest, c.index + 1, c.line, c.column + 1⟩

def forward (c : Cursor) : Nat → Cursor
  | 0 => c
  | n + 1 => c.next.forward n

theorem rest_next (c : Cursor) : c.next.rest = c.rest.tail := by
  unfold next
  split
  · next h => simp [h]
  · next h =>
    rw [h, List.tail_cons]
    split
    · rfl
    · split <;> rfl

theorem rest_forward (c : Cursor) (n : Nat) : (c.forward n).rest = c.rest.drop n := by
  induction n generalizing c with
  | zero => rfl
  | succ n ih => rw [forward, ih, rest_next, List.drop_tail]

theorem forward_add (c : Cursor) (m n : Nat) : c.forward (m + n) = (c.forward m).forward n := by
  induction m generalizing c with
  | zero => rw [Nat.zero_add]; rfl
  | succ m ih => rw [Nat.succ_add, forward, forward, ih]

/-- The text after what has been passed. -/
theorem rest_forward_of_append {c : Cursor} {cs rest : List Char} (h : c.rest = cs ++ rest) :
    (c.forward cs.length).rest = rest := by
  rw [rest_forward, h, List.drop_left]

theorem head_of_cons {c : Cursor} {ch : Char} {cs : List Char} (h : c.rest = ch :: cs) :
    c.head = ch := by
  rw [head, peek, h]
  rfl

/-- Every character takes one place, and one that ends no line stays on it. -/
theorem next_of_cons {c : Cursor} {ch : Char} {cs : List Char} (h : c.rest = ch :: cs) :
    c.next.index = c.index + 1 ∧ (isBreak ch = false → c.next.line = c.line) := by
  unfold next
  rw [h]
  dsimp only
  split
  · next hbreak => exact ⟨rfl, fun hb => by simp [hb] at hbreak⟩
  · split <;> exact ⟨rfl, fun _ => rfl⟩

theorem forward_of_append {c : Cursor} {cs rest : List Char} (h : c.rest = cs ++ rest) :
    (c.forward cs.length).index = c.index + cs.length ∧
      ((∀ ch ∈ cs, isBreak ch = false) → (c.forward cs.length).line = c.line) := by
  induction cs generalizing c with
  | nil => exact ⟨rfl, fun _ => rfl⟩
  | cons ch cs ih =>
    obtain ⟨hindex, hline⟩ := next_of_cons (h.trans (List.cons_append ..))
    obtain ⟨hindex', hline'⟩ := @ih c.next (by rw [rest_next, h]; rfl)
    refine ⟨?_, fun hb => ?_⟩
    · rw [List.length_cons, forward, hindex', hindex]
      omega
    · rw [List.length_cons, forward, hline' fun x hx => hb x (List.mem_cons_of_mem _ hx),
        hline (hb ch List.mem_cons_self)]

/-- The characters from here on that satisfy `p`, and the place after them. -/
def span (c : Cursor) (p : Char → Bool) : List Char × Cursor :=
  let cs := c.rest.takeWhile p
  (cs, c.forward cs.length)

def skip (c : Cursor) (p : Char → Bool) : Cursor := (c.span p).2

def skipSpaces (c : Cursor) : Cursor := c.skip (· == ' ')

/-- Past a line break, which reads as a line feed unless it is one of the two separators. -/
def lineBreak (c : Cursor) : List Nat × Cursor :=
  match c.rest with
  | '\r' :: '\n' :: _ => ([10], c.forward 2)
  | ch :: _ =>
    if ch == '\r' || ch == '\n' || ch == '\x85' then ([10], c.next)
    else if isBreak ch then ([ch.toNat], c.next)
    else ([], c)
  | [] => ([], c)

/-- Three marks of one kind that stand for themselves: a document starts or ends. -/
def atMarker (c : Cursor) (mark : Char) : Bool :=
  c.peek 0 == mark && c.peek 1 == mark && c.peek 2 == mark && isGap (c.peek 3)

def atDocumentEdge (c : Cursor) : Bool := c.atMarker '-' || c.atMarker '.'

/-- More steps than any walk from here can take. -/
def fuel (c : Cursor) : Nat := c.rest.length + 1

end Cursor

/-- The code points of characters. -/
def codes (cs : List Char) : List Nat := cs.map Char.toNat

end Flowchart.Yaml
