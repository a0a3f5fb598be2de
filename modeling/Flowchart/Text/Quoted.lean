import Flowchart.Text.Basic
import Flowchart.Text.Printable
/-! Quoted text, as it stands inside the text of a list or a mapping. -/
namespace Flowchart.Text

/-- The quote put around a text: the single one, unless only the single one occurs inside. -/
def quoteFor (cs : List Nat) : Nat := if cs.contains 39 && !cs.contains 34 then 34 else 39

/-- `n` in hexadecimal with lower case letters, filled up to `width` digits. -/
def hex (width n : Nat) : List Nat :=
  let ds := (Nat.toDigits 16 n).map Char.toNat
  List.replicate (width - ds.length) 48 ++ ds

/-- One code point between quotes: the quote and the backslash take a backslash, what does not
show is written by number. -/
def quotedCode (quote c : Nat) : List Nat :=
  if c = quote ∨ c = 92 then [92, c]
  else if c = 10 then [92, 110]
  else if c = 13 then [92, 114]
  else if c = 9 then [92, 116]
  else if isPrintable c then [c]
  else if c < 0x100 then [92, 120] ++ hex 2 c
  else if c < 0x10000 then [92, 117] ++ hex 4 c
  else [92, 85] ++ hex 8 c

def quoted (t : Text) : Text :=
  let q := quoteFor t.codes
  ⟨[q] ++ t.codes.flatMap (quotedCode q) ++ [q]⟩

/-- One octet between quotes; only printable ASCII stands for itself. -/
def quotedOctet (quote c : Nat) : List Nat :=
  if c < 0x7F then quotedCode quote c else [92, 120] ++ hex 2 c

def quotedOctets (bs : List Nat) : Text :=
  let q := quoteFor bs
  ⟨[98, q] ++ bs.flatMap (quotedOctet q) ++ [q]⟩

end Flowchart.Text
