/-! Octets from base 64 text. Other characters are passed over, and padding may end the text. -/
namespace Flowchart.Yaml.Base64

/-- The value of a digit, by code point. -/
def digit? (c : Nat) : Option Nat :=
  if 65 ≤ c ∧ c ≤ 90 then some (c - 65)
  else if 97 ≤ c ∧ c ≤ 122 then some (c - 71)
  else if 48 ≤ c ∧ c ≤ 57 then some (c + 4)
  else if c = 43 then some 62
  else if c = 47 then some 63
  else none

/-- Decode with `place` digits of the current group read, `left` their bits not yet written and
`pads` padding marks since the last digit. -/
private def decodeFrom (place left pads : Nat) : List Nat → Option (List Nat)
  | [] => if place = 0 then some [] else none
  | c :: cs =>
    if c = 61 then
      if 2 ≤ place ∧ 4 ≤ place + pads + 1 then some []
      else decodeFrom place left (if 2 ≤ place then pads + 1 else pads) cs
    else
      match digit? c with
      | none => decodeFrom place left pads cs
      | some d =>
        match place with
        | 0 => decodeFrom 1 d 0 cs
        | 1 => (decodeFrom 2 (d % 16) 0 cs).map ((left * 4 + d / 16) :: ·)
        | 2 => (decodeFrom 3 (d % 4) 0 cs).map ((left * 16 + d / 4) :: ·)
        | _ => (decodeFrom 0 0 0 cs).map ((left * 64 + d) :: ·)

def decode? (cs : List Nat) : Option (List Nat) := decodeFrom 0 0 0 cs

end Flowchart.Yaml.Base64
