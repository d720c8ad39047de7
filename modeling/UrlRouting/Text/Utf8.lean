import UrlRouting.Text.Basic

/-!
Reading octets as UTF-8 without ever failing: what is no character is read as the replacement
character, one for each longest piece that could still have become a character.
-/

namespace UrlRouting.Text.Utf8

def replacement : Char := '\ufffd'

def isTail (octet : Nat) : Bool := decide (0x80 ≤ octet) && decide (octet ≤ 0xBF)

/-- How many octets follow the first one of a character, with the bounds of the second octet;
`none` for an octet that starts no character. -/
def tailBounds? (first : Nat) : Option (Nat × Nat × Nat) :=
  if first < 0x80 then some (0, 0, 0)
  else if first < 0xC2 then none
  else if first ≤ 0xDF then some (1, 0x80, 0xBF)
  else if first = 0xE0 then some (2, 0xA0, 0xBF)
  else if first = 0xED then some (2, 0x80, 0x9F)
  else if first ≤ 0xEF then some (2, 0x80, 0xBF)
  else if first = 0xF0 then some (3, 0x90, 0xBF)
  else if first ≤ 0xF3 then some (3, 0x80, 0xBF)
  else if first = 0xF4 then some (3, 0x80, 0x8F)
  else none

def readChar (first : Nat) (rest : List Nat) : Char × Nat :=
  match tailBounds? first, rest with
  | none, _ => (replacement, 1)
  | some (0, _, _), _ => (Char.ofNat first, 1)
  | some (_, _, _), [] => (replacement, 1)
  | some (count, low, high), second :: rest =>
    if second < low || high < second then (replacement, 1)
    else if count = 1 then (Char.ofNat ((first - 0xC0) * 0x40 + (second - 0x80)), 2)
    else
      match rest with
      | [] => (replacement, 2)
      | third :: rest =>
        if !isTail third then (replacement, 2)
        else if count = 2 then
          (Char.ofNat ((first - 0xE0) * 0x1000 + (second - 0x80) * 0x40 + (third - 0x80)), 3)
        else
          match rest with
          | [] => (replacement, 3)
          | fourth :: _ =>
            if !isTail fourth then (replacement, 3)
            else
              (Char.ofNat ((first - 0xF0) * 0x40000 + (second - 0x80) * 0x1000 +
                (third - 0x80) * 0x40 + (fourth - 0x80)), 4)

/-- Reads octets after `skip` that belong to a character already read. -/
def decodeAfter : Nat → List Nat → Text
  | _, [] => []
  | skip + 1, _ :: rest => decodeAfter skip rest
  | 0, first :: rest =>
    let (c, taken) := readChar first rest
    c :: decodeAfter (taken - 1) rest

def decode (octets : List Nat) : Text := decodeAfter 0 octets

end UrlRouting.Text.Utf8
