import UrlRouting.Text.CharClass
import UrlRouting.Text.Utf8

/-!
Percent escapes. An escape is a percent sign with two hexadecimal digits and stands for one octet;
a percent sign without them stands for itself. The octets of each unbroken run of ASCII characters
are read as UTF-8, and all other characters are kept.
-/

namespace UrlRouting.Text.Percent

def octets : Text → List Nat
  | [] => []
  | '%' :: high :: low :: rest =>
    match hexValue? high, hexValue? low with
    | some h, some l => (16 * h + l) :: octets rest
    | _, _ => '%'.toNat :: octets (high :: low :: rest)
  | c :: rest => c.toNat :: octets rest

/-- Reads a text whose ASCII characters since the last other one are `pending`, last one first. -/
def decodeAfter (pending : Text) : Text → Text
  | [] => Utf8.decode (octets pending.reverse)
  | c :: rest =>
    if c.val < 128 then decodeAfter (c :: pending) rest
    else Utf8.decode (octets pending.reverse) ++ c :: decodeAfter [] rest

def decode (t : Text) : Text := decodeAfter [] t

end UrlRouting.Text.Percent
