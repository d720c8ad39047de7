import UrlRouting.Text.Basic
import UrlRouting.Text.CharClass

/-!
Quoted text, as messages and listings show it: between single quotes, or between double quotes
where the text holds a single quote and no double one. Line breaks, tabs, backslashes and the quote
in use are escaped, and every character that is not printable is written by its code.
-/

namespace UrlRouting.Text

/-- A number in hexadecimal, in small letters, padded with zeros to `width` digits. -/
def hexadecimal (width n : Nat) : Text :=
  let digits := Nat.toDigits 16 n
  List.replicate (width - digits.length) '0' ++ digits

def escapeChar (mark c : Char) : Text :=
  if c = mark || c = '\\' then ['\\', c]
  else if c = '\n' then ['\\', 'n']
  else if c = '\r' then ['\\', 'r']
  else if c = '\t' then ['\\', 't']
  else if isPrintable c then [c]
  else if c.toNat < 0x100 then '\\' :: 'x' :: hexadecimal 2 c.toNat
  else if c.toNat < 0x10000 then '\\' :: 'u' :: hexadecimal 4 c.toNat
  else '\\' :: 'U' :: hexadecimal 8 c.toNat

def quotationMark (t : Text) : Char :=
  if t.contains '\'' && !t.contains '"' then '"' else '\''

def quoted (t : Text) : Text :=
  let mark := quotationMark t
  mark :: t.flatMap (escapeChar mark) ++ [mark]

end UrlRouting.Text
