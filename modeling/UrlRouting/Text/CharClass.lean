import UrlRouting.Text.ClassTable

/-!
The character classes that rules, numerals and quoted text are read with. ASCII is spelled out; the
rest is looked up in the tables.
-/

namespace UrlRouting.Text

def hasProperty (ascii : Char → Bool) (table : Intervals) (c : Char) : Bool :=
  if c.val < 128 then ascii c else table.covers c.toNat

def isAlphanumeric : Char → Bool := hasProperty Char.isAlphanum ClassTable.alphanumeric

def isWord (c : Char) : Bool := c == '_' || isAlphanumeric c

def isDigit : Char → Bool := hasProperty Char.isDigit ClassTable.decimalDigit

def isBlank : Char → Bool :=
  hasProperty
    (fun c ↦ c == ' ' || ('\t' ≤ c && c ≤ '\r') || ('\x1c' ≤ c && c ≤ '\x1f'))
    ClassTable.blank

/-- White space that a numeral may stand in; the ASCII separators are not. -/
def isNumeralBlank (c : Char) : Bool := isBlank c && !('\x1c' ≤ c && c ≤ '\x1f')

def isPrintable (c : Char) : Bool :=
  !hasProperty (fun c ↦ c < ' ' || c == '\x7f') ClassTable.unprintable c

def isAsciiLetter (c : Char) : Bool := c.isAlpha

def isNameStart : Char → Bool :=
  hasProperty (fun c ↦ c.isAlpha || c == '_') ClassTable.nameStart

def isNameContinue : Char → Bool :=
  hasProperty (fun c ↦ c.isAlphanum || c == '_') ClassTable.nameContinue

def isIdentifier : List Char → Bool
  | [] => false
  | c :: rest => isNameStart c && rest.all isNameContinue

def isCased : Char → Bool := hasProperty Char.isAlpha ClassTable.cased

def isCaseIgnorable : Char → Bool :=
  hasProperty (fun c ↦ c == '\'' || c == '.' || c == ':' || c == '^' || c == '\x60')
    ClassTable.caseIgnorable

def digitValue? (c : Char) : Option Nat :=
  if c.val < 128 then
    if c.isDigit then some (c.toNat - '0'.toNat) else none
  else
    (ClassTable.decimalDigit.find? fun interval ↦
      decide (interval.1 ≤ c.toNat) && decide (c.toNat ≤ interval.2)).map fun interval ↦
        (c.toNat - interval.1) % 10

def hexValue? (c : Char) : Option Nat :=
  if '0' ≤ c && c ≤ '9' then some (c.toNat - '0'.toNat)
  else if 'a' ≤ c && c ≤ 'f' then some (c.toNat - 'a'.toNat + 10)
  else if 'A' ≤ c && c ≤ 'F' then some (c.toNat - 'A'.toNat + 10)
  else none

end UrlRouting.Text
