import UrlRouting.Text.Case

/-!
Sets of characters, as the atoms of an expression name them: single characters, ranges, and the
categories of digits, blanks and word characters, possibly negated, possibly without regard to
case.
-/

namespace UrlRouting.Regex

/-- The characters that count as one where an expression compares characters. -/
inductive Folding where
  | exact
  | ascii
  | full
deriving DecidableEq, Repr

def Folding.variants : Folding → Char → List Char
  | .exact, c => [c]
  | .ascii, c => Text.asciiVariants c
  | .full, c => Text.caseVariants c

/-- The representative by which a repeated text is compared with the first one. -/
def Folding.key : Folding → Char → Char
  | .exact, c => c
  | .ascii, c => c.toLower
  | .full, c => Text.lowerChar c

inductive Category where
  | digit
  | blank
  | word
deriving DecidableEq, Repr

/-- The character belongs to the category, which may be confined to ASCII. -/
def Category.holds (category : Category) (asciiOnly : Bool) (c : Char) : Bool :=
  match category, asciiOnly with
  | .digit, true => c.isDigit
  | .digit, false => Text.isDigit c
  | .blank, true => c == ' ' || ('\t' ≤ c && c ≤ '\r')
  | .blank, false => Text.isBlank c
  | .word, true => c.isAlphanum || c == '_'
  | .word, false => Text.isWord c

/-- One part of a set. Code points are numbers, since a range may end outside the characters. -/
inductive SetItem where
  | single (code : Nat)
  | range (low high : Nat)
  | category (kind : Category) (asciiOnly : Bool) (negated : Bool)
deriving DecidableEq, Repr

def SetItem.contains (folding : Folding) (c : Char) : SetItem → Bool
  | .single code => (folding.variants c).any fun v ↦ v.toNat == code
  | .range low high => (folding.variants c).any fun v ↦ decide (low ≤ v.toNat ∧ v.toNat ≤ high)
  | .category kind asciiOnly negated => kind.holds asciiOnly c != negated

structure CharSet where
  items : List SetItem
  negated : Bool
  folding : Folding
deriving DecidableEq, Repr

def CharSet.contains (set : CharSet) (c : Char) : Bool :=
  (set.items.any fun item ↦ item.contains set.folding c) != set.negated

end UrlRouting.Regex
