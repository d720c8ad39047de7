import UrlRouting.Text.Basic
import UrlRouting.Text.CharClass

/-!
Decimal numerals as a URL may hold them: digits of any script, a single underscore between two
digits, a sign, and blanks around the whole. A numeral of more than 4300 digits is refused.
-/

namespace UrlRouting.Decimal

/-- The longest run of digits at the head, and what follows it. The last argument tells whether a
digit stands directly before, so that an underscore may come next. -/
def takeDigits : Text → Bool → List Nat × Text
  | [], _ => ([], [])
  | '_' :: c :: rest, true =>
    match Text.digitValue? c with
    | some d =>
      let (digits, after) := takeDigits rest true
      (d :: digits, after)
    | none => ([], '_' :: c :: rest)
  | c :: rest, _ =>
    match Text.digitValue? c with
    | some d =>
      let (digits, after) := takeDigits rest true
      (d :: digits, after)
    | none => ([], c :: rest)

def ofDigits (digits : List Nat) : Nat := digits.foldl (fun n d ↦ 10 * n + d) 0

def takeSign : Text → Bool × Text
  | '-' :: rest => (true, rest)
  | '+' :: rest => (false, rest)
  | t => (false, t)

def digitLimit : Nat := 4300

def readInt? (t : Text) : Option Int :=
  let (negative, t) := takeSign (Text.trim Text.isNumeralBlank t)
  match takeDigits t false with
  | ([], _) => none
  | (digits, []) =>
    if digits.length ≤ digitLimit then
      some (if negative then -(ofDigits digits : Int) else ofDigits digits)
    else none
  | (_, _ :: _) => none

/-- What a numeral with a fraction or an exponent denotes: the digits without the point, scaled by
a power of ten, or one of the special values. -/
inductive Reading where
  | number (significand : Nat) (exponent : Int)
  | infinite
  | undefined

def readExponent? : Text → Option Int
  | [] => some 0
  | c :: rest =>
    if c = 'e' || c = 'E' then
      let (negative, rest) := takeSign rest
      match takeDigits rest false with
      | ([], _) => none
      | (digits, []) => some (if negative then -(ofDigits digits : Int) else ofDigits digits)
      | (_, _ :: _) => none
    else none

def readUnsigned? (t : Text) : Option Reading :=
  let word : Text := t.map Char.toLower
  if word = "inf" || word = "infinity" then some .infinite
  else if word = "nan" then some .undefined
  else
    let (whole, rest) := takeDigits t false
    let (fraction, rest) :=
      match rest with
      | '.' :: rest => takeDigits rest false
      | rest => ([], rest)
    if whole.isEmpty && fraction.isEmpty then none
    else
      (readExponent? rest).map fun exponent ↦
        .number (ofDigits (whole ++ fraction)) (exponent - fraction.length)

/-- Reads a numeral: whether it is negative, and its value. -/
def read? (t : Text) : Option (Bool × Reading) :=
  let (negative, t) := takeSign (Text.trim Text.isNumeralBlank t)
  (readUnsigned? t).map fun reading ↦ (negative, reading)

end UrlRouting.Decimal
