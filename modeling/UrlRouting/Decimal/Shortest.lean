import UrlRouting.Decimal.Binary

/-!
The text of a floating-point number: the fewest decimal digits that read back as the same number,
and of those the nearest to it. Numbers from `0.0001` up to, but not including, `10 ^ 16` are
written positionally, with at least one digit after the point; all others with an exponent.
-/

namespace UrlRouting.Decimal

def floorLog10 (numerator denominator : Nat) : Int :=
  if denominator ≤ numerator then
    ((Text.ofNat (numerator / denominator)).length : Int) - 1
  else
    let guess := (Text.ofNat (denominator / numerator)).length
    if denominator ≤ numerator * Nat.pow 10 (guess - 1) then 1 - (guess : Int) else -(guess : Int)

/-- The reals that round to a number, and the number itself: fractions with numerators `low`,
`middle` and `high` over one denominator. The ends belong to it where `closed` holds. -/
structure Span where
  low : Nat
  middle : Nat
  high : Nat
  denominator : Nat
  closed : Bool

/-- The span of a positive number. Below a power of two the neighbours are twice as dense. -/
def Span.of (significand : Nat) (exponent : Int) : Span :=
  let below := if significand = leadingBit && -1074 < exponent then 1 else 2
  let (unit, denominator) := scale 2 1 1 (exponent - 2)
  { low := (4 * significand - below) * unit
    middle := 4 * significand * unit
    high := (4 * significand + 2) * unit
    denominator := denominator
    closed := significand % 2 == 0 }

/-- The decimal `digits · 10 ^ exponent` reads back as the number of the span. -/
def Span.holds (span : Span) (digits : Nat) (exponent : Int) : Bool :=
  let (n, d) := scale 10 digits 1 exponent
  let value := n * span.denominator
  if span.closed then decide (span.low * d ≤ value) && decide (value ≤ span.high * d)
  else decide (span.low * d < value) && decide (value < span.high * d)

/-- The neighbour of the number, on the grid of multiples of `10 ^ exponent`, that reads back; of
two the nearer, and of two equally near the even one. -/
def Span.onGrid? (span : Span) (exponent : Int) : Option Nat :=
  let (n, d) := scale 10 span.middle span.denominator (-exponent)
  let below := n / d
  let above := below + 1
  match span.holds below exponent, span.holds above exponent with
  | true, true => some (roundDiv n d)
  | true, false => some below
  | false, true => some above
  | false, false => none

/-- The digits and the exponent of the leading digit of a positive number, trying `count` further
grids that start with `length` digits. -/
def Span.shortest (span : Span) (leading : Int) : Nat → Nat → Nat × Int
  | 0, length => (span.middle / span.denominator, leading + 1 - length)
  | count + 1, length =>
    let exponent := leading + 1 - length
    match span.onGrid? exponent with
    | some digits => (digits, exponent)
    | none => span.shortest leading count (length + 1)

def layOut (digits : Text) (exponent : Int) : Text :=
  let leading := exponent + digits.length - 1
  if leading < -4 || 16 ≤ leading then
    let fraction := digits.drop 1
    let size := Text.ofNat leading.natAbs
    digits.take 1 ++ (if fraction.isEmpty then [] else '.' :: fraction) ++
      'e' :: (if leading < 0 then '-' else '+') ::
        (List.replicate (2 - size.length) '0' ++ size)
  else if leading < 0 then
    '0' :: '.' :: (List.replicate (-leading - 1).toNat '0' ++ digits)
  else
    let whole := leading.toNat + 1
    let padded := digits ++ List.replicate (whole - digits.length) '0'
    let fraction := padded.drop whole
    padded.take whole ++ '.' :: (if fraction.isEmpty then ['0'] else fraction)

def ofFloat (x : Float) : Text :=
  match exact x with
  | .undefined => "nan"
  | .infinite negative => if negative then "-inf" else "inf"
  | .finite negative significand exponent =>
    let body : Text :=
      if significand = 0 then "0.0"
      else
        let span := Span.of significand exponent
        let leading := floorLog10 span.middle span.denominator
        let (digits, exponent) := span.shortest leading 17 1
        let numeral := Text.ofNat digits
        let kept := Text.trimRight (· == '0') numeral
        layOut kept (exponent + (numeral.length - kept.length : Nat))
    if negative then '-' :: body else body

end UrlRouting.Decimal
