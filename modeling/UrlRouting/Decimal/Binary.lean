import UrlRouting.Decimal.Numeral

/-!
Binary floating point, with 53 significant bits: the exact value of a number, and the nearest
number to an exact value, ties going to the even significand.
-/

namespace UrlRouting.Decimal

/-- A quotient rounded to the nearest integer, a half going to the even neighbour. -/
def roundDiv (numerator denominator : Nat) : Nat :=
  let quotient := numerator / denominator
  let twice := 2 * (numerator % denominator)
  if denominator < twice || (twice == denominator && quotient % 2 == 1) then quotient + 1
  else quotient

/-- The fraction `numerator · base ^ exponent / denominator` as numerator and denominator. -/
def scale (base numerator denominator : Nat) (exponent : Int) : Nat × Nat :=
  match exponent with
  | .ofNat e => (numerator * base.pow e, denominator)
  | .negSucc e => (numerator, denominator * base.pow (e + 1))

def floorLog2 (numerator denominator : Nat) : Int :=
  let guess : Int := (numerator.log2 : Int) - denominator.log2
  let (n, d) := scale 2 numerator denominator (-guess)
  if d ≤ n then guess else guess - 1

/-- The leading bit of a significand. Stored numbers leave it out, and have their exponent above. -/
def leadingBit : Nat := 1 <<< 52

/-- The bits of positive infinity, which has the largest stored exponent. -/
def infinityBits : Nat := 2047 * leadingBit

/-- The bits of the number nearest to a positive fraction; too large a fraction is infinite. -/
def nearestBits (numerator denominator : Nat) : UInt64 :=
  let exponent := max (-1074) (floorLog2 numerator denominator - 52)
  let (n, d) := scale 2 numerator denominator (-exponent)
  let significand := roundDiv n d
  let bits :=
    if significand < leadingBit then significand
    else (exponent + 1075).toNat * leadingBit + (significand - leadingBit)
  UInt64.ofNat (min bits infinityBits)

/-- The number nearest to `significand · 10 ^ exponent`. Powers of ten far outside the range of the
format are not computed. -/
def nearest (significand : Nat) (exponent : Int) : Float :=
  let magnitude : Int := exponent + (Text.ofNat significand).length
  if significand = 0 || magnitude < -330 then Float.ofBits 0
  else if 320 < magnitude then Float.ofBits (UInt64.ofNat infinityBits)
  else
    let (n, d) := scale 10 significand 1 exponent
    Float.ofBits (nearestBits n d)

def readFloat? (t : Text) : Option Float :=
  (read? t).map fun (negative, reading) ↦
    let value :=
      match reading with
      | .number significand exponent => nearest significand exponent
      | .infinite => Float.ofBits (UInt64.ofNat infinityBits)
      | .undefined => Float.ofBits (UInt64.ofNat (infinityBits + leadingBit / 2))
    if negative then -value else value

inductive Exact where
  | finite (negative : Bool) (significand : Nat) (exponent : Int)
  | infinite (negative : Bool)
  | undefined
deriving DecidableEq

def exact (x : Float) : Exact :=
  let bits : Nat := x.toBits.toNat
  let negative := decide (2048 * leadingBit ≤ bits)
  let biased : Nat := bits / leadingBit % 2048
  let fraction : Nat := bits % leadingBit
  if biased = 2047 then
    if fraction = 0 then .infinite negative else .undefined
  else if biased = 0 then .finite negative fraction (-1074)
  else .finite negative (fraction + leadingBit) ((biased : Int) - 1075)

def toInt? (x : Float) : Option Int :=
  match exact x with
  | .finite negative significand exponent =>
    let (n, d) := scale 2 significand 1 exponent
    let quotient : Int := (n / d : Nat)
    if n % d = 0 then some (if negative then -quotient else quotient) else none
  | _ => none

end UrlRouting.Decimal
