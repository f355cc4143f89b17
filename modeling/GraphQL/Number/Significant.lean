/-
GraphQL.Number.Significant — double-precision numbers written with a fixed
count of significant digits.

  §1 Digits   — the significant digits of a quotient, ties to even.
  §2 Layout   — positional between `10 ^ -4` and `10 ^ places`, otherwise
                with an exponent of two digits or more; trailing zeros of a
                fraction are not written.
-/
import GraphQL.Text.Bytes
import GraphQL.Number.Binary64

namespace GraphQL.Binary64

/-! ## §1 Digits -/

/-- `10 ^ exponent` is at most `numerator / denominator`. -/
def tenPowerBelow (exponent : Int) (numerator denominator : Nat) : Bool :=
  denominator * Nat.pow 10 exponent.toNat ≤ numerator * Nat.pow 10 (-exponent).toNat

/-- The exponent of the greatest power of ten that is at most
`numerator / denominator`, both positive. The estimate from the binary
exponent is off by one at the most. -/
def tenExponent (numerator denominator : Nat) : Int :=
  let estimate := binaryExponent numerator denominator * 30103 / 100000
  if tenPowerBelow (estimate + 1) numerator denominator then estimate + 1
  else if tenPowerBelow estimate numerator denominator then estimate
  else estimate - 1

/-- A positive quotient as `digits * 10 ^ (exponent - places + 1)`, the digits
rounded to exactly `places` of them. -/
def significantParts (places numerator denominator : Nat) : Nat × Int :=
  let exponent := tenExponent numerator denominator
  let shift : Int := places - 1 - exponent
  let digits := roundQuotient (numerator * Nat.pow 10 shift.toNat)
    (denominator * Nat.pow 10 (-shift).toNat)
  if digits = Nat.pow 10 places then (Nat.pow 10 (places - 1), exponent + 1) else (digits, exponent)

/-! ## §2 Layout -/

/-- A fraction with its point, or nothing when all its digits are zero. -/
def fractionText (digits : Bytes) : Bytes :=
  match (digits.reverse.dropWhile (· == ascii '0')).reverse with
  | [] => []
  | kept => ascii '.' :: kept

/-- An exponent with its sign and two digits or more. -/
def exponentText (exponent : Int) : Bytes :=
  let digits := decimal exponent.natAbs
  ascii 'e' :: (if exponent < 0 then ascii '-' else ascii '+')
    :: (if digits.length < 2 then ascii '0' :: digits else digits)

/-- The digits laid out, the first of them standing for `10 ^ exponent`. -/
def layout (places : Nat) (digits : Bytes) (exponent : Int) : Bytes :=
  if exponent < -4 || (places : Int) ≤ exponent then
    digits.take 1 ++ fractionText (digits.drop 1) ++ exponentText exponent
  else if exponent < 0 then
    ascii '0' :: fractionText (List.replicate (-exponent - 1).toNat (ascii '0') ++ digits)
  else
    digits.take (exponent.toNat + 1) ++ fractionText (digits.drop (exponent.toNat + 1))

/-- A number with at most `places` significant digits. -/
def text (places : Nat) (x : Binary64) : Bytes :=
  let unsigned :=
    if x.isNaN then utf8 "nan"
    else if !x.isFinite then utf8 "inf"
    else if x.significand = 0 then utf8 "0"
    else
      let (digits, exponent) := significantParts places
        (x.significand * Nat.pow 2 x.scale.toNat) (Nat.pow 2 (-x.scale).toNat)
      layout places (decimal digits) exponent
  if x.negative then ascii '-' :: unsigned else unsigned

end GraphQL.Binary64
