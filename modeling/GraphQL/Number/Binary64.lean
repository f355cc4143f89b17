/-
GraphQL.Number.Binary64 — double-precision numbers, by their bits.

A number is its 64 bits, so that every NaN keeps its payload and zero its
sign. All arithmetic is on natural numbers and integers.

  §1 Bits       — sign, exponent and significand of a bit pattern.
  §2 Rounding   — the number nearest to a quotient, ties to even.
  §3 Order      — comparisons by the bits.
  §4 Integers   — the integer part, as a number and as a word.
-/
import GraphQL.Number.Range

namespace GraphQL

/-- A double-precision number: its sign bit, eleven exponent bits and
fifty-two significand bits. -/
structure Binary64 where
  bits : UInt64
deriving DecidableEq

namespace Binary64

/-! ## §1 Bits -/

/-- The weight of the sign bit. -/
def signWeight : Nat := 0x8000000000000000

/-- The weight of the last exponent bit, and of the hidden bit of a significand. -/
def exponentWeight : Nat := 0x10000000000000

/-- The sign bit. -/
def negative (x : Binary64) : Bool := signWeight ≤ x.bits.toNat

/-- The bits below the sign. -/
def magnitudeBits (x : Binary64) : Nat := x.bits.toNat % signWeight

/-- The biased exponent; `2047` marks infinities and NaNs. -/
def biasedExponent (x : Binary64) : Nat := x.magnitudeBits / exponentWeight

/-- Neither infinite nor a NaN. -/
def isFinite (x : Binary64) : Bool := x.biasedExponent < 2047

/-- Not a number. -/
def isNaN (x : Binary64) : Bool :=
  x.biasedExponent == 2047 && x.magnitudeBits % exponentWeight != 0

/-- The significand of a finite number, with the hidden bit of a normal one. -/
def significand (x : Binary64) : Nat :=
  if x.biasedExponent = 0 then x.magnitudeBits
  else x.magnitudeBits % exponentWeight + exponentWeight

/-- The power of two that the significand of a finite number is scaled by. -/
def scale (x : Binary64) : Int := max x.biasedExponent 1 - 1075

/-- The number with the given sign and the given bits below it. -/
def ofParts (negative : Bool) (magnitude : Nat) : Binary64 :=
  ⟨UInt64.ofNat (magnitude + if negative then signWeight else 0)⟩

/-! ## §2 Rounding -/

/-- `numerator / denominator` to the nearest natural number, a tie to the even one. -/
def roundQuotient (numerator denominator : Nat) : Nat :=
  let quotient := numerator / denominator
  let twice := 2 * (numerator % denominator)
  if denominator < twice || (twice == denominator && quotient % 2 == 1) then quotient + 1
  else quotient

/-- The exponent of the greatest power of two that is at most
`numerator / denominator`, both positive. -/
def binaryExponent (numerator denominator : Nat) : Int :=
  let estimate : Int := (numerator.log2 : Int) - denominator.log2
  if denominator * Nat.pow 2 estimate.toNat ≤ numerator * Nat.pow 2 (-estimate).toNat then estimate
  else estimate - 1

/-- The bits below the sign of the number nearest to a positive quotient.
Counted in units of the last place the significand and the scale join into
one number, so a carry out of the significand needs no case of its own. -/
def nearestBits (numerator denominator : Nat) : Nat :=
  let scale := max (binaryExponent numerator denominator - 52) (-1074)
  let significand :=
    roundQuotient (numerator * Nat.pow 2 (-scale).toNat) (denominator * Nat.pow 2 scale.toNat)
  (scale + 1074).toNat * exponentWeight + significand

/-- The bits of infinity, which every finite magnitude lies below. -/
def infinityBits : Nat := 2047 * exponentWeight

/-- The number nearest to `± numerator / denominator`; past the greatest
finite number it is infinite. -/
def ofQuotient (negative : Bool) (numerator denominator : Nat) : Binary64 :=
  if numerator = 0 then ofParts negative 0
  else ofParts negative (min (nearestBits numerator denominator) infinityBits)

/-- The number nearest to an integer. -/
def ofInt (n : Int) : Binary64 := ofQuotient (n < 0) n.natAbs 1

/-! ## §3 Order -/

/-- The bits below the sign, counted from zero downwards for a negative number.
Numbers are ordered as their ranks are, and both zeros have one rank. -/
def rank (x : Binary64) : Int := if x.negative then -(x.magnitudeBits : Int) else x.magnitudeBits

/-- Equal numbers; a NaN equals nothing. -/
def equals (x y : Binary64) : Bool := !x.isNaN && !y.isNaN && x.rank == y.rank

/-- The first number is less than the second; a NaN is not less than anything, nor
is anything less than it. -/
def less (x y : Binary64) : Bool := !x.isNaN && !y.isNaN && x.rank < y.rank

/-! ## §4 Integers -/

/-- A number with its fraction cut off: no bit is left below a one. An exponent of
`1023` puts the ones at the hidden bit, one of `1075` at the last bit. -/
def truncated (x : Binary64) : Binary64 :=
  if x.biasedExponent < 1023 then ofParts x.negative 0
  else
    let unit := Nat.pow 2 (1075 - x.biasedExponent)
    ofParts x.negative (x.magnitudeBits / unit * unit)

/-- The integer part of a number, when it is finite. -/
def truncate? (x : Binary64) : Option Int :=
  if !x.isFinite then none
  else
    let magnitude : Int :=
      ↑(x.significand * Nat.pow 2 x.scale.toNat / Nat.pow 2 (-x.scale).toNat)
    some (if x.negative then -magnitude else magnitude)

/-- The integer part as a word of 64 bits; the least word where it does not fit. -/
def toInt64 (x : Binary64) : Int64 :=
  match x.truncate? with
  | some n => if fitsInt64 n then Int64.ofInt n else Int64.minValue
  | none => Int64.minValue

end Binary64

end GraphQL
