/-
GraphQL.Number.Numeral — decimal numerals and the numbers they denote.

  §1 Numerals    — sign, digits, fraction and exponent, with the text that
                   spells them.
  §2 Denotation  — the integer, and the nearest double-precision number with
                   its range rule.
  §3 Texts       — numerals that fill a whole text.
-/
import GraphQL.Text.Bytes
import GraphQL.Number.Binary64

namespace GraphQL

/-! ## §1 Numerals -/

/-- An exponent as written: its letter, the sign if one is written, and digits. -/
structure Numeral.Exponent where
  letter : UInt8
  sign : Option UInt8
  digits : Bytes

/-- A decimal numeral as written. -/
structure Numeral where
  negative : Bool
  whole : Bytes
  fraction : Option Bytes
  exponent : Option Numeral.Exponent

namespace Numeral

/-- The text of an exponent. -/
def Exponent.text (e : Exponent) : Bytes := e.letter :: e.sign.toList ++ e.digits

/-- The power of ten an exponent denotes. -/
def Exponent.value (e : Exponent) : Int :=
  if e.sign = some (ascii '-') then -(digitsValue e.digits : Int) else digitsValue e.digits

/-- The text of a numeral. -/
def text (n : Numeral) : Bytes :=
  (if n.negative then [ascii '-'] else []) ++ n.whole
    ++ (match n.fraction with
      | none => []
      | some digits => ascii '.' :: digits)
    ++ (match n.exponent with
      | none => []
      | some e => e.text)

/-- Written without fraction and without exponent. -/
def isInteger (n : Numeral) : Bool := n.fraction.isNone && n.exponent.isNone

/-! ## §2 Denotation -/

/-- The integer that the sign and the whole part denote. -/
def wholeValue (n : Numeral) : Int :=
  if n.negative then -(digitsValue n.whole : Int) else digitsValue n.whole

/-- All digits of the numeral, the leading zeros dropped. -/
def significantDigits (n : Numeral) : Bytes :=
  (n.whole ++ n.fraction.getD []).dropWhile (· == ascii '0')

/-- The power of ten that the significant digits are scaled by. -/
def tenExponent (n : Numeral) : Int :=
  (match n.exponent with
    | none => 0
    | some e => e.value) - (n.fraction.getD []).length

/-- The nearest double-precision number. Numerals past `10 ^ 400` or below
`10 ^ -400` are told by their number of digits. -/
def nearest (n : Numeral) : Binary64 :=
  let digits := n.significantDigits
  let magnitude := digits.length + n.tenExponent
  if digits.isEmpty || magnitude < -400 then .ofParts n.negative 0
  else if 400 < magnitude then .ofParts n.negative Binary64.infinityBits
  else
    .ofQuotient n.negative (digitsValue digits * Nat.pow 10 n.tenExponent.toNat)
      (Nat.pow 10 (-n.tenExponent).toNat)

/-- The nearest double-precision number, where the numeral is in range. It is
not when that number is infinite, nor when it is zero though the numeral is not. -/
def toBinary64? (n : Numeral) : Option Binary64 :=
  if n.nearest.isFinite && (n.significantDigits.isEmpty || n.nearest.magnitudeBits != 0) then
    some n.nearest
  else none

/-! ## §3 Texts -/

/-- A leading minus sign, and what follows it. -/
def splitSign : Bytes → Bool × Bytes
  | [] => (false, [])
  | b :: rest => if b = ascii '-' then (true, rest) else (false, b :: rest)

/-- The sign that an exponent begins with, if there is one, and what follows it. -/
def splitExponentSign : Bytes → Option UInt8 × Bytes
  | [] => (none, [])
  | b :: rest =>
    if b = ascii '+' || b = ascii '-' then (some b, rest) else (none, b :: rest)

/-- The integer at the front of a text, an optional minus sign and all the digits
after it, and what follows it. -/
def integerPrefix? (text : Bytes) : Option (Int × Bytes) :=
  let (negative, unsigned) := splitSign text
  let digits := unsigned.takeWhile isDigit
  if digits.isEmpty then none
  else
    some (if negative then -(digitsValue digits : Int) else digitsValue digits,
      unsigned.dropWhile isDigit)

/-- The word of 64 bits that fills a whole text. An integer that does not fit is
none, however the text goes on. -/
def int64OfText? (text : Bytes) : Option Int64 :=
  match integerPrefix? text with
  | none => none
  | some (n, rest) =>
    if !fitsInt64 n then none
    else if text.isEmpty || !rest.isEmpty then none
    else some (Int64.ofInt n)

/-- The exponent that fills a whole text, absent from the empty text. -/
def exponentOfText? : Bytes → Option (Option Exponent)
  | [] => some none
  | letter :: rest =>
    if letter = ascii 'e' || letter = ascii 'E' then
      let (sign, digits) := splitExponentSign rest
      if digits.isEmpty || !digits.all isDigit then none
      else some (some ⟨letter, sign, digits⟩)
    else none

/-- The numeral that fills a whole text. Digits may be missing before the
point or after it, though not on both sides. -/
def ofText? (text : Bytes) : Option Numeral :=
  let (negative, unsigned) := splitSign text
  let whole := unsigned.takeWhile isDigit
  let afterWhole := unsigned.dropWhile isDigit
  let (fraction, afterFraction) := match afterWhole with
    | [] => (none, [])
    | b :: more =>
      if b = ascii '.' then (some (more.takeWhile isDigit), more.dropWhile isDigit)
      else (none, b :: more)
  if whole.isEmpty && (fraction.getD []).isEmpty then none
  else match exponentOfText? afterFraction with
    | none => none
    | some exponent => some ⟨negative, whole, fraction, exponent⟩

end Numeral

end GraphQL
