/-
GraphQL.Reading.Number — number literals.

A number is an optional minus sign, digits, an optional fraction and an
optional exponent. No name byte and no point may follow it. Without fraction
and exponent it is an integer of 64 bits, otherwise the nearest
double-precision number.
-/
import GraphQL.Document.Basic
import GraphQL.Number.Numeral
import GraphQL.Number.Range
import GraphQL.Reading.Cursor

namespace GraphQL.Reading

/-- Takes one digit or more. -/
def digits : Reading Bytes := do
  let run ← takeRun isDigit
  if run.isEmpty then fail (.expectedDigit (← peek)) else return run

/-- Takes a fraction if a point comes next. -/
def fraction : Reading (Option Bytes) := do
  if (← peek) = some (ascii '.') then
    advance
    some <$> digits
  else return none

/-- Takes the sign of an exponent if one comes next. -/
def exponentSign : Reading (Option UInt8) := do
  match ← peek with
  | none => return none
  | some b =>
    if b = ascii '+' || b = ascii '-' then
      advance
      return some b
    else return none

/-- Takes an exponent if its letter comes next. -/
def exponent : Reading (Option Numeral.Exponent) := do
  match ← peek with
  | none => return none
  | some b =>
    if b = ascii 'e' || b = ascii 'E' then
      advance
      let sign ← exponentSign
      let digits ← digits
      return some ⟨b, sign, digits⟩
    else return none

/-- Takes a minus sign if one comes next, and tells whether it did. -/
def minus : Reading Bool := do
  if (← peek) = some (ascii '-') then
    advance
    return true
  else return false

/-- Takes the numeral that comes next. What follows may not look like more of it. -/
def numeral : Reading Numeral := do
  let negative ← minus
  let whole ← digits
  let fraction ← fraction
  let exponent ← exponent
  let next ← peek
  if next.any fun b => isNameStart b || b == ascii '.' then fail (.unexpectedAfterNumber next)
  else return ⟨negative, whole, fraction, exponent⟩

/-- An integer, when it fits 64 bits. -/
def int64? (n : Int) : Option Int64 :=
  if fitsInt64 n then some (Int64.ofInt n) else none

/-- The literal that a numeral is. -/
def numberOf (location : Location) (numeral : Numeral) : Reading Literal :=
  if numeral.isInteger then
    match int64? numeral.wholeValue with
    | some n => return .int location n
    | none => failAt (.integerOutOfRange numeral.text) location
  else
    match numeral.toBinary64? with
    | some x => return .float location x
    | none => failAt (.floatOutOfRange numeral.text) location

/-- Takes a number literal. -/
def number : Reading Literal := do
  let location ← position
  numberOf location (← numeral)

end GraphQL.Reading
