/-
GraphQL.Schema.BuiltIn — input coercion of the built-in scalars.

  String    takes strings.
  Int       takes integers of 32 bits, in any number form or as decimal text.
  Float     takes finite numbers, or the text of one.
  Boolean   takes truth values, or the words `true` and `false`.
  ID        takes strings, and integers in their decimal form.
-/
import GraphQL.Number.Numeral
import GraphQL.Schema.Basic

namespace GraphQL.Scalar

/-- Strings pass. -/
def string? : Value → Option Value
  | .string text => some (.string text)
  | _ => none

/-- The least signed word of 32 bits, in 64 bits. -/
def leastInt : Int64 := Int32.minValue.toInt64

/-- The greatest signed word of 32 bits, in 64 bits. -/
def greatestInt : Int64 := Int32.maxValue.toInt64

/-- The signed word that an integer, a number without fraction or a text of digits
stands for. An unsigned word and a number are compared with the range before
they are converted, in their own type. -/
def int64? : Value → Option Int64
  | .uint n => if greatestInt.toUInt64 < n then none else some n.toInt64
  | .int n => some n
  | .float x =>
    if !x.isFinite || !x.truncated.equals x then none
    else if x.less (.ofInt leastInt.toInt) || (Binary64.ofInt greatestInt.toInt).less x then none
    else some x.toInt64
  | .string text => Numeral.int64OfText? text
  | _ => none

/-- Integers of 32 bits pass. -/
def int? (value : Value) : Option Value :=
  match int64? value with
  | some n => if n < leastInt || greatestInt < n then none else some (.int n.toInt32.toInt64)
  | none => none

/-- Finite numbers pass as double-precision numbers. -/
def float? : Value → Option Value
  | .int n => some (.float (Binary64.ofInt n.toInt))
  | .uint n => some (.float (Binary64.ofInt n.toNat))
  | .float x => if x.isFinite then some (.float x) else none
  | .string text => ((Numeral.ofText? text).bind Numeral.toBinary64?).map .float
  | _ => none

/-- Truth values pass, as do their names. -/
def boolean? : Value → Option Value
  | .bool b => some (.bool b)
  | .string text =>
    if text = utf8 "true" then some (.bool true)
    else if text = utf8 "false" then some (.bool false)
    else none
  | _ => none

/-- Strings pass, integers in decimal. -/
def id? : Value → Option Value
  | .string text => some (.string text)
  | .int n => some (.string (decimalInt n.toInt))
  | .uint n => some (.string (decimal n.toNat))
  | _ => none

/-- The names and coercion functions of the built-in scalars, in the order of
their positions in every schema. -/
def builtIn : List (Bytes × (Value → Option Value)) :=
  [(utf8 "String", string?), (utf8 "Int", int?), (utf8 "Float", float?),
    (utf8 "Boolean", boolean?), (utf8 "ID", id?)]

end GraphQL.Scalar
