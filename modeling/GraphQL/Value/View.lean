/-
GraphQL.Value.View — reading values that may not have the expected shape.

  §1 Parts         — members and items; a missing part reads as null.
  §2 Typed reads   — values as text, as 32-bit integers and as truth values.
-/
import GraphQL.Number.Range
import GraphQL.Value.Basic

namespace GraphQL.Value

/-! ## §1 Parts -/

/-- The member of an object under a key. -/
def member? (value : Value) (key : Bytes) : Option Value :=
  match value with
  | .object members => members.lookup key
  | _ => none

/-- The member under a key, null when there is none. -/
def member (value : Value) (key : Bytes) : Value := (value.member? key).getD .null

/-- The item of a list at an index, null when there is none; no list has an
item at a negative index. -/
def item (value : Value) (index : Int) : Value :=
  match value with
  | .list items => if index < 0 then .null else (items[index.toNat]?).getD .null
  | _ => .null

/-- An object that has a member under the key, be it null. -/
def has (value : Value) (key : Bytes) : Bool := (value.member? key).isSome

/-- The count of parts; null has none and a scalar counts as one. -/
def size : Value → Nat
  | .null => 0
  | .list items => items.length
  | .object members => members.length
  | _ => 1

/-! ## §2 Typed reads -/

/-- The text of a string. -/
def text? : Value → Option Bytes
  | .string text => some text
  | _ => none

/-- A truth value. -/
def bool? : Value → Option Bool
  | .bool b => some b
  | _ => none

/-- Reduces an integer to 32 bits, as two's complement does. -/
def wrap32 (n : Int) : Int := Int.bmod n 4294967296

/-- A number as a 32-bit integer: integers wrap, a fraction is cut off, and
what has no 32-bit integer part reads as the least one. Truth values read as
zero and one. -/
def int32? : Value → Option Int
  | .bool b => some (if b then 1 else 0)
  | .int n => some (wrap32 n.toInt)
  | .uint n => some (wrap32 n.toNat)
  | .float x =>
    match x.truncate? with
    | some n => some (if fitsInt32 n then n else -2147483648)
    | none => some (-2147483648)
  | _ => none

/-- A typed read of a member; `fallback` where the member is missing, null or
of another kind. -/
def memberAs {α : Type} (read : Value → Option α) (value : Value) (key : Bytes) (fallback : α) :
    α :=
  ((value.member? key).bind read).getD fallback

end GraphQL.Value
