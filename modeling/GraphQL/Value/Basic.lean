/-
GraphQL.Value.Basic — the values that cross the engine: arguments,
variables, contexts, parents, resolver results and response data.

  §1 Members   — keyed lists in order of first assignment.
  §2 Values    — the value type and the names of its kinds.

An object keeps its members in the order in which their keys were first
assigned; assigning a key again replaces the value where it stands.
-/
import GraphQL.Text.Bytes
import GraphQL.Number.Binary64

namespace GraphQL

/-! ## §1 Members -/

/-- The list with `key` holding `value`: in the key's place if it has one,
otherwise at the end. -/
def assign {α : Type} (members : List (Bytes × α)) (key : Bytes) (value : α) :
    List (Bytes × α) :=
  match members with
  | [] => [(key, value)]
  | (k, v) :: rest =>
    if k == key then (k, value) :: rest else (k, v) :: assign rest key value

/-- Assigns members one after another. -/
def assignAll {α : Type} (members additions : List (Bytes × α)) : List (Bytes × α) :=
  additions.foldl (fun all member => assign all member.1 member.2) members

/-! ## §2 Values -/

/-- A dynamic value. Signed and unsigned integers are told apart, since a
value passed through keeps its representation. -/
inductive Value where
  | null
  | bool (value : Bool)
  | int (value : Int64)
  | uint (value : UInt64)
  | float (value : Binary64)
  | string (text : Bytes)
  | list (items : List Value)
  | object (members : List (Bytes × Value))
deriving Inhabited

/-- The members of an object. -/
abbrev Members := List (Bytes × Value)

namespace Value

/-- The name of a value's kind, as messages give it. -/
def kindText : Value → Bytes
  | .null => utf8 "null"
  | .bool _ => utf8 "boolean"
  | .int _ | .uint _ => utf8 "int"
  | .float _ => utf8 "float"
  | .string _ => utf8 "string"
  | .list _ => utf8 "list"
  | .object _ => utf8 "object"

/-- The value is null. -/
def isNull : Value → Bool
  | .null => true
  | _ => false

/-- The value is an object. -/
def isObject : Value → Bool
  | .object _ => true
  | _ => false

/-- The value is a list. -/
def isList : Value → Bool
  | .list _ => true
  | _ => false

/-- The value is a string. -/
def isString : Value → Bool
  | .string _ => true
  | _ => false

/-- The value is a number, in any of its representations. -/
def isNumber : Value → Bool
  | .int _ | .uint _ | .float _ => true
  | _ => false

end Value

end GraphQL
