/-
GraphQL.Document.Basic — query documents.

  §1 Literals     — written values, with variable references among them.
  §2 Selections   — fields with arguments and nested selections.
  §3 Operations   — queries and mutations, and the document they form.

Every node carries the position of its first byte.
-/
import GraphQL.Document.Location
import GraphQL.Document.TypeExpr
import GraphQL.Value.Basic

namespace GraphQL

/-! ## §1 Literals -/

/-- A name with what is given for it: an argument of a field, or a field of an
object literal. -/
structure Entry (α : Type) where
  name : Bytes
  value : α
  location : Location

/-- A written value. -/
inductive Literal where
  | null (location : Location)
  | int (location : Location) (value : Int64)
  | float (location : Location) (value : Binary64)
  | string (location : Location) (text : Bytes)
  | boolean (location : Location) (value : Bool)
  | enum (location : Location) (word : Bytes)
  | list (location : Location) (items : List Literal)
  | object (location : Location) (fields : List (Entry Literal))
  | reference (location : Location) (variableName : Bytes)

namespace Literal

/-- Where the literal begins. -/
def location : Literal → Location
  | .null location | .int location _ | .float location _ | .string location _
  | .boolean location _ | .enum location _ | .list location _ | .object location _
  | .reference location _ => location

/-- The value of a scalar literal, an enum word read as a string. Any other
literal has the value null. -/
def scalarValue : Literal → Value
  | .int _ n => .int n
  | .float _ x => .float x
  | .string _ text => .string text
  | .boolean _ b => .bool b
  | .enum _ word => .string word
  | _ => .null

end Literal

/-! ## §2 Selections -/

/-- A selected field. A field without nested selections has none to apply. -/
structure Field where
  aliasName : Option Bytes
  name : Bytes
  arguments : List (Entry Literal)
  selections : List Field
  location : Location

/-- The key under which a field's value appears in the response. -/
def Field.responseKey (field : Field) : Bytes := field.aliasName.getD field.name

/-! ## §3 Operations -/

/-- A variable that an operation declares. -/
structure VariableDefinition where
  name : Bytes
  type : TypeExpr Bytes
  default : Option Literal
  location : Location

/-- What an operation does. -/
inductive OperationKind where
  | query
  | mutation
deriving DecidableEq

/-- An operation; one without a name is anonymous. -/
structure Operation where
  kind : OperationKind
  name : Option Bytes
  variableDefinitions : List VariableDefinition
  selections : List Field
  location : Location

/-- What messages call an operation: its name, or its kind. -/
def Operation.label (operation : Operation) : Bytes :=
  operation.name.getD (match operation.kind with
    | .query => utf8 "query"
    | .mutation => utf8 "mutation")

/-- The operations of a query text, in order. -/
structure Document where
  operations : List Operation

/-- The first operation of a name; the empty name is that of anonymous ones. -/
def Document.operation? (document : Document) (name : Bytes) : Option Operation :=
  document.operations.find? fun operation => operation.name.getD [] == name

end GraphQL
