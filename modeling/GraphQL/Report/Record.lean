/-
GraphQL.Report.Record — error records and the paths they carry.

  §1 Paths     — positions in response data.
  §2 Records   — a message, the places it is about and its path.
  §3 Values    — records as they appear in a response.
-/
import GraphQL.Document.Location
import GraphQL.Report.Message
import GraphQL.Value.Basic

namespace GraphQL

/-! ## §1 Paths -/

/-- A step into response data: the key of a member or the index of an item. -/
inductive PathSegment where
  | key (name : Bytes)
  | index (position : Nat)
deriving DecidableEq

/-- The steps from the response data to one of its parts. -/
abbrev ResponsePath := List PathSegment

/-- A step as text, an index in decimal. -/
def PathSegment.text : PathSegment → Bytes
  | .key name => name
  | .index position => decimal position

/-- A path as text, its steps separated by points. -/
def ResponsePath.text (path : ResponsePath) : Bytes :=
  joined (utf8 ".") (path.map PathSegment.text)

/-! ## §2 Records -/

/-- An error record. Notices of deprecation are records as well. -/
structure ErrorRecord where
  message : Message
  locations : List Location
  path : Option ResponsePath
deriving DecidableEq

/-- A record about one place in the document and one in the response. -/
def ErrorRecord.located (location : Location) (path : ResponsePath) (message : Message) :
    ErrorRecord :=
  ⟨message, [location], some path⟩

/-! ## §3 Values -/

/-- A position as a value. -/
def Location.toValue (location : Location) : Value :=
  .object [(utf8 "line", .int (Int64.ofInt location.line)),
    (utf8 "column", .int (Int64.ofInt location.column))]

/-- A step as a value. -/
def PathSegment.toValue : PathSegment → Value
  | .key name => .string name
  | .index position => .uint (UInt64.ofNat position)

/-- A record as a value; the path is left out of a record that has none. -/
def ErrorRecord.toValue (record : ErrorRecord) : Value :=
  .object ([(utf8 "message", .string record.message.text),
      (utf8 "locations", .list (record.locations.map Location.toValue))]
    ++ (match record.path with
      | none => []
      | some path => [(utf8 "path", .list (path.map PathSegment.toValue))]))

end GraphQL
