/-
GraphQL.Proofs.Execution.Envelope — the shape of the value that answers a query text.

  §1 Records    — a record as a member of an envelope.
  §2 Envelopes  — an object with data and errors.

Whether a text was refused is to be told from an envelope alone: the data is null
then, and one error is there. Otherwise the data is an object, and each error shows
one record.
-/
import GraphQL.Execution.Request
import Mathlib.Data.List.Forall2

namespace GraphQL

/-! ## §1 Records -/

/-- A position: an object with a line and a column. -/
inductive Value.IsPosition : Value → Prop
  | mk (line column : Int64) :
    IsPosition (.object [(utf8 "line", .int line), (utf8 "column", .int column)])

/-- A step of a path: a key or an index. -/
inductive Value.IsStep : Value → Prop
  | key (name : Bytes) : IsStep (.string name)
  | index (position : UInt64) : IsStep (.uint position)

/-- The value shows a record: it holds the text of the message, one position for each
place and, if the record has a path, the steps of it, and nothing else. -/
inductive ErrorRecord.Shown (record : ErrorRecord) : Value → Prop
  | unplaced {positions : List Value} : record.path = none →
    positions.length = record.locations.length → (∀ value ∈ positions, value.IsPosition) →
    Shown record (.object [(utf8 "message", .string record.message.text),
      (utf8 "locations", .list positions)])
  | placed {positions steps : List Value} {path : ResponsePath} : record.path = some path →
    positions.length = record.locations.length → (∀ value ∈ positions, value.IsPosition) →
    steps.length = path.length → (∀ value ∈ steps, value.IsStep) →
    Shown record (.object [(utf8 "message", .string record.message.text),
      (utf8 "locations", .list positions), (utf8 "path", .list steps)])

theorem PathSegment.isStep_toValue (segment : PathSegment) : segment.toValue.IsStep := by
  cases segment with
  | key name => exact .key name
  | index position => exact .index _

/-- A record is shown by its value. -/
theorem ErrorRecord.shown_toValue (record : ErrorRecord) : record.Shown record.toValue := by
  obtain ⟨message, locations, path⟩ := record
  have hlength : (locations.map Location.toValue).length = locations.length := List.length_map _
  have hpositions : ∀ value ∈ locations.map Location.toValue, value.IsPosition :=
    List.forall_mem_map.2 fun _ _ => .mk _ _
  cases path with
  | none => exact .unplaced rfl hlength hpositions
  | some path =>
    exact .placed rfl hlength hpositions (List.length_map _)
      (List.forall_mem_map.2 fun segment _ => segment.isStep_toValue)

/-! ## §2 Envelopes -/

/-- The value is an envelope: an object with the data and a list of errors, one for each
record and in their order, and nothing else. -/
inductive Value.Envelops (data : Value) (records : List ErrorRecord) : Value → Prop
  | mk {errors : List Value} : List.Forall₂ ErrorRecord.Shown records errors →
    Envelops data records (.object [(utf8 "data", data), (utf8 "errors", .list errors)])

namespace Request

/-- The envelope of a response has its data as an object. -/
theorem envelops_envelope (response : Response) :
    Value.Envelops (.object response.data) response.errors (envelope response) := by
  refine .mk ?_
  rw [List.forall₂_map_right_iff]
  exact List.forall₂_same.2 fun record _ => record.shown_toValue

/-- What is told of a text that is refused: one record, at the place of the refusal. -/
def refusalRecord (error : SyntaxError) : ErrorRecord :=
  ⟨.given (utf8 "Syntax error: " ++ error.message), [error.location], none⟩

/-- The envelope of a text that is refused has no data, and one error. -/
theorem envelops_malformedEnvelope (error : SyntaxError) :
    Value.Envelops .null [refusalRecord error] (malformedEnvelope error) :=
  .mk (.cons (refusalRecord error).shown_toValue .nil)

end Request

end GraphQL
