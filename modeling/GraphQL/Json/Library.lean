/-
GraphQL.Json.Library — what is asked of a JSON library.

  §1 Libraries   — reading texts as values, and values as texts and integers.
  §2 A stand-in  — a library for programs that bring none of their own.

The library is the host's choice. Reading either gives something or fails with a
message, and the wording of the message is the library's own.
-/
import GraphQL.Json.Reader
import GraphQL.Value.View

namespace GraphQL.Json

/-! ## §1 Libraries -/

/-- A JSON library. -/
structure Library where
  /-- The value that a text stands for. -/
  parse : Bytes → Except Bytes Value
  /-- The value as a text. -/
  text : Value → Except Bytes Bytes
  /-- The value as a 32-bit integer. -/
  int : Value → Except Bytes Int32

/-! ## §2 A stand-in -/

/-- What is given, or else the failure. -/
def orFail {α : Type} (failure : Bytes) : Option α → Except Bytes α
  | some a => .ok a
  | none => .error failure

/-- A library that reads texts with the reader at hand. -/
def Library.standIn : Library where
  parse text := orFail (utf8 "no value can be read") (parse? text)
  text value := orFail (utf8 "type must be string, but is " ++ value.kindText) value.text?
  int value :=
    orFail (utf8 "type must be number, but is " ++ value.kindText) (value.int32?.map Int32.ofInt)

end GraphQL.Json
