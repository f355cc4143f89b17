/-
GraphQL.Document.Location — positions in a query text.

The first byte of a text is at line one, column one, and columns count bytes. A
line ends after a line feed and after a carriage return that no line feed
follows, so the pair ends one line only. A record may carry any two integers,
since a position need not come from a text.
-/
import GraphQL.Text.Bytes

namespace GraphQL

/-- A line and a column. Those of a text are counted from one. -/
structure Location where
  line : Int
  column : Int
deriving DecidableEq, Inhabited

namespace Location

/-- The position of the first byte of a text. -/
def start : Location := ⟨1, 1⟩

/-- A byte ends a line, given what follows it. -/
def endsLine (b : UInt8) (rest : Bytes) : Bool :=
  b == ascii '\n' || (b == ascii '\r' && rest.head? != some (ascii '\n'))

/-- The position after a byte, given what follows it. -/
def after (location : Location) (b : UInt8) (rest : Bytes) : Location :=
  if endsLine b rest then ⟨location.line + 1, 1⟩ else ⟨location.line, location.column + 1⟩

end Location

end GraphQL
