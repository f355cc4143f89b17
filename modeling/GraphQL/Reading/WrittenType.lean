/-
GraphQL.Reading.WrittenType — the types of variables.

A type is a name or a bracketed type, with an optional exclamation mark.
Every level counts against the nesting budget, the name's own among them.
-/
import GraphQL.Document.TypeExpr
import GraphQL.Reading.Cursor

namespace GraphQL.Reading

/-- Takes an exclamation mark if one follows, and wraps the type accordingly. -/
def nonNullMark (type : TypeExpr Bytes) : Reading (TypeExpr Bytes) := do
  if ← accept (ascii '!') then return .nonNull type else return type

/-- Takes a type; `element` reads the type inside its brackets. -/
def typeWith (element : Reading (TypeExpr Bytes)) : Reading (TypeExpr Bytes) := do
  if ← accept (ascii '[') then
    let element ← element
    expect (ascii ']')
    nonNullMark (.list element)
  else
    let name ← name
    nonNullMark (.named name)

/-- Takes a type of at most `budget` levels. -/
def writtenType : (budget : Nat) → Reading (TypeExpr Bytes)
  | 0 => fail .nestsTooDeeply
  | budget + 1 => typeWith (writtenType budget)

end GraphQL.Reading
