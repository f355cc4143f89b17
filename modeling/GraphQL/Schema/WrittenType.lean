/-
GraphQL.Schema.WrittenType — the types of a schema, as texts.

A text is read from both ends: blanks are cut off, then an exclamation mark
at the end, then a pair of brackets, until a name is left. Blanks may stand
around every part.
-/
import GraphQL.Document.TypeExpr

namespace GraphQL.WrittenType

/-- Bytes that are cut off around the parts of a type. -/
def isSpace (b : UInt8) : Bool := b == ascii ' ' || (0x09 ≤ b && b ≤ 0x0D)

/-- A text read from its end, without the blanks at both ends. -/
def backwards (text : Bytes) : Bytes := (text.dropWhile isSpace).reverse.dropWhile isSpace

/-- Cuts an exclamation mark, with the blanks around it, off the end of a text read
from there, and tells whether there was one. -/
def splitMark : Bytes → Bytes × Bool
  | [] => ([], false)
  | last :: before =>
    if last = ascii '!' then (before.dropWhile isSpace, true) else (last :: before, false)

/-- Puts the non-null wrapper around a type that was marked. -/
def marked (mark : Bool) (type : TypeExpr Bytes) : TypeExpr Bytes :=
  if mark then .nonNull type else type

/-- Reads a type, or gives the part that is no type; each pair of brackets costs
one unit of fuel. -/
def ofTextFrom : Nat → Bytes → Except Bytes (TypeExpr Bytes)
  | 0, text => .error text
  | fuel + 1, text => do
    let (core, mark) := splitMark (backwards text)
    match core with
    | [] => .error text
    | last :: before =>
      if core.getLast? = some (ascii '[') then
        if last = ascii ']' then
          let element ← ofTextFrom fuel before.reverse.tail
          return marked mark (.list element)
        else .error text
      else if isName core.reverse then return marked mark (.named core.reverse)
      else .error text

/-- Reads a type. Every pair of brackets takes two bytes, so the fuel suffices. -/
def ofText (text : Bytes) : Except Bytes (TypeExpr Bytes) := ofTextFrom (text.length + 1) text

end GraphQL.WrittenType
