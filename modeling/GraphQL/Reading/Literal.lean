/-
GraphQL.Reading.Literal — written values.

  §1 Entries   — a name, a colon and a value.
  §2 Words     — names used as values.
  §3 Literals  — every kind of literal.

Lists and objects take one level of the nesting budget each, which makes the
recursion structural: `literal` runs on the budget, and one level of it is
`literalWith`, given the reading of what stands inside.
-/
import GraphQL.Reading.Number
import GraphQL.Reading.Quoted

namespace GraphQL.Reading

/-! ## §1 Entries -/

/-- Takes an entry, whose name must differ from those of the earlier ones. -/
def entry {α : Type} (duplicate : Bytes → SyntaxProblem) (value : Reading α)
    (earlier : List (Entry α)) : Reading (Entry α) := do
  let location ← position
  let name ← name
  if earlier.any (·.name == name) then failAt (duplicate name) location
  else
    expect (ascii ':')
    let value ← value
    return ⟨name, value, location⟩

/-! ## §2 Words -/

/-- What a bare word denotes. -/
def wordOf (location : Location) (word : Bytes) : Literal :=
  if word = utf8 "true" then .boolean location true
  else if word = utf8 "false" then .boolean location false
  else if word = utf8 "null" then .null location
  else .enum location word

/-- Whether a literal may refer to variables. -/
inductive References where
  | allowed
  | refused
deriving DecidableEq

/-- Takes a variable reference, of which the dollar sign comes next. -/
def reference (references : References) (location : Location) : Reading Literal := do
  advance
  let variableName ← name
  match references with
  | .allowed => return .reference location variableName
  | .refused => failAt (.variableInDefault variableName) location

/-! ## §3 Literals -/

/-- Takes a list literal, of which the bracket comes next. -/
def listLiteral (location : Location) (item : Reading Literal) : Reading Literal := do
  expect (ascii '[')
  let items ← itemsUntil (ascii ']') fun _ => item
  expect (ascii ']')
  return .list location items

/-- Takes an object literal, of which the brace comes next. -/
def objectLiteral (location : Location) (value : Reading Literal) : Reading Literal := do
  expect (ascii '{')
  let fields ← itemsUntil (ascii '}') (entry .duplicateInputField value)
  expect (ascii '}')
  return .object location fields

/-- Takes a literal; `inner` reads the literals inside it, and is absent when
the nesting budget is used up. -/
def literalWith (references : References) (inner : Option (Reading Literal)) :
    Reading Literal := do
  skipBlanks
  let location ← position
  match ← peek with
  | none => fail (.expectedValue none)
  | some b =>
    if b = ascii '$' then reference references location
    else if b = ascii '"' then string
    else if b = ascii '-' || isDigit b then number
    else if b = ascii '[' then nested inner (listLiteral location)
    else if b = ascii '{' then nested inner (objectLiteral location)
    else if isNameStart b then wordOf location <$> name
    else fail (.expectedValue (some b))

/-- Takes a literal that nests at most `budget` levels deep. -/
def literal (references : References) : (budget : Nat) → Reading Literal
  | 0 => literalWith references none
  | budget + 1 => literalWith references (some (literal references budget))

end GraphQL.Reading
