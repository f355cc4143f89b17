/-
GraphQL.Reading.Document — selections, operations and whole documents.

  §1 Selections   — fields and the braces around them.
  §2 Operations   — variable definitions, and the three ways to begin.
  §3 Documents    — operations up to the end of the text.

`nestingLimit` bounds how deep selections, lists, objects and list types may
nest, counted together. Recursion runs on what is left of it.
-/
import GraphQL.Reading.Literal
import GraphQL.Reading.WrittenType

namespace GraphQL.Reading

/-! ## §1 Selections -/

/-- Refuses a directive, which would come next. -/
def noDirective : Reading Unit := do
  if (← peek) = some (ascii '@') then fail .directive

/-- Takes arguments in parentheses, if there are any, and the blanks after them. -/
def fieldArguments (value : Reading Literal) : Reading (List (Entry Literal)) := do
  if (← peek) = some (ascii '(') then
    let arguments ← parenthesised (entry .duplicateArgument value)
    skipBlanks
    return arguments
  else return []

/-- Takes a field's name, and its alias before that if there is one. -/
def aliasAndName : Reading (Option Bytes × Bytes) := do
  let first ← name
  skipBlanks
  if (← peek) = some (ascii ':') then
    advance
    let second ← name
    skipBlanks
    return (some first, second)
  else return (none, first)

/-- Takes a field; `value` reads its arguments' values and `selections` the
selections nested in it. -/
def field (value : Reading Literal) (selections : Reading (List Field)) : Reading Field := do
  let location ← position
  let (aliasName, name) ← aliasAndName
  let arguments ← fieldArguments value
  noDirective
  if (← peek) = some (ascii '{') then
    let selections ← selections
    return ⟨aliasName, name, arguments, selections, location⟩
  else return ⟨aliasName, name, arguments, [], location⟩

/-- Takes a field where a fragment might stand, which is refused. -/
def selection (field : Reading Field) : Reading Field := do
  if (← peek) = some (ascii '.') then fail .fragment else field

/-- Takes one field or more in braces. -/
def bracedFields (field : Reading Field) : Reading (List Field) := do
  expect (ascii '{')
  let fields ← itemsUntil (ascii '}') fun _ => selection field
  if fields.isEmpty then fail .emptySelections
  else
    expect (ascii '}')
    return fields

/-- Takes selections that nest at most `budget` levels deep, together with the
literals in them. -/
def selections : (budget : Nat) → Reading (List Field)
  | 0 => fail .nestsTooDeeply
  | budget + 1 => bracedFields (field (literal .allowed budget) (selections budget))

/-! ## §2 Operations -/

/-- The deepest nesting that a document may have. -/
def nestingLimit : Nat := 256

/-- Takes a default value if an equals sign follows. -/
def defaultValue : Reading (Option Literal) := do
  if ← accept (ascii '=') then some <$> literal .refused nestingLimit else return none

/-- Takes a variable definition, whose name must differ from the earlier ones. -/
def variableDefinition (earlier : List VariableDefinition) : Reading VariableDefinition := do
  let location ← position
  expect (ascii '$')
  let name ← name
  if earlier.any (·.name == name) then failAt (.duplicateVariable name) location
  else
    expect (ascii ':')
    let type ← writtenType nestingLimit
    let default ← defaultValue
    return ⟨name, type, default, location⟩

/-- The kind that a keyword begins; `location` is where it stands. -/
def operationKind (location : Location) (keyword : Bytes) : Reading OperationKind :=
  if keyword = utf8 "query" then return .query
  else if keyword = utf8 "mutation" then return .mutation
  else if keyword = utf8 "subscription" then failAt .subscription location
  else failAt (.unknownOperation keyword) location

/-- Takes an operation's name, if it has one, and the blanks after it. -/
def operationName : Reading (Option Bytes) := do
  skipBlanks
  if (← peek).any isNameStart then
    let name ← name
    skipBlanks
    return some name
  else return none

/-- Takes variable definitions, if there are any, and the blanks after them. -/
def variableDefinitions : Reading (List VariableDefinition) := do
  if (← peek) = some (ascii '(') then
    let definitions ← parenthesised variableDefinition
    skipBlanks
    return definitions
  else return []

/-- Takes the selections of an operation that began with a keyword. -/
def operationSelections : Reading (List Field) := do
  noDirective
  let next ← peek
  if next = some (ascii '{') then selections nestingLimit else fail (.expectedSelections next)

/-- Takes an operation. One that begins with a brace is an anonymous query. -/
def operation : Reading Operation := do
  let location ← position
  if (← peek) = some (ascii '{') then
    let selections ← selections nestingLimit
    return ⟨.query, none, [], selections, location⟩
  else
    let keyword ← name
    let kind ← operationKind location keyword
    let name ← operationName
    let definitions ← variableDefinitions
    let selections ← operationSelections
    return ⟨kind, name, definitions, selections, location⟩

/-! ## §3 Documents -/

/-- Takes the next operation, if any text is left; its name must be new. -/
def nextOperation (earlier : List Operation) : Reading (Option Operation) := do
  skipBlanks
  match ← peek with
  | none => return none
  | some _ =>
    let operation ← operation
    if operation.name.isSome && earlier.any (·.name == operation.name) then
      failAt (.duplicateOperation (operation.name.getD [])) operation.location
    else return some operation

/-- Takes operations up to the end of the text: one at least, and an anonymous
one only when it is alone. -/
def document : Reading Document := do
  skipBlanks
  if (← peek).isNone then fail .expectedOperation
  else
    let operations ← many nextOperation
    match operations.find? (·.name.isNone) with
    | some anonymous =>
      if 1 < operations.length then failAt .anonymousNotAlone anonymous.location
      else return ⟨operations⟩
    | none => return ⟨operations⟩

end GraphQL.Reading

namespace GraphQL

/-- The document that a query text spells, or why it is refused. -/
def Document.ofText (text : Bytes) : Except SyntaxError Document :=
  match Reading.document.run ⟨text, Location.start⟩ with
  | .ok (document, _) => .ok document
  | .error error => .error error

end GraphQL
