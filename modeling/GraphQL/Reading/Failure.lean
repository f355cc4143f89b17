/-
GraphQL.Reading.Failure — why a query text is refused.

  §1 Causes   — one constructor for each rule that a text can break.
  §2 Wording  — the message of a cause.
-/
import GraphQL.Document.Location

namespace GraphQL

/-! ## §1 Causes -/

/-- A rule that a query text breaks. `found` is the byte met instead of what
was expected, absent at the end of the text. -/
inductive SyntaxProblem where
  | expectedOperation
  | unknownOperation (keyword : Bytes)
  | duplicateOperation (name : Bytes)
  | anonymousNotAlone
  | subscription
  | directive
  | fragment
  | nestsTooDeeply
  | expectedByte (expected : UInt8) (found : Option UInt8)
  | expectedName (found : Option UInt8)
  | expectedSelections (found : Option UInt8)
  | emptySelections
  | expectedValue (found : Option UInt8)
  | unclosed (closing : UInt8)
  | duplicateVariable (name : Bytes)
  | duplicateArgument (name : Bytes)
  | duplicateInputField (name : Bytes)
  | variableInDefault (name : Bytes)
  | expectedDigit (found : Option UInt8)
  | unexpectedAfterNumber (found : Option UInt8)
  | integerOutOfRange (text : Bytes)
  | floatOutOfRange (text : Bytes)
  | unterminatedString
  | invalidUtf8
  | invalidEscape (found : Option UInt8)
  | invalidUnicodeEscape
  | unpairedSurrogate
deriving DecidableEq

/-- A broken rule and the position where it was noticed. -/
structure SyntaxError where
  problem : SyntaxProblem
  location : Location
deriving DecidableEq

/-! ## §2 Wording -/

/-- What stands at a position: the byte, or the end of the text. -/
def describeByte : Option UInt8 → Bytes
  | none => utf8 "end of input"
  | some b => quoted [b]

namespace SyntaxProblem

/-- The wording of a problem. -/
def wording : SyntaxProblem → Bytes
  | .expectedOperation => utf8 "Unexpected end of input, expected an operation"
  | .unknownOperation keyword =>
    utf8 "Expected `query', `mutation' or `\x7b', found " ++ quoted keyword
  | .duplicateOperation name => utf8 "Duplicate operation " ++ quoted name
  | .anonymousNotAlone =>
    utf8 "Anonymous operation must be the only operation in the document"
  | .subscription => utf8 "Subscriptions are not supported"
  | .directive => utf8 "Directives are not supported"
  | .fragment => utf8 "Fragments are not supported"
  | .nestsTooDeeply => utf8 "Document nests too deeply"
  | .expectedByte expected found =>
    utf8 "Expected " ++ quoted [expected] ++ utf8 ", found " ++ describeByte found
  | .expectedName found => utf8 "Expected name, found " ++ describeByte found
  | .expectedSelections found => utf8 "Expected selection set, found " ++ describeByte found
  | .emptySelections => utf8 "Selection set must not be empty"
  | .expectedValue found =>
    utf8 "Unexpected " ++ describeByte found ++ utf8 ", expected a value"
  | .unclosed closing => utf8 "Unexpected end of input, expected " ++ quoted [closing]
  | .duplicateVariable name => utf8 "Duplicate variable " ++ quoted (ascii '$' :: name)
  | .duplicateArgument name => utf8 "Duplicate argument " ++ quoted name
  | .duplicateInputField name => utf8 "Duplicate input field " ++ quoted name
  | .variableInDefault name =>
    utf8 "Variable " ++ quoted (ascii '$' :: name) ++ utf8 " not allowed in a default value"
  | .expectedDigit found =>
    utf8 "Invalid number, expected digit but found " ++ describeByte found
  | .unexpectedAfterNumber found => utf8 "Invalid number, unexpected " ++ describeByte found
  | .integerOutOfRange text =>
    utf8 "Integer literal " ++ quoted text ++ utf8 " is out of range"
  | .floatOutOfRange text => utf8 "Invalid float literal " ++ quoted text
  | .unterminatedString => utf8 "Unterminated string"
  | .invalidUtf8 => utf8 "Invalid UTF-8 in string"
  | .invalidEscape found =>
    utf8 "Invalid escape sequence " ++ quoted [ascii '\\', found.getD 0]
  | .invalidUnicodeEscape => utf8 "Invalid unicode escape sequence"
  | .unpairedSurrogate => utf8 "Invalid unicode surrogate pair"

/-- The message of a problem. A quoted NUL byte ends it. -/
def message (problem : SyntaxProblem) : Bytes := untilNul problem.wording

end SyntaxProblem

/-- The message of an error. -/
def SyntaxError.message (error : SyntaxError) : Bytes := error.problem.message

end GraphQL
