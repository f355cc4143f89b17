/-
GraphQL.Schema.Problem — why definitions do not make a schema.

  §1 Problems   — one constructor for each rule of consistency.
  §2 Wording    — the message of a problem.
-/
import GraphQL.Text.Bytes

namespace GraphQL

/-! ## §1 Problems -/

/-- A part of a definition, by the names that lead to it. -/
inductive DefinitionPart where
  | field (object field : Bytes)
  | argument (object field argument : Bytes)
  | inputField (input field : Bytes)
deriving DecidableEq

/-- A rule that definitions break. -/
inductive SchemaProblem where
  | malformedType (text : Bytes)
  | scalarWithoutCoercer (scalar : Bytes)
  | duplicateType (name : Bytes)
  | objectWithoutFields (object : Bytes)
  | inputWithoutFields (input : Bytes)
  | duplicatePart (part : DefinitionPart)
  | unknownType (part : DefinitionPart) (name : Bytes)
  | notOutputType (part : DefinitionPart) (name : Bytes)
  | notInputType (part : DefinitionPart) (name : Bytes)
  | invalidDefault (part : DefinitionPart) (type : Bytes)
  | badQueryType (name : Bytes)
  | badMutationType (name : Bytes)
deriving DecidableEq

/-! ## §2 Wording -/

namespace DefinitionPart

/-- The sort of a part, as it begins a sentence. -/
def sort : DefinitionPart → Bytes
  | .field .. => utf8 "Field"
  | .argument .. => utf8 "Argument"
  | .inputField .. => utf8 "Input field"

/-- The sort of a part within a sentence. -/
def innerSort : DefinitionPart → Bytes
  | .field .. => utf8 "field"
  | .argument .. => utf8 "argument"
  | .inputField .. => utf8 "input field"

/-- The quoted names of a part. -/
def names : DefinitionPart → Bytes
  | .field owner name => quoted (owner ++ utf8 "." ++ name)
  | .argument owner name argumentName =>
    quoted (owner ++ utf8 "." ++ name ++ utf8 "(" ++ argumentName ++ utf8 ")")
  | .inputField owner name => quoted (owner ++ utf8 "." ++ name)

/-- A part as it begins a sentence. -/
def text (part : DefinitionPart) : Bytes := part.sort ++ utf8 " " ++ part.names

/-- A part within a sentence. -/
def innerText (part : DefinitionPart) : Bytes := part.innerSort ++ utf8 " " ++ part.names

end DefinitionPart

namespace SchemaProblem

/-- The wording of a problem. -/
def wording : SchemaProblem → Bytes
  | .malformedType text => utf8 "Malformed type " ++ quoted text
  | .scalarWithoutCoercer scalar =>
    utf8 "Scalar " ++ quoted scalar ++ utf8 " has no coercion function"
  | .duplicateType name => utf8 "Type " ++ quoted name ++ utf8 " is defined more than once"
  | .objectWithoutFields object =>
    utf8 "Object type " ++ quoted object ++ utf8 " must define at least one field"
  | .inputWithoutFields input =>
    utf8 "Input object type " ++ quoted input ++ utf8 " must define at least one field"
  | .duplicatePart part => part.text ++ utf8 " is defined more than once"
  | .unknownType part name => part.text ++ utf8 " refers to unknown type " ++ quoted name
  | .notOutputType part name =>
    part.text ++ utf8 " must have an output type, " ++ quoted name
      ++ utf8 " is an input object type"
  | .notInputType part name =>
    part.text ++ utf8 " must have an input type, " ++ quoted name ++ utf8 " is an object type"
  | .invalidDefault part type =>
    utf8 "Default value of " ++ part.innerText ++ utf8 " is not a valid " ++ type
  | .badQueryType name =>
    utf8 "Query root type " ++ quoted name ++ utf8 " is not a defined object type"
  | .badMutationType name =>
    utf8 "Mutation root type " ++ quoted name ++ utf8 " is not a defined object type"

/-- The message of a problem. A NUL byte in a quoted text ends it. -/
def message (problem : SchemaProblem) : Bytes := untilNul problem.wording

end SchemaProblem

end GraphQL
