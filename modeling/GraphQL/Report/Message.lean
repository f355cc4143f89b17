/-
GraphQL.Report.Message — what the engine has to say about a request.

  §1 Deprecation   — the mark on a deprecated field or argument.
  §2 Messages      — one constructor for each finding.
  §3 Wording       — the text of a message.
-/
import GraphQL.Document.TypeExpr

namespace GraphQL

/-! ## §1 Deprecation -/

/-- The mark of a deprecated field or argument, with the reason if one is given. -/
structure Deprecation where
  reason : Option Bytes
deriving DecidableEq

/-- The notice given when something deprecated is used. -/
def Deprecation.notice (deprecation : Deprecation) : Bytes :=
  match deprecation.reason with
  | none => utf8 "Deprecated"
  | some reason => utf8 "Deprecated; " ++ reason

/-! ## §2 Messages -/

/-- What an input was given for. -/
inductive Subject where
  | argumentInput
  | variableInput
deriving DecidableEq

/-- A message of an error record. Paths and types of inputs are in the form in
which they are shown. -/
inductive Message where
  /-- A text that comes from a resolver or from the host. -/
  | given (text : Bytes)
  | fieldUnknown (field : Bytes)
  | fieldDeprecated (field : Bytes) (deprecation : Deprecation)
  /-- The resolver answered neither a value nor an error. -/
  | fieldUntagged (field : Bytes)
  /-- The resolver raised something without a message. -/
  | fieldRaised (field : Bytes)
  | argumentsMissing (field : Bytes) (names : List Bytes)
  | argumentsMalformed (field : Bytes) (count : Nat) (paths : List Bytes)
  | inputMissing (subject : Subject) (path type : Bytes)
  | inputInvalid (subject : Subject) (path type : Bytes)
  | inputUnknown (subject : Subject) (path : Bytes)
  | inputDeprecated (subject : Subject) (path type : Bytes) (deprecation : Deprecation)
  | typeUnknown (variableName : Bytes) (type : TypeExpr Bytes)
  | operationUnknown (name : Bytes)
  | mutationsUnsupported (label : Bytes)
deriving DecidableEq

/-! ## §3 Wording -/

/-- What a message calls its subject. -/
def Subject.text : Subject → Bytes
  | .argumentInput => utf8 "Argument"
  | .variableInput => utf8 "Variable"

/-- A finding about something named: its sort, its quoted name and the finding. -/
def finding (sort name text : Bytes) : Bytes :=
  sort ++ utf8 " " ++ quoted name ++ utf8 ": " ++ text

/-- A finding about an input whose declared type is shown. -/
def typedFinding (subject : Subject) (path type text : Bytes) : Bytes :=
  subject.text ++ utf8 " " ++ quoted path ++ utf8 " (" ++ type ++ utf8 "): " ++ text

/-- A count of arguments with their names, and what became of them. -/
def argumentSummary (count : Nat) (adjective : Bytes) (names : List Bytes) (text : Bytes) : Bytes :=
  countText count adjective (utf8 "argument") ++ utf8 " " ++ quotedNames names ++ utf8 " " ++ text

/-- The text of a message. -/
def Message.text : Message → Bytes
  | .given text => text
  | .fieldUnknown field => finding (utf8 "Field") field (utf8 "Not present in schema")
  | .fieldDeprecated field deprecation => finding (utf8 "Field") field deprecation.notice
  | .fieldUntagged field =>
    finding (utf8 "Field") field (utf8 "Did not resolve to match ok/error tagged result")
  | .fieldRaised field =>
    finding (utf8 "Field") field (utf8 "Resolver failed with an unknown exception")
  | .argumentsMissing field names =>
    finding (utf8 "Field") field
      (argumentSummary names.length (utf8 "required") names (utf8 "not provided"))
  | .argumentsMalformed field count paths =>
    finding (utf8 "Field") field
      (argumentSummary count (utf8 "badly formed") paths (utf8 "provided"))
  | .inputMissing subject path type => typedFinding subject path type (utf8 "Not provided")
  | .inputInvalid subject path type =>
    typedFinding subject path type (utf8 "Invalid value provided")
  | .inputUnknown subject path => finding subject.text path (utf8 "Not present in schema")
  | .inputDeprecated subject path type deprecation =>
    typedFinding subject path type deprecation.notice
  | .typeUnknown variableName type =>
    finding (utf8 "Variable") variableName (utf8 "Unknown type " ++ type.text)
  | .operationUnknown name => finding (utf8 "Operation") name (utf8 "Not present in document")
  | .mutationsUnsupported label =>
    finding (utf8 "Operation") label (utf8 "Mutations not supported by schema")

end GraphQL
