/-
GraphQL.Input.Arguments — the arguments of one selected field.

  §1 Attempts   — every declared argument is coerced first, in declaration order.
  §2 Reports    — what is then reported, in the order of the checks.
  §3 Verdicts   — the coerced arguments, and whether the field may resolve.

The checks are: required arguments that are not provided, arguments that are
not declared, values that do not fit, and the use of what is deprecated. Only
the first and the third keep the field from resolving.
-/
import GraphQL.Input.Coercion
import GraphQL.Report.Record

namespace GraphQL

/-! ## §1 Attempts -/

/-- A declared argument, the node that supplies it if there is one, and what
its coercion gave. -/
structure ArgumentAttempt where
  argument : Argument
  node : Option (Entry Literal)
  coerced : Coerced

/-- The result of checking the arguments of a field. -/
structure ArgumentVerdict where
  values : Members
  valid : Bool
  errors : List ErrorRecord

namespace ArgumentAttempt

/-- Coerces a declared argument, if a node supplies it. -/
def make {m : Type → Type} [Monad m] (schema : Schema m) (bindings : Members)
    (nodes : List (Entry Literal)) (argument : Argument) : Engine m ArgumentAttempt := do
  match nodes.find? (·.name == argument.name) with
  | none => return ⟨argument, none, .absent⟩
  | some node =>
    let coerced ← node.value.coerce schema bindings argument.type argument.name
    return ⟨argument, some node, coerced⟩

/-- The value that the argument takes: the coerced one, or the default. -/
def value? (attempt : ArgumentAttempt) : Option Value :=
  match attempt.coerced.outcome with
  | .ok value => some value
  | .absent => attempt.argument.default
  | .failed => none

/-- The argument is required, and nothing was provided for it. -/
def isMissing (attempt : ArgumentAttempt) : Bool :=
  match attempt.coerced.outcome with
  | .absent => attempt.argument.required
  | _ => false

/-- The issues that make the argument badly formed. -/
def failures (attempt : ArgumentAttempt) : List Issue := attempt.coerced.issues.filter Issue.failing

/-! ## §2 Reports -/

/-- The place of an issue, or of the argument that it is about. -/
def place (attempt : ArgumentAttempt) (issue : Issue) (fallback : Location) : Location :=
  issue.location.getD ((attempt.node.map (·.location)).getD fallback)

end ArgumentAttempt

/-- A selected field whose arguments are checked: its declared name, its place
in the document and its path in the response. -/
structure FieldSite where
  field : Bytes
  location : Location
  path : ResponsePath

namespace FieldSite

/-- A record about the field itself. -/
def record (site : FieldSite) (message : Message) : ErrorRecord :=
  .located site.location site.path message

/-- The record for a required argument that is not provided, at its node if a
variable without value stands there. -/
def missingRecord {m : Type → Type} (schema : Schema m) (site : FieldSite)
    (attempt : ArgumentAttempt) : ErrorRecord :=
  .located ((attempt.node.map (·.location)).getD site.location) site.path
    (.inputMissing .argumentInput attempt.argument.name (schema.displayText attempt.argument.type))

/-- Required arguments that are not provided: a summary, then each of them. -/
def missingReport {m : Type → Type} (schema : Schema m) (site : FieldSite)
    (attempts : List ArgumentAttempt) : List ErrorRecord :=
  let missing := attempts.filter (·.isMissing)
  if missing.isEmpty then []
  else
    site.record (.argumentsMissing site.field (missing.map (·.argument.name)))
      :: missing.map (missingRecord schema site)

/-- Arguments that the field does not declare. -/
def undeclaredReport (site : FieldSite) (declared : List Argument)
    (nodes : List (Entry Literal)) : List ErrorRecord :=
  (nodes.filter fun node => !declared.any (·.name == node.name)).map fun node =>
    .located node.location site.path (.inputUnknown .argumentInput node.name)

/-- The message of a failing issue. -/
def failureMessage (issue : Issue) : Message :=
  if issue.kind = .missing then .inputMissing .argumentInput issue.path issue.typeName
  else .inputInvalid .argumentInput issue.path issue.typeName

/-- Badly formed arguments: a summary that counts the arguments and names every
failing part, then each part. -/
def malformedReport (site : FieldSite) (attempts : List ArgumentAttempt) : List ErrorRecord :=
  let malformed := attempts.filter fun attempt => !attempt.failures.isEmpty
  if malformed.isEmpty then []
  else
    site.record (.argumentsMalformed site.field malformed.length
        ((malformed.map (·.failures)).flatten.map (·.path)))
      :: (malformed.map fun attempt => attempt.failures.map fun issue =>
        .located (attempt.place issue site.location) site.path (failureMessage issue)).flatten

/-- Fields of input objects that are not declared. -/
def unknownReport (site : FieldSite) (attempts : List ArgumentAttempt) : List ErrorRecord :=
  (attempts.map fun attempt => attempt.coerced.issues.filterMap fun issue =>
    if issue.kind = .unknown then
      some (.located (attempt.place issue site.location) site.path
        (.inputUnknown .argumentInput issue.path))
    else none).flatten

/-- The notice that a deprecated argument is used. -/
def argumentNotice {m : Type → Type} (schema : Schema m) (site : FieldSite)
    (node : Entry Literal) (argument : Argument) : List ErrorRecord :=
  match argument.deprecation with
  | none => []
  | some deprecation =>
    [.located node.location site.path (.inputDeprecated .argumentInput argument.name
      (schema.displayText argument.type) deprecation)]

/-- The notice of an issue about a deprecated field. -/
def issueNotice (site : FieldSite) (attempt : ArgumentAttempt) (issue : Issue) :
    Option ErrorRecord :=
  match issue.kind with
  | .deprecated deprecation =>
    some (.located (attempt.place issue site.location) site.path
      (.inputDeprecated .argumentInput issue.path issue.typeName deprecation))
  | _ => none

/-- Deprecated arguments that are used, each before its deprecated fields. -/
def deprecatedReport {m : Type → Type} (schema : Schema m) (site : FieldSite)
    (attempts : List ArgumentAttempt) : List ErrorRecord :=
  (attempts.map fun attempt => match attempt.node with
    | none => []
    | some node =>
      argumentNotice schema site node attempt.argument
        ++ attempt.coerced.issues.filterMap (issueNotice site attempt)).flatten

end FieldSite

/-! ## §3 Verdicts -/

/-- The arguments that have a value, in declaration order. -/
def argumentValues (attempts : List ArgumentAttempt) : Members :=
  attempts.filterMap fun attempt => attempt.value?.map fun value => (attempt.argument.name, value)

/-- Checks and coerces the arguments of a selected field. -/
def checkArguments {m : Type → Type} [Monad m] (schema : Schema m) (bindings : Members)
    (field : FieldType m) (node : Field) (path : ResponsePath) : Engine m ArgumentVerdict := do
  let attempts ← field.arguments.mapM (ArgumentAttempt.make schema bindings node.arguments)
  let site : FieldSite := ⟨field.name, node.location, path⟩
  let missing := site.missingReport schema attempts
  let malformed := site.malformedReport attempts
  return ⟨argumentValues attempts, missing.isEmpty && malformed.isEmpty,
    missing ++ site.undeclaredReport field.arguments node.arguments ++ malformed
      ++ site.unknownReport attempts ++ site.deprecatedReport schema attempts⟩

end GraphQL
