/-
GraphQL.Execution.Request — requests and their responses.

  §1 Requests    — the options of a request, and why one may be refused.
  §2 Operations  — running one operation.
  §3 Documents   — running the selected operations of a document.
  §4 Queries     — running a query text.
  §5 Envelopes   — responses as values, failed parsing among them.
-/
import GraphQL.Execution.Selection
import GraphQL.Input.Variables
import GraphQL.Reading.Document

namespace GraphQL

/-! ## §1 Requests -/

/-- The options of a request: what resolvers see, the values of variables, which
operation to run if not all of them, and whether the fields at the top of a
query run side by side. -/
structure RequestOptions where
  context : Value
  variableValues : Value
  root : Value
  operationName : Option Bytes
  parallel : Bool

/-- A request that gives no options. -/
def RequestOptions.plain : RequestOptions :=
  ⟨.object [], .object [], .object [], none, false⟩

/-- Why a request has no response. -/
inductive Refusal where
  | malformed (error : SyntaxError)
  /-- An option that must be an object is of another kind. -/
  | notAnObject (option kind : Bytes)
  | noSchema
  | aborted (fault : Fault)

/-- The message of a refusal that is about the request itself. -/
def Refusal.message : Refusal → Bytes
  | .malformed error => error.message
  | .notAnObject option kind => option ++ utf8 " must be a JSON object, got " ++ kind
  | .noSchema => utf8 "Executor requires a schema"
  | .aborted (.coercerRaised message) => untilNul message
  | .aborted _ => utf8 "type out of range"

namespace Request

variable {m : Type → Type} [Monad m] [MonadLog m]

/-! ## §2 Operations -/

/-- The type at which operations of a kind start, if the schema has them. -/
def rootType? (schema : Schema m) : OperationKind → Option TypeId
  | .query => some schema.query
  | .mutation => schema.mutation

/-- Leaves a log entry after an operation. -/
def logExecuted (operation : Operation) (errors : Nat) : m Unit :=
  MonadLog.log .debug
    [utf8 "executed", operation.label, utf8 "with", decimal errors, utf8 "field error(s)"]

/-- Runs one operation and adds what it gives to the response. Mutations never run
side by side. -/
def runOperation (schema : Schema m) (options : RequestOptions) (response : Response)
    (operation : Operation) : Engine m Response := do
  match rootType? schema operation.kind with
  | none =>
    return { response with errors := response.errors ++
      [⟨.mutationsUnsupported operation.label, [operation.location], none⟩] }
  | some root =>
    let bound ← VariableBindings.ofDefinitions schema options.variableValues
      operation.variableDefinitions
    let parallel := options.parallel && operation.kind == .query
    let results ← Execution.executeTop ⟨schema, bound.values, options.context⟩ parallel
      operation.selections root options.root
    logExecuted operation (Response.records results).length
    return ({ response with errors := response.errors ++ bound.errors } : Response).addAll results

/-! ## §3 Documents -/

/-- An option that is an object; null stands for the empty one. -/
def objectOption (name : Bytes) : Value → Except Refusal Value
  | .null => .ok (.object [])
  | .object members => .ok (.object members)
  | other => .error (.notAnObject name other.kindText)

/-- The options with variables and context made sure to be objects. -/
def checkOptions (options : RequestOptions) : Except Refusal RequestOptions := do
  let variableValues ← objectOption (utf8 "variables") options.variableValues
  let context ← objectOption (utf8 "context") options.context
  return { options with variableValues, context }

/-- The operations to run, and the response before the first of them. -/
def select (document : Document) : Option Bytes → List Operation × Response
  | none => (document.operations, .empty)
  | some name =>
    match document.operation? name with
    | some operation => ([operation], .empty)
    | none => ([], ⟨[], [⟨.operationUnknown name, [], none⟩]⟩)

/-- Runs operations one after another. -/
def runOperations (schema : Schema m) (options : RequestOptions) :
    Response → List Operation → Engine m Response
  | response, [] => return response
  | response, operation :: rest => do
    let response ← runOperation schema options response operation
    runOperations schema options response rest

/-- Runs the selected operations of a document. -/
def runDocument (schema : Schema m) (options : RequestOptions) (document : Document) :
    ExceptT Refusal m Response := do
  let options ← ExceptT.mk (pure (checkOptions options))
  let (operations, start) := select document options.operationName
  (runOperations schema options start operations).adapt Refusal.aborted

/-! ## §4 Queries -/

/-- Leaves a log entry about a query text that is refused. -/
def logMalformed (error : SyntaxError) : m Unit :=
  MonadLog.log .debug
    [utf8 "syntax error at", decimalInt error.location.line, utf8 ":",
      decimalInt error.location.column, utf8 "-", error.message]

/-- Parses a query text. -/
def parse (query : Bytes) : ExceptT Refusal m Document :=
  match Document.ofText query with
  | .ok document => return document
  | .error error => do
    ExceptT.lift (logMalformed error)
    throw (.malformed error)

/-- The schema to run with, if there is one. -/
def requireSchema : Option (Schema m) → ExceptT Refusal m (Schema m)
  | none => throw .noSchema
  | some schema => return schema

/-- Parses a query text and runs the selected operations. -/
def run (schema : Option (Schema m)) (options : RequestOptions) (query : Bytes) :
    ExceptT Refusal m Response := do
  let schema ← requireSchema schema
  let document ← parse query
  runDocument schema options document

/-! ## §5 Envelopes -/

/-- A response as a value. -/
def envelope (response : Response) : Value :=
  .object [(utf8 "data", .object response.data),
    (utf8 "errors", .list (response.errors.map ErrorRecord.toValue))]

/-- The response to a query text that is refused. -/
def malformedEnvelope (error : SyntaxError) : Value :=
  .object [(utf8 "data", .null),
    (utf8 "errors", .list [.object
      [(utf8 "message", .string (utf8 "Syntax error: " ++ error.message)),
        (utf8 "locations", .list [error.location.toValue])]])]

/-- Runs a query text; a text that is refused is reported in the envelope. -/
def execute (schema : Option (Schema m)) (options : RequestOptions) (query : Bytes) :
    ExceptT Refusal m Value := ExceptT.mk do
  match ← (run schema options query).run with
  | .ok response => return .ok (envelope response)
  | .error (.malformed error) => return .ok (malformedEnvelope error)
  | .error refusal => return .error refusal

end Request

end GraphQL
