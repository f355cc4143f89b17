/-
GraphQL.Execution.Selection — running the fields of a selection.

  §1 Results     — what one field contributes to its parent.
  §2 Resolution   — calling a field's resolver.
  §3 Completion   — fitting resolved values to nested selections.
  §4 Fields       — from lookup to completed value, recursively.
  §5 Tasks        — the fields at the top, side by side.

Each field gives a result of its own. Results are merged into the parent
in document order only after all of them are there, so the response does not
depend on the order in which fields at the top were run.
-/
import GraphQL.Document.Basic
import GraphQL.Input.Arguments
import GraphQL.Log.Level

namespace GraphQL

/-! ## §1 Results -/

/-- What a field contributes: its value, unless its key is left out, and the
records about it and everything below it. -/
structure FieldResult where
  value : Option Value
  errors : List ErrorRecord

/-- Response data, and all that there is to report. -/
structure Response where
  data : Members
  errors : List ErrorRecord

namespace Response

/-- The response before anything was run. -/
def empty : Response := ⟨[], []⟩

/-- The members that results contribute, under their response keys. -/
def members (results : List (Bytes × FieldResult)) : Members :=
  results.filterMap fun result => result.2.value.map fun value => (result.1, value)

/-- The records that came with results. -/
def records (results : List (Bytes × FieldResult)) : List ErrorRecord :=
  results.flatMap (·.2.errors)

/-- Adds the results of fields in order. A key that was there before keeps its
place and takes the later value. -/
def addAll (response : Response) (results : List (Bytes × FieldResult)) : Response :=
  ⟨assignAll response.data (members results), response.errors ++ records results⟩

end Response

/-- What the fields of one operation are run with. -/
structure Scope (m : Type → Type) where
  schema : Schema m
  bindings : Members
  context : Value

namespace Execution

variable {m : Type → Type} [Monad m] [MonadLog m]

/-! ## §2 Resolution -/

/-- Leaves a log entry when a resolver raised something. -/
def logRaised (field : Bytes) : Resolution → m Unit
  | .raised message =>
    MonadLog.log .warn [utf8 "resolver for", quoted field, utf8 "threw:", untilNul message]
  | .raisedOther =>
    MonadLog.log .warn [utf8 "resolver for", quoted field, utf8 "threw a non-standard exception"]
  | _ => pure ()

/-- Calls a field's resolver. -/
def resolve (scope : Scope m) (field : FieldType m) (arguments : Members) (parent : Value) :
    Engine m Resolution := do
  let resolution ← ExceptT.lift (field.resolver (.object arguments) scope.context parent)
  ExceptT.lift (logRaised field.name resolution)
  return resolution

/-- The message of a resolution that is no value. -/
def resolutionMessage? (field : Bytes) : Resolution → Option Message
  | .ok _ => none
  | .error message => some (.given message)
  | .untagged => some (.fieldUntagged field)
  | .raised message => some (.given (untilNul message))
  | .raisedOther => some (.fieldRaised field)

/-! ## §3 Completion -/

/-- A value with the records that came up while it was completed. -/
abbrev Completed := Value × List ErrorRecord

/-- Completes the items of a list, each under its index. -/
def completeItems (complete : Value → ResponsePath → Engine m Completed) (path : ResponsePath) :
    Nat → List Value → Engine m (List Value × List ErrorRecord)
  | _, [] => return ([], [])
  | index, item :: rest => do
    let (value, errors) ← complete item (path ++ [.index index])
    let (values, later) ← completeItems complete path (index + 1) rest
    return (value :: values, errors ++ later)

/-- Fits a resolved value to a field's type, where the field has selections.
Null stays null at every level, list items are completed one by one, a value
that is no list is taken for a single item, and at an object type the nested
selections `select` from the value. -/
def complete (schema : Schema m)
    (select : TypeId → Value → ResponsePath → Engine m Completed) :
    TypeExpr TypeId → Value → ResponsePath → Engine m Completed
  | .list element, value, path | .nonNull (.list element), value, path =>
    match value with
    | .null => return (.null, [])
    | .list items => do
      let (values, errors) ← completeItems (complete schema select element) path 0 items
      return (.list values, errors)
    | value => complete schema select element value path
  | type, value, path =>
    match value with
    | .null => return (.null, [])
    | value =>
      match schema.type? type.leaf with
      | none => throw (.unknownType type.leaf)
      | some named => if named.isObject then select type.leaf value path else return (value, [])

/-! ## §4 Fields -/

/-- The records that precede a resolver call: those about the arguments, and the
notice that the field is deprecated. -/
def noticesBefore (site : FieldSite) (field : FieldType m) (arguments : ArgumentVerdict) :
    List ErrorRecord :=
  arguments.errors ++ (match field.deprecation with
    | none => []
    | some deprecation => [site.record (.fieldDeprecated field.name deprecation)])

/-- Runs a declared field whose arguments are checked, `finish` completing the
value that its resolver gives. -/
def runResolver (scope : Scope m) (site : FieldSite) (field : FieldType m)
    (arguments : ArgumentVerdict) (parent : Value)
    (finish : Value → Engine m Completed) : Engine m FieldResult := do
  let notices := noticesBefore site field arguments
  match ← resolve scope field arguments.values parent with
  | .ok value =>
    let (value, errors) ← finish value
    return ⟨some value, notices ++ errors⟩
  | resolution =>
    return ⟨some .null, notices
      ++ ((resolutionMessage? field.name resolution).map site.record).toList⟩

/-- Runs a field of the declared type, `finish` completing its value at its type. -/
def runField (scope : Scope m) (node : Field) (parentType : TypeId) (parent : Value)
    (path : ResponsePath) (finish : TypeExpr TypeId → Value → Engine m Completed) :
    Engine m FieldResult :=
  match scope.schema.field? parentType node.name with
  | none => return ⟨none, [.located node.location path (.fieldUnknown node.name)]⟩
  | some field => do
    let arguments ← checkArguments scope.schema scope.bindings field node path
    if arguments.valid then
      runResolver scope ⟨field.name, node.location, path⟩ field arguments parent
        (finish field.type)
    else return ⟨none, arguments.errors⟩

/-- The object made of the results of nested selections. -/
def objectOf (results : List (Bytes × FieldResult)) : Completed :=
  let response := Response.empty.addAll results
  (.object response.data, response.errors)

mutual

/-- Runs a field of a parent value. -/
def executeField (scope : Scope m) : Field → TypeId → Value → ResponsePath →
    Engine m FieldResult
  | ⟨aliasName, name, arguments, selections, location⟩, parentType, parent, parentPath =>
    let node : Field := ⟨aliasName, name, arguments, selections, location⟩
    let path := parentPath ++ [.key node.responseKey]
    runField scope node parentType parent path fun type value =>
      if selections.isEmpty then return (value, [])
      else
        complete scope.schema (fun id value path => do
          return objectOf (← executeFields scope selections id value path)) type value path

/-- Runs fields of a parent value one after another. -/
def executeFields (scope : Scope m) : List Field → TypeId → Value → ResponsePath →
    Engine m (List (Bytes × FieldResult))
  | [], _, _, _ => return []
  | field :: rest, parentType, parent, path => do
    let result ← executeField scope field parentType parent path
    let results ← executeFields scope rest parentType parent path
    return (field.responseKey, result) :: results

end

/-! ## §5 Tasks -/

/-- Runs every task, whether or not one before it was aborted. -/
def runTasks {α : Type} : List (Engine m α) → m (List (Except Fault α))
  | [] => return []
  | task :: rest => do
    let result ← task.run
    let results ← runTasks rest
    return result :: results

/-- The results of tasks in order; the first fault aborts them all. -/
def allResults {α : Type} : List (Except Fault α) → Except Fault (List α)
  | [] => .ok []
  | result :: rest => do
    let value ← result
    let values ← allResults rest
    return value :: values

/-- Runs the fields at the top as tasks of their own. A fault aborts the request
only after every task has come to its end. -/
def executeTasks (scope : Scope m) (fields : List Field) (parentType : TypeId) (parent : Value) :
    Engine m (List (Bytes × FieldResult)) := do
  let endings ← ExceptT.lift (runTasks (fields.map fun field =>
    executeField scope field parentType parent []))
  let results ← ExceptT.mk (pure (allResults endings))
  return (fields.map Field.responseKey).zip results

/-- Runs the fields at the top, side by side or one after another. -/
def executeTop (scope : Scope m) (parallel : Bool) (fields : List Field) (parentType : TypeId)
    (parent : Value) : Engine m (List (Bytes × FieldResult)) :=
  if parallel then executeTasks scope fields parentType parent
  else executeFields scope fields parentType parent []

end Execution

end GraphQL
