/-
GraphQL.Schema.Build — from definitions to a schema.

  §1 Names      — every named type gets its position.
  §2 Types      — fields and arguments, referring to types by position.
  §3 Defaults   — default values are coerced once every type is there.
  §4 Roots      — the types at which operations start.

The first problem that is met is the one reported. The tables of names grow with the
types and their fields, so they tell which names are there already. Defaults are
coerced in the order of positions, so a default may be completed by defaults that are
not yet coerced themselves.
-/
import GraphQL.Input.Coercion
import GraphQL.Log.Level
import GraphQL.Schema.BuiltIn
import GraphQL.Schema.Definition
import GraphQL.Schema.Problem
import GraphQL.Schema.WrittenType

namespace GraphQL

/-- Why there is no schema. -/
inductive BuildFailure where
  | inconsistent (problem : SchemaProblem)
  /-- Coercing a default value was aborted. -/
  | aborted (fault : Fault)

namespace Build

variable {m : Type → Type}

/-! ## §1 Names -/

/-- The schema with another type, whose name must be new. -/
def declare (schema : Schema m) (type : NamedType m) : Except SchemaProblem (Schema m) :=
  if schema.byName.contains type.name then .error (.duplicateType type.name)
  else .ok (schema.add type)

/-- The schema with a scalar, which must have a coercion function. -/
def declareScalar (schema : Schema m) (definition : ScalarDefinition m) :
    Except SchemaProblem (Schema m) :=
  match definition.coercer with
  | none => .error (.scalarWithoutCoercer definition.name)
  | some coerce => declare schema (.of definition.name [] (.scalar coerce))

/-- An object type without fields. -/
def bareObject (definition : ObjectDefinition m) : NamedType m :=
  .of definition.name definition.description (.object [])

/-- An input object type without fields. -/
def bareInput (definition : InputDefinition) : NamedType m :=
  .of definition.name definition.description (.inputObject [])

/-- The built-in scalars. -/
def builtInTypes [Monad m] : List (NamedType m) :=
  Scalar.builtIn.map fun (name, coerce) => .of name [] (.scalar fun value => return coerce value)

/-- The schema in which all types have their positions, and none has fields: built-in
scalars, scalars, objects, input objects. -/
def layOut [Monad m] (definitions : Definitions m) : Except SchemaProblem (Schema m) := do
  let schema ← builtInTypes.foldlM declare .empty
  let schema ← definitions.scalars.foldlM declareScalar schema
  let schema ← definitions.objects.foldlM (fun schema object => declare schema (bareObject object))
    schema
  definitions.inputs.foldlM (fun schema input => declare schema (bareInput input)) schema

/-! ## §2 Types -/

/-- A written type understood. -/
def resolve (schema : Schema m) (part : DefinitionPart) (text : Bytes) :
    Except SchemaProblem (TypeExpr TypeId) :=
  match WrittenType.ofText text with
  | .error text => .error (.malformedType text)
  | .ok written =>
    match schema.understand? written with
    | some type => .ok type
    | none => .error (.unknownType part written.leaf)

/-- An argument, whose type must be one that takes input. -/
def argument (schema : Schema m) (part : DefinitionPart) (definition : ArgumentDefinition) :
    Except SchemaProblem Argument := do
  let type ← resolve schema part definition.type
  if schema.isObjectType type.leaf then .error (.notInputType part (schema.typeName type.leaf))
  else
    return ⟨definition.name, type, definition.default, definition.deprecation,
      definition.description⟩

/-- Builds each part after checking that its name is not among those `seen`. -/
def eachOnce {α β : Type} (name : α → Bytes) (part : Bytes → DefinitionPart)
    (build : α → Except SchemaProblem β) : List Bytes → List α → Except SchemaProblem (List β)
  | _, [] => return []
  | seen, definition :: rest => do
    if seen.contains (name definition) then .error (.duplicatePart (part (name definition)))
    else
      let built ← build definition
      let others ← eachOnce name part build (name definition :: seen) rest
      return built :: others

/-- Arguments of distinct names. -/
def arguments (schema : Schema m) (part : Bytes → DefinitionPart)
    (definitions : List ArgumentDefinition) : Except SchemaProblem (List Argument) :=
  eachOnce ArgumentDefinition.name part
    (fun definition => argument schema (part definition.name) definition) [] definitions

/-- A field, whose type must be one that values are given in. -/
def fieldType [Monad m] (schema : Schema m) (object : Bytes) (definition : FieldDefinition m) :
    Except SchemaProblem (FieldType m) := do
  let part := DefinitionPart.field object definition.name
  let type ← resolve schema part definition.type
  if schema.isInputObjectType type.leaf then
    .error (.notOutputType part (schema.typeName type.leaf))
  else
    let arguments ← arguments schema (.argument object definition.name) definition.arguments
    return ⟨definition.name, type, arguments,
      definition.resolver.getD (memberResolver definition.name), definition.deprecation,
      definition.description⟩

/-- Builds the parts of the type at a position one by one, and adds each to it. The type
must not have a part of the name already. -/
def addEach {α β : Type} (id : TypeId) (name : α → Bytes) (part : Bytes → DefinitionPart)
    (build : Schema m → α → Except SchemaProblem β) (add : Schema m → β → Schema m) :
    Schema m → List α → Except SchemaProblem (Schema m)
  | schema, [] => return schema
  | schema, definition :: rest => do
    if schema.hasPart id (name definition) then .error (.duplicatePart (part (name definition)))
    else
      let built ← build schema definition
      addEach id name part build add (add schema built) rest

/-- The schema with the fields of an object type, which must have some. Its type has been
laid out before. -/
def fillObject [Monad m] (schema : Schema m) (definition : ObjectDefinition m) :
    Except SchemaProblem (Schema m) :=
  if definition.fields.isEmpty then .error (.objectWithoutFields definition.name)
  else
    match schema.typeId? definition.name with
    | none => .ok schema
    | some id =>
      addEach id FieldDefinition.name (.field definition.name)
        (fun schema field => fieldType schema definition.name field)
        (fun schema field => schema.addField id field) schema definition.fields

/-- The schema with the fields of an input object type, which must have some. -/
def fillInput (schema : Schema m) (definition : InputDefinition) :
    Except SchemaProblem (Schema m) :=
  if definition.fields.isEmpty then .error (.inputWithoutFields definition.name)
  else
    match schema.typeId? definition.name with
    | none => .ok schema
    | some id =>
      addEach id ArgumentDefinition.name (.inputField definition.name)
        (fun schema field => argument schema (.inputField definition.name field.name) field)
        (fun schema field => schema.addInputField id field) schema definition.fields

/-- The schema of all types in the order of their positions, defaults as they are given and
without roots. -/
def arena [Monad m] (definitions : Definitions m) : Except SchemaProblem (Schema m) := do
  let schema ← layOut definitions
  let schema ← definitions.objects.foldlM fillObject schema
  definitions.inputs.foldlM fillInput schema

/-! ## §3 Defaults -/

/-- Computations that may find that there is no schema. -/
abbrev Building (m : Type → Type) := ExceptT BuildFailure m

/-- The argument with its default coerced to its type. -/
def settleArgument [Monad m] (schema : Schema m) (part : DefinitionPart) (argument : Argument) :
    Building m Argument := do
  match argument.default with
  | none => return argument
  | some value =>
    let coerced ← ((value.coerce schema none argument.type argument.name).adapt .aborted :
      Building m Coerced)
    match coerced.outcome with
    | .ok value => return { argument with default := some value }
    | _ => throw (.inconsistent (.invalidDefault part (schema.typeText argument.type)))

/-- Arguments with their defaults coerced. -/
def settleArguments [Monad m] (schema : Schema m) (part : Bytes → DefinitionPart) :
    List Argument → Building m (List Argument)
  | [] => return []
  | argument :: rest => do
    let settled ← settleArgument schema (part argument.name) argument
    let others ← settleArguments schema part rest
    return settled :: others

/-- The arguments of fields with their defaults coerced, field by field. -/
def settleFields [Monad m] (schema : Schema m) (object : Bytes) :
    List (FieldType m) → Building m (List (List Argument))
  | [] => return []
  | field :: rest => do
    let arguments ← settleArguments schema (.argument object field.name) field.arguments
    let others ← settleFields schema object rest
    return arguments :: others

/-- Coerces the defaults of input fields one by one, each in a schema where the
earlier ones are coerced already. -/
def settleInputFields [Monad m] (id : TypeId) (input : Bytes) :
    Schema m → Nat → List Argument → Building m (Schema m)
  | schema, _, [] => return schema
  | schema, position, field :: rest => do
    let settled ← settleArgument schema (.inputField input field.name) field
    settleInputFields id input (schema.withDefault id position settled.default) (position + 1) rest

/-- Coerces the defaults of the type at a position. -/
def settleType [Monad m] (schema : Schema m) (id : TypeId) : Building m (Schema m) := do
  match schema.type? id with
  | none => return schema
  | some type =>
    match type.body with
    | .scalar _ => return schema
    | .object fields => return schema.withArguments id (← settleFields schema type.name fields)
    | .inputObject fields => settleInputFields id type.name schema 0 fields

/-- Coerces all defaults. -/
def settleDefaults [Monad m] (schema : Schema m) : Building m (Schema m) :=
  (List.range schema.types.length).foldlM settleType schema

/-! ## §4 Roots -/

/-- The position of an object type. -/
def objectId? (schema : Schema m) (name : Bytes) : Option TypeId :=
  (schema.typeId? name).filter schema.isObjectType

/-- The schema with the types at which operations start. -/
def withRoots (definitions : Definitions m) (schema : Schema m) :
    Except SchemaProblem (Schema m) := do
  let queryName := definitions.queryType.getD fallbackQueryType
  match objectId? schema queryName with
  | none => .error (.badQueryType queryName)
  | some query =>
    match definitions.mutationType with
    | none => return { schema with query, mutation := none }
    | some mutationName =>
      match objectId? schema mutationName with
      | none => .error (.badMutationType mutationName)
      | some mutation => return { schema with query, mutation := some mutation }

/-- A step that can only find an inconsistency. -/
def checked {α : Type} [Monad m] (result : Except SchemaProblem α) : Building m α :=
  ExceptT.mk (pure (result.mapError .inconsistent))

end Build

/-- Builds a schema from definitions. -/
def Definitions.build {m : Type → Type} [Monad m] [MonadLog m] (definitions : Definitions m) :
    ExceptT BuildFailure m (Schema m) := do
  let schema ← Build.checked (Build.arena definitions)
  let schema ← Build.settleDefaults schema
  let schema ← Build.checked (Build.withRoots definitions schema)
  MonadLog.log .debug [utf8 "schema built with", decimal schema.types.length, utf8 "types"]
  return schema

end GraphQL
