/-
GraphQL.Proofs.Execution.Recording — schemas that keep a record of calls.

  §1 Calls      — resolver calls, and computations that record them.
  §2 Schemas    — a schema whose resolvers record every call.
  §3 Hosts      — recording as a host for schemas.
  §4 Silence    — what records nothing.

The recorded run is the same program in a monad with one more state: the calls
made so far. Only resolvers touch it. Everything that the engine does before a
call is the plain computation, lifted, as it is on every host.
-/
import GraphQL.Proofs.Execution.Hosting

namespace GraphQL

/-! ## §1 Calls -/

/-- A call of a resolver: the field as the schema declares it, and what its
resolver was given. -/
structure Call (m : Type → Type) where
  field : FieldType m
  arguments : Value
  context : Value
  parent : Value

/-- Computations that record the calls that they make, the latest at the end. -/
abbrev Recording (m : Type → Type) := StateT (List (Call m)) m

variable {m : Type → Type} [Monad m]

/-- Log entries go where they went. -/
instance [MonadLog m] : MonadLog (Recording m) where
  log level words := StateT.lift (MonadLog.log level words)

/-- A computation that records nothing. -/
def Engine.silent {α : Type} (x : Engine m α) : Engine (Recording m) α :=
  ExceptT.mk (StateT.lift x.run)

/-! ## §2 Schemas -/

/-- The field with a resolver that records each call and then answers it. -/
def FieldType.recorded (field : FieldType m) : FieldType (Recording m) where
  name := field.name
  type := field.type
  arguments := field.arguments
  resolver arguments context parent := do
    modify (· ++ [⟨field, arguments, context, parent⟩])
    StateT.lift (field.resolver arguments context parent)
  deprecation := field.deprecation
  description := field.description

/-- The same type, its resolvers recording their calls. -/
def TypeBody.recorded : TypeBody m → TypeBody (Recording m)
  | .scalar coerce => .scalar fun value => Engine.silent (coerce value)
  | .object fields => .object (fields.map FieldType.recorded)
  | .inputObject declared => .inputObject declared

/-- The same named type, its resolvers recording their calls. -/
def NamedType.recorded (type : NamedType m) : NamedType (Recording m) :=
  .of type.name type.description type.body.recorded

/-- The same schema, its resolvers recording their calls. -/
def Schema.recorded (schema : Schema m) : Schema (Recording m) where
  types := schema.types.map NamedType.recorded
  query := schema.query
  mutation := schema.mutation

variable [LawfulMonad m]

/-! ## §3 Hosts -/

namespace Hosting

/-- The host that records calls. -/
def recording : Hosting m (Recording m) where
  lift := StateT.lift
  lift_pure a := by
    apply StateT.ext
    intro calls
    simp
  lift_bind x f := by
    apply StateT.ext
    intro calls
    simp
  resolver field := field.recorded.resolver

theorem body_recording (body : TypeBody m) : recording.body body = body.recorded := by
  cases body <;> rfl

theorem type_recording (type : NamedType m) : recording.type type = type.recorded := by
  unfold Hosting.type NamedType.recorded
  rw [body_recording]

theorem schema_recording (schema : Schema m) : recording.schema schema = schema.recorded := by
  have htypes : recording.type (m := m) = NamedType.recorded := funext type_recording
  exact Schema.ext (congrArg (fun change => schema.types.map change) htypes) rfl rfl

end Hosting

/-! ## §4 Silence -/

namespace Schema

variable (schema : Schema m)

@[simp]
theorem type?_recorded (id : TypeId) :
    schema.recorded.type? id = (schema.type? id).map NamedType.recorded := by
  rw [← Hosting.schema_recording, Hosting.type?_schema]
  exact congrArg (fun f => (schema.type? id).map f) (funext Hosting.type_recording)

@[simp]
theorem isObject_recorded (type : NamedType m) : type.recorded.isObject = type.isObject := by
  rw [← Hosting.type_recording, Hosting.isObject_type]

/-- A field is found where it was. -/
@[simp]
theorem field?_recorded (parent : TypeId) (name : Bytes) :
    schema.recorded.field? parent name = (schema.field? parent name).map FieldType.recorded := by
  rw [← Hosting.schema_recording]
  exact Hosting.field?_schema Hosting.recording schema parent name

end Schema

variable {schema : Schema m}

/-- Checking arguments records nothing. -/
theorem checkArguments_recorded (bindings : Members) (field : FieldType m) (node : Field)
    (path : ResponsePath) :
    checkArguments schema.recorded bindings field.recorded node path =
      Engine.silent (checkArguments schema bindings field node path) := by
  rw [← Hosting.schema_recording]
  exact checkArguments_hosted Hosting.recording bindings field node path

/-- Binding variables records nothing. -/
theorem VariableBindings.ofDefinitions_recorded (supplied : Value)
    (definitions : List VariableDefinition) :
    ofDefinitions schema.recorded supplied definitions =
      Engine.silent (ofDefinitions schema supplied definitions) := by
  rw [← Hosting.schema_recording]
  exact ofDefinitions_hosted Hosting.recording supplied definitions

end GraphQL
