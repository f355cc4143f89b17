/-
GraphQL.Schema.Basic — schemas as they are served.

  §1 Capabilities  — resolvers and the coercion functions of scalars.
  §2 Types         — fields, arguments and named types.
  §3 Schemas       — the registry of types.
  §4 Lookups       — types, fields and written types in a schema.

Named types refer to each other by position, so they may be recursive. Types and
their fields are found by tables of names, which a schema and its types keep
beside their lists and which always are the tables of these lists. Resolvers and
coercion functions run in a monad `m` of the host's choice.
-/
import GraphQL.Report.Message
import GraphQL.Schema.NameIndex
import GraphQL.Value.View

namespace GraphQL

/-! ## §1 Capabilities -/

/-- The position of a named type in its schema. -/
abbrev TypeId := Nat

/-- What aborts a whole request. -/
inductive Fault where
  /-- A scalar's coercion function raised a message. -/
  | coercerRaised (message : Bytes)
  /-- A scalar value was to be coerced to a type without coercion function. -/
  | notInputType (type : TypeId)
  /-- A type was looked up at a position that the schema does not have. -/
  | unknownType (type : TypeId)
deriving DecidableEq

/-- Computations that may be aborted by a fault. -/
abbrev Engine (m : Type → Type) := ExceptT Fault m

/-- The coercion function of a scalar; no value means that the input is invalid. -/
abbrev Coercer (m : Type → Type) := Value → Engine m (Option Value)

/-- What became of a resolver call. -/
inductive Resolution where
  | ok (value : Value)
  | error (message : Bytes)
  /-- The resolver answered neither a value nor an error. -/
  | untagged
  /-- The resolver raised a message. -/
  | raised (message : Bytes)
  /-- The resolver raised something without a message. -/
  | raisedOther

/-- A resolver, given the coerced arguments, the context of the request and the
parent value. -/
abbrev Resolver (m : Type → Type) := (arguments context parent : Value) → m Resolution

/-- The resolver that reads a member of the parent, null when it is missing. -/
def memberResolver {m : Type → Type} [Monad m] (name : Bytes) : Resolver m :=
  fun _ _ parent => pure (.ok (parent.member name))

/-! ## §2 Types -/

/-- An argument of a field, or a field of an input object. -/
structure Argument where
  name : Bytes
  type : TypeExpr TypeId
  default : Option Value
  deprecation : Option Deprecation
  description : Bytes

/-- An argument that must be given: it takes no null and has no default. -/
def Argument.required (argument : Argument) : Bool :=
  argument.type.isNonNull && argument.default.isNone

/-- A field of an object type. -/
structure FieldType (m : Type → Type) where
  name : Bytes
  type : TypeExpr TypeId
  arguments : List Argument
  resolver : Resolver m
  deprecation : Option Deprecation
  description : Bytes

/-- The declared argument of a name. -/
def FieldType.argument? {m : Type → Type} (field : FieldType m) (name : Bytes) :
    Option Argument :=
  field.arguments.find? (·.name == name)

/-- Fields with other arguments, given field by field. -/
def FieldType.withArguments {m : Type → Type} :
    List (FieldType m) → List (List Argument) → List (FieldType m)
  | field :: fields, arguments :: others => { field with arguments } :: withArguments fields others
  | fields, _ => fields

theorem FieldType.names_withArguments {m : Type → Type} (fields : List (FieldType m))
    (arguments : List (List Argument)) :
    (withArguments fields arguments).map (·.name) = fields.map (·.name) := by
  induction fields generalizing arguments with
  | nil => rfl
  | cons field fields ih =>
    cases arguments with
    | nil => rfl
    | cons first others => rw [withArguments, List.map_cons, List.map_cons, ih]

/-- The sorts of named types. -/
inductive TypeSort where
  | scalar
  | object
  | inputObject
deriving DecidableEq

/-- What a named type consists of. -/
inductive TypeBody (m : Type → Type) where
  | scalar (coerce : Coercer m)
  | object (fields : List (FieldType m))
  | inputObject (fields : List Argument)

namespace TypeBody

variable {m : Type → Type}

/-- The sort of a type that consists of this. -/
def sort : TypeBody m → TypeSort
  | .scalar _ => .scalar
  | .object _ => .object
  | .inputObject _ => .inputObject

/-- The names of the fields, in their order. -/
def fieldNames : TypeBody m → List Bytes
  | .scalar _ => []
  | .object fields => fields.map (·.name)
  | .inputObject fields => fields.map (·.name)

end TypeBody

/-- What a change at one position leaves alone is the same at all positions. -/
theorem map_modify_eq {α β : Type} {f : α → β} {change : α → α}
    (h : ∀ a, f (change a) = f a) (as : List α) (position : Nat) :
    (as.modify position change).map f = as.map f := by
  refine List.ext_getElem? fun other => ?_
  rw [List.getElem?_map, List.getElem?_map, List.getElem?_modify]
  cases as[other]? with
  | none => simp
  | some a => by_cases hother : position = other <;> simp [hother, h]

/-- A named type, with the table of the names of its fields. -/
structure NamedType (m : Type → Type) where
  name : Bytes
  description : Bytes
  body : TypeBody m
  index : NameIndex
  indexed : index = .ofNames body.fieldNames

namespace NamedType

variable {m : Type → Type}

/-- The type with the table of its body. -/
def of (name description : Bytes) (body : TypeBody m) : NamedType m :=
  ⟨name, description, body, .ofNames body.fieldNames, rfl⟩

/-- The object type with another field, which goes into the table as well. -/
def addField : NamedType m → FieldType m → NamedType m
  | ⟨name, description, .object fields, index, indexed⟩, field =>
    ⟨name, description, .object (fields ++ [field]), index.emplace field.name fields.length, by
      rw [indexed, TypeBody.fieldNames, TypeBody.fieldNames, List.map_append, List.map_singleton,
        NameIndex.ofNames_concat, List.length_map]⟩
  | type, _ => type

/-- The input object type with another field, which goes into the table as well. -/
def addInputField : NamedType m → Argument → NamedType m
  | ⟨name, description, .inputObject fields, index, indexed⟩, field =>
    ⟨name, description, .inputObject (fields ++ [field]),
      index.emplace field.name fields.length, by
      rw [indexed, TypeBody.fieldNames, TypeBody.fieldNames, List.map_append, List.map_singleton,
        NameIndex.ofNames_concat, List.length_map]⟩
  | type, _ => type

/-- The input object type with another default for the field at a position. -/
def withDefault : NamedType m → Nat → Option Value → NamedType m
  | ⟨name, description, .inputObject fields, index, indexed⟩, position, default =>
    ⟨name, description, .inputObject (fields.modify position ({ · with default })), index, by
      rw [indexed, TypeBody.fieldNames, TypeBody.fieldNames, map_modify_eq]
      exact fun _ => rfl⟩
  | type, _, _ => type

/-- The object type with other arguments for its fields. -/
def withArguments : NamedType m → List (List Argument) → NamedType m
  | ⟨name, description, .object fields, index, indexed⟩, arguments =>
    ⟨name, description, .object (FieldType.withArguments fields arguments), index, by
      rw [indexed, TypeBody.fieldNames, TypeBody.fieldNames, FieldType.names_withArguments]⟩
  | type, _ => type

/-- The field of a name, on an object type. -/
def field? (type : NamedType m) (name : Bytes) : Option (FieldType m) :=
  match type.body with
  | .object fields => (type.index.find? name).bind (fields[·]?)
  | _ => none

/-- The input field of a name, on an input object type. -/
def inputField? (type : NamedType m) (name : Bytes) : Option Argument :=
  match type.body with
  | .inputObject fields => (type.index.find? name).bind (fields[·]?)
  | _ => none

/-- Values of the type are built from fields. -/
def isObject (type : NamedType m) : Bool :=
  match type.body with
  | .object _ => true
  | _ => false

/-- Input of the type is built from fields. -/
def isInputObject (type : NamedType m) : Bool :=
  match type.body with
  | .inputObject _ => true
  | _ => false

theorem name_addField (type : NamedType m) (field : FieldType m) :
    (type.addField field).name = type.name := by
  obtain ⟨name, description, body, index, indexed⟩ := type
  cases body <;> rfl

theorem name_withDefault (type : NamedType m) (position : Nat) (default : Option Value) :
    (type.withDefault position default).name = type.name := by
  obtain ⟨name, description, body, index, indexed⟩ := type
  cases body <;> rfl

theorem name_withArguments (type : NamedType m) (arguments : List (List Argument)) :
    (type.withArguments arguments).name = type.name := by
  obtain ⟨name, description, body, index, indexed⟩ := type
  cases body <;> rfl

theorem name_addInputField (type : NamedType m) (field : Argument) :
    (type.addInputField field).name = type.name := by
  obtain ⟨name, description, body, index, indexed⟩ := type
  cases body <;> rfl

end NamedType

/-! ## §3 Schemas -/

/-- The named types, with the table of their names, and those at which queries and
mutations start. -/
structure Schema (m : Type → Type) where
  types : List (NamedType m)
  query : TypeId
  mutation : Option TypeId
  byName : NameIndex := .ofNames (types.map (·.name))
  named : byName = .ofNames (types.map (·.name)) := by rfl

namespace Schema

variable {m : Type → Type}

/-- A schema without types, and with no type yet to start at. -/
def empty : Schema m where
  types := []
  query := 0
  mutation := none

/-- The schema with another type, whose name goes into the table as well. -/
def add (schema : Schema m) (type : NamedType m) : Schema m :=
  { schema with
    types := schema.types ++ [type]
    byName := schema.byName.emplace type.name schema.types.length
    named := by
      rw [schema.named, List.map_append, List.map_singleton, NameIndex.ofNames_concat,
        List.length_map] }

/-- The schema with a change of the type at a position, whose name stays. -/
def alter (schema : Schema m) (id : TypeId) (change : NamedType m → NamedType m)
    (h : ∀ type, (change type).name = type.name) : Schema m :=
  { schema with
    types := schema.types.modify id change
    named := by rw [schema.named, map_modify_eq h] }

/-- The schema with another field of the object type at a position. -/
def addField (schema : Schema m) (id : TypeId) (field : FieldType m) : Schema m :=
  schema.alter id (·.addField field) fun type => type.name_addField field

/-- The schema with another field of the input object type at a position. -/
def addInputField (schema : Schema m) (id : TypeId) (field : Argument) : Schema m :=
  schema.alter id (·.addInputField field) fun type => type.name_addInputField field

/-- The schema with another default for an input field of the type at a position. -/
def withDefault (schema : Schema m) (id : TypeId) (position : Nat) (default : Option Value) :
    Schema m :=
  schema.alter id (·.withDefault position default) fun type =>
    type.name_withDefault position default

/-- The schema with other arguments for the fields of the type at a position. -/
def withArguments (schema : Schema m) (id : TypeId) (arguments : List (List Argument)) :
    Schema m :=
  schema.alter id (·.withArguments arguments) fun type => type.name_withArguments arguments

/-! ## §4 Lookups -/

/-- The position of the type of a name. -/
def typeId? (schema : Schema m) (name : Bytes) : Option TypeId := schema.byName.find? name

/-- The type at a position. -/
def type? (schema : Schema m) (id : TypeId) : Option (NamedType m) := schema.types[id]?

/-- What the type at a position consists of. -/
def body? (schema : Schema m) (id : TypeId) : Option (TypeBody m) :=
  (schema.type? id).map (·.body)

/-- The name of the type at a position. -/
def typeName (schema : Schema m) (id : TypeId) : Bytes :=
  match schema.type? id with
  | some type => type.name
  | none => []

/-- The field of a name on the type at a position. -/
def field? (schema : Schema m) (parent : TypeId) (name : Bytes) : Option (FieldType m) :=
  (schema.type? parent).bind (·.field? name)

/-- The input field of a name on the type at a position. -/
def inputField? (schema : Schema m) (id : TypeId) (name : Bytes) : Option Argument :=
  (schema.type? id).bind (·.inputField? name)

/-- The type at a position has a field of the name. -/
def hasPart (schema : Schema m) (id : TypeId) (name : Bytes) : Bool :=
  (schema.type? id).any (·.index.contains name)

/-- The type at a position is an object type. -/
def isObjectType (schema : Schema m) (id : TypeId) : Bool :=
  (schema.type? id).any (·.isObject)

/-- The type at a position is an input object type. -/
def isInputObjectType (schema : Schema m) (id : TypeId) : Bool :=
  (schema.type? id).any (·.isInputObject)

/-- A written type understood in the schema. -/
def understand? (schema : Schema m) (type : TypeExpr Bytes) : Option (TypeExpr TypeId) :=
  (schema.typeId? type.leaf).map fun id => type.map fun _ => id

/-- The written form of a type. -/
def typeText (schema : Schema m) (type : TypeExpr TypeId) : Bytes :=
  (type.map schema.typeName).text

/-- The form of a type used in messages about values. -/
def displayText (schema : Schema m) (type : TypeExpr TypeId) : Bytes :=
  (type.map schema.typeName).displayText

end Schema

end GraphQL
