/-
GraphQL.Schema.Definition — the definitions that a schema is built from.

  §1 Parts        — arguments, fields and types as they are defined.
  §2 Definitions  — all definitions together.
  §3 Steps        — adding to the definitions, one step after another.

Types are written as texts here; they are understood when the schema is
built. Naming an object type again adds to it.
-/
import GraphQL.Schema.Basic

namespace GraphQL

/-! ## §1 Parts -/

/-- An argument of a field, or a field of an input object, as defined. -/
structure ArgumentDefinition where
  name : Bytes
  type : Bytes
  default : Option Value
  deprecation : Option Deprecation
  description : Bytes

/-- A field as defined; without a resolver it reads the parent's member of its
name. -/
structure FieldDefinition (m : Type → Type) where
  name : Bytes
  type : Bytes
  arguments : List ArgumentDefinition
  resolver : Option (Resolver m)
  deprecation : Option Deprecation
  description : Bytes

/-- A named list of fields with a description. -/
structure TypeDefinition (φ : Type) where
  name : Bytes
  description : Bytes
  fields : List φ

/-- An object type as defined. -/
abbrev ObjectDefinition (m : Type → Type) := TypeDefinition (FieldDefinition m)

/-- An input object type as defined. -/
abbrev InputDefinition := TypeDefinition ArgumentDefinition

/-- A scalar as defined. -/
structure ScalarDefinition (m : Type → Type) where
  name : Bytes
  coercer : Option (Coercer m)

/-! ## §2 Definitions -/

/-- Definitions of types, and the names of the types at which queries and
mutations start. -/
structure Definitions (m : Type → Type) where
  scalars : List (ScalarDefinition m)
  objects : List (ObjectDefinition m)
  inputs : List InputDefinition
  queryType : Option Bytes
  mutationType : Option Bytes

/-- The name of the query type where no other is chosen. -/
def fallbackQueryType : Bytes := utf8 "RootQueryType"

/-- The name of the mutation type where mutations are defined and no other name
is chosen. -/
def fallbackMutationType : Bytes := utf8 "RootMutationType"

/-! ## §3 Steps -/

namespace TypeDefinition

variable {φ : Type}

/-- Adds fields, and replaces the description if one is given. -/
def extend (definition : TypeDefinition φ) (description : Option Bytes) (fields : List φ) :
    TypeDefinition φ :=
  { definition with
    description := description.getD definition.description
    fields := definition.fields ++ fields }

/-- Adds to the type of a name, which is a new one at the end if there is none. -/
def extendIn (name : Bytes) (description : Option Bytes) (fields : List φ) :
    List (TypeDefinition φ) → List (TypeDefinition φ)
  | [] => [(TypeDefinition.mk name [] []).extend description fields]
  | definition :: rest =>
    if definition.name == name then definition.extend description fields :: rest
    else definition :: extendIn name description fields rest

end TypeDefinition

/-- A step of defining a schema. -/
inductive DefinitionStep (m : Type → Type) where
  | object (name : Bytes) (description : Option Bytes) (fields : List (FieldDefinition m))
  /-- Adds to the object type at which queries start. -/
  | query (description : Option Bytes) (fields : List (FieldDefinition m))
  /-- Adds to the object type at which mutations start. -/
  | mutation (description : Option Bytes) (fields : List (FieldDefinition m))
  | queryType (name : Bytes)
  | mutationType (name : Bytes)
  | input (name : Bytes) (description : Option Bytes) (fields : List ArgumentDefinition)
  | scalar (definition : ScalarDefinition m)

namespace Definitions

variable {m : Type → Type}

/-- No definitions. -/
def empty : Definitions m := ⟨[], [], [], none, none⟩

/-- Adds to an object type. -/
def object (definitions : Definitions m) (name : Bytes) (description : Option Bytes)
    (fields : List (FieldDefinition m)) : Definitions m :=
  { definitions with
    objects := TypeDefinition.extendIn name description fields definitions.objects }

/-- Adds to the query type, whose name is settled by the first use. -/
def query (definitions : Definitions m) (description : Option Bytes)
    (fields : List (FieldDefinition m)) : Definitions m :=
  let name := definitions.queryType.getD fallbackQueryType
  { definitions with queryType := some name }.object name description fields

/-- Adds to the mutation type, whose name is settled by the first use. -/
def mutation (definitions : Definitions m) (description : Option Bytes)
    (fields : List (FieldDefinition m)) : Definitions m :=
  let name := definitions.mutationType.getD fallbackMutationType
  { definitions with mutationType := some name }.object name description fields

/-- Adds to an input object type. -/
def input (definitions : Definitions m) (name : Bytes) (description : Option Bytes)
    (fields : List ArgumentDefinition) : Definitions m :=
  { definitions with inputs := TypeDefinition.extendIn name description fields definitions.inputs }

/-- Takes one step. -/
def add (definitions : Definitions m) : DefinitionStep m → Definitions m
  | .object name description fields => definitions.object name description fields
  | .query description fields => definitions.query description fields
  | .mutation description fields => definitions.mutation description fields
  | .queryType name => { definitions with queryType := some name }
  | .mutationType name => { definitions with mutationType := some name }
  | .input name description fields => definitions.input name description fields
  | .scalar definition => { definitions with scalars := definitions.scalars ++ [definition] }

/-- The definitions that a sequence of steps leads to. -/
def ofSteps (steps : List (DefinitionStep m)) : Definitions m := steps.foldl add empty

end Definitions

end GraphQL
