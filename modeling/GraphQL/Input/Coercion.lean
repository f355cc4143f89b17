/-
GraphQL.Input.Coercion — input as values of a declared type.

  §1 Issues      — what can be wrong with input, and where.
  §2 Results     — the outcome of a coercion with its issues.
  §3 Steps       — null, single values and missing fields, for all input alike.
  §4 Values      — lists and objects among runtime values.
  §5 Literals    — lists and objects among literals.
  §6 Coercion    — from runtime values and from literals.

Coercion runs structurally on the input: each part is turned into a function
that awaits its type. A part that is not a list stands for a list of one
where a list is expected; every failing leaf gives one issue under its path.

Runtime values and literals have a coercion each. All parts of a runtime value
are there and share one location. A part of a literal has its own location,
and it may refer to a variable that has no value.
-/
import GraphQL.Document.Basic
import GraphQL.Schema.Basic

namespace GraphQL

/-! ## §1 Issues -/

/-- What an issue is about. -/
inductive IssueKind where
  /-- The input does not fit the type. -/
  | invalid
  /-- A required field is missing. -/
  | missing
  /-- A field that the input object does not declare. -/
  | unknown
  /-- A deprecated field is given. -/
  | deprecated (deprecation : Deprecation)
deriving DecidableEq

/-- An issue with a part of the input. The type is in its displayed form, and
empty for unknown fields. -/
structure Issue where
  kind : IssueKind
  path : Bytes
  typeName : Bytes
  location : Option Location
deriving DecidableEq

/-- Input with this issue has no coerced value. -/
def Issue.failing (issue : Issue) : Bool := issue.kind = .invalid || issue.kind = .missing

/-! ## §2 Results -/

/-- The outcome of a coercion. -/
inductive Outcome where
  | ok (value : Value)
  /-- The input is a reference to a variable without value. -/
  | absent
  | failed

/-- An outcome and the issues met on the way, in order. -/
structure Coerced where
  outcome : Outcome
  issues : List Issue

namespace Coerced

/-- A value without issues. -/
def ok (value : Value) : Coerced := ⟨.ok value, []⟩

/-- A reference to a variable without value is no issue by itself. -/
def absent : Coerced := ⟨.absent, []⟩

/-- Fails with one issue. -/
def fail (issue : Issue) : Coerced := ⟨.failed, [issue]⟩

/-- Changes the value of an outcome that has one. -/
def map (f : Value → Value) (coerced : Coerced) : Coerced :=
  match coerced.outcome with
  | .ok value => { coerced with outcome := .ok (f value) }
  | _ => coerced

end Coerced

/-- Input that awaits its type and the path under which issues are reported. -/
abbrev Coercion (m : Type → Type) := TypeExpr TypeId → Bytes → Engine m Coerced

/-- The path of a part, separated by a point from the path of the whole. -/
def partPath (parent child : Bytes) : Bytes :=
  if parent.isEmpty then child else parent ++ ascii '.' :: child

namespace Coercion

variable {m : Type → Type} [Monad m]

/-- Input that does not fit the type. -/
def invalid (schema : Schema m) (location : Option Location) (type : TypeExpr TypeId)
    (path : Bytes) : Coerced :=
  .fail ⟨.invalid, path, schema.displayText type, location⟩

/-! ## §3 Steps -/

/-- Null fits every type that is not marked non-null. -/
def null (schema : Schema m) (location : Option Location) : Coercion m := fun type path =>
  return if type.isNonNull then invalid schema location type path else .ok .null

/-- Input that is not a list, given its coercion to a named type. Under list
wrappers it stands for a list of one. -/
def single (atName : TypeId → Bytes → Engine m Coerced) : Coercion m
  | .list element, path | .nonNull (.list element), path => do
    let coerced ← single atName element path
    return coerced.map fun value => .list [value]
  | type, path => atName type.leaf path

/-- Input at a named type, by what that type consists of. -/
def atBody (schema : Schema m) (id : TypeId) (fit : TypeBody m → Engine m Coerced) :
    Engine m Coerced :=
  match schema.body? id with
  | some body => fit body
  | none => throw (.unknownType id)

/-- A scalar, which fits scalar types if their coercion function takes it. -/
def scalar (schema : Schema m) (location : Option Location) (value : Value) : Coercion m :=
  single fun id path => atBody schema id fun
    | .scalar coerce => do
      match ← coerce value with
      | some result => return .ok result
      | none => return invalid schema location (.named id) path
    | .inputObject _ => return invalid schema location (.named id) path
    | .object _ => throw (.notInputType id)

/-- A declared field that has no value: its default, or nothing if it may be
left out. -/
def missingField (schema : Schema m) (field : Argument) (path : Bytes)
    (location : Option Location) : Coerced :=
  match field.default with
  | some value => .ok value
  | none =>
    if field.required then
      .fail ⟨.missing, path, schema.displayText field.type, location⟩
    else .absent

/-- The notice that a deprecated field is given. -/
def deprecationIssues (schema : Schema m) (field : Argument) (path : Bytes)
    (location : Option Location) : List Issue :=
  match field.deprecation with
  | none => []
  | some deprecation =>
    [⟨.deprecated deprecation, path, schema.displayText field.type, location⟩]

/-! ## §4 Values -/

/-- The items of a runtime list at their element type. The list fails if one of
its items does. -/
def valueItems (element : TypeExpr TypeId) (path : Bytes) :
    Nat → List (Coercion m) → Engine m (Option (List Value) × List Issue)
  | _, [] => return (some [], [])
  | index, item :: rest => do
    let coerced ← item element (partPath path (decimal index))
    let (values, issues) ← valueItems element path (index + 1) rest
    return (match coerced.outcome, values with
      | .ok value, some values => some (value :: values)
      | _, _ => none, coerced.issues ++ issues)

/-- A runtime list, which fits list types only. -/
def valueList (schema : Schema m) (location : Option Location) (items : List (Coercion m)) :
    Coercion m := fun type path =>
  match type.nullable with
  | .list element => do
    let (values, issues) ← valueItems element path 0 items
    return ⟨match values with
      | some values => .ok (.list values)
      | none => .failed, issues⟩
  | _ => atBody schema type.leaf fun _ =>
    return invalid schema location (.named type.leaf) path

/-- Members of a runtime object, each with its coercion. -/
abbrev Supplied (m : Type → Type) := List (Bytes × Coercion m)

/-- Issues for the members that are not found among the fields of the type, in the order
given. -/
def unknownMembers (field? : Bytes → Option Argument) (location : Option Location)
    (path : Bytes) (members : Supplied m) : List Issue :=
  (members.filter fun member => (field? member.1).isNone).map fun member =>
    ⟨.unknown, partPath path member.1, [], location⟩

/-- One declared field of a runtime object. -/
def valueField (schema : Schema m) (location : Option Location) (members : Supplied m)
    (path : Bytes) (field : Argument) : Engine m Coerced :=
  let fieldPath := partPath path field.name
  match members.lookup field.name with
  | none => return missingField schema field fieldPath location
  | some coercion => do
    let notices := deprecationIssues schema field fieldPath location
    let coerced ← coercion field.type fieldPath
    return { coerced with issues := notices ++ coerced.issues }

/-- The declared fields in their order. A field that is left out has no
member; the object fails if one of its fields does. -/
def valueFields (schema : Schema m) (location : Option Location) (members : Supplied m)
    (path : Bytes) : List Argument → Engine m (Option Members × List Issue)
  | [] => return (some [], [])
  | field :: rest => do
    let coerced ← valueField schema location members path field
    let (values, issues) ← valueFields schema location members path rest
    return (match coerced.outcome, values with
      | .ok value, some values => some ((field.name, value) :: values)
      | .absent, values => values
      | _, _ => none, coerced.issues ++ issues)

/-- A runtime object at an input object type with the declared fields. -/
def valueObjectAt (schema : Schema m) (location : Option Location) (members : Supplied m)
    (id : TypeId) (declared : List Argument) (path : Bytes) : Engine m Coerced := do
  let (values, issues) ← valueFields schema location members path declared
  return ⟨match values with
    | some values => .ok (.object values)
    | none => .failed, unknownMembers (schema.inputField? id) location path members ++ issues⟩

/-- A runtime object, which fits input object types only. -/
def valueObject (schema : Schema m) (location : Option Location) (members : Supplied m) :
    Coercion m :=
  single fun id path => atBody schema id fun
    | .inputObject declared => valueObjectAt schema location members id declared path
    | _ => return invalid schema location (.named id) path

/-! ## §5 Literals -/

/-- The items of a list at their element type. An item without value reads as
null. The list fails if one of its items does. -/
def listItems (schema : Schema m) (element : TypeExpr TypeId) (path : Bytes) :
    Nat → List (Option Location × Coercion m) → Engine m (Option (List Value) × List Issue)
  | _, [] => return (some [], [])
  | index, (location, item) :: rest => do
    let itemPath := partPath path (decimal index)
    let coerced ← item element itemPath
    let coerced ← match coerced.outcome with
      | .absent => null schema location element itemPath
      | _ => pure coerced
    let (values, issues) ← listItems schema element path (index + 1) rest
    return (match coerced.outcome, values with
      | .ok value, some values => some (value :: values)
      | _, _ => none, coerced.issues ++ issues)

/-- A list, which fits list types only. -/
def list (schema : Schema m) (location : Option Location)
    (items : List (Option Location × Coercion m)) : Coercion m := fun type path =>
  match type.nullable with
  | .list element => do
    let (values, issues) ← listItems schema element path 0 items
    return ⟨match values with
      | some values => .ok (.list values)
      | none => .failed, issues⟩
  | _ => atBody schema type.leaf fun _ =>
    return invalid schema location (.named type.leaf) path

/-- Fields of input, each with its place and its coercion. -/
abbrev Fields (m : Type → Type) := List (Bytes × Option Location × Coercion m)

/-- Issues for the fields that are not found among those of the type, in the order given. -/
def unknownFields (field? : Bytes → Option Argument) (path : Bytes) (fields : Fields m) :
    List Issue :=
  (fields.filter fun field => (field? field.1).isNone).map fun field =>
    ⟨.unknown, partPath path field.1, [], field.2.1⟩

/-- One declared field of an object that was given at `location`. -/
def declaredField (schema : Schema m) (location : Option Location) (fields : Fields m)
    (path : Bytes) (field : Argument) : Engine m Coerced :=
  let fieldPath := partPath path field.name
  match fields.lookup field.name with
  | none => return missingField schema field fieldPath location
  | some (fieldLocation, coercion) => do
    let notices := deprecationIssues schema field fieldPath fieldLocation
    let coerced ← coercion field.type fieldPath
    let coerced := match coerced.outcome with
      | .absent => missingField schema field fieldPath fieldLocation
      | _ => coerced
    return { coerced with issues := notices ++ coerced.issues }

/-- The declared fields in their order. A field that is left out has no
member; the object fails if one of its fields does. -/
def declaredFields (schema : Schema m) (location : Option Location) (fields : Fields m)
    (path : Bytes) : List Argument → Engine m (Option Members × List Issue)
  | [] => return (some [], [])
  | field :: rest => do
    let coerced ← declaredField schema location fields path field
    let (members, issues) ← declaredFields schema location fields path rest
    return (match coerced.outcome, members with
      | .ok value, some members => some ((field.name, value) :: members)
      | .absent, members => members
      | _, _ => none, coerced.issues ++ issues)

/-- An object at an input object type with the declared fields. -/
def objectAt (schema : Schema m) (location : Option Location) (fields : Fields m)
    (id : TypeId) (declared : List Argument) (path : Bytes) : Engine m Coerced := do
  let (members, issues) ← declaredFields schema location fields path declared
  return ⟨match members with
    | some members => .ok (.object members)
    | none => .failed, unknownFields (schema.inputField? id) path fields ++ issues⟩

/-- An object, which fits input object types only. -/
def object (schema : Schema m) (location : Option Location) (fields : Fields m) : Coercion m :=
  single fun id path => atBody schema id fun
    | .inputObject declared => objectAt schema location fields id declared path
    | _ => return invalid schema location (.named id) path

end Coercion

/-! ## §6 Coercion -/

namespace Value

variable {m : Type → Type} [Monad m]

mutual

/-- Coerces a runtime value, given at a place in the document, to a type. -/
def coerce (schema : Schema m) (location : Option Location) : Value → Coercion m
  | .null => Coercion.null schema location
  | .list items => Coercion.valueList schema location (coerceItems schema location items)
  | .object members => Coercion.valueObject schema location (coerceMembers schema location members)
  | value => Coercion.scalar schema location value

/-- The coercions of the items of a runtime list. -/
def coerceItems (schema : Schema m) (location : Option Location) :
    List Value → List (Coercion m)
  | [] => []
  | item :: rest => coerce schema location item :: coerceItems schema location rest

/-- The coercions of the members of a runtime object, each with its key. -/
def coerceMembers (schema : Schema m) (location : Option Location) :
    List (Bytes × Value) → Coercion.Supplied m
  | [] => []
  | (key, value) :: rest =>
    (key, coerce schema location value) :: coerceMembers schema location rest

end

end Value

namespace Literal

variable {m : Type → Type} [Monad m]

mutual

/-- Coerces a literal to a type, with the values of variables at hand. -/
def coerce (schema : Schema m) (bindings : Members) : Literal → Coercion m
  | .reference location name =>
    match bindings.lookup name with
    | some value => value.coerce schema (some location)
    | none => fun _ _ => return .absent
  | .null location => Coercion.null schema (some location)
  | .list location items =>
    Coercion.list schema (some location) (coerceItems schema bindings items)
  | .object location fields =>
    Coercion.object schema (some location) (coerceEntries schema bindings fields)
  | literal => Coercion.scalar schema (some literal.location) literal.scalarValue

/-- The coercions of the items of a list literal, each with its place. -/
def coerceItems (schema : Schema m) (bindings : Members) :
    List Literal → List (Option Location × Coercion m)
  | [] => []
  | item :: rest =>
    (some item.location, coerce schema bindings item) :: coerceItems schema bindings rest

/-- The coercions of the fields of an object literal, each with its name and place. -/
def coerceEntries (schema : Schema m) (bindings : Members) :
    List (Entry Literal) → Coercion.Fields m
  | [] => []
  | ⟨name, value, location⟩ :: rest =>
    (name, some location, coerce schema bindings value) :: coerceEntries schema bindings rest

end

end Literal

end GraphQL
