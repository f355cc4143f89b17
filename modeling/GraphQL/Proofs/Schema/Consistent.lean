/-
GraphQL.Proofs.Schema.Consistent — the definitions that a schema is built of.

  §1 Consistency   — what is asked of definitions.
  §2 Lookups       — what a schema finds is what a search of declarations finds.
  §3 Storage       — coerced defaults make no difference to lookups.
  §4 Roots         — operations start at declared objects.
  §5 Builds        — consistent definitions are built, others are refused.

Three passes over the definitions report problems of their own, and a schema is
built if none does. Whether one does depends on the declarations alone, also
for defaults, which are completed by each other.
-/
import GraphQL.Proofs.Schema.Declared
import GraphQL.Proofs.Schema.Merging
import GraphQL.Proofs.Schema.Stored

namespace GraphQL

variable {m : Type → Type}

/-! ## §1 Consistency -/

namespace Definitions

variable [Monad m]

/-- The coercion functions of scalars have no effects, and raise nothing. -/
def CoercersPure (definitions : Definitions m) : Prop :=
  ∀ scalar ∈ definitions.scalars, ∀ coerce, scalar.coercer = some coerce →
    ∀ value, ∃ result, coerce value = pure result

/-- Queries start at a declared object, and so do mutations if a name is set for them. -/
structure RootsDeclared (definitions : Definitions m) : Prop where
  query : definitions.queryName ∈ definitions.objects.map (·.name)
  mutation : ∀ name ∈ definitions.mutationType, name ∈ definitions.objects.map (·.name)

/-- All that is asked of definitions. -/
structure Consistent (definitions : Definitions m) : Prop where
  declared : definitions.WellDeclared
  defaults : definitions.written.DefaultsTaken
  roots : definitions.RootsDeclared

variable {definitions : Definitions m}

/-- The scalars of the schema that is spelled have no effects. -/
theorem CoercersPure.scalarsPure (h : definitions.CoercersPure)
    (hdeclared : definitions.WellDeclared) : definitions.written.ScalarsPure :=
  fun _ _ => hdeclared.scalars (fun _ _ _ => ⟨_, rfl⟩) h

end Definitions

/-! ## §2 Lookups -/

/-- The argument of a name among those of a field. -/
def FieldDefinition.argument? (field : FieldDefinition m) (name : Bytes) :
    Option ArgumentDefinition :=
  field.arguments.find? (·.name == name)

namespace Declaration

/-- The field of a name, of an object. -/
def field? : Declaration m → Bytes → Option (FieldDefinition m)
  | .object definition, name => definition.fields.find? (·.name == name)
  | _, _ => none

/-- The field of a name, of an input object. -/
def inputField? : Declaration m → Bytes → Option ArgumentDefinition
  | .input definition, name => definition.fields.find? (·.name == name)
  | _, _ => none

end Declaration

variable [Monad m]

/-- The argument is the one that is declared, with its default coerced. It is required if
its type takes no null and it is declared without default. -/
structure ArgumentDefinition.Declares (definitions : Definitions m)
    (definition : ArgumentDefinition) (argument : Argument) : Prop where
  stored : (definition.made definitions).StoredAs definitions.written argument
  required : argument.required =
    ((definitions.typeOf definition.type).isNonNull && definition.default.isNone)

/-- The field is the one that is declared, and so is the argument found for each name. -/
structure FieldDefinition.Declares (definitions : Definitions m)
    (definition : FieldDefinition m) (field : FieldType m) : Prop where
  stored : (definition.made definitions).StoredAs definitions.written field
  argument? : ∀ name, Option.Rel (ArgumentDefinition.Declares definitions)
    (definition.argument? name) (field.argument? name)

/-- The type is the one that is declared, and so is what is found in it for each name. -/
structure Declaration.Declares (definitions : Definitions m) (declaration : Declaration m)
    (type : NamedType m) : Prop where
  stored : (declaration.made definitions).StoredAs definitions.written type
  field? : ∀ name, Option.Rel (FieldDefinition.Declares definitions)
    (declaration.field? name) (type.field? name)
  inputField? : ∀ name, Option.Rel (ArgumentDefinition.Declares definitions)
    (declaration.inputField? name) (type.inputField? name)

/-- The schema has the types that are declared. Its lookups find what a search from the
first declaration on finds, or nothing if that finds nothing. -/
structure Definitions.Declares (definitions : Definitions m) (schema : Schema m) : Prop where
  typeId? : ∀ name, schema.typeId? name = definitions.typeId? name
  type? : ∀ id, Option.Rel (Declaration.Declares definitions)
    definitions.declarations[id]? (schema.type? id)
  field? : ∀ id name, Option.Rel (FieldDefinition.Declares definitions)
    (definitions.declarations[id]?.bind (·.field? name)) (schema.field? id name)
  understand? : ∀ written : TypeExpr Bytes, schema.understand? written =
    (definitions.typeId? written.leaf).map fun id => written.map fun _ => id
  query : definitions.typeId? definitions.queryName = some schema.query
  mutation : schema.mutation = definitions.mutationType.bind definitions.typeId?

/-! ## §3 Storage -/

section Storage

variable {definitions : Definitions m}

theorem ArgumentDefinition.declares_of_stored {definition : ArgumentDefinition}
    {argument : Argument}
    (h : (definition.made definitions).StoredAs definitions.written argument) :
    definition.Declares definitions argument := by
  refine ⟨h, ?_⟩
  have hsome := Argument.isSome_default_of_outline h.outline
  rw [Argument.required, Argument.type_eq_of_outline h.outline, ← Option.not_isSome, hsome,
    Option.not_isSome]
  rfl

/-- Declared arguments are searched as they are declared. -/
theorem ArgumentDefinition.find?_rel {declared : List ArgumentDefinition}
    {stored : List Argument}
    (h : List.Forall₂ (Argument.StoredAs definitions.written)
      (declared.map (·.made definitions)) stored) (name : Bytes) :
    Option.Rel (ArgumentDefinition.Declares definitions) (declared.find? (·.name == name))
      (stored.find? (·.name == name)) := by
  refine GraphQL.find?_rel (fun definition argument hargument => ?_)
    ((List.forall₂_map_left_iff.1 h).imp fun _ _ => declares_of_stored)
  rw [Argument.name_eq_of_outline hargument.stored.outline]
  rfl

theorem FieldDefinition.declares_of_stored {definition : FieldDefinition m}
    {field : FieldType m}
    (h : (definition.made definitions).StoredAs definitions.written field) :
    definition.Declares definitions field :=
  ⟨h, ArgumentDefinition.find?_rel h.arguments⟩

/-- Declared fields are searched as they are declared. -/
theorem FieldDefinition.find?_rel {declared : List (FieldDefinition m)}
    {stored : List (FieldType m)}
    (h : List.Forall₂ (FieldType.StoredAs definitions.written)
      (declared.map (·.made definitions)) stored) (name : Bytes) :
    Option.Rel (FieldDefinition.Declares definitions) (declared.find? (·.name == name))
      (stored.find? (·.name == name)) := by
  refine GraphQL.find?_rel (fun definition field hfield => ?_)
    ((List.forall₂_map_left_iff.1 h).imp fun _ _ => declares_of_stored)
  rw [hfield.stored.same]
  rfl

theorem Declaration.declares_of_stored {declaration : Declaration m} {type : NamedType m}
    (h : (declaration.made definitions).StoredAs definitions.written type) :
    declaration.Declares definitions type := by
  have hbody := h.body
  refine ⟨h, fun name => ?_, fun name => ?_⟩
  · rw [NamedType.field?_eq]
    generalize type.body = body at hbody
    cases declaration with
    | scalar definition =>
      cases hbody
      exact .none
    | object definition =>
      cases hbody with
      | object hfields => exact FieldDefinition.find?_rel hfields name
    | input definition =>
      cases hbody
      exact .none
  · rw [NamedType.inputField?_eq]
    generalize type.body = body at hbody
    cases declaration with
    | scalar definition =>
      cases hbody
      exact .none
    | object definition =>
      cases hbody
      exact .none
    | input definition =>
      cases hbody with
      | inputObject hfields => exact ArgumentDefinition.find?_rel hfields name

theorem TypeBody.StoredAs.sort_eq {schema : Schema m} {written stored : TypeBody m}
    (h : written.StoredAs schema stored) : stored.sort = written.sort := by
  cases h <;> rfl

namespace Schema.StoredAs

variable {schema : Schema m} (h : definitions.written.StoredAs schema)

include h

theorem declares (id : TypeId) : Option.Rel (Declaration.Declares definitions)
    definitions.declarations[id]? (schema.type? id) := by
  have hid := h id
  rw [Definitions.type?_written] at hid
  generalize definitions.declarations[id]? = declared, schema.type? id = found at hid
  cases declared with
  | none =>
    cases hid
    exact .none
  | some declaration =>
    cases hid with
    | some htype => exact .some (Declaration.declares_of_stored htype)

theorem names_eq : schema.types.map (·.name) = definitions.declarations.map Declaration.name := by
  refine List.ext_getElem? fun id => ?_
  have hid : Option.Rel _ definitions.declarations[id]? schema.types[id]? := h.declares id
  rw [List.getElem?_map, List.getElem?_map]
  generalize definitions.declarations[id]? = declared, schema.types[id]? = found at hid
  cases hid with
  | none => rfl
  | some htype => rw [Option.map_some, Option.map_some, htype.stored.name, Declaration.name_made]

theorem typeId?_eq (name : Bytes) : schema.typeId? name = definitions.typeId? name := by
  have hnames := congrArg (List.findIdx? (· == name)) h.names_eq
  rw [List.findIdx?_map, List.findIdx?_map] at hnames
  rw [Schema.typeId?_eq]
  exact hnames

theorem field?_rel (id : TypeId) (name : Bytes) :
    Option.Rel (FieldDefinition.Declares definitions)
      (definitions.declarations[id]?.bind (·.field? name)) (schema.field? id name) := by
  have hid := h.declares id
  unfold Schema.field?
  generalize definitions.declarations[id]? = declared, schema.type? id = found at hid
  cases hid with
  | none => exact .none
  | some htype => exact htype.field? name

end Schema.StoredAs

end Storage

/-! ## §4 Roots -/

section Roots

variable {definitions : Definitions m} {schema : Schema m}
  (hdistinct : (definitions.declarations.map Declaration.name).Nodup)
  (h : definitions.written.StoredAs schema)

theorem Definitions.exists_typeId?_of_object {name : Bytes}
    (hname : name ∈ definitions.objects.map (·.name)) :
    ∃ id, definitions.typeId? name = some id := by
  obtain ⟨object, hobject, rfl⟩ := List.mem_map.1 hname
  have hmem := mem_declarations.2 (.inr (.inl ⟨object, hobject, rfl⟩))
  exact exists_typeId? (List.mem_map.2 ⟨_, hmem, rfl⟩)

include hdistinct h

/-- The type of a declared name is an object type if an object of the name is declared. -/
theorem Schema.StoredAs.isObjectType_iff {name : Bytes} {id : TypeId}
    (hid : definitions.typeId? name = some id) :
    schema.isObjectType id = true ↔ name ∈ definitions.objects.map (·.name) := by
  obtain ⟨declaration, hfound, rfl⟩ := Definitions.declaration_of_typeId? hid
  have htype := h.declares id
  rw [hfound] at htype
  have hmem := List.mem_of_getElem? hfound
  rw [← Build.sort_eq_object_iff hdistinct hmem, Schema.isObjectType_eq,
    Schema.body?]
  generalize schema.type? id = found at htype
  cases htype with
  | some hdeclares => simp [hdeclares.stored.body.sort_eq]

/-- The type at which operations start is looked for among objects. -/
theorem Schema.StoredAs.objectId?_eq (name : Bytes) : Build.objectId? schema name =
    if name ∈ definitions.objects.map (·.name) then definitions.typeId? name else none := by
  unfold Build.objectId?
  rw [h.typeId?_eq]
  cases hid : definitions.typeId? name with
  | none => simp
  | some id =>
    have hiff := h.isObjectType_iff hdistinct hid
    by_cases hname : name ∈ definitions.objects.map (·.name)
    · rw [if_pos hname, Option.filter_some, if_pos (hiff.2 hname)]
    · rw [if_neg hname, Option.filter_some, if_neg (mt hiff.1 hname)]

/-- A type at which operations start is checked by its name, and then used. -/
theorem Build.checks_root {α : Type} {name : Bytes} {problem : SchemaProblem}
    {next : TypeId → Except SchemaProblem α} {rule : Prop} {a : α}
    (hnext : ∀ id, definitions.typeId? name = some id → Checks (next id) rule a) :
    Checks (match objectId? schema name with
      | none => .error problem
      | some id => next id) (name ∈ definitions.objects.map (·.name) ∧ rule) a := by
  rw [h.objectId?_eq hdistinct]
  by_cases hname : name ∈ definitions.objects.map (·.name)
  · obtain ⟨id, hid⟩ := Definitions.exists_typeId?_of_object hname
    rw [if_pos hname, hid]
    exact (hnext id hid).iff (by simp only [hname, true_and])
  · rw [if_neg hname]
    exact ⟨fun hboth => absurd hboth.1 hname, fun _ => ⟨problem, rfl⟩⟩

/-- Operations start at the objects of the names that are chosen, which must be declared. -/
theorem Build.checks_withRoots : Checks (withRoots definitions schema) definitions.RootsDeclared
    { schema with
      query := (definitions.typeId? definitions.queryName).getD 0
      mutation := definitions.mutationType.bind definitions.typeId? } := by
  unfold withRoots
  refine Checks.iff (checks_root hdistinct h fun query hid => ?_)
    ⟨fun h => ⟨h.1, h.2⟩, fun h => ⟨h.query, h.mutation⟩⟩
  have hquery : definitions.typeId? definitions.queryName = some query := hid
  rw [hquery]
  cases hmutation : definitions.mutationType with
  | none => exact .ok nofun
  | some name =>
    refine (checks_root hdistinct h fun mutation hid => ?_ : Checks _ (_ ∧ True) _).iff (by simp)
    rw [Option.bind_some, hid]
    exact .ok trivial

end Roots

/-! ## §5 Builds -/

namespace Build

/-- A check is a step that decides its rule. -/
theorem Checks.decides {α : Type} {check : Except SchemaProblem α} {rule : Prop} {a : α}
    (h : Checks check rule a) :
    Decides (checked check : Building m α) rule fun given => rule ∧ given = a := by
  by_cases hrule : rule
  · rw [h.accepts hrule]
    exact .pure hrule ⟨hrule, rfl⟩
  · obtain ⟨problem, heq⟩ := h.refuses hrule
    rw [heq]
    exact .inr ⟨hrule, problem, rfl⟩

variable {definitions : Definitions m}

/-- With its roots the schema is the one that is declared. -/
theorem decides_withRoots (h : definitions.WellDeclared) {schema : Schema m}
    (hstored : definitions.written.StoredAs schema) :
    Decides (checked (withRoots definitions schema) : Building m (Schema m))
      definitions.RootsDeclared definitions.Declares := by
  refine (checks_withRoots h.distinct hstored).decides.imp ?_
  rintro _ ⟨hroots, rfl⟩
  obtain ⟨query, hquery⟩ := Definitions.exists_typeId?_of_object hroots.query
  exact {
    typeId? := hstored.typeId?_eq
    type? := hstored.declares
    field? := hstored.field?_rel
    understand? := fun written => congrArg _ (hstored.typeId?_eq written.leaf)
    query := by rw [hquery, Option.getD_some]
    mutation := rfl }

variable [LawfulMonad m]

/-- The three passes make a schema of the definitions if these are consistent. -/
theorem decides_schema (hpure : definitions.CoercersPure) :
    Decides (do
      let written ← checked (arena definitions)
      let schema ← settleDefaults written
      checked (withRoots definitions schema)) definitions.Consistent definitions.Declares := by
  have hlater : ∀ written, definitions.WellDeclared ∧ written = definitions.written →
      Decides (settleDefaults written >>= fun schema =>
        checked (withRoots definitions schema))
        (definitions.written.DefaultsTaken ∧ definitions.RootsDeclared) definitions.Declares := by
    rintro _ ⟨h, rfl⟩
    exact (decides_settleDefaults h.closed (hpure.scalarsPure h)).bind fun _ => decides_withRoots h
  exact ((checks_arena definitions).decides.bind hlater).iff
    ⟨fun h => ⟨h.1, h.2.1, h.2.2⟩, fun h => ⟨h.declared, h.defaults, h.roots⟩⟩

end Build

namespace Definitions

variable [LawfulMonad m] [MonadLog m]

/-- Any sequence of steps leads to definitions that are the steps merged in order. If
the coercion functions of scalars have no effects and raise nothing, a schema is built
exactly if these are consistent, and it is the one that they declare. Otherwise a problem
is reported. -/
theorem build_ofSteps {steps : List (DefinitionStep m)} (hpure : (ofSteps steps).CoercersPure) :
    (ofSteps steps).Merges steps ∧
      ((ofSteps steps).Consistent ∧ (∃ schema, (ofSteps steps).Declares schema ∧
        (ofSteps steps).build = do
          MonadLog.log .debug
            [utf8 "schema built with", decimal schema.types.length, utf8 "types"]
          return schema) ∨
      ¬ (ofSteps steps).Consistent ∧
        ∃ problem, (ofSteps steps).build = throw (.inconsistent problem)) := by
  refine ⟨merges_ofSteps steps, ?_⟩
  have hdecides := Build.decides_schema hpure
  have hbuild : (ofSteps steps).build = (do
      let written ← Build.checked (Build.arena (ofSteps steps))
      let schema ← Build.settleDefaults written
      Build.checked (Build.withRoots (ofSteps steps) schema)) >>= fun schema => do
        MonadLog.log .debug [utf8 "schema built with", decimal schema.types.length, utf8 "types"]
        return schema := by
    simp only [build, bind_assoc]
  rcases hdecides with ⟨hconsistent, schema, heq, hdeclares⟩ | ⟨hnot, problem, heq⟩
  · refine .inl ⟨hconsistent, schema, hdeclares, ?_⟩
    rw [hbuild, heq, pure_bind]
  · refine .inr ⟨hnot, problem, ?_⟩
    rw [hbuild, heq]
    simp

/-- Steps that add to an object and to an input object twice. The default of an argument
is completed by that of an input field. -/
def guestBook : List (DefinitionStep Id) :=
  [.scalar ⟨utf8 "Name", some fun value => return some value⟩,
    .query none [⟨utf8 "greet", utf8 "String!",
      [⟨utf8 "guests", utf8 "Guests!", some (.object []), none, []⟩], none, none, []⟩],
    .input (utf8 "Guests") none
      [⟨utf8 "names", utf8 "[Name!]!", some (.list [.string (utf8 "Ann")]), none, []⟩],
    .object fallbackQueryType (some (utf8 "Greetings."))
      [⟨utf8 "again", fallbackQueryType, [], none, none, []⟩],
    .input (utf8 "Guests") none [⟨utf8 "others", utf8 "Guests", none, none, []⟩]]

/-- The steps are consistent, and their schema is built. -/
theorem build_ofSteps_guestBook :
    (ofSteps guestBook).CoercersPure ∧ (ofSteps guestBook).Consistent ∧
      ∃ schema, (ofSteps guestBook).Declares schema ∧
        (ofSteps guestBook).build.run = Except.ok schema := by
  have hpure : (ofSteps guestBook).CoercersPure := by
    intro scalar hscalar coerce hcoerce value
    cases List.mem_singleton.1 hscalar
    cases hcoerce
    exact ⟨some value, rfl⟩
  rcases (build_ofSteps hpure).2 with ⟨hconsistent, schema, hdeclares, hbuild⟩ | ⟨_, _, hbuild⟩
  · refine ⟨hpure, hconsistent, schema, hdeclares, ?_⟩
    rw [hbuild]
    rfl
  · have hbuilt : Except.isOk (ofSteps guestBook).build.run = true := by decide +kernel
    rw [hbuild] at hbuilt
    cases hbuilt

end Definitions

end GraphQL
