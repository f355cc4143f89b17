/-
GraphQL.Proofs.Schema.Closed — schemas whose types refer to types they have.

  §1 Closure   — references in range, to types of the right sort.
  §2 Types     — the types that definitions give refer to each other so.
  §3 Shapes    — coercing defaults changes no type and no field.
  §4 Schemas   — every schema that is built is closed.

Types refer to each other by positions that are found among names, before the
types are there. A position is good for the schema because names and types are
made in the same order.
-/
import GraphQL.Proofs.Schema.Defaults

namespace GraphQL

open MonadAttach (CanReturn)
open LawfulMonadAttach (canReturn_bind_imp' eq_of_canReturn_pure)

variable {m : Type → Type}

/-! ## §1 Closure -/

namespace Schema

/-- There is a type at the position, and input can be given for it. -/
def TakesInput (schema : Schema m) (id : TypeId) : Prop :=
  ∃ body, schema.body? id = some body ∧ body.sort ≠ .object

/-- There is a type at the position, and values can be given in it. -/
def GivesValues (schema : Schema m) (id : TypeId) : Prop :=
  ∃ body, schema.body? id = some body ∧ body.sort ≠ .inputObject

/-- A written type that is understood, and that is no object type, takes input. -/
theorem takesInput_of_understand? {schema : Schema m} {written : TypeExpr Bytes}
    {type : TypeExpr TypeId} (h : schema.understand? written = some type)
    (hobject : schema.isObjectType type.leaf = false) : schema.TakesInput type.leaf := by
  obtain ⟨id, hid, rfl⟩ := Option.map_eq_some_iff.1 h
  rw [TypeExpr.leaf_map] at hobject ⊢
  rw [typeId?_eq] at hid
  obtain ⟨hrange, _⟩ := List.findIdx?_eq_some_iff_getElem.1 hid
  have hbody : schema.body? id = some schema.types[id].body := by simp [body?, type?, hrange]
  rw [isObjectType_eq, hbody] at hobject
  exact ⟨_, hbody, by simpa using hobject⟩

end Schema

/-- The type refers to types of the schema only: with its arguments and input
fields to those that take input, with its fields to those that give values. -/
def TypeBody.Closed (schema : Schema m) : TypeBody m → Prop
  | .scalar _ => True
  | .object fields => ∀ field ∈ fields, schema.GivesValues field.type.leaf ∧
      ∀ argument ∈ field.arguments, schema.TakesInput argument.type.leaf
  | .inputObject declared => ∀ field ∈ declared, schema.TakesInput field.type.leaf

/-- All types refer to types of the schema, and operations start at object types. -/
structure Schema.Closed (schema : Schema m) : Prop where
  body : ∀ id body, schema.body? id = some body → body.Closed schema
  query : ∃ fields, schema.body? schema.query = some (.object fields)
  mutation : ∀ id, schema.mutation = some id → ∃ fields, schema.body? id = some (.object fields)

/-! ## §2 Types -/

section Types

variable [Monad m] {definitions : Definitions m}

namespace Definitions

/-- A type that is written refers to what is declared of its name. -/
theorem declaration_of_names {excluded : List Bytes} {text : Bytes}
    (h : definitions.Names excluded text) :
    ∃ declaration ∈ definitions.declarations, declaration.name ∉ excluded ∧
      definitions.written.body? (definitions.typeOf text).leaf =
        some (declaration.made definitions).body := by
  obtain ⟨written, hread, hname, hexcluded⟩ := h
  obtain ⟨id, hid⟩ := exists_typeId? hname
  obtain ⟨declaration, hfound, hdeclared⟩ := declaration_of_typeId? hid
  refine ⟨declaration, List.mem_of_getElem? hfound, by rwa [hdeclared], ?_⟩
  simp only [typeOf, hread, hid, Option.getD_some, TypeExpr.leaf_map]
  rw [Schema.body?, type?_written, hfound, Option.map_some, Option.map_some]

theorem takesInput_of_names (hdistinct : (definitions.declarations.map Declaration.name).Nodup)
    {text : Bytes} (h : definitions.Names (definitions.objects.map (·.name)) text) :
    definitions.written.TakesInput (definitions.typeOf text).leaf := by
  obtain ⟨declaration, hmem, hname, hbody⟩ := declaration_of_names h
  refine ⟨_, hbody, ?_⟩
  rw [Declaration.sort_made]
  exact mt (Build.sort_eq_object_iff hdistinct hmem).1 hname

theorem givesValues_of_names (hdistinct : (definitions.declarations.map Declaration.name).Nodup)
    {text : Bytes} (h : definitions.Names (definitions.inputs.map (·.name)) text) :
    definitions.written.GivesValues (definitions.typeOf text).leaf := by
  obtain ⟨declaration, hmem, hname, hbody⟩ := declaration_of_names h
  refine ⟨_, hbody, ?_⟩
  rw [Declaration.sort_made]
  exact mt (Build.sort_eq_inputObject_iff hdistinct hmem).1 hname

/-- The types of well-declared definitions refer to each other only. -/
theorem WellDeclared.closed (h : definitions.WellDeclared) (id : TypeId) (body : TypeBody m)
    (hbody : definitions.written.body? id = some body) : body.Closed definitions.written := by
  obtain ⟨declaration, hmem, rfl⟩ := declaration_of_body? hbody
  rcases mem_declarations.1 hmem with ⟨_, _, rfl⟩ | ⟨object, hobject, rfl⟩ | ⟨input, hinput, rfl⟩
  · trivial
  · refine List.forall_mem_map.2 fun field hfield => ?_
    have hfits := (h.objects object hobject).fields field hfield
    refine ⟨givesValues_of_names h.distinct hfits.type, List.forall_mem_map.2 ?_⟩
    exact fun argument hargument =>
      takesInput_of_names h.distinct (hfits.arguments.types argument hargument)
  · have hfits := (h.inputs input hinput).fields
    exact List.forall_mem_map.2 fun field hfield =>
      takesInput_of_names h.distinct (hfits.types field hfield)

end Definitions

end Types

/-! ## §3 Shapes -/

/-- The field with the outlines of its arguments. -/
def FieldType.outline (field : FieldType m) : FieldType m :=
  { field with arguments := field.arguments.map Argument.outline }

/-- A type with the outlines of all its arguments and input fields. -/
def TypeBody.shape : TypeBody m → TypeBody m
  | .scalar coerce => .scalar coerce
  | .object fields => .object (fields.map FieldType.outline)
  | .inputObject declared => .inputObject (declared.map Argument.outline)

@[simp]
theorem TypeBody.sort_shape (body : TypeBody m) : body.shape.sort = body.sort := by
  cases body <;> rfl

@[simp]
theorem TypeBody.closed_shape {schema : Schema m} (body : TypeBody m) :
    body.shape.Closed schema ↔ body.Closed schema := by
  cases body with
  | scalar coerce => exact Iff.rfl
  | object fields => simp [shape, Closed, FieldType.outline, Argument.outline]
  | inputObject declared => simp [shape, Closed, Argument.outline]

/-- Schemas that differ in the values of defaults at most. -/
def Schema.SameShape (schema other : Schema m) : Prop :=
  ∀ id, (schema.body? id).map TypeBody.shape = (other.body? id).map TypeBody.shape

namespace Schema.SameShape

variable {schema other third : Schema m} {id : TypeId}

theorem refl (schema : Schema m) : schema.SameShape schema := fun _ => rfl

theorem symm (h : schema.SameShape other) : other.SameShape schema := fun id => (h id).symm

theorem trans (h : schema.SameShape other) (hother : other.SameShape third) :
    schema.SameShape third := fun id => (h id).trans (hother id)

theorem body? (h : schema.SameShape other) {body : TypeBody m}
    (hbody : schema.body? id = some body) :
    ∃ body', other.body? id = some body' ∧ body'.shape = body.shape := by
  have hid := h id
  rw [hbody] at hid
  exact Option.map_eq_some_iff.1 hid.symm

theorem sort_eq {body body' : TypeBody m} (h : body'.shape = body.shape) :
    body'.sort = body.sort := by
  rw [← body.sort_shape, ← h, body'.sort_shape]

theorem takesInput (h : schema.SameShape other) (htakes : schema.TakesInput id) :
    other.TakesInput id := by
  obtain ⟨body, hbody, hsort⟩ := htakes
  obtain ⟨body', hbody', hshape⟩ := h.body? hbody
  exact ⟨body', hbody', by rwa [sort_eq hshape]⟩

theorem givesValues (h : schema.SameShape other) (hgives : schema.GivesValues id) :
    other.GivesValues id := by
  obtain ⟨body, hbody, hsort⟩ := hgives
  obtain ⟨body', hbody', hshape⟩ := h.body? hbody
  exact ⟨body', hbody', by rwa [sort_eq hshape]⟩

/-- References of a type are as good in a schema of the same shape. -/
theorem closed (h : schema.SameShape other) {body : TypeBody m} (hclosed : body.Closed schema) :
    body.Closed other := by
  cases body with
  | scalar coerce => trivial
  | object fields =>
    intro field hfield
    obtain ⟨hgives, htake⟩ := hclosed field hfield
    exact ⟨h.givesValues hgives, fun argument hargument =>
      h.takesInput (htake argument hargument)⟩
  | inputObject declared => exact fun field hfield => h.takesInput (hclosed field hfield)

end Schema.SameShape

namespace Build

/-- Another body of the same shape makes no difference. -/
theorem Replaces.sameShape {schema other : Schema m} {id : TypeId} {old new : TypeBody m}
    (h : Replaces schema other id old new) (hshape : old.shape = new.shape) :
    schema.SameShape other := by
  intro owner
  by_cases howner : owner = id
  · rw [howner, h.old, h.new, Option.map_some, Option.map_some, hshape]
  · rw [h.others owner howner]

variable [Monad m] [LawfulMonad m] [MonadAttach m] [LawfulMonadAttach m]

omit [LawfulMonad m] [LawfulMonadAttach m] in
theorem map_outline_of_settled {schema : Schema m} {declared settled : List Argument}
    (h : List.Forall₂ (SettledAs schema) declared settled) :
    settled.map Argument.outline = declared.map Argument.outline := by
  induction h with
  | nil => rfl
  | cons hfirst _ ih => rw [List.map_cons, List.map_cons, ih, hfirst.outline]

theorem map_outline_of_settleFields {schema : Schema m} {object : Bytes}
    {fields : List (FieldType m)} {settled : List (List Argument)}
    (h : CanReturn (settleFields schema object fields) settled) :
    (FieldType.withArguments fields settled).map FieldType.outline =
      fields.map FieldType.outline := by
  induction fields generalizing settled with
  | nil =>
    cases eq_of_canReturn_pure h
    rfl
  | cons field fields ih =>
    obtain ⟨arguments, harguments, h⟩ := canReturn_bind_imp' h
    obtain ⟨others, hothers, h⟩ := canReturn_bind_imp' h
    cases eq_of_canReturn_pure h
    have hfield := map_outline_of_settled (settleArguments_settle harguments)
    simp only [FieldType.withArguments, List.map_cons, ih hothers, FieldType.outline, hfield]

theorem sameShape_of_settleInputFields {current next : Schema m} {id : TypeId} {input : Bytes}
    {settled rest : List Argument}
    (hbody : current.body? id = some (.inputObject (settled ++ rest)))
    (h : CanReturn (settleInputFields id input current settled.length rest) next) :
    current.SameShape next := by
  induction rest generalizing current settled with
  | nil =>
    cases eq_of_canReturn_pure h
    exact .refl _
  | cons field rest ih =>
    obtain ⟨done, hdone, h⟩ := canReturn_bind_imp' h
    have hreplaces := replaces_withDefault hbody done.default
    rw [(settleArgument_settles hdone).same] at hreplaces
    have houtline := (settleArgument_settles hdone).outline
    have hshape : current.SameShape _ := hreplaces.sameShape (by simp [TypeBody.shape, houtline])
    rw [← List.length_singleton (a := done), ← List.length_append] at h
    refine hshape.trans (ih ?_ h)
    rw [List.append_assoc, List.singleton_append]
    exact hreplaces.new

theorem sameShape_of_settleType {current next : Schema m} {id : TypeId}
    (h : CanReturn (settleType current id) next) : current.SameShape next := by
  unfold settleType at h
  cases htype : current.type? id with
  | none =>
    rw [htype] at h
    cases eq_of_canReturn_pure h
    exact .refl _
  | some type =>
    rw [htype] at h
    obtain ⟨name, description, body, index, indexed⟩ := type
    have hbody : current.body? id = some body := by rw [Schema.body?, htype, Option.map_some]
    cases body with
    | scalar coerce =>
      cases eq_of_canReturn_pure h
      exact .refl _
    | inputObject declared =>
      have hstart : current.body? id = some (.inputObject ([] ++ declared)) := hbody
      exact sameShape_of_settleInputFields hstart h
    | object fields =>
      obtain ⟨settled, hsettled, h⟩ := canReturn_bind_imp' h
      cases eq_of_canReturn_pure h
      have houtline := map_outline_of_settleFields hsettled
      exact (replaces_withArguments hbody settled).sameShape (by simp [TypeBody.shape, houtline])

/-- Coercing defaults keeps the shape of a schema. -/
theorem sameShape_of_settleDefaults {current next : Schema m}
    (h : CanReturn (settleDefaults current) next) : current.SameShape next := by
  unfold settleDefaults at h
  generalize List.range current.types.length = ids at h
  induction ids generalizing current with
  | nil =>
    cases eq_of_canReturn_pure h
    exact .refl _
  | cons id ids ih =>
    rw [List.foldlM_cons] at h
    obtain ⟨middle, hmiddle, h⟩ := canReturn_bind_imp' h
    exact (sameShape_of_settleType hmiddle).trans (ih h)

end Build

/-! ## §4 Schemas -/

namespace Build

/-- A type that is found as an object type is one. -/
theorem body?_of_objectId? {schema : Schema m} {name : Bytes} {id : TypeId}
    (h : objectId? schema name = some id) : ∃ fields, schema.body? id = some (.object fields) := by
  obtain ⟨_, hobject⟩ := Option.filter_eq_some_iff.1 h
  rw [Schema.isObjectType_eq] at hobject
  cases hbody : schema.body? id with
  | none => simp [hbody] at hobject
  | some body =>
    rw [hbody] at hobject
    cases body with
    | object fields => exact ⟨fields, rfl⟩
    | scalar _ => cases hobject
    | inputObject _ => cases hobject

/-- Operations start at object types. -/
theorem roots_of_withRoots {definitions : Definitions m} {schema rooted : Schema m}
    (h : withRoots definitions schema = .ok rooted) :
    (∃ fields, rooted.body? rooted.query = some (.object fields)) ∧
      ∀ id, rooted.mutation = some id → ∃ fields, rooted.body? id = some (.object fields) := by
  unfold withRoots at h
  dsimp only at h
  split at h
  · cases h
  · rename_i query hquery
    split at h
    · cases h
      exact ⟨body?_of_objectId? hquery, nofun⟩
    · split at h
      · cases h
      · rename_i mutation hmutation
        cases h
        refine ⟨body?_of_objectId? hquery, fun id hid => ?_⟩
        cases hid
        exact body?_of_objectId? hmutation

end Build

namespace Definitions

variable [Monad m] [LawfulMonad m] [MonadAttach m] [LawfulMonadAttach m] [MonadLog m]
  {definitions : Definitions m} {schema : Schema m}

/-- Definitions that give a schema have a coercion function for each scalar. -/
theorem coercers_of_build (h : CanReturn definitions.build schema) :
    ∀ scalar ∈ definitions.scalars, scalar.coercer.isSome = true := by
  obtain ⟨written, settled, hwritten, _⟩ := Build.of_build h
  exact ((Build.checks_arena definitions).of_ok hwritten).1.coercers

/-- Every schema that is built is closed. -/
theorem closed_of_build (h : CanReturn definitions.build schema) : schema.Closed := by
  obtain ⟨written, hwritten, h⟩ := canReturn_bind_imp' h
  obtain ⟨settled, hsettled, h⟩ := canReturn_bind_imp' h
  obtain ⟨rooted, hrooted, h⟩ := canReturn_bind_imp' h
  obtain ⟨_, _, h⟩ := canReturn_bind_imp' h
  cases eq_of_canReturn_pure h
  have hroots := Build.eq_ok_of_checked hrooted
  have hsame : written.SameShape schema :=
    (Build.sameShape_of_settleDefaults hsettled).trans fun id => by
      rw [Schema.body?_eq_of_types (Build.types_withRoots hroots)]
  obtain ⟨hquery, hmutation⟩ := Build.roots_of_withRoots hroots
  refine ⟨fun id body hbody => ?_, hquery, hmutation⟩
  obtain ⟨given, hgiven, hshape⟩ := hsame.symm.body? hbody
  obtain ⟨hdeclared, rfl⟩ :=
    (Build.checks_arena definitions).of_ok (Build.eq_ok_of_checked hwritten)
  have hclosed := hdeclared.closed id given hgiven
  rw [← TypeBody.closed_shape, ← hshape, TypeBody.closed_shape]
  exact hsame.closed hclosed

end Definitions

end GraphQL
