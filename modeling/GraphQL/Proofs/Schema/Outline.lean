/-
GraphQL.Proofs.Schema.Outline — schemas up to the values of their defaults.

  §1 Outlines   — arguments with the mark of a default instead of its value.
  §2 Transport  — which values conform and what completes them.
  §3 Bodies     — another body for one of the types.

Settling defaults changes their values and nothing else. Whether a value
conforms, and which defaults complete it, does not depend on these values.
-/
import GraphQL.Proofs.Input.Coerces
import GraphQL.Proofs.Schema.Tables

namespace GraphQL

/-! ## §1 Outlines -/

/-- The argument with its default, if there is one, replaced by null. -/
def Argument.outline (argument : Argument) : Argument :=
  { argument with default := argument.default.map fun _ => .null }

/-- An input type with the outlines of its fields. -/
def InputBody.outline : InputBody → InputBody
  | .scalar gives => .scalar gives
  | .inputObject declared => .inputObject (declared.map Argument.outline)

/-- A type with the outlines of its input fields, and without those of an object. -/
def TypeBody.outline {m : Type → Type} : TypeBody m → TypeBody m
  | .scalar coerce => .scalar coerce
  | .object _ => .object []
  | .inputObject declared => .inputObject (declared.map Argument.outline)

/-- Types that differ in the values of defaults at most. -/
def SameOutline (types types' : TypeId → Option InputBody) : Prop :=
  ∀ id, (types id).map InputBody.outline = (types' id).map InputBody.outline

/-- Schemas whose input types differ in the values of defaults at most. -/
def Schema.SameOutline {m : Type → Type} (schema other : Schema m) : Prop :=
  ∀ id, (schema.body? id).map TypeBody.outline = (other.body? id).map TypeBody.outline

namespace Argument

variable {argument other : Argument}

theorem name_eq_of_outline (h : argument.outline = other.outline) : argument.name = other.name := by
  simpa [outline] using congrArg name h

theorem type_eq_of_outline (h : argument.outline = other.outline) : argument.type = other.type := by
  simpa [outline] using congrArg type h

theorem isSome_default_of_outline (h : argument.outline = other.outline) :
    argument.default.isSome = other.default.isSome := by
  simpa [outline] using congrArg (fun argument => argument.default.isSome) h

theorem default_eq_none_of_outline (h : argument.outline = other.outline)
    (hnone : argument.default = none) : other.default = none := by
  have hsome := isSome_default_of_outline h
  rw [hnone] at hsome
  exact Option.isNone_iff_eq_none.1 (by simpa using hsome.symm)

end Argument

namespace SameOutline

variable {types types' : TypeId → Option InputBody}

theorem scalar (h : SameOutline types types') {id : TypeId} {gives : Value → Prop}
    (htype : types id = some (.scalar gives)) : types' id = some (.scalar gives) := by
  have hid := h id
  rw [htype] at hid
  cases hother : types' id with
  | none =>
    rw [hother] at hid
    cases hid
  | some body =>
    rw [hother] at hid
    cases body with
    | scalar given => exact (congrArg some (by simpa [InputBody.outline] using hid.symm))
    | inputObject declared => simp [InputBody.outline] at hid

theorem inputObject (h : SameOutline types types') {id : TypeId} {declared : List Argument}
    (htype : types id = some (.inputObject declared)) :
    ∃ declared', types' id = some (.inputObject declared') ∧
      declared.map Argument.outline = declared'.map Argument.outline := by
  have hid := h id
  rw [htype] at hid
  cases hother : types' id with
  | none =>
    rw [hother] at hid
    cases hid
  | some body =>
    rw [hother] at hid
    cases body with
    | scalar given => simp [InputBody.outline] at hid
    | inputObject declared' => exact ⟨declared', rfl, by simpa [InputBody.outline] using hid⟩

end SameOutline

namespace Schema.SameOutline

variable {m : Type → Type} {schema other third : Schema m}

theorem refl (schema : Schema m) : schema.SameOutline schema := fun _ => rfl

theorem symm (h : schema.SameOutline other) : other.SameOutline schema := fun id => (h id).symm

theorem trans (h : schema.SameOutline other) (hother : other.SameOutline third) :
    schema.SameOutline third := fun id => (h id).trans (hother id)

theorem body?_scalar (h : schema.SameOutline other) {id : TypeId} {coerce : Coercer m}
    (hbody : schema.body? id = some (.scalar coerce)) :
    other.body? id = some (.scalar coerce) := by
  have hid := h id
  rw [hbody] at hid
  obtain ⟨body, hother, houtline⟩ := Option.map_eq_some_iff.1 hid.symm
  cases body with
  | scalar given =>
    cases houtline
    exact hother
  | object _ => cases houtline
  | inputObject _ => cases houtline

theorem body?_inputObject (h : schema.SameOutline other) {id : TypeId} {declared : List Argument}
    (hbody : schema.body? id = some (.inputObject declared)) :
    ∃ declared', other.body? id = some (.inputObject declared') ∧
      declared.map Argument.outline = declared'.map Argument.outline := by
  have hid := h id
  rw [hbody] at hid
  obtain ⟨body, hother, houtline⟩ := Option.map_eq_some_iff.1 hid.symm
  cases body with
  | scalar given => cases houtline
  | object _ => cases houtline
  | inputObject declared' => exact ⟨declared', hother, (TypeBody.inputObject.inj houtline).symm⟩

theorem body?_object (h : schema.SameOutline other) {id : TypeId} {fields : List (FieldType m)}
    (hbody : schema.body? id = some (.object fields)) :
    ∃ fields', other.body? id = some (.object fields') := by
  have hid := h id
  rw [hbody] at hid
  obtain ⟨body, hother, houtline⟩ := Option.map_eq_some_iff.1 hid.symm
  cases body with
  | scalar _ => cases houtline
  | object fields' => exact ⟨fields', hother⟩
  | inputObject _ => cases houtline

/-- What the types consist of has the same outline as well. -/
theorem inputBody? [Monad m] [MonadAttach m] (h : schema.SameOutline other) :
    GraphQL.SameOutline schema.inputBody? other.inputBody? := by
  intro id
  have hid := h id
  unfold Schema.inputBody?
  cases hbody : schema.body? id with
  | none =>
    rw [hbody] at hid
    rw [Option.map_eq_none_iff.1 hid.symm]
  | some body =>
    rw [hbody] at hid
    obtain ⟨body', hbody', hsame⟩ := Option.map_eq_some_iff.1 hid.symm
    rw [hbody']
    cases body <;> cases body' <;> simp_all [TypeBody.outline, InputBody.outline]

end Schema.SameOutline

/-! ## §2 Transport -/

section Transport

variable {types types' : TypeId → Option InputBody}

mutual

/-- A value that conforms does so whatever the defaults are. -/
theorem Conforms.of_sameOutline (hsame : SameOutline types types')
    {type : TypeExpr TypeId} {value : Value}
    (h : Conforms types type value) : Conforms types' type value := by
  match h with
  | .null htype => exact .null htype
  | .nonNull hne hinner => exact .nonNull hne (hinner.of_sameOutline hsame)
  | .list hitems => exact .list fun item hitem => (hitems item hitem).of_sameOutline hsame
  | .scalar htype hgives => exact .scalar (hsame.scalar htype) hgives
  | .object htype hmembers =>
    obtain ⟨declared', htype', houtline⟩ := hsame.inputObject htype
    exact .object htype' (hmembers.of_sameOutline hsame houtline)
termination_by structural h

/-- So do members. -/
theorem MembersConform.of_sameOutline (hsame : SameOutline types types')
    {declared declared' : List Argument} {members : Members}
    (h : MembersConform types declared members)
    (houtline : declared.map Argument.outline = declared'.map Argument.outline) :
    MembersConform types' declared' members := by
  match h with
  | .nil =>
    rw [List.map_nil] at houtline
    rw [List.map_eq_nil_iff.1 houtline.symm]
    exact .nil
  | .present hvalue hrest =>
    rw [List.map_cons] at houtline
    obtain ⟨other, others, rfl, hfirst, houtline⟩ := List.map_eq_cons_iff.1 houtline.symm
    rw [← other.name_eq_of_outline hfirst]
    refine .present ?_ (hrest.of_sameOutline hsame houtline.symm)
    rw [other.type_eq_of_outline hfirst]
    exact hvalue.of_sameOutline hsame
  | .absent hnull hdefault hrest =>
    rw [List.map_cons] at houtline
    obtain ⟨other, others, rfl, hfirst, houtline⟩ := List.map_eq_cons_iff.1 houtline.symm
    refine .absent ?_ (Argument.default_eq_none_of_outline hfirst.symm hdefault)
      (hrest.of_sameOutline hsame houtline.symm)
    rwa [other.type_eq_of_outline hfirst]
termination_by structural h

end

variable (hsame : SameOutline types types')
include hsame

/-- The default of an argument goes on to conform. -/
theorem Argument.DefaultConforms.of_sameOutline {argument : Argument}
    (h : argument.DefaultConforms types) : argument.DefaultConforms types' :=
  fun default hdefault => (h default hdefault).of_sameOutline hsame

/-- The fields at one position have the same outline. -/
theorem declaredAt?_of_sameOutline {owner : TypeId} {index : Nat} {field : Argument}
    (h : declaredAt? types owner index = some field) :
    ∃ field', declaredAt? types' owner index = some field' ∧ field'.outline = field.outline := by
  obtain ⟨declared, htype, hfield⟩ := exists_of_declaredAt? h
  obtain ⟨declared', htype', houtline⟩ := hsame.inputObject htype
  have hindex : (declared'[index]?).map Argument.outline = some field.outline := by
    rw [← List.getElem?_map, ← houtline, List.getElem?_map, hfield, Option.map_some]
  rw [declaredAt?_of_inputObject htype']
  exact Option.map_eq_some_iff.1 hindex

/-- Which defaults complete a value does not depend on what they are. -/
theorem Completes.of_sameOutline {type : TypeExpr TypeId} {value : Value} {owner : TypeId}
    {index : Nat} (h : Completes types type value owner index) :
    Completes types' type value owner index := by
  induction h with
  | nonNull _ ih => exact .nonNull ih
  | item hitem _ ih => exact .item hitem ih
  | single hlist _ ih => exact .single hlist ih
  | here htype hindex hnone hdefault =>
    obtain ⟨field', hfield', houtline⟩ := declaredAt?_of_sameOutline hsame
      ((declaredAt?_of_inputObject htype _).trans hindex)
    obtain ⟨declared', htype', hindex'⟩ := exists_of_declaredAt? hfield'
    have hsome := Argument.isSome_default_of_outline houtline
    rw [hdefault, Option.isSome_some, Option.isSome_iff_exists] at hsome
    obtain ⟨default', hdefault'⟩ := hsome
    rw [← Argument.name_eq_of_outline houtline] at hnone
    exact .here htype' hindex' hnone hdefault'
  | member htype hfield hvalue _ ih =>
    obtain ⟨declared', htype', houtline⟩ := hsame.inputObject htype
    have hmem : Argument.outline _ ∈ declared'.map Argument.outline :=
      houtline ▸ List.mem_map_of_mem hfield
    obtain ⟨field', hfield', hfirst⟩ := List.mem_map.1 hmem
    rw [← Argument.name_eq_of_outline hfirst] at hvalue
    rw [← Argument.type_eq_of_outline hfirst] at ih
    exact .member htype' hfield' hvalue ih

end Transport

/-! ## §3 Bodies -/

namespace Build

variable {m : Type → Type} {schema other : Schema m} {id : TypeId} {old new : TypeBody m}

/-- The second schema has another body for one of the types. -/
structure Replaces (schema other : Schema m) (id : TypeId) (old new : TypeBody m) : Prop where
  old : schema.body? id = some old
  new : other.body? id = some new
  others : ∀ owner, owner ≠ id → other.body? owner = schema.body? owner

/-- A change of a type gives it another body. -/
theorem replaces_alter {change : NamedType m → NamedType m}
    (hname : ∀ type, (change type).name = type.name) (h : schema.body? id = some old)
    (hnew : ∀ type : NamedType m, type.body = old → (change type).body = new) :
    Replaces schema (schema.alter id change hname) id old new := by
  obtain ⟨type, htype, hbody⟩ := Option.map_eq_some_iff.1 h
  refine ⟨h, ?_, fun owner howner => ?_⟩
  · rw [Schema.body?, Schema.type?_alter_self hname htype, Option.map_some, hnew type hbody]
  · rw [Schema.body?, Schema.type?_alter_of_ne hname howner, Schema.body?]

theorem replaces_withDefault {before after : List Argument} {field : Argument}
    (h : schema.body? id = some (.inputObject (before ++ field :: after)))
    (default : Option Value) :
    Replaces schema (schema.withDefault id before.length default) id
      (.inputObject (before ++ field :: after))
      (.inputObject (before ++ { field with default } :: after)) :=
  replaces_alter _ h fun _ hbody => NamedType.body_withDefault hbody default

theorem replaces_withArguments {fields : List (FieldType m)}
    (h : schema.body? id = some (.object fields)) (arguments : List (List Argument)) :
    Replaces schema (schema.withArguments id arguments) id (.object fields)
      (.object (FieldType.withArguments fields arguments)) :=
  replaces_alter _ h fun _ hbody => NamedType.body_withArguments hbody arguments

namespace Replaces

/-- A body of the same outline gives a schema of the same outline. -/
theorem sameOutline (h : Replaces schema other id old new) (houtline : old.outline = new.outline) :
    schema.SameOutline other := by
  intro owner
  by_cases howner : owner = id
  · rw [howner, h.old, h.new, Option.map_some, Option.map_some, houtline]
  · rw [h.others owner howner]

theorem inputBody?_of_ne [Monad m] [MonadAttach m] (h : Replaces schema other id old new)
    {owner : TypeId} (howner : owner ≠ id) : other.inputBody? owner = schema.inputBody? owner := by
  unfold Schema.inputBody?
  rw [h.others owner howner]

/-- Another field at one position of an input object type changes no other position. -/
theorem declaredAt?_of_ne [Monad m] [MonadAttach m] {before after : List Argument}
    {field settled : Argument}
    (h : Replaces schema other id (.inputObject (before ++ field :: after))
      (.inputObject (before ++ settled :: after)))
    {owner : TypeId} {position : Nat} (hne : ¬ (owner = id ∧ position = before.length)) :
    declaredAt? other.inputBody? owner position = declaredAt? schema.inputBody? owner position := by
  by_cases howner : owner = id
  · subst howner
    have hposition : position ≠ before.length := fun heq => hne ⟨rfl, heq⟩
    rw [declaredAt?_of_inputObject (Schema.inputBody?_inputObject h.new),
      declaredAt?_of_inputObject (Schema.inputBody?_inputObject h.old),
      List.getElem?_append, List.getElem?_append]
    split
    · rfl
    · have hlater : position - before.length = position - before.length - 1 + 1 := by omega
      rw [hlater, List.getElem?_cons_succ, List.getElem?_cons_succ]
  · unfold declaredAt?
    rw [h.inputBody?_of_ne howner]

end Replaces

end Build

end GraphQL
