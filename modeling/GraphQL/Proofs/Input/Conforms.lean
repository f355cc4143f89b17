/-
GraphQL.Proofs.Input.Conforms — which values conform to an input type.

  §1 Bodies       — what an input type consists of.
  §2 Conformance  — values of a type and members of an object.
  §3 Members      — the order of members, and which of them are there.
  §4 Schemas      — what a schema is trusted with.
  §5 Built-ins    — the scalars of every schema take nothing for null.

Conformance is about values alone: it knows neither issues nor where a value
came from. The members of an object follow the declarations one by one, so
their order, their keys and their completeness are one statement.
-/
import GraphQL.Input.Arguments
import GraphQL.Proofs.Document.Wrappers
import GraphQL.Schema.Build

namespace GraphQL

/-! ## §1 Bodies -/

/-- A value that a scalar's coercion function can give. -/
def Coercer.Gives {m : Type → Type} [Monad m] [MonadAttach m] (coerce : Coercer m)
    (result : Value) : Prop :=
  ∃ value, MonadAttach.CanReturn (coerce value) (some result)

/-- The value is neither null nor a list nor an object. -/
def Value.isLeaf : Value → Bool
  | .null | .list _ | .object _ => false
  | _ => true

/-- What the scalar gives is neither null nor a list nor an object, and it is
given again for itself. -/
structure Coercer.Idempotent {m : Type → Type} [Monad m] [MonadAttach m] (coerce : Coercer m) :
    Prop where
  leaf : ∀ result, coerce.Gives result → result.isLeaf = true
  again : ∀ result, coerce.Gives result → coerce result = pure (some result)

/-- What is found at a position is the body of one of the types. -/
theorem Schema.exists_of_body? {m : Type → Type} {schema : Schema m} {id : TypeId}
    {body : TypeBody m} (h : schema.body? id = some body) :
    ∃ type ∈ schema.types, type.body = body := by
  obtain ⟨type, htype, hbody⟩ := Option.map_eq_some_iff.1 h
  exact ⟨type, List.mem_of_getElem? htype, hbody⟩

/-- What an input type consists of: the values of a scalar, or declared fields. -/
inductive InputBody where
  | scalar (gives : Value → Prop)
  | inputObject (declared : List Argument)

/-- What the type at a position consists of, if it takes input. -/
def Schema.inputBody? {m : Type → Type} [Monad m] [MonadAttach m] (schema : Schema m)
    (id : TypeId) : Option InputBody :=
  match schema.body? id with
  | some (.scalar coerce) => some (.scalar coerce.Gives)
  | some (.inputObject declared) => some (.inputObject declared)
  | _ => none

/-! ## §2 Conformance -/

mutual

/-- A value of a type: null only where it is admitted, a list at a list type, a
value of the scalar or an object of the declared fields at a named type. -/
inductive Conforms (types : TypeId → Option InputBody) : TypeExpr TypeId → Value → Prop
  | null {type : TypeExpr TypeId} :
    type.isNonNull = false → Conforms types type .null
  | nonNull {inner : TypeExpr TypeId} {value : Value} :
    value ≠ .null → Conforms types inner.unmarked value → Conforms types (.nonNull inner) value
  | list {element : TypeExpr TypeId} {items : List Value} :
    (∀ item ∈ items, Conforms types element item) →
    Conforms types (.list element) (.list items)
  | scalar {id : TypeId} {gives : Value → Prop} {value : Value} :
    types id = some (.scalar gives) → gives value → Conforms types (.named id) value
  | object {id : TypeId} {declared : List Argument} {members : Members} :
    types id = some (.inputObject declared) → MembersConform types declared members →
    Conforms types (.named id) (.object members)

/-- Members for declared fields or arguments, in declaration order. Only what
admits null and has no default may be left out. -/
inductive MembersConform (types : TypeId → Option InputBody) : List Argument → Members → Prop
  | nil : MembersConform types [] []
  | present {argument : Argument} {declared : List Argument} {value : Value}
      {members : Members} :
    Conforms types argument.type value → MembersConform types declared members →
    MembersConform types (argument :: declared) ((argument.name, value) :: members)
  | absent {argument : Argument} {declared : List Argument} {members : Members} :
    argument.type.isNonNull = false → argument.default = none →
    MembersConform types declared members → MembersConform types (argument :: declared) members

end

namespace Conforms

variable {types : TypeId → Option InputBody} {type : TypeExpr TypeId} {value : Value}

/-- A value of a marked type is one of what is read under the mark. -/
theorem of_nonNull (h : Conforms types (.nonNull type) value) :
    Conforms types type.unmarked value := by
  cases h with
  | null hnull => simp [TypeExpr.isNonNull] at hnull
  | nonNull _ hvalue => exact hvalue

/-- Under a mark a type counts as what is read there. -/
theorem nonNull_of_unmarked (h : Conforms types (.nonNull type.unmarked) value) :
    Conforms types (.nonNull type) value := by
  cases h with
  | null hnull => simp [TypeExpr.isNonNull] at hnull
  | nonNull hne hvalue => exact .nonNull hne (type.unmarked_unmarked ▸ hvalue)

/-- A value without null of the type that admits null is one of the type. -/
theorem of_nullable (h : Conforms types (.nonNull type.nullable) value) :
    Conforms types type value := by
  cases type with
  | named id => exact h.of_nonNull
  | list element => exact h.of_nonNull
  | nonNull inner => exact h

/-- The members of an object that conforms. -/
theorem members {id : TypeId} {declared : List Argument} {members : Members}
    (h : Conforms types (.named id) (.object members))
    (htype : types id = some (.inputObject declared)) : MembersConform types declared members := by
  cases h with
  | scalar hfound _ =>
    rw [htype] at hfound
    cases hfound
  | object hfound hmembers =>
    rw [htype] at hfound
    cases hfound
    exact hmembers

/-- Null is no value of a non-null type. -/
theorem ne_null (htype : type.isNonNull = true) (h : Conforms types type value) :
    value ≠ .null := by
  intro hnull
  subst hnull
  cases h with
  | null h => simp [h] at htype
  | nonNull hne _ => exact hne rfl
  | scalar => simp [TypeExpr.isNonNull] at htype

end Conforms

/-! ## §3 Members -/

namespace MembersConform

variable {types : TypeId → Option InputBody} {declared : List Argument} {members : Members}

/-- The keys are declared names, in the order of their declarations. -/
theorem keys_sublist (h : MembersConform types declared members) :
    (members.map (·.1)).Sublist (declared.map (·.name)) := by
  induction members generalizing declared with
  | nil => exact List.nil_sublist _
  | cons member members ih =>
    induction declared with
    | nil => cases h
    | cons argument declared skip =>
      cases h with
      | present _ hrest => exact (ih hrest).cons_cons _
      | absent _ _ hrest => exact (skip hrest).cons _

/-- Each member belongs to a declaration and conforms to its type. -/
theorem conforms_of_mem (h : MembersConform types declared members) {key : Bytes} {value : Value}
    (hmem : (key, value) ∈ members) :
    ∃ argument ∈ declared, argument.name = key ∧ Conforms types argument.type value := by
  induction declared generalizing members with
  | nil => cases h; simp at hmem
  | cons argument declared ih =>
    cases h with
    | present hvalue hrest =>
      rcases List.mem_cons.1 hmem with heq | hmem
      · cases heq
        exact ⟨argument, List.mem_cons_self, rfl, hvalue⟩
      · obtain ⟨other, hother, hconforms⟩ := ih hrest hmem
        exact ⟨other, List.mem_cons_of_mem _ hother, hconforms⟩
    | absent _ _ hrest =>
      obtain ⟨other, hother, hconforms⟩ := ih hrest hmem
      exact ⟨other, List.mem_cons_of_mem _ hother, hconforms⟩

end MembersConform

/-! ## §4 Schemas -/

/-- The default of an argument or input field is a value of its type. -/
def Argument.DefaultConforms (types : TypeId → Option InputBody) (argument : Argument) : Prop :=
  ∀ value, argument.default = some value → Conforms types argument.type value

/-- What the bodies of types are trusted with: a scalar takes nothing for null,
and the stored default of an argument or input field is a value of its type. -/
def TypeBody.Trusted {m : Type → Type} [Monad m] [MonadAttach m]
    (types : TypeId → Option InputBody) : TypeBody m → Prop
  | .scalar coerce => ¬ coerce.Gives .null
  | .inputObject declared => ∀ field ∈ declared, field.DefaultConforms types
  | .object fields =>
    ∀ field ∈ fields, ∀ argument ∈ field.arguments, argument.DefaultConforms types

/-- A schema all of whose types are trusted. -/
def Schema.Trusted {m : Type → Type} [Monad m] [MonadAttach m] (schema : Schema m) : Prop :=
  ∀ type ∈ schema.types, type.body.Trusted schema.inputBody?

/-- The body found at a position is trusted. -/
theorem Schema.Trusted.body {m : Type → Type} [Monad m] [MonadAttach m] {schema : Schema m}
    (h : schema.Trusted) {id : TypeId} {body : TypeBody m} (hbody : schema.body? id = some body) :
    body.Trusted schema.inputBody? := by
  obtain ⟨type, htype, rfl⟩ := exists_of_body? hbody
  exact h type htype

/-! ## §5 Built-ins -/

/-- No built-in scalar takes anything for null. -/
theorem Scalar.ne_null_of_builtIn {scalar : Bytes × (Value → Option Value)}
    (h : scalar ∈ Scalar.builtIn) (value : Value) : scalar.2 value ≠ some .null := by
  unfold builtIn at h
  simp only [List.mem_cons, List.not_mem_nil, or_false] at h
  rcases h with h | h | h | h | h <;> subst h
  · cases value <;> simp [string?]
  · show int? value ≠ some .null
    unfold int?
    split
    · split <;> simp
    · simp
  · show float? value ≠ some .null
    unfold float?
    split
    · simp
    · simp
    · split <;> simp
    · intro hmap
      obtain ⟨_, _, hx⟩ := Option.map_eq_some_iff.1 hmap
      cases hx
    · simp
  · show boolean? value ≠ some .null
    unfold boolean?
    split
    · simp
    · split
      · simp
      · split <;> simp
    · simp
  · cases value <;> simp [id?]

/-- The built-in types are trusted in every schema. -/
theorem Build.trusted_of_builtInTypes {m : Type → Type} [Monad m] [LawfulMonad m]
    [MonadAttach m] [LawfulMonadAttach m] {type : NamedType m} (h : type ∈ builtInTypes)
    (types : TypeId → Option InputBody) : type.body.Trusted types := by
  obtain ⟨scalar, hscalar, rfl⟩ := List.mem_map.1 h
  intro hgives
  obtain ⟨value, hvalue⟩ := hgives
  exact Scalar.ne_null_of_builtIn hscalar value
    (LawfulMonadAttach.eq_of_canReturn_pure hvalue)

end GraphQL
