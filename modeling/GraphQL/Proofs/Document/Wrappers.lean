/-
GraphQL.Proofs.Document.Wrappers — types as they are read, wrapper by wrapper.

  §1 Types  — what is read under a mark, and induction along it.
  §2 Input  — coercion takes off one wrapper at a time.
  §3 Values — and so does completion.

A mark that stands before a list or a name says no more than that null is out. No type is
marked twice in a row. If one were, then a list below both marks would not be seen, and the
name inside would be taken for the type.
-/
import GraphQL.Execution.Selection

namespace GraphQL

/-! ## §1 Types -/

namespace TypeExpr

variable {α : Type}

/-- What is read under a mark: the type itself, or its name alone if it is marked again. -/
def unmarked : TypeExpr α → TypeExpr α
  | .nonNull inner => .named inner.leaf
  | type => type

@[simp]
theorem leaf_unmarked (type : TypeExpr α) : type.unmarked.leaf = type.leaf := by
  cases type <;> rfl

theorem unmarked_unmarked (type : TypeExpr α) : type.unmarked.unmarked = type.unmarked := by
  cases type <;> rfl

theorem nullable_unmarked (type : TypeExpr α) : type.unmarked.nullable = type.unmarked := by
  cases type <;> rfl

theorem unmarked_eq (type : TypeExpr α) (h : type.isNonNull = false) : type.unmarked = type := by
  cases type with
  | named _ => rfl
  | list _ => rfl
  | nonNull _ => cases h

/-- Induction along what is read: a name, a list by its element, a mark by what is under it. -/
@[elab_as_elim]
theorem reading {P : TypeExpr α → Prop} (named : ∀ leaf, P (.named leaf))
    (list : ∀ element, P element → P (.list element))
    (nonNull : ∀ inner : TypeExpr α, P inner.unmarked → P (.nonNull inner)) :
    ∀ type, P type
  | .named leaf => named leaf
  | .list element => list element (reading named list nonNull element)
  | .nonNull (.named leaf) => nonNull _ (named leaf)
  | .nonNull (.list element) => nonNull _ (list element (reading named list nonNull element))
  | .nonNull (.nonNull inner) => nonNull _ (named inner.leaf)

end TypeExpr

/-! ## §2 Input -/

namespace Coercion

variable {m : Type → Type} [Monad m] {schema : Schema m} {location : Option Location}

theorem single_nonNull (atName : TypeId → Bytes → Engine m Coerced) (inner : TypeExpr TypeId)
    (path : Bytes) :
    single atName (.nonNull inner) path = single atName inner.unmarked path := by
  cases inner <;> rfl

theorem valueList_nonNull (items : List (Coercion m)) (inner : TypeExpr TypeId) (path : Bytes) :
    valueList schema location items (.nonNull inner) path =
      valueList schema location items inner.unmarked path := by
  cases inner <;> rfl

theorem list_nonNull (items : List (Option Location × Coercion m)) (inner : TypeExpr TypeId)
    (path : Bytes) :
    list schema location items (.nonNull inner) path =
      list schema location items inner.unmarked path := by
  cases inner <;> rfl

end Coercion

/-- A mark tells null apart, and nothing else. -/
theorem Value.coerce_nonNull {m : Type → Type} [Monad m] {schema : Schema m}
    {location : Option Location} {value : Value} (h : value ≠ .null) (inner : TypeExpr TypeId)
    (path : Bytes) : value.coerce schema location (.nonNull inner) path =
      value.coerce schema location inner.unmarked path := by
  cases value with
  | null => exact absurd rfl h
  | list items => exact Coercion.valueList_nonNull _ inner path
  | _ => exact Coercion.single_nonNull _ inner path

/-! ## §3 Values -/

namespace Execution

variable {m : Type → Type} [Monad m] {schema : Schema m}
  {select : TypeId → Value → ResponsePath → Engine m Completed}

theorem complete_nonNull (inner : TypeExpr TypeId) (value : Value) (path : ResponsePath) :
    complete schema select (.nonNull inner) value path =
      complete schema select inner.unmarked value path := by
  cases inner <;> rfl

theorem complete_named (id : TypeId) (value : Value) (path : ResponsePath) :
    complete schema select (.named id) value path = match value with
      | .null => return (.null, [])
      | value => match schema.type? id with
        | none => throw (.unknownType id)
        | some type => if type.isObject then select id value path else return (value, []) := by
  cases value <;> rfl

end Execution

end GraphQL
