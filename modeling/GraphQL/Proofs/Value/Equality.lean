/-
GraphQL.Proofs.Value.Equality — values are told apart.

  §1 Comparison  — values compared part by part.
  §2 Decision    — the comparison decides equality.
  §3 Answers     — what is made of values is told apart, too.

What a given schema answers to a given request can be decided by running it, if the
answers can be compared.
-/
import GraphQL.Execution.Request
import Mathlib.Control.Monad.Basic

namespace GraphQL

namespace Value

/-! ## §1 Comparison -/

mutual

/-- The values are the same, in every part. -/
def same : Value → Value → Bool
  | .null, .null => true
  | .bool value, .bool other => value == other
  | .int value, .int other => value == other
  | .uint value, .uint other => value == other
  | .float value, .float other => value == other
  | .string text, .string other => text == other
  | .list items, .list others => sameItems items others
  | .object members, .object others => sameMembers members others
  | _, _ => false

/-- The items are the same, one after another. -/
def sameItems : List Value → List Value → Bool
  | [], [] => true
  | item :: items, other :: others => item.same other && sameItems items others
  | _, _ => false

/-- So are the members, each with its key. -/
def sameMembers : List (Bytes × Value) → List (Bytes × Value) → Bool
  | [], [] => true
  | (key, value) :: members, (otherKey, other) :: others =>
    key == otherKey && value.same other && sameMembers members others
  | _, _ => false

end

/-! ## §2 Decision -/

mutual

theorem same_iff : ∀ value other : Value, value.same other = true ↔ value = other
  | .null, other => by cases other <;> simp [same]
  | .bool _, other => by cases other <;> simp [same]
  | .int _, other => by cases other <;> simp [same]
  | .uint _, other => by cases other <;> simp [same]
  | .float _, other => by cases other <;> simp [same]
  | .string _, other => by cases other <;> simp [same]
  | .list items, other => by cases other <;> simp [same, sameItems_iff items]
  | .object members, other => by cases other <;> simp [same, sameMembers_iff members]

theorem sameItems_iff : ∀ items others : List Value, sameItems items others = true ↔ items = others
  | [], others => by cases others <;> simp [sameItems]
  | item :: items, others => by
    cases others <;> simp [sameItems, same_iff item, sameItems_iff items]

theorem sameMembers_iff : ∀ members others : List (Bytes × Value),
    sameMembers members others = true ↔ members = others
  | [], others => by cases others <;> simp [sameMembers]
  | (key, value) :: members, others => by
    cases others with
    | nil => simp [sameMembers]
    | cons other others =>
      obtain ⟨otherKey, other⟩ := other
      simp [sameMembers, same_iff value, sameMembers_iff members, and_assoc]

end

instance : DecidableEq Value := fun value other => decidable_of_iff _ (same_iff value other)

end Value

/-! ## §3 Answers -/

deriving instance DecidableEq for Outcome
deriving instance DecidableEq for Coerced
deriving instance DecidableEq for VariableBindings
deriving instance DecidableEq for Response
deriving instance DecidableEq for Refusal

/-- What a run without effects gives is compared as it is. -/
instance decidableEqId {α : Type} [DecidableEq α] : DecidableEq (Id α) :=
  inferInstanceAs (DecidableEq α)

end GraphQL
