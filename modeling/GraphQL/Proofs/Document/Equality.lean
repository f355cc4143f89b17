/-
GraphQL.Proofs.Document.Equality — documents are told apart.

  §1 Literals   — written values compared part by part.
  §2 Fields     — fields compared with their selections.
  §3 Documents  — what is made of both is told apart, too.

What a given text is read as can be decided by reading it, if documents can be compared.
Positions are parts like any other here.
-/
import GraphQL.Document.Basic
import Mathlib.Control.Monad.Basic

namespace GraphQL

/-! ## §1 Literals -/

namespace Literal

mutual

/-- The literals are the same, in every part. -/
def same : Literal → Literal → Bool
  | .null location, .null other => location == other
  | .int location value, .int other given => location == other && value == given
  | .float location value, .float other given => location == other && value == given
  | .string location text, .string other given => location == other && text == given
  | .boolean location value, .boolean other given => location == other && value == given
  | .enum location word, .enum other given => location == other && word == given
  | .list location items, .list other others => location == other && sameItems items others
  | .object location fields, .object other others => location == other && sameEntries fields others
  | .reference location name, .reference other given => location == other && name == given
  | _, _ => false

/-- The items are the same, one after another. -/
def sameItems : List Literal → List Literal → Bool
  | [], [] => true
  | item :: items, other :: others => item.same other && sameItems items others
  | _, _ => false

/-- So are the entries, each with its name and its position. -/
def sameEntries : List (Entry Literal) → List (Entry Literal) → Bool
  | [], [] => true
  | ⟨name, value, location⟩ :: entries, ⟨otherName, other, otherLocation⟩ :: others =>
    name == otherName && value.same other && location == otherLocation &&
      sameEntries entries others
  | _, _ => false

end

mutual

theorem same_iff : ∀ literal other : Literal, literal.same other = true ↔ literal = other
  | .null _, other => by cases other <;> simp [same]
  | .int _ _, other => by cases other <;> simp [same]
  | .float _ _, other => by cases other <;> simp [same]
  | .string _ _, other => by cases other <;> simp [same]
  | .boolean _ _, other => by cases other <;> simp [same]
  | .enum _ _, other => by cases other <;> simp [same]
  | .list _ items, other => by cases other <;> simp [same, sameItems_iff items]
  | .object _ fields, other => by cases other <;> simp [same, sameEntries_iff fields]
  | .reference _ _, other => by cases other <;> simp [same]

theorem sameItems_iff : ∀ items others : List Literal,
    sameItems items others = true ↔ items = others
  | [], others => by cases others <;> simp [sameItems]
  | item :: items, others => by
    cases others <;> simp [sameItems, same_iff item, sameItems_iff items]

theorem sameEntries_iff : ∀ entries others : List (Entry Literal),
    sameEntries entries others = true ↔ entries = others
  | [], others => by cases others <;> simp [sameEntries]
  | ⟨name, value, location⟩ :: entries, others => by
    cases others with
    | nil => simp [sameEntries]
    | cons other others =>
      obtain ⟨otherName, other, otherLocation⟩ := other
      simp [sameEntries, same_iff value, sameEntries_iff entries, and_assoc]

end

instance : DecidableEq Literal := fun literal other => decidable_of_iff _ (same_iff literal other)

end Literal

/-! ## §2 Fields -/

deriving instance DecidableEq for Entry

namespace Field

mutual

/-- The fields are the same, and so is what they select. -/
def same : Field → Field → Bool
  | ⟨aliasName, name, arguments, selections, location⟩,
    ⟨otherAlias, otherName, otherArguments, others, otherLocation⟩ =>
    aliasName == otherAlias && name == otherName && arguments == otherArguments &&
      location == otherLocation && sameAll selections others

/-- The fields are the same, one after another. -/
def sameAll : List Field → List Field → Bool
  | [], [] => true
  | field :: fields, other :: others => field.same other && sameAll fields others
  | _, _ => false

end

mutual

theorem same_iff : ∀ field other : Field, field.same other = true ↔ field = other
  | ⟨aliasName, name, arguments, selections, location⟩, other => by
    obtain ⟨otherAlias, otherName, otherArguments, others, otherLocation⟩ := other
    simp [same, sameAll_iff selections, and_assoc, and_comm (a := location = otherLocation)]

theorem sameAll_iff : ∀ fields others : List Field, sameAll fields others = true ↔ fields = others
  | [], others => by cases others <;> simp [sameAll]
  | field :: fields, others => by
    cases others <;> simp [sameAll, same_iff field, sameAll_iff fields]

end

instance : DecidableEq Field := fun field other => decidable_of_iff _ (same_iff field other)

end Field

/-! ## §3 Documents -/

deriving instance DecidableEq for VariableDefinition
deriving instance DecidableEq for Operation
deriving instance DecidableEq for Document

end GraphQL
