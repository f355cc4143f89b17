/-
GraphQL.Proofs.Document.Unplaced — documents up to their positions.

  §1 Literals    — entries and the literals inside.
  §2 Selections  — fields and the fields nested in them.
  §3 Operations  — variable definitions, operations, documents.

`unplaced` puts every position at the start of the text and leaves all else as
it is. Two documents that agree after it differ in positions only.
-/
import GraphQL.Document.Basic

namespace GraphQL

/-! ## §1 Literals -/

/-- The entry with its value changed and its position forgotten. -/
def Entry.unplacedBy {α : Type} (value : α → α) (entry : Entry α) : Entry α :=
  ⟨entry.name, value entry.value, .start⟩

namespace Literal

mutual

/-- The literal, all positions forgotten. -/
def unplaced : Literal → Literal
  | .null _ => .null .start
  | .int _ n => .int .start n
  | .float _ x => .float .start x
  | .string _ text => .string .start text
  | .boolean _ b => .boolean .start b
  | .enum _ word => .enum .start word
  | .list _ items => .list .start (itemsUnplaced items)
  | .object _ fields => .object .start (fieldsUnplaced fields)
  | .reference _ variableName => .reference .start variableName

/-- The items of a list, all positions forgotten. -/
def itemsUnplaced : List Literal → List Literal
  | [] => []
  | item :: rest => unplaced item :: itemsUnplaced rest

/-- The fields of an object, all positions forgotten. -/
def fieldsUnplaced : List (Entry Literal) → List (Entry Literal)
  | [] => []
  | ⟨name, value, _⟩ :: rest => ⟨name, unplaced value, .start⟩ :: fieldsUnplaced rest

end

theorem itemsUnplaced_eq (items : List Literal) : itemsUnplaced items = items.map unplaced := by
  induction items with
  | nil => rfl
  | cons item rest ih => rw [itemsUnplaced, ih, List.map_cons]

theorem fieldsUnplaced_eq (fields : List (Entry Literal)) :
    fieldsUnplaced fields = fields.map (Entry.unplacedBy unplaced) := by
  induction fields with
  | nil => rfl
  | cons field rest ih => rw [fieldsUnplaced, ih, List.map_cons]; rfl

theorem unplaced_list (location : Location) (items : List Literal) :
    (list location items).unplaced = .list .start (items.map unplaced) := by
  rw [unplaced, itemsUnplaced_eq]

theorem unplaced_object (location : Location) (fields : List (Entry Literal)) :
    (object location fields).unplaced =
      .object .start (fields.map (Entry.unplacedBy unplaced)) := by
  rw [unplaced, fieldsUnplaced_eq]

end Literal

/-- The argument or object field, all positions forgotten. -/
def Entry.unplaced : Entry Literal → Entry Literal := Entry.unplacedBy Literal.unplaced

/-! ## §2 Selections -/

namespace Field

mutual

/-- The field, all positions forgotten. -/
def unplaced : Field → Field
  | ⟨aliasName, name, arguments, selections, _⟩ =>
    ⟨aliasName, name, arguments.map Entry.unplaced, nestedUnplaced selections, .start⟩

/-- Nested selections, all positions forgotten. -/
def nestedUnplaced : List Field → List Field
  | [] => []
  | field :: rest => unplaced field :: nestedUnplaced rest

end

theorem nestedUnplaced_eq (fields : List Field) : nestedUnplaced fields = fields.map unplaced := by
  induction fields with
  | nil => rfl
  | cons field rest ih => rw [nestedUnplaced, ih, List.map_cons]

end Field

/-! ## §3 Operations -/

/-- The variable definition, all positions forgotten. -/
def VariableDefinition.unplaced (definition : VariableDefinition) : VariableDefinition :=
  ⟨definition.name, definition.type, definition.default.map Literal.unplaced, .start⟩

/-- The operation, all positions forgotten. -/
def Operation.unplaced (operation : Operation) : Operation :=
  ⟨operation.kind, operation.name, operation.variableDefinitions.map VariableDefinition.unplaced,
    operation.selections.map Field.unplaced, .start⟩

/-- The document, all positions forgotten. -/
def Document.unplaced (document : Document) : Document :=
  ⟨document.operations.map Operation.unplaced⟩

/-- What agrees up to positions has the same keys, if keys have no positions. -/
theorem map_eq_of_unplaced {α β γ : Type} {strip : α → γ} {key : α → β} (keyOf : γ → β)
    {found sources : List α} (h : found.map strip = sources.map strip)
    (hkey : ∀ a, keyOf (strip a) = key a) : found.map key = sources.map key := by
  have := congrArg (List.map keyOf) h
  simpa [Function.comp_def, hkey] using this

/-- A key that is new for the one list is new for the other. -/
theorem any_eq_false_of_unplaced {α β : Type} [BEq β] [LawfulBEq β] {key : α → β} {x : β}
    {found sources : List α} (h : found.map key = sources.map key)
    (hnew : ∀ a ∈ sources, key a ≠ x) : found.any (fun a => key a == x) = false := by
  have hany (as : List α) : as.any (fun a => key a == x) = (as.map key).any (· == x) := by
    rw [List.any_map]
    rfl
  rw [hany, h, ← hany]
  simpa using hnew

end GraphQL
