/-
GraphQL.Proofs.Document.Alias — another alias for one field of a document.

  §1 Places    — a field by the operation, the fields that hold it, and its index.
  §2 Siblings  — the fields whose keys stand beside that of a field.
  §3 Selection — the operations that are run are the same, but for the field.

A place is told by indices, since two fields may have one key, and one of them
may be the one that is meant.
-/
import GraphQL.Execution.Request
import Mathlib.Data.List.Basic

namespace GraphQL

/-! ## §1 Places -/

/-- The place of a field: the operation, the fields that hold it from the top on, and the
index among the fields beside it. -/
structure FieldPlace where
  operation : Nat
  holders : List Nat
  index : Nat

/-- The field with another alias. -/
def Field.withAlias (field : Field) (key : Bytes) : Field := { field with aliasName := some key }

/-- The fields that the holders lead to. -/
def selectionsAt : List Nat → List Field → List Field
  | [], fields => fields
  | holder :: holders, fields =>
    match fields[holder]? with
    | none => []
    | some field => selectionsAt holders field.selections

/-- The fields with an alias for the one at the index, below the holders. -/
def aliasAt (key : Bytes) (index : Nat) : List Nat → List Field → List Field
  | [], fields => fields.mapIdx fun i field => if i = index then field.withAlias key else field
  | holder :: holders, fields => fields.mapIdx fun i field =>
    if i = holder then { field with selections := aliasAt key index holders field.selections }
    else field

/-- The operation with an alias for one of its fields. -/
def Operation.withAlias (operation : Operation) (place : FieldPlace) (key : Bytes) : Operation :=
  { operation with selections := aliasAt key place.index place.holders operation.selections }

namespace Document

/-- The field of a place. -/
def field? (document : Document) (place : FieldPlace) : Option Field :=
  document.operations[place.operation]?.bind fun operation =>
    (selectionsAt place.holders operation.selections)[place.index]?

/-- The document with an alias for the field of a place. -/
def withAlias (document : Document) (place : FieldPlace) (key : Bytes) : Document :=
  ⟨document.operations.mapIdx fun i operation =>
    if i = place.operation then operation.withAlias place key else operation⟩

/-! ## §2 Siblings -/

/-- When an operation has its turn, if it is run at all: the operation that is named is the
only one, and without a name all have theirs in order. -/
def turn? (document : Document) (name : Option Bytes) (operation : Nat) : Option Nat :=
  match name with
  | none => some operation
  | some name =>
    if document.operations.findIdx? (fun other => other.name.getD [] == name) = some operation
    then some 0 else none

/-- The field stands beside that of the place: in the selections of one field, or at the top
of any operation that is run. -/
inductive Sibling (document : Document) (name : Option Bytes) (place : FieldPlace) : Field → Prop
  | top {i j : Nat} {operation : Operation} {field : Field} : place.holders = [] →
    (document.turn? name i).isSome = true → document.operations[i]? = some operation →
    operation.selections[j]? = some field → (i, j) ≠ (place.operation, place.index) →
    Sibling document name place field
  | inner {j : Nat} {operation : Operation} {field : Field} : place.holders ≠ [] →
    document.operations[place.operation]? = some operation →
    (selectionsAt place.holders operation.selections)[j]? = some field → j ≠ place.index →
    Sibling document name place field

end Document

/-! ## §3 Selection -/

variable {place : FieldPlace} {key : Bytes}

/-- A change of one field of an operation that is made on a condition. -/
theorem Operation.ite_change (p : Prop) [Decidable p] (operation changed : Operation) (index : Nat)
    (change : Field → Field)
    (h : changed = { operation with
      selections := operation.selections.mapIdx fun j field =>
        if j = index then change field else field }) :
    (if p then changed else operation) = { operation with
      selections := operation.selections.mapIdx fun j field =>
        if p ∧ j = index then change field else field } := by
  by_cases hp : p
  · simp only [h, hp, if_true, true_and]
  · have hsame : (operation.selections.mapIdx fun _ field => field) = operation.selections :=
      List.mapIdx_eq_iff.2 (by simp)
    simp only [hp, if_false, false_and, hsame]

/-- An alias leaves no selections empty that were not so before. -/
theorem isEmpty_aliasAt (index : Nat) (holders : List Nat) (fields : List Field) :
    (aliasAt key index holders fields).isEmpty = fields.isEmpty := by
  cases holders <;> cases fields <;> simp [aliasAt]

namespace Document

variable (document : Document)

/-- An alias leaves the names of operations. -/
theorem names_withAlias : (document.withAlias place key).operations.map (·.name) =
    document.operations.map (·.name) := by
  apply List.ext_getElem?
  intro i
  simp only [withAlias, List.getElem?_map, List.getElem?_mapIdx, Option.map_map]
  refine congrArg (fun f => document.operations[i]?.map f) (funext fun operation => ?_)
  simp only [Function.comp_apply]
  split <;> rfl

/-- So the one that is named is found in its place. -/
theorem findIdx?_withAlias (name : Bytes) :
    (document.withAlias place key).operations.findIdx? (·.name.getD [] == name) =
      document.operations.findIdx? (·.name.getD [] == name) := by
  have hnames (operations : List Operation) : operations.findIdx? (·.name.getD [] == name) =
      (operations.map (·.name)).findIdx? (·.getD [] == name) := by
    rw [List.findIdx?_map]
    rfl
  rw [hnames, hnames, names_withAlias]

end Document

namespace Document

variable {document : Document} {name : Option Bytes} {i k l : Nat}

/-- Two operations do not have one turn. -/
theorem turn?_injective (hk : document.turn? name k = some i)
    (hl : document.turn? name l = some i) : k = l := by
  cases name with
  | none => exact Option.some.inj (hk.trans hl.symm)
  | some name =>
    unfold turn? at hk hl
    dsimp only at hk hl
    split at hk
    · rename_i hfound
      split at hl
      · rename_i hother
        exact Option.some.inj (hfound.symm.trans hother)
      · cases hl
    · cases hk

/-- Every operation that is run has its turn. -/
theorem exists_turn {operation : Operation}
    (h : (Request.select document name).1[i]? = some operation) :
    ∃ k, document.turn? name k = some i ∧ document.operations[k]? = some operation := by
  cases name with
  | none => exact ⟨i, rfl, h⟩
  | some name =>
    simp only [Request.select, operation?, List.find?_eq_bind_findIdx?_getElem?] at h
    rcases Option.eq_none_or_eq_some
      (document.operations.findIdx? (·.name.getD [] == name)) with hfound | ⟨k, hfound⟩
    · simp [hfound] at h
    · rw [hfound, Option.bind_some] at h
      cases hoperation : document.operations[k]? with
      | none => simp [hoperation] at h
      | some found =>
        rw [hoperation] at h
        cases i with
        | succ i => cases h
        | zero =>
          cases h
          exact ⟨k, by simp [turn?, hfound], hoperation⟩

/-- The operation that is run in a turn is the one that has it. -/
theorem operation_of_turn {operation : Operation} (hturn : document.turn? name k = some i)
    (h : (Request.select document name).1[i]? = some operation) :
    document.operations[k]? = some operation := by
  obtain ⟨l, hl, hoperation⟩ := exists_turn h
  rwa [turn?_injective hturn hl]

/-- A field at the top of an operation that is run is the one of the place, or beside it. -/
theorem sibling_of_top {index j : Nat} {node field : Field} {operation : Operation}
    (hnode : document.field? ⟨k, [], index⟩ = some node)
    (h : (Request.select document name).1[i]? = some operation)
    (hfield : operation.selections[j]? = some field) :
    document.turn? name k = some i ∧ j = index ∧ field = node ∨
      ¬(document.turn? name k = some i ∧ j = index) ∧
        document.Sibling name ⟨k, [], index⟩ field := by
  by_cases hplace : document.turn? name k = some i ∧ j = index
  · obtain ⟨hturn, rfl⟩ := hplace
    refine .inl ⟨hturn, rfl, ?_⟩
    rw [field?, operation_of_turn hturn h] at hnode
    exact Option.some.inj (hfield.symm.trans hnode)
  · obtain ⟨l, hl, hoperation⟩ := exists_turn h
    refine .inr ⟨hplace, .top rfl (by rw [hl]; rfl) hoperation hfield fun hsame => ?_⟩
    obtain ⟨rfl, rfl⟩ := Prod.mk.inj hsame
    exact hplace ⟨hl, rfl⟩

end Document

/-- The operations that are run, with an alias for the field if its operation has a turn. -/
theorem Request.select_withAlias (document : Document) (name : Option Bytes) :
    select (document.withAlias place key) name =
      ((select document name).1.mapIdx fun i operation =>
        if document.turn? name place.operation = some i then operation.withAlias place key
        else operation, (select document name).2) := by
  cases name with
  | none =>
    simp only [select, Document.turn?, Document.withAlias, Option.some.injEq]
    congr 2
    funext i operation
    simp only [eq_comm]
  | some name =>
    simp only [select, Document.turn?, Document.operation?, List.find?_eq_bind_findIdx?_getElem?,
      Document.findIdx?_withAlias]
    rcases Option.eq_none_or_eq_some
      (document.operations.findIdx? (·.name.getD [] == name)) with hfound | ⟨i, hfound⟩
    · simp only [hfound]
      rfl
    · simp only [hfound, Option.bind_some, Document.withAlias, List.getElem?_mapIdx]
      cases document.operations[i]? with
      | none => rfl
      | some operation => by_cases hi : i = place.operation <;> simp [hi]

end GraphQL
