/-
GraphQL.Proofs.Document.Nesting — how deep a document nests, and documents that
are well formed apart from that.

  §1 Nesting    — selections, lists, objects and list types, counted together.
  §2 Documents  — well-formed documents without a bound on their nesting.
  §3 Limits     — which of them are well formed.

The bound on nesting is one for all four kinds, but a written type has one level
more than it has lists: its name counts. So a bound on the nesting of a document
does not bound the levels of its types by the same number.
-/
import GraphQL.Proofs.Document.WellFormed

namespace GraphQL

/-! ## §1 Nesting -/

/-- How many lists a type has around its name. -/
def TypeExpr.listDepth {α : Type} : TypeExpr α → Nat
  | .named _ => 0
  | .list element => element.listDepth + 1
  | .nonNull inner => inner.listDepth

/-- The nesting of a variable's type, or of its default if that is deeper. -/
def VariableDefinition.nesting (definition : VariableDefinition) : Nat :=
  max definition.type.listDepth (greatest Literal.depth definition.default.toList)

/-- The deepest nesting in an operation: in its variables, or below its selections,
which are a level of their own. -/
def Operation.nesting (operation : Operation) : Nat :=
  max (greatest VariableDefinition.nesting operation.variableDefinitions)
    (greatest (fun field => field.depth + 1) operation.selections)

/-- The deepest nesting in a document. -/
def Document.nesting (document : Document) : Nat :=
  greatest Operation.nesting document.operations

theorem TypeExpr.levels_eq_listDepth {α : Type} (type : TypeExpr α) :
    type.levels = type.listDepth + 1 := by
  induction type with
  | named _ => rfl
  | list element ih => rw [levels, listDepth, ih]
  | nonNull inner ih => rw [levels, listDepth, ih]

theorem VariableDefinition.nesting_le {definition : VariableDefinition} {bound : Nat} :
    definition.nesting ≤ bound ↔ definition.type.listDepth ≤ bound ∧
      ∀ value ∈ definition.default, value.depth ≤ bound := by
  rw [nesting, Nat.max_le, greatest_le]
  simp

theorem Operation.nesting_le {operation : Operation} {bound : Nat} :
    operation.nesting ≤ bound ↔
      (∀ definition ∈ operation.variableDefinitions, definition.nesting ≤ bound) ∧
        ∀ field ∈ operation.selections, field.depth + 1 ≤ bound := by
  rw [nesting, Nat.max_le, greatest_le, greatest_le]

theorem Document.nesting_le {document : Document} {bound : Nat} :
    document.nesting ≤ bound ↔ ∀ operation ∈ document.operations, operation.nesting ≤ bound :=
  greatest_le

/-! ## §2 Documents -/

/-- What is asked of a variable definition, its nesting apart. -/
structure VariableDefinition.Regular (definition : VariableDefinition) : Prop where
  typeName : isName definition.type.leaf = true
  marks : definition.type.MarkedOnce
  default : ∀ value ∈ definition.default, value.WellFormed
  constant : ∀ value ∈ definition.default, value.Constant

/-- What is asked of an operation, its nesting apart. -/
structure Operation.Regular (operation : Operation) : Prop where
  name : ∀ name ∈ operation.name, isName name = true
  variableNames : ProperNames (operation.variableDefinitions.map (·.name))
  definitions : ∀ definition ∈ operation.variableDefinitions, definition.Regular
  nonempty : operation.selections ≠ []
  fields : ∀ field ∈ operation.selections, field.WellFormed

/-- What is asked of a document, its nesting apart. -/
structure Document.Regular (document : Document) : Prop where
  nonempty : document.operations ≠ []
  names : (document.operations.filterMap (·.name)).Nodup
  anonymous : 1 < document.operations.length →
    ∀ operation ∈ document.operations, operation.name ≠ none
  operations : ∀ operation ∈ document.operations, operation.Regular

/-- An operation without a name is the only one, so all names differ. -/
theorem Document.Regular.nodup {document : Document} (h : document.Regular) :
    (document.operations.map (·.name)).Nodup := by
  by_cases hmany : 1 < document.operations.length
  · rw [List.Nodup, List.pairwise_map]
    refine (List.pairwise_filterMap.mp h.names).imp_of_mem ?_
    intro first second hfirst _ hne heq
    obtain ⟨name, hname⟩ := Option.ne_none_iff_exists'.mp (h.anonymous hmany first hfirst)
    exact hne name hname name (heq ▸ hname) rfl
  · match document.operations, hmany with
    | [], _ => simp
    | [operation], _ => simp
    | first :: second :: more, hmany => simp at hmany

/-! ## §3 Limits -/

/-- The nesting is within the limit, and no type has as many lists as the limit: its
name is a level as well. -/
def VariableDefinition.WithinLimit (definition : VariableDefinition) : Prop :=
  definition.nesting ≤ Reading.nestingLimit ∧ definition.type.listDepth ≠ Reading.nestingLimit

theorem VariableDefinition.withinLimit_iff {definition : VariableDefinition} :
    definition.WithinLimit ↔ definition.type.levels ≤ Reading.nestingLimit ∧
      ∀ value ∈ definition.default, value.depth ≤ Reading.nestingLimit := by
  rw [WithinLimit, nesting_le, TypeExpr.levels_eq_listDepth]
  constructor
  · rintro ⟨⟨htype, hdefault⟩, hne⟩
    exact ⟨by omega, hdefault⟩
  · rintro ⟨htype, hdefault⟩
    exact ⟨⟨by omega, hdefault⟩, by omega⟩

/-- Every variable definition is within the limit, and so are the selections. -/
structure Operation.WithinLimit (operation : Operation) : Prop where
  definitions : ∀ definition ∈ operation.variableDefinitions, definition.WithinLimit
  selections : ∀ field ∈ operation.selections, field.depth + 1 ≤ Reading.nestingLimit

/-- A document whose nesting is within the limit, and that has no type with as many
lists as the limit. -/
theorem Document.withinLimit_iff {document : Document} :
    (∀ operation ∈ document.operations, operation.WithinLimit) ↔
      document.nesting ≤ Reading.nestingLimit ∧ ∀ operation ∈ document.operations,
        ∀ definition ∈ operation.variableDefinitions,
          definition.type.listDepth ≠ Reading.nestingLimit := by
  simp only [Document.nesting_le, Operation.nesting_le]
  constructor
  · intro h
    exact ⟨fun o ho => ⟨fun d hd => ((h o ho).definitions d hd).1, (h o ho).selections⟩,
      fun o ho d hd => ((h o ho).definitions d hd).2⟩
  · rintro ⟨hnesting, htypes⟩ o ho
    exact ⟨fun d hd => ⟨(hnesting o ho).1 d hd, htypes o ho d hd⟩, (hnesting o ho).2⟩

theorem VariableDefinition.wellFormed_iff {definition : VariableDefinition} :
    definition.WellFormed ↔ definition.Regular ∧ definition.WithinLimit := by
  rw [withinLimit_iff]
  constructor
  · exact fun h => ⟨⟨h.typeName, h.marks, h.default, h.constant⟩, h.levels, h.depth⟩
  · rintro ⟨h, hlevels, hdepth⟩
    exact ⟨h.typeName, h.marks, hlevels, h.default, h.constant, hdepth⟩

theorem Operation.wellFormed_iff {operation : Operation} :
    operation.WellFormed ↔ operation.Regular ∧ operation.WithinLimit := by
  constructor
  · intro h
    have hdefinitions := fun d hd => VariableDefinition.wellFormed_iff.mp (h.definitions d hd)
    exact ⟨⟨h.name, h.variableNames, fun d hd => (hdefinitions d hd).1, h.nonempty, h.fields⟩,
      fun d hd => (hdefinitions d hd).2, h.depth⟩
  · rintro ⟨h, hlimit⟩
    exact ⟨h.name, h.variableNames, fun d hd => VariableDefinition.wellFormed_iff.mpr
      ⟨h.definitions d hd, hlimit.definitions d hd⟩, h.nonempty, h.fields, hlimit.selections⟩

theorem Document.wellFormed_iff {document : Document} :
    document.WellFormed ↔ document.Regular ∧
      ∀ operation ∈ document.operations, operation.WithinLimit := by
  constructor
  · intro h
    have hoperations := fun o ho => Operation.wellFormed_iff.mp (h.operations o ho)
    exact ⟨⟨h.nonempty, h.names, h.anonymous, fun o ho => (hoperations o ho).1⟩,
      fun o ho => (hoperations o ho).2⟩
  · rintro ⟨h, hlimit⟩
    exact ⟨h.nonempty, h.names, h.anonymous, fun o ho =>
      Operation.wellFormed_iff.mpr ⟨h.operations o ho, hlimit o ho⟩⟩

end GraphQL
