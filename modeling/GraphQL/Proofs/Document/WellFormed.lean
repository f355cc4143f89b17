/-
GraphQL.Proofs.Document.WellFormed — which documents are well formed.

  §1 Nodes       — a literal or a field with everything nested in it.
  §2 Nesting     — how deep lists, objects, selections and types nest.
  §3 Parts       — what is asked of single nodes, of types and of variables.
  §4 Documents   — what is asked of operations, and of all of them together.

Conditions on single nodes are asked of every node of a tree, so they hold at
every depth. Nesting is counted along paths: selections, lists and objects add
one level each.
-/
import GraphQL.Reading.Document

namespace GraphQL

/-! ## §1 Nodes -/

namespace Literal

mutual

/-- The literal and every literal inside it. -/
def nodes : Literal → List Literal
  | .list location items => .list location items :: itemNodes items
  | .object location fields => .object location fields :: fieldNodes fields
  | literal => [literal]

/-- Every literal of the items of a list. -/
def itemNodes : List Literal → List Literal
  | [] => []
  | item :: rest => nodes item ++ itemNodes rest

/-- Every literal of the fields of an object. -/
def fieldNodes : List (Entry Literal) → List Literal
  | [] => []
  | ⟨_, value, _⟩ :: rest => nodes value ++ fieldNodes rest

end

theorem itemNodes_eq (items : List Literal) : itemNodes items = items.flatMap nodes := by
  induction items with
  | nil => rfl
  | cons item rest ih => rw [itemNodes, ih, List.flatMap_cons]

theorem fieldNodes_eq (fields : List (Entry Literal)) :
    fieldNodes fields = fields.flatMap fun field => field.value.nodes := by
  induction fields with
  | nil => rfl
  | cons field rest ih => rw [fieldNodes, ih, List.flatMap_cons]

/-- A condition on all nodes of a list literal, part by part. -/
theorem forall_nodes_list {P : Literal → Prop} {location : Location} {items : List Literal} :
    (∀ node ∈ (Literal.list location items).nodes, P node) ↔
      P (.list location items) ∧ ∀ item ∈ items, ∀ node ∈ item.nodes, P node := by
  rw [nodes, itemNodes_eq, List.forall_mem_cons]
  refine and_congr_right fun _ => ⟨fun h item hitem node hnode => ?_, fun h node hnode => ?_⟩
  · exact h node (List.mem_flatMap.mpr ⟨item, hitem, hnode⟩)
  · obtain ⟨item, hitem, hnode⟩ := List.mem_flatMap.mp hnode
    exact h item hitem node hnode

/-- A condition on all nodes of an object literal, part by part. -/
theorem forall_nodes_object {P : Literal → Prop} {location : Location}
    {fields : List (Entry Literal)} :
    (∀ node ∈ (Literal.object location fields).nodes, P node) ↔
      P (.object location fields) ∧ ∀ field ∈ fields, ∀ node ∈ field.value.nodes, P node := by
  rw [nodes, fieldNodes_eq, List.forall_mem_cons]
  refine and_congr_right fun _ => ⟨fun h field hfield node hnode => ?_, fun h node hnode => ?_⟩
  · exact h node (List.mem_flatMap.mpr ⟨field, hfield, hnode⟩)
  · obtain ⟨field, hfield, hnode⟩ := List.mem_flatMap.mp hnode
    exact h field hfield node hnode

end Literal

namespace Field

mutual

/-- The field and every field nested in it. -/
def nodes : Field → List Field
  | ⟨aliasName, name, arguments, selections, location⟩ =>
    ⟨aliasName, name, arguments, selections, location⟩ :: nestedNodes selections

/-- Every field of nested selections. -/
def nestedNodes : List Field → List Field
  | [] => []
  | field :: rest => nodes field ++ nestedNodes rest

end

theorem nestedNodes_eq (fields : List Field) : nestedNodes fields = fields.flatMap nodes := by
  induction fields with
  | nil => rfl
  | cons field rest ih => rw [nestedNodes, ih, List.flatMap_cons]

/-- A condition on all nodes of a field, part by part. -/
theorem forall_nodes {P : Field → Prop} {field : Field} :
    (∀ node ∈ field.nodes, P node) ↔
      P field ∧ ∀ nested ∈ field.selections, ∀ node ∈ nested.nodes, P node := by
  obtain ⟨aliasName, name, arguments, selections, location⟩ := field
  rw [nodes, nestedNodes_eq, List.forall_mem_cons]
  refine and_congr_right fun _ => ⟨fun h nested hnested node hnode => ?_, fun h node hnode => ?_⟩
  · exact h node (List.mem_flatMap.mpr ⟨nested, hnested, hnode⟩)
  · obtain ⟨nested, hnested, hnode⟩ := List.mem_flatMap.mp hnode
    exact h nested hnested node hnode

end Field

/-! ## §2 Nesting -/

/-- The greatest of the numbers that a list's members have. -/
def greatest {α : Type} (size : α → Nat) : List α → Nat
  | [] => 0
  | a :: rest => max (size a) (greatest size rest)

theorem greatest_le {α : Type} {size : α → Nat} {bound : Nat} {items : List α} :
    greatest size items ≤ bound ↔ ∀ a ∈ items, size a ≤ bound := by
  induction items with
  | nil => simp [greatest]
  | cons a rest ih => simp only [greatest, Nat.max_le, ih, List.forall_mem_cons]

namespace Literal

mutual

/-- How many lists and objects lie on the deepest path of a literal. -/
def depth : Literal → Nat
  | .list _ items => itemDepth items + 1
  | .object _ fields => fieldDepth fields + 1
  | _ => 0

/-- The depth of the items of a list. -/
def itemDepth : List Literal → Nat
  | [] => 0
  | item :: rest => max (depth item) (itemDepth rest)

/-- The depth of the fields of an object. -/
def fieldDepth : List (Entry Literal) → Nat
  | [] => 0
  | ⟨_, value, _⟩ :: rest => max (depth value) (fieldDepth rest)

end

theorem itemDepth_eq (items : List Literal) : itemDepth items = greatest depth items := by
  induction items with
  | nil => rfl
  | cons item rest ih => rw [itemDepth, ih, greatest]

theorem fieldDepth_eq (fields : List (Entry Literal)) :
    fieldDepth fields = greatest (fun field => field.value.depth) fields := by
  induction fields with
  | nil => rfl
  | cons field rest ih => rw [fieldDepth, ih, greatest]

theorem depth_list_le {location : Location} {items : List Literal} {bound : Nat} :
    (Literal.list location items).depth ≤ bound + 1 ↔ ∀ item ∈ items, item.depth ≤ bound := by
  rw [depth, itemDepth_eq, Nat.add_le_add_iff_right, greatest_le]

theorem depth_object_le {location : Location} {fields : List (Entry Literal)} {bound : Nat} :
    (Literal.object location fields).depth ≤ bound + 1 ↔
      ∀ field ∈ fields, field.value.depth ≤ bound := by
  rw [depth, fieldDepth_eq, Nat.add_le_add_iff_right, greatest_le]

end Literal

namespace Field

mutual

/-- How many selections, lists and objects lie on the deepest path below a field. -/
def depth : Field → Nat
  | ⟨_, _, arguments, selections, _⟩ =>
    max (greatest (fun argument => argument.value.depth) arguments) (nestedDepth selections)

/-- The depth that nested selections add, none if there are none. -/
def nestedDepth : List Field → Nat
  | [] => 0
  | first :: rest => max (depth first) (restDepth rest) + 1

/-- The depth of fields in a row. -/
def restDepth : List Field → Nat
  | [] => 0
  | field :: rest => max (depth field) (restDepth rest)

end

theorem restDepth_eq (fields : List Field) : restDepth fields = greatest depth fields := by
  induction fields with
  | nil => rfl
  | cons field rest ih => rw [restDepth, ih, greatest]

theorem depth_le {field : Field} {bound : Nat} :
    field.depth ≤ bound ↔ (∀ argument ∈ field.arguments, argument.value.depth ≤ bound) ∧
      ∀ nested ∈ field.selections, nested.depth + 1 ≤ bound := by
  obtain ⟨aliasName, name, arguments, selections, location⟩ := field
  rw [depth, Nat.max_le, greatest_le]
  refine and_congr_right fun _ => ?_
  cases selections with
  | nil => simp [nestedDepth]
  | cons first rest =>
    cases bound with
    | zero =>
      have hhead : ¬ first.depth + 1 ≤ 0 := by simp
      exact ⟨fun h => absurd h (by simp [nestedDepth]), fun h => absurd (h first (by simp)) hhead⟩
    | succ bound =>
      rw [nestedDepth, restDepth_eq, Nat.add_le_add_iff_right, Nat.max_le, greatest_le]
      simp

end Field

/-- How many levels a written type has: its name is one, each list another one. -/
def TypeExpr.levels {α : Type} : TypeExpr α → Nat
  | .named _ => 1
  | .list element => element.levels + 1
  | .nonNull inner => inner.levels

/-! ## §3 Parts -/

/-- The words that are values of their own. -/
def reservedWords : List Bytes := [utf8 "true", utf8 "false", utf8 "null"]

/-- Names that are lexical and differ from each other. -/
structure ProperNames (names : List Bytes) : Prop where
  lexical : ∀ name ∈ names, isName name = true
  distinct : names.Nodup

/-- What is asked of a literal by itself. -/
def Literal.Proper : Literal → Prop
  | .int _ n => -9223372036854775808 ≤ n.toInt ∧ n.toInt ≤ 9223372036854775807
  | .string _ text => Utf8.WellFormed text
  | .enum _ word => isName word = true ∧ word ∉ reservedWords
  | .object _ fields => ProperNames (fields.map (·.name))
  | .reference _ name => isName name = true
  | .null _ | .float _ _ | .boolean _ _ | .list _ _ => True

/-- Every node of the literal is proper. -/
def Literal.WellFormed (literal : Literal) : Prop := ∀ node ∈ literal.nodes, node.Proper

/-- The literal is a reference to a variable. -/
def Literal.isReference : Literal → Bool
  | .reference _ _ => true
  | _ => false

/-- No variable is referred to, at any depth. -/
def Literal.Constant (literal : Literal) : Prop := ∀ node ∈ literal.nodes, node.isReference = false

/-- What is asked of a field by itself and of its arguments. -/
structure Field.Proper (field : Field) : Prop where
  aliasName : ∀ name ∈ field.aliasName, isName name = true
  name : isName field.name = true
  argumentNames : ProperNames (field.arguments.map (·.name))
  arguments : ∀ argument ∈ field.arguments, argument.value.WellFormed

/-- Every node of the field is proper. -/
def Field.WellFormed (field : Field) : Prop := ∀ node ∈ field.nodes, node.Proper

/-- No two non-null markers stand next to each other. -/
def TypeExpr.MarkedOnce {α : Type} : TypeExpr α → Prop
  | .named _ => True
  | .list element => element.MarkedOnce
  | .nonNull inner => inner.isNonNull = false ∧ inner.MarkedOnce

/-- What is asked of a variable definition. -/
structure VariableDefinition.WellFormed (definition : VariableDefinition) : Prop where
  typeName : isName definition.type.leaf = true
  marks : definition.type.MarkedOnce
  levels : definition.type.levels ≤ Reading.nestingLimit
  default : ∀ value ∈ definition.default, value.WellFormed
  constant : ∀ value ∈ definition.default, value.Constant
  depth : ∀ value ∈ definition.default, value.depth ≤ Reading.nestingLimit

/-! ## §4 Documents -/

/-- What is asked of an operation. -/
structure Operation.WellFormed (operation : Operation) : Prop where
  name : ∀ name ∈ operation.name, isName name = true
  variableNames : ProperNames (operation.variableDefinitions.map (·.name))
  definitions : ∀ definition ∈ operation.variableDefinitions, definition.WellFormed
  nonempty : operation.selections ≠ []
  fields : ∀ field ∈ operation.selections, field.WellFormed
  depth : ∀ field ∈ operation.selections, field.depth + 1 ≤ Reading.nestingLimit

/-- What is asked of a document. -/
structure Document.WellFormed (document : Document) : Prop where
  nonempty : document.operations ≠ []
  names : (document.operations.filterMap (·.name)).Nodup
  anonymous : 1 < document.operations.length →
    ∀ operation ∈ document.operations, operation.name ≠ none
  operations : ∀ operation ∈ document.operations, operation.WellFormed

end GraphQL
