/-
GraphQL.Proofs.Input.Returns — input that is coerced without a fault.

  §1 Returns   — computations that no fault aborts.
  §2 Steps     — lists, objects and scalars at types that take input.
  §3 Input     — the coercion of all input.
  §4 Checks    — the checks of arguments and of variables.

A computation that returns is a computation of the host, lifted: nothing can go
wrong in it but what goes wrong in the host itself. In a closed schema coercion
meets no type that is missing and none that is an object type, so only the
coercion functions of scalars are left to raise anything.
-/
import GraphQL.Input.Arguments
import GraphQL.Input.Variables
import GraphQL.Proofs.Input.Tree
import GraphQL.Proofs.Schema.Closed

namespace GraphQL

variable {m : Type → Type} [Monad m] [LawfulMonad m]

/-! ## §1 Returns -/

/-- The computation comes to a result whatever the host does, as it is a
computation of the host. -/
def Returns {ε α : Type} (x : ExceptT ε m α) : Prop := ∃ y : m α, x = ExceptT.lift y

namespace Returns

variable {ε ε' α β : Type}

omit [LawfulMonad m] in
theorem lift (y : m α) : Returns (ExceptT.lift y : ExceptT ε m α) := ⟨y, rfl⟩

theorem pure (a : α) : Returns (Pure.pure a : ExceptT ε m α) := by
  refine ⟨Pure.pure a, ?_⟩
  apply ExceptT.ext
  simp

theorem bind {x : ExceptT ε m α} {f : α → ExceptT ε m β} (hx : Returns x)
    (hf : ∀ a, Returns (f a)) : Returns (x >>= f) := by
  obtain ⟨y, rfl⟩ := hx
  obtain ⟨g, hg⟩ := Classical.axiomOfChoice hf
  refine ⟨y >>= g, ?_⟩
  apply ExceptT.ext
  simp [hg]

theorem map {x : ExceptT ε m α} (f : α → β) (hx : Returns x) : Returns (f <$> x) := by
  rw [map_eq_pure_bind]
  exact hx.bind fun a => pure (f a)

theorem mapM {f : α → ExceptT ε m β} {as : List α} (hf : ∀ a ∈ as, Returns (f a)) :
    Returns (as.mapM f) := by
  induction as with
  | nil =>
    rw [List.mapM_nil]
    exact pure []
  | cons a as ih =>
    obtain ⟨hfirst, hrest⟩ := List.forall_mem_cons.1 hf
    rw [List.mapM_cons]
    exact hfirst.bind fun _ => (ih hrest).bind fun _ => pure _

/-- A computation that returns has no failure to be given another form. -/
theorem adapt {x : ExceptT ε m α} (f : ε → ε') (hx : Returns x) : Returns (x.adapt f) := by
  obtain ⟨y, rfl⟩ := hx
  refine ⟨y, ?_⟩
  apply ExceptT.ext
  simp [ExceptT.run_adapt, ExceptT.run_lift, Except.mapError]

end Returns

/-! ## §2 Steps -/

/-- The coercion functions of all scalars return, whatever they are given. -/
def Schema.CoercersReturn (schema : Schema m) : Prop :=
  ∀ id coerce, schema.body? id = some (.scalar coerce) → ∀ value, Returns (coerce value)

/-- The coercion returns at every type that takes input. -/
def Coercion.AlwaysReturns (schema : Schema m) (coercion : Coercion m) : Prop :=
  ∀ type path, schema.TakesInput type.leaf → Returns (coercion type path)

/-- A property that results have, and that a computation has if its parts have it. -/
structure Composes (holds : ∀ α : Type, Engine m α → Prop) : Prop where
  pure {α : Type} (a : α) : holds α (Pure.pure a)
  bind {α β : Type} {x : Engine m α} {f : α → Engine m β} :
    holds α x → (∀ a, holds β (f a)) → holds β (x >>= f)

theorem Composes.map {holds : ∀ α : Type, Engine m α → Prop} (composes : Composes holds)
    {α β : Type} {x : Engine m α} (f : α → β) (hx : holds α x) : holds β (f <$> x) := by
  rw [map_eq_pure_bind]
  exact composes.bind hx fun a => composes.pure (f a)

theorem Returns.composes : Composes (m := m) fun _ x => Returns x where
  pure := Returns.pure
  bind := Returns.bind

/-- The property holds of the coercion functions of all scalars, whatever they are given. -/
def Schema.CoercersHold (holds : ∀ α : Type, Engine m α → Prop) (schema : Schema m) : Prop :=
  ∀ id coerce, schema.body? id = some (.scalar coerce) →
    ∀ value, holds (Option Value) (coerce value)

/-- The property holds of the coercion at every type that takes input. -/
def Coercion.Always (holds : ∀ α : Type, Engine m α → Prop) (schema : Schema m)
    (coercion : Coercion m) : Prop :=
  ∀ type path, schema.TakesInput type.leaf → holds Coerced (coercion type path)

namespace Coercion

variable {schema : Schema m} {location : Option Location}
  {holds : ∀ α : Type, Engine m α → Prop} (composes : Composes holds)

include composes

omit [LawfulMonad m] in
theorem null_always : Always holds schema (null schema location) :=
  fun _ _ _ => composes.pure _

omit [LawfulMonad m] in
/-- What holds at named types holds under wrappers. -/
theorem single_always {atName : TypeId → Bytes → Engine m Coerced}
    (hname : ∀ id path, schema.TakesInput id → holds Coerced (atName id path)) :
    Always holds schema (single atName) := by
  intro type path htakes
  induction type using TypeExpr.reading with
  | named id => exact hname id path htakes
  | nonNull inner ih =>
    rw [single_nonNull]
    exact ih (inner.leaf_unmarked ▸ htakes)
  | list element ih => exact composes.bind (ih htakes) fun _ => composes.pure _

omit [LawfulMonad m] composes in
/-- At a type that takes input a body is found, and it is no object type's. -/
theorem atBody_holds {id : TypeId} {fit : TypeBody m → Engine m Coerced}
    (htakes : schema.TakesInput id)
    (hfit : ∀ body, schema.body? id = some body → body.sort ≠ .object → holds Coerced (fit body)) :
    holds Coerced (atBody schema id fit) := by
  obtain ⟨body, hbody, hsort⟩ := htakes
  unfold atBody
  rw [hbody]
  exact hfit body hbody hsort

omit [LawfulMonad m] in
theorem scalar_always (hscalars : schema.CoercersHold holds) (value : Value) :
    Always holds schema (scalar schema location value) := by
  refine single_always composes fun id path htakes => ?_
  refine atBody_holds htakes fun body hbody hsort => ?_
  cases body with
  | object fields => exact absurd rfl hsort
  | inputObject declared => exact composes.pure _
  | scalar coerce =>
    refine composes.bind (hscalars id coerce hbody value) fun result => ?_
    cases result with
    | none => exact composes.pure _
    | some result => exact composes.pure _

omit [LawfulMonad m] in
theorem listItems_holds {element : TypeExpr TypeId} {path : Bytes} {index : Nat}
    {items : List (Option Location × Coercion m)} (htakes : schema.TakesInput element.leaf)
    (hitems : ∀ item ∈ items, Always holds schema item.2) :
    holds _ (listItems schema element path index items) := by
  induction items generalizing index with
  | nil => exact composes.pure _
  | cons item rest ih =>
    obtain ⟨hitem, hrest⟩ := List.forall_mem_cons.1 hitems
    unfold listItems
    refine composes.bind (hitem element _ htakes) fun coerced => ?_
    cases coerced.outcome with
    | absent =>
      refine composes.bind (null_always composes element _ htakes) fun _ => ?_
      exact composes.bind (ih hrest) fun _ => composes.pure _
    | ok value =>
      exact composes.bind (composes.pure _) fun _ =>
        composes.bind (ih hrest) fun _ => composes.pure _
    | failed =>
      exact composes.bind (composes.pure _) fun _ =>
        composes.bind (ih hrest) fun _ => composes.pure _

omit [LawfulMonad m] in
theorem list_always {items : List (Option Location × Coercion m)}
    (hitems : ∀ item ∈ items, Always holds schema item.2) :
    Always holds schema (list schema location items) := by
  intro type path htakes
  induction type using TypeExpr.reading with
  | named id => exact atBody_holds htakes fun _ _ _ => composes.pure _
  | nonNull inner ih =>
    rw [list_nonNull]
    exact ih (inner.leaf_unmarked ▸ htakes)
  | list element ih =>
    exact composes.bind (listItems_holds composes htakes hitems) fun _ => composes.pure _

omit [LawfulMonad m] in
theorem declaredField_holds {fields : Fields m} {path : Bytes} {field : Argument}
    (htakes : schema.TakesInput field.type.leaf)
    (hfields : ∀ given ∈ fields, Always holds schema given.2.2) :
    holds Coerced (declaredField schema location fields path field) := by
  unfold declaredField
  cases hgiven : fields.lookup field.name with
  | none => exact composes.pure _
  | some given =>
    have hcoercion := hfields _ (mem_of_lookup hgiven)
    exact composes.bind (hcoercion field.type _ htakes) fun _ => composes.pure _

omit [LawfulMonad m] in
theorem declaredFields_holds {fields : Fields m} {path : Bytes} {declared : List Argument}
    (htake : ∀ field ∈ declared, schema.TakesInput field.type.leaf)
    (hfields : ∀ given ∈ fields, Always holds schema given.2.2) :
    holds _ (declaredFields schema location fields path declared) := by
  induction declared with
  | nil => exact composes.pure _
  | cons field rest ih =>
    obtain ⟨hfirst, hrest⟩ := List.forall_mem_cons.1 htake
    unfold declaredFields
    exact composes.bind (declaredField_holds composes hfirst hfields) fun _ =>
      composes.bind (ih hrest) fun _ => composes.pure _

omit [LawfulMonad m] in
/-- The fields that the type of an object declares take input. -/
theorem object_always {fields : Fields m}
    (hbodies : ∀ id body, schema.body? id = some body → body.Closed schema)
    (hfields : ∀ given ∈ fields, Always holds schema given.2.2) :
    Always holds schema (object schema location fields) := by
  refine single_always composes fun id path htakes => ?_
  refine atBody_holds htakes fun body hbody hsort => ?_
  cases body with
  | object fields => exact absurd rfl hsort
  | scalar coerce => exact composes.pure _
  | inputObject declared =>
    exact composes.bind (declaredFields_holds composes (hbodies id _ hbody) hfields) fun _ =>
      composes.pure _

end Coercion

/-! ## §3 Input -/

section Composes

variable {schema : Schema m} {holds : ∀ α : Type, Engine m α → Prop}

namespace Input

omit [LawfulMonad m] in
mutual

/-- What composes holds of the coercion of all input, at every type that takes input, if it
holds of the coercion functions of scalars. -/
theorem coerce_always [LawfulMonad m] (composes : Composes holds) (hclosed : schema.Closed)
    (hscalars : schema.CoercersHold holds) :
    ∀ input : Input, Coercion.Always holds schema (input.coerce schema)
  | .unbound _ => fun _ _ _ => composes.pure _
  | .null _ => by
    unfold coerce
    exact Coercion.null_always composes
  | .scalar _ value => by
    unfold coerce
    exact Coercion.scalar_always composes hscalars value
  | .list _ items => by
    unfold coerce
    exact Coercion.list_always composes (coerceItems_always composes hclosed hscalars items)
  | .object _ fields => by
    unfold coerce
    exact Coercion.object_always composes hclosed.body
      (coerceFields_always composes hclosed hscalars fields)

/-- So it does of the items of a list. -/
theorem coerceItems_always [LawfulMonad m] (composes : Composes holds) (hclosed : schema.Closed)
    (hscalars : schema.CoercersHold holds) : ∀ items : List Input,
    ∀ item ∈ coerceItems schema items, Coercion.Always holds schema item.2
  | [] => by simp [coerceItems]
  | input :: rest => List.forall_mem_cons.2
    ⟨coerce_always composes hclosed hscalars input,
      coerceItems_always composes hclosed hscalars rest⟩

/-- So it does of the fields of an object. -/
theorem coerceFields_always [LawfulMonad m] (composes : Composes holds) (hclosed : schema.Closed)
    (hscalars : schema.CoercersHold holds) : ∀ fields : List (Bytes × Option Location × Input),
    ∀ field ∈ coerceFields schema fields, Coercion.Always holds schema field.2.2
  | [] => by simp [coerceFields]
  | (_, _, input) :: rest =>
    List.forall_mem_cons.2 ⟨coerce_always composes hclosed hscalars input,
      coerceFields_always composes hclosed hscalars rest⟩

end

end Input

variable (composes : Composes holds) (hclosed : schema.Closed)
  (hscalars : schema.CoercersHold holds)

include composes hclosed hscalars

theorem Value.coerce_always (location : Option Location) (value : Value) :
    Coercion.Always holds schema (value.coerce schema location) := by
  rw [Value.coerce_eq]
  exact Input.coerce_always composes hclosed hscalars _

theorem Literal.coerce_always (bindings : Members) (literal : Literal) :
    Coercion.Always holds schema (literal.coerce schema bindings) := by
  rw [Literal.coerce_eq]
  exact Input.coerce_always composes hclosed hscalars _

/-- Nor is more done for a variable of a known type than to coerce what is given for it. -/
theorem VariableDefinition.bindAt_holds {type : TypeExpr TypeId}
    (definition : VariableDefinition) (supplied : Option Value)
    (htakes : schema.TakesInput type.leaf) : holds _ (definition.bindAt schema supplied type) := by
  unfold bindAt
  cases supplied with
  | some value =>
    exact composes.map _ (Value.coerce_always composes hclosed hscalars _ _ _ _ htakes)
  | none =>
    cases definition.default with
    | some literal =>
      exact composes.map _ (Literal.coerce_always composes hclosed hscalars _ _ _ _ htakes)
    | none =>
      by_cases hnull : type.isNonNull = true
      · simp only [hnull, if_true]
        exact composes.pure _
      · simp only [hnull]
        exact composes.pure _

end Composes

section Closed

variable {schema : Schema m} (hclosed : schema.Closed) (hscalars : schema.CoercersReturn)

include hclosed hscalars

theorem Value.coerce_returns (location : Option Location) (value : Value) :
    Coercion.AlwaysReturns schema (value.coerce schema location) :=
  Value.coerce_always Returns.composes hclosed hscalars location value

theorem Literal.coerce_returns (bindings : Members) (literal : Literal) :
    Coercion.AlwaysReturns schema (literal.coerce schema bindings) :=
  Literal.coerce_always Returns.composes hclosed hscalars bindings literal

/-! ## §4 Checks -/

theorem ArgumentAttempt.make_returns {argument : Argument} (bindings : Members)
    (nodes : List (Entry Literal)) (htakes : schema.TakesInput argument.type.leaf) :
    Returns (make schema bindings nodes argument) := by
  unfold make
  cases nodes.find? (·.name == argument.name) with
  | none => exact Returns.pure _
  | some node =>
    refine Returns.bind ?_ fun _ => Returns.pure _
    exact Literal.coerce_returns hclosed hscalars bindings node.value _ _ htakes

/-- The arguments of a field are checked without a fault. -/
theorem checkArguments_returns {field : FieldType m} (bindings : Members) (node : Field)
    (path : ResponsePath)
    (htake : ∀ argument ∈ field.arguments, schema.TakesInput argument.type.leaf) :
    Returns (checkArguments schema bindings field node path) := by
  unfold checkArguments
  refine Returns.bind ?_ fun _ => Returns.pure _
  exact Returns.mapM fun argument hargument =>
    ArgumentAttempt.make_returns hclosed hscalars bindings node.arguments (htake argument hargument)

omit [Monad m] [LawfulMonad m] hclosed hscalars in
/-- Variables are declared with types that take input, or refused. -/
theorem VariableDefinition.takesInput_of_inputType? {definition : VariableDefinition}
    {type : TypeExpr TypeId} (h : definition.inputType? schema = some type) :
    schema.TakesInput type.leaf := by
  obtain ⟨hunderstood, hobject⟩ := Option.filter_eq_some_iff.1 h
  exact Schema.takesInput_of_understand? hunderstood (by simpa using hobject)

theorem VariableDefinition.bind_returns (supplied : Value) (definition : VariableDefinition) :
    Returns (definition.bind schema supplied) := by
  unfold bind
  cases htype : definition.inputType? schema with
  | none => exact Returns.pure _
  | some type =>
    exact bindAt_holds Returns.composes hclosed hscalars definition _
      (takesInput_of_inputType? htype)

theorem VariableBindings.bindFurther_returns (supplied : Value) (bound : VariableBindings)
    (definitions : List VariableDefinition) :
    Returns (bindFurther schema supplied bound definitions) := by
  induction definitions generalizing bound with
  | nil => exact Returns.pure _
  | cons definition rest ih =>
    unfold bindFurther
    exact (VariableDefinition.bind_returns hclosed hscalars supplied definition).bind fun _ => ih _

/-- The variables of an operation are bound without a fault. -/
theorem VariableBindings.ofDefinitions_returns (supplied : Value)
    (definitions : List VariableDefinition) :
    Returns (ofDefinitions schema supplied definitions) :=
  bindFurther_returns hclosed hscalars supplied ⟨[], []⟩ definitions

end Closed

end GraphQL
