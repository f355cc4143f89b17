/-
GraphQL.Proofs.Execution.Hosting — one schema on different hosts.

  §1 Hosts       — computations of one host lifted to another one.
  §2 Schemas     — a schema with its resolvers given anew.
  §3 Coercion    — coercion is lifted.
  §4 Checks      — so are the checks of arguments and of variables.
  §5 Simulation  — a run on the new host beside the run on the old one.

The engine runs in any monad, so a run may be observed by giving the resolvers
of its schema in a monad that sees more of it. Only resolvers change. All that
the engine does between two calls is the computation that it was, lifted, and
this is proved here once for all such monads.
-/
import GraphQL.Execution.Request
import GraphQL.Proofs.Input.Tree
import GraphQL.Proofs.Schema.Tables

namespace GraphQL

/-! ## §1 Hosts -/

/-- A host `n` for the schemas of a host `m`: computations are lifted with their
order kept, and each field has a resolver on the new host. -/
structure Hosting (m n : Type → Type) [Monad m] [Monad n] where
  lift : {α : Type} → m α → n α
  lift_pure : ∀ {α : Type} (a : α), lift (pure a) = pure a
  lift_bind : ∀ {α β : Type} (x : m α) (f : α → m β),
    lift (x >>= f) = lift x >>= fun a => lift (f a)
  resolver : FieldType m → Resolver n

variable {m n : Type → Type} [Monad m] [Monad n] (host : Hosting m n)

namespace Hosting

variable {α β : Type}

/-- A computation of the engine, lifted. -/
def engine (x : Engine m α) : Engine n α := ExceptT.mk (host.lift x.run)

@[simp]
theorem engine_pure (a : α) : host.engine (pure a : Engine m α) = pure a :=
  host.lift_pure (Except.ok a)

@[simp]
theorem engine_throw (fault : Fault) :
    host.engine (throw fault : Engine m α) = throw fault :=
  host.lift_pure (Except.error fault)

@[simp]
theorem engine_bind (x : Engine m α) (f : α → Engine m β) :
    host.engine (x >>= f) = host.engine x >>= fun a => host.engine (f a) := by
  apply ExceptT.ext
  simp only [engine, ExceptT.run_bind, ExceptT.run_mk, host.lift_bind]
  congr 1
  funext result
  cases result with
  | ok a => rfl
  | error fault => exact host.lift_pure _

@[simp]
theorem engine_map [LawfulMonad m] [LawfulMonad n] (f : α → β) (x : Engine m α) :
    host.engine (f <$> x) = f <$> host.engine x := by
  simp only [map_eq_pure_bind, engine_bind, engine_pure]

theorem engine_mapM [LawfulMonad m] [LawfulMonad n] (f : α → Engine m β) (as : List α) :
    (as.mapM fun a => host.engine (f a)) = host.engine (as.mapM f) := by
  induction as with
  | nil => simp
  | cons a as ih => simp [ih]

/-! ## §2 Schemas -/

/-- The field with its resolver on the new host. -/
def field (field : FieldType m) : FieldType n where
  name := field.name
  type := field.type
  arguments := field.arguments
  resolver := host.resolver field
  deprecation := field.deprecation
  description := field.description

/-- The body of a type on the new host. -/
def body : TypeBody m → TypeBody n
  | .scalar coerce => .scalar fun value => host.engine (coerce value)
  | .object fields => .object (fields.map host.field)
  | .inputObject declared => .inputObject declared

/-- A named type on the new host. -/
def type (type : NamedType m) : NamedType n :=
  .of type.name type.description (host.body type.body)

/-- A schema on the new host. -/
def schema (schema : Schema m) : Schema n where
  types := schema.types.map host.type
  query := schema.query
  mutation := schema.mutation

/-- The scope of an operation on the new host. -/
def scope (scope : Scope m) : Scope n := ⟨host.schema scope.schema, scope.bindings, scope.context⟩

variable (schema : Schema m)

@[simp]
theorem type?_schema (id : TypeId) :
    (host.schema schema).type? id = (schema.type? id).map host.type := by
  simp [Schema.type?, Hosting.schema]

@[simp]
theorem body?_schema (id : TypeId) :
    (host.schema schema).body? id = (schema.body? id).map host.body := by
  simp [Schema.body?, Function.comp_def, Hosting.type, NamedType.of]

@[simp]
theorem typeName_schema : (host.schema schema).typeName = schema.typeName := by
  funext id
  unfold Schema.typeName
  rw [type?_schema]
  cases schema.type? id <;> rfl

@[simp]
theorem displayText_schema (type : TypeExpr TypeId) :
    (host.schema schema).displayText type = schema.displayText type := by
  simp [Schema.displayText]

@[simp]
theorem isObject_type (type : NamedType m) : (host.type type).isObject = type.isObject := by
  unfold NamedType.isObject Hosting.type NamedType.of
  cases type.body <;> rfl

@[simp]
theorem isObjectType_schema (id : TypeId) :
    (host.schema schema).isObjectType id = schema.isObjectType id := by
  unfold Schema.isObjectType
  rw [type?_schema]
  cases schema.type? id with
  | none => rfl
  | some type => simp

@[simp]
theorem understand?_schema (type : TypeExpr Bytes) :
    (host.schema schema).understand? type = schema.understand? type := by
  simp [Schema.understand?, Schema.typeId?_eq, Hosting.schema, List.findIdx?_map,
    Function.comp_def, Hosting.type, NamedType.of]

/-- A field is found where it was. -/
@[simp]
theorem field?_schema (parent : TypeId) (name : Bytes) :
    (host.schema schema).field? parent name = (schema.field? parent name).map host.field := by
  unfold Schema.field?
  rw [type?_schema]
  cases schema.type? parent with
  | none => rfl
  | some type =>
    show (host.type type).field? name = (type.field? name).map host.field
    rw [NamedType.field?_eq, NamedType.field?_eq]
    unfold Hosting.type NamedType.of
    cases type.body with
    | scalar _ => rfl
    | inputObject _ => rfl
    | object fields =>
      simp only [Hosting.body, List.find?_map]
      rfl

@[simp]
theorem inputField?_schema (id : TypeId) :
    (host.schema schema).inputField? id = schema.inputField? id := by
  funext name
  unfold Schema.inputField?
  rw [type?_schema]
  cases schema.type? id with
  | none => rfl
  | some type =>
    show (host.type type).inputField? name = type.inputField? name
    rw [NamedType.inputField?_eq, NamedType.inputField?_eq]
    unfold Hosting.type NamedType.of
    cases type.body <;> rfl

/-- Operations start where they did. -/
@[simp]
theorem rootType?_schema (kind : OperationKind) :
    Request.rootType? (host.schema schema) kind = Request.rootType? schema kind := by
  cases kind <;> rfl

end Hosting

/-! ## §3 Coercion -/

namespace Coercion

variable {schema : Schema m} {location : Option Location}

/-- A coercion on the new host. -/
def hosted (coercion : Coercion m) : Coercion n := fun type path =>
  host.engine (coercion type path)

/-- The coercions of the items of a list on the new host. -/
def hostedItems (items : List (Option Location × Coercion m)) :
    List (Option Location × Coercion n) :=
  items.map fun item => (item.1, item.2.hosted host)

/-- The coercions of fields on the new host. -/
def hostedFields (fields : Fields m) : Fields n :=
  fields.map fun field => (field.1, field.2.1, field.2.2.hosted host)

@[simp]
theorem invalid_hosted (type : TypeExpr TypeId) (path : Bytes) :
    invalid (host.schema schema) location type path = invalid schema location type path := by
  simp [invalid]

theorem null_hosted : null (host.schema schema) location = (null schema location).hosted host := by
  funext type path
  simp [null, hosted]

theorem single_hosted (atName : TypeId → Bytes → Engine m Coerced) :
    single (fun id path => host.engine (atName id path)) = (single atName).hosted host := by
  funext type path
  induction type using TypeExpr.reading with
  | named id => rfl
  | nonNull inner ih =>
    unfold hosted at *
    rw [single_nonNull, single_nonNull, ih]
  | list element ih =>
    unfold hosted at *
    simp [single, ih]

theorem listItems_hosted (element : TypeExpr TypeId) (path : Bytes) (index : Nat)
    (items : List (Option Location × Coercion m)) :
    listItems (host.schema schema) element path index (hostedItems host items) =
      host.engine (listItems schema element path index items) := by
  induction items generalizing index with
  | nil => simp [hostedItems, listItems]
  | cons item rest ih =>
    unfold hostedItems at *
    simp only [List.map_cons, listItems, Hosting.engine_bind]
    congr 1
    funext given
    cases given.outcome <;> simp [ih, null_hosted, hosted]

theorem atBody_hosted (id : TypeId) (fit : TypeBody m → Engine m Coerced)
    (fit' : TypeBody n → Engine n Coerced)
    (h : ∀ body, fit' (host.body body) = host.engine (fit body)) :
    atBody (host.schema schema) id fit' = host.engine (atBody schema id fit) := by
  unfold atBody
  rw [Hosting.body?_schema]
  cases schema.body? id with
  | none => simp
  | some body => exact h body

theorem list_hosted (items : List (Option Location × Coercion m)) :
    list (host.schema schema) location (hostedItems host items) =
      (list schema location items).hosted host := by
  funext type path
  induction type using TypeExpr.reading with
  | named id => exact atBody_hosted host id _ _ fun body => by simp
  | nonNull inner ih =>
    unfold hosted at *
    rw [list_nonNull, list_nonNull, ih]
  | list element ih => simp [list, TypeExpr.nullable, hosted, listItems_hosted]

theorem missingField_hosted (field : Argument) (path : Bytes) :
    missingField (host.schema schema) field path location =
      missingField schema field path location := by
  simp [missingField]

theorem lookup_hostedFields (fields : Fields m) (name : Bytes) :
    (hostedFields host fields).lookup name =
      (fields.lookup name).map fun entry => (entry.1, entry.2.hosted host) := by
  induction fields with
  | nil => rfl
  | cons field rest ih =>
    obtain ⟨key, fieldLocation, coercion⟩ := field
    unfold hostedFields at *
    simp only [List.map_cons, List.lookup_cons]
    split
    · rfl
    · exact ih

theorem declaredField_hosted (fields : Fields m) (path : Bytes) (field : Argument) :
    declaredField (host.schema schema) location (hostedFields host fields) path field =
      host.engine (declaredField schema location fields path field) := by
  unfold declaredField
  rw [lookup_hostedFields]
  cases fields.lookup field.name with
  | none => simp [missingField_hosted]
  | some entry => simp [hosted, deprecationIssues, missingField_hosted]

theorem declaredFields_hosted (fields : Fields m) (path : Bytes) (declared : List Argument) :
    declaredFields (host.schema schema) location (hostedFields host fields) path declared =
      host.engine (declaredFields schema location fields path declared) := by
  induction declared with
  | nil => simp [declaredFields]
  | cons field rest ih => simp [declaredFields, declaredField_hosted, ih]

theorem unknownFields_hosted (field? : Bytes → Option Argument) (path : Bytes)
    (fields : Fields m) :
    unknownFields field? path (hostedFields host fields) = unknownFields field? path fields := by
  simp [unknownFields, hostedFields, List.filter_map, Function.comp_def]

theorem object_hosted (fields : Fields m) :
    object (host.schema schema) location (hostedFields host fields) =
      (object schema location fields).hosted host := by
  unfold object
  rw [← single_hosted]
  congr 1
  funext id path
  refine atBody_hosted host id _ _ fun body => ?_
  cases body with
  | scalar coerce => simp [Hosting.body]
  | object fields => simp [Hosting.body]
  | inputObject declared =>
    simp [Hosting.body, objectAt, declaredFields_hosted, unknownFields_hosted]

theorem scalar_hosted (value : Value) :
    scalar (host.schema schema) location value = (scalar schema location value).hosted host := by
  unfold scalar
  rw [← single_hosted]
  congr 1
  funext id path
  refine atBody_hosted host id _ _ fun body => ?_
  cases body with
  | object fields => simp [Hosting.body]
  | inputObject declared => simp [Hosting.body]
  | scalar coerce =>
    simp only [Hosting.body, Hosting.engine_bind]
    congr 1
    funext result
    cases result <;> simp

end Coercion

namespace Input

variable (schema : Schema m)

mutual

/-- The coercion of input is lifted. -/
theorem coerce_hosted : ∀ input : Input,
    input.coerce (host.schema schema) = (input.coerce schema).hosted host
  | .unbound _ => by
    funext type path
    simp [coerce, Coercion.hosted]
  | .null location => by
    unfold coerce
    exact Coercion.null_hosted host
  | .scalar location value => by
    unfold coerce
    exact Coercion.scalar_hosted host value
  | .list location items => by
    unfold coerce
    rw [coerceItems_hosted items]
    exact Coercion.list_hosted host _
  | .object location fields => by
    unfold coerce
    rw [coerceFields_hosted fields]
    exact Coercion.object_hosted host _

/-- So are the coercions of the items of a list. -/
theorem coerceItems_hosted : ∀ items : List Input,
    coerceItems (host.schema schema) items = Coercion.hostedItems host (coerceItems schema items)
  | [] => by simp [coerceItems, Coercion.hostedItems]
  | input :: rest => by
    simp only [coerceItems, coerce_hosted input, coerceItems_hosted rest]
    rfl

/-- So are the coercions of the fields of an object. -/
theorem coerceFields_hosted : ∀ fields : List (Bytes × Option Location × Input),
    coerceFields (host.schema schema) fields =
      Coercion.hostedFields host (coerceFields schema fields)
  | [] => by simp [coerceFields, Coercion.hostedFields]
  | (name, location, input) :: rest => by
    simp only [coerceFields, coerce_hosted input, coerceFields_hosted rest]
    rfl

end

end Input

/-! ## §4 Checks -/

section Checks

variable [LawfulMonad m] [LawfulMonad n] {schema : Schema m}

theorem ArgumentAttempt.make_hosted (bindings : Members) (nodes : List (Entry Literal))
    (argument : Argument) :
    make (host.schema schema) bindings nodes argument =
      host.engine (make schema bindings nodes argument) := by
  unfold make
  cases nodes.find? (·.name == argument.name) with
  | none => simp
  | some node => simp [Literal.coerce_eq, Input.coerce_hosted, Coercion.hosted]

omit [LawfulMonad m] [LawfulMonad n] in
theorem FieldSite.missingReport_hosted (site : FieldSite) (attempts : List ArgumentAttempt) :
    site.missingReport (host.schema schema) attempts = site.missingReport schema attempts := by
  have hrecord : missingRecord (host.schema schema) site = missingRecord schema site := by
    funext attempt
    simp [missingRecord]
  unfold missingReport
  rw [hrecord]

omit [LawfulMonad m] [LawfulMonad n] in
theorem FieldSite.deprecatedReport_hosted (site : FieldSite) (attempts : List ArgumentAttempt) :
    site.deprecatedReport (host.schema schema) attempts =
      site.deprecatedReport schema attempts := by
  have hnotice : argumentNotice (host.schema schema) site = argumentNotice schema site := by
    funext node argument
    simp [argumentNotice]
  unfold deprecatedReport
  rw [hnotice]

/-- The check of arguments is lifted. -/
theorem checkArguments_hosted (bindings : Members) (field : FieldType m) (node : Field)
    (path : ResponsePath) :
    checkArguments (host.schema schema) bindings (host.field field) node path =
      host.engine (checkArguments schema bindings field node path) := by
  have hmake : ArgumentAttempt.make (host.schema schema) bindings node.arguments =
      fun argument =>
        host.engine (ArgumentAttempt.make schema bindings node.arguments argument) := by
    funext argument
    exact ArgumentAttempt.make_hosted host bindings node.arguments argument
  unfold checkArguments
  simp only [Hosting.field, hmake, Hosting.engine_mapM, Hosting.engine_bind, Hosting.engine_pure,
    FieldSite.missingReport_hosted, FieldSite.deprecatedReport_hosted]

namespace VariableDefinition

theorem bindAt_hosted (definition : VariableDefinition) (supplied : Option Value)
    (type : TypeExpr TypeId) :
    definition.bindAt (host.schema schema) supplied type =
      host.engine (definition.bindAt schema supplied type) := by
  unfold bindAt
  cases supplied with
  | some value => simp [Value.coerce_eq, Input.coerce_hosted, Coercion.hosted]
  | none =>
    cases definition.default with
    | some literal => simp [Literal.coerce_eq, Input.coerce_hosted, Coercion.hosted]
    | none =>
      by_cases hnull : type.isNonNull = true
      · simp [hnull]
      · simp [hnull]

theorem bind_hosted (supplied : Value) (definition : VariableDefinition) :
    definition.bind (host.schema schema) supplied =
      host.engine (definition.bind schema supplied) := by
  have htype : definition.inputType? (host.schema schema) = definition.inputType? schema := by
    simp [inputType?]
  unfold bind
  rw [htype]
  cases definition.inputType? schema with
  | none => simp
  | some type => exact bindAt_hosted host _ _ _

end VariableDefinition

/-- The binding of variables is lifted. -/
theorem VariableBindings.bindFurther_hosted (supplied : Value) (bound : VariableBindings)
    (definitions : List VariableDefinition) :
    bindFurther (host.schema schema) supplied bound definitions =
      host.engine (bindFurther schema supplied bound definitions) := by
  induction definitions generalizing bound with
  | nil => simp [bindFurther]
  | cons definition rest ih => simp [bindFurther, VariableDefinition.bind_hosted, ih]

theorem VariableBindings.ofDefinitions_hosted (supplied : Value)
    (definitions : List VariableDefinition) :
    ofDefinitions (host.schema schema) supplied definitions =
      host.engine (ofDefinitions schema supplied definitions) :=
  bindFurther_hosted host supplied ⟨[], []⟩ definitions

end Checks

/-! ## §5 Simulation -/

/-- A relation between computations of the two hosts that the steps of the engine
keep: giving a result, going on, calling a resolver and leaving a log entry. -/
structure Hosting.Simulation [MonadLog m] [MonadLog n] (host : Hosting m n)
    (R : {α : Type} → n α → m α → Prop) : Prop where
  pure : ∀ {α : Type} (a : α), R (pure a) (pure a)
  bind : ∀ {α β : Type} {x : n α} {y : m α} {f : α → n β} {g : α → m β},
    R x y → (∀ a, R (f a) (g a)) → R (x >>= f) (y >>= g)
  lift : ∀ {α : Type} (y : m α), R (host.lift y) y
  resolver : ∀ (field : FieldType m) (arguments context parent : Value),
    R (host.resolver field arguments context parent) (field.resolver arguments context parent)
  log : ∀ (level : Level) (words : List Bytes),
    R (MonadLog.log level words) (MonadLog.log level words)

namespace Hosting.Simulation

variable {host} [MonadLog m] [MonadLog n] {R : {α : Type} → n α → m α → Prop}
  (h : host.Simulation R) {α β ε : Type}

include h

theorem except_pure (a : α) :
    R (Pure.pure a : ExceptT ε n α).run (Pure.pure a : ExceptT ε m α).run :=
  h.pure _

theorem except_bind {x : ExceptT ε n α} {y : ExceptT ε m α} {f : α → ExceptT ε n β}
    {g : α → ExceptT ε m β} (hx : R x.run y.run) (hf : ∀ a, R (f a).run (g a).run) :
    R (x >>= f).run (y >>= g).run := by
  rw [ExceptT.run_bind, ExceptT.run_bind]
  refine h.bind hx fun result => ?_
  cases result with
  | ok a => exact hf a
  | error failure => exact h.pure _

theorem map [LawfulMonad m] [LawfulMonad n] {x : n α} {y : m α} (f : α → β) (hx : R x y) :
    R (f <$> x) (f <$> y) := by
  rw [map_eq_pure_bind, map_eq_pure_bind]
  exact h.bind hx fun a => h.pure (f a)

theorem except_lift [LawfulMonad m] [LawfulMonad n] {x : n α} {y : m α} (hx : R x y) :
    R (ExceptT.lift x : ExceptT ε n α).run (ExceptT.lift y : ExceptT ε m α).run :=
  h.map Except.ok hx

theorem engine (y : Engine m α) : R (host.engine y).run y.run := h.lift y.run

open Execution

theorem logRaised (field : Bytes) (resolution : Resolution) :
    R (Execution.logRaised field resolution : n Unit) (Execution.logRaised field resolution) := by
  cases resolution with
  | ok _ => exact h.pure ()
  | error _ => exact h.pure ()
  | untagged => exact h.pure ()
  | raised _ => exact h.log _ _
  | raisedOther => exact h.log _ _

theorem resolve [LawfulMonad m] [LawfulMonad n] (scope : Scope m) (field : FieldType m)
    (arguments : Members) (parent : Value) :
    R (Execution.resolve (host.scope scope) (host.field field) arguments parent).run
      (Execution.resolve scope field arguments parent).run := by
  unfold Execution.resolve
  refine h.except_bind (h.except_lift (h.resolver field _ _ _)) fun resolution => ?_
  exact h.except_bind (h.except_lift (h.logRaised _ _)) fun _ => h.except_pure resolution

theorem completeItems {f : Value → ResponsePath → Engine n Completed}
    {g : Value → ResponsePath → Engine m Completed}
    (hf : ∀ value path, R (f value path).run (g value path).run) (path : ResponsePath)
    (index : Nat) (items : List Value) :
    R (Execution.completeItems f path index items).run
      (Execution.completeItems g path index items).run := by
  induction items generalizing index with
  | nil => exact h.except_pure _
  | cons item rest ih =>
    unfold Execution.completeItems
    exact h.except_bind (hf item _) fun _ => h.except_bind (ih _) fun _ => h.except_pure _

theorem complete {schema : Schema m} {f : TypeId → Value → ResponsePath → Engine n Completed}
    {g : TypeId → Value → ResponsePath → Engine m Completed}
    (hf : ∀ id value path, R (f id value path).run (g id value path).run)
    (type : TypeExpr TypeId) (value : Value) (path : ResponsePath) :
    R (Execution.complete (host.schema schema) f type value path).run
      (Execution.complete schema g type value path).run := by
  induction type using TypeExpr.reading generalizing value path with
  | nonNull inner ih =>
    rw [complete_nonNull, complete_nonNull]
    exact ih value path
  | list element ih =>
    cases value with
    | null => exact h.except_pure _
    | list items =>
      exact h.except_bind (h.completeItems ih path 0 items) fun _ => h.except_pure _
    | bool _ => exact ih _ path
    | int _ => exact ih _ path
    | uint _ => exact ih _ path
    | float _ => exact ih _ path
    | string _ => exact ih _ path
    | object _ => exact ih _ path
  | named id =>
    rw [complete_named, complete_named]
    split
    · exact h.except_pure _
    · rw [type?_schema]
      cases schema.type? id with
      | none => exact h.pure _
      | some type =>
        simp only [Option.map_some, isObject_type]
        split
        · exact hf id value path
        · exact h.except_pure _

variable [LawfulMonad m] [LawfulMonad n]

theorem runResolver (scope : Scope m) (site : FieldSite) (field : FieldType m)
    (arguments : ArgumentVerdict) (parent : Value) {f : Value → Engine n Completed}
    {g : Value → Engine m Completed} (hf : ∀ value, R (f value).run (g value).run) :
    R (Execution.runResolver (host.scope scope) site (host.field field) arguments parent f).run
      (Execution.runResolver scope site field arguments parent g).run := by
  unfold Execution.runResolver
  refine h.except_bind (h.resolve scope field _ parent) fun resolution => ?_
  cases resolution with
  | ok value => exact h.except_bind (hf value) fun _ => h.except_pure _
  | error _ => exact h.except_pure _
  | untagged => exact h.except_pure _
  | raised _ => exact h.except_pure _
  | raisedOther => exact h.except_pure _

theorem runField (scope : Scope m) (node : Field) (parentType : TypeId) (parent : Value)
    (path : ResponsePath) {f : TypeExpr TypeId → Value → Engine n Completed}
    {g : TypeExpr TypeId → Value → Engine m Completed}
    (hf : ∀ type value, R (f type value).run (g type value).run) :
    R (Execution.runField (host.scope scope) node parentType parent path f).run
      (Execution.runField scope node parentType parent path g).run := by
  unfold Execution.runField
  simp only [Hosting.scope, field?_schema]
  cases scope.schema.field? parentType node.name with
  | none => exact h.except_pure _
  | some field =>
    simp only [Option.map_some, checkArguments_hosted]
    refine h.except_bind (h.engine _) fun verdict => ?_
    by_cases hvalid : verdict.valid = true
    · simp only [hvalid, if_true]
      exact h.runResolver scope _ field verdict parent (hf field.type)
    · simp only [hvalid]
      exact h.except_pure _

omit [LawfulMonad m] [LawfulMonad n] in
mutual

/-- A field and everything below it. -/
theorem executeField [LawfulMonad m] [LawfulMonad n]
    (scope : Scope m) : ∀ (node : Field) (parentType : TypeId) (parent : Value)
    (path : ResponsePath),
    R (Execution.executeField (host.scope scope) node parentType parent path).run
      (Execution.executeField scope node parentType parent path).run
  | ⟨aliasName, name, arguments, selections, location⟩, parentType, parent, path => by
    unfold Execution.executeField
    refine h.runField scope _ parentType parent _ fun type value => ?_
    by_cases hleaf : selections.isEmpty = true
    · simp only [hleaf, if_true]
      exact h.except_pure _
    · simp only [hleaf]
      refine h.complete (fun id value path => ?_) type value _
      exact h.except_bind (executeFields scope selections id value path) fun _ => h.except_pure _

/-- Fields of a parent value, one after another. -/
theorem executeFields [LawfulMonad m] [LawfulMonad n]
    (scope : Scope m) : ∀ (nodes : List Field) (parentType : TypeId)
    (parent : Value) (path : ResponsePath),
    R (Execution.executeFields (host.scope scope) nodes parentType parent path).run
      (Execution.executeFields scope nodes parentType parent path).run
  | [], _, _, _ => by
    unfold Execution.executeFields
    exact h.except_pure _
  | node :: rest, parentType, parent, path => by
    unfold Execution.executeFields
    refine h.except_bind (executeField scope node parentType parent path) fun _ => ?_
    exact h.except_bind (executeFields scope rest parentType parent path) fun _ => h.except_pure _

end

omit [LawfulMonad m] [LawfulMonad n] in
theorem runTasks {f : Field → Engine n FieldResult} {g : Field → Engine m FieldResult}
    (hf : ∀ node, R (f node).run (g node).run) (nodes : List Field) :
    R (Execution.runTasks (nodes.map f)) (Execution.runTasks (nodes.map g)) := by
  induction nodes with
  | nil => exact h.pure _
  | cons node rest ih =>
    simp only [List.map_cons, Execution.runTasks]
    exact h.bind (hf node) fun _ => h.bind ih fun _ => h.pure _

theorem executeTop (scope : Scope m) (parallel : Bool) (nodes : List Field) (parentType : TypeId)
    (parent : Value) :
    R (Execution.executeTop (host.scope scope) parallel nodes parentType parent).run
      (Execution.executeTop scope parallel nodes parentType parent).run := by
  unfold Execution.executeTop
  cases parallel with
  | false => exact h.executeFields scope nodes parentType parent []
  | true =>
    refine h.except_bind (h.except_lift (h.runTasks (fun node =>
      h.executeField scope node parentType parent []) nodes)) fun endings => ?_
    exact h.except_bind (h.pure _) fun _ => h.except_pure _

theorem runOperation (schema : Schema m) (options : RequestOptions) (response : Response)
    (operation : Operation) :
    R (Request.runOperation (host.schema schema) options response operation).run
      (Request.runOperation schema options response operation).run := by
  unfold Request.runOperation
  rw [rootType?_schema]
  cases Request.rootType? schema operation.kind with
  | none => exact h.except_pure _
  | some root =>
    simp only [VariableBindings.ofDefinitions_hosted]
    refine h.except_bind (h.engine _) fun bound => ?_
    refine h.except_bind (h.executeTop ⟨schema, bound.values, options.context⟩ _ _ _ _)
      fun results => ?_
    exact h.except_bind (h.except_lift (h.log _ _)) fun _ => h.except_pure _

theorem runOperations (schema : Schema m) (options : RequestOptions) (response : Response)
    (operations : List Operation) :
    R (Request.runOperations (host.schema schema) options response operations).run
      (Request.runOperations schema options response operations).run := by
  induction operations generalizing response with
  | nil => exact h.except_pure _
  | cons operation rest ih =>
    unfold Request.runOperations
    exact h.except_bind (h.runOperation schema options response operation) ih

/-- A document runs on the new host as it did on the old one. -/
theorem runDocument (schema : Schema m) (options : RequestOptions) (document : Document) :
    R (Request.runDocument (host.schema schema) options document).run
      (Request.runDocument schema options document).run := by
  unfold Request.runDocument
  refine h.except_bind (h.pure _) fun checked => ?_
  exact h.map _ (h.runOperations schema checked _ _)

theorem parse (query : Bytes) : R (Request.parse query : ExceptT Refusal n Document).run
    (Request.parse query : ExceptT Refusal m Document).run := by
  unfold Request.parse
  cases Document.ofText query with
  | ok document => exact h.except_pure document
  | error error => exact h.except_bind (h.except_lift (h.log _ _)) fun _ => h.pure _

/-- So does a query text, and its envelope is the same. -/
theorem execute (schema : Schema m) (options : RequestOptions) (query : Bytes) :
    R (Request.execute (some (host.schema schema)) options query).run
      (Request.execute (some schema) options query).run := by
  have hrun : R (Request.run (some (host.schema schema)) options query).run
      (Request.run (some schema) options query).run := by
    simp only [Request.run, Request.requireSchema, pure_bind]
    exact h.except_bind (h.parse query) fun document => h.runDocument schema options document
  refine h.bind hrun fun result => ?_
  split <;> exact h.pure _

end Hosting.Simulation

end GraphQL
