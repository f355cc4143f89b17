/-
GraphQL.Proofs.Execution.Calls — the resolver calls that a request makes.

  §1 Mirroring   — a recorded computation beside the plain one.
  §2 Failures    — the same for computations that may fail.
  §3 Resolution  — one call, and the completion of what it gives.
  §4 Fields      — fields, nested to any depth.
  §5 Requests    — operations, documents and query texts.

Recorded and plain run are compared step by step. One relation carries both
what is wanted: forgetting the record gives the plain run, and each call that
the record gains has conforming arguments. The first half is what makes the
second a statement about the plain run.
-/
import GraphQL.Proofs.Execution.Recording
import GraphQL.Proofs.Input.SoundCoercion
import GraphQL.Proofs.Value.Equality

namespace GraphQL

open MonadAttach (CanReturn)
open LawfulMonadAttach (canReturn_bind_imp' eq_of_canReturn_pure)

variable {m : Type → Type} [Monad m] [LawfulMonad m] [MonadAttach m] [LawfulMonadAttach m]

/-! ## §1 Mirroring -/

/-- A recorded computation mirrors a plain one: without its record it is the
plain one, and all that it adds to the record are calls of the kind kept. -/
def Mirrors {α : Type} (kept : Call m → Prop) (recorded : Recording m α) (plain : m α) : Prop :=
  ∀ before, Prod.fst <$> recorded.run before = plain ∧
    ∀ result after, CanReturn (recorded.run before) (result, after) →
      ∃ calls, after = before ++ calls ∧ ∀ call ∈ calls, kept call

namespace Mirrors

variable {kept : Call m → Prop} {α β : Type}

theorem of_pure (a : α) : Mirrors kept (pure a) (pure a) := by
  intro before
  constructor
  · simp
  · intro result after h
    have heq : (a, before) = (result, after) := eq_of_canReturn_pure (m := m) h
    cases heq
    exact ⟨[], by simp, by simp⟩

theorem of_bind {x : Recording m α} {y : m α} {f : α → Recording m β} {g : α → m β}
    (hx : Mirrors kept x y) (hf : ∀ a, Mirrors kept (f a) (g a)) :
    Mirrors kept (x >>= f) (y >>= g) := by
  intro before
  constructor
  · calc Prod.fst <$> (x >>= f).run before
        = x.run before >>= fun step => Prod.fst <$> (f step.1).run step.2 := by simp
      _ = x.run before >>= fun step => g step.1 := by
          refine bind_congr fun step => ?_
          exact (hf step.1 step.2).1
      _ = (Prod.fst <$> x.run before) >>= g := by simp
      _ = y >>= g := by rw [(hx before).1]
  · intro result after h
    obtain ⟨⟨a, middle⟩, hstep, hrest⟩ := canReturn_bind_imp' (x := x.run before) h
    obtain ⟨first, rfl, hfirst⟩ := (hx before).2 a middle hstep
    obtain ⟨later, rfl, hlater⟩ := (hf a (before ++ first)).2 result after hrest
    refine ⟨first ++ later, List.append_assoc _ _ _, ?_⟩
    intro call hcall
    rcases List.mem_append.1 hcall with hcall | hcall
    · exact hfirst call hcall
    · exact hlater call hcall

/-- A silent step may be known by what it gives. -/
theorem of_lift_bind {y : m α} {f : α → Recording m β} {g : α → m β}
    (hf : ∀ a, CanReturn y a → Mirrors kept (f a) (g a)) :
    Mirrors kept (StateT.lift y >>= f) (y >>= g) := by
  intro before
  constructor
  -- The two sides agree only on what `y` can give, so that is attached to it first.
  · calc Prod.fst <$> (StateT.lift y >>= f).run before
        = y >>= fun a => Prod.fst <$> (f a).run before := by simp
      _ = MonadAttach.attach y >>= fun a => Prod.fst <$> (f a.1).run before := by
          rw [← WeaklyLawfulMonadAttach.attach_bind_val]
      _ = MonadAttach.attach y >>= fun a => g a.1 := by
          refine bind_congr fun a => ?_
          exact (hf a.1 a.2 before).1
      _ = y >>= g := WeaklyLawfulMonadAttach.attach_bind_val
  · intro result after h
    simp only [StateT.run_bind, StateT.run_lift, bind_assoc, pure_bind] at h
    obtain ⟨a, ha, hrest⟩ := canReturn_bind_imp' h
    exact (hf a ha before).2 result after hrest

theorem of_lift (y : m α) : Mirrors kept (StateT.lift y) y := by
  have h : Mirrors kept (StateT.lift y >>= pure) (y >>= pure) :=
    of_lift_bind fun a _ => of_pure a
  simpa using h

theorem of_map {x : Recording m α} {y : m α} (f : α → β) (hx : Mirrors kept x y) :
    Mirrors kept (f <$> x) (f <$> y) := by
  rw [map_eq_pure_bind, map_eq_pure_bind]
  exact of_bind hx fun a => of_pure (f a)

/-- A recorded resolver mirrors the resolver, if the call is one to keep. -/
theorem of_resolver {field : FieldType m} {arguments context parent : Value}
    (hkept : kept ⟨field, arguments, context, parent⟩) :
    Mirrors kept (field.recorded.resolver arguments context parent)
      (field.resolver arguments context parent) := by
  intro before
  constructor
  · simp [FieldType.recorded]
  · intro result after h
    simp only [FieldType.recorded, StateT.run_bind, StateT.run_modify, StateT.run_lift,
      pure_bind] at h
    obtain ⟨resolution, _, hrest⟩ := canReturn_bind_imp' h
    have heq := eq_of_canReturn_pure hrest
    cases heq
    exact ⟨[⟨field, arguments, context, parent⟩], rfl, by simpa using hkept⟩

/-! ## §2 Failures -/

section Failures

variable {ε : Type}

theorem of_except_pure (a : α) :
    Mirrors kept (pure a : ExceptT ε (Recording m) α).run (pure a : ExceptT ε m α).run :=
  of_pure _

theorem of_except_bind {x : ExceptT ε (Recording m) α} {y : ExceptT ε m α}
    {f : α → ExceptT ε (Recording m) β} {g : α → ExceptT ε m β}
    (hx : Mirrors kept x.run y.run) (hf : ∀ a, Mirrors kept (f a).run (g a).run) :
    Mirrors kept (x >>= f).run (y >>= g).run := by
  rw [ExceptT.run_bind, ExceptT.run_bind]
  refine of_bind hx fun result => ?_
  cases result with
  | ok a => exact hf a
  | error failure => exact of_pure _

theorem of_except_lift {x : Recording m α} {y : m α} (hx : Mirrors kept x y) :
    Mirrors kept (ExceptT.lift x : ExceptT ε (Recording m) α).run
      (ExceptT.lift y : ExceptT ε m α).run :=
  of_map Except.ok hx

/-- A silent step of the engine may be known by what it gives. -/
theorem of_silent_bind {y : Engine m α} {f : α → Engine (Recording m) β} {g : α → Engine m β}
    (hf : ∀ a, CanReturn y a → Mirrors kept (f a).run (g a).run) :
    Mirrors kept (y.silent >>= f).run (y >>= g).run := by
  rw [ExceptT.run_bind, ExceptT.run_bind]
  refine of_lift_bind fun result hresult => ?_
  cases result with
  | ok a => exact hf a hresult
  | error fault => exact of_pure _

end Failures

end Mirrors

/-! ## §3 Resolution -/

/-- The scope with its schema recording calls. -/
def Scope.recorded (scope : Scope m) : Scope (Recording m) :=
  ⟨scope.schema.recorded, scope.bindings, scope.context⟩

namespace Execution

variable [MonadLog m] {kept : Call m → Prop}

theorem mirrors_log (level : Level) (words : List Bytes) :
    Mirrors kept (MonadLog.log level words : Recording m Unit) (MonadLog.log level words) :=
  .of_lift _

theorem mirrors_logRaised (field : Bytes) (resolution : Resolution) :
    Mirrors kept (logRaised field resolution : Recording m Unit) (logRaised field resolution) := by
  cases resolution with
  | ok _ => exact .of_pure ()
  | error _ => exact .of_pure ()
  | untagged => exact .of_pure ()
  | raised _ => exact mirrors_log _ _
  | raisedOther => exact mirrors_log _ _

/-- Calling a resolver adds its call to the record. -/
theorem mirrors_resolve {scope : Scope m} {field : FieldType m} {arguments : Members}
    {parent : Value} (hkept : kept ⟨field, .object arguments, scope.context, parent⟩) :
    Mirrors kept (resolve scope.recorded field.recorded arguments parent).run
      (resolve scope field arguments parent).run := by
  unfold resolve
  refine .of_except_bind (.of_except_lift (.of_resolver hkept)) fun resolution => ?_
  refine .of_except_bind (.of_except_lift (mirrors_logRaised _ _)) fun _ => ?_
  exact .of_except_pure resolution

omit [MonadLog m] in
/-- The items of a list are completed one after another. -/
theorem mirrors_completeItems {f : Value → ResponsePath → Engine (Recording m) Completed}
    {g : Value → ResponsePath → Engine m Completed}
    (hf : ∀ value path, Mirrors kept (f value path).run (g value path).run)
    (path : ResponsePath) (index : Nat) (items : List Value) :
    Mirrors kept (completeItems f path index items).run (completeItems g path index items).run := by
  induction items generalizing index with
  | nil => exact .of_except_pure _
  | cons item rest ih =>
    unfold completeItems
    refine .of_except_bind (hf item _) fun result => ?_
    exact .of_except_bind (ih _) fun _ => .of_except_pure _

omit [MonadLog m] in
/-- Completion calls what nested selections call. -/
theorem mirrors_complete {schema : Schema m}
    {f : TypeId → Value → ResponsePath → Engine (Recording m) Completed}
    {g : TypeId → Value → ResponsePath → Engine m Completed}
    (hf : ∀ id value path, Mirrors kept (f id value path).run (g id value path).run)
    (type : TypeExpr TypeId) (value : Value) (path : ResponsePath) :
    Mirrors kept (complete schema.recorded f type value path).run
      (complete schema g type value path).run := by
  induction type using TypeExpr.reading generalizing value path with
  | nonNull inner ih =>
    rw [complete_nonNull, complete_nonNull]
    exact ih value path
  | list element ih =>
    cases value with
    | null => exact .of_except_pure _
    | list items =>
      exact .of_except_bind (mirrors_completeItems ih path 0 items) fun _ => .of_except_pure _
    | bool _ => exact ih _ path
    | int _ => exact ih _ path
    | uint _ => exact ih _ path
    | float _ => exact ih _ path
    | string _ => exact ih _ path
    | object _ => exact ih _ path
  | named id =>
    rw [complete_named, complete_named]
    split
    · exact .of_except_pure _
    · rw [Schema.type?_recorded]
      cases schema.type? id with
      | none => exact .of_pure _
      | some type =>
        simp only [Option.map_some, Schema.isObject_recorded]
        split
        · exact hf id value path
        · exact .of_except_pure _

/-- A declared field whose arguments are checked makes its own call, and then
those below it. -/
theorem mirrors_runResolver {scope : Scope m} {site : FieldSite} {field : FieldType m}
    {arguments : ArgumentVerdict} {parent : Value}
    (hkept : kept ⟨field, .object arguments.values, scope.context, parent⟩)
    {f : Value → Engine (Recording m) Completed} {g : Value → Engine m Completed}
    (hf : ∀ value, Mirrors kept (f value).run (g value).run) :
    Mirrors kept (runResolver scope.recorded site field.recorded arguments parent f).run
      (runResolver scope site field arguments parent g).run := by
  unfold runResolver
  refine .of_except_bind (mirrors_resolve hkept) fun resolution => ?_
  cases resolution with
  | ok value => exact .of_except_bind (hf value) fun _ => .of_except_pure _
  | error _ => exact .of_except_pure _
  | untagged => exact .of_except_pure _
  | raised _ => exact .of_except_pure _
  | raisedOther => exact .of_except_pure _

end Execution

/-! ## §4 Fields -/

/-- A call of a field that the schema declares, with an object of arguments
that conform to the declared ones. -/
structure Call.Conforms (schema : Schema m) (call : Call m) : Prop where
  declared : ∃ id fields, schema.body? id = some (.object fields) ∧ call.field ∈ fields
  arguments : ∃ members, call.arguments = .object members ∧
    MembersConform schema.inputBody? call.field.arguments members

omit [LawfulMonad m] [MonadAttach m] [LawfulMonadAttach m] [Monad m] in
/-- A field that is found is declared by an object type. -/
theorem Schema.declared_of_field? {schema : Schema m} {parent : TypeId} {name : Bytes}
    {field : FieldType m} (h : schema.field? parent name = some field) :
    ∃ id fields, schema.body? id = some (.object fields) ∧ field ∈ fields := by
  unfold field? at h
  cases htype : schema.type? parent with
  | none => simp [htype] at h
  | some type =>
    rw [htype, Option.bind_some, NamedType.field?_eq] at h
    cases hbody : type.body with
    | scalar _ => simp [hbody] at h
    | inputObject _ => simp [hbody] at h
    | object fields =>
      rw [hbody] at h
      exact ⟨parent, fields, by simp [body?, htype, hbody], List.mem_of_find?_eq_some h⟩

namespace Execution

variable [MonadLog m] {scope : Scope m} (hschema : scope.schema.Trusted)
include hschema

/-- A field makes its call only with arguments that conform. -/
theorem mirrors_runField {node : Field} {parentType : TypeId} {parent : Value}
    {path : ResponsePath} {f : TypeExpr TypeId → Value → Engine (Recording m) Completed}
    {g : TypeExpr TypeId → Value → Engine m Completed}
    (hf : ∀ type value,
      Mirrors (Call.Conforms scope.schema) (f type value).run (g type value).run) :
    Mirrors (Call.Conforms scope.schema)
      (runField scope.recorded node parentType parent path f).run
      (runField scope node parentType parent path g).run := by
  -- The check of the arguments is silent; only its verdict decides about the call.
  unfold runField
  simp only [Scope.recorded, Schema.field?_recorded]
  cases hfield : scope.schema.field? parentType node.name with
  | none => exact .of_except_pure _
  | some field =>
    simp only [Option.map_some, checkArguments_recorded]
    refine .of_silent_bind fun verdict hverdict => ?_
    obtain ⟨id, fields, hbody, hmem⟩ := Schema.declared_of_field? hfield
    by_cases hvalid : verdict.valid = true
    · have hconform := checkArguments_sound hschema
        (hschema.body hbody field hmem) hverdict hvalid
      simp only [hvalid, if_true]
      exact mirrors_runResolver ⟨⟨id, fields, hbody, hmem⟩, ⟨_, rfl, hconform⟩⟩ (hf field.type)
    · simp only [hvalid]
      exact .of_except_pure _

omit hschema in
mutual

/-- A field and everything below it. -/
theorem mirrors_executeField (hschema : scope.schema.Trusted) :
    ∀ (node : Field) (parentType : TypeId) (parent : Value)
    (path : ResponsePath), Mirrors (Call.Conforms scope.schema)
      (executeField scope.recorded node parentType parent path).run
      (executeField scope node parentType parent path).run
  | ⟨aliasName, name, arguments, selections, location⟩, parentType, parent, path => by
    unfold executeField
    refine mirrors_runField hschema fun type value => ?_
    by_cases hleaf : selections.isEmpty = true
    · simp only [hleaf, if_true]
      exact .of_except_pure _
    · simp only [hleaf]
      refine mirrors_complete (fun id value path => ?_) type value _
      exact .of_except_bind (mirrors_executeFields hschema selections id value path) fun _ =>
        .of_except_pure _

/-- Fields of a parent value, one after another. -/
theorem mirrors_executeFields (hschema : scope.schema.Trusted) :
    ∀ (nodes : List Field) (parentType : TypeId) (parent : Value)
    (path : ResponsePath), Mirrors (Call.Conforms scope.schema)
      (executeFields scope.recorded nodes parentType parent path).run
      (executeFields scope nodes parentType parent path).run
  | [], _, _, _ => by
    unfold executeFields
    exact .of_except_pure _
  | node :: rest, parentType, parent, path => by
    unfold executeFields
    refine .of_except_bind (mirrors_executeField hschema node parentType parent path) fun _ => ?_
    exact .of_except_bind (mirrors_executeFields hschema rest parentType parent path) fun _ =>
      .of_except_pure _

end

omit hschema [MonadLog m] in
/-- Tasks run one after another, whatever becomes of them. -/
theorem mirrors_runTasks {kept : Call m → Prop} {f : Field → Engine (Recording m) FieldResult}
    {g : Field → Engine m FieldResult} (hf : ∀ node, Mirrors kept (f node).run (g node).run)
    (nodes : List Field) : Mirrors kept (runTasks (nodes.map f)) (runTasks (nodes.map g)) := by
  induction nodes with
  | nil => exact .of_pure _
  | cons node rest ih =>
    simp only [List.map_cons, runTasks]
    exact .of_bind (hf node) fun _ => .of_bind ih fun _ => .of_pure _

/-- The fields at the top, side by side or one after another. -/
theorem mirrors_executeTop (parallel : Bool) (nodes : List Field) (parentType : TypeId)
    (parent : Value) : Mirrors (Call.Conforms scope.schema)
      (executeTop scope.recorded parallel nodes parentType parent).run
      (executeTop scope parallel nodes parentType parent).run := by
  unfold executeTop
  cases parallel with
  | false => exact mirrors_executeFields hschema nodes parentType parent []
  | true =>
    refine .of_except_bind (.of_except_lift (mirrors_runTasks (fun node =>
      mirrors_executeField hschema node parentType parent []) nodes)) fun endings => ?_
    exact .of_except_bind (.of_pure _) fun _ => .of_except_pure _

end Execution

/-! ## §5 Requests -/

namespace Request

variable [MonadLog m] {schema : Schema m} (hschema : schema.Trusted) (options : RequestOptions)
include hschema

theorem mirrors_runOperation (response : Response) (operation : Operation) :
    Mirrors (Call.Conforms schema)
      (runOperation schema.recorded options response operation).run
      (runOperation schema options response operation).run := by
  have hroot : rootType? schema.recorded operation.kind = rootType? schema operation.kind := by
    cases operation.kind <;> rfl
  unfold runOperation
  rw [hroot]
  cases rootType? schema operation.kind with
  | none => exact .of_except_pure _
  | some root =>
    simp only [VariableBindings.ofDefinitions_recorded]
    refine .of_silent_bind fun bound _ => ?_
    let scope : Scope m := ⟨schema, bound.values, options.context⟩
    have htop := Execution.mirrors_executeTop (show scope.schema.Trusted from hschema)
      (options.parallel && operation.kind == .query) operation.selections root options.root
    refine .of_except_bind htop fun results => ?_
    exact .of_except_bind (.of_except_lift (Execution.mirrors_log _ _)) fun _ => .of_except_pure _

theorem mirrors_runOperations (response : Response) (operations : List Operation) :
    Mirrors (Call.Conforms schema)
      (runOperations schema.recorded options response operations).run
      (runOperations schema options response operations).run := by
  induction operations generalizing response with
  | nil => exact .of_except_pure _
  | cons operation rest ih =>
    unfold runOperations
    exact .of_except_bind (mirrors_runOperation hschema options response operation) ih

theorem mirrors_runDocument (document : Document) :
    Mirrors (Call.Conforms schema) (runDocument schema.recorded options document).run
      (runDocument schema options document).run := by
  unfold runDocument
  refine .of_except_bind (.of_pure _) fun checked => ?_
  exact .of_map _ (mirrors_runOperations hschema checked _ _)

omit hschema in
theorem mirrors_parse {kept : Call m → Prop} (query : Bytes) :
    Mirrors kept (parse query : ExceptT Refusal (Recording m) Document).run
      (parse query : ExceptT Refusal m Document).run := by
  unfold parse
  cases Document.ofText query with
  | ok document => exact .of_except_pure _
  | error error =>
    exact .of_except_bind (.of_except_lift (Execution.mirrors_log _ _)) fun _ => .of_pure _

theorem mirrors_run (query : Bytes) :
    Mirrors (Call.Conforms schema) (run (some schema.recorded) options query).run
      (run (some schema) options query).run := by
  unfold run requireSchema
  simp only [pure_bind]
  exact .of_except_bind (mirrors_parse query) (mirrors_runDocument hschema options)

/-- Recording leaves a request as it is, and each call that any run of it makes
has conforming arguments. -/
theorem calls_conform_of_run (query : Bytes) :
    Prod.fst <$> (run (some schema.recorded) options query).run.run [] =
        (run (some schema) options query).run ∧
      ∀ result calls,
        CanReturn ((run (some schema.recorded) options query).run.run []) (result, calls) →
        ∀ call ∈ calls, call.Conforms schema := by
  obtain ⟨hplain, hcalls⟩ := mirrors_run hschema options query []
  refine ⟨hplain, fun result calls hresult => ?_⟩
  obtain ⟨made, rfl, hconform⟩ := hcalls result calls hresult
  exact hconform

end Request

/-- A schema whose queries have one field, which takes a range and limits. -/
def Schema.cutting : Schema Id where
  types := Build.builtInTypes ++ [
    .of (utf8 "Range") [] (.inputObject [
      ⟨utf8 "low", .nonNull (.named 1), none, none, []⟩,
      ⟨utf8 "high", .named 1, some (.int 9), none, []⟩]),
    .of (utf8 "Query") [] (.object [
      ⟨utf8 "cut", .named 1, [
        ⟨utf8 "range", .nonNull (.named 5), none, none, []⟩,
        ⟨utf8 "limits", .list (.named 1), none, none, []⟩],
        memberResolver (utf8 "cut"), none, []⟩])]
  query := 6
  mutation := none

theorem Schema.trusted_cutting : Schema.cutting.Trusted := by
  intro type hmem
  rcases List.mem_append.1 hmem with hmem | hmem
  · exact Build.trusted_of_builtInTypes hmem _
  · simp only [List.mem_cons, List.not_mem_nil, or_false] at hmem
    rcases hmem with rfl | rfl
    · intro field hfield value hvalue
      simp only [List.mem_cons, List.not_mem_nil, or_false] at hfield
      rcases hfield with rfl | rfl
      · cases hvalue
      · cases hvalue
        exact .scalar rfl ⟨.int 9, rfl⟩
    · intro field hfield argument hargument value hvalue
      simp only [List.mem_cons, List.not_mem_nil, or_false] at hfield
      subst hfield
      simp only [List.mem_cons, List.not_mem_nil, or_false] at hargument
      rcases hargument with rfl | rfl <;> cases hvalue

/-- Where nothing but the result happens, the result is what is given. -/
theorem canReturn_id {α β : Type} (x : Id (α × β)) : CanReturn x (x.run.1, x.run.2) := rfl

/-- A variable's default inside an object literal, an input field's default, and
a single value for a list all reach the resolver as the types want them. -/
theorem Request.calls_conform_of_run_cutting :
    let query := utf8 "query($low:Int=3){cut(range:{low:$low},limits:5)}"
    let calls := ((run (some Schema.cutting.recorded) .plain query).run.run []).2
    calls.map (·.arguments) = [.object [
      (utf8 "range", .object [(utf8 "low", .int 3), (utf8 "high", .int 9)]),
      (utf8 "limits", .list [.int 5])]] ∧
    ∀ call ∈ calls, call.Conforms Schema.cutting := by
  refine ⟨by decide +kernel, ?_⟩
  exact (calls_conform_of_run Schema.trusted_cutting .plain _).2 _ _ (canReturn_id _)

end GraphQL
