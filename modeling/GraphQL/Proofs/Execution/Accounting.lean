/-
GraphQL.Proofs.Execution.Accounting — every run has an account.

  §1 Results     — what comes without a fault, with the events that led to it.
  §2 Completion  — completed values have accounts.
  §3 Fields      — so have the results of fields, nested to any depth.
  §4 Requests    — and the responses to documents.

The run is the traced one, so the events of an account are the calls that were made
and the answers that were given. Nothing is said of runs that a fault aborts.
-/
import GraphQL.Proofs.Execution.Account
import GraphQL.Proofs.Execution.Order

namespace GraphQL

open MonadAttach (CanReturn)
open Execution (Completed noticesBefore resolutionMessage?)

variable {m : Type → Type} [Monad m] [MonadAttach m] [LawfulMonad m] [LawfulMonadAttach m]

/-! ## §1 Results -/

/-- Every result that comes without a fault has `R` with the events that led to it. -/
def Gives {ε α : Type} (x : ExceptT ε (Tracing m) α) (R : α → List (Event m) → Prop) : Prop :=
  Yields x.run fun result events => ∀ a, result = .ok a → R a events

namespace Gives

variable {ε α β : Type} {x : ExceptT ε (Tracing m) α} {f : α → ExceptT ε (Tracing m) β}
  {R R' : α → List (Event m) → Prop} {S : β → List (Event m) → Prop}

theorem pure {a : α} (h : R a []) : Gives (Pure.pure a : ExceptT ε (Tracing m) α) R := by
  refine Yields.except_pure fun b hb => ?_
  cases hb
  exact h

theorem throw (failure : ε) : Gives (MonadExcept.throw failure : ExceptT ε (Tracing m) α) R :=
  Yields.of_pure nofun

theorem bind (hx : Gives x R)
    (hf : ∀ a events, R a events → Gives (f a) fun b later => S b (events ++ later)) :
    Gives (x >>= f) S :=
  Yields.except_bind hx (fun a events h => hf a events (h a rfl)) fun _ _ _ => nofun

omit [Monad m] [LawfulMonad m] [LawfulMonadAttach m] in
theorem imp (hx : Gives x R) (h : ∀ a events, R a events → R' a events) : Gives x R' :=
  Yields.imp hx fun _ events hgiven a ha => h a events (hgiven a ha)

/-- A result that is there already leaves no events. -/
theorem of_except (result : Except ε α) :
    Gives (ExceptT.mk (Pure.pure result) : ExceptT ε (Tracing m) α)
      fun a events => result = .ok a ∧ events = [] :=
  Yields.of_pure fun _ ha => ⟨ha, rfl⟩

/-- A failure in another form is a failure still. -/
theorem adapt {ε' : Type} (g : ε → ε') (hx : Gives x R) : Gives (x.adapt g) R := by
  refine Yields.map hx fun result events hresult a ha => ?_
  cases result with
  | ok _ =>
    cases ha
    exact hresult a rfl
  | error _ => cases ha

/-- What the engine does by itself leaves no events. -/
theorem engine_bind {y : Engine m α} {f : α → Engine (Tracing m) β}
    (hf : ∀ a, CanReturn y a → Gives (f a) S) : Gives (Hosting.tracing.engine y >>= f) S := by
  refine Yields.except_bind (Yields.of_engine y) ?_ fun _ _ _ => nofun
  rintro a events ⟨rfl, ha⟩
  exact hf a ha

end Gives

/-! ## §2 Completion -/

namespace Execution

variable {scope : Scope m} {selections : List Field}

theorem gives_completeItems {element : TypeExpr TypeId}
    {complete : Value → ResponsePath → Engine (Tracing m) Completed}
    (hcomplete : ∀ value path, Gives (complete value path)
      (Completion.Explains scope selections element value path))
    (path : ResponsePath) (index : Nat) (items : List Value) :
    Gives (completeItems complete path index items)
      (Completion.AllExplain scope selections element path index items) := by
  induction items generalizing index with
  | nil => exact .pure ⟨[], ⟨rfl, by simp⟩, rfl, rfl⟩
  | cons item rest ih =>
    unfold completeItems
    refine (hcomplete item _).bind ?_
    rintro _ _ ⟨first, hfirst, rfl, rfl⟩
    refine (ih (index + 1)).bind ?_
    rintro _ _ ⟨completions, hcompletions, rfl, rfl⟩
    refine .pure ⟨first :: completions, hcompletions.cons hfirst, ?_, ?_⟩
    · simp
    · simp [Visit.events]

section Completing

variable {select : TypeId → Value → ResponsePath → Engine (Tracing m) Completed}
  (hselect : ∀ id value path, Gives (select id value path)
    (Completion.ObjectExplains scope selections id value path))

include hselect

theorem gives_complete_named (id : TypeId) (value : Value) (path : ResponsePath) :
    Gives (complete (Hosting.tracing.schema scope.schema) select (.named id) value path)
      (Completion.Explains scope selections (.named id) value path) := by
  rw [complete_named]
  split
  · exact .pure ⟨.plain .null, .null, rfl, rfl⟩
  · rename_i hnull
    rw [Hosting.type?_schema]
    cases htype : scope.schema.type? id with
    | none => exact .throw _
    | some type =>
      have hobjectType : scope.schema.isObjectType id = type.isObject := by
        simp [Schema.isObjectType, htype]
      simp only [Option.map_some, Hosting.isObject_type]
      cases hobject : type.isObject with
      | true =>
        refine (hselect id value path).imp ?_
        rintro _ _ ⟨visits, htell, rfl, rfl⟩
        exact ⟨.object path visits,
          .object hnull (hobjectType.trans hobject) htell.nodes htell.tell, rfl, rfl⟩
      | false =>
        exact .pure ⟨.plain value, .leaf hnull (hobjectType.trans hobject), rfl, rfl⟩

/-- Completion has an account, given one for the objects that are met. -/
theorem gives_complete (type : TypeExpr TypeId) (value : Value) (path : ResponsePath) :
    Gives (complete (Hosting.tracing.schema scope.schema) select type value path)
      (Completion.Explains scope selections type value path) := by
  induction type using TypeExpr.reading generalizing value path with
  | named id => exact gives_complete_named hselect id value path
  | list element ih =>
    have hsingle : ∀ value : Value, value ≠ .null → value.isList = false →
        Gives (complete (Hosting.tracing.schema scope.schema) select element value path)
          (Completion.Explains scope selections (.list element) value path) := by
      intro value hnull hlist
      refine (ih value path).imp ?_
      rintro _ _ ⟨completion, htells, rfl, rfl⟩
      exact ⟨completion, .single hnull hlist htells, rfl, rfl⟩
    cases value with
    | null => exact .pure ⟨.plain .null, .null, rfl, rfl⟩
    | list items =>
      refine (gives_completeItems ih path 0 items).bind ?_
      rintro _ _ ⟨completions, hcompletions, rfl, rfl⟩
      refine .pure ⟨.list completions, hcompletions.list, ?_, ?_⟩
      · simp [Completion.completed, Completion.value, Completion.visits, Completion.values_eq,
          Completion.visitsOfItems_eq]
      · simp [Completion.visits, Completion.visitsOfItems_eq]
    | bool _ => exact hsingle _ (by simp) rfl
    | int _ => exact hsingle _ (by simp) rfl
    | uint _ => exact hsingle _ (by simp) rfl
    | float _ => exact hsingle _ (by simp) rfl
    | string _ => exact hsingle _ (by simp) rfl
    | object _ => exact hsingle _ (by simp) rfl
  | nonNull inner ih =>
    rw [complete_nonNull]
    refine (ih value path).imp ?_
    rintro _ _ ⟨completion, htells, rfl, rfl⟩
    exact ⟨completion, .nonNull htells, rfl, rfl⟩

end Completing

variable [MonadLog m]

/-! ## §3 Fields -/

/-- A resolver that is called leaves its call with the answer that it gave. -/
theorem gives_resolve {field : FieldType m} {arguments : Members} {parent : Value} :
    Gives (resolve (Hosting.tracing.scope scope) (Hosting.tracing.field field) arguments parent)
      fun answer events =>
        events = [⟨⟨field, .object arguments, scope.context, parent⟩, answer⟩] := by
  refine Yields.imp yields_resolve ?_
  rintro result events ⟨answer, rfl, rfl⟩ a ha
  cases ha
  rfl

/-- A declared field whose arguments are valid has an account, given one for what
its resolver gives. -/
theorem gives_runResolver {node : Field} {parentType : TypeId} {parent : Value}
    {path : ResponsePath} {field : FieldType m} {verdict : ArgumentVerdict}
    (hfield : scope.schema.field? parentType node.name = some field)
    (hverdict : CanReturn (checkArguments scope.schema scope.bindings field node path) verdict)
    (hvalid : verdict.valid = true) {finish : Value → Engine (Tracing m) Completed}
    (hfinish : ∀ value, Gives (finish value)
      (Completion.AnswerExplains scope node field.type path value)) :
    Gives (runResolver (Hosting.tracing.scope scope) ⟨field.name, node.location, path⟩
        (Hosting.tracing.field field) verdict parent finish)
      (Visit.Explains scope node parentType parent path) := by
  have hfailed : ∀ answer : Resolution, (∀ value, answer ≠ .ok value) →
      Visit.Explains scope node parentType parent path
        ⟨some .null, noticesBefore ⟨field.name, node.location, path⟩ field verdict
          ++ ((resolutionMessage? field.name answer).map
            (FieldSite.record ⟨field.name, node.location, path⟩)).toList⟩
        [⟨⟨field, .object verdict.values, scope.context, parent⟩, answer⟩] := by
    intro answer hanswer
    refine ⟨_, .called hfield hverdict hvalid (.failed hanswer), ?_, rfl⟩
    simp [Visit.result, Visit.value?, Completion.value, Visit.all, Completion.visits,
      Visit.records, Visit.failure?]
    rfl
  unfold runResolver
  refine gives_resolve.bind ?_
  rintro answer _ rfl
  cases answer with
  | ok value =>
    refine (hfinish value).bind ?_
    rintro _ _ ⟨completion, hanswers, rfl, rfl⟩
    refine .pure ⟨_, .called hfield hverdict hvalid hanswers, ?_, ?_⟩
    · simp [Visit.result, Visit.value?, Visit.all, Visit.records, Visit.failure?,
        resolutionMessage?]
      rfl
    · simp [Visit.all, Visit.events, Visit.event?]
  | error _ => exact .pure (hfailed _ (by simp))
  | untagged => exact .pure (hfailed _ (by simp))
  | raised _ => exact .pure (hfailed _ (by simp))
  | raisedOther => exact .pure (hfailed _ (by simp))

/-- A field has an account, given one for what its resolver gives. -/
theorem gives_runField {node : Field} {parentType : TypeId} {parent : Value} {path : ResponsePath}
    {finish : TypeExpr TypeId → Value → Engine (Tracing m) Completed}
    (hfinish : ∀ type value, Gives (finish type value)
      (Completion.AnswerExplains scope node type path value)) :
    Gives (runField (Hosting.tracing.scope scope) node parentType parent path finish)
      (Visit.Explains scope node parentType parent path) := by
  unfold runField
  simp only [Hosting.scope, Hosting.field?_schema]
  cases hfield : scope.schema.field? parentType node.name with
  | none => exact .pure ⟨.unknown node path, .unknown hfield, rfl, rfl⟩
  | some field =>
    simp only [Option.map_some, checkArguments_hosted]
    refine .engine_bind fun verdict hverdict => ?_
    cases hvalid : verdict.valid with
    | true => exact gives_runResolver hfield hverdict hvalid (hfinish field.type)
    | false =>
      refine .pure ⟨_, .refused hfield hverdict hvalid, ?_, rfl⟩
      simp [Visit.result, Visit.value?, Visit.all, Visit.records]

mutual

/-- A field and everything below it have an account. -/
theorem gives_executeField : ∀ (node : Field) (parentType : TypeId) (parent : Value)
    (path : ResponsePath), Gives
      (executeField (Hosting.tracing.scope scope) node parentType parent path)
      (Visit.Explains scope node parentType parent (path ++ [.key node.responseKey]))
  | ⟨aliasName, name, arguments, selections, location⟩, parentType, parent, path => by
    unfold executeField
    refine gives_runField fun type value => ?_
    by_cases hleaf : selections.isEmpty = true
    · simp only [hleaf, if_true]
      exact .pure ⟨.plain value, .leaf (List.isEmpty_iff.1 hleaf), rfl, rfl⟩
    · have hselect : ∀ id value path, Gives
          (executeFields (Hosting.tracing.scope scope) selections id value path >>= fun results =>
            pure (objectOf results))
          (Completion.ObjectExplains scope selections id value path) := by
        intro id value path
        refine (gives_executeFields selections id value path).bind ?_
        rintro _ _ ⟨visits, htell, rfl, rfl⟩
        refine .pure ⟨visits, htell, ?_, List.append_nil _⟩
        simp [objectOf, Response.addAll, Response.empty, Visit.members_results,
          Visit.records_results, Completion.completed, Completion.value, Completion.visits]
      simp only [hleaf]
      refine (gives_complete hselect type value _).imp ?_
      rintro _ _ ⟨completion, htells, rfl, rfl⟩
      exact ⟨completion, .selected (by simpa using hleaf) htells, rfl, rfl⟩

/-- Fields of a parent value have an account, one after another. -/
theorem gives_executeFields : ∀ (nodes : List Field) (parentType : TypeId) (parent : Value)
    (path : ResponsePath), Gives
      (executeFields (Hosting.tracing.scope scope) nodes parentType parent path)
      (Visit.AllExplain scope nodes parentType parent path)
  | [], _, _, _ => by
    unfold executeFields
    exact .pure ⟨[], ⟨rfl, by simp⟩, rfl, rfl⟩
  | node :: rest, parentType, parent, path => by
    unfold executeFields
    refine (gives_executeField node parentType parent path).bind ?_
    rintro _ _ ⟨visit, htells, rfl, rfl⟩
    refine (gives_executeFields rest parentType parent path).bind ?_
    rintro _ _ ⟨visits, htell, rfl, rfl⟩
    refine .pure ⟨visit :: visits, htell.cons htells, ?_, ?_⟩
    · simp [Visit.results, Visit.key, htells.node_eq]
    · simp [Visit.events, Visit.allOf]

end

/-- Fields that are tasks have accounts if all of them come to a result. -/
theorem gives_runTasks (nodes : List Field) (parentType : TypeId) (parent : Value) :
    Yields (runTasks (nodes.map fun node =>
        executeField (Hosting.tracing.scope scope) node parentType parent []))
      fun endings events => ∀ results, allResults endings = .ok results →
        Visit.AllExplain scope nodes parentType parent []
          ((nodes.map Field.responseKey).zip results) events := by
  induction nodes with
  | nil =>
    refine .of_pure fun results hresults => ?_
    cases hresults
    exact ⟨[], ⟨rfl, by simp⟩, rfl, rfl⟩
  | cons node rest ih =>
    simp only [List.map_cons, runTasks]
    have hnode : Yields (executeField (Hosting.tracing.scope scope) node parentType parent []).run
        fun ending events => ∀ result, ending = .ok result →
          Visit.Explains scope node parentType parent ([] ++ [.key node.responseKey])
            result events :=
      gives_executeField node parentType parent []
    refine hnode.bind fun ending events hfirst => ?_
    refine ih.bind fun endings later hrest => ?_
    refine .of_pure fun results hresults => ?_
    cases ending with
    | error fault => cases hresults
    | ok result =>
      cases hothers : allResults endings with
      | error fault =>
        rw [allResults, hothers] at hresults
        cases hresults
      | ok others =>
        rw [allResults, hothers] at hresults
        cases hresults
        obtain ⟨visit, htells, rfl, rfl⟩ := hfirst result rfl
        obtain ⟨visits, htell, hresults, rfl⟩ := hrest others hothers
        refine ⟨visit :: visits, htell.cons htells, ?_, ?_⟩
        · simp [Visit.results, Visit.key, htells.node_eq] at hresults ⊢
          exact hresults
        · simp [Visit.events, Visit.allOf]

/-- The fields at the top have an account, side by side or one after another. -/
theorem gives_executeTop (parallel : Bool) (nodes : List Field) (parentType : TypeId)
    (parent : Value) : Gives
      (executeTop (Hosting.tracing.scope scope) parallel nodes parentType parent)
      (Visit.AllExplain scope nodes parentType parent []) := by
  unfold executeTop
  cases parallel with
  | false => exact gives_executeFields nodes parentType parent []
  | true =>
    refine Yields.except_lift_bind (gives_runTasks nodes parentType parent) ?_
    intro endings events hendings
    refine (Gives.of_except (allResults endings)).bind ?_
    rintro results _ ⟨hresults, rfl⟩
    exact .pure (by simpa using hendings results hresults)

end Execution

/-! ## §4 Requests -/

namespace Request

variable [MonadLog m] (schema : Schema m) (options : RequestOptions)

theorem gives_runOperation (response : Response) (operation : Operation) :
    Gives (runOperation (Hosting.tracing.schema schema) options response operation)
      fun later events => ∃ account : OperationAccount m,
        account.Tells schema options operation ∧
        later.data = assignAll response.data (Visit.contributions account.visits) ∧
        later.errors = response.errors ++ account.records ∧
        events = Visit.events (Visit.allOf account.visits) := by
  unfold runOperation
  rw [Hosting.rootType?_schema]
  cases hroot : rootType? schema operation.kind with
  | none => exact .pure ⟨.unsupported operation, .unsupported hroot, rfl, rfl, rfl⟩
  | some root =>
    simp only [VariableBindings.ofDefinitions_hosted]
    refine .engine_bind fun bound hbound => ?_
    let scope : Scope m := ⟨schema, bound.values, options.context⟩
    have htop : Gives (Execution.executeTop (Hosting.tracing.scope scope)
        (options.parallel && operation.kind == .query) operation.selections root options.root)
        (Visit.AllExplain scope operation.selections root options.root []) :=
      Execution.gives_executeTop _ _ _ _
    refine htop.bind ?_
    rintro _ _ ⟨visits, htell, rfl, rfl⟩
    refine Yields.except_lift_bind (Execution.yields_log _ _) fun _ logged hlogged => ?_
    refine Gives.pure ⟨.ran operation bound visits, .ran hroot hbound htell, ?_, ?_, ?_⟩
    · simp [Response.addAll, Visit.members_results, OperationAccount.visits]
    · simp [Response.addAll, Visit.records_results, OperationAccount.records]
    · simp [hlogged, OperationAccount.visits]

theorem gives_runOperations (response : Response) (operations : List Operation) :
    Gives (runOperations (Hosting.tracing.schema schema) options response operations)
      fun later events => ∃ account : Account m,
        List.Forall₂ (OperationAccount.Tells schema options) operations account ∧
        later.data = assignAll response.data (Visit.contributions account.top) ∧
        later.errors = response.errors ++ account.flatMap OperationAccount.records ∧
        events = Visit.events account.visits := by
  induction operations generalizing response with
  | nil => exact .pure ⟨[], .nil, rfl, (List.append_nil _).symm, rfl⟩
  | cons operation rest ih =>
    unfold runOperations
    refine (gives_runOperation schema options response operation).bind ?_
    rintro middle _ ⟨first, htells, hdata, herrors, rfl⟩
    refine (ih middle).imp ?_
    rintro last _ ⟨account, hoperations, hlastData, hlastErrors, rfl⟩
    refine ⟨first :: account, .cons htells hoperations, ?_, ?_, ?_⟩
    · rw [hlastData, hdata, ← assignAll_append]
      simp [Account.top, Visit.contributions_eq]
    · rw [hlastErrors, herrors]
      simp
    · simp [Account.visits, Account.top, Visit.allOf_eq, Visit.events]

omit [Monad m] [MonadAttach m] [LawfulMonad m] [LawfulMonadAttach m] [MonadLog m] in
/-- The check of options leaves the name of the operation. -/
theorem operationName_of_checkOptions {options checked : RequestOptions}
    (h : checkOptions options = .ok checked) : checked.operationName = options.operationName := by
  unfold checkOptions at h
  cases hvalues : objectOption (utf8 "variables") options.variableValues with
  | error refusal =>
    rw [hvalues] at h
    cases h
  | ok values =>
    cases hcontext : objectOption (utf8 "context") options.context with
    | error refusal =>
      rw [hvalues, hcontext] at h
      cases h
    | ok context =>
      rw [hvalues, hcontext] at h
      cases h
      rfl

omit [Monad m] [MonadAttach m] [LawfulMonad m] [LawfulMonadAttach m] [MonadLog m] in
/-- There is no data before the first operation. -/
theorem data_of_select (document : Document) (name : Option Bytes) :
    (select document name).2.data = [] := by
  cases name with
  | none => rfl
  | some name =>
    simp only [select]
    cases document.operation? name <;> rfl

/-- Every run of a document has an account. -/
theorem gives_runDocument (document : Document) :
    Gives (runDocument (Hosting.tracing.schema schema) options document)
      fun response events => ∃ account : Account m,
        account.Tells schema options document response events := by
  unfold runDocument
  refine (Gives.of_except (checkOptions options)).bind ?_
  rintro checked _ ⟨hchecked, rfl⟩
  have hrun := gives_runOperations schema checked (select document checked.operationName).2
    (select document checked.operationName).1
  rw [operationName_of_checkOptions hchecked, data_of_select] at hrun
  rw [operationName_of_checkOptions hchecked]
  refine (hrun.adapt Refusal.aborted).imp ?_
  rintro response events ⟨account, hoperations, hdata, herrors, hevents⟩
  exact ⟨account, ⟨checked, hchecked, hoperations⟩, hdata, herrors, hevents⟩

/-- A response comes with an account of its run, which tells the events as well. -/
theorem exists_account {document : Document} {response : Response} {events : List (Event m)}
    (h : CanReturn ((runDocument (Hosting.tracing.schema schema) options document).run.run [])
      (.ok response, events)) :
    ∃ account : Account m, account.Tells schema options document response events := by
  obtain ⟨made, rfl, hgiven⟩ :=
    gives_runDocument schema options document [] (.ok response) events h
  exact hgiven response rfl

end Request

end GraphQL
