/-
GraphQL.Proofs.Execution.Reception — what resolvers receive for a variable.

  §1 Options   — the values that are supplied, before and after the check of options.
  §2 Visits    — the arguments of a call, and the check that led to it.
  §3 Requests  — variables that are passed as whole arguments, in every run.

A value is coerced when its variable is bound, and what this gives is coerced again
wherever the variable stands for an argument. The account of a run has the bindings
of each operation beside the calls that its fields made, so both can be compared.
-/
import GraphQL.Proofs.Execution.Responses
import GraphQL.Proofs.Schema.Defaults
import GraphQL.Proofs.Value.Equality

namespace GraphQL

open MonadAttach (CanReturn)

variable {m : Type → Type} [Monad m] [MonadAttach m]

/-! ## §1 Options -/

namespace Request

omit [Monad m] [MonadAttach m] in
/-- Null has no members, as the empty object has none. -/
theorem member?_of_objectOption {name : Bytes} {value object : Value}
    (h : objectOption name value = .ok object) (key : Bytes) :
    object.member? key = value.member? key := by
  cases value <;> cases h <;> rfl

omit [Monad m] [MonadAttach m] in
/-- The check of options leaves the members of the values that are supplied. -/
theorem member?_of_checkOptions {options checked : RequestOptions}
    (h : checkOptions options = .ok checked) (key : Bytes) :
    checked.variableValues.member? key = options.variableValues.member? key := by
  unfold checkOptions at h
  cases hvalues : objectOption (utf8 "variables") options.variableValues with
  | error refusal =>
    rw [hvalues] at h
    cases h
  | ok values =>
    cases hcontext : objectOption (utf8 "context") options.context with
    | error refusal =>
      rw [hvalues, hcontext] at h
      cases h
    | ok context =>
      rw [hvalues, hcontext] at h
      cases h
      exact member?_of_objectOption hvalues key

end Request

namespace Account.Tells

variable {schema : Schema m} {options : RequestOptions} {document : Document} {response : Response}
  {events : List (Event m)} {account : Account m}

/-- An operation that ran is one of the document. Its variables were bound to what is
supplied, and its fields visited with these bindings. -/
theorem of_ran (h : account.Tells schema options document response events)
    {operation : Operation} {bound : VariableBindings} {visits : List (Visit m)}
    (hran : .ran operation bound visits ∈ account) :
    operation ∈ document.operations ∧ ∃ checked : RequestOptions,
      Request.checkOptions options = .ok checked ∧
      CanReturn (VariableBindings.ofDefinitions schema checked.variableValues
        operation.variableDefinitions) bound ∧
      ∀ visit ∈ Visit.allOf visits, visit.Told ⟨schema, bound.values, checked.context⟩ := by
  obtain ⟨checked, hchecked, hoperations⟩ := h.operations
  obtain ⟨found, hfound, htells⟩ := exists_of_mem_right hoperations hran
  cases htells with
  | ran _ hbound htell =>
    refine ⟨Request.mem_of_select hfound, checked, hchecked, hbound, fun visit hvisit => ?_⟩
    obtain ⟨top, htop, hvisit⟩ := Visit.mem_allOf.1 hvisit
    exact (htell.told top htop).below visit hvisit

/-- The records of the variables of an operation that ran are among those of the response. -/
theorem mem_errors_of_ran (h : account.Tells schema options document response events)
    {operation : Operation} {bound : VariableBindings} {visits : List (Visit m)}
    (hran : .ran operation bound visits ∈ account) :
    ∀ record ∈ bound.errors, record ∈ response.errors := by
  intro record hrecord
  rw [h.errors]
  exact List.mem_append_right _
    (List.mem_flatMap.2 ⟨_, hran, List.mem_append_left _ hrecord⟩)

/-- The calls of the fields of an operation that ran are among those of the run. -/
theorem mem_events_of_ran (h : account.Tells schema options document response events)
    {operation : Operation} {bound : VariableBindings} {visits : List (Visit m)}
    (hran : .ran operation bound visits ∈ account) {visit : Visit m}
    (hvisit : visit ∈ Visit.allOf visits) {event : Event m} (hevent : visit.event? = some event) :
    event ∈ events := by
  rw [h.events]
  obtain ⟨top, htop, hbelow⟩ := Visit.mem_allOf.1 hvisit
  have hvisits : visit ∈ account.visits :=
    Visit.mem_allOf.2 ⟨top, List.mem_flatMap.2 ⟨_, hran, htop⟩, hbelow⟩
  exact List.mem_filterMap.2 ⟨visit, hvisits, hevent⟩

end Account.Tells

/-! ## §2 Visits -/

/-- A resolver is called with what the check of its field's arguments gives. -/
theorem Visit.Tells.exists_verdict {scope : Scope m} {node : Field} {parentType : TypeId}
    {parent : Value} {path : ResponsePath} {visit : Visit m}
    (h : visit.Tells scope node parentType parent path) {event : Event m}
    (hevent : visit.event? = some event) :
    ∃ verdict, CanReturn
        (checkArguments scope.schema scope.bindings event.call.field node path) verdict ∧
      event.call.arguments = .object verdict.values := by
  cases h with
  | unknown _ => cases hevent
  | refused _ _ _ => cases hevent
  | called _ hverdict _ _ =>
    cases hevent
    exact ⟨_, hverdict, rfl⟩

/-- Arguments of the visited field that are given the variable as a whole take the value: they
are not badly formed, and if the resolver was called, it was given the value for them. -/
structure Visit.Receives (schema : Schema m) (bindings : Members) (visit : Visit m)
    (type : TypeExpr TypeId) (name : Bytes) (value : Value) : Prop where
  formed : ∀ (field : FieldType m) (argument : Argument),
    field.Passes visit.node argument type name → ∀ attempt, CanReturn
      (ArgumentAttempt.make schema bindings visit.node.arguments argument) attempt →
      attempt.failures = []
  received : ∀ event, visit.event? = some event → ∀ argument,
    event.call.field.Passes visit.node argument type name →
      event.call.arguments.member? argument.name = some value

variable [LawfulMonad m] [LawfulMonadAttach m]

/-- So they do if a field takes the value wherever it is given the variable. -/
theorem Visit.Told.receives {scope : Scope m} {visit : Visit m} (h : visit.Told scope)
    {type : TypeExpr TypeId} {name : Bytes} {value : Value}
    (hreceives : ∀ (field : FieldType m) (argument : Argument),
      field.Passes visit.node argument type name →
      field.Receives scope.schema scope.bindings visit.node argument value) :
    visit.Receives scope.schema scope.bindings type name value where
  formed field argument hpasses attempt hattempt := by
    obtain ⟨clean, hmake, _, hfailures⟩ := (hreceives field argument hpasses).clean
    rw [hmake] at hattempt
    cases LawfulMonadAttach.eq_of_canReturn_pure hattempt
    exact hfailures
  received event hevent argument hpasses := by
    obtain ⟨_, _, htells⟩ := h
    obtain ⟨verdict, hverdict, harguments⟩ := htells.exists_verdict hevent
    rw [harguments]
    exact (hreceives _ argument hpasses).value _ verdict hverdict

/-! ## §3 Requests -/

/-- What becomes of the value that is supplied for a variable, in the visits of the fields of
its operation. -/
structure VariableDefinition.Reaches (schema : Schema m) (definition : VariableDefinition)
    (type : TypeExpr TypeId) (value : Value) (bound : VariableBindings)
    (errors : List ErrorRecord) (visits : List (Visit m)) : Prop where
  /-- A variable that stays without value has a record. -/
  unbound : bound.values.lookup definition.name = none →
    ∃ record ∈ errors, record.locations = [definition.location]
  /-- Otherwise it has what the supplied value is coerced to, once. -/
  coerced : ∀ result, bound.values.lookup definition.name = some result → ∃ issues, CanReturn
    (value.coerce schema (some definition.location) type definition.name) ⟨.ok result, issues⟩
  /-- An argument that is given the variable as a whole is not missing then. -/
  given : ∀ result, bound.values.lookup definition.name = some result →
    ∀ visit ∈ visits, ∀ (field : FieldType m) (argument : Argument),
      field.Passes visit.node argument type definition.name → ∀ attempt, CanReturn
        (ArgumentAttempt.make schema bound.values visit.node.arguments argument) attempt →
        attempt.isMissing = false
  /-- If scalars keep what they give and the defaults of input fields are coerced to
  themselves, then such an argument takes exactly the value of the variable. -/
  received : schema.ScalarsIdempotent → schema.InputDefaultsKept →
    ∀ result, bound.values.lookup definition.name = some result →
      ∀ visit ∈ visits, visit.Receives schema bound.values type definition.name result

namespace Definitions

variable [MonadLog m] {definitions : Definitions m} {schema : Schema m}

/-- In every run of a document that is read from a text, with a schema that is built: a
variable of an operation for which a value is supplied takes what this is coerced to once,
unless there is a record at its definition. Where the variable is passed as the whole value
of an argument of its type, the argument is not missing. If scalars keep what they give and
the defaults of input fields are coerced to themselves, then the argument is not badly
formed either, and every resolver that was called for it received exactly the value of the
variable. Tracing the calls leaves the run as it is. -/
theorem received_of_build (hbuild : CanReturn definitions.build schema) {text : Bytes}
    {document : Document} (htext : Document.ofText text = .ok document)
    (options : RequestOptions) :
    Prod.fst <$> (Request.runDocument (Hosting.tracing.schema schema) options document).run.run [] =
        (Request.runDocument schema options document).run ∧
      ∀ response events, CanReturn
        ((Request.runDocument (Hosting.tracing.schema schema) options document).run.run [])
          (.ok response, events) →
        ∃ account : Account m, account.Tells schema options document response events ∧
          ∀ operation bound visits, .ran operation bound visits ∈ account →
            (∀ visit ∈ Visit.allOf visits, ∀ event, visit.event? = some event →
              event ∈ events) ∧
            ∀ definition ∈ operation.variableDefinitions, ∀ type value,
              definition.inputType? schema = some type →
              options.variableValues.member? definition.name = some value →
              definition.Reaches schema type value bound response.errors
                (Visit.allOf visits) := by
  refine ⟨Hosting.simulation_tracing.runDocument schema options document [], ?_⟩
  intro response events hresponse
  obtain ⟨account, htells⟩ := Request.exists_account schema options hresponse
  refine ⟨account, htells, fun operation bound visits hran =>
    ⟨fun visit hvisit event => htells.mem_events_of_ran hran hvisit, ?_⟩⟩
  intro definition hdefinition type value htype hvalue
  obtain ⟨hoperation, checked, hchecked, hbound, htold⟩ := htells.of_ran hran
  obtain ⟨c, hread⟩ := Document.run_of_ofText htext
  have hnames : (operation.variableDefinitions.map (·.name)).Nodup :=
    ((Reading.spec_of_document hread).2.operations operation hoperation).variableNames.distinct
  obtain ⟨errors, hbind, herrors⟩ :=
    VariableBindings.exists_of_ofDefinitions hnames hbound hdefinition
  obtain ⟨hunbound, hsupply⟩ := VariableDefinition.supply_of_bind htype
    ((Request.member?_of_checkOptions hchecked _).trans hvalue) hbind
  constructor
  case unbound =>
    intro hnone
    obtain ⟨record, hrecord, hlocations⟩ := hunbound hnone
    exact ⟨record, htells.mem_errors_of_ran hran record (herrors record hrecord), hlocations⟩
  case coerced => exact hsupply
  case given =>
    exact fun result hresult visit _ field argument hpasses attempt =>
      ArgumentAttempt.isMissing_of_make hpasses hresult
  case received =>
    intro hscalars hdefaults result hresult visit hvisit
    obtain ⟨issues, hcoerced⟩ := hsupply result hresult
    exact (htold visit hvisit).receives fun field argument hpasses =>
      hpasses.receives_of_coerce hscalars (distinctFields_of_build hbuild) hdefaults hcoerced
        hresult

end Definitions

/-- Definitions of ranges, and of a field that takes one. -/
def Definitions.clipping : Definitions Id where
  scalars := []
  objects := [⟨fallbackQueryType, [], [⟨utf8 "clip", utf8 "Int",
    [⟨utf8 "range", utf8 "Range!", none, none, []⟩], none, none, []⟩]⟩]
  inputs := [⟨utf8 "Range", [], [⟨utf8 "low", utf8 "Int!", none, none, []⟩,
    ⟨utf8 "high", utf8 "Int", some (.int 9), none, []⟩]⟩]
  queryType := none
  mutationType := none

/-- The schema that these definitions give. -/
def Schema.clipping : Schema Id where
  types := Build.builtInTypes ++ [
    .of fallbackQueryType [] (.object [⟨utf8 "clip", .named 1,
      [⟨utf8 "range", .nonNull (.named 6), none, none, []⟩], memberResolver (utf8 "clip"),
      none, []⟩]),
    .of (utf8 "Range") [] (.inputObject [⟨utf8 "low", .nonNull (.named 1), none, none, []⟩,
      ⟨utf8 "high", .named 1, some (.int 9), none, []⟩])]
  query := 5
  mutation := none

/-- A query that passes a variable to the field. -/
def Document.clipping : Document :=
  ⟨[⟨.query, none, [⟨utf8 "r", .nonNull (.named (utf8 "Range")), none, ⟨1, 7⟩⟩],
    [⟨none, utf8 "clip", [⟨utf8 "range", .reference ⟨1, 29⟩ (utf8 "r"), ⟨1, 23⟩⟩], [],
      ⟨1, 18⟩⟩], ⟨1, 1⟩⟩]⟩

/-- A request with a value for the variable. -/
def RequestOptions.clipping (given : Value) : RequestOptions :=
  { plain with variableValues := .object [(utf8 "r", given)] }

/-- The traced run of the query with a value for its variable. -/
def Schema.clipped (given : Value) : Except Refusal Response × List (Event Id) :=
  ((Request.runDocument (Hosting.tracing.schema clipping) (.clipping given) .clipping).run.run
    []).run

theorem Document.ofText_clipping :
    Document.ofText (utf8 "query($r:Range!){clip(range:$r)}") = .ok .clipping := by decide +kernel

namespace Definitions

theorem build_clipping : CanReturn clipping.build Schema.clipping := by
  have hwritten : Build.arena clipping = .ok (.ofTypes Schema.clipping.types) := by rfl
  have hsettled : (Build.settleDefaults (.ofTypes Schema.clipping.types)).run =
      Except.ok (.ofTypes Schema.clipping.types) := by rfl
  exact build_of_passes hwritten hsettled rfl

theorem inputDefaultsKept_clipping : Schema.clipping.InputDefaultsKept := by
  intro id declared hbody
  obtain ⟨type, htype, hdeclared⟩ := Schema.exists_of_body? hbody
  rcases List.mem_append.1 htype with hbuiltIn | hrange
  · obtain ⟨scalar, _, rfl⟩ := List.mem_map.1 hbuiltIn
    cases hdeclared
  · simp only [List.mem_cons, List.not_mem_nil, or_false] at hrange
    rcases hrange with rfl | rfl
    · cases hdeclared
    · cases hdeclared
      intro field hfield default hdefault
      simp only [List.mem_cons, List.not_mem_nil, or_false] at hfield
      rcases hfield with rfl | rfl
      · cases hdefault
      · cases hdefault
        exact ⟨none, [], [], rfl⟩

/-- A range that is completed and converted when its variable is bound is received so. -/
theorem received_of_build_clipping :
    let given := Value.object [(utf8 "low", .string (utf8 "7"))]
    let options := RequestOptions.clipping given
    let run := Schema.clipped given
    let response := run.1.toOption.getD .empty
    (CanReturn clipping.build Schema.clipping ∧
      Document.ofText (utf8 "query($r:Range!){clip(range:$r)}") = .ok .clipping ∧
      CanReturn ((Request.runDocument (Hosting.tracing.schema Schema.clipping) options
        .clipping).run.run []) (.ok response, run.2)) ∧
    Schema.clipping.ScalarsIdempotent ∧ Schema.clipping.InputDefaultsKept ∧
    run.2.map (·.call.arguments) =
      [.object [(utf8 "range", .object [(utf8 "low", .int 7), (utf8 "high", .int 9)])]] ∧
    ∃ account : Account Id, account.Tells Schema.clipping options .clipping response run.2 ∧
      ∀ operation bound visits, .ran operation bound visits ∈ account →
        ∀ definition ∈ operation.variableDefinitions, ∀ type value,
          definition.inputType? Schema.clipping = some type →
          options.variableValues.member? definition.name = some value →
          definition.Reaches Schema.clipping type value bound response.errors
            (Visit.allOf visits) := by
  have hresponse : (Schema.clipped (.object [(utf8 "low", .string (utf8 "7"))])).1.toOption.isSome =
      true := by decide +kernel
  have harguments : (Schema.clipped (.object [(utf8 "low", .string (utf8 "7"))])).2.map
      (·.call.arguments) =
      [.object [(utf8 "range", .object [(utf8 "low", .int 7), (utf8 "high", .int 9)])]] := by
    decide +kernel
  intro given options run response
  have hrun : CanReturn ((Request.runDocument (Hosting.tracing.schema Schema.clipping) options
      .clipping).run.run []) (.ok response, run.2) := by
    have hcan : CanReturn ((Request.runDocument (Hosting.tracing.schema Schema.clipping) options
      .clipping).run.run []) (run.1, run.2) := rfl
    rwa [eq_ok_of_isSome .empty hresponse] at hcan
  have hscalars : clipping.ScalarsIdempotent := nofun
  refine ⟨⟨build_clipping, Document.ofText_clipping, hrun⟩,
    scalarsIdempotent_of_build hscalars build_clipping, inputDefaultsKept_clipping, harguments, ?_⟩
  obtain ⟨account, htells, hran⟩ :=
    (received_of_build build_clipping Document.ofText_clipping options).2 response run.2 hrun
  exact ⟨account, htells, fun operation bound visits hmem => (hran operation bound visits hmem).2⟩

end Definitions

end GraphQL
