/-
GraphQL.Proofs.Execution.Responses — exact keys, and no failure without a record.

  §1 Variables  — a non-null variable is bound or has a record.
  §2 Members    — what an object holds.
  §3 Records    — a field without a value has a record with its path.
  §4 Requests   — all objects, fields and variables of a request.

A field that fails its checks leaves no member, and one whose resolver fails
leaves null. Neither goes without a record, so a response without records
misses nothing that was asked for. Fields may share a response key, also across
the operations of a request, which all write to the same data.
-/
import GraphQL.Proofs.Execution.Accounting
import GraphQL.Proofs.Execution.Objects
import GraphQL.Proofs.Input.Bound
import GraphQL.Proofs.Input.Places
import GraphQL.Proofs.Reading.SoundDocument
import GraphQL.Proofs.Value.Equality

namespace GraphQL

open MonadAttach (CanReturn)
open LawfulMonadAttach (canReturn_bind_imp' canReturn_map_imp' eq_of_canReturn_pure)
open Execution (resolutionMessage?)

variable {m : Type → Type} [Monad m] [MonadAttach m]

/-! ## §1 Variables -/

section Variables

variable [LawfulMonad m] [LawfulMonadAttach m] {schema : Schema m} {supplied : Value}

namespace VariableDefinition

variable {definition : VariableDefinition} {type : TypeExpr TypeId} {errors : List ErrorRecord}

omit [Monad m] [MonadAttach m] [LawfulMonad m] [LawfulMonadAttach m] in
/-- A type that is understood has the same marks as the written one. -/
theorem isNonNull_of_inputType? (h : inputType? schema definition = some type) :
    type.isNonNull = definition.type.isNonNull := by
  obtain ⟨hunderstood, _⟩ := Option.filter_eq_some_iff.1 h
  obtain ⟨id, _, rfl⟩ := Option.map_eq_some_iff.1 hunderstood
  cases definition.type <;> rfl

/-- A non-null variable that takes no value leaves a record. Its default is no variable. -/
theorem errors_ne_nil_of_bind (hnonNull : definition.type.isNonNull = true)
    (hdefault : ∀ literal ∈ definition.default, literal.isReference = false)
    (h : CanReturn (definition.bind schema supplied) (none, errors)) : errors ≠ [] := by
  cases htype : inputType? schema definition with
  | none =>
    unfold bind at h
    rw [htype] at h
    cases eq_of_canReturn_pure h
    simp
  | some type =>
    cases hvalue : supplied.member? definition.name with
    | some value =>
      obtain ⟨record, hrecord, _⟩ := (supply_of_bind htype hvalue h).1 rfl
      exact List.ne_nil_of_mem hrecord
    | none =>
      unfold bind at h
      rw [htype, hvalue] at h
      cases hliteral : definition.default with
      | some literal =>
        unfold bindAt at h
        rw [hliteral] at h
        obtain ⟨⟨outcome, issues⟩, hcoerced, heq⟩ := canReturn_map_imp' h
        have hsettled := Literal.settledAt_of_coerce (hdefault literal hliteral) hcoerced
        cases outcome with
        | ok value => cases heq
        | absent => exact absurd rfl hsettled.settled
        | failed =>
          cases heq
          obtain ⟨record, hrecord, _⟩ := exists_record_of_someFails (hsettled.fails rfl)
          exact List.ne_nil_of_mem hrecord
      | none =>
        simp only [bindAt, hliteral, isNonNull_of_inputType? htype, hnonNull, if_true] at h
        cases eq_of_canReturn_pure h
        simp

end VariableDefinition

/-- Without records, every non-null variable is bound. -/
theorem VariableBindings.isSome_lookup_of_errors {definitions : List VariableDefinition}
    {bound : VariableBindings} (h : CanReturn (ofDefinitions schema supplied definitions) bound)
    (herrors : bound.errors = []) : ∀ definition ∈ definitions,
    definition.type.isNonNull = true →
    (∀ literal ∈ definition.default, literal.isReference = false) →
    (bound.values.lookup definition.name).isSome = true := by
  obtain ⟨results, rfl, hresults, rfl⟩ := exists_gathered h
  rintro _ hmem hnonNull hdefault
  obtain ⟨⟨definition, value, errors⟩, hresult, rfl⟩ := List.mem_map.1 hmem
  have hnone : errors = [] := List.flatMap_eq_nil_iff.1 herrors _ hresult
  cases value with
  | none =>
    exact absurd hnone
      (VariableDefinition.errors_ne_nil_of_bind hnonNull hdefault (hresults _ hresult))
  | some value =>
    rw [gathered, lookup_assignAll, ← mem_keys_iff, List.append_nil, List.map_reverse,
      List.mem_reverse]
    exact List.mem_map.2 ⟨_, List.mem_filterMap.2 ⟨_, hresult, rfl⟩, rfl⟩

end Variables

/-! ## §2 Members -/

namespace Visit

variable {visit : Visit m} {visits : List (Visit m)}

omit [Monad m] [MonadAttach m] in
theorem isCalled_eq (visit : Visit m) : visit.isCalled = visit.value?.isSome := by
  cases visit <;> rfl

omit [Monad m] [MonadAttach m] in
theorem keys_contributions (visits : List (Visit m)) :
    (contributions visits).map (·.1) = (visits.filter isCalled).map key := by
  induction visits with
  | nil => rfl
  | cons visit rest ih =>
    cases visit with
    | unknown node path => exact ih
    | refused node path records => exact ih
    | called node path notices event completion =>
      rw [contributions, List.map_cons, ih, List.filter_cons_of_pos rfl]
      rfl

omit [Monad m] [MonadAttach m] in
theorem contributions_of_value? {before later : List (Visit m)} {value : Value}
    (h : visit.value? = some value) : contributions (before ++ visit :: later) =
      contributions before ++ (visit.key, value) :: contributions later := by
  simp [contributions_eq, h]

end Visit

/-- The object holds what the visits of the selected fields leave in it: a key for every
field that was called, in the order of the first field of the key, with the value of
the last one. -/
structure SelectedObject.Exact (schema : Schema m) (object : SelectedObject m) : Prop where
  nodes : object.visits.map Visit.node = object.selections
  told : ∀ visit ∈ object.visits, ∃ scope : Scope m, scope.schema = schema ∧ visit.Told scope
  keys : object.members.map (·.1) =
    ((object.visits.filter Visit.isCalled).map Visit.key).eraseDups
  once : (object.members.map (·.1)).Nodup
  last : ∀ before visit later value, object.visits = before ++ visit :: later →
    visit.value? = some value →
    (∀ other ∈ later, other.isCalled = true → other.key ≠ visit.key) →
    object.members.lookup visit.key = some value

namespace SelectedObject

variable {schema : Schema m} {object : SelectedObject m}

theorem exact_of_told (hnodes : object.visits.map Visit.node = object.selections)
    (htold : ∀ visit ∈ object.visits, ∃ scope : Scope m, scope.schema = schema ∧ visit.Told scope) :
    object.Exact schema where
  nodes := hnodes
  told := htold
  keys := by rw [members, keys_assignAll, Visit.keys_contributions]
  once := nodup_keys_assignAll List.nodup_nil
  last before visit later value hvisits hvalue hlater := by
    rw [members, hvisits, Visit.contributions_of_value? hvalue]
    refine lookup_assignAll_of_last _ _ fun hmem => ?_
    rw [Visit.keys_contributions] at hmem
    obtain ⟨other, hother, hkey⟩ := List.mem_map.1 hmem
    obtain ⟨hmember, hcalled⟩ := List.mem_filter.1 hother
    exact hlater other hmember hcalled hkey

/-- If all fields were called, all selected keys are there. -/
theorem Exact.selected (h : object.Exact schema)
    (hcalled : ∀ visit ∈ object.visits, visit.isCalled = true) :
    ∀ node ∈ object.selections, node.responseKey ∈ object.members.map (·.1) := by
  intro node hnode
  rw [← h.nodes] at hnode
  obtain ⟨visit, hvisit, rfl⟩ := List.mem_map.1 hnode
  rw [h.keys, List.mem_eraseDups]
  exact List.mem_map_of_mem (List.mem_filter.2 ⟨hvisit, hcalled visit hvisit⟩)

end SelectedObject

/-! ## §3 Records -/

/-- A field that was not called has a record with its path. A call whose answer is no
value leaves null and has such a record as well. -/
structure Visit.Reported (errors : List ErrorRecord) (visit : Visit m) : Prop where
  uncalled : visit.isCalled = false → ∃ record ∈ errors, record.path = some visit.path
  failed : ∀ event ∈ visit.event?, (∀ value, event.answer ≠ .ok value) →
    visit.value? = some .null ∧ ∃ record ∈ errors, record.path = some visit.path

/-- Only a value has no message. -/
theorem Execution.exists_resolutionMessage (field : Bytes) {answer : Resolution}
    (h : ∀ value, answer ≠ .ok value) :
    ∃ message, resolutionMessage? field answer = some message := by
  cases answer with
  | ok value => exact absurd rfl (h value)
  | _ => exact ⟨_, rfl⟩

/-- A visit is reported by its own records. -/
theorem Visit.Tells.reported [LawfulMonad m] [LawfulMonadAttach m] {scope : Scope m} {node : Field}
    {parentType : TypeId} {parent : Value} {path : ResponsePath} {visit : Visit m}
    {errors : List ErrorRecord} (h : visit.Tells scope node parentType parent path)
    (herrors : ∀ record ∈ visit.records, record ∈ errors) : visit.Reported errors := by
  cases h with
  | unknown _ => exact ⟨fun _ => ⟨_, herrors _ List.mem_cons_self, rfl⟩, nofun⟩
  | refused _ hverdict hinvalid =>
    obtain ⟨record, hrecord⟩ :=
      List.exists_mem_of_ne_nil _ (ArgumentVerdict.errors_ne_nil hverdict hinvalid)
    have hplaced := ArgumentVerdict.placedIn hverdict record hrecord
    exact ⟨fun _ => ⟨record, herrors record hrecord, hplaced.1⟩, nofun⟩
  | called _ _ _ hanswers =>
    refine ⟨nofun, fun event hevent hfailed => ?_⟩
    cases hevent
    cases hanswers with
    | failed _ =>
      obtain ⟨message, hmessage⟩ := Execution.exists_resolutionMessage _ hfailed
      refine ⟨rfl, .located node.location path message,
        herrors _ (List.mem_append_right _ ?_), rfl⟩
      rw [failure?, hmessage]
      exact List.mem_singleton_self _
    | leaf _ => exact absurd rfl (hfailed _)
    | selected _ _ => exact absurd rfl (hfailed _)

/-! ## §4 Requests -/

/-- No variable has another variable for its default, as the grammar has it. -/
def Document.PlainDefaults (document : Document) : Prop :=
  ∀ operation ∈ document.operations, ∀ definition ∈ operation.variableDefinitions,
    ∀ literal ∈ definition.default, literal.isReference = false

/-- So it is in a document that is read from a text. -/
theorem Document.plainDefaults_of_ofText {text : Bytes} {document : Document}
    (h : ofText text = .ok document) : document.PlainDefaults := by
  intro operation hoperation definition hdefinition literal hliteral
  obtain ⟨_, hrun⟩ := run_of_ofText h
  have hwellFormed := (Reading.spec_of_document hrun).2.operations operation hoperation
  refine (hwellFormed.definitions definition hdefinition).constant literal hliteral literal ?_
  cases literal <;> simp [Literal.nodes]

/-- Nothing is missing from a response: all selected keys are there in all objects, all
resolvers gave a value, every operation ran, and every non-null variable was bound, if
no default is a variable. -/
structure Account.Complete (document : Document) (account : Account m) (events : List (Event m)) :
    Prop where
  selected : ∀ object ∈ account.objects, ∀ node ∈ object.selections,
    node.responseKey ∈ object.members.map (·.1)
  answered : ∀ event ∈ events, ∃ value, event.answer = .ok value
  supported : ∀ operation, .unsupported operation ∉ account
  bound : document.PlainDefaults → ∀ operation bound visits, .ran operation bound visits ∈ account →
    ∀ definition ∈ operation.variableDefinitions, definition.type.isNonNull = true →
    (bound.values.lookup definition.name).isSome = true

namespace Account.Tells

variable {schema : Schema m} {options : RequestOptions} {document : Document} {response : Response}
  {events : List (Event m)} {account : Account m}
  (h : account.Tells schema options document response events)
include h

theorem exact : ∀ object ∈ account.objects, object.Exact schema := by
  intro object hobject
  rcases List.mem_cons.1 hobject with rfl | hobject
  · refine SelectedObject.exact_of_told ?_ h.top_told
    obtain ⟨checked, hparts⟩ := h.exists_operation
    simp only [root, top, List.map_flatMap]
    refine List.flatMap_congr fun part hpart => ?_
    obtain ⟨operation, _, htells⟩ := hparts part hpart
    exact htells.nodes
  · obtain ⟨visit, hvisit, hobject⟩ := List.mem_flatMap.1 hobject
    obtain ⟨scope, hschema, parentType, parent, htells⟩ := h.told visit hvisit
    obtain ⟨hselections, id, value, htell⟩ := htells.objects object hobject
    exact SelectedObject.exact_of_told (htell.nodes.trans hselections.symm)
      fun field hfield => ⟨scope, hschema, htell.told field hfield⟩

/-- The records of a visit are among those of the response. -/
theorem mem_errors {visit : Visit m} (hvisit : visit ∈ account.visits) :
    ∀ record ∈ visit.records, record ∈ response.errors := by
  intro record hrecord
  obtain ⟨top, htop, hvisit⟩ := Visit.mem_allOf.1 hvisit
  obtain ⟨part, hpart, htop⟩ := List.mem_flatMap.1 htop
  rw [h.errors]
  refine List.mem_append_right _ (List.mem_flatMap.2 ⟨part, hpart, ?_⟩)
  cases part with
  | unsupported operation => cases htop
  | ran operation bound visits =>
    exact List.mem_append_right _
      (List.mem_flatMap.2 ⟨visit, Visit.mem_allOf.2 ⟨top, htop, hvisit⟩, hrecord⟩)

theorem reported [LawfulMonad m] [LawfulMonadAttach m] :
    ∀ visit ∈ account.visits, visit.Reported response.errors := by
  intro visit hvisit
  obtain ⟨_, _, _, _, htells⟩ := h.told visit hvisit
  exact htells.reported (h.mem_errors hvisit)

/-- A response without records misses nothing. -/
theorem complete [LawfulMonad m] [LawfulMonadAttach m] (hnone : response.errors = []) :
    account.Complete document events := by
  have hcalled : ∀ visit ∈ account.visits, visit.isCalled = true := by
    intro visit hvisit
    by_contra hcalled
    obtain ⟨record, hrecord, _⟩ :=
      (h.reported visit hvisit).uncalled (by simpa using hcalled)
    simp [hnone] at hrecord
  have hparts : ∀ part ∈ account, part.records = [] := by
    have hrecords := h.errors
    rw [hnone] at hrecords
    exact List.flatMap_eq_nil_iff.1 (List.append_eq_nil_iff.1 hrecords.symm).2
  constructor
  case selected =>
    intro object hobject
    exact (h.exact object hobject).selected fun visit hvisit =>
      hcalled visit (Account.mem_visits hobject visit hvisit)
  case answered =>
    intro event hevent
    rw [h.events] at hevent
    obtain ⟨visit, hvisit, hevent⟩ := List.mem_filterMap.1 hevent
    by_contra hanswer
    obtain ⟨_, record, hrecord, _⟩ := (h.reported visit hvisit).failed event hevent
      fun value heq => hanswer ⟨value, heq⟩
    simp [hnone] at hrecord
  case supported =>
    intro operation hpart
    simpa [OperationAccount.records] using hparts _ hpart
  case bound =>
    intro hplain operation bound visits hpart definition hdefinition hnonNull
    obtain ⟨checked, hoperations⟩ := h.exists_operation
    obtain ⟨_, hoperation, htells⟩ := hoperations _ hpart
    cases htells with
    | ran _ hbound _ =>
      exact VariableBindings.isSome_lookup_of_errors hbound
        (List.append_eq_nil_iff.1 (hparts _ hpart)).1 definition hdefinition hnonNull
        (hplain operation hoperation definition hdefinition)

end Account.Tells

/-- Tracing leaves a request as it is, and every response has an account of the fields that
were looked up and the resolvers that were called. By this account all objects hold
exactly what their fields leave in them, every field that was not called and every
call that gave no value has a record with its path, and a response without records
misses nothing. That no default is a variable, which this asks for variables to be bound,
is so in all documents that are read from a text. -/
theorem Request.runDocument_exact [LawfulMonad m] [LawfulMonadAttach m] [MonadLog m]
    (schema : Schema m) (options : RequestOptions) (document : Document) :
    Prod.fst <$> (runDocument (Hosting.tracing.schema schema) options document).run.run [] =
        (runDocument schema options document).run ∧
      (∀ text, Document.ofText text = .ok document → document.PlainDefaults) ∧
      ∀ response events, CanReturn
        ((runDocument (Hosting.tracing.schema schema) options document).run.run [])
          (.ok response, events) →
        ∃ account : Account m, account.Tells schema options document response events ∧
          (∀ object ∈ account.objects, object.Exact schema) ∧
          (∀ visit ∈ account.visits, visit.Reported response.errors) ∧
          (response.errors = [] → account.Complete document events) := by
  refine ⟨Hosting.simulation_tracing.runDocument schema options document [],
    fun _ => Document.plainDefaults_of_ofText, ?_⟩
  intro response events hresponse
  obtain ⟨account, htells⟩ := exists_account schema options hresponse
  exact ⟨account, htells, htells.exact, htells.reported, htells.complete⟩

/-- A result that is there is the one that is read off. -/
theorem eq_ok_of_isSome {ε α : Type} {result : Except ε α} (fallback : α)
    (h : result.toOption.isSome = true) : result = .ok (result.toOption.getD fallback) := by
  cases result with
  | ok a => rfl
  | error failure => cases h

/-- A mutation that asks for a field at the top twice, and for a field that items do not
have. -/
def Document.repeating : Document :=
  ⟨[⟨.mutation, none, [], [.plain (utf8 "last") [],
    .plain (utf8 "items") [.plain (utf8 "none") []], .plain (utf8 "last") []], ⟨1, 1⟩⟩]⟩

/-- The traced run of a document in the schema that counts calls. -/
def Schema.counted (document : Document) : Except Refusal Response × List (Event (Hosted Nat)) :=
  (((Request.runDocument (Hosting.tracing.schema counting) .plain document).run.run []).run
    ⟨.blank [] .error, 0⟩).1

/-- An unknown field below the items of a list has a record for each item that is not null,
and leaves no key. The field that is there twice has its key once. -/
theorem Request.runDocument_exact_counting :
    let response := (Schema.counted .repeating).1.toOption.getD .empty
    response.data.map (·.1) = [utf8 "last", utf8 "items"] ∧
      response.errors.map (·.path) =
        [some [.key (utf8 "items"), .index 0, .key (utf8 "none")],
          some [.key (utf8 "items"), .index 2, .key (utf8 "none")]] ∧
      ∃ account : Account (Hosted Nat),
        account.Tells Schema.counting .plain .repeating response (Schema.counted .repeating).2 ∧
        ∀ visit ∈ account.visits, visit.Reported response.errors := by
  refine ⟨by decide +kernel, by decide +kernel, ?_⟩
  have hresponse : (Schema.counted .repeating).1.toOption.isSome = true := by decide +kernel
  have hcan : CanReturn
      ((runDocument (Hosting.tracing.schema Schema.counting) .plain .repeating).run.run [])
      ((Schema.counted .repeating).1, (Schema.counted .repeating).2) := canReturn_hosted _ _
  rw [eq_ok_of_isSome .empty hresponse] at hcan
  obtain ⟨account, htells, _, hreported, _⟩ :=
    (runDocument_exact Schema.counting .plain .repeating).2.2 _ _ hcan
  exact ⟨account, htells, hreported⟩

end GraphQL
