/-
GraphQL.Proofs.Execution.WellFormed — when an envelope is well-formed text.

  §1 Trust       — what resolvers and requests are trusted with.
  §2 Values      — a completed value is made of what resolvers answered.
  §3 Fields      — the records of a visit.
  §4 Responses   — everything that an account tells.
  §5 Envelopes   — only a stray byte of the query text breaks an envelope.

Bytes of the query text come into an envelope as names, which are lexical, and in
messages about a text that is refused. String payloads go to resolvers only. So a
response is well-formed whenever what resolvers answer is, and the message about a
refused text quotes one byte that nothing has checked.
-/
import GraphQL.Proofs.Execution.Placement
import GraphQL.Proofs.Input.WellFormed
import GraphQL.Proofs.Reading.Refusal
import GraphQL.Proofs.Value.Equality

namespace GraphQL

open MonadAttach (CanReturn)
open LawfulMonadAttach (canReturn_bind_imp' eq_of_canReturn_pure)

/-! ## §1 Trust -/

/-- The texts that a resolver returns, reports or raises are well-formed. -/
def Resolution.WellFormed : Resolution → Prop
  | .ok value => value.WellFormed
  | .error message | .raised message => Utf8.WellFormed message
  | .untagged | .raisedOther => True

/-- The name of the operation and the keys in the values of variables are well-formed. -/
structure RequestOptions.WellFormed (options : RequestOptions) : Prop where
  operationName : ∀ name ∈ options.operationName, Utf8.WellFormed name
  variableValues : options.variableValues.KeysWellFormed

theorem RequestOptions.WellFormed.checked {options checked : RequestOptions}
    (h : options.WellFormed) (hchecked : Request.checkOptions options = .ok checked) :
    checked.variableValues.KeysWellFormed := by
  have hobject : ∀ (name : Bytes) (given result : Value), given.KeysWellFormed →
      Request.objectOption name given = .ok result → result.KeysWellFormed := by
    intro name given result hgiven hresult
    cases given with
    | null =>
      cases hresult
      exact Value.keysWellFormed_object.2 nofun
    | object members =>
      cases hresult
      exact hgiven
    | _ => cases hresult
  unfold Request.checkOptions at hchecked
  cases hvariables : Request.objectOption (utf8 "variables") options.variableValues with
  | error refusal =>
    rw [hvariables] at hchecked
    cases hchecked
  | ok variableValues =>
    rw [hvariables] at hchecked
    cases hcontext : Request.objectOption (utf8 "context") options.context with
    | error refusal =>
      rw [hcontext] at hchecked
      cases hchecked
    | ok context =>
      rw [hcontext] at hchecked
      cases hchecked
      exact hobject _ _ _ h.variableValues hvariables

theorem Field.Proper.responseKey {node : Field} (h : node.Proper) :
    Utf8.WellFormed node.responseKey := by
  unfold Field.responseKey
  cases halias : node.aliasName with
  | none => exact Utf8.wellFormed_isName h.name
  | some name => exact Utf8.wellFormed_isName (h.aliasName name halias)

variable {m : Type → Type}

/-! ## §2 Values -/

/-- What the visit contributes to its object is well-formed, and so are all records about
the field and those below it. -/
structure Visit.WellFormed (visit : Visit m) : Prop where
  key : Utf8.WellFormed visit.key
  value : ∀ value ∈ visit.value?, value.WellFormed
  records : ∀ below ∈ visit.all, ∀ record ∈ below.records, record.WellFormed

theorem Visit.wellFormed_contributions {visits : List (Visit m)}
    (h : ∀ visit ∈ visits, visit.WellFormed) :
    ∀ member ∈ contributions visits, Utf8.WellFormed member.1 ∧ member.2.WellFormed := by
  intro member hmember
  rw [contributions_eq] at hmember
  obtain ⟨visit, hvisit, hmember⟩ := List.mem_filterMap.1 hmember
  obtain ⟨value, hvalue, rfl⟩ := Option.map_eq_some_iff.1 hmember
  exact ⟨(h visit hvisit).key, (h visit hvisit).value value hvalue⟩

variable [Monad m] [MonadAttach m] {scope : Scope m}

/-- A value is completed to parts of itself and to objects of what was visited. -/
theorem Completion.Tells.wellFormed_value {selections : List Field} {type : TypeExpr TypeId}
    {value : Value} {path : ResponsePath} {completion : Completion m}
    (h : completion.Tells scope selections type value path) (hvalue : value.WellFormed)
    (hobjects : ∀ object ∈ completion.objects selections, ∀ visit ∈ object.visits,
      visit.WellFormed) : completion.value.WellFormed := by
  induction type using TypeExpr.reading generalizing value path completion with
  | nonNull inner ih =>
    cases h with
    | null => exact Value.wellFormed_null
    | nonNull h => exact ih h hvalue hobjects
  | list element ih =>
    cases h with
    | null => exact Value.wellFormed_null
    | single _ _ h => exact ih h hvalue hobjects
    | list hlength htells =>
      rename_i items completions
      rw [Completion.value, Completion.values_eq]
      refine Value.wellFormed_list.2 (List.forall_mem_map.2 fun item hitem => ?_)
      obtain ⟨index, given, hgiven, hcompleted⟩ := Completion.exists_index hlength hitem
      refine ih (htells index given item hgiven hcompleted)
        (Value.wellFormed_list.1 hvalue given (List.mem_of_getElem? hgiven)) ?_
      intro object hobject
      refine hobjects object ?_
      rw [Completion.objects, Completion.objectsOfItems_eq]
      exact List.mem_flatMap.2 ⟨item, hitem, hobject⟩
  | named id =>
    cases h with
    | null => exact Value.wellFormed_null
    | leaf _ _ => exact hvalue
    | object _ _ _ _ =>
      rename_i visits
      rw [Completion.value]
      exact Value.wellFormed_assignAll
        (Visit.wellFormed_contributions (hobjects _ List.mem_cons_self))

/-! ## §3 Fields -/

/-- The schema and the values of variables are trusted. -/
structure Scope.WellFormed (scope : Scope m) : Prop where
  names : scope.schema.NamesWellFormed
  keys : scope.schema.KeysWellFormed
  bindings : ∀ member ∈ scope.bindings, member.2.KeysWellFormed

theorem Execution.wellFormed_resolutionMessage {field : Bytes} {answer : Resolution}
    (hfield : Utf8.WellFormed field) (hanswer : answer.WellFormed) :
    ∀ message ∈ resolutionMessage? field answer, message.WellFormed := by
  intro message hmessage
  cases answer with
  | ok value => cases hmessage
  | error text =>
    cases hmessage
    exact Message.wellFormed_of_one rfl hanswer
  | raised text =>
    cases hmessage
    exact Message.wellFormed_of_one rfl (Utf8.WellFormed.untilNul hanswer)
  | untagged | raisedOther =>
    cases hmessage
    exact Message.wellFormed_of_one rfl hfield

namespace Visit.Tells

variable {node : Field} {parentType : TypeId} {parent : Value} {path : ResponsePath}
  {visit : Visit m} (h : visit.Tells scope node parentType parent path)
include h

variable [LawfulMonad m] [LawfulMonadAttach m]

/-- The records about the field itself: of its lookup, its arguments and its answer. -/
theorem wellFormed_records (hscope : scope.WellFormed) (hnode : node.Proper)
    (hpath : path.WellFormed) (hanswer : ∀ event ∈ visit.event?, event.answer.WellFormed) :
    ∀ record ∈ visit.records, record.WellFormed := by
  cases h with
  | unknown _ =>
    exact List.forall_mem_singleton.2 (ErrorRecord.wellFormed_located hpath
      (Message.wellFormed_of_one rfl (Utf8.wellFormed_isName hnode.name)))
  | refused hfield hverdict _ =>
    exact ArgumentVerdict.wellFormed_errors hscope.names hscope.keys hscope.bindings
      (hscope.names.of_field? hfield) hnode hpath hverdict
  | called hfield hverdict hvalid hcompletion =>
    rename_i field verdict answer completion
    have hnames := hscope.names.of_field? hfield
    have harguments := ArgumentVerdict.wellFormed_errors hscope.names hscope.keys hscope.bindings
      hnames hnode hpath hverdict
    refine List.forall_mem_append.2 ⟨List.forall_mem_append.2 ⟨harguments, ?_⟩, ?_⟩
    · cases hdeprecation : field.deprecation with
      | none => nofun
      | some deprecation =>
        refine List.forall_mem_singleton.2 (ErrorRecord.wellFormed_located hpath ?_)
        refine List.forall_mem_cons.2 ⟨hnames.name, ?_⟩
        simpa [Deprecation.WellFormed] using hnames.deprecation deprecation hdeprecation
    · intro record hrecord
      obtain ⟨message, hmessage, rfl⟩ := Option.map_eq_some_iff.1 (Option.mem_toList.1 hrecord)
      exact ErrorRecord.wellFormed_located hpath
        (Execution.wellFormed_resolutionMessage hnames.name (hanswer _ rfl) message hmessage)

omit [LawfulMonad m] [LawfulMonadAttach m] in
/-- The value of the field, where everything in its objects is well-formed. -/
theorem wellFormed_value (hanswer : ∀ event ∈ visit.event?, event.answer.WellFormed)
    (hobjects : ∀ object ∈ visit.objects, ∀ field ∈ object.visits, field.WellFormed) :
    ∀ value ∈ visit.value?, value.WellFormed := by
  cases h with
  | unknown _ => nofun
  | refused _ _ _ => nofun
  | called _ _ _ hanswers =>
    rintro _ ⟨⟩
    have hgiven := hanswer _ rfl
    cases hanswers with
    | failed _ => exact Value.wellFormed_null
    | leaf _ => exact hgiven
    | selected _ htells => exact htells.wellFormed_value hgiven hobjects

omit [LawfulMonad m] [LawfulMonadAttach m] in
/-- Objects in the value of a field add indices to its path, and no keys. -/
theorem wellFormed_path (hpath : path.WellFormed) :
    ∀ object ∈ visit.objects, ResponsePath.WellFormed object.path := by
  intro object hobject
  obtain ⟨rest, hkeys, hobject, _⟩ := h.at?_objects object hobject
  rw [hobject, ResponsePath.WellFormed, ResponsePath.keys_append, hkeys, List.append_nil]
  exact hpath

end Visit.Tells

variable [LawfulMonad m] [LawfulMonadAttach m]

/-- Whatever is visited in a trusted scope is well-formed, if what the resolvers there
answered is. -/
theorem Visit.Tells.wellFormed (hscope : scope.WellFormed) {node : Field} {parentType : TypeId}
    {parent : Value} {path : ResponsePath} {visit : Visit m}
    (h : visit.Tells scope node parentType parent path) (hnode : node.WellFormed)
    (hpath : path.WellFormed)
    (hanswers : ∀ event ∈ Visit.events visit.all, event.answer.WellFormed) : visit.WellFormed := by
  refine Visit.induction (P := fun visit => ∀ node parentType parent path,
    visit.Tells scope node parentType parent path → node.WellFormed → path.WellFormed →
    (∀ event ∈ Visit.events visit.all, event.answer.WellFormed) → visit.WellFormed) ?_ visit
    node parentType parent path h hnode hpath hanswers
  intro visit ih node parentType parent path h hnode hpath hanswers
  obtain ⟨hproper, hnested⟩ := Field.forall_nodes.1 hnode
  have hbelow : ∀ object ∈ visit.objects, ∀ field ∈ object.visits, field.WellFormed := by
    intro object hobject field hfield
    obtain ⟨_, id, value, htell⟩ := h.objects object hobject
    have hmem : field.node ∈ node.selections :=
      htell.nodes ▸ List.mem_map_of_mem hfield
    have hkey : Utf8.WellFormed field.node.responseKey :=
      (Field.forall_nodes.1 (hnested _ hmem)).1.responseKey
    refine ih object hobject field hfield _ _ _ _ (htell.tell field hfield) (hnested _ hmem) ?_ ?_
    · rw [ResponsePath.WellFormed, ResponsePath.keys_append]
      exact List.forall_mem_append.2
        ⟨h.wellFormed_path hpath object hobject, List.forall_mem_singleton.2 hkey⟩
    · intro event hevent
      obtain ⟨below, hbelow, hevent⟩ := List.mem_filterMap.1 hevent
      exact hanswers event (List.mem_filterMap.2
        ⟨below, Visit.mem_all_of_field hobject hfield hbelow, hevent⟩)
  have hanswer : ∀ event ∈ visit.event?, event.answer.WellFormed := fun event hevent =>
    hanswers event (List.mem_filterMap.2 ⟨visit, visit.mem_all_self, hevent⟩)
  refine ⟨?_, h.wellFormed_value hanswer hbelow, ?_⟩
  · rw [Visit.key, h.node_eq]
    exact hproper.responseKey
  · rw [Visit.all_eq]
    refine List.forall_mem_cons.2 ⟨h.wellFormed_records hscope hproper hpath hanswer, ?_⟩
    intro below hmem
    obtain ⟨object, hobject, hmem⟩ := List.mem_flatMap.1 hmem
    obtain ⟨field, hfield, hmem⟩ := Visit.mem_allOf.1 hmem
    exact (hbelow object hobject field hfield).records below hmem

/-! ## §4 Responses -/

/-- The data of the response and its records are well-formed. -/
structure Response.WellFormed (response : Response) : Prop where
  data : (Value.object response.data).WellFormed
  errors : ∀ record ∈ response.errors, record.WellFormed

/-- What became of an operation is well-formed. -/
structure OperationAccount.WellFormed (account : OperationAccount m) : Prop where
  visits : ∀ visit ∈ account.visits, Visit.WellFormed visit
  records : ∀ record ∈ account.records, record.WellFormed

theorem Operation.WellFormed.label {operation : Operation} (h : operation.WellFormed) :
    Utf8.WellFormed operation.label := by
  unfold Operation.label
  cases hname : operation.name with
  | none => cases operation.kind <;> exact Utf8.wellFormed_utf8 _
  | some name => exact Utf8.wellFormed_isName (h.name name hname)

theorem OperationAccount.Tells.wellFormed {schema : Schema m} {options : RequestOptions}
    {operation : Operation} {account : OperationAccount m}
    (h : account.Tells schema options operation) (hnames : schema.NamesWellFormed)
    (hkeys : schema.KeysWellFormed) (hvalues : options.variableValues.KeysWellFormed)
    (hoperation : operation.WellFormed)
    (hanswers : ∀ event ∈ Visit.events (Visit.allOf account.visits), event.answer.WellFormed) :
    account.WellFormed := by
  cases h with
  | unsupported _ =>
    refine ⟨nofun, List.forall_mem_singleton.2 ⟨?_, nofun⟩⟩
    exact Message.wellFormed_of_one rfl hoperation.label
  | ran hroot hbound htell =>
    rename_i root bound visits
    have hbindings := VariableBindings.wellFormed_of_definitions hnames hkeys hvalues
      (fun definition hdefinition =>
        hoperation.variableNames.lexical _ (List.mem_map_of_mem hdefinition))
      hoperation.definitions hbound
    have hvisits : ∀ visit ∈ visits, visit.WellFormed := by
      intro visit hvisit
      have hmem : visit.node ∈ operation.selections := htell.nodes ▸ List.mem_map_of_mem hvisit
      have hnode := hoperation.fields visit.node hmem
      refine (htell.tell visit hvisit).wellFormed ⟨hnames, hkeys, hbindings.values⟩ hnode ?_ ?_
      · exact List.forall_mem_singleton.2 (Field.forall_nodes.1 hnode).1.responseKey
      · intro event hevent
        obtain ⟨below, hbelow, hevent⟩ := List.mem_filterMap.1 hevent
        exact hanswers event (List.mem_filterMap.2
          ⟨below, Visit.mem_allOf.2 ⟨visit, hvisit, hbelow⟩, hevent⟩)
    refine ⟨hvisits, List.forall_mem_append.2 ⟨hbindings.errors, ?_⟩⟩
    intro record hrecord
    obtain ⟨below, hbelow, hrecord⟩ := List.mem_flatMap.1 hrecord
    obtain ⟨visit, hvisit, hbelow⟩ := Visit.mem_allOf.1 hbelow
    exact (hvisits visit hvisit).records below hbelow record hrecord

/-- Everything in a response is well-formed if what the resolvers answered is. -/
theorem Account.Tells.wellFormed {schema : Schema m} {options : RequestOptions}
    {document : Document} {response : Response} {events : List (Event m)} {account : Account m}
    (h : account.Tells schema options document response events)
    (hnames : schema.NamesWellFormed) (hkeys : schema.KeysWellFormed)
    (hoptions : options.WellFormed) (hdocument : document.WellFormed)
    (hanswers : ∀ event ∈ events, event.answer.WellFormed) : response.WellFormed := by
  obtain ⟨checked, hchecked, htells⟩ := h.operations
  have hparts : ∀ part ∈ account, part.WellFormed := by
    intro part hpart
    obtain ⟨operation, hoperation, htell⟩ := exists_of_mem_right htells hpart
    refine htell.wellFormed hnames hkeys (hoptions.checked hchecked)
      (hdocument.operations operation (Request.mem_of_select hoperation)) ?_
    intro event hevent
    obtain ⟨below, hbelow, hevent⟩ := List.mem_filterMap.1 hevent
    obtain ⟨visit, hvisit, hbelow⟩ := Visit.mem_allOf.1 hbelow
    rw [h.events] at hanswers
    exact hanswers event (List.mem_filterMap.2 ⟨below,
      Visit.mem_allOf.2 ⟨visit, List.mem_flatMap.2 ⟨part, hpart, hvisit⟩, hbelow⟩, hevent⟩)
  constructor
  · rw [h.data]
    refine Value.wellFormed_assignAll (Visit.wellFormed_contributions fun visit hvisit => ?_)
    obtain ⟨part, hpart, hvisit⟩ := List.mem_flatMap.1 hvisit
    exact (hparts part hpart).visits visit hvisit
  · rw [h.errors]
    refine List.forall_mem_append.2 ⟨?_, ?_⟩
    · intro record hrecord
      cases hname : options.operationName with
      | none =>
        rw [hname] at hrecord
        cases hrecord
      | some name =>
        rw [hname] at hrecord
        simp only [Request.select] at hrecord
        split at hrecord
        · cases hrecord
        · rw [List.mem_singleton.1 hrecord]
          exact ⟨Message.wellFormed_of_one rfl (hoptions.operationName name hname),
            by simp⟩
    · intro record hrecord
      obtain ⟨part, hpart, hrecord⟩ := List.mem_flatMap.1 hrecord
      exact (hparts part hpart).records record hrecord

/-! ## §5 Envelopes -/

namespace Request

omit [LawfulMonad m] [LawfulMonadAttach m] [Monad m] [MonadAttach m] in
theorem wellFormed_envelope {response : Response} (h : response.WellFormed) :
    (envelope response).WellFormed := by
  refine Value.wellFormed_object.2 (List.forall_mem_cons.2 ⟨⟨Utf8.wellFormed_utf8 _, h.data⟩, ?_⟩)
  refine List.forall_mem_singleton.2 ⟨Utf8.wellFormed_utf8 _, Value.wellFormed_list.2 ?_⟩
  exact List.forall_mem_map.2 fun record hrecord => (h.errors record hrecord).toValue

omit [LawfulMonad m] [LawfulMonadAttach m] [Monad m] [MonadAttach m] in
/-- The message is the only text of such an envelope that is not fixed. -/
theorem wellFormed_malformedEnvelope_iff {error : SyntaxError} :
    (malformedEnvelope error).WellFormed ↔ Utf8.WellFormed error.message := by
  have hprefix : Utf8.IsAscii (utf8 "Syntax error: ") := (isPlain_utf8 _).isAscii
  have hlocations : (Value.list [error.location.toValue]).WellFormed :=
    Value.wellFormed_list.2 (List.forall_mem_singleton.2 error.location.wellFormed_toValue)
  simp [malformedEnvelope, Value.wellFormed_object, Value.wellFormed_list,
    Value.wellFormed_string, Value.wellFormed_null, Utf8.wellFormed_utf8,
    Utf8.wellFormed_append_iff hprefix, error.location.wellFormed_toValue]

/-- The text is refused with a message that quotes a byte past ASCII. -/
def QuotesStrayByte (query : Bytes) : Prop :=
  ∃ error, Document.ofText query = .error error ∧
    ∃ byte ∈ error.problem.strayByte?, 0x80 ≤ byte.toNat

/-- An envelope holds the response to the document that was read, or tells why none was. -/
inductive Encloses (schema : Schema m) (options : RequestOptions) (query : Bytes) :
    Value → List (Event m) → Prop where
  | response {document : Document} {response : Response} {events : List (Event m)}
      {account : Account m} :
      Document.ofText query = .ok document →
      account.Tells schema options document response events →
      Encloses schema options query (envelope response) events
  | refusal {error : SyntaxError} {events : List (Event m)} :
      Document.ofText query = .error error →
      Encloses schema options query (malformedEnvelope error) events

section Runs

variable [MonadLog m] (schema : Schema m) (options : RequestOptions) (query : Bytes)

omit [Monad m] [MonadAttach m] [LawfulMonad m] [LawfulMonadAttach m] [MonadLog m] in
theorem checkOptions_ne_malformed (error : SyntaxError) :
    checkOptions options ≠ .error (.malformed error) := by
  unfold checkOptions
  cases options.variableValues <;> cases options.context <;> nofun

/-- A document that was read is not refused as malformed any more. -/
theorem ne_malformed_runDocument (document : Document) :
    Yields (runDocument (Hosting.tracing.schema schema) options document).run
      fun result _ => ∀ error, result ≠ .error (.malformed error) := by
  unfold runDocument
  refine Yields.except_bind (R := fun result _ => result = checkOptions options)
    (Yields.of_pure rfl) ?_ ?_
  · intro checked _ _
    refine (gives_runOperations schema checked _ _).map fun result _ _ error => ?_
    cases result <;> exact nofun
  · rintro refusal _ hrefusal error ⟨⟩
    exact checkOptions_ne_malformed options error hrefusal.symm

omit options in
/-- Parsing calls no resolver, and what it gives is what is read from the text. -/
theorem yields_parse :
    Yields (parse query : ExceptT Refusal (Tracing m) Document).run fun result events =>
      events = [] ∧ (∀ document, result = .ok document → Document.ofText query = .ok document) ∧
        ∀ error, result = .error (.malformed error) → Document.ofText query = .error error := by
  unfold parse
  cases Document.ofText query with
  | ok document =>
    refine Yields.except_pure ⟨rfl, ?_, nofun⟩
    rintro _ ⟨⟩
    rfl
  | error error =>
    refine Yields.except_lift_bind (R := fun _ events => events = [])
      (Yields.of_lift fun _ _ => rfl) ?_
    rintro _ _ rfl
    refine Yields.of_pure (m := m) (a := Except.error (Refusal.malformed error))
      ⟨rfl, nofun, ?_⟩
    rintro _ ⟨⟩
    rfl

/-- A response comes with its account, and a refused text is one that was not read. -/
theorem yields_run :
    Yields (run (some (Hosting.tracing.schema schema)) options query).run fun result events =>
      (∀ response, result = .ok response →
        Encloses schema options query (envelope response) events) ∧
      ∀ error, result = .error (.malformed error) → Document.ofText query = .error error := by
  unfold run requireSchema
  rw [pure_bind]
  refine Yields.except_bind (yields_parse query) ?_ ?_
  · rintro document _ ⟨rfl, hread, _⟩ before result after hcan
    obtain ⟨events, hafter, htells⟩ :=
      gives_runDocument schema options document before result after hcan
    obtain ⟨_, _, hmalformed⟩ :=
      ne_malformed_runDocument schema options document before result after hcan
    refine ⟨events, hafter, fun response hresponse => ?_, fun error herror => ?_⟩
    · obtain ⟨account, haccount⟩ := htells response hresponse
      exact .response (hread document rfl) haccount
    · exact (hmalformed error herror).elim
  · rintro refusal _ ⟨rfl, _, hunread⟩
    refine ⟨nofun, ?_⟩
    rintro error ⟨⟩
    exact hunread error rfl

/-- What comes of a query text is an envelope of one of the two forms. -/
theorem yields_execute :
    Yields (execute (some (Hosting.tracing.schema schema)) options query).run
      fun result events => ∀ envelope, result = .ok envelope →
        Encloses schema options query envelope events := by
  refine (yields_run schema options query).bind fun result events hresult => ?_
  rw [← List.append_nil events] at hresult
  split
  · refine Yields.of_pure fun envelope henvelope => ?_
    cases henvelope
    exact hresult.1 _ rfl
  · refine Yields.of_pure fun envelope henvelope => ?_
    cases henvelope
    exact .refusal (hresult.2 _ rfl)
  · exact Yields.of_pure fun envelope henvelope => nomatch henvelope

/-- Tracing leaves a request as it is, and what it answers is well-formed text unless the
query is refused with a message that quotes a byte past ASCII. For this the names of the
schema, the options and what the resolvers answered are to be well-formed. Members of
defaults and of what scalars give can be named as unknown fields, so their keys count too. -/
theorem execute_wellFormed_iff (hnames : schema.NamesWellFormed) (hkeys : schema.KeysWellFormed)
    (hoptions : options.WellFormed) :
    Prod.fst <$> (execute (some (Hosting.tracing.schema schema)) options query).run.run [] =
        (execute (some schema) options query).run ∧
      ∀ envelope events, CanReturn
        ((execute (some (Hosting.tracing.schema schema)) options query).run.run [])
          (.ok envelope, events) →
        (∀ event ∈ events, event.answer.WellFormed) →
        (envelope.WellFormed ↔ ¬ QuotesStrayByte query) := by
  refine ⟨Hosting.simulation_tracing.execute schema options query [], ?_⟩
  intro envelope events hcan hanswers
  obtain ⟨_, rfl, hencloses⟩ := yields_execute schema options query [] _ events hcan
  cases hencloses envelope rfl with
  | @response document response _ account hread htells =>
    have hunquoted : ¬ QuotesStrayByte query := by
      rintro ⟨error, herror, _⟩
      rw [hread] at herror
      cases herror
    obtain ⟨c, hrun⟩ := Document.run_of_ofText hread
    have hdocument : document.WellFormed := (Reading.spec_of_document hrun).2
    have hresponse := htells.wellFormed hnames hkeys hoptions hdocument hanswers
    exact iff_of_true (wellFormed_envelope hresponse) hunquoted
  | @refusal error _ hread =>
    rw [wellFormed_malformedEnvelope_iff, SyntaxError.wellFormed_message_iff hread]
    constructor
    · rintro hascii ⟨other, hother, byte, hbyte, hpast⟩
      rw [hread] at hother
      cases hother
      exact absurd (hascii byte hbyte) (Nat.not_lt.2 hpast)
    · intro hunquoted byte hbyte
      by_contra hpast
      exact hunquoted ⟨error, hread, byte, hbyte, Nat.not_lt.1 hpast⟩

end Runs

end Request

/-- A built-in type has a well-formed name, and what it gives has no keys. -/
theorem Build.wellFormed_of_builtInTypes {type : NamedType Id} (h : type ∈ builtInTypes) :
    Utf8.WellFormed type.name ∧ ∃ coerce, type.body = .scalar coerce ∧
      ∀ value given, CanReturn (coerce value) (some given) → given.KeysWellFormed := by
  obtain ⟨scalar, hscalar, rfl⟩ := List.mem_map.1 h
  have hnames : ∀ scalar ∈ Scalar.builtIn, Utf8.WellFormed scalar.1 := by
    unfold Scalar.builtIn
    simp [Utf8.wellFormed_utf8]
  refine ⟨hnames scalar hscalar, _, rfl, fun value given hgiven => ?_⟩
  have hleaf := (idempotent_of_builtInTypes h rfl).leaf given ⟨value, hgiven⟩
  cases given <;> simp_all [Value.isLeaf, Value.KeysWellFormed, Value.Spelled]

/-- Definitions of one field, whose resolver answers with a text past ASCII. -/
def Definitions.accented : Definitions Id where
  scalars := []
  objects := [⟨utf8 "Query", [], [⟨utf8 "a", utf8 "String", [],
    some fun _ _ _ => .ok (.string (utf8 "é")), none, []⟩]⟩]
  inputs := []
  queryType := some (utf8 "Query")
  mutationType := none

/-- The field of these definitions. -/
def FieldType.accented : FieldType Id :=
  ⟨utf8 "a", .named 0, [], fun _ _ _ => .ok (.string (utf8 "é")), none, []⟩

/-- The schema that these definitions give. -/
def Schema.accented : Schema Id where
  types := Build.builtInTypes ++ [.of (utf8 "Query") [] (.object [.accented])]
  query := 5
  mutation := none

theorem Schema.body_accented {id : TypeId} {body : TypeBody Id}
    (h : accented.body? id = some body) :
    (∃ coerce, body = .scalar coerce ∧
      ∀ value given, CanReturn (coerce value) (some given) → given.KeysWellFormed) ∨
    body = .object [.accented] := by
  obtain ⟨type, htype, rfl⟩ := exists_of_body? h
  rcases List.mem_append.1 htype with hbuiltIn | hquery
  · exact .inl (Build.wellFormed_of_builtInTypes hbuiltIn).2
  · cases List.mem_singleton.1 hquery
    exact .inr rfl

theorem Schema.namesWellFormed_accented : accented.NamesWellFormed where
  types id type htype := by
    rcases List.mem_append.1 (List.mem_of_getElem? htype) with hbuiltIn | hquery
    · exact (Build.wellFormed_of_builtInTypes hbuiltIn).1
    · cases List.mem_singleton.1 hquery
      exact Utf8.wellFormed_utf8 _
  fields id fields hbody field hfield := by
    rcases body_accented hbody with ⟨_, hscalar, _⟩ | hobject
    · cases hscalar
    · cases hobject
      cases List.mem_singleton.1 hfield
      exact ⟨Utf8.wellFormed_utf8 _, nofun, nofun⟩
  inputFields id fields hbody := by
    rcases body_accented hbody with ⟨_, hscalar, _⟩ | hobject
    · cases hscalar
    · cases hobject

theorem Schema.keysWellFormed_accented : accented.KeysWellFormed where
  defaults id fields hbody := by
    rcases body_accented hbody with ⟨_, hscalar, _⟩ | hobject
    · cases hscalar
    · cases hobject
  scalars id coerce value given hbody _ := by
    rcases body_accented hbody with ⟨_, hscalar, hkeys⟩ | hobject
    · cases hscalar
      exact hkeys value given
    · cases hobject

theorem RequestOptions.wellFormed_plain : RequestOptions.plain.WellFormed :=
  ⟨nofun, Value.keysWellFormed_object.2 nofun⟩

theorem eq_ok_of_toOption {ε α : Type} {result : Except ε α} {a : α}
    (h : result.toOption = some a) : result = .ok a := by
  cases result with
  | ok given => exact congrArg Except.ok (Option.some.inj h)
  | error failure => cases h

/-- The envelope with what its resolver answers. -/
def Value.accented : Value := Request.envelope ⟨[(utf8 "a", .string (utf8 "é"))], []⟩

/-- A request in the schema with its calls traced. -/
def Schema.answered (query : Bytes) : Except Refusal Value × List (Event Id) :=
  ((Request.execute (some (Hosting.tracing.schema accented)) .plain query).run.run []).run

/-- The text past ASCII that a resolver answers with is part of a well-formed envelope. -/
theorem Request.execute_wellFormed_iff_accented :
    Schema.accented.NamesWellFormed ∧ Schema.accented.KeysWellFormed ∧
      RequestOptions.plain.WellFormed ∧
      (Schema.answered (utf8 "\x7b a \x7d")).1 = .ok .accented ∧
      (∀ event ∈ (Schema.answered (utf8 "\x7b a \x7d")).2, event.answer.WellFormed) ∧
      (Value.accented.WellFormed ↔ ¬ QuotesStrayByte (utf8 "\x7b a \x7d")) := by
  have hsome : (Schema.answered (utf8 "\x7b a \x7d")).1.toOption = some .accented := by
    decide +kernel
  have henvelope := eq_ok_of_toOption hsome
  have hanswers : ∀ event ∈ (Schema.answered (utf8 "\x7b a \x7d")).2,
      event.answer.WellFormed := by
    have hgiven : (Schema.answered (utf8 "\x7b a \x7d")).2.map (·.answer) =
        [.ok (.string (utf8 "é"))] := by rfl
    intro event hevent
    have hmem := List.mem_map_of_mem (f := (·.answer)) hevent
    rw [hgiven] at hmem
    rw [List.mem_singleton.1 hmem]
    exact Value.wellFormed_string.2 (Utf8.wellFormed_utf8 _)
  refine ⟨Schema.namesWellFormed_accented, Schema.keysWellFormed_accented,
    RequestOptions.wellFormed_plain, henvelope, hanswers, ?_⟩
  have hrun := execute_wellFormed_iff Schema.accented .plain (utf8 "\x7b a \x7d")
    Schema.namesWellFormed_accented Schema.keysWellFormed_accented RequestOptions.wellFormed_plain
  exact hrun.2 .accented (Schema.answered (utf8 "\x7b a \x7d")).2 (Prod.ext henvelope rfl) hanswers

/-- A letter past ASCII in place of a name is quoted by its first byte alone, so the envelope
is not well-formed, though the query is. -/
theorem Request.execute_not_wellFormed_accented :
    Definitions.accented.build.run = .ok Schema.accented ∧
      Schema.accented.NamesWellFormed ∧ Schema.accented.KeysWellFormed ∧
      RequestOptions.plain.WellFormed ∧
      (∀ event ∈ (Schema.answered (utf8 "\x7b é \x7d")).2, event.answer.WellFormed) ∧
      ∃ envelope, (execute (some Schema.accented) .plain (utf8 "\x7b é \x7d")).run =
        .ok envelope ∧ ¬ envelope.WellFormed := by
  have hbuild : Definitions.accented.build.run = Except.ok Schema.accented := by rfl
  have hevents : (Schema.answered (utf8 "\x7b é \x7d")).2 = [] := by decide +kernel
  have hread : Document.ofText (utf8 "\x7b é \x7d") =
      .error ⟨.expectedName (some 0xC3), ⟨1, 3⟩⟩ := by decide +kernel
  have hsome : (execute (some Schema.accented) .plain (utf8 "\x7b é \x7d")).run.toOption =
      some (malformedEnvelope ⟨.expectedName (some 0xC3), ⟨1, 3⟩⟩) := by decide +kernel
  refine ⟨hbuild, Schema.namesWellFormed_accented, Schema.keysWellFormed_accented,
    RequestOptions.wellFormed_plain, hevents ▸ List.forall_mem_nil _, _,
    eq_ok_of_toOption hsome, ?_⟩
  rw [wellFormed_malformedEnvelope_iff, SyntaxError.wellFormed_message_iff hread]
  exact fun hascii => absurd (hascii 0xC3 rfl) (by decide)

end GraphQL
