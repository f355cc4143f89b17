/-
GraphQL.Proofs.Execution.Returns — requests that no fault aborts.

  §1 Fields    — fields of a closed schema, nested to any depth.
  §2 Tasks     — fields at the top, side by side.
  §3 Requests  — operations, documents and query texts.
  §4 Schemas   — requests to a schema that is built.

In a closed schema a request meets no type that is missing, and input meets no
object type. What is left are the host's own computations, the calls of
resolvers among them, so the only refusal is that of a malformed text.
-/
import GraphQL.Proofs.Execution.Calls
import GraphQL.Proofs.Execution.Envelope
import GraphQL.Proofs.Input.Returns
import GraphQL.Proofs.Value.Equality

namespace GraphQL

open MonadAttach (CanReturn)
open LawfulMonadAttach (canReturn_bind_imp' eq_of_canReturn_pure)

variable {m : Type → Type} [Monad m] [LawfulMonad m] [MonadLog m]

/-! ## §1 Fields -/

namespace Execution

theorem resolve_returns (scope : Scope m) (field : FieldType m) (arguments : Members)
    (parent : Value) : Returns (resolve scope field arguments parent) :=
  (Returns.lift _).bind fun _ => (Returns.lift _).bind fun _ => Returns.pure _

omit [MonadLog m] in
theorem completeItems_returns {complete : Value → ResponsePath → Engine m Completed}
    (hcomplete : ∀ value path, Returns (complete value path)) (path : ResponsePath) (index : Nat)
    (items : List Value) : Returns (completeItems complete path index items) := by
  induction items generalizing index with
  | nil => exact Returns.pure _
  | cons item rest ih =>
    exact (hcomplete item _).bind fun _ => (ih _).bind fun _ => Returns.pure _

omit [MonadLog m] in
/-- Completion looks up one type, which is there if the field's type is. -/
theorem complete_returns {schema : Schema m}
    {select : TypeId → Value → ResponsePath → Engine m Completed}
    (hselect : ∀ id value path, Returns (select id value path)) {type : TypeExpr TypeId}
    (htype : schema.GivesValues type.leaf) (value : Value) (path : ResponsePath) :
    Returns (complete schema select type value path) := by
  induction type using TypeExpr.reading generalizing value path with
  | nonNull inner ih =>
    rw [complete_nonNull]
    exact ih (inner.leaf_unmarked ▸ htype) value path
  | list element ih =>
    cases value with
    | null => exact Returns.pure _
    | list items =>
      exact (completeItems_returns (ih htype) path 0 items).bind fun _ => Returns.pure _
    | bool _ => exact ih htype _ path
    | int _ => exact ih htype _ path
    | uint _ => exact ih htype _ path
    | float _ => exact ih htype _ path
    | string _ => exact ih htype _ path
    | object _ => exact ih htype _ path
  | named id =>
    obtain ⟨body, hbody, _⟩ := htype
    obtain ⟨type, hfound, _⟩ := Option.map_eq_some_iff.1 hbody
    rw [complete_named]
    split
    · exact Returns.pure _
    · rw [show schema.type? id = some type from hfound]
      dsimp only
      split
      · exact hselect id value path
      · exact Returns.pure _

theorem runResolver_returns (scope : Scope m) (site : FieldSite) (field : FieldType m)
    (arguments : ArgumentVerdict) (parent : Value) {finish : Value → Engine m Completed}
    (hfinish : ∀ value, Returns (finish value)) :
    Returns (runResolver scope site field arguments parent finish) := by
  unfold runResolver
  refine (resolve_returns scope field _ parent).bind fun resolution => ?_
  cases resolution with
  | ok value => exact (hfinish value).bind fun _ => Returns.pure _
  | error _ => exact Returns.pure _
  | untagged => exact Returns.pure _
  | raised _ => exact Returns.pure _
  | raisedOther => exact Returns.pure _

variable {scope : Scope m} (hclosed : scope.schema.Closed)
  (hscalars : scope.schema.CoercersReturn)

include hclosed hscalars

/-- A field that is found has arguments that take input and a type that gives values. -/
theorem runField_returns (node : Field) (parentType : TypeId) (parent : Value)
    (path : ResponsePath) {finish : TypeExpr TypeId → Value → Engine m Completed}
    (hfinish : ∀ type value, scope.schema.GivesValues type.leaf → Returns (finish type value)) :
    Returns (runField scope node parentType parent path finish) := by
  unfold runField
  cases hfield : scope.schema.field? parentType node.name with
  | none => exact Returns.pure _
  | some field =>
    obtain ⟨id, fields, hbody, hmem⟩ := Schema.declared_of_field? hfield
    obtain ⟨hgives, htake⟩ := hclosed.body id _ hbody field hmem
    refine (checkArguments_returns hclosed hscalars _ node path htake).bind fun verdict => ?_
    by_cases hvalid : verdict.valid = true
    · simp only [hvalid, if_true]
      exact runResolver_returns scope _ field verdict parent fun value =>
        hfinish field.type value hgives
    · simp only [hvalid]
      exact Returns.pure _

omit hclosed hscalars in
mutual

/-- A field and everything below it. -/
theorem executeField_returns (hclosed : scope.schema.Closed)
    (hscalars : scope.schema.CoercersReturn) :
    ∀ (node : Field) (parentType : TypeId) (parent : Value)
    (path : ResponsePath), Returns (executeField scope node parentType parent path)
  | ⟨aliasName, name, arguments, selections, location⟩, parentType, parent, path => by
    unfold executeField
    refine runField_returns hclosed hscalars _ parentType parent _ fun type value hgives => ?_
    by_cases hleaf : selections.isEmpty = true
    · simp only [hleaf, if_true]
      exact Returns.pure _
    · simp only [hleaf]
      refine complete_returns (fun id value path => ?_) hgives value _
      exact (executeFields_returns hclosed hscalars selections id value path).bind fun _ =>
        Returns.pure _

/-- Fields of a parent value, one after another. -/
theorem executeFields_returns (hclosed : scope.schema.Closed)
    (hscalars : scope.schema.CoercersReturn) :
    ∀ (nodes : List Field) (parentType : TypeId) (parent : Value)
    (path : ResponsePath), Returns (executeFields scope nodes parentType parent path)
  | [], _, _, _ => by
    unfold executeFields
    exact Returns.pure _
  | node :: rest, parentType, parent, path => by
    unfold executeFields
    refine (executeField_returns hclosed hscalars node parentType parent path).bind fun _ => ?_
    exact (executeFields_returns hclosed hscalars rest parentType parent path).bind fun _ =>
      Returns.pure _

end

/-! ## §2 Tasks -/

omit [Monad m] [LawfulMonad m] [MonadLog m] hclosed hscalars in
theorem allResults_ok {α : Type} (results : List α) :
    allResults (results.map Except.ok) = .ok results := by
  induction results with
  | nil => rfl
  | cons result rest ih =>
    rw [List.map_cons, allResults, ih]
    rfl

omit [MonadLog m] hclosed hscalars in
/-- Tasks that return come to no fault. -/
theorem runTasks_eq {α β : Type} {task : β → Engine m α} {work : β → m α}
    (htask : ∀ b, task b = ExceptT.lift (work b)) (bs : List β) :
    runTasks (bs.map task) = (List.map Except.ok) <$> bs.mapM work := by
  induction bs with
  | nil => simp [runTasks]
  | cons b rest ih => simp [runTasks, ih, htask]

theorem executeTasks_returns (nodes : List Field) (parentType : TypeId) (parent : Value) :
    Returns (executeTasks scope nodes parentType parent) := by
  obtain ⟨work, hwork⟩ := Classical.axiomOfChoice fun node =>
    executeField_returns hclosed hscalars node parentType parent []
  unfold executeTasks
  rw [runTasks_eq hwork]
  refine ⟨(fun results => (nodes.map Field.responseKey).zip results) <$> nodes.mapM work, ?_⟩
  apply ExceptT.ext
  simp [allResults_ok]

theorem executeTop_returns (parallel : Bool) (nodes : List Field) (parentType : TypeId)
    (parent : Value) : Returns (executeTop scope parallel nodes parentType parent) := by
  cases parallel with
  | true => exact executeTasks_returns hclosed hscalars nodes parentType parent
  | false => exact executeFields_returns hclosed hscalars nodes parentType parent []

end Execution

/-! ## §3 Requests -/

/-- What may be given for an option that is an object: null stands for the empty one. -/
def Value.isObjectOrNull : Value → Bool
  | .null => true
  | .object _ => true
  | _ => false

namespace Request

section Closed

variable {schema : Schema m} (hclosed : schema.Closed) (hscalars : schema.CoercersReturn)

include hclosed hscalars

theorem runOperation_returns (options : RequestOptions) (response : Response)
    (operation : Operation) : Returns (runOperation schema options response operation) := by
  unfold runOperation
  cases rootType? schema operation.kind with
  | none => exact Returns.pure _
  | some root =>
    refine (VariableBindings.ofDefinitions_returns hclosed hscalars _ _).bind fun bound => ?_
    let scope : Scope m := ⟨schema, bound.values, options.context⟩
    have htop := Execution.executeTop_returns (show scope.schema.Closed from hclosed) hscalars
      (options.parallel && operation.kind == .query) operation.selections root options.root
    exact htop.bind fun _ => (Returns.lift _).bind fun _ => Returns.pure _

theorem runOperations_returns (options : RequestOptions) (response : Response)
    (operations : List Operation) :
    Returns (runOperations schema options response operations) := by
  induction operations generalizing response with
  | nil => exact Returns.pure _
  | cons operation rest ih =>
    unfold runOperations
    exact (runOperation_returns hclosed hscalars options response operation).bind ih

omit [Monad m] [LawfulMonad m] [MonadLog m] hclosed hscalars in
theorem exists_of_objectOption {name : Bytes} {value : Value} (h : value.isObjectOrNull = true) :
    ∃ object, objectOption name value = .ok object := by
  cases value with
  | null => exact ⟨_, rfl⟩
  | object members => exact ⟨_, rfl⟩
  | _ => cases h

/-- A document is run to its end if the options are of the right kinds. -/
theorem runDocument_returns {options : RequestOptions}
    (hvalues : options.variableValues.isObjectOrNull = true)
    (hcontext : options.context.isObjectOrNull = true) (document : Document) :
    Returns (runDocument schema options document) := by
  obtain ⟨values, hvalues⟩ :
      ∃ object, objectOption (utf8 "variables") options.variableValues = .ok object :=
    exists_of_objectOption hvalues
  obtain ⟨context, hcontext⟩ :
      ∃ object, objectOption (utf8 "context") options.context = .ok object :=
    exists_of_objectOption hcontext
  have hchecked : checkOptions options =
      .ok { options with variableValues := values, context } := by
    simp [checkOptions, hvalues, hcontext]
    rfl
  unfold runDocument
  rw [hchecked]
  refine Returns.bind (Returns.pure _) fun checked => ?_
  exact (runOperations_returns hclosed hscalars _ _ _).adapt _

end Closed

/-- A query text is answered with a response, or refused because it is malformed.
Either is told in an envelope: with the data of the response as an object, or with null
for the data and one error. -/
inductive Answered (schema : Schema m) (options : RequestOptions) (query : Bytes) : Prop
  | answered {document : Document} {answer : m Response} :
    Document.ofText query = .ok document →
    run (some schema) options query = ExceptT.lift answer →
    execute (some schema) options query = ExceptT.lift (envelope <$> answer) →
    (∀ response, Value.Envelops (.object response.data) response.errors (envelope response)) →
    Answered schema options query
  | malformed {error : SyntaxError} :
    Document.ofText query = .error error →
    run (some schema) options query =
      (do ExceptT.lift (logMalformed error); throw (.malformed error)) →
    execute (some schema) options query =
      ExceptT.lift ((fun _ => malformedEnvelope error) <$> logMalformed error) →
    Value.Envelops .null [refusalRecord error] (malformedEnvelope error) →
    Answered schema options query

theorem answered_of_returns {schema : Schema m} {options : RequestOptions}
    (h : ∀ document, Returns (runDocument schema options document)) (query : Bytes) :
    Answered schema options query := by
  cases hquery : Document.ofText query with
  | ok document =>
    obtain ⟨answer, hanswer⟩ := h document
    have hrun : run (some schema) options query = ExceptT.lift answer := by
      simp [run, requireSchema, parse, hquery, hanswer]
    refine .answered hquery hrun ?_ envelops_envelope
    unfold execute
    rw [hrun]
    apply ExceptT.ext
    simp
  | error error =>
    have hrun : run (some schema) options query =
        (do ExceptT.lift (logMalformed error); throw (.malformed error)) := by
      simp [run, requireSchema, parse, hquery]
    refine .malformed hquery hrun ?_ (envelops_malformedEnvelope error)
    unfold execute
    rw [hrun]
    apply ExceptT.ext
    simp

end Request

/-! ## §4 Schemas -/

/-- The coercion functions that are defined return, whatever they are given. -/
def Definitions.CoercersReturn (definitions : Definitions m) : Prop :=
  ∀ scalar ∈ definitions.scalars, ∀ coerce, scalar.coercer = some coerce →
    ∀ value, Returns (coerce value)

omit [MonadLog m] in
theorem Build.coercersReturn_of_arena {definitions : Definitions m} {written : Schema m}
    (hscalars : definitions.CoercersReturn) (h : arena definitions = .ok written) :
    written.CoercersReturn := by
  obtain ⟨hdeclared, rfl⟩ := (checks_arena definitions).of_ok h
  exact fun _ _ => hdeclared.scalars (fun _ _ _ => Returns.pure _) hscalars

variable [MonadAttach m] [LawfulMonadAttach m]

omit [MonadLog m] in
/-- There are issues only with arguments that a node supplies. -/
theorem ArgumentAttempt.exists_node_of_issues {schema : Schema m} {bindings : Members}
    {nodes : List (Entry Literal)} {argument : Argument} {attempt : ArgumentAttempt}
    (h : CanReturn (make schema bindings nodes argument) attempt)
    (hissues : attempt.coerced.issues ≠ []) : ∃ node ∈ nodes, attempt.node = some node := by
  unfold make at h
  cases hfound : nodes.find? (·.name == argument.name) with
  | none =>
    rw [hfound] at h
    cases eq_of_canReturn_pure h
    exact absurd rfl hissues
  | some node =>
    rw [hfound] at h
    obtain ⟨coerced, _, h⟩ := canReturn_bind_imp' h
    cases eq_of_canReturn_pure h
    exact ⟨node, List.mem_of_find?_eq_some hfound, rfl⟩

namespace Definitions

variable {definitions : Definitions m} {schema : Schema m}

theorem coercersReturn_of_build (hscalars : definitions.CoercersReturn)
    (h : CanReturn definitions.build schema) : schema.CoercersReturn := by
  obtain ⟨written, hwritten, hsame⟩ := sameOutline_of_build h
  exact fun id coerce hbody =>
    Build.coercersReturn_of_arena hscalars hwritten id coerce (hsame.symm.body?_scalar hbody)

/-- A schema that is built is closed: every type that is referred to is there,
with arguments, input fields and variables one that takes input, with fields one
that gives values, and operations start at object types. All scalars have a
coercion function. If these return, then every query text is answered with a
response or refused because it is malformed, whatever resolvers do, and an
envelope tells which: its data is an object with the first and null with the second,
and its errors are a list that shows every record. No issue is reported of an argument that
has no node. -/
theorem answered_of_build (hscalars : definitions.CoercersReturn)
    (hbuild : CanReturn definitions.build schema) {options : RequestOptions}
    (hvalues : options.variableValues.isObjectOrNull = true)
    (hcontext : options.context.isObjectOrNull = true) (query : Bytes) :
    (schema.Closed ∧
      (∀ scalar ∈ definitions.scalars, scalar.coercer.isSome = true) ∧
      (∀ (definition : VariableDefinition) type, definition.inputType? schema = some type →
        schema.TakesInput type.leaf) ∧
      ∀ bindings nodes argument attempt,
        CanReturn (ArgumentAttempt.make schema bindings nodes argument) attempt →
        attempt.coerced.issues ≠ [] → ∃ node ∈ nodes, attempt.node = some node) ∧
    Request.Answered schema options query := by
  have hclosed := closed_of_build hbuild
  refine ⟨⟨hclosed, coercers_of_build hbuild, ?_, ?_⟩, ?_⟩
  · exact fun _ _ => VariableDefinition.takesInput_of_inputType?
  · exact fun _ _ _ _ => ArgumentAttempt.exists_node_of_issues
  · refine Request.answered_of_returns (fun document => ?_) query
    exact Request.runDocument_returns hclosed (coercersReturn_of_build hscalars hbuild) hvalues
      hcontext document

end Definitions

/-- Definitions with a scalar of names, an input object that has names in a list,
and a field that takes it. Its resolver raises a message. -/
def Definitions.greeting : Definitions Id where
  scalars := [⟨utf8 "Name", some fun value => return some value⟩]
  objects := [⟨fallbackQueryType, [], [⟨utf8 "greet", utf8 "String!",
    [⟨utf8 "guests", utf8 "Guests", none, none, []⟩],
    some fun _ _ _ => .raised (utf8 "nobody home"), none, []⟩]⟩]
  inputs := [⟨utf8 "Guests", [], [⟨utf8 "names", utf8 "[Name!]", none, none, []⟩]⟩]
  queryType := none
  mutationType := none

/-- The schema that these definitions give. -/
def Schema.greeting : Schema Id where
  types := Build.builtInTypes ++ [
    .of (utf8 "Name") [] (.scalar fun value => return some value),
    .of fallbackQueryType [] (.object [⟨utf8 "greet", .nonNull (.named 0),
      [⟨utf8 "guests", .named 7, none, none, []⟩],
      fun _ _ _ => .raised (utf8 "nobody home"), none, []⟩]),
    .of (utf8 "Guests") [] (.inputObject
      [⟨utf8 "names", .list (.nonNull (.named 5)), none, none, []⟩])]
  query := 6
  mutation := none

namespace Definitions

theorem build_greeting : CanReturn greeting.build Schema.greeting := by
  have hwritten : Build.arena greeting = .ok (.ofTypes Schema.greeting.types) := by rfl
  have hsettled : (Build.settleDefaults (.ofTypes Schema.greeting.types)).run =
      Except.ok (.ofTypes Schema.greeting.types) := by rfl
  exact build_of_passes hwritten hsettled rfl

theorem coercersReturn_greeting : greeting.CoercersReturn := by
  intro scalar hscalar coerce hcoerce value
  cases List.mem_singleton.1 hscalar
  cases hcoerce
  exact Returns.pure _

end Definitions

/-- A resolver that raises is answered, as is an option that is null. -/
theorem Definitions.answered_of_build_greeting :
    let options := { RequestOptions.plain with variableValues := .null, parallel := true }
    let query := utf8 "query($n:Name)\x7bgreet(guests:\x7bnames:[$n]\x7d)\x7d"
    (greeting.CoercersReturn ∧ CanReturn greeting.build Schema.greeting ∧
      options.variableValues.isObjectOrNull = true ∧ options.context.isObjectOrNull = true) ∧
    Request.Answered Schema.greeting options query := by
  intro options query
  have hvalues : options.variableValues.isObjectOrNull = true := rfl
  have hcontext : options.context.isObjectOrNull = true := rfl
  refine ⟨⟨coercersReturn_greeting, build_greeting, hvalues, hcontext⟩, ?_⟩
  exact (answered_of_build coercersReturn_greeting build_greeting hvalues hcontext query).2

end GraphQL
