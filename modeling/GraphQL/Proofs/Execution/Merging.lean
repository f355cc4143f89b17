/-
GraphQL.Proofs.Execution.Merging — a document as the sum of its operations.

  §1 Responses    — merging responses, and what a merged response holds.
  §2 Operations   — an operation adds to a response what it gives by itself.
  §3 Selection    — the request for one operation of a document.
  §4 Refusals     — options that are refused, and faults that become refusals.
  §5 Documents    — the run of a document is the merge of such requests.

Operations of a document write into one response. What one of them gives does not
depend on what is there already, so it may be run against the empty response and
merged afterwards. The order of members needs an argument: an operation may assign
a key that another one has assigned, and the key then keeps its first place.
-/
import GraphQL.Proofs.Execution.Accounting
import GraphQL.Proofs.Execution.Adapting
import GraphQL.Proofs.Execution.Schedule
import GraphQL.Proofs.Value.Assignment
import GraphQL.Proofs.Value.Equality
import Mathlib.Data.List.Nodup

namespace GraphQL

/-! ## §1 Responses -/

namespace Response

/-- A response with a later one added: its members are assigned in order, and its
records come last. -/
def merge (response later : Response) : Response :=
  ⟨assignAll response.data later.data, response.errors ++ later.errors⟩

/-- Responses merged in order. -/
def merged (responses : List Response) : Response := responses.foldl merge empty

theorem foldl_merge (response : Response) (responses : List Response) :
    responses.foldl merge response =
      ⟨assignAll response.data (responses.flatMap (·.data)),
        response.errors ++ responses.flatMap (·.errors)⟩ := by
  induction responses generalizing response with
  | nil => simp [assignAll]
  | cons first rest ih =>
    rw [List.foldl_cons, ih, List.flatMap_cons, List.flatMap_cons, assignAll_append,
      ← List.append_assoc]
    rfl

/-- What a merged response holds: the records of all responses in order, each key
once, where it was first assigned, and under each key what was assigned last. -/
structure MergedFrom (response : Response) (responses : List Response) : Prop where
  errors : response.errors = responses.flatMap (·.errors)
  keys : response.data.map (·.1) = (responses.flatMap (·.data.map (·.1))).eraseDups
  lookup (key : Bytes) :
    response.data.lookup key = (responses.flatMap (·.data)).reverse.lookup key

theorem mergedFrom_merged (responses : List Response) :
    (merged responses).MergedFrom responses := by
  rw [merged, foldl_merge]
  refine ⟨rfl, ?_, fun key => ?_⟩
  · rw [← List.map_flatMap]
    exact keys_assignAll _
  · show (assignAll [] _).lookup key = _
    rw [lookup_assignAll, List.append_nil]

/-- Results that are added to a response may be made a response of their own first. -/
theorem addAll_eq_merge (response : Response) (records : List ErrorRecord)
    (results : List (Bytes × FieldResult)) :
    ({ response with errors := response.errors ++ records } : Response).addAll results =
      response.merge (({ empty with errors := empty.errors ++ records } : Response).addAll
        results) := by
  simp only [merge, addAll, empty, assignAll_assignAll_nil, List.nil_append, List.append_assoc]

end Response

/-! ## §2 Operations -/

namespace Request

variable {m : Type → Type} [Monad m] [LawfulMonad m] [MonadLog m]
variable (schema : Schema m) (options : RequestOptions) (top : TopRunner m)

/-- What an operation adds to a response does not depend on the response. -/
theorem runOperationWith_eq_merge (response : Response) (operation : Operation) :
    runOperationWith schema options top response operation =
      response.merge <$> runOperationWith schema options top .empty operation := by
  unfold runOperationWith
  cases rootType? schema operation.kind with
  | none =>
    rw [map_pure]
    rfl
  | some root =>
    simp only [map_bind, map_pure, Response.addAll_eq_merge response]

/-- Operations may be run by themselves, one after another, and merged when all of
them have been run. -/
theorem runOperationsWith_eq_foldl (response : Response) (operations : List Operation) :
    runOperationsWith schema options (fun _ => top) response operations =
      (fun responses => responses.foldl Response.merge response) <$>
        operations.mapM (runOperationWith schema options top .empty) := by
  induction operations generalizing response with
  | nil => simp [runOperationsWith]
  | cons operation rest ih =>
    unfold runOperationsWith
    rw [runOperationWith_eq_merge]
    simp only [ih, List.mapM_cons, bind_map_left, map_bind, bind_pure_comp,
      Functor.map_map, List.foldl_cons]

/-! ## §3 Selection -/

/-- The request for one operation of a document. -/
def naming (operation : Operation) : RequestOptions :=
  { options with operationName := operation.name }

/-- Where the names of operations differ, each operation is found under its name. -/
theorem select_of_mem {document : Document} {operation : Operation}
    (hmem : operation ∈ document.operations)
    (hnamed : ∀ operation ∈ document.operations, operation.name.isSome = true)
    (hdistinct : (document.operations.map (·.name)).Nodup) :
    select document operation.name = ([operation], .empty) := by
  have hsame : ∀ other ∈ document.operations,
      other.name.getD [] = operation.name.getD [] → other = operation := by
    intro other hother hname
    refine List.inj_on_of_nodup_map hdistinct hother hmem ?_
    obtain ⟨name, h⟩ := Option.isSome_iff_exists.1 (hnamed operation hmem)
    obtain ⟨name', h'⟩ := Option.isSome_iff_exists.1 (hnamed other hother)
    rw [h, h'] at hname ⊢
    exact congrArg some hname
  obtain ⟨name, hname⟩ := Option.isSome_iff_exists.1 (hnamed operation hmem)
  have hfound : document.operation? name = some operation := by
    unfold Document.operation?
    cases hfind : document.operations.find? fun other => other.name.getD [] == name with
    | none =>
      have := List.find?_eq_none.1 hfind operation hmem
      simp [hname] at this
    | some other =>
      have hother := List.find?_some hfind
      rw [hsame other (List.mem_of_find?_eq_some hfind)]
      simpa [hname] using hother
  rw [hname, select, hfound]

theorem checkOptions_naming (operation : Operation) :
    checkOptions (naming options operation) = (naming · operation) <$> checkOptions options := by
  unfold checkOptions naming
  cases objectOption (utf8 "variables") options.variableValues with
  | error refusal => rfl
  | ok variableValues => cases objectOption (utf8 "context") options.context <;> rfl

/-! ## §4 Refusals -/

section Checked

omit [MonadLog m]

variable {options} {checked : RequestOptions} {refusal : Refusal} {α : Type}

theorem checked_bind (h : checkOptions options = .ok checked)
    (next : RequestOptions → ExceptT Refusal m α) :
    ExceptT.mk (pure (checkOptions options)) >>= next = next checked := by
  rw [h]
  exact pure_bind checked next

theorem refused_bind (h : checkOptions options = .error refusal)
    (next : RequestOptions → ExceptT Refusal m α) :
    ExceptT.mk (pure (checkOptions options)) >>= next = throw refusal := by
  rw [h]
  exact ExceptT.bind_throw next

end Checked

omit [MonadLog m] in
theorem mapM_eq_of_mem {ε α β : Type} {run run' : α → ExceptT ε m β} {inputs : List α}
    (h : ∀ input ∈ inputs, run input = run' input) : inputs.mapM run = inputs.mapM run' := by
  induction inputs with
  | nil => rfl
  | cons input rest ih =>
    obtain ⟨hfirst, hrest⟩ := List.forall_mem_cons.1 h
    rw [List.mapM_cons, List.mapM_cons, hfirst, ih hrest]

/-! ## §5 Documents -/

/-- Runs one operation against the empty response, with options that are still to be
looked at. -/
def runAlone (operation : Operation) : ExceptT Refusal m Response := do
  let options ← ExceptT.mk (pure (checkOptions options))
  (runOperationWith schema options top .empty operation).adapt Refusal.aborted

/-- The request for one operation of a document runs it against the empty response. -/
theorem runDocumentWith_naming {document : Document} {operation : Operation}
    (hmem : operation ∈ document.operations)
    (hnamed : ∀ operation ∈ document.operations, operation.name.isSome = true)
    (hdistinct : (document.operations.map (·.name)).Nodup) :
    runDocumentWith schema (naming options operation) (fun _ => top) document =
      runAlone schema options top operation := by
  unfold runDocumentWith runAlone
  have hchecks := checkOptions_naming options operation
  cases hchecked : checkOptions options with
  | error refusal =>
    rw [hchecked] at hchecks
    rw [refused_bind hchecks, ← hchecked, refused_bind hchecked]
  | ok checked =>
    rw [hchecked] at hchecks
    have hselect : select document (naming checked operation).operationName =
        ([operation], .empty) := select_of_mem hmem hnamed hdistinct
    have hrun : runOperationsWith schema (naming checked operation) (fun _ => top) .empty
        [operation] = runOperationWith schema checked top .empty operation := by
      unfold runOperationsWith runOperationsWith
      exact bind_pure _
    rw [checked_bind hchecks, ← hchecked, checked_bind hchecked]
    simp only [hselect, hrun]

/-- All operations are run by themselves, with options that are looked at once. -/
theorem runDocumentWith_all {document : Document} (hall : options.operationName = none) :
    runDocumentWith schema options (fun _ => top) document = (do
      let checked ← ExceptT.mk (pure (checkOptions options))
      Response.merged <$> document.operations.mapM fun operation =>
        (runOperationWith schema checked top .empty operation).adapt Refusal.aborted) := by
  unfold runDocumentWith
  cases hchecked : checkOptions options with
  | error refusal =>
    rw [← hchecked, refused_bind hchecked, refused_bind hchecked]
  | ok checked =>
    have hselect : select document checked.operationName = (document.operations, .empty) := by
      rw [operationName_of_checkOptions hchecked, hall]
      rfl
    rw [← hchecked, checked_bind hchecked, checked_bind hchecked]
    simp only [hselect, runOperationsWith_eq_foldl, adapt_map, adapt_mapM]
    rfl

/-- A run of a document is the merge of the runs of its operations, each requested by
its name. The options are looked at first, which matters where there is no operation
that would look at them. -/
structure Merges (run : RequestOptions → ExceptT Refusal m Response) (options : RequestOptions)
    (operations : List Operation) : Prop where
  checked : run options = do
    let _ ← ExceptT.mk (pure (checkOptions options))
    Response.merged <$> operations.mapM fun operation => run (naming options operation)
  of_ne_nil : operations ≠ [] → run options =
    Response.merged <$> operations.mapM fun operation => run (naming options operation)

/-- Any way to run the fields at the top will do, if operations that are run by themselves
are run in the same way. -/
theorem merges_runDocumentWith {document : Document}
    (hall : options.operationName = none)
    (hnamed : ∀ operation ∈ document.operations, operation.name.isSome = true)
    (hdistinct : (document.operations.map (·.name)).Nodup) :
    Merges (runDocumentWith schema · (fun _ => top) document) options document.operations := by
  have heach : (document.operations.mapM fun operation =>
      runDocumentWith schema (naming options operation) (fun _ => top) document) =
        document.operations.mapM (runAlone schema options top) :=
    mapM_eq_of_mem fun operation hmem =>
      runDocumentWith_naming schema options top hmem hnamed hdistinct
  have hrun : runDocumentWith schema options (fun _ => top) document = _ :=
    runDocumentWith_all schema options top hall
  cases hchecked : checkOptions options with
  | error refusal =>
    rw [refused_bind hchecked] at hrun
    have halone (operation : Operation) :
        runAlone schema options top operation = throw refusal := refused_bind hchecked _
    constructor
    · rw [hrun, refused_bind hchecked]
    · intro hoperations
      obtain ⟨operation, rest, h⟩ := List.exists_cons_of_ne_nil hoperations
      rw [hrun, heach, h, List.mapM_cons, halone]
      simp
  | ok checked =>
    rw [checked_bind hchecked] at hrun
    have halone : runAlone schema options top = fun operation =>
        (runOperationWith schema checked top .empty operation).adapt Refusal.aborted :=
      funext fun _ => checked_bind hchecked _
    constructor
    · rw [checked_bind hchecked, heach, hrun, halone]
    · intro _
      rw [heach, hrun, halone]

/-- Running a document whose operations have different names is merging, in their order,
what a request for each of them gives: records are concatenated, and members are assigned
one after another, so that a key keeps the place of its first assignment and has the value
of its last one. Operations have their own variables, and one that the schema does not
support adds its record where it stands. Nothing is asked of the resolvers, the fields at
the top may be run side by side, under any schedule, and a fault in one operation is a
fault of the whole, with the operations after it not run. -/
theorem runDocument_merges {document : Document}
    (hall : options.operationName = none)
    (hnamed : ∀ operation ∈ document.operations, operation.name.isSome = true)
    (hdistinct : (document.operations.map (·.name)).Nodup) :
    Merges (runDocument schema · document) options document.operations ∧
      (∀ top : TopRunner m, Merges (runDocumentWith schema · (fun _ => top) document) options
        document.operations) ∧
      ∀ responses, (Response.merged responses).MergedFrom responses := by
  refine ⟨?_, fun top => merges_runDocumentWith schema options top hall hnamed hdistinct,
    Response.mergedFrom_merged⟩
  have hmerges := merges_runDocumentWith schema options Execution.executeTop hall hnamed hdistinct
  simpa only [runDocumentWith_executeTop] using hmerges

end Request

/-- A schema without mutations, in which one field gives its argument back and one raises. -/
def Schema.echoing : Schema Id where
  types := Build.builtInTypes ++ [
    .of (utf8 "Query") [] (.object [
      ⟨utf8 "echo", .named 1, [⟨utf8 "of", .named 1, none, none, []⟩],
        fun arguments _ _ => .ok (arguments.member (utf8 "of")), none, []⟩,
      ⟨utf8 "shout", .named 1, [], fun _ _ _ => .raised (utf8 "hoarse"), none, []⟩])]
  query := 5
  mutation := none

/-- Three operations. The last one assigns keys of the first one again, in another order. -/
def Document.echoing : Document := ⟨[
  ⟨.query, some (utf8 "First"), [⟨utf8 "n", .named (utf8 "Int"), none, ⟨1, 13⟩⟩],
    [⟨none, utf8 "echo", [⟨utf8 "of", .reference ⟨1, 32⟩ (utf8 "n"), ⟨1, 28⟩⟩], [], ⟨1, 22⟩⟩,
      .plain (utf8 "shout") []], ⟨1, 1⟩⟩,
  ⟨.mutation, some (utf8 "Second"), [], [.plain (utf8 "echo") []], ⟨2, 1⟩⟩,
  ⟨.query, some (utf8 "Third"), [],
    [⟨some (utf8 "shout"), utf8 "echo", [⟨utf8 "of", .int ⟨3, 29⟩ 7, ⟨3, 25⟩⟩], [], ⟨3, 15⟩⟩,
      ⟨some (utf8 "last"), utf8 "shout", [], [], ⟨3, 40⟩⟩], ⟨3, 1⟩⟩]⟩

/-- A request for all operations, with a variable for the first of them. -/
def RequestOptions.echoing : RequestOptions :=
  { RequestOptions.plain with
    variableValues := .object [(utf8 "n", .int 5)], parallel := true }

/-- A key that is assigned again keeps its place, the mutation has its record between those
of the queries, and the response is the merge of three. -/
theorem Request.runDocument_merges_echoing :
    RequestOptions.echoing.operationName = none ∧
      (∀ operation ∈ Document.echoing.operations, operation.name.isSome = true) ∧
      (Document.echoing.operations.map (·.name)).Nodup ∧
      runDocument Schema.echoing .echoing .echoing =
        Response.merged <$> (Document.echoing.operations.mapM fun operation =>
          runDocument Schema.echoing (naming .echoing operation) .echoing) ∧
      (runDocument Schema.echoing .echoing .echoing).run.map (fun response =>
          (response.data, response.errors.map (·.message))) =
        .ok ([(utf8 "echo", .int 5), (utf8 "shout", .int 7), (utf8 "last", .null)],
          [.given (utf8 "hoarse"), .mutationsUnsupported (utf8 "Second"),
            .given (utf8 "hoarse")]) := by
  have hnamed : ∀ operation ∈ Document.echoing.operations, operation.name.isSome = true := by
    decide
  have hdistinct : (Document.echoing.operations.map (·.name)).Nodup := by decide
  refine ⟨rfl, hnamed, hdistinct, ?_, by decide +kernel⟩
  exact (runDocument_merges Schema.echoing .echoing rfl hnamed hdistinct).1.of_ne_nil (by decide)

end GraphQL
