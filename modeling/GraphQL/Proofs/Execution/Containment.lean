/-
GraphQL.Proofs.Execution.Containment — what one field can change in a response.

  §1 Documents   — documents that differ in one field.
  §2 Agreement   — what is the same outside the keys of that field.
  §3 Below       — records about a field and what is below it have its keys.
  §4 Completion  — values that agree are completed to values that agree.
  §5 Fields      — the field may be at any depth, below any number of lists.
  §6 Requests    — two runs of documents that differ in one field.

The two runs go the same way but for the one field. They are followed side by
side as computations in step, whose results agree outside the keys that lead to
the field. Where the runs come to the field itself, nothing is asked but that
both come to a result, since its member and its records are all inside.
-/
import GraphQL.Proofs.Execution.Placement
import GraphQL.Proofs.Execution.Returns
import GraphQL.Proofs.Execution.Schedule
import GraphQL.Proofs.Value.Equality
import GraphQL.Proofs.Value.Outside

namespace GraphQL

open MonadAttach (CanReturn)
open Execution

/-! ## §1 Documents -/

/-- Two selections that differ in one field, to which the keys lead. Both fields have the
same response key, and whatever else is in them may differ. -/
inductive SelectionsDiffer : List Bytes → List Field → List Field → Prop
  | here {before after : List Field} {node other : Field} :
    other.responseKey = node.responseKey →
    SelectionsDiffer [node.responseKey] (before ++ node :: after) (before ++ other :: after)
  | within {before after selections : List Field} {node : Field} {keys : List Bytes} :
    SelectionsDiffer keys node.selections selections →
    SelectionsDiffer (node.responseKey :: keys) (before ++ node :: after)
      (before ++ { node with selections } :: after)

/-- Two operations that differ in one field. -/
structure Operation.DiffersAt (keys : List Bytes) (operation other : Operation) : Prop where
  same : other = { operation with selections := other.selections }
  selections : SelectionsDiffer keys operation.selections other.selections

/-- An operation and itself, or two operations that differ in one field. -/
structure Operation.AgreesBut (keys : List Bytes) (operation other : Operation) : Prop where
  same : other = { operation with selections := other.selections }
  selections : other.selections = operation.selections ∨
    SelectionsDiffer keys operation.selections other.selections

/-- Two documents that differ in one field of one operation. -/
structure Document.DiffersAt (keys : List Bytes) (document other : Document) : Prop where
  operations : ∃ before operation changed after,
    document.operations = before ++ operation :: after ∧
    other.operations = before ++ changed :: after ∧ operation.DiffersAt keys changed

namespace SelectionsDiffer

variable {keys : List Bytes} {selections others : List Field}

theorem keys_ne_nil (h : SelectionsDiffer keys selections others) : keys ≠ [] := by
  cases h <;> simp

theorem ne_nil (h : SelectionsDiffer keys selections others) : selections ≠ [] ∧ others ≠ [] := by
  cases h <;> simp

end SelectionsDiffer

/-! ## §2 Agreement -/

/-- The path of the record, its indices left out, does not start with the keys. -/
def ErrorRecord.isOutside (keys : List Bytes) (record : ErrorRecord) : Bool :=
  match record.path with
  | none => true
  | some path => !keys.isPrefixOf path.keys

/-- The records outside the keys, in their order. -/
def recordsOutside (keys : List Bytes) (errors : List ErrorRecord) : List ErrorRecord :=
  errors.filter (ErrorRecord.isOutside keys)

theorem recordsOutside_append (keys : List Bytes) (errors more : List ErrorRecord) :
    recordsOutside keys (errors ++ more) = recordsOutside keys errors ++ recordsOutside keys more :=
  List.filter_append ..

/-- Two responses have the same data without what the keys reach, and the same records
outside the keys. -/
structure Response.AgreeOutside (keys : List Bytes) (response other : Response) : Prop where
  data : membersWithout keys response.data = membersWithout keys other.data
  errors : recordsOutside keys response.errors = recordsOutside keys other.errors

/-- Two completed values agree. The keys lead on from the values, and `whole` is all of
them, from the data on. -/
structure Execution.CompletedAgree (whole keys : List Bytes) (completed other : Completed) :
    Prop where
  value : completed.1.withObjects (membersWithout keys) =
    other.1.withObjects (membersWithout keys)
  errors : recordsOutside whole completed.2 = recordsOutside whole other.2

/-- So do the items of two lists. -/
structure Execution.ItemsAgree (whole keys : List Bytes)
    (completed other : List Value × List ErrorRecord) : Prop where
  values : Value.itemsWithObjects (membersWithout keys) completed.1 =
    Value.itemsWithObjects (membersWithout keys) other.1
  errors : recordsOutside whole completed.2 = recordsOutside whole other.2

/-- So do the results of two fields. -/
structure Execution.FieldsAgree (whole keys : List Bytes) (result other : FieldResult) : Prop where
  value : result.value.map (·.withObjects (membersWithout keys)) =
    other.value.map (·.withObjects (membersWithout keys))
  errors : recordsOutside whole result.errors = recordsOutside whole other.errors

/-- So do the results of the fields of an object. -/
structure Execution.ResultsAgree (whole keys : List Bytes)
    (results others : List (Bytes × FieldResult)) : Prop where
  members : membersWithout keys (Response.members results) =
    membersWithout keys (Response.members others)
  errors : recordsOutside whole (Response.records results) =
    recordsOutside whole (Response.records others)

namespace Execution.ResultsAgree

variable {whole keys : List Bytes} {results others more rest : List (Bytes × FieldResult)}

theorem refl (results : List (Bytes × FieldResult)) : ResultsAgree whole keys results results :=
  ⟨rfl, rfl⟩

theorem append (h : ResultsAgree whole keys results others)
    (hmore : ResultsAgree whole keys more rest) :
    ResultsAgree whole keys (results ++ more) (others ++ rest) where
  members := by
    simp only [Response.members, List.filterMap_append, membersWithout_append]
    exact congrArg₂ _ h.members hmore.members
  errors := by
    simp only [Response.records, List.flatMap_append, recordsOutside_append]
    exact congrArg₂ _ h.errors hmore.errors

/-- What is added to responses that agree leaves them in agreement. -/
theorem addAll {response other : Response} (hresponse : response.AgreeOutside keys other)
    (h : ResultsAgree keys keys results others) :
    (response.addAll results).AgreeOutside keys (other.addAll others) where
  data := by
    rw [Response.addAll, Response.addAll, membersWithout_assignAll, membersWithout_assignAll,
      hresponse.data, h.members]
  errors := by
    rw [Response.addAll, Response.addAll, recordsOutside_append, recordsOutside_append,
      hresponse.errors, h.errors]

/-- The objects made of the results agree. -/
theorem object (h : ResultsAgree whole keys results others) :
    CompletedAgree whole keys (objectOf results) (objectOf others) where
  value := by
    simp only [objectOf, Response.addAll, Response.empty, Value.withObjects,
      membersWithout_assignAll, h.members]
  errors := h.errors

/-- One result whose keys lead on. -/
theorem of_field (hkeys : keys ≠ []) {key : Bytes} {result other : FieldResult}
    (h : FieldsAgree whole keys result other) :
    ResultsAgree whole (key :: keys) [(key, result)] [(key, other)] where
  members := by
    have hvalue := h.value
    cases hresult : result.value with
    | none =>
      rw [hresult] at hvalue
      simp [Response.members, hresult, Option.map_eq_none_iff.1 hvalue.symm]
    | some value =>
      rw [hresult, Option.map_some] at hvalue
      obtain ⟨changed, hother, hsame⟩ := Option.map_eq_some_iff.1 hvalue.symm
      simp only [Response.members, hresult, hother, List.filterMap_cons, List.filterMap_nil,
        Option.map_some]
      rw [membersWithout_into key hkeys, membersWithout_into key hkeys, hsame]
  errors := by simpa [Response.records] using h.errors

/-- One result that is all inside. -/
theorem of_inside {key : Bytes} {result other : FieldResult}
    (h : recordsOutside whole result.errors = [])
    (hother : recordsOutside whole other.errors = []) :
    ResultsAgree whole [key] [(key, result)] [(key, other)] where
  members := by
    have hinside : ∀ result : FieldResult,
        membersWithout [key] (Response.members [(key, result)]) = [] := by
      intro result
      cases hvalue : result.value with
      | none => simp [Response.members, hvalue]; rfl
      | some value =>
        simp only [Response.members, hvalue, List.filterMap_cons, List.filterMap_nil,
          Option.map_some]
        exact membersWithout_last key value
    rw [hinside, hinside]
  errors := by simp [Response.records, h, hother]

end Execution.ResultsAgree

/-! ## §3 Below -/

namespace Execution

variable {scope : Scope Id} {whole keys : List Bytes}

/-- Where nothing but the result happens, a computation that returns is its result. -/
theorem exists_of_returns {ε α : Type} {x : ExceptT ε Id α} (h : Returns x) : ∃ a, x = pure a := by
  obtain ⟨y, rfl⟩ := h
  exact ⟨y.run, rfl⟩

/-- All records of a field have a path that starts with its own. -/
theorem path_of_executeField {node : Field} {parentType : TypeId} {parent : Value}
    {path : ResponsePath} {result : FieldResult}
    (h : executeField scope node parentType parent path = pure result) :
    ∀ record ∈ result.errors, ∃ rest : ResponsePath,
      record.path = some (path ++ .key node.responseKey :: rest) := by
  let traced := (executeField (Hosting.tracing.scope scope) node parentType parent path).run.run []
  have hplain : Prod.fst <$> traced = (executeField scope node parentType parent path).run :=
    Hosting.simulation_tracing.executeField scope node parentType parent path []
  have hresult : traced.run.1 = .ok result := by
    rw [h] at hplain
    exact hplain
  obtain ⟨_, _, hgiven⟩ :=
    gives_executeField node parentType parent path [] _ _ (canReturn_id traced)
  obtain ⟨visit, htells, rfl, _⟩ := hgiven result hresult
  intro record hrecord
  obtain ⟨below, hbelow, hown⟩ := List.mem_flatMap.1 hrecord
  have htold : visit.Told scope := ⟨parentType, parent, by rwa [htells.node_eq, htells.path_eq]⟩
  obtain ⟨_, _, hbelowTells⟩ := htold.below below hbelow
  obtain ⟨rest, hrest⟩ := htold.path_below below hbelow
  refine ⟨rest, ?_⟩
  rw [(hbelowTells.placedIn record hown).1, hrest, htells.path_eq]
  simp

/-- So none of them is outside the keys that lead to the field. -/
theorem recordsOutside_executeField {node : Field} {parentType : TypeId} {parent : Value}
    {path : ResponsePath} {result : FieldResult}
    (h : executeField scope node parentType parent path = pure result)
    (hwhole : whole = path.keys ++ [node.responseKey]) :
    recordsOutside whole result.errors = [] := by
  refine List.filter_eq_nil_iff.2 fun record hrecord => ?_
  obtain ⟨rest, hpath⟩ := path_of_executeField h record hrecord
  have hkeys : (path ++ PathSegment.key node.responseKey :: rest).keys = whole ++ rest.keys := by
    simp [hwhole]
  simp [ErrorRecord.isOutside, hpath, hkeys]

/-! ## §4 Completion -/

theorem inStep_completeItems {f g : Value → ResponsePath → Engine Id Completed}
    {path : ResponsePath}
    (h : ∀ value index, InStep (CompletedAgree whole keys) (f value (path ++ [.index index]))
      (g value (path ++ [.index index]))) (index : Nat) (items : List Value) :
    InStep (ItemsAgree whole keys) (completeItems f path index items)
      (completeItems g path index items) := by
  induction items generalizing index with
  | nil => exact .pure ⟨rfl, rfl⟩
  | cons item rest ih =>
    unfold completeItems
    refine (h item index).bind fun first second hfirst => ?_
    refine (ih (index + 1)).bind fun later others hlater => .pure ⟨?_, ?_⟩
    · exact congrArg₂ List.cons hfirst.value hlater.values
    · rw [recordsOutside_append, recordsOutside_append, hfirst.errors, hlater.errors]

/-- Completion keeps agreement, given it for the objects that are met. These stand some
indices below the value, so that the same keys lead to them. -/
theorem inStep_complete {schema : Schema Id}
    {f g : TypeId → Value → ResponsePath → Engine Id Completed} {before : List Bytes}
    (h : ∀ id value path, path.keys = before →
      InStep (CompletedAgree whole keys) (f id value path) (g id value path))
    (type : TypeExpr TypeId) (value : Value) {path : ResponsePath} (hpath : path.keys = before) :
    InStep (CompletedAgree whole keys) (complete schema f type value path)
      (complete schema g type value path) := by
  induction type using TypeExpr.reading generalizing value path with
  | nonNull inner ih =>
    rw [complete_nonNull, complete_nonNull]
    exact ih value hpath
  | list element ih =>
    cases value with
    | null => exact .pure ⟨rfl, rfl⟩
    | list items =>
      have hitem : ∀ value index, InStep (CompletedAgree whole keys)
          (complete schema f element value (path ++ [.index index]))
          (complete schema g element value (path ++ [.index index])) :=
        fun value index => ih value (by simpa using hpath)
      refine (inStep_completeItems hitem 0 items).bind fun first second hitems =>
        .pure ⟨?_, hitems.errors⟩
      exact congrArg Value.list hitems.values
    | bool _ => exact ih _ hpath
    | int _ => exact ih _ hpath
    | uint _ => exact ih _ hpath
    | float _ => exact ih _ hpath
    | string _ => exact ih _ hpath
    | object _ => exact ih _ hpath
  | named id =>
    rw [complete_named, complete_named]
    split
    · exact .pure ⟨rfl, rfl⟩
    · cases schema.type? id with
      | none => exact .throw _
      | some type =>
        dsimp only
        split
        · exact h id value path hpath
        · exact .pure ⟨rfl, rfl⟩

/-! ## §5 Fields -/

/-- A declared field agrees with itself if what is made of its values agrees. -/
theorem inStep_runResolver {site : FieldSite} {field : FieldType Id} {arguments : ArgumentVerdict}
    {parent : Value} {f g : Value → Engine Id Completed}
    (h : ∀ value, InStep (CompletedAgree whole keys) (f value) (g value)) :
    InStep (FieldsAgree whole keys) (runResolver scope site field arguments parent f)
      (runResolver scope site field arguments parent g) := by
  unfold runResolver
  refine (InStep.refl (fun _ => rfl) (resolve scope field arguments.values parent)).bind ?_
  rintro answer _ rfl
  cases answer with
  | ok value =>
    refine (h value).bind fun first second hvalue => .pure ⟨?_, ?_⟩
    · exact congrArg some hvalue.value
    · rw [recordsOutside_append, recordsOutside_append, hvalue.errors]
  | error _ => exact .pure ⟨rfl, rfl⟩
  | untagged => exact .pure ⟨rfl, rfl⟩
  | raised _ => exact .pure ⟨rfl, rfl⟩
  | raisedOther => exact .pure ⟨rfl, rfl⟩

theorem inStep_runField {node other : Field}
    (hsame : other = { node with selections := other.selections }) {parentType : TypeId}
    {parent : Value} {path : ResponsePath} {f g : TypeExpr TypeId → Value → Engine Id Completed}
    (h : ∀ type value, InStep (CompletedAgree whole keys) (f type value) (g type value)) :
    InStep (FieldsAgree whole keys) (runField scope node parentType parent path f)
      (runField scope other parentType parent path g) := by
  rw [hsame]
  unfold runField
  dsimp only
  cases scope.schema.field? parentType node.name with
  | none => exact .pure ⟨rfl, rfl⟩
  | some field =>
    refine (InStep.refl (fun _ => rfl)
      (checkArguments scope.schema scope.bindings field node path)).bind ?_
    rintro verdict _ rfl
    cases verdict.valid with
    | true => exact inStep_runResolver (h field.type)
    | false => exact .pure ⟨rfl, rfl⟩

/-- Fields are run up to one of them, then that one, then those after it. -/
theorem executeFields_around (before after : List Field) (node : Field) (parentType : TypeId)
    (parent : Value) (path : ResponsePath) :
    executeFields scope (before ++ node :: after) parentType parent path = do
      let first ← executeFields scope before parentType parent path
      let result ← executeField scope node parentType parent path
      let later ← executeFields scope after parentType parent path
      return first ++ ([(node.responseKey, result)] ++ later) := by
  induction before with
  | nil =>
    rw [List.nil_append, executeFields]
    simp [executeFields]
  | cons first rest ih =>
    rw [List.cons_append, executeFields, ih, executeFields]
    simp

/-- Fields agree if they do so but for one, and this one agrees. -/
theorem inStep_around {before after : List Field} {node other : Field}
    (hkey : other.responseKey = node.responseKey) {parentType : TypeId} {parent : Value}
    {path : ResponsePath} (h : InStep (fun result changed =>
      ResultsAgree whole keys [(node.responseKey, result)] [(node.responseKey, changed)])
      (executeField scope node parentType parent path)
      (executeField scope other parentType parent path)) :
    InStep (ResultsAgree whole keys)
      (executeFields scope (before ++ node :: after) parentType parent path)
      (executeFields scope (before ++ other :: after) parentType parent path) := by
  rw [executeFields_around, executeFields_around, hkey]
  refine (InStep.refl (fun _ => rfl) _).bind ?_
  rintro first _ rfl
  refine h.bind fun result changed hresult => ?_
  refine (InStep.refl (fun _ => rfl) _).bind ?_
  rintro later _ rfl
  exact .pure ((ResultsAgree.refl first).append (hresult.append (.refl later)))

/-- Fields that differ in one agree outside the keys that lead to it. -/
theorem inStep_executeFields (hclosed : scope.schema.Closed)
    (hscalars : scope.schema.CoercersReturn) {selections others : List Field}
    (h : SelectionsDiffer keys selections others) (parentType : TypeId) (parent : Value)
    {path : ResponsePath} (hwhole : whole = path.keys ++ keys) :
    InStep (ResultsAgree whole keys) (executeFields scope selections parentType parent path)
      (executeFields scope others parentType parent path) := by
  induction h generalizing parentType parent path with
  | @here before after node other hkey =>
    refine inStep_around hkey ?_
    obtain ⟨result, hresult⟩ :=
      exists_of_returns (executeField_returns hclosed hscalars node parentType parent path)
    obtain ⟨changed, hchanged⟩ :=
      exists_of_returns (executeField_returns hclosed hscalars other parentType parent path)
    rw [hresult, hchanged]
    exact .pure (.of_inside (recordsOutside_executeField hresult hwhole)
      (recordsOutside_executeField hchanged (hkey.symm ▸ hwhole)))
  | @within before after selections node keys hdiffer ih =>
    have hkey : ({ node with selections } : Field).responseKey = node.responseKey := rfl
    refine inStep_around hkey ?_
    suffices hfield : InStep (FieldsAgree whole keys)
        (executeField scope node parentType parent path)
        (executeField scope { node with selections } parentType parent path) from
      hfield.imp fun _ _ => ResultsAgree.of_field hdiffer.keys_ne_nil
    obtain ⟨aliasName, name, arguments, nested, location⟩ := node
    unfold executeField
    refine inStep_runField rfl fun type value => ?_
    obtain ⟨hnested, hselections⟩ := hdiffer.ne_nil
    simp only [List.isEmpty_iff, hnested, hselections, if_false]
    refine inStep_complete (fun id value path hpath => ?_) type value rfl
    refine (ih id value ?_).bind fun results changed hresults => .pure hresults.object
    rw [hpath, hwhole]
    simp

end Execution

/-! ## §6 Requests -/

namespace Request

variable {schema : Schema Id} {options : RequestOptions} {keys : List Bytes}
  {response other : Response}

/-- Results that come in step are related. -/
theorem rel_of_inStep {α β : Type} {R : α → β → Prop} {a : α} {b : β}
    (h : InStep R (pure a : Engine Id α) (pure b)) : R a b := by
  obtain ⟨both, hfirst, hsecond⟩ := h
  cases both with
  | error fault => cases hfirst
  | ok results =>
    cases hfirst
    cases hsecond
    exact results.2

/-- What is refused for its options. -/
theorem runDocument_of_refusal {refusal : Refusal}
    (hchecked : checkOptions options = .error refusal) (document : Document) :
    (runDocument schema options document).run = .error refusal := by
  unfold runDocument
  rw [hchecked]
  rfl

/-- The response of a request whose operations come to one. -/
theorem runDocument_of_runOperations {document : Document} {checked : RequestOptions}
    (hchecked : checkOptions options = .ok checked)
    (h : runOperations schema checked (select document checked.operationName).2
      (select document checked.operationName).1 = pure response) :
    (runDocument schema options document).run = .ok response := by
  unfold runDocument
  rw [hchecked]
  exact congrArg (fun run : Engine Id Response => (run.adapt Refusal.aborted).run) h

/-- What was to be logged is not seen where nothing but the result happens. -/
theorem inStep_lift (x y : Id Unit) :
    InStep (fun _ _ => True) (ExceptT.lift x : Engine Id Unit) (ExceptT.lift y) :=
  .pure trivial

/-- One operation, or two that differ in one field, leave responses in agreement. -/
theorem inStep_runOperation (options : RequestOptions) (hclosed : schema.Closed)
    (hscalars : schema.CoercersReturn) {operation changed : Operation}
    (h : operation.AgreesBut keys changed)
    (hresponse : response.AgreeOutside keys other) :
    InStep (Response.AgreeOutside keys) (runOperation schema options response operation)
      (runOperation schema options other changed) := by
  obtain ⟨hsame, hselections⟩ := h
  have hlabel : changed.label = operation.label := by rw [hsame]; rfl
  obtain ⟨hkind, hvariables, hlocation⟩ : changed.kind = operation.kind ∧
      changed.variableDefinitions = operation.variableDefinitions ∧
      changed.location = operation.location := by
    rw [hsame]
    exact ⟨rfl, rfl, rfl⟩
  have hserial := Execution.serial_executeTop
  unfold runOperation
  rw [hkind, hvariables, hlabel, hlocation]
  cases rootType? schema operation.kind with
  | none =>
    refine .pure ⟨hresponse.data, ?_⟩
    rw [recordsOutside_append, recordsOutside_append, hresponse.errors]
  | some root =>
    refine (InStep.refl (fun _ => rfl) _).bind ?_
    rintro bound _ rfl
    let scope : Scope Id := ⟨schema, bound.values, options.context⟩
    have hfields : InStep (ResultsAgree keys keys)
        (executeFields scope operation.selections root options.root [])
        (executeFields scope changed.selections root options.root []) := by
      rcases hselections with heq | hdiffer
      · rw [heq]
        exact .refl ResultsAgree.refl _
      · exact inStep_executeFields hclosed hscalars hdiffer root options.root rfl
    simp only [hserial _ _]
    refine hfields.bind fun results others hresults => ?_
    refine (inStep_lift _ _).bind fun _ _ _ => .pure (hresults.addAll ⟨hresponse.data, ?_⟩)
    rw [recordsOutside_append, recordsOutside_append, hresponse.errors]

theorem inStep_runOperations (options : RequestOptions) (hclosed : schema.Closed)
    (hscalars : schema.CoercersReturn) {operations changed : List Operation}
    (h : List.Forall₂ (Operation.AgreesBut keys) operations changed)
    (hresponse : response.AgreeOutside keys other) :
    InStep (Response.AgreeOutside keys) (runOperations schema options response operations)
      (runOperations schema options other changed) := by
  induction h generalizing response other with
  | nil => exact .pure hresponse
  | cons hoperation _ ih =>
    unfold runOperations
    exact (inStep_runOperation options hclosed hscalars hoperation hresponse).bind fun _ _ => ih

theorem find?_agreesBut {operations others : List Operation}
    (h : List.Forall₂ (Operation.AgreesBut keys) operations others) (name : Bytes) :
    Option.Rel (Operation.AgreesBut keys)
      (operations.find? fun operation => operation.name.getD [] == name)
      (others.find? fun operation => operation.name.getD [] == name) := by
  refine find?_rel (fun operation other hagrees => ?_) h
  have hname : other.name = operation.name := by rw [hagrees.same]
  rw [hname]

/-- Of documents that differ in one field, the same operations are run. -/
theorem select_agreesBut {document changed : Document} (h : document.DiffersAt keys changed)
    (name : Option Bytes) :
    List.Forall₂ (Operation.AgreesBut keys) (select document name).1 (select changed name).1 ∧
      (select changed name).2 = (select document name).2 := by
  have hall : List.Forall₂ (Operation.AgreesBut keys) document.operations changed.operations := by
    obtain ⟨before, operation, other, after, hoperations, hothers, hdiffer⟩ := h.operations
    have hsame : ∀ operations : List Operation,
        List.Forall₂ (Operation.AgreesBut keys) operations operations := fun operations =>
      List.forall₂_same.2 fun operation _ => ⟨rfl, .inl rfl⟩
    rw [hoperations, hothers]
    exact List.rel_append (hsame before)
      (.cons ⟨hdiffer.same, .inr hdiffer.selections⟩ (hsame after))
  cases name with
  | none => exact ⟨hall, rfl⟩
  | some name =>
    have hfound : Option.Rel (Operation.AgreesBut keys) (document.operation? name)
        (changed.operation? name) := find?_agreesBut hall name
    simp only [select]
    generalize document.operation? name = found at hfound
    generalize changed.operation? name = other at hfound
    cases hfound with
    | none => exact ⟨.nil, rfl⟩
    | some hagrees => exact ⟨.cons hagrees .nil, rfl⟩

end Request

/-- In a schema that is built, with coercion functions that return and resolvers that do
nothing but answer or raise, two documents that differ in one field have responses that
agree outside the keys of this field: the same data but for what these keys reach, and
the same records but for those with a path that starts with them. What is refused for
its options is refused for both. -/
theorem Definitions.contained_of_build {definitions : Definitions Id} {schema : Schema Id}
    (hscalars : definitions.CoercersReturn) (hbuild : CanReturn definitions.build schema)
    (options : RequestOptions) {keys : List Bytes} {document changed : Document}
    (hdiffer : document.DiffersAt keys changed) :
    (∃ refusal, Request.checkOptions options = .error refusal ∧
      (Request.runDocument schema options document).run = .error refusal ∧
      (Request.runDocument schema options changed).run = .error refusal) ∨
    ∃ response other, (Request.runDocument schema options document).run = .ok response ∧
      (Request.runDocument schema options changed).run = .ok other ∧
      response.AgreeOutside keys other := by
  have hclosed := closed_of_build hbuild
  have hreturn := coercersReturn_of_build hscalars hbuild
  cases hchecked : Request.checkOptions options with
  | error refusal =>
    exact .inl ⟨refusal, rfl, Request.runDocument_of_refusal hchecked document,
      Request.runDocument_of_refusal hchecked changed⟩
  | ok checked =>
    obtain ⟨hoperations, hstart⟩ := Request.select_agreesBut hdiffer checked.operationName
    have hagree : (Request.select document checked.operationName).2.AgreeOutside keys
        (Request.select changed checked.operationName).2 := by rw [hstart]; exact ⟨rfl, rfl⟩
    have hruns := Request.inStep_runOperations checked hclosed hreturn hoperations hagree
    obtain ⟨response, hresponse⟩ := Execution.exists_of_returns
      (Request.runOperations_returns hclosed hreturn checked
        (Request.select document checked.operationName).2
        (Request.select document checked.operationName).1)
    obtain ⟨other, hother⟩ := Execution.exists_of_returns
      (Request.runOperations_returns hclosed hreturn checked
        (Request.select changed checked.operationName).2
        (Request.select changed checked.operationName).1)
    rw [hresponse, hother] at hruns
    exact .inr ⟨response, other, Request.runDocument_of_runOperations hchecked hresponse,
      Request.runDocument_of_runOperations hchecked hother, Request.rel_of_inStep hruns⟩

/-- The definitions of the schema in which items have a field that fails. -/
def Definitions.failing : Definitions Id where
  scalars := []
  objects := [
    ⟨utf8 "Item", [], [⟨utf8 "name", utf8 "String", [], none, none, []⟩,
      ⟨utf8 "fail", utf8 "String", [], some fun _ _ _ => .error (utf8 "no"), none, []⟩]⟩,
    ⟨utf8 "Query", [], [⟨utf8 "items", utf8 "[[Item]]", [], some fun _ _ _ => .ok (.list [
      .list [.null, .object []], .null, .object []]), none, []⟩]⟩]
  inputs := []
  queryType := some (utf8 "Query")
  mutationType := none

/-- A query for the items, with an argument that names do not have and with one more field. -/
def Document.items (field : Field) : Document :=
  ⟨[⟨.query, none, [], [⟨some (utf8 "all"), utf8 "items", [],
    [⟨none, utf8 "name", [⟨utf8 "short", .boolean ⟨2, 15⟩ true, ⟨2, 8⟩⟩], [], ⟨2, 3⟩⟩, field],
    ⟨1, 2⟩⟩], ⟨1, 1⟩⟩]⟩

theorem Document.differsAt_items (field other : Field)
    (hkey : other.responseKey = field.responseKey) :
    (items field).DiffersAt [utf8 "all", field.responseKey] (items other) := by
  let short : Entry Literal := ⟨utf8 "short", .boolean ⟨2, 15⟩ true, ⟨2, 8⟩⟩
  let name : Field := ⟨none, utf8 "name", [short], [], ⟨2, 3⟩⟩
  let all : Field := ⟨some (utf8 "all"), utf8 "items", [], [name, field], ⟨1, 2⟩⟩
  have hfield : SelectionsDiffer [field.responseKey] [name, field] [name, other] :=
    @SelectionsDiffer.here [name] [] field other hkey
  exact ⟨[], _, _, [], rfl, rfl, rfl, @SelectionsDiffer.within [] [] [name, other] all _ hfield⟩

/-- A field that items do not have, under the key of the one that fails. -/
def Field.exchanged : Field :=
  ⟨some (utf8 "fail"), utf8 "none", [], [.plain (utf8 "deep") []], ⟨3, 3⟩⟩

/-- The data of a response in which the items have the members. -/
def Members.inItems (members : Members) : Members :=
  [(utf8 "all", .list [.list [.null, .object members], .null, .object members])]

/-- The field that fails has null in both items, an unknown one in its place has no member.
All that is said of the names is the same. -/
theorem Definitions.contained_of_build_failing :
    let field : Field := .plain (utf8 "fail") []
    (failing.CoercersReturn ∧ CanReturn failing.build Schema.failing ∧
      (Document.items field).DiffersAt [utf8 "all", utf8 "fail"] (.items .exchanged)) ∧
    ∃ response other,
      (Request.runDocument Schema.failing .plain (.items field)).run = .ok response ∧
      (Request.runDocument Schema.failing .plain (.items .exchanged)).run = .ok other ∧
      response.AgreeOutside [utf8 "all", utf8 "fail"] other ∧
      response.data = .inItems [(utf8 "name", .null), (utf8 "fail", .null)] ∧
      other.data = .inItems [(utf8 "name", .null)] := by
  have hscalars : failing.CoercersReturn := fun _ hscalar => nomatch hscalar
  have hbuild : failing.build.run = Except.ok Schema.failing := by rfl
  have hdiffer := Document.differsAt_items (.plain (utf8 "fail") []) .exchanged rfl
  refine ⟨⟨hscalars, hbuild, hdiffer⟩, ?_⟩
  rcases contained_of_build hscalars hbuild .plain hdiffer with ⟨_, hrefused, _⟩ | hcontained
  · cases hrefused
  obtain ⟨response, other, hresponse, hother, hagree⟩ := hcontained
  refine ⟨response, other, hresponse, hother, hagree, ?_, ?_⟩
  · have hdata : (Request.runDocument Schema.failing .plain
        (.items (.plain (utf8 "fail") []))).run.toOption.map Response.data =
        some (.inItems [(utf8 "name", .null), (utf8 "fail", .null)]) := by decide +kernel
    rw [hresponse] at hdata
    exact Option.some.inj hdata
  · have hdata : (Request.runDocument Schema.failing .plain
        (.items .exchanged)).run.toOption.map Response.data =
        some (.inItems [(utf8 "name", .null)]) := by decide +kernel
    rw [hother] at hdata
    exact Option.some.inj hdata

end GraphQL
