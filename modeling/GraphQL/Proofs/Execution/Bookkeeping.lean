/-
GraphQL.Proofs.Execution.Bookkeeping — runs that keep an account of themselves.

  §1 Runs      — the engine, with visits for results.
  §2 Readings  — results read from visits, objects being read in any way.
  §3 Moves     — records whose paths are moved.
  §4 Checks    — reports on arguments at a moved path.
  §5 Values    — completion in step with its account.
  §6 Fields    — so are fields, one after another or side by side.
  §7 Requests  — so are operations, and the response is read from all accounts.

A response alone does not tell which field an object in it was made for, since a
field may have the key of another one and take its place. The account tells, and
here it is what a run gives: the engine is written once more so that it gives the
tree of its visits. The plain run is read from that one, and so is the run of
fields that stand at other paths and have other aliases, since neither is looked
at before a result is put together.
-/
import GraphQL.Proofs.Execution.Account
import GraphQL.Proofs.Input.InStep
import GraphQL.Proofs.Value.Assignment

namespace GraphQL

open Execution (Completed noticesBefore resolutionMessage? objectOf)

variable {m : Type → Type}

/-! ## §1 Runs -/

section Runs

variable [Monad m]

namespace Execution

/-- The completions of the items of a list. -/
def completionItems (complete : Value → ResponsePath → Engine m (Completion m))
    (path : ResponsePath) : Nat → List Value → Engine m (List (Completion m))
  | _, [] => return []
  | index, item :: rest => do
    let completion ← complete item (path ++ [.index index])
    let completions ← completionItems complete path (index + 1) rest
    return completion :: completions

/-- The completion of a value at a type. -/
def completionOf (schema : Schema m)
    (select : TypeId → Value → ResponsePath → Engine m (List (Visit m))) :
    TypeExpr TypeId → Value → ResponsePath → Engine m (Completion m)
  | .list element, value, path | .nonNull (.list element), value, path =>
    match value with
    | .null => return .plain .null
    | .list items => do
      return .list (← completionItems (completionOf schema select element) path 0 items)
    | value => completionOf schema select element value path
  | type, value, path =>
    match value with
    | .null => return .plain .null
    | value =>
      match schema.type? type.leaf with
      | none => throw (.unknownType type.leaf)
      | some named =>
        if named.isObject then return .object path (← select type.leaf value path)
        else return .plain value

variable [MonadLog m]

/-- What the answer of a resolver comes to; null stands for one that is no value. -/
def completionOfAnswer (finish : Value → Engine m (Completion m)) :
    Resolution → Engine m (Completion m)
  | .ok value => finish value
  | _ => return .plain .null

/-- The visit of a declared field whose arguments are valid. -/
def visitResolver (scope : Scope m) (node : Field) (path : ResponsePath) (field : FieldType m)
    (arguments : ArgumentVerdict) (parent : Value) (finish : Value → Engine m (Completion m)) :
    Engine m (Visit m) := do
  let answer ← resolve scope field arguments.values parent
  let completion ← completionOfAnswer finish answer
  return .called node path (noticesBefore ⟨field.name, node.location, path⟩ field arguments)
    ⟨⟨field, .object arguments.values, scope.context, parent⟩, answer⟩ completion

/-- The visit of a field that may be declared or not. -/
def visitNode (scope : Scope m) (node : Field) (parentType : TypeId) (parent : Value)
    (path : ResponsePath) (finish : TypeExpr TypeId → Value → Engine m (Completion m)) :
    Engine m (Visit m) :=
  match scope.schema.field? parentType node.name with
  | none => return .unknown node path
  | some field => do
    let arguments ← checkArguments scope.schema scope.bindings field node path
    if arguments.valid then visitResolver scope node path field arguments parent (finish field.type)
    else return .refused node path arguments.errors

mutual

/-- The visit of a field that stands at the path. -/
def visitField (scope : Scope m) : Field → TypeId → Value → ResponsePath → Engine m (Visit m)
  | ⟨aliasName, name, arguments, selections, location⟩, parentType, parent, path =>
    visitNode scope ⟨aliasName, name, arguments, selections, location⟩ parentType parent path
      fun type value =>
        if selections.isEmpty then return .plain value
        else
          completionOf scope.schema
            (fun id value path => visitFields scope selections id value path) type value path

/-- The visits of fields of a parent value that stands at the path. -/
def visitFields (scope : Scope m) :
    List Field → TypeId → Value → ResponsePath → Engine m (List (Visit m))
  | [], _, _, _ => return []
  | field :: rest, parentType, parent, path => do
    let visit ← visitField scope field parentType parent (path ++ [.key field.responseKey])
    let visits ← visitFields scope rest parentType parent path
    return visit :: visits

end

/-- The results of tasks, if all of them come to one. -/
def gather {α : Type} (tasks : List (Engine m α)) : Engine m (List α) := do
  ExceptT.mk (pure (allResults (← ExceptT.lift (runTasks tasks))))

/-- The visits of the fields at the top, side by side or one after another. -/
def visitTop (scope : Scope m) (parallel : Bool) (fields : List Field) (parentType : TypeId)
    (parent : Value) : Engine m (List (Visit m)) :=
  if parallel then
    gather (fields.map fun field =>
      visitField scope field parentType parent [.key field.responseKey])
  else visitFields scope fields parentType parent []

end Execution

namespace Request

variable [MonadLog m]

/-- Runs one operation and keeps its account. -/
def visitOperation (schema : Schema m) (options : RequestOptions) (operation : Operation) :
    Engine m (OperationAccount m) := do
  match rootType? schema operation.kind with
  | none => return .unsupported operation
  | some root =>
    let bound ← VariableBindings.ofDefinitions schema options.variableValues
      operation.variableDefinitions
    let visits ← Execution.visitTop ⟨schema, bound.values, options.context⟩
      (options.parallel && operation.kind == .query) operation.selections root options.root
    logExecuted operation (Response.records (Visit.results visits)).length
    return .ran operation bound visits

/-- Runs the selected operations of a document and keeps the account of the request. -/
def visitDocument (schema : Schema m) (options : RequestOptions) (document : Document) :
    ExceptT Refusal m (Account m) := do
  let options ← ExceptT.mk (pure (checkOptions options))
  ((select document options.operationName).1.mapM (visitOperation schema options)).adapt
    Refusal.aborted

end Request

end Runs

/-! ## §2 Readings -/

section Readings

variable (object : ResponsePath → List (Visit m) → Completed)

mutual

/-- What a completion comes to when the objects that are met are read by a function of their
path and their visits. -/
def Completion.readBy : Completion m → Completed
  | .plain value => (value, [])
  | .list items => (.list (Completion.itemsBy items).1, (Completion.itemsBy items).2)
  | .object path visits => object path visits

/-- What the completions of items come to. -/
def Completion.itemsBy : List (Completion m) → List Value × List ErrorRecord
  | [] => ([], [])
  | item :: rest => (item.readBy.1 :: (Completion.itemsBy rest).1,
      item.readBy.2 ++ (Completion.itemsBy rest).2)

end

/-- What a field contributes when the objects of its value are read by a function. -/
def Visit.resultBy (visit : Visit m) : FieldResult :=
  match visit with
  | .called _ _ _ _ completion =>
    ⟨some (completion.readBy object).1, visit.records ++ (completion.readBy object).2⟩
  | _ => ⟨none, visit.records⟩

end Readings

/-- An object as the engine makes it. -/
def Visit.object (visits : List (Visit m)) : Completed := objectOf (Visit.results visits)

mutual

/-- With objects as the engine makes them, a completion is the completed value. -/
theorem Completion.readBy_object : ∀ completion : Completion m,
    completion.readBy (fun _ visits => Visit.object visits) = completion.completed
  | .plain _ => by simp [readBy, completed, value, visits]
  | .list items => by
    rw [readBy, itemsBy_object items]
    simp [completed, value, visits, values_eq, visitsOfItems_eq]
  | .object _ visits => by
    simp [readBy, completed, value, Completion.visits, Visit.object, objectOf, Response.addAll,
      Response.empty, Visit.members_results, Visit.records_results]

theorem Completion.itemsBy_object : ∀ items : List (Completion m),
    itemsBy (fun _ visits => Visit.object visits) items =
      (items.map value, (items.flatMap visits).flatMap Visit.records)
  | [] => rfl
  | item :: rest => by
    rw [itemsBy, readBy_object item, itemsBy_object rest]
    simp [completed]

end

theorem Visit.resultBy_object (visit : Visit m) :
    visit.resultBy (fun _ visits => Visit.object visits) = visit.result := by
  cases visit with
  | unknown node path => simp [resultBy, result, value?, all]
  | refused node path records => simp [resultBy, result, value?, all]
  | called node path notices event completion =>
    simp [resultBy, result, value?, all, Completion.readBy_object, Completion.completed]

/-- Items that are read without regard to their indices. -/
theorem mapIdx_const {α β : Type} (f : α → β) (items : List α) :
    items.mapIdx (fun _ => f) = items.map f :=
  List.mapIdx_eq_iff.2 (by simp)

/-- Items that are read in two ways, with related results. -/
theorem forall₂_mapIdx {α β γ : Type} {S : β → γ → Prop} {f : Nat → α → β} {g : Nat → α → γ}
    (h : ∀ i item, S (f i item) (g i item)) (items : List α) :
    List.Forall₂ S (items.mapIdx f) (items.mapIdx g) := by
  induction items generalizing f g with
  | nil => exact .nil
  | cons item rest ih =>
    rw [List.mapIdx_cons, List.mapIdx_cons]
    exact .cons (h 0 item) (ih fun i => h (i + 1))

/-- Two results of which the values are related, and so are the records, one by one. -/
def Alike {α : Type} (V : α → α → Prop) (R : ErrorRecord → ErrorRecord → Prop)
    (given other : α × List ErrorRecord) : Prop :=
  V given.1 other.1 ∧ List.Forall₂ R given.2 other.2

/-- The same for the results of fields. -/
structure FieldResult.Alike (V : Value → Value → Prop) (R : ErrorRecord → ErrorRecord → Prop)
    (result other : FieldResult) : Prop where
  value : Option.Rel V result.value other.value
  errors : List.Forall₂ R result.errors other.errors

section Pairs

variable {V : Value → Value → Prop} {R : ErrorRecord → ErrorRecord → Prop}
  {object : ResponsePath → List (Visit m) → Completed}

theorem FieldResult.Alike.refl [Std.Refl V] [Std.Refl R] (result : FieldResult) :
    result.Alike V R result := by
  refine ⟨?_, List.forall₂_refl _⟩
  cases result.value with
  | none => exact .none
  | some value => exact .some (Std.Refl.refl value)

mutual

/-- If objects are read as something like those that are there, so are completions. -/
theorem Completion.alike_readBy [Std.Refl V]
    (hlist : ∀ items others, List.Forall₂ V items others → V (.list items) (.list others))
    (h : ∀ path visits, Alike V R (Visit.object visits) (object path visits)) :
    ∀ completion : Completion m,
    Alike V R completion.completed (completion.readBy object)
  | .plain value => ⟨Std.Refl.refl value, .nil⟩
  | .list items => by
    rw [← readBy_object, readBy, readBy]
    obtain ⟨hvalues, hrecords⟩ := alike_itemsBy hlist h items
    exact ⟨hlist _ _ hvalues, hrecords⟩
  | .object path visits => by
    rw [← readBy_object, readBy, readBy]
    exact h path visits

theorem Completion.alike_itemsBy [Std.Refl V]
    (hlist : ∀ items others, List.Forall₂ V items others → V (.list items) (.list others))
    (h : ∀ path visits, Alike V R (Visit.object visits) (object path visits)) :
    ∀ items : List (Completion m),
    Alike (List.Forall₂ V) R (itemsBy (fun _ visits => Visit.object visits) items)
      (itemsBy object items)
  | [] => ⟨.nil, .nil⟩
  | item :: rest => by
    obtain ⟨hvalue, hrecords⟩ := alike_readBy hlist h item
    obtain ⟨hvalues, hmore⟩ := alike_itemsBy hlist h rest
    rw [← readBy_object] at hvalue hrecords
    rw [itemsBy, itemsBy]
    exact ⟨.cons hvalue hvalues, List.rel_append hrecords hmore⟩

end

theorem Visit.alike_resultBy [Std.Refl V] [Std.Refl R]
    (hlist : ∀ items others, List.Forall₂ V items others → V (.list items) (.list others))
    (h : ∀ path visits, Alike V R (Visit.object visits) (object path visits)) (visit : Visit m) :
    visit.result.Alike V R (visit.resultBy object) := by
  cases visit with
  | called node path notices event completion =>
    obtain ⟨hvalue, hrecords⟩ := Completion.alike_readBy hlist h completion
    rw [← resultBy_object]
    rw [← Completion.readBy_object] at hvalue hrecords
    exact ⟨.some hvalue, List.rel_append (List.forall₂_refl _) hrecords⟩
  | _ =>
    rw [← resultBy_object]
    exact .refl _

/-- So are the records of fields that are read by their indices. -/
theorem Visit.forall₂_records {read : Nat → Visit m → Bytes × FieldResult}
    (h : ∀ i visit, List.Forall₂ R visit.result.errors (read i visit).2.errors)
    (visits : List (Visit m)) :
    List.Forall₂ R (Response.records (Visit.results visits))
      (Response.records (visits.mapIdx read)) := by
  have hresults : List.Forall₂
      (fun result other : Bytes × FieldResult => List.Forall₂ R result.2.errors other.2.errors)
      (visits.mapIdx fun _ visit => (visit.key, visit.result)) (visits.mapIdx read) := by
    refine forall₂_mapIdx (fun i visit => ?_) visits
    exact h i visit
  rw [mapIdx_const] at hresults
  exact List.rel_flatMap hresults fun _ _ hrecords => hrecords

/-- So are the members, if the keys are those that are there. -/
theorem Visit.forall₂_members {read : Nat → Visit m → Bytes × FieldResult}
    (h : ∀ i visit, visit.key = (read i visit).1 ∧
      Option.Rel V visit.result.value (read i visit).2.value) (visits : List (Visit m)) :
    List.Forall₂ (fun member other => member.1 = other.1 ∧ V member.2 other.2)
      (Response.members (Visit.results visits)) (Response.members (visits.mapIdx read)) := by
  have hresults : List.Forall₂ (fun result other : Bytes × FieldResult =>
        result.1 = other.1 ∧ Option.Rel V result.2.value other.2.value)
      (visits.mapIdx fun _ visit => (visit.key, visit.result)) (visits.mapIdx read) := by
    refine forall₂_mapIdx (fun i visit => ?_) visits
    exact h i visit
  rw [mapIdx_const] at hresults
  refine List.rel_filterMap ?_ hresults
  rintro ⟨key, result⟩ ⟨_, other⟩ ⟨rfl, hvalue⟩
  dsimp only at hvalue ⊢
  generalize result.value = given, other.value = later at hvalue ⊢
  cases hvalue with
  | none => exact .none
  | some hvalue => exact .some ⟨rfl, hvalue⟩

end Pairs

/-! ## §3 Moves -/

/-- The record with another path. -/
def ErrorRecord.moved (move : ResponsePath → ResponsePath) (record : ErrorRecord) : ErrorRecord :=
  { record with path := record.path.map move }

/-- Records beside a value, with other paths. -/
def movedErrors {α : Type} (move : ResponsePath → ResponsePath) (given : α × List ErrorRecord) :
    α × List ErrorRecord :=
  (given.1, given.2.map (ErrorRecord.moved move))

/-- The result with other paths. -/
def FieldResult.moved (move : ResponsePath → ResponsePath) (result : FieldResult) : FieldResult :=
  ⟨result.value, result.errors.map (ErrorRecord.moved move)⟩

@[simp]
theorem ErrorRecord.moved_id (record : ErrorRecord) : record.moved id = record := by
  simp [moved]

@[simp]
theorem movedErrors_id {α : Type} (given : α × List ErrorRecord) :
    movedErrors id given = given := by
  simp [movedErrors, List.map_id'']

@[simp]
theorem FieldResult.moved_id (result : FieldResult) : result.moved id = result := by
  simp [moved, List.map_id'']

/-! ## §4 Checks -/

namespace FieldSite

variable {n : Type → Type} (site : FieldSite) (move : ResponsePath → ResponsePath)

/-- The site with another path. -/
def moved : FieldSite := { site with path := move site.path }

theorem missingReport_moved (schema : Schema n) (attempts : List ArgumentAttempt) :
    (site.moved move).missingReport schema attempts =
      (site.missingReport schema attempts).map (ErrorRecord.moved move) := by
  unfold missingReport
  dsimp only
  split
  · rfl
  · rw [List.map_cons, List.map_map]
    rfl

theorem undeclaredReport_moved (declared : List Argument) (nodes : List (Entry Literal)) :
    (site.moved move).undeclaredReport declared nodes =
      (site.undeclaredReport declared nodes).map (ErrorRecord.moved move) := by
  unfold undeclaredReport
  rw [List.map_map]
  rfl

theorem malformedReport_moved (attempts : List ArgumentAttempt) :
    (site.moved move).malformedReport attempts =
      (site.malformedReport attempts).map (ErrorRecord.moved move) := by
  unfold malformedReport
  dsimp only
  split
  · rfl
  · simp only [List.map_cons, List.map_flatten, List.map_map, Function.comp_def]
    rfl

theorem unknownReport_moved (attempts : List ArgumentAttempt) :
    (site.moved move).unknownReport attempts =
      (site.unknownReport attempts).map (ErrorRecord.moved move) := by
  unfold unknownReport
  simp only [List.map_flatten, List.map_map, Function.comp_def, List.map_filterMap,
    apply_ite (Option.map (ErrorRecord.moved move))]
  rfl

theorem deprecatedReport_moved (schema : Schema n) (attempts : List ArgumentAttempt) :
    (site.moved move).deprecatedReport schema attempts =
      (site.deprecatedReport schema attempts).map (ErrorRecord.moved move) := by
  have hissue (attempt : ArgumentAttempt) (issue : Issue) :
      (site.moved move).issueNotice attempt issue =
        (site.issueNotice attempt issue).map (ErrorRecord.moved move) := by
    unfold issueNotice
    split <;> rfl
  have hnode (node : Entry Literal) (argument : Argument) :
      (site.moved move).argumentNotice schema node argument =
        (site.argumentNotice schema node argument).map (ErrorRecord.moved move) := by
    unfold argumentNotice
    split <;> rfl
  unfold deprecatedReport
  rw [List.map_flatten, List.map_map]
  congr 2
  funext attempt
  simp only [Function.comp_apply]
  cases attempt.node with
  | none => rfl
  | some node =>
    simp only [hnode, List.map_append, List.map_filterMap]
    congr 2
    funext issue
    exact hissue attempt issue

end FieldSite

variable [Monad m] [LawfulMonad m]

/-- A field with the same arguments in the same place of the document has the same check, with
records about its own path. -/
theorem inStep_checkArguments (schema : Schema m) (bindings : Members) (field : FieldType m)
    {node changed : Field} (harguments : changed.arguments = node.arguments)
    (hlocation : changed.location = node.location) (move : ResponsePath → ResponsePath)
    (path : ResponsePath) :
    InStep (fun verdict other : ArgumentVerdict =>
        other = { verdict with errors := verdict.errors.map (ErrorRecord.moved move) })
      (checkArguments schema bindings field node path)
      (checkArguments schema bindings field changed (move path)) := by
  unfold checkArguments
  rw [harguments, hlocation]
  refine (InStep.refl (R := Eq) (fun _ => rfl) _).bind ?_
  rintro attempts _ rfl
  refine .pure ?_
  let site : FieldSite := ⟨field.name, node.location, path⟩
  show _ = ArgumentVerdict.mk _ _ _
  have hsite : (⟨field.name, node.location, move path⟩ : FieldSite) = site.moved move := rfl
  simp only [hsite, FieldSite.missingReport_moved, FieldSite.undeclaredReport_moved,
    FieldSite.malformedReport_moved, FieldSite.unknownReport_moved,
    FieldSite.deprecatedReport_moved, List.isEmpty_map, List.map_append]
  rfl

namespace Execution

variable {move : ResponsePath → ResponsePath} {path other : ResponsePath}
  {object : ResponsePath → List (Visit m) → Completed}

/-! ## §5 Values -/

theorem inStep_completionItems {keep : Value → ResponsePath → Engine m (Completion m)}
    {complete : Value → ResponsePath → Engine m Completed}
    (h : ∀ value index, InStep
      (fun completion completed => completed = movedErrors move (completion.readBy object))
      (keep value (path ++ [.index index])) (complete value (other ++ [.index index])))
    (index : Nat) (items : List Value) :
    InStep (fun completions completed =>
        completed = movedErrors move (Completion.itemsBy object completions))
      (completionItems keep path index items) (completeItems complete other index items) := by
  induction items generalizing index with
  | nil => exact .pure rfl
  | cons item rest ih =>
    unfold completionItems completeItems
    refine (h item index).bind ?_
    rintro completion _ rfl
    refine (ih (index + 1)).bind ?_
    rintro completions _ rfl
    exact .pure (by simp [movedErrors, Completion.itemsBy])

omit [LawfulMonad m] in
theorem completionOf_named {schema : Schema m}
    {keep : TypeId → Value → ResponsePath → Engine m (List (Visit m))} {id : TypeId}
    {value : Value} (h : value ≠ .null) :
    completionOf schema keep (.named id) value path = match schema.type? id with
      | none => throw (.unknownType id)
      | some type =>
        if type.isObject then do return .object path (← keep id value path)
        else return .plain value := by
  cases value <;> first | exact absurd rfl h | rfl

omit [LawfulMonad m] in
theorem complete_of_ne_null {schema : Schema m}
    {select : TypeId → Value → ResponsePath → Engine m Completed} {id : TypeId} {value : Value}
    (h : value ≠ .null) :
    complete schema select (.named id) value path = match schema.type? id with
      | none => throw (.unknownType id)
      | some type => if type.isObject then select id value path else return (value, []) := by
  cases value <;> first | exact absurd rfl h | rfl

omit [LawfulMonad m] in
theorem completionOf_nonNull {schema : Schema m}
    {keep : TypeId → Value → ResponsePath → Engine m (List (Visit m))} (inner : TypeExpr TypeId)
    (value : Value) : completionOf schema keep (.nonNull inner) value path =
      completionOf schema keep inner.unmarked value path := by
  cases inner <;> rfl

/-- Completion goes along with its account, if the objects do that are met below the path. -/
theorem inStep_completionOf {schema : Schema m}
    {keep : TypeId → Value → ResponsePath → Engine m (List (Visit m))}
    {select : TypeId → Value → ResponsePath → Engine m Completed}
    (h : ∀ id value rest, InStep
      (fun visits completed => completed = movedErrors move (object (path ++ rest) visits))
      (keep id value (path ++ rest)) (select id value (other ++ rest)))
    (type : TypeExpr TypeId) (value : Value) :
    InStep (fun completion completed => completed = movedErrors move (completion.readBy object))
      (completionOf schema keep type value path) (complete schema select type value other) := by
  induction type using TypeExpr.reading generalizing value path other with
  | nonNull inner ih =>
    rw [completionOf_nonNull, complete_nonNull]
    exact ih h value
  | list element ih =>
    cases value with
    | null => exact .pure rfl
    | list items =>
      have hitem : ∀ value index, InStep
          (fun completion completed => completed = movedErrors move (completion.readBy object))
          (completionOf schema keep element value (path ++ [.index index]))
          (complete schema select element value (other ++ [.index index])) := by
        intro value index
        refine ih (fun id value rest => ?_) value
        rw [List.append_assoc, List.append_assoc]
        exact h id value _
      refine (inStep_completionItems hitem 0 items).bind ?_
      rintro completions _ rfl
      exact .pure rfl
    | bool _ => exact ih h _
    | int _ => exact ih h _
    | uint _ => exact ih h _
    | float _ => exact ih h _
    | string _ => exact ih h _
    | object _ => exact ih h _
  | named id =>
    by_cases hnull : value = .null
    · subst hnull
      exact .pure rfl
    · rw [completionOf_named hnull, complete_of_ne_null hnull]
      cases schema.type? id with
      | none => exact .throw _
      | some type =>
        dsimp only
        cases type.isObject with
        | true =>
          have hselect := h id value []
          rw [List.append_nil, List.append_nil] at hselect
          exact hselect.bind_pure_left fun _ _ hvisits => hvisits
        | false => exact .pure rfl

/-! ## §6 Fields -/

variable [MonadLog m] {scope : Scope m}

/-- The visit is that of the field, and the result is read from it, with other paths. -/
def Reads (object : ResponsePath → List (Visit m) → Completed)
    (move : ResponsePath → ResponsePath) (node : Field) (visit : Visit m) (result : FieldResult) :
    Prop :=
  visit.node = node ∧ result = (visit.resultBy object).moved move

omit [MonadLog m] in
/-- A field whose answer is no value has null and, where there is a message, one more record. -/
theorem inStep_failed {node : Field} {field : FieldType m} {arguments : ArgumentVerdict}
    {parent : Value} {keep : Value → Engine m (Completion m)} {answer : Resolution}
    (h : ∀ value, answer ≠ .ok value) :
    let notices := noticesBefore ⟨field.name, node.location, path⟩ field arguments
    InStep (Reads object move node)
      (do
        let completion ← completionOfAnswer keep answer
        return Visit.called node path notices
          ⟨⟨field, .object arguments.values, scope.context, parent⟩, answer⟩ completion)
      (pure ⟨some .null, notices.map (ErrorRecord.moved move) ++
        ((resolutionMessage? field.name answer).map
          (FieldSite.record ⟨field.name, node.location, move path⟩)).toList⟩) := by
  intro notices
  have hnull : completionOfAnswer keep answer = pure (.plain .null) := by
    cases answer with
    | ok value => exact absurd rfl (h value)
    | _ => rfl
  rw [hnull, pure_bind]
  refine .pure ⟨rfl, ?_⟩
  simp only [FieldResult.moved, Visit.resultBy, Visit.records, Visit.failure?,
    Completion.readBy, List.append_nil, List.map_append]
  cases resolutionMessage? field.name answer <;> rfl

/-- A declared field goes along with its visit, if what is made of its values does. -/
theorem inStep_visitResolver {node : Field} {field : FieldType m} {arguments : ArgumentVerdict}
    {parent : Value} {keep : Value → Engine m (Completion m)} {finish : Value → Engine m Completed}
    (h : ∀ value, InStep
      (fun completion completed => completed = movedErrors move (completion.readBy object))
      (keep value) (finish value)) :
    InStep (Reads object move node)
      (visitResolver scope node path field arguments parent keep)
      (runResolver scope ⟨field.name, node.location, move path⟩ field
        { arguments with errors := arguments.errors.map (ErrorRecord.moved move) } parent
        finish) := by
  have hnotices : noticesBefore ⟨field.name, node.location, move path⟩ field
      { arguments with errors := arguments.errors.map (ErrorRecord.moved move) } =
      (noticesBefore ⟨field.name, node.location, path⟩ field arguments).map
        (ErrorRecord.moved move) := by
    unfold noticesBefore
    rw [List.map_append]
    cases field.deprecation <;> rfl
  unfold visitResolver runResolver
  rw [hnotices]
  refine (InStep.refl (R := Eq) (fun _ => rfl) _).bind ?_
  rintro answer _ rfl
  cases answer with
  | ok value =>
    refine (h value).bind ?_
    rintro completion _ rfl
    refine .pure ⟨rfl, ?_⟩
    simp [FieldResult.moved, Visit.resultBy, Visit.records, Visit.failure?, resolutionMessage?]
  | error _ => exact inStep_failed nofun
  | untagged => exact inStep_failed nofun
  | raised _ => exact inStep_failed nofun
  | raisedOther => exact inStep_failed nofun

/-- A field goes along with its visit, if what is made of its values does. -/
theorem inStep_visitNode {node changed : Field}
    (hsame : changed = { node with
      aliasName := changed.aliasName, selections := changed.selections })
    {parentType : TypeId} {parent : Value}
    {keep : TypeExpr TypeId → Value → Engine m (Completion m)}
    {finish : TypeExpr TypeId → Value → Engine m Completed}
    (h : ∀ type value, InStep
      (fun completion completed => completed = movedErrors move (completion.readBy object))
      (keep type value) (finish type value)) :
    InStep (Reads object move node) (visitNode scope node parentType parent path keep)
      (runField scope changed parentType parent (move path) finish) := by
  obtain ⟨hname, harguments, hlocation⟩ : changed.name = node.name ∧
      changed.arguments = node.arguments ∧ changed.location = node.location := by
    rw [hsame]
    exact ⟨rfl, rfl, rfl⟩
  unfold visitNode runField
  rw [hname, hlocation]
  cases scope.schema.field? parentType node.name with
  | none => exact .pure ⟨rfl, rfl⟩
  | some field =>
    refine (inStep_checkArguments _ _ field harguments hlocation move path).bind ?_
    rintro verdict _ rfl
    dsimp only
    cases verdict.valid with
    | true => exact inStep_visitResolver (h field.type)
    | false => exact .pure ⟨rfl, rfl⟩

/-- Runs a field that stands at the path. -/
def executeAt (scope : Scope m) (node : Field) (parentType : TypeId) (parent : Value)
    (path : ResponsePath) : Engine m FieldResult :=
  runField scope node parentType parent path fun type value =>
    if node.selections.isEmpty then return (value, [])
    else
      complete scope.schema (fun id value path => do
        return objectOf (← executeFields scope node.selections id value path)) type value path

omit [LawfulMonad m] in
theorem executeField_eq (node : Field) (parentType : TypeId) (parent : Value)
    (path : ResponsePath) : executeField scope node parentType parent path =
      executeAt scope node parentType parent (path ++ [.key node.responseKey]) := by
  obtain ⟨aliasName, name, arguments, selections, location⟩ := node
  rw [executeField]
  rfl

/-- A field goes along with its visit, if the objects do that are made of its selections. -/
theorem inStep_visitField {node changed : Field}
    (hsame : changed = { node with
      aliasName := changed.aliasName, selections := changed.selections })
    (hempty : changed.selections.isEmpty = node.selections.isEmpty)
    (h : ∀ id value rest, InStep
      (fun visits results => objectOf results = movedErrors move (object (path ++ rest) visits))
      (visitFields scope node.selections id value (path ++ rest))
      (executeFields scope changed.selections id value (move path ++ rest)))
    (parentType : TypeId) (parent : Value) :
    InStep (Reads object move node) (visitField scope node parentType parent path)
      (executeAt scope changed parentType parent (move path)) := by
  obtain ⟨aliasName, name, arguments, selections, location⟩ := node
  unfold visitField executeAt
  refine inStep_visitNode hsame fun type value => ?_
  rw [hempty]
  cases selections.isEmpty with
  | true => exact .pure rfl
  | false =>
    refine inStep_completionOf (fun id value rest => ?_) type value
    rw [← bind_pure (visitFields _ _ _ _ _)]
    exact (h id value rest).bind fun visits results hresults => .pure hresults

/-! ### Moved fields -/

/-- What is below the path stands below the other one. -/
def Shifts (move : ResponsePath → ResponsePath) (path other : ResponsePath) : Prop :=
  ∀ rest, move (path ++ rest) = other ++ rest

theorem Shifts.append (h : Shifts move path other) (more : ResponsePath) :
    Shifts move (path ++ more) (other ++ more) := fun rest => by
  rw [List.append_assoc, List.append_assoc]
  exact h _

theorem Shifts.path_eq (h : Shifts move path other) : move path = other := by
  simpa using h []

/-- The object that is made of results at moved paths. -/
theorem objectOf_moved {results : List (Bytes × FieldResult)} :
    objectOf (results.map fun result => (result.1, result.2.moved move)) =
      movedErrors move (objectOf results) := by
  simp [objectOf, Response.addAll, Response.empty, Response.members, Response.records,
    movedErrors, FieldResult.moved, List.filterMap_map, List.flatMap_map, List.map_flatMap]

/-- The results of visits with other paths. -/
def movedResults (move : ResponsePath → ResponsePath) (visits : List (Visit m)) :
    List (Bytes × FieldResult) :=
  (Visit.results visits).map fun result => (result.1, result.2.moved move)

mutual

/-- A field that has another alias and stands at another path goes along with its visit. -/
theorem inStep_movedField : ∀ (node : Field) (aliasName : Option Bytes) (parentType : TypeId)
    (parent : Value) {path other : ResponsePath}, Shifts move path other →
    InStep (fun visit result => visit.node = node ∧ result = visit.result.moved move)
      (visitField scope node parentType parent path)
      (executeAt scope { node with aliasName } parentType parent other)
  | ⟨former, name, arguments, selections, location⟩, aliasName, parentType, parent, path, other,
      hshift => by
    have hfields : ∀ id value rest, InStep
        (fun visits results =>
          objectOf results = movedErrors move (Visit.object (m := m) visits))
        (visitFields scope selections id value (path ++ rest))
        (executeFields scope selections id value (move path ++ rest)) := by
      intro id value rest
      rw [hshift.path_eq]
      refine (inStep_movedFields selections id value (hshift.append rest)).imp ?_
      rintro visits _ ⟨-, rfl⟩
      exact objectOf_moved
    let node : Field := ⟨former, name, arguments, selections, location⟩
    have hfield : InStep (Reads (fun _ visits => Visit.object visits) move node)
        (visitField scope node parentType parent path)
        (executeAt scope { node with aliasName } parentType parent (move path)) :=
      inStep_visitField rfl rfl hfields parentType parent
    rw [hshift.path_eq] at hfield
    refine hfield.imp ?_
    rintro visit _ ⟨hnode, rfl⟩
    exact ⟨hnode, by rw [Visit.resultBy_object]⟩

theorem inStep_movedFields : ∀ (nodes : List Field) (parentType : TypeId) (parent : Value)
    {path other : ResponsePath}, Shifts move path other →
    InStep (fun visits results => visits.map Visit.node = nodes ∧
        results = movedResults move visits)
      (visitFields scope nodes parentType parent path)
      (executeFields scope nodes parentType parent other)
  | [], _, _, _, _, _ => by
    unfold visitFields executeFields
    exact .pure ⟨rfl, rfl⟩
  | node :: rest, parentType, parent, path, other, hshift => by
    unfold visitFields executeFields
    rw [executeField_eq]
    refine (inStep_movedField node node.aliasName parentType parent
      (hshift.append [.key node.responseKey])).bind ?_
    rintro visit _ ⟨rfl, rfl⟩
    refine (inStep_movedFields rest parentType parent hshift).bind ?_
    rintro visits _ ⟨rfl, rfl⟩
    exact .pure ⟨rfl, rfl⟩

end

/-! ### Lists of fields -/

/-- Fields that are changed one by one go along with their visits, if each of them does. -/
theorem inStep_visitFields {nodes : List Field} {change : Nat → Field → Field}
    (read : Nat → Visit m → Bytes × FieldResult) {parentType : TypeId} {parent : Value}
    (h : ∀ i node, nodes[i]? = some node → InStep
      (fun visit result => visit.node = node ∧ read i visit = ((change i node).responseKey, result))
      (visitField scope node parentType parent (path ++ [.key node.responseKey]))
      (executeField scope (change i node) parentType parent other)) :
    InStep (fun visits results => visits.map Visit.node = nodes ∧ results = visits.mapIdx read)
      (visitFields scope nodes parentType parent path)
      (executeFields scope (nodes.mapIdx change) parentType parent other) := by
  induction nodes generalizing change read with
  | nil =>
    unfold visitFields
    rw [List.mapIdx_nil, executeFields]
    exact .pure ⟨rfl, rfl⟩
  | cons node rest ih =>
    unfold visitFields
    rw [List.mapIdx_cons, executeFields]
    refine (h 0 node rfl).bind ?_
    rintro visit result ⟨hnode, hresult⟩
    refine (ih _ fun i node hnode => h (i + 1) node hnode).bind ?_
    rintro visits _ ⟨hnodes, rfl⟩
    refine .pure ⟨by rw [List.map_cons, hnode, hnodes], ?_⟩
    rw [List.mapIdx_cons, hresult]

/-- Both are run, whatever the first comes to. -/
def beside {α β : Type} (x : Engine m α) (y : Engine m β) : Engine m (α × β) := ExceptT.mk do
  let first ← x.run
  let second ← y.run
  return (do return (← first, ← second))

omit [MonadLog m] in
theorem map_beside {α β γ δ : Type} (f : α → γ) (g : β → δ) (x : Engine m α) (y : Engine m β) :
    Prod.map f g <$> beside x y = beside (f <$> x) (g <$> y) := by
  apply ExceptT.ext
  simp only [beside, ExceptT.run_map, ExceptT.run_mk, map_bind, bind_map_left, map_pure]
  refine bind_congr fun first => bind_congr fun second => ?_
  cases first <;> cases second <;> rfl

omit [MonadLog m] in
theorem inStep_beside {α β γ δ : Type} {R : α → β → Prop} {S : γ → δ → Prop} {x : Engine m α}
    {y : Engine m β} {z : Engine m γ} {w : Engine m δ} (hfirst : InStep R x y)
    (hsecond : InStep S z w) :
    InStep (fun first second => R first.1 second.1 ∧ S first.2 second.2) (beside x z)
      (beside y w) := by
  obtain ⟨first, rfl, rfl⟩ := hfirst
  obtain ⟨second, rfl, rfl⟩ := hsecond
  refine ⟨(fun both => ⟨((both.1.1.1, both.2.1.1), (both.1.1.2, both.2.1.2)), both.1.2,
    both.2.2⟩) <$> beside first second, ?_, ?_⟩
  · rw [← map_beside, Functor.map_map]
    rfl
  · rw [← map_beside, Functor.map_map]
    rfl

omit [MonadLog m] in
theorem run_gather {α : Type} (tasks : List (Engine m α)) :
    (gather tasks).run = allResults <$> runTasks tasks := by
  simp [gather]

omit [MonadLog m] in
theorem gather_nil {α : Type} : gather ([] : List (Engine m α)) = pure [] := by
  apply ExceptT.ext
  rw [run_gather, runTasks, map_pure]
  rfl

omit [MonadLog m] in
theorem gather_cons {α : Type} (task : Engine m α) (tasks : List (Engine m α)) :
    gather (task :: tasks) =
      (fun results => results.1 :: results.2) <$> beside task (gather tasks) := by
  apply ExceptT.ext
  simp only [run_gather, runTasks, beside, ExceptT.run_map, ExceptT.run_mk, map_bind,
    bind_map_left, map_pure]
  refine bind_congr fun first => bind_congr fun endings => ?_
  simp only [allResults]
  cases first with
  | error fault => rfl
  | ok result => cases allResults endings <;> rfl

/-- The engine runs the fields at the top as tasks. -/
theorem executeTasks_eq (nodes : List Field) (parentType : TypeId) (parent : Value) :
    executeTasks scope nodes parentType parent =
      (fun results => (nodes.map Field.responseKey).zip results) <$>
        gather (nodes.map fun node => executeField scope node parentType parent []) := by
  simp [executeTasks, gather]

/-- So do fields at the top, side by side. -/
theorem inStep_visitTasks {nodes : List Field} {change : Nat → Field → Field}
    {read : Nat → Visit m → Bytes × FieldResult} {parentType : TypeId} {parent : Value}
    (h : ∀ i node, nodes[i]? = some node → InStep
      (fun visit result => visit.node = node ∧ read i visit = ((change i node).responseKey, result))
      (visitField scope node parentType parent [.key node.responseKey])
      (executeField scope (change i node) parentType parent [])) :
    InStep (fun visits results => visits.map Visit.node = nodes ∧
        ((nodes.mapIdx change).map Field.responseKey).zip results = visits.mapIdx read)
      (gather (nodes.map fun node =>
        visitField scope node parentType parent [.key node.responseKey]))
      (gather ((nodes.mapIdx change).map fun node =>
        executeField scope node parentType parent [])) := by
  induction nodes generalizing change read with
  | nil =>
    simp only [List.mapIdx_nil, List.map_nil, gather_nil]
    exact .pure ⟨rfl, rfl⟩
  | cons node rest ih =>
    simp only [List.mapIdx_cons, List.map_cons, gather_cons]
    have hrest := ih fun i node hnode => h (i + 1) node hnode
    refine (inStep_beside (h 0 node rfl) hrest).map ?_
    rintro ⟨visit, visits⟩ ⟨result, results⟩ ⟨⟨hnode, hresult⟩, hnodes, hresults⟩
    refine ⟨by rw [List.map_cons, hnode, hnodes], ?_⟩
    rw [List.mapIdx_cons, hresult, ← hresults]
    rfl

/-- Fields at the top go along with their visits, however they are run. -/
theorem inStep_visitTop (parallel : Bool) {nodes : List Field} {change : Nat → Field → Field}
    {read : Nat → Visit m → Bytes × FieldResult} {parentType : TypeId} {parent : Value}
    (h : ∀ i node, nodes[i]? = some node → InStep
      (fun visit result => visit.node = node ∧ read i visit = ((change i node).responseKey, result))
      (visitField scope node parentType parent [.key node.responseKey])
      (executeField scope (change i node) parentType parent [])) :
    InStep (fun visits results => visits.map Visit.node = nodes ∧ results = visits.mapIdx read)
      (visitTop scope parallel nodes parentType parent)
      (executeTop scope parallel (nodes.mapIdx change) parentType parent) := by
  unfold visitTop executeTop
  cases parallel with
  | false => exact inStep_visitFields read h
  | true =>
    simp only [if_true]
    rw [executeTasks_eq, ← bind_pure (gather _), ← bind_pure_comp]
    exact (inStep_visitTasks h).bind fun visits results hresults => .pure hresults

end Execution

/-! ## §7 Requests -/

namespace OperationAccount

/-- The records that are about no field. -/
def own : OperationAccount m → List ErrorRecord
  | .unsupported operation =>
    [⟨.mutationsUnsupported operation.label, [operation.location], none⟩]
  | .ran _ bound _ => bound.errors

omit [Monad m] [LawfulMonad m] in
theorem records_eq (entry : OperationAccount m) :
    entry.records = entry.own ++ (Visit.allOf entry.visits).flatMap Visit.records := by
  cases entry with
  | unsupported operation => rfl
  | ran operation bound visits => rfl

/-- The response with what the operation adds, its fields being read by their indices. -/
def addTo (entry : OperationAccount m) (response : Response)
    (read : Nat → Visit m → Bytes × FieldResult) : Response :=
  ({ response with errors := response.errors ++ entry.own } : Response).addAll
    (entry.visits.mapIdx read)

end OperationAccount

/-- The response of a request, its fields being read by the indices of their operation and of
their own. -/
def Account.responseBy (start : Response) (read : Nat → Nat → Visit m → Bytes × FieldResult)
    (account : Account m) : Response where
  data := assignAll start.data
    (account.mapIdx fun i entry => Response.members (entry.visits.mapIdx (read i))).flatten
  errors := start.errors ++
    (account.mapIdx fun i entry =>
      entry.own ++ Response.records (entry.visits.mapIdx (read i))).flatten

omit [Monad m] [LawfulMonad m] in
theorem Account.responseBy_cons (start : Response)
    (read : Nat → Nat → Visit m → Bytes × FieldResult) (entry : OperationAccount m)
    (rest : Account m) :
    Account.responseBy start read (entry :: rest) =
      Account.responseBy (entry.addTo start (read 0)) (fun i => read (i + 1)) rest := by
  simp [Account.responseBy, OperationAccount.addTo, Response.addAll, List.mapIdx_cons,
    assignAll_append]

omit [Monad m] [LawfulMonad m] in
/-- If fields are read as something like what they contribute, under their keys, then the
response is like the one that there is. -/
theorem Account.alike_responseBy {V : Value → Value → Prop} {R : ErrorRecord → ErrorRecord → Prop}
    [Std.Refl V] [Std.Refl R] {read : Nat → Nat → Visit m → Bytes × FieldResult}
    (hkey : ∀ i j visit, visit.key = (read i j visit).1)
    (h : ∀ i j (visit : Visit m), visit.result.Alike V R (read i j visit).2)
    (start : Response) (account : Account m) :
    let response := Account.responseBy start (fun _ _ visit => (visit.key, visit.result)) account
    let other := Account.responseBy start read account
    List.Forall₂ (fun member other => member.1 = other.1 ∧ V member.2 other.2) response.data
        other.data ∧
      List.Forall₂ R response.errors other.errors := by
  have hplain (visits : List (Visit m)) :
      (visits.mapIdx fun _ visit => (visit.key, visit.result)) = Visit.results visits :=
    mapIdx_const _ visits
  refine ⟨assignAll_rel ?_ (List.rel_flatten ?_),
    List.rel_append (List.forall₂_refl start.errors) (List.rel_flatten ?_)⟩
  · exact List.forall₂_same.2 fun member _ => ⟨rfl, Std.Refl.refl member.2⟩
  · refine forall₂_mapIdx (fun i entry => ?_) account
    rw [hplain]
    exact Visit.forall₂_members (fun j visit => ⟨hkey i j visit, (h i j visit).value⟩) entry.visits
  · refine forall₂_mapIdx (fun i entry => ?_) account
    refine List.rel_append (List.forall₂_refl entry.own) ?_
    rw [hplain]
    exact Visit.forall₂_records (fun j visit => (h i j visit).errors) entry.visits

namespace Request

variable [MonadLog m] {schema : Schema m} {options : RequestOptions}

/-- An operation goes along with its account, if the fields at its top do. -/
theorem inStep_visitOperation {operation : Operation} {change : Nat → Field → Field}
    {read : Nat → Visit m → Bytes × FieldResult} {R : ErrorRecord → ErrorRecord → Prop}
    (hrecords : ∀ i visit, List.Forall₂ R visit.result.errors (read i visit).2.errors)
    (h : ∀ (scope : Scope m) (parentType : TypeId) (parent : Value) (i : Nat) (node : Field),
      operation.selections[i]? = some node → InStep (fun visit result => visit.node = node ∧
          read i visit = ((change i node).responseKey, result))
        (Execution.visitField scope node parentType parent [.key node.responseKey])
        (Execution.executeField scope (change i node) parentType parent []))
    (response : Response) :
    InStep (fun entry later => (∀ visit ∈ entry.visits, visit.node ∈ operation.selections) ∧
        later = entry.addTo response read)
      (visitOperation schema options operation)
      (runOperation schema options response
        { operation with selections := operation.selections.mapIdx change }) := by
  unfold visitOperation runOperation
  dsimp only
  cases rootType? schema operation.kind with
  | none =>
    refine .pure ⟨nofun, ?_⟩
    simp [OperationAccount.addTo, OperationAccount.own, OperationAccount.visits, Response.addAll,
      Response.members, Response.records, assignAll, Operation.label]
  | some root =>
    refine (InStep.refl (R := Eq) (fun _ => rfl) _).bind ?_
    rintro bound _ rfl
    let scope : Scope m := ⟨schema, bound.values, options.context⟩
    refine (Execution.inStep_visitTop _ (h scope root options.root)).bind ?_
    rintro visits _ ⟨hnodes, rfl⟩
    -- The entry in the log tells how many records there are, and no more of them.
    have hcount := (Visit.forall₂_records hrecords visits).length_eq
    rw [logExecuted, logExecuted, ← hcount]
    refine (InStep.refl (R := fun _ _ => True) (fun _ => trivial) _).bind fun _ _ _ => ?_
    refine .pure ⟨fun visit hvisit => ?_, rfl⟩
    rw [← hnodes]
    exact List.mem_map_of_mem hvisit

/-- Operations go along with their accounts, if the fields at their tops do. -/
theorem inStep_visitOperations {operations : List Operation} (change : Nat → Nat → Field → Field)
    (read : Nat → Nat → Visit m → Bytes × FieldResult) {R : ErrorRecord → ErrorRecord → Prop}
    (hrecords : ∀ i j visit, List.Forall₂ R visit.result.errors (read i j visit).2.errors)
    (h : ∀ (i : Nat) (operation : Operation), operations[i]? = some operation →
      ∀ (scope : Scope m) (parentType : TypeId) (parent : Value) (j : Nat) (node : Field),
        operation.selections[j]? = some node → InStep (fun visit result => visit.node = node ∧
            read i j visit = ((change i j node).responseKey, result))
          (Execution.visitField scope node parentType parent [.key node.responseKey])
          (Execution.executeField scope (change i j node) parentType parent []))
    (start : Response) :
    InStep (fun account later => List.Forall₂ (fun operation (entry : OperationAccount m) =>
          ∀ visit ∈ entry.visits, visit.node ∈ operation.selections) operations account ∧
        later = Account.responseBy start read account)
      (operations.mapM (visitOperation schema options))
      (runOperations schema options start (operations.mapIdx fun i operation =>
        { operation with selections := operation.selections.mapIdx (change i) })) := by
  induction operations generalizing change read start with
  | nil =>
    rw [List.mapM_nil, List.mapIdx_nil, runOperations]
    exact .pure ⟨.nil, by simp [Account.responseBy, assignAll]⟩
  | cons operation rest ih =>
    rw [List.mapM_cons, List.mapIdx_cons, runOperations]
    refine (inStep_visitOperation (hrecords 0) (h 0 operation rfl) start).bind ?_
    rintro entry _ ⟨hentry, rfl⟩
    have hrest := ih (fun i => change (i + 1)) (fun i => read (i + 1)) (fun i => hrecords (i + 1))
      (fun i operation hoperation => h (i + 1) operation hoperation) (entry.addTo start (read 0))
    refine hrest.bind_pure_left ?_
    rintro account _ ⟨haccount, rfl⟩
    exact ⟨.cons hentry haccount, (Account.responseBy_cons start read entry account).symm⟩

end Request

end GraphQL
