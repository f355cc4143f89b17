/-
GraphQL.Proofs.Execution.Account — what became of every field of a request.

  §1 Accounts    — visits of fields, completions of values, and what is below them.
  §2 Readings    — the values, records and calls that an account tells of.
  §3 Truth       — accounts that agree with schema, checks and answers.
  §4 Requests    — accounts of operations and documents.

A response does not say how it came about. An account does: it is the tree of all
fields that were visited, each with its fate, and with what its value was completed
to. It is true if each fate is the one that the lookup of the field, the check of
its arguments and the answer of its resolver ask for. Every run has a true account
from which its response and its calls are read, so whatever holds of accounts holds
of runs.
-/
import GraphQL.Proofs.Execution.Tracing
import GraphQL.Proofs.Value.Assignment
import Mathlib.Algebra.Group.Nat.Defs

namespace GraphQL

open MonadAttach (CanReturn)
open Execution (Completed noticesBefore resolutionMessage?)

/-! ## §1 Accounts -/

mutual

/-- What became of a field of a parent value. The path is that of the field. -/
inductive Visit (m : Type → Type) where
  /-- The parent's type does not have the field. -/
  | unknown (node : Field) (path : ResponsePath)
  /-- Arguments are missing or badly formed. -/
  | refused (node : Field) (path : ResponsePath) (records : List ErrorRecord)
  /-- The resolver was called, and what it answered was completed. -/
  | called (node : Field) (path : ResponsePath) (notices : List ErrorRecord) (event : Event m)
    (completion : Completion m)

/-- What a value was completed to. -/
inductive Completion (m : Type → Type) where
  /-- The value as it stands. -/
  | plain (value : Value)
  | list (items : List (Completion m))
  /-- An object made of the fields that were visited. -/
  | object (path : ResponsePath) (visits : List (Visit m))

end

variable {m : Type → Type}

mutual

/-- The visit, and those below it in their order. -/
def Visit.all : Visit m → List (Visit m)
  | .unknown node path => [.unknown node path]
  | .refused node path records => [.refused node path records]
  | .called node path notices event completion =>
    .called node path notices event completion :: completion.visits

/-- The visits in the completion of a value. -/
def Completion.visits : Completion m → List (Visit m)
  | .plain _ => []
  | .list items => Completion.visitsOfItems items
  | .object _ visits => Visit.allOf visits

/-- The visits in the completion of items. -/
def Completion.visitsOfItems : List (Completion m) → List (Visit m)
  | [] => []
  | item :: rest => item.visits ++ Completion.visitsOfItems rest

/-- Visits, each with those below it. -/
def Visit.allOf : List (Visit m) → List (Visit m)
  | [] => []
  | visit :: rest => visit.all ++ Visit.allOf rest

end

theorem Completion.visitsOfItems_eq (items : List (Completion m)) :
    Completion.visitsOfItems items = items.flatMap Completion.visits := by
  induction items with
  | nil => rfl
  | cons item rest ih => rw [Completion.visitsOfItems, ih, List.flatMap_cons]

theorem Visit.allOf_eq (visits : List (Visit m)) :
    Visit.allOf visits = visits.flatMap Visit.all := by
  induction visits with
  | nil => rfl
  | cons visit rest ih => rw [Visit.allOf, ih, List.flatMap_cons]

/-! ## §2 Readings -/

mutual

/-- The value in the response. -/
def Completion.value : Completion m → Value
  | .plain value => value
  | .list items => .list (Completion.values items)
  | .object _ visits => .object (assignAll [] (Visit.contributions visits))

/-- The values of items. -/
def Completion.values : List (Completion m) → List Value
  | [] => []
  | item :: rest => item.value :: Completion.values rest

/-- The value of a field whose resolver was called; other fields have none. -/
def Visit.value? : Visit m → Option Value
  | .unknown _ _ => none
  | .refused _ _ _ => none
  | .called _ _ _ _ completion => some completion.value

/-- What visits contribute to their object, each under its response key. -/
def Visit.contributions : List (Visit m) → Members
  | [] => []
  | .unknown _ _ :: rest => Visit.contributions rest
  | .refused _ _ _ :: rest => Visit.contributions rest
  | .called node _ _ _ completion :: rest =>
    (node.responseKey, completion.value) :: Visit.contributions rest

end

theorem Completion.values_eq (items : List (Completion m)) :
    Completion.values items = items.map Completion.value := by
  induction items with
  | nil => rfl
  | cons item rest ih => rw [Completion.values, ih, List.map_cons]

namespace Visit

/-- The field that was visited. -/
def node : Visit m → Field
  | .unknown node _ | .refused node _ _ | .called node _ _ _ _ => node

/-- Where the field stands in the response, if it has a value. -/
def path : Visit m → ResponsePath
  | .unknown _ path | .refused _ path _ | .called _ path _ _ _ => path

/-- The response key of the field. -/
def key (visit : Visit m) : Bytes := visit.node.responseKey

/-- The call of the field's resolver, if it was called. -/
def event? : Visit m → Option (Event m)
  | .called _ _ _ event _ => some event
  | .unknown _ _ | .refused _ _ _ => none

/-- The field passed its checks, so that its resolver was called. -/
def isCalled (visit : Visit m) : Bool := visit.event?.isSome

/-- The record of an answer that is no value. -/
def failure? : Visit m → Option ErrorRecord
  | .called node path _ event _ =>
    (resolutionMessage? event.call.field.name event.answer).map (.located node.location path)
  | .unknown _ _ | .refused _ _ _ => none

/-- The records about the field itself. -/
def records : Visit m → List ErrorRecord
  | .unknown node path => [.located node.location path (.fieldUnknown node.name)]
  | .refused _ _ records => records
  | .called node path notices event completion =>
    notices ++ (Visit.called node path notices event completion).failure?.toList

/-- What the field contributes to its parent. -/
def result (visit : Visit m) : FieldResult := ⟨visit.value?, visit.all.flatMap records⟩

/-- What fields contribute to their parent, each under its response key. -/
def results (visits : List (Visit m)) : List (Bytes × FieldResult) :=
  visits.map fun visit => (visit.key, visit.result)

theorem contributions_eq (visits : List (Visit m)) :
    contributions visits =
      visits.filterMap fun visit => visit.value?.map fun value => (visit.key, value) := by
  induction visits with
  | nil => rfl
  | cons visit rest ih => cases visit <;> simp [contributions, value?, key, node, ih]

/-- What visits contribute is what their results contribute. -/
theorem members_results (visits : List (Visit m)) :
    Response.members (results visits) = contributions visits := by
  simp [Response.members, results, result, contributions_eq]

theorem records_results (visits : List (Visit m)) :
    Response.records (results visits) = (allOf visits).flatMap records := by
  simp [Response.records, results, result, allOf_eq, List.flatMap_map, List.flatMap_assoc]

end Visit

/-- The completed value with its records. -/
def Completion.completed (completion : Completion m) : Completed :=
  (completion.value, completion.visits.flatMap Visit.records)

/-- The calls that visits tell of. -/
def Visit.events (visits : List (Visit m)) : List (Event m) := visits.filterMap Visit.event?

/-! ## §3 Truth -/

variable [Monad m] [MonadAttach m]

mutual

/-- The visit tells what becomes of a field of a parent value. -/
inductive Visit.Tells (scope : Scope m) : Field → TypeId → Value → ResponsePath → Visit m → Prop
  | unknown {node : Field} {parentType : TypeId} {parent : Value} {path : ResponsePath} :
    scope.schema.field? parentType node.name = none →
    Visit.Tells scope node parentType parent path (.unknown node path)
  | refused {node : Field} {parentType : TypeId} {parent : Value} {path : ResponsePath}
      {field : FieldType m} {verdict : ArgumentVerdict} :
    scope.schema.field? parentType node.name = some field →
    CanReturn (checkArguments scope.schema scope.bindings field node path) verdict →
    verdict.valid = false →
    Visit.Tells scope node parentType parent path (.refused node path verdict.errors)
  /-- The resolver is called with the checked arguments and the parent value. -/
  | called {node : Field} {parentType : TypeId} {parent : Value} {path : ResponsePath}
      {field : FieldType m} {verdict : ArgumentVerdict} {answer : Resolution}
      {completion : Completion m} :
    scope.schema.field? parentType node.name = some field →
    CanReturn (checkArguments scope.schema scope.bindings field node path) verdict →
    verdict.valid = true →
    Completion.Answers scope node field.type path answer completion →
    Visit.Tells scope node parentType parent path
      (.called node path (noticesBefore ⟨field.name, node.location, path⟩ field verdict)
        ⟨⟨field, .object verdict.values, scope.context, parent⟩, answer⟩ completion)

/-- The completion is that of an answer to a field of the declared type. -/
inductive Completion.Answers (scope : Scope m) :
    Field → TypeExpr TypeId → ResponsePath → Resolution → Completion m → Prop
  /-- An answer that is no value leaves null. -/
  | failed {node : Field} {type : TypeExpr TypeId} {path : ResponsePath} {answer : Resolution} :
    (∀ value, answer ≠ .ok value) → Completion.Answers scope node type path answer (.plain .null)
  | leaf {node : Field} {type : TypeExpr TypeId} {path : ResponsePath} {value : Value} :
    node.selections = [] → Completion.Answers scope node type path (.ok value) (.plain value)
  | selected {node : Field} {type : TypeExpr TypeId} {path : ResponsePath} {value : Value}
      {completion : Completion m} :
    node.selections ≠ [] → Completion.Tells scope node.selections type value path completion →
    Completion.Answers scope node type path (.ok value) completion

/-- The completion is that of a value at a type, with fields selected from it. -/
inductive Completion.Tells (scope : Scope m) :
    List Field → TypeExpr TypeId → Value → ResponsePath → Completion m → Prop
  /-- Null stays null, also where it is an item of a list. -/
  | null {selections : List Field} {type : TypeExpr TypeId} {path : ResponsePath} :
    Completion.Tells scope selections type .null path (.plain .null)
  | nonNull {selections : List Field} {inner : TypeExpr TypeId} {value : Value}
      {path : ResponsePath} {completion : Completion m} :
    Completion.Tells scope selections inner.unmarked value path completion →
    Completion.Tells scope selections (.nonNull inner) value path completion
  /-- Each item is completed in its place. -/
  | list {selections : List Field} {element : TypeExpr TypeId} {items : List Value}
      {path : ResponsePath} {completions : List (Completion m)} :
    completions.length = items.length →
    (∀ index item completion, items[index]? = some item → completions[index]? = some completion →
      Completion.Tells scope selections element item (path ++ [.index index]) completion) →
    Completion.Tells scope selections (.list element) (.list items) path (.list completions)
  /-- What is no list stands for its only item. -/
  | single {selections : List Field} {element : TypeExpr TypeId} {value : Value}
      {path : ResponsePath} {completion : Completion m} :
    value ≠ .null → value.isList = false →
    Completion.Tells scope selections element value path completion →
    Completion.Tells scope selections (.list element) value path completion
  /-- The fields are visited in their order, the value being their parent. -/
  | object {selections : List Field} {id : TypeId} {value : Value} {path : ResponsePath}
      {visits : List (Visit m)} :
    value ≠ .null → scope.schema.isObjectType id = true → visits.map Visit.node = selections →
    (∀ visit ∈ visits, Visit.Tells scope visit.node id value
      (path ++ [.key visit.node.responseKey]) visit) →
    Completion.Tells scope selections (.named id) value path (.object path visits)
  /-- Selections from what is no object are passed over. -/
  | leaf {selections : List Field} {id : TypeId} {value : Value} {path : ResponsePath} :
    value ≠ .null → scope.schema.isObjectType id = false →
    Completion.Tells scope selections (.named id) value path (.plain value)

end

/-- The visits are those of fields of a parent value, in their order. -/
structure Visit.AllTell (scope : Scope m) (selections : List Field) (parentType : TypeId)
    (parent : Value) (path : ResponsePath) (visits : List (Visit m)) : Prop where
  nodes : visits.map Visit.node = selections
  tell : ∀ visit ∈ visits, Visit.Tells scope visit.node parentType parent
    (path ++ [.key visit.node.responseKey]) visit

/-- A visit is one of the field that it tells of. -/
theorem Visit.Tells.node_eq {scope : Scope m} {node : Field} {parentType : TypeId} {parent : Value}
    {path : ResponsePath} {visit : Visit m} (h : visit.Tells scope node parentType parent path) :
    visit.node = node := by
  cases h <;> rfl

theorem Visit.Tells.path_eq {scope : Scope m} {node : Field} {parentType : TypeId} {parent : Value}
    {path : ResponsePath} {visit : Visit m} (h : visit.Tells scope node parentType parent path) :
    visit.path = path := by
  cases h <;> rfl

theorem Visit.AllTell.cons {scope : Scope m} {node : Field} {rest : List Field}
    {parentType : TypeId} {parent : Value} {path : ResponsePath} {visit : Visit m}
    {visits : List (Visit m)}
    (hfirst : visit.Tells scope node parentType parent (path ++ [.key node.responseKey]))
    (hrest : Visit.AllTell scope rest parentType parent path visits) :
    Visit.AllTell scope (node :: rest) parentType parent path (visit :: visits) := by
  have hnode := hfirst.node_eq
  refine ⟨by simp [hnode, hrest.nodes], fun other hother => ?_⟩
  rcases List.mem_cons.1 hother with rfl | hother
  · rwa [hnode]
  · exact hrest.tell other hother

/-- The result of a field, with the calls that led to it, has an account. -/
def Visit.Explains (scope : Scope m) (node : Field) (parentType : TypeId) (parent : Value)
    (path : ResponsePath) (result : FieldResult) (events : List (Event m)) : Prop :=
  ∃ visit : Visit m, visit.Tells scope node parentType parent path ∧ result = visit.result ∧
    events = Visit.events visit.all

/-- A value and records, with the calls that led to them, have an account. -/
def Completion.Explains (scope : Scope m) (selections : List Field) (type : TypeExpr TypeId)
    (value : Value) (path : ResponsePath) (completed : Completed) (events : List (Event m)) :
    Prop :=
  ∃ completion : Completion m, completion.Tells scope selections type value path ∧
    completed = completion.completed ∧ events = Visit.events completion.visits

/-- An object made of fields and records, with the calls that led to them, have an
account. -/
def Completion.ObjectExplains (scope : Scope m) (selections : List Field) (parentType : TypeId)
    (parent : Value) (path : ResponsePath) (completed : Completed) (events : List (Event m)) :
    Prop :=
  ∃ visits : List (Visit m), Visit.AllTell scope selections parentType parent path visits ∧
    completed = (Completion.object path visits).completed ∧
    events = Visit.events (Visit.allOf visits)

/-- The completions are those of items, the first of which stands at the index. -/
structure Completion.AllTell (scope : Scope m) (selections : List Field)
    (element : TypeExpr TypeId) (path : ResponsePath) (start : Nat) (items : List Value)
    (completions : List (Completion m)) : Prop where
  length : completions.length = items.length
  tell : ∀ (index : Nat) (item : Value) (completion : Completion m), items[index]? = some item →
    completions[index]? = some completion →
    Completion.Tells scope selections element item (path ++ [.index (start + index)]) completion

/-- The values and records of items, with the calls that led to them, have an account. -/
def Completion.AllExplain (scope : Scope m) (selections : List Field) (element : TypeExpr TypeId)
    (path : ResponsePath) (start : Nat) (items : List Value)
    (completed : List Value × List ErrorRecord) (events : List (Event m)) : Prop :=
  ∃ completions : List (Completion m),
    Completion.AllTell scope selections element path start items completions ∧
    completed = (completions.map Completion.value,
      (completions.flatMap Completion.visits).flatMap Visit.records) ∧
    events = Visit.events (completions.flatMap Completion.visits)

namespace Completion.AllTell

variable {scope : Scope m} {selections : List Field} {element : TypeExpr TypeId}
  {path : ResponsePath} {start : Nat} {item : Value} {items : List Value}
  {completion : Completion m} {completions : List (Completion m)}

theorem cons (hfirst : completion.Tells scope selections element item (path ++ [.index start]))
    (hrest : AllTell scope selections element path (start + 1) items completions) :
    AllTell scope selections element path start (item :: items) (completion :: completions) := by
  refine ⟨by simp [hrest.length], fun index other found hother hfound => ?_⟩
  cases index with
  | zero =>
    cases hother
    cases hfound
    exact hfirst
  | succ index =>
    have htell := hrest.tell index other found hother hfound
    rwa [Nat.add_assoc, Nat.add_comm 1] at htell

/-- The items of a list stand at their indices. -/
theorem list (h : AllTell scope selections element path 0 items completions) :
    (Completion.list completions).Tells scope selections (.list element) (.list items) path :=
  .list h.length fun index item completion hitem hcompletion => by
    simpa using h.tell index item completion hitem hcompletion

end Completion.AllTell

/-- What the value of an answer comes to, with the calls that led to it, has an account. -/
def Completion.AnswerExplains (scope : Scope m) (node : Field) (type : TypeExpr TypeId)
    (path : ResponsePath) (value : Value) (completed : Completed) (events : List (Event m)) :
    Prop :=
  ∃ completion : Completion m, completion.Answers scope node type path (.ok value) ∧
    completed = completion.completed ∧ events = Visit.events completion.visits

/-- The results of fields, with the calls that led to them, have an account. -/
def Visit.AllExplain (scope : Scope m) (selections : List Field) (parentType : TypeId)
    (parent : Value) (path : ResponsePath) (results : List (Bytes × FieldResult))
    (events : List (Event m)) : Prop :=
  ∃ visits : List (Visit m), Visit.AllTell scope selections parentType parent path visits ∧
    results = Visit.results visits ∧ events = Visit.events (Visit.allOf visits)

/-! ## §4 Requests -/

/-- What became of an operation. -/
inductive OperationAccount (m : Type → Type) where
  /-- The schema has no mutations. -/
  | unsupported (operation : Operation)
  /-- The variables were bound, and the fields at the top were visited. -/
  | ran (operation : Operation) (bound : VariableBindings) (visits : List (Visit m))

/-- What became of the operations of a request. -/
abbrev Account (m : Type → Type) := List (OperationAccount m)

namespace OperationAccount

/-- The visits at the top. -/
def visits : OperationAccount m → List (Visit m)
  | .unsupported _ => []
  | .ran _ _ visits => visits

/-- The records that the operation adds to the response. -/
def records : OperationAccount m → List ErrorRecord
  | .unsupported operation =>
    [⟨.mutationsUnsupported operation.label, [operation.location], none⟩]
  | .ran _ bound visits => bound.errors ++ (Visit.allOf visits).flatMap Visit.records

/-- The account tells what becomes of an operation. -/
inductive Tells (schema : Schema m) (options : RequestOptions) :
    Operation → OperationAccount m → Prop
  | unsupported {operation : Operation} :
    Request.rootType? schema operation.kind = none →
    Tells schema options operation (.unsupported operation)
  | ran {operation : Operation} {root : TypeId} {bound : VariableBindings}
      {visits : List (Visit m)} :
    Request.rootType? schema operation.kind = some root →
    CanReturn (VariableBindings.ofDefinitions schema options.variableValues
      operation.variableDefinitions) bound →
    Visit.AllTell ⟨schema, bound.values, options.context⟩ operation.selections root options.root []
      visits →
    Tells schema options operation (.ran operation bound visits)

end OperationAccount

namespace Account

/-- The visits at the top of all operations. -/
def top (account : Account m) : List (Visit m) := account.flatMap OperationAccount.visits

/-- All visits, each with those below it. -/
def visits (account : Account m) : List (Visit m) := Visit.allOf account.top

/-- The account tells what becomes of the operations of a request that are to run, and
the response with the calls that led to it are as the account has them. -/
structure Tells (schema : Schema m) (options : RequestOptions) (document : Document)
    (response : Response) (events : List (Event m)) (account : Account m) : Prop where
  operations : ∃ checked, Request.checkOptions options = .ok checked ∧
    List.Forall₂ (OperationAccount.Tells schema checked)
      (Request.select document options.operationName).1 account
  data : response.data = assignAll [] (Visit.contributions account.top)
  errors : response.errors = (Request.select document options.operationName).2.errors ++
    account.flatMap OperationAccount.records
  events : events = Visit.events account.visits

end Account

end GraphQL
