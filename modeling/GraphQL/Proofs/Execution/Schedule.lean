/-
GraphQL.Proofs.Execution.Schedule — the fields at the top under every schedule.

  §1 Suspension   — computations that stop at each resolver call.
  §2 Answers      — what a suspended computation comes to.
  §3 Tasks        — tasks that make their steps in any order.
  §4 Termination  — every schedule can be brought to its end.
  §5 Fields       — the fields at the top as tasks.
  §6 Requests     — requests whose operations are run under schedules.

Where resolvers are functions of their arguments, a task that has begun is a
suspended computation, which waits for the answer to one call at a time. A
schedule decides which task goes on next. What a task comes to is settled from
its start, so no step of any task changes what they all come to.
-/
import GraphQL.Proofs.Execution.Recording
import Mathlib.Algebra.BigOperators.Group.List.Basic
import Mathlib.Algebra.Ring.Nat

namespace GraphQL

/-! ## §1 Suspension -/

/-- A computation that is done, or that goes on with what a call gives. -/
inductive Suspended (α : Type) where
  | done (a : α)
  | call (call : Call Id) (next : Resolution → Suspended α)

namespace Suspended

variable {α β : Type}

/-- Goes on with the result of a computation. -/
def andThen : Suspended α → (α → Suspended β) → Suspended β
  | done a, f => f a
  | call c next, f => call c fun resolution => (next resolution).andThen f

instance : Monad Suspended where
  pure := done
  bind := andThen

@[simp]
theorem call_bind (c : Call Id) (next : Resolution → Suspended α) (f : α → Suspended β) :
    call c next >>= f = call c fun resolution => next resolution >>= f := rfl

theorem bind_done (x : Suspended α) : x >>= done = x := by
  induction x with
  | done a => rfl
  | call c next ih => simp [ih]

theorem bind_assoc {γ : Type} (x : Suspended α) (f : α → Suspended β) (g : β → Suspended γ) :
    x >>= f >>= g = x >>= fun a => f a >>= g := by
  induction x with
  | done a => rfl
  | call c next ih => simp [ih]

instance : LawfulMonad Suspended := LawfulMonad.mk' Suspended bind_done (fun _ _ => rfl) bind_assoc

/-- Log entries are no part of a response, and are left out. -/
instance : MonadLog Suspended where
  log _ _ := done ()

end Suspended

/-- The host on which a computation stops at each resolver call. -/
def Hosting.suspending : Hosting Id Suspended where
  lift x := .done x.run
  lift_pure _ := rfl
  lift_bind _ _ := rfl
  resolver field arguments context parent := .call ⟨field, arguments, context, parent⟩ .done

/-! ## §2 Answers -/

/-- What the resolver of a call answers. -/
def Call.answer (call : Call Id) : Resolution :=
  (call.field.resolver call.arguments call.context call.parent).run

namespace Suspended

variable {α β : Type}

/-- What the computation comes to when its calls are answered. -/
def answered : Suspended α → α
  | done a => a
  | call c next => (next c.answer).answered

/-- The number of calls until the computation is done. -/
def calls : Suspended α → Nat
  | done _ => 0
  | call c next => (next c.answer).calls + 1

theorem answered_bind (x : Suspended α) (f : α → Suspended β) :
    (x >>= f).answered = (f x.answered).answered := by
  induction x with
  | done a => rfl
  | call c next ih => exact ih c.answer

end Suspended

/-- Suspending calls changes nothing of what a computation comes to. -/
theorem Hosting.simulation_suspending :
    Hosting.suspending.Simulation fun {α : Type} (x : Suspended α) (y : Id α) =>
      x.answered = y.run where
  pure _ := rfl
  bind {_ _ x _ f _} hx hf := by
    rw [Suspended.answered_bind x f, hx]
    exact hf _
  lift _ := rfl
  resolver _ _ _ _ := rfl
  log _ _ := rfl

/-! ## §3 Tasks -/

/-- A piece of work that has not begun, that is under way, or that is finished. -/
inductive Job (α : Type) where
  | waiting (work : Suspended α)
  | running (rest : Suspended α)
  | finished (result : α)

namespace Job

variable {α : Type}

/-- What a task does next: it starts, it goes on with the answer to its call, or
it finishes. -/
inductive Step : Job α → Job α → Prop
  | start (work : Suspended α) : Step (.waiting work) (.running work)
  | answer (call : Call Id) (next : Resolution → Suspended α) :
    Step (.running (.call call next)) (.running (next call.answer))
  | finish (result : α) : Step (.running (.done result)) (.finished result)

/-- One of the tasks, whichever it is, makes its next step. -/
inductive Advance : List (Job α) → List (Job α) → Prop
  | at (before : List (Job α)) {task task' : Job α} (after : List (Job α)) :
    Step task task' → Advance (before ++ task :: after) (before ++ task' :: after)

/-- From these tasks on, some order of steps leads to those. -/
abbrev Reaches : List (Job α) → List (Job α) → Prop := Relation.ReflTransGen Advance

/-- Works that have not begun are brought, in some order of steps, to results. -/
def End (works : List (Suspended α)) (results : List α) : Prop :=
  Reaches (works.map .waiting) (results.map .finished)

/-- What the task comes to in the end. -/
def outcome : Job α → α
  | .waiting work => work.answered
  | .running rest => rest.answered
  | .finished result => result

/-- A step of a task leaves what it comes to. -/
theorem Step.outcome_eq {task task' : Job α} (h : Step task task') :
    task'.outcome = task.outcome := by
  cases h <;> rfl

theorem Advance.outcomes_eq {tasks tasks' : List (Job α)} (h : Advance tasks tasks') :
    tasks'.map outcome = tasks.map outcome := by
  cases h with
  | «at» before after hstep => simp [hstep.outcome_eq]

/-- So do the steps of any schedule. -/
theorem Reaches.outcomes_eq {tasks tasks' : List (Job α)} (h : Reaches tasks tasks') :
    tasks'.map outcome = tasks.map outcome := by
  induction h with
  | refl => rfl
  | tail _ hlast ih => exact hlast.outcomes_eq.trans ih

/-- Under every schedule the results are those of the works themselves, in the
order of the works and not in that of their ends. -/
theorem End.results_eq {works : List (Suspended α)} {results : List α} (h : End works results) :
    results = works.map Suspended.answered := by
  have houtcomes := Reaches.outcomes_eq h
  simpa [Function.comp_def, outcome] using houtcomes

/-! ## §4 Termination -/

/-- The number of steps until the task has finished. -/
def remaining : Job α → Nat
  | .waiting work => work.calls + 2
  | .running rest => rest.calls + 1
  | .finished _ => 0

/-- The number of steps until all tasks have finished. -/
def allRemaining (tasks : List (Job α)) : Nat := (tasks.map remaining).sum

theorem Step.remaining_eq {task task' : Job α} (h : Step task task') :
    task.remaining = task'.remaining + 1 := by
  cases h <;> rfl

/-- Each step brings the end nearer, so no schedule goes on for ever. -/
theorem Advance.remaining_eq {tasks tasks' : List (Job α)} (h : Advance tasks tasks') :
    allRemaining tasks = allRemaining tasks' + 1 := by
  cases h with
  | «at» before after hstep =>
    simp only [allRemaining, List.map_append, List.map_cons, List.sum_append, List.sum_cons,
      hstep.remaining_eq]
    omega

/-- A task that has not finished can make a step. -/
theorem exists_step {task : Job α} (h : task.remaining ≠ 0) : ∃ task', Step task task' := by
  cases task with
  | waiting work => exact ⟨_, .start work⟩
  | finished result => exact absurd rfl h
  | running rest =>
    cases rest with
    | done result => exact ⟨_, .finish result⟩
    | call call next => exact ⟨_, .answer call next⟩

/-- Tasks with no step left are finished. -/
theorem exists_finished {tasks : List (Job α)} (h : allRemaining tasks = 0) :
    ∃ results : List α, tasks = results.map Job.finished := by
  induction tasks with
  | nil => exact ⟨[], rfl⟩
  | cons task rest ih =>
    obtain ⟨htask, hrest⟩ : task.remaining = 0 ∧ allRemaining rest = 0 := by
      simpa [allRemaining] using h
    obtain ⟨results, rfl⟩ := ih hrest
    cases task with
    | waiting work => simp [remaining] at htask
    | running rest => simp [remaining] at htask
    | finished result => exact ⟨result :: results, rfl⟩

/-- No tasks block each other: where one has not finished, one can make a step. -/
theorem exists_advance {tasks : List (Job α)} (h : allRemaining tasks ≠ 0) :
    ∃ tasks', Advance tasks tasks' := by
  obtain ⟨task, hmem, htask⟩ : ∃ task ∈ tasks, task.remaining ≠ 0 := by
    by_contra hnone
    push Not at hnone
    exact h (List.sum_eq_zero (by simpa using hnone))
  obtain ⟨before, after, rfl⟩ := List.append_of_mem hmem
  obtain ⟨task', hstep⟩ := exists_step htask
  exact ⟨_, .at before after hstep⟩

/-- Wherever a schedule stands, it can be brought to its end. -/
theorem exists_reaches (tasks : List (Job α)) :
    ∃ results : List α, Reaches tasks (results.map .finished) := by
  induction hsteps : allRemaining tasks generalizing tasks with
  | zero =>
    obtain ⟨results, rfl⟩ := exists_finished hsteps
    exact ⟨results, .refl⟩
  | succ steps ih =>
    have hunfinished : allRemaining tasks ≠ 0 := by omega
    obtain ⟨tasks', hadvance⟩ := exists_advance hunfinished
    obtain ⟨results, hresults⟩ := ih tasks' (by have := hadvance.remaining_eq; omega)
    exact ⟨results, .head hadvance hresults⟩

/-- Works have ends, and only one. -/
theorem end_iff {works : List (Suspended α)} {results : List α} :
    End works results ↔ results = works.map Suspended.answered := by
  refine ⟨End.results_eq, ?_⟩
  rintro rfl
  obtain ⟨results, hresults⟩ := exists_reaches (works.map Job.waiting)
  rwa [← End.results_eq hresults]

end Job

/-! ## §5 Fields -/

namespace Execution

/-- The field of a parent value as work that stops at each resolver call. -/
def fieldWork (scope : Scope Id) (parentType : TypeId) (parent : Value) (node : Field) :
    Suspended (Except Fault FieldResult) :=
  (executeField (Hosting.suspending.scope scope) node parentType parent []).run

/-- What comes of fields at the top: each is a task, the tasks make their steps
in some order, and when all have finished, their results are put together in the
order of the fields. -/
def Scheduled (scope : Scope Id) (fields : List Field) (parentType : TypeId) (parent : Value)
    (ended : Except Fault (List (Bytes × FieldResult))) : Prop :=
  ∃ endings, Job.End (fields.map (fieldWork scope parentType parent)) endings ∧
    ended = (allResults endings).map fun results => (fields.map Field.responseKey).zip results

variable {scope : Scope Id} {parentType : TypeId} {parent : Value}

/-- Each piece of work comes to what the field gives. -/
theorem answered_fieldWork (node : Field) :
    (fieldWork scope parentType parent node).answered =
      (executeField scope node parentType parent []).run.run :=
  Hosting.simulation_suspending.executeField scope node parentType parent []

/-- Fields that are run one after another give what they give for themselves. The
first fault in their order aborts them, as it does in `allResults`. -/
theorem executeFields_eq (fields : List Field) :
    (executeFields scope fields parentType parent []).run.run =
      (allResults (fields.map fun node =>
        (executeField scope node parentType parent []).run.run)).map
      fun results => (fields.map Field.responseKey).zip results := by
  induction fields with
  | nil => rfl
  | cons node rest ih =>
    unfold executeFields
    simp only [ExceptT.run_bind, Id.run_bind, List.map_cons, allResults]
    cases (executeField scope node parentType parent []).run.run with
    | error fault => rfl
    | ok result =>
      simp only [Id.run_bind, ih]
      cases allResults (rest.map fun node =>
          (executeField scope node parentType parent []).run.run) <;> rfl

/-- Every schedule comes to what the fields give one after another. -/
theorem scheduled_iff {fields : List Field} {ended : Except Fault (List (Bytes × FieldResult))} :
    Scheduled scope fields parentType parent ended ↔
      ended = (executeFields scope fields parentType parent []).run.run := by
  unfold Scheduled
  simp only [Job.end_iff, exists_eq_left, List.map_map, Function.comp_def, answered_fieldWork,
    executeFields_eq]

/-- The tasks of the program are run under one of the schedules. -/
theorem scheduled_executeTasks (fields : List Field) :
    Scheduled scope fields parentType parent
      (executeTasks scope fields parentType parent).run.run := by
  have hendings : (runTasks (fields.map fun node =>
      executeField scope node parentType parent [])).run =
      fields.map fun node => (executeField scope node parentType parent []).run.run := by
    induction fields with
    | nil => rfl
    | cons node rest ih => simp [runTasks, ih]
  rw [scheduled_iff, executeFields_eq, ← hendings]
  unfold executeTasks
  simp only [ExceptT.run_bind, ExceptT.run_lift, Id.run_bind, Id.run_map]
  cases allResults (runTasks (fields.map fun node =>
      executeField scope node parentType parent [])).run <;> rfl

end Execution

/-! ## §6 Requests -/

/-- A way to run the fields at the top, side by side or one after another. -/
abbrev TopRunner (m : Type → Type) :=
  Scope m → (parallel : Bool) → List Field → TypeId → Value →
    Engine m (List (Bytes × FieldResult))

/-- How the tasks of a query are scheduled: for all fields that may be run, what
comes of them under some schedule. -/
structure Scheduler where
  ended : Scope Id → List Field → TypeId → Value → Except Fault (List (Bytes × FieldResult))
  scheduled : ∀ scope fields parentType parent,
    Execution.Scheduled scope fields parentType parent (ended scope fields parentType parent)

namespace Scheduler

/-- Every task has come to its end before the next one starts. -/
def inOrder : Scheduler where
  ended scope fields parentType parent :=
    (Execution.executeTasks scope fields parentType parent).run.run
  scheduled _ fields _ _ := Execution.scheduled_executeTasks fields

instance : Inhabited Scheduler := ⟨inOrder⟩

/-- Runs the fields at the top, those of a query under the scheduler. -/
def executeTop (scheduler : Scheduler) : TopRunner Id
  | scope, true, fields, parentType, parent =>
    ExceptT.mk (pure (scheduler.ended scope fields parentType parent))
  | scope, false, fields, parentType, parent =>
    Execution.executeFields scope fields parentType parent []

end Scheduler

/-- The fields at the top give what they give one after another. -/
def TopRunner.Serial (top : TopRunner Id) : Prop :=
  ∀ scope parallel fields parentType parent, top scope parallel fields parentType parent =
    Execution.executeFields scope fields parentType parent []

theorem Scheduler.serial_executeTop (scheduler : Scheduler) :
    TopRunner.Serial scheduler.executeTop := by
  intro scope parallel fields parentType parent
  cases parallel with
  | false => rfl
  | true =>
    apply ExceptT.ext
    exact Execution.scheduled_iff.1 (scheduler.scheduled scope fields parentType parent)

theorem Execution.serial_executeTop : TopRunner.Serial Execution.executeTop := by
  intro scope parallel fields parentType parent
  cases parallel with
  | false => rfl
  | true => exact Scheduler.inOrder.serial_executeTop scope true fields parentType parent

namespace Request

section With

variable {m : Type → Type} [Monad m] [MonadLog m] (schema : Schema m) (options : RequestOptions)

/-- Runs one operation, the fields at the top being run by `top`. -/
def runOperationWith (top : TopRunner m) (response : Response) (operation : Operation) :
    Engine m Response := do
  match rootType? schema operation.kind with
  | none =>
    return { response with errors := response.errors ++
      [⟨.mutationsUnsupported operation.label, [operation.location], none⟩] }
  | some root =>
    let bound ← VariableBindings.ofDefinitions schema options.variableValues
      operation.variableDefinitions
    let parallel := options.parallel && operation.kind == .query
    let results ← top ⟨schema, bound.values, options.context⟩ parallel
      operation.selections root options.root
    logExecuted operation (Response.records results).length
    return ({ response with errors := response.errors ++ bound.errors } : Response).addAll results

/-- Runs operations one after another, each with a runner of its own. -/
def runOperationsWith : (tops : Nat → TopRunner m) → Response → List Operation →
    Engine m Response
  | _, response, [] => return response
  | tops, response, operation :: rest => do
    let response ← runOperationWith schema options (tops 0) response operation
    runOperationsWith (fun index => tops (index + 1)) response rest

/-- Runs the selected operations of a document, each with a runner of its own. -/
def runDocumentWith (tops : Nat → TopRunner m) (document : Document) :
    ExceptT Refusal m Response := do
  let options ← ExceptT.mk (pure (checkOptions options))
  let (operations, start) := select document options.operationName
  (runOperationsWith schema options tops start operations).adapt Refusal.aborted

theorem runOperationWith_executeTop :
    runOperationWith schema options Execution.executeTop = runOperation schema options := rfl

theorem runOperationsWith_executeTop (response : Response) (operations : List Operation) :
    runOperationsWith schema options (fun _ => Execution.executeTop) response operations =
      runOperations schema options response operations := by
  induction operations generalizing response with
  | nil => rfl
  | cons operation rest ih =>
    unfold runOperationsWith runOperations
    rw [runOperationWith_executeTop]
    simp only [ih]

/-- The program runs documents with the runner that it has. -/
theorem runDocumentWith_executeTop (document : Document) :
    runDocumentWith schema options (fun _ => Execution.executeTop) document =
      runDocument schema options document := by
  unfold runDocumentWith runDocument
  simp only [runOperationsWith_executeTop]

end With

variable (schema : Schema Id) (options : RequestOptions)

/-- The options of a request with all fields run one after another. -/
def serial : RequestOptions := { options with parallel := false }

variable {tops : Nat → TopRunner Id} (htops : ∀ index, (tops index).Serial)

theorem runOperationWith_serial {top : TopRunner Id} (htop : top.Serial) (response : Response)
    (operation : Operation) :
    runOperationWith schema options top response operation =
      runOperation schema (serial options) response operation := by
  have hserial := Execution.serial_executeTop
  rw [← runOperationWith_executeTop]
  unfold runOperationWith
  simp only [htop _ _, hserial _ _]
  rfl

include htops

theorem runOperationsWith_serial (response : Response) (operations : List Operation) :
    runOperationsWith schema options tops response operations =
      runOperations schema (serial options) response operations := by
  induction operations generalizing tops response with
  | nil => rfl
  | cons operation rest ih =>
    unfold runOperationsWith runOperations
    rw [runOperationWith_serial schema options (htops 0)]
    simp only [ih fun index => htops (index + 1)]

theorem runDocumentWith_serial (document : Document) :
    runDocumentWith schema options tops document =
      runDocument schema (serial options) document := by
  have hchecked : checkOptions (serial options) = serial <$> checkOptions options := by
    unfold checkOptions serial
    cases objectOption (utf8 "variables") options.variableValues with
    | error refusal => rfl
    | ok variableValues => cases objectOption (utf8 "context") options.context <;> rfl
  unfold runDocumentWith runDocument
  rw [hchecked]
  cases checkOptions options with
  | error refusal => rfl
  | ok checked =>
    show (runOperationsWith schema checked tops _ _).adapt Refusal.aborted =
      (runOperations schema (serial checked) _ _).adapt Refusal.aborted
    rw [runOperationsWith_serial schema checked htops]
    rfl

omit htops in
/-- Every schedule of the tasks of its queries, and of each query another one,
leaves the response to a request as it is when all fields are run one after
another: the same data, its members in the same order, and the same records in
the same order. The program's own way to run tasks is one of them. Resolvers may
answer errors, raise or give nested values, and a coercion function may abort
the request, which then has the same fault. -/
theorem runDocument_eq_serial (schedulers : Nat → Scheduler) (document : Document) :
    runDocumentWith schema options (fun index => (schedulers index).executeTop) document =
        runDocument schema (serial options) document ∧
      runDocument schema options document = runDocument schema (serial options) document := by
  constructor
  · exact runDocumentWith_serial schema options (fun index => (schedulers index).serial_executeTop)
      document
  · rw [← runDocumentWith_executeTop]
    exact runDocumentWith_serial schema options (fun _ => Execution.serial_executeTop) document

end Request

end GraphQL
