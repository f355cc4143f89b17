/-
GraphQL.Proofs.Execution.Tracing — the calls of a run with their answers.

  §1 Traces     — computations that leave the calls they make, with the answers.
  §2 Hosts      — tracing as a host for schemas.
  §3 Yields     — what is known of a result and of the events that led to it.
  §4 Failures   — the same for computations that may fail.

A trace is a record with answers, which resolvers that share a state give as
they are called. The answers decide which calls come next, so an order of calls
can be told by a trace and not by the calls alone.
-/
import GraphQL.Proofs.Execution.Recording
import GraphQL.Proofs.Input.SoundCoercion

namespace GraphQL

open MonadAttach (CanReturn)
open LawfulMonadAttach (canReturn_bind_imp' eq_of_canReturn_pure)

/-! ## §1 Traces -/

/-- A call of a resolver and what became of it. -/
structure Event (m : Type → Type) where
  call : Call m
  answer : Resolution

/-- Computations that trace their calls, the latest at the end. -/
abbrev Tracing (m : Type → Type) := StateT (List (Event m)) m

variable {m : Type → Type} [Monad m]

/-- Log entries go where they went. -/
instance [MonadLog m] : MonadLog (Tracing m) where
  log level words := StateT.lift (MonadLog.log level words)

/-- Calls the field's resolver and adds the call to the trace. -/
def FieldType.traced (field : FieldType m) : Resolver (Tracing m) :=
  fun arguments context parent => do
    let answer ← StateT.lift (field.resolver arguments context parent)
    modify (· ++ [⟨⟨field, arguments, context, parent⟩, answer⟩])
    return answer

variable [LawfulMonad m]

/-! ## §2 Hosts -/

namespace Hosting

/-- The host that traces calls. -/
def tracing : Hosting m (Tracing m) where
  lift := StateT.lift
  lift_pure a := by
    apply StateT.ext
    intro events
    simp
  lift_bind x f := by
    apply StateT.ext
    intro events
    simp
  resolver := FieldType.traced

/-- Without its trace, a traced run is the plain one. -/
theorem simulation_tracing [MonadLog m] : (tracing (m := m)).Simulation
    fun {α : Type} (x : Tracing m α) (y : m α) => ∀ before, Prod.fst <$> x.run before = y where
  pure _ _ := by simp
  bind {_ _ x y f g} hx hf before := by
    calc Prod.fst <$> (x >>= f).run before
        = x.run before >>= fun step => Prod.fst <$> (f step.1).run step.2 := by simp
      _ = x.run before >>= fun step => g step.1 := by
          refine bind_congr fun step => ?_
          exact hf step.1 step.2
      _ = (Prod.fst <$> x.run before) >>= g := by simp
      _ = y >>= g := by rw [hx before]
  lift _ _ := by simp [tracing]
  resolver field arguments context parent before := by simp [tracing, FieldType.traced]
  log _ _ _ := by simp [MonadLog.log]

end Hosting

variable [MonadAttach m] [LawfulMonadAttach m]

/-! ## §3 Yields -/

/-- Every result of the computation comes with events such that `R` holds. -/
def Yields {α : Type} (x : Tracing m α) (R : α → List (Event m) → Prop) : Prop :=
  ∀ before result after, CanReturn (x.run before) (result, after) →
    ∃ events, after = before ++ events ∧ R result events

namespace Yields

variable {α β : Type} {x : Tracing m α} {f : α → Tracing m β} {R : α → List (Event m) → Prop}
  {S : β → List (Event m) → Prop}

theorem of_pure {a : α} (h : R a []) : Yields (pure a) R := by
  intro before result after hcan
  have heq : (a, before) = (result, after) := eq_of_canReturn_pure (m := m) hcan
  cases heq
  exact ⟨[], by simp, h⟩

theorem bind (hx : Yields x R)
    (hf : ∀ a events, R a events → Yields (f a) fun b later => S b (events ++ later)) :
    Yields (x >>= f) S := by
  intro before result after hcan
  obtain ⟨⟨a, middle⟩, hstep, hrest⟩ := canReturn_bind_imp' (x := x.run before) hcan
  obtain ⟨events, rfl, hevents⟩ := hx before a middle hstep
  obtain ⟨later, rfl, hlater⟩ := hf a events hevents (before ++ events) result after hrest
  exact ⟨events ++ later, List.append_assoc _ _ _, hlater⟩

omit [Monad m] [LawfulMonad m] [LawfulMonadAttach m] in
theorem imp {R' : α → List (Event m) → Prop} (hx : Yields x R)
    (h : ∀ a events, R a events → R' a events) : Yields x R' := by
  intro before result after hcan
  obtain ⟨events, hafter, hevents⟩ := hx before result after hcan
  exact ⟨events, hafter, h _ _ hevents⟩

/-- A lifted step leaves no events, whatever it gives. -/
theorem of_lift {y : m α} (h : ∀ a, CanReturn y a → R a []) : Yields (StateT.lift y) R := by
  intro before result after hcan
  obtain ⟨a, ha, hcan⟩ := canReturn_bind_imp' (x := y) hcan
  have heq : (a, before) = (result, after) := eq_of_canReturn_pure (m := m) hcan
  cases heq
  exact ⟨[], by simp, h _ ha⟩

theorem map {f : α → β} (hx : Yields x R) (h : ∀ a events, R a events → S (f a) events) :
    Yields (f <$> x) S := by
  rw [map_eq_pure_bind]
  exact hx.bind fun a events ha => of_pure (by simpa using h a events ha)

/-- A traced resolver leaves its call with its answer. -/
theorem of_traced {field : FieldType m} {arguments context parent : Value} :
    Yields (field.traced arguments context parent)
      fun answer events => events = [⟨⟨field, arguments, context, parent⟩, answer⟩] := by
  intro before result after hcan
  simp only [FieldType.traced, StateT.run_bind, StateT.run_modify, StateT.run_lift, bind_assoc,
    pure_bind] at hcan
  obtain ⟨answer, _, hcan⟩ := canReturn_bind_imp' hcan
  have heq := eq_of_canReturn_pure hcan
  cases heq
  exact ⟨_, rfl, rfl⟩

/-! ## §4 Failures -/

section Failures

variable {ε : Type} {x : ExceptT ε (Tracing m) α} {f : α → ExceptT ε (Tracing m) β}
  {R : Except ε α → List (Event m) → Prop} {S : Except ε β → List (Event m) → Prop}

theorem except_pure {a : α} (h : R (.ok a) []) :
    Yields (pure a : ExceptT ε (Tracing m) α).run R :=
  of_pure h

/-- What fails in the first part fails as a whole, with the events of that part. -/
theorem except_bind (hx : Yields x.run R)
    (hok : ∀ a events, R (.ok a) events → Yields (f a).run fun b later => S b (events ++ later))
    (herror : ∀ failure events, R (.error failure) events → S (.error failure) events) :
    Yields (x >>= f).run S := by
  rw [ExceptT.run_bind]
  refine bind hx fun result events h => ?_
  cases result with
  | ok a => exact hok a events h
  | error failure => exact of_pure (by simpa using herror failure events h)

/-- A part that cannot fail. -/
theorem except_lift_bind {x : Tracing m α} {f : α → ExceptT ε (Tracing m) β}
    {R : α → List (Event m) → Prop} (hx : Yields x R)
    (hf : ∀ a events, R a events → Yields (f a).run fun b later => S b (events ++ later)) :
    Yields (ExceptT.lift x >>= f).run S := by
  simpa [ExceptT.run_bind] using hx.bind hf

/-- The engine leaves no events by itself. -/
theorem of_engine (y : Engine m α) :
    Yields (Hosting.tracing.engine y).run fun result events =>
      events = [] ∧ CanReturn y.run result :=
  of_lift fun _ h => ⟨rfl, h⟩

end Failures

end Yields

end GraphQL
