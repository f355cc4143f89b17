/-
GraphQL.Proofs.Input.InStep — computations that run in step.

Two computations of the engine run in step if one course of effects gives both
of their results, and the results are related. They are aborted together, and
a host cannot tell one from the other. The notion needs nothing of the monad
but its laws: the pair of results is itself what a computation gives.
-/
import GraphQL.Input.Coercion
import Mathlib.Data.List.Forall2

namespace GraphQL

variable {m : Type → Type} [Monad m]

/-- One course of effects gives the results of both computations, which are
related by `R`. -/
def InStep {α β : Type} (R : α → β → Prop) (x : Engine m α) (y : Engine m β) : Prop :=
  ∃ both : Engine m { results : α × β // R results.1 results.2 },
    (fun results => results.1.1) <$> both = x ∧ (fun results => results.1.2) <$> both = y

namespace InStep

variable [LawfulMonad m] {α β γ δ : Type} {R : α → β → Prop} {S : γ → δ → Prop}
  {x : Engine m α} {y : Engine m β} {f : α → Engine m γ} {g : β → Engine m δ}

theorem pure {a : α} {b : β} (h : R a b) :
    InStep R (Pure.pure a : Engine m α) (Pure.pure b) :=
  ⟨Pure.pure ⟨(a, b), h⟩, by simp, by simp⟩

theorem throw (fault : Fault) :
    InStep R (MonadExcept.throw fault : Engine m α) (MonadExcept.throw fault) :=
  ⟨MonadExcept.throw fault, by simp, by simp⟩

/-- A computation runs in step with itself. -/
theorem refl {R : α → α → Prop} (h : ∀ a, R a a) (x : Engine m α) : InStep R x x :=
  ⟨(fun a => ⟨(a, a), h a⟩) <$> x, by simp, by simp⟩

theorem bind (h : InStep R x y) (hnext : ∀ a b, R a b → InStep S (f a) (g b)) :
    InStep S (x >>= f) (y >>= g) := by
  obtain ⟨both, rfl, rfl⟩ := h
  -- The continuations are chosen for all pairs of related results at once.
  obtain ⟨next, hboth⟩ := Classical.axiomOfChoice
    fun results : { results : α × β // R results.1 results.2 } =>
      show ∃ both : Engine m { results : γ × δ // S results.1 results.2 }, _ from
        hnext results.1.1 results.1.2 results.2
  refine ⟨both >>= next, ?_, ?_⟩
  · rw [map_bind, bind_map_left]
    exact bind_congr fun results => (hboth results).1
  · rw [map_bind, bind_map_left]
    exact bind_congr fun results => (hboth results).2

theorem map {p : α → γ} {q : β → δ} (h : InStep R x y) (hmap : ∀ a b, R a b → S (p a) (q b)) :
    InStep S (p <$> x) (q <$> y) := by
  rw [map_eq_pure_bind, map_eq_pure_bind]
  exact h.bind fun a b hab => .pure (hmap a b hab)

/-- The first computation may put its result in another form. -/
theorem bind_pure_left {p : α → γ} {T : γ → β → Prop} (h : InStep R x y)
    (hmap : ∀ a b, R a b → T (p a) b) : InStep T (x >>= fun a => Pure.pure (p a)) y := by
  rw [← bind_pure y]
  exact h.bind fun a b hab => .pure (hmap a b hab)

theorem imp {R' : α → β → Prop} (h : InStep R x y) (himp : ∀ a b, R a b → R' a b) :
    InStep R' x y := by
  obtain ⟨both, rfl, rfl⟩ := h
  exact ⟨(fun results => ⟨results.1, himp _ _ results.2⟩) <$> both, by simp, by simp⟩

/-- Two computations for each item of a list, all of them in step. -/
theorem mapM {f : γ → Engine m α} {g : γ → Engine m β} (h : ∀ c, InStep R (f c) (g c))
    (items : List γ) : InStep (List.Forall₂ R) (items.mapM f) (items.mapM g) := by
  induction items with
  | nil => exact .pure .nil
  | cons first rest ih =>
    rw [List.mapM_cons, List.mapM_cons]
    exact (h first).bind fun a b hab => ih.bind fun c d hcd => .pure (.cons hab hcd)

/-- What goes on alike after related results is one computation. -/
theorem bind_eq {f : α → Engine m γ} {g : β → Engine m γ} (h : InStep R x y)
    (hnext : ∀ a b, R a b → f a = g b) : x >>= f = y >>= g := by
  obtain ⟨both, rfl, rfl⟩ := h
  rw [bind_map_left, bind_map_left]
  exact bind_congr fun results => hnext _ _ results.2

/-- What can be read from the first result is what the second computation gives. -/
theorem map_eq {f : α → β} (h : InStep R x y) (hmap : ∀ a b, R a b → f a = b) : f <$> x = y := by
  have h := h.bind_eq (f := Pure.pure ∘ f) (g := Pure.pure) fun a b hab => by
    rw [Function.comp_apply, hmap a b hab]
  rwa [bind_pure, Function.comp_def, bind_pure_comp] at h

/-- Computations in step whose results are equal are equal. -/
theorem eq {R : α → α → Prop} {x y : Engine m α} (h : InStep R x y) (heq : ∀ a b, R a b → a = b) :
    x = y := by
  have h := h.bind_eq (f := Pure.pure) (g := Pure.pure) fun a b hab => by rw [heq a b hab]
  simpa using h

end InStep

end GraphQL
