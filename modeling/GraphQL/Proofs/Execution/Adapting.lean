/-
GraphQL.Proofs.Execution.Adapting — failures in another form.

What may be aborted is run by a builder and by a request, each of which has failures of
its own and gives those of its parts another form. That touches no result: it passes
through each way of putting computations together.
-/
import Mathlib.Control.Lawful

namespace GraphQL

open MonadAttach (CanReturn)
open LawfulMonadAttach (canReturn_map_imp')

variable {m : Type → Type} [Monad m] {ε ε' α β : Type} {f : ε → ε'}

theorem canReturn_adapt [LawfulMonad m] [MonadAttach m] [LawfulMonadAttach m]
    {x : ExceptT ε m α} {a : α} (h : CanReturn (x.adapt f) a) : CanReturn x a := by
  obtain ⟨result, hresult, heq⟩ := canReturn_map_imp' (m := m) h
  cases result with
  | error failure => cases heq
  | ok value =>
    cases heq
    exact hresult

variable [LawfulMonad m] (f)

theorem adapt_pure (a : α) : (pure a : ExceptT ε m α).adapt f = pure a := by
  apply ExceptT.ext
  rw [ExceptT.run_adapt, ExceptT.run_pure, ExceptT.run_pure, map_pure]
  rfl

theorem adapt_bind (x : ExceptT ε m α) (next : α → ExceptT ε m β) :
    (x >>= next).adapt f = x.adapt f >>= fun a => (next a).adapt f := by
  apply ExceptT.ext
  rw [ExceptT.run_adapt, ExceptT.run_bind, ExceptT.run_bind, ExceptT.run_adapt, map_bind,
    bind_map_left]
  refine bind_congr fun result => ?_
  cases result with
  | error problem => exact map_pure _ _
  | ok a => exact (ExceptT.run_adapt f (next a)).symm

theorem adapt_map (g : α → β) (x : ExceptT ε m α) : (g <$> x).adapt f = g <$> x.adapt f := by
  rw [← bind_pure_comp, adapt_bind]
  simp only [adapt_pure, bind_pure_comp]

theorem adapt_mapM (run : α → ExceptT ε m β) (inputs : List α) :
    (inputs.mapM run).adapt f = inputs.mapM fun input => (run input).adapt f := by
  induction inputs with
  | nil => exact adapt_pure f []
  | cons input rest ih =>
    rw [List.mapM_cons, List.mapM_cons, adapt_bind]
    simp only [bind_pure_comp, adapt_map, ih]

end GraphQL
