import Mathlib.Logic.Basic

/-!
# Reachable states

A transition system with labelled steps.  `Reachable ok` are the states of the runs whose steps all
meet a condition on the state before the step and its label; with the condition that always holds they
are the reachable states.
-/

namespace PcieBench
namespace Transition

/-- Initial states and labelled steps. -/
structure LabelledSystem (σ ε : Type) where
  init : σ → Prop
  step : σ → ε → σ → Prop

section Reachable

variable {σ ε : Type} (T : LabelledSystem σ ε)

/-- The states that are reached by steps that all meet `ok`. -/
inductive LabelledSystem.Reachable (ok : σ → ε → Prop) : σ → Prop where
  | init {s : σ} : T.init s → LabelledSystem.Reachable ok s
  | step {s s' : σ} {e : ε} : LabelledSystem.Reachable ok s → ok s e → T.step s e s' →
      LabelledSystem.Reachable ok s'

/-- The condition that every step meets. -/
def anyStep : σ → ε → Prop := fun _ _ => True

variable {T} {ok : σ → ε → Prop}

/-- What holds at the start and is kept by every step that meets the condition holds in every reachable
state. -/
theorem LabelledSystem.Reachable.invariant {inv : σ → Prop} (hinit : ∀ s, T.init s → inv s)
    (hstep : ∀ s e s', inv s → ok s e → T.step s e s' → inv s') {s : σ}
    (h : T.Reachable ok s) : inv s := by
  induction h with
  | init hs =>
      exact hinit _ hs
  | step _ hok hs ih =>
      exact hstep _ _ _ ih hok hs

end Reachable

end Transition
end PcieBench
