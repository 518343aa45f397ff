import Mathlib.Data.Fintype.Basic
import Mathlib.Order.WellFounded
import Mathlib.Data.Finset.Lattice.Fold

/-!
# Rules for eventual progress

Rules that turn a rank and the absence of endless stalls into progress, for properties of the cycles
of a run.
-/

namespace PcieBench
namespace Clocked

/-- A property that every cycle from `t` on hands to the next one. -/
theorem persists {p : Nat → Prop} {t : Nat} (hstep : ∀ u, t ≤ u → p u → p (u + 1)) (h : p t) :
    ∀ u, t ≤ u → p u := by
  intro u hu
  induction u, hu using Nat.le_induction with
  | base =>
      exact h
  | succ u hu ih =>
      exact hstep u hu ih

/-- A property that lasts until an event, if the event comes: it holds up to the first event. -/
theorem lasts_until {p e : Nat → Prop} {t : Nat} (hstep : ∀ u, t ≤ u → p u → ¬ e u → p (u + 1))
    (h : p t) (hevent : ∃ u, t ≤ u ∧ e u) :
    ∃ u, t ≤ u ∧ e u ∧ p u ∧ ∀ v, t ≤ v → v < u → p v ∧ ¬ e v := by
  classical
  obtain ⟨htu, hu⟩ := Nat.find_spec hevent
  have hbefore : ∀ v, t ≤ v → v < Nat.find hevent → ¬ e v := by
    intro v htv hv he
    exact Nat.find_min hevent hv ⟨htv, he⟩
  have hp : ∀ v, t ≤ v → v ≤ Nat.find hevent → p v := by
    intro v htv
    induction v, htv using Nat.le_induction with
    | base =>
        intro _
        exact h
    | succ v htv ih =>
        intro hv
        exact hstep v htv (ih (by omega)) (hbefore v htv (by omega))
  exact ⟨Nat.find hevent, htu, hu, hp _ htu (Nat.le_refl _),
    fun v htv hv => ⟨hp v htv hv.le, hbefore v htv hv⟩⟩

/-- If a clock edge reaches the goal, stalls or makes the rank smaller, and no stall is endless, the
goal is reached. -/
theorem eventually_of_rank {ρ : Type} {r : ρ → ρ → Prop} (hwf : WellFounded r)
    (goal stalls : Nat → Prop) (holds : Nat → ρ → Prop)
    (hstep : ∀ t x, holds t x →
      goal t ∨ (stalls t ∧ holds (t + 1) x) ∨ ∃ y, r y x ∧ holds (t + 1) y)
    (hfair : ∀ t x, holds t x → ¬ ∀ u, t ≤ u → stalls u) {t : Nat} {x : ρ} (h : holds t x) :
    ∃ u, t ≤ u ∧ goal u := by
  induction x using hwf.induction generalizing t with
  | _ x ih =>
      by_contra hno
      push Not at hno
      -- otherwise the run stalls with the same rank for ever
      have hstall : ∀ u, t ≤ u → holds u x → stalls u ∧ holds (u + 1) x := by
        intro u hu hx
        rcases hstep u x hx with hgoal | hs | ⟨y, hy, hnext⟩
        · exact absurd hgoal (hno u hu)
        · exact hs
        · obtain ⟨v, hv, hgoal⟩ := ih y hy hnext
          exact absurd hgoal (hno v (by omega))
      have hkeep := persists (fun u hu hx => (hstall u hu hx).2) h
      exact hfair t x h (fun u hu => (hstall u hu (hkeep u hu)).1)

/-- Finitely many properties that hold from some cycle on hold together from some cycle on. -/
theorem eventually_forall {ι : Type} [Fintype ι] {p : ι → Nat → Prop} {t : Nat}
    (h : ∀ k, ∃ u, t ≤ u ∧ ∀ v, u ≤ v → p k v) : ∃ u, t ≤ u ∧ ∀ k v, u ≤ v → p k v := by
  choose bound hbound hp using h
  refine ⟨max t (Finset.univ.sup bound), Nat.le_max_left _ _, ?_⟩
  intro k v hv
  refine hp k v ?_
  have hle : bound k ≤ Finset.univ.sup bound := Finset.le_sup (Finset.mem_univ k)
  omega

end Clocked
end PcieBench
