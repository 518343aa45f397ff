import Mathlib.Algebra.BigOperators.Intervals
import Mathlib.Algebra.BigOperators.Ring.Finset
import Mathlib.Data.BitVec

/-!
# Counters behind a gate

A measurement is a register that a gate holds at zero and that adds up an input while the gate is
open.  What it shows after the gate has been open is the sum of that input.
-/

namespace PcieBench
namespace Clocked

section Gate

variable {M : Type} [AddCommMonoid M] {x y : Nat → M} {stop : Nat → Bool}

/-- A counter that is cleared up to cycle `s` and counts from the cycle after it up to `t`. -/
theorem gated_sum (hstep : ∀ u, x (u + 1) = if stop u then 0 else x u + y u) {s t : Nat}
    (hclosed : stop s = true) (hst : s ≤ t) (hopen : ∀ u, s < u → u ≤ t → stop u = false) :
    x (t + 1) = ∑ u ∈ Finset.Ioc s t, y u := by
  induction t, hst using Nat.le_induction with
  | base =>
      rw [hstep, hclosed]
      simp
  | succ t hst ih =>
      have hsum := ih (fun u hsu hut => hopen u hsu (by omega))
      rw [hstep, hopen (t + 1) (by omega) (Nat.le_refl _), hsum, Finset.sum_Ioc_succ_top hst]
      rfl

end Gate

/-- A sum of machine words is the word of the sum. -/
theorem sum_ofNat {w : Nat} (s : Finset Nat) (f : Nat → Nat) :
    ∑ u ∈ s, BitVec.ofNat w (f u) = BitVec.ofNat w (∑ u ∈ s, f u) := by
  simp only [← BitVec.natCast_eq_ofNat, Nat.cast_sum]

end Clocked
end PcieBench
