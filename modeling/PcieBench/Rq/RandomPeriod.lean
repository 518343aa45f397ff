import Mathlib.NumberTheory.LucasLehmer
import PcieBench.Clocked.Feedback
import PcieBench.Rq.Run

/-!
# The period of the random number

`random_number_r` is a shift register with two taps.  Its step is linear over exclusive or, and one
turn of `2 ^ 31 - 1` cycles brings the reset value back.  Since that length is prime, no shorter turn
does, and a turn has room for every number but zero.
-/

namespace PcieBench
namespace Rq

open Clocked Function

section RandomPeriod

variable {P : Params}

/-! ## The shift register -/

/-- The next value of `random_number_r`. -/
def nextRandomNumber (number : BitVec 31) : BitVec 31 :=
  number.extractLsb' 0 30 ++ BitVec.ofBool (number.getLsbD 30 ^^ number.getLsbD 27)

theorem nextRandom_randomNumber (s : State P) (i : Input P) :
    (nextRandom s i).randomNumber = nextRandomNumber s.random.randomNumber := rfl

theorem nextRandomNumber_getLsbD_zero (x : BitVec 31) :
    (nextRandomNumber x).getLsbD 0 = (x.getLsbD 30 ^^ x.getLsbD 27) := by
  refine BitVec.getLsbD_append.trans ?_
  simp

theorem nextRandomNumber_getLsbD_succ (x : BitVec 31) {i : Nat} (hi : i < 30) :
    (nextRandomNumber x).getLsbD (i + 1) = x.getLsbD i := by
  refine BitVec.getLsbD_append.trans ?_
  simp [hi]

theorem xorLinear_nextRandomNumber : XorLinear nextRandomNumber := by
  intro u v
  apply BitVec.eq_of_getLsbD_eq
  intro i hi
  rw [BitVec.getLsbD_xor]
  cases i with
  | zero =>
      simp only [nextRandomNumber_getLsbD_zero, BitVec.getLsbD_xor]
      cases u.getLsbD 30 <;> cases u.getLsbD 27 <;> simp
  | succ i =>
      have hi' : i < 30 := by omega
      simp only [nextRandomNumber_getLsbD_succ _ hi', BitVec.getLsbD_xor]

/-- The bit that leaves the register is one of the taps, so it is not lost. -/
theorem nextRandomNumber_injective : Injective nextRandomNumber := by
  refine xorLinear_nextRandomNumber.injective fun v hv => ?_
  have hlow : ∀ i, i < 30 → v.getLsbD i = false := by
    intro i hi
    rw [← nextRandomNumber_getLsbD_succ v hi, hv, BitVec.getLsbD_zero]
  have htop : v.getLsbD 30 = false := by
    have h := nextRandomNumber_getLsbD_zero v
    rw [hv, BitVec.getLsbD_zero, hlow 27 (by decide), Bool.xor_false] at h
    exact h.symm
  apply BitVec.eq_of_getLsbD_eq
  intro i hi
  rw [BitVec.getLsbD_zero]
  rcases Nat.lt_or_eq_of_le (Nat.le_of_lt_succ hi) with h | rfl
  · exact hlow i h
  · exact htop

theorem iterate_nextRandomNumber_ne_zero (t : Nat) : nextRandomNumber^[t] 1 ≠ 0#31 := by
  intro h
  have hfix := (xorLinear_nextRandomNumber.iterate t).map_zero
  have hone : 1 = 0#31 := nextRandomNumber_injective.iterate t (h.trans hfix.symm)
  exact absurd hone (by decide)

/-! ## Its period -/

/-- Thirty-one squarings of the step bring the reset value where one step does. -/
theorem iterate_nextRandomNumber_two_pow : nextRandomNumber^[2 ^ 31] 1 = nextRandomNumber 1 := by
  apply BitVec.eq_of_toNat_eq
  rw [iterate_two_pow_toNat xorLinear_nextRandomNumber]
  decide +kernel

theorem mersenne_31_prime : Nat.Prime (2 ^ 31 - 1) :=
  lucas_lehmer_sufficiency 31 (by norm_num) (by norm_num)

theorem minimalPeriod_nextRandomNumber : minimalPeriod nextRandomNumber 1 = 2 ^ 31 - 1 := by
  have : Fact (Nat.Prime (2 ^ 31 - 1)) := ⟨mersenne_31_prime⟩
  apply minimalPeriod_eq_prime
  · -- the step is injective, so the last of the `2 ^ 31` steps can be taken back
    apply nextRandomNumber_injective
    rw [← iterate_succ_apply' nextRandomNumber]
    exact iterate_nextRandomNumber_two_pow
  · show nextRandomNumber 1 ≠ 1
    decide

/-! ## The register of the design -/

theorem st_randomNumber (inp : Run P) (t : Nat) :
    (st inp t).random.randomNumber = nextRandomNumber^[t] 1 := by
  induction t with
  | zero =>
      rfl
  | succ t ih =>
      rw [iterate_succ_apply', ← ih]
      exact nextRandom_randomNumber _ _

/-- Whatever the inputs, the random number is never zero, its period is `2 ^ 31 - 1`, and in every
window of that many cycles it takes each nonzero value exactly once. -/
theorem randomNumber_period (inp : Run P) :
    (∀ t, (st inp t).random.randomNumber ≠ 0#31) ∧
    IsLeast {p : Nat | 0 < p ∧ ∀ t,
      (st inp (t + p)).random.randomNumber = (st inp t).random.randomNumber} (2 ^ 31 - 1) ∧
    ∀ (a : Nat) (v : BitVec 31), v ≠ 0#31 →
      ∃! k, k < 2 ^ 31 - 1 ∧ (st inp (a + k)).random.randomNumber = v := by
  simp only [st_randomNumber]
  refine ⟨iterate_nextRandomNumber_ne_zero, ⟨⟨by decide, ?_⟩, ?_⟩, ?_⟩
  · intro t
    rw [← minimalPeriod_nextRandomNumber, iterate_add_minimalPeriod_eq]
  · rintro p ⟨hpos, hp⟩
    rw [← minimalPeriod_nextRandomNumber]
    refine IsPeriodicPt.minimalPeriod_le hpos ?_
    have h := hp 0
    rwa [Nat.zero_add] at h
  · intro a v hv
    refine existsUnique_iterate_in_window minimalPeriod_nextRandomNumber (card_nonzero 31) ?_ a
      (Finset.mem_erase.2 ⟨hv, Finset.mem_univ _⟩)
    intro k
    exact Finset.mem_erase.2 ⟨iterate_nextRandomNumber_ne_zero k, Finset.mem_univ _⟩

end RandomPeriod

end Rq
end PcieBench
