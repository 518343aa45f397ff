import Mathlib.Data.FinEnum
import Mathlib.Dynamics.PeriodicPts.Lemmas

/-!
# Registers with linear feedback

A register whose next value is an exclusive or of its bits is a map on words that respects exclusive
or.  It is determined by its columns, the values it takes on the words with one bit, and so are its
iterates: squaring the columns `k` times gives `2 ^ k` steps of the register.  This is how a run of
billions of cycles is evaluated.

The second part counts: a register that returns after `n` steps and not earlier, among `n` words that
it cannot leave, shows each of them once in every `n` cycles.
-/

namespace PcieBench
namespace Clocked

/-! ## Columns -/

/-- The exclusive or of the columns that the bits of `v` select, the lowest bit first. -/
def combine (v : Nat) : List Nat → Nat
  | [] => 0
  | c :: cs => v % 2 * c ^^^ combine (v / 2) cs

/-- The columns of two applications of the map. -/
def square (cols : List Nat) : List Nat := cols.map fun c => combine c cols

section XorLinear

variable {w : Nat} {f g : BitVec w → BitVec w}

/-- The map respects exclusive or. -/
def XorLinear (f : BitVec w → BitVec w) : Prop := ∀ u v, f (u ^^^ v) = f u ^^^ f v

/-- The values at the words with one bit. -/
def columns (f : BitVec w → BitVec w) : List Nat :=
  (List.range w).map fun i => (f (BitVec.ofNat w (2 ^ i))).toNat

theorem XorLinear.map_zero (hf : XorLinear f) : f 0#w = 0#w := by
  have h := hf 0#w 0#w
  rwa [BitVec.xor_self, BitVec.xor_self] at h

theorem XorLinear.comp (hf : XorLinear f) (hg : XorLinear g) : XorLinear (f ∘ g) := by
  intro u v
  show f (g (u ^^^ v)) = f (g u) ^^^ f (g v)
  rw [hg, hf]

theorem XorLinear.iterate (hf : XorLinear f) (n : Nat) : XorLinear f^[n] := by
  induction n with
  | zero =>
      intro u v
      rfl
  | succ n ih =>
      rw [Function.iterate_succ]
      exact ih.comp hf

/-- A linear register that maps no other word to zero is injective. -/
theorem XorLinear.injective (hf : XorLinear f) (hker : ∀ v, f v = 0#w → v = 0#w) :
    Function.Injective f := by
  intro u v huv
  have hzero : f (u ^^^ v) = 0#w := by
    rw [hf, huv, BitVec.xor_self]
  exact BitVec.xor_eq_zero_iff.1 (hker _ hzero)

/-! ## Evaluation by columns -/

/-- A number is its lowest bit and the others. -/
theorem mul_two_pow_eq_xor (v k : Nat) :
    v * 2 ^ k = v % 2 * 2 ^ k ^^^ v / 2 * 2 ^ (k + 1) := by
  have hsplit : v = v % 2 ^^^ v / 2 * 2 := by
    apply Nat.eq_of_testBit_eq
    intro i
    cases i with
    | zero =>
        simp
    | succ i =>
        have hlow : v % 2 / 2 = 0 := Nat.div_eq_of_lt (Nat.mod_lt v (by decide))
        rw [Nat.testBit_xor, Nat.testBit_succ, Nat.testBit_succ, Nat.testBit_succ, hlow,
          Nat.mul_div_cancel _ (by decide), Nat.zero_testBit, Bool.false_xor]
  calc
    v * 2 ^ k = (v % 2 ^^^ v / 2 * 2) <<< k := by
        rw [← hsplit, Nat.shiftLeft_eq]
    _ = v % 2 * 2 ^ k ^^^ v / 2 * 2 * 2 ^ k := by
        rw [Nat.shiftLeft_xor_distrib, Nat.shiftLeft_eq, Nat.shiftLeft_eq]
    _ = v % 2 * 2 ^ k ^^^ v / 2 * 2 ^ (k + 1) := by
        rw [Nat.mul_assoc, Nat.pow_succ']

/-- The columns from bit `k` on evaluate the map at the words without lower bits. -/
theorem combine_range' (hf : XorLinear f) (n : Nat) : ∀ (v k : Nat), v < 2 ^ n →
    combine v ((List.range' k n).map fun i => (f (BitVec.ofNat w (2 ^ i))).toNat) =
      (f (BitVec.ofNat w (v * 2 ^ k))).toNat := by
  induction n with
  | zero =>
      intro v k hv
      obtain rfl : v = 0 := by simpa using hv
      simp [combine, hf.map_zero]
  | succ n ih =>
      intro v k hv
      have hfirst : v % 2 * (f (BitVec.ofNat w (2 ^ k))).toNat =
          (f (BitVec.ofNat w (v % 2 * 2 ^ k))).toNat := by
        rcases Nat.mod_two_eq_zero_or_one v with h | h <;> simp [h, hf.map_zero]
      have hrest := ih (v / 2) (k + 1) (by omega)
      rw [List.range'_succ, List.map_cons, combine, hfirst, hrest, ← BitVec.toNat_xor, ← hf,
        ← BitVec.ofNat_xor, ← mul_two_pow_eq_xor]

theorem combine_columns (hf : XorLinear f) (v : BitVec w) :
    combine v.toNat (columns f) = (f v).toNat := by
  have h := combine_range' hf w v.toNat 0 v.isLt
  rwa [pow_zero, Nat.mul_one, BitVec.ofNat_toNat, BitVec.setWidth_eq, ← List.range_eq_range'] at h

theorem columns_comp_self (hf : XorLinear f) : columns (f ∘ f) = square (columns f) := by
  rw [square, columns, columns, List.map_map]
  refine List.map_congr_left fun i _ => ?_
  exact (combine_columns hf _).symm

theorem columns_iterate_two_pow (hf : XorLinear f) (k : Nat) :
    columns f^[2 ^ k] = square^[k] (columns f) := by
  induction k with
  | zero =>
      rfl
  | succ k ih =>
      rw [Function.iterate_succ_apply', ← ih, ← columns_comp_self (hf.iterate _),
        ← Function.iterate_add, ← Nat.two_mul, ← Nat.pow_succ']

/-- A run of `2 ^ k` steps, by `k` squarings of the columns. -/
theorem iterate_two_pow_toNat (hf : XorLinear f) (k : Nat) (v : BitVec w) :
    (f^[2 ^ k] v).toNat = combine v.toNat (square^[k] (columns f)) := by
  rw [← columns_iterate_two_pow hf, combine_columns (hf.iterate _)]

end XorLinear

/-! ## One period -/

section Period

open Function

variable {α : Type} [DecidableEq α] {f : α → α} {x : α} {s : Finset α} {n : Nat}

/-- Where the words that the map cannot leave are as many as its period, every window of one period
shows each of them exactly once. -/
theorem existsUnique_iterate_in_window (hperiod : minimalPeriod f x = n) (hcard : s.card = n)
    (hmem : ∀ k, f^[k] x ∈ s) (a : Nat) {y : α} (hy : y ∈ s) :
    ∃! k, k < n ∧ f^[a + k] x = y := by
  have hpos : 0 < minimalPeriod f x := by
    rw [hperiod, ← hcard]
    exact Finset.card_pos.2 ⟨y, hy⟩
  have hshift : minimalPeriod f (f^[a] x) = n := by
    rw [minimalPeriod_apply_iterate (minimalPeriod_pos_iff_mem_periodicPts.1 hpos), hperiod]
  have hadd : ∀ k, f^[a + k] x = f^[k] (f^[a] x) := fun k => by
    rw [Nat.add_comm, iterate_add_apply]
  have hinj : Set.InjOn (fun k => f^[k] (f^[a] x)) (Finset.range n : Set Nat) := by
    have h := iterate_injOn_Iio_minimalPeriod (f := f) (x := f^[a] x)
    rw [hshift] at h
    simpa only [Finset.coe_range] using h
  -- the window has as many different words as there are
  have himage : (Finset.range n).image (fun k => f^[k] (f^[a] x)) = s := by
    refine Finset.eq_of_subset_of_card_le ?_ ?_
    · intro z hz
      obtain ⟨k, _, rfl⟩ := Finset.mem_image.1 hz
      have hk := hmem (a + k)
      rwa [hadd] at hk
    · rw [Finset.card_image_of_injOn hinj, Finset.card_range, hcard]
  rw [← himage] at hy
  obtain ⟨k, hk, hky⟩ := Finset.mem_image.1 hy
  refine ⟨k, ⟨Finset.mem_range.1 hk, by rw [hadd, hky]⟩, ?_⟩
  rintro j ⟨hj, hjy⟩
  refine hinj (Finset.mem_coe.2 (Finset.mem_range.2 hj)) (Finset.mem_coe.2 hk) ?_
  show f^[j] (f^[a] x) = f^[k] (f^[a] x)
  rw [← hadd, hjy, hky]

end Period

/-- The words other than zero. -/
theorem card_nonzero (w : Nat) [Fintype (BitVec w)] :
    (Finset.univ.erase 0#w).card = 2 ^ w - 1 := by
  rw [Finset.card_erase_of_mem (Finset.mem_univ _), Finset.card_univ, ← FinEnum.card_eq_fintypeCard,
    FinEnum.card_bitVec]

end Clocked
end PcieBench
