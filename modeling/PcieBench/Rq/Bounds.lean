import PcieBench.Rq.Logic
import Mathlib.Algebra.Order.Floor.Div
import Mathlib.Tactic.Ring

/-!
# The registers derived from the transfer size

`dma_rq_logic` cuts a block of `SIZE_AT_DESCRIPTOR` bytes into TLPs of `2 ^ log2` bytes with shifts
and masks.  Here these are read as division with remainder: the number of TLPs is the rounded-up
quotient modulo `2 ^ 32`, and the last TLP has the remainder, or a full TLP if there is none.
-/

namespace PcieBench
namespace Rq

/-! ## Quotient and remainder -/

theorem extractLsb'_zero_ne_zero (log2 : Nat) (size : BitVec 64) :
    size.extractLsb' 0 log2 ≠ 0 ↔ size.toNat % 2 ^ log2 ≠ 0 := by
  rw [Ne, ← BitVec.toNat_inj]
  simp

theorem toNat_and_mask (log2 : Nat) (h : log2 ≤ 64) (size : BitVec 64) :
    (size &&& BitVec.ofNat 64 (2 ^ log2 - 1)).toNat = size.toNat % 2 ^ log2 := by
  have hpow : 2 ^ log2 ≤ 2 ^ 64 := Nat.pow_le_pow_right (by omega) h
  have hpos : 0 < 2 ^ log2 := Nat.two_pow_pos log2
  rw [BitVec.toNat_and, BitVec.toNat_ofNat, Nat.mod_eq_of_lt (by omega),
    Nat.and_two_pow_sub_one_eq_mod]

/-- The TLPs of a block of `size` bytes, `max` in each. -/
def blockCount (max size : Nat) : Nat := size / max + if size % max = 0 then 0 else 1

/-- The dwords of TLP `i` (from 0) of a block of `count` TLPs. -/
def tileDwords (max size count i : Nat) : Nat :=
  if i + 1 = count then
    if size % max = 0 then max / 4 else size % max / 4
  else max / 4

/-- A block with a byte has a TLP. -/
theorem blockCount_pos (max : Nat) {size : Nat} (hpos : 0 < size) : 0 < blockCount max size := by
  unfold blockCount
  split
  · rename_i hmod
    have hdm := Nat.div_add_mod size max
    rcases Nat.eq_zero_or_pos (size / max) with h0 | h0
    · rw [h0, hmod] at hdm
      omega
    · exact h0
  · exact Nat.succ_pos _

theorem numberEvenTlp_toNat (log2 : Nat) (size : BitVec 64) :
    (numberEvenTlp log2 size).toNat = blockCount (2 ^ log2) size.toNat % 2 ^ 32 := by
  unfold numberEvenTlp blockCount
  by_cases h : size.toNat % 2 ^ log2 = 0
  · have hz : ¬ size.extractLsb' 0 log2 ≠ 0 := by
      rw [extractLsb'_zero_ne_zero]
      simpa using h
    rw [if_neg hz, if_pos h]
    simp [Nat.shiftRight_eq_div_pow]
  · have hz : size.extractLsb' 0 log2 ≠ 0 := by
      rw [extractLsb'_zero_ne_zero]
      exact h
    rw [if_pos hz, if_neg h]
    simp [BitVec.toNat_add, Nat.shiftRight_eq_div_pow]

/-- A quarter of a TLP, its size in dwords. -/
theorem two_pow_sub_two {log2 : Nat} (h : 2 ≤ log2) : 2 ^ (log2 - 2) = 2 ^ log2 / 4 :=
  (Nat.pow_div h (by omega)).symm

theorem oddTlpWords_toNat {log2 : Nat} (hlo : 2 ≤ log2) (hhi : log2 ≤ 12) (size : BitVec 64) :
    (oddTlpWords log2 (BitVec.ofNat 64 (2 ^ (log2 - 2))) size).toNat =
      if size.toNat % 2 ^ log2 = 0 then 2 ^ log2 / 4 else size.toNat % 2 ^ log2 / 4 := by
  have hpow : 2 ^ log2 ≤ 2 ^ 12 := Nat.pow_le_pow_right (by omega) hhi
  have hlt : size.toNat % 2 ^ log2 < 2 ^ log2 := Nat.mod_lt _ (Nat.two_pow_pos _)
  unfold oddTlpWords
  by_cases h : size.toNat % 2 ^ log2 = 0
  · have hz : ¬ size.extractLsb' 0 log2 ≠ 0 := by
      rw [extractLsb'_zero_ne_zero]
      simpa using h
    rw [if_neg hz, if_pos h, BitVec.toNat_setWidth, BitVec.toNat_ofNat,
      two_pow_sub_two hlo]
    omega
  · have hz : size.extractLsb' 0 log2 ≠ 0 := by
      rw [extractLsb'_zero_ne_zero]
      exact h
    rw [if_pos hz, if_neg h, BitVec.toNat_setWidth, BitVec.toNat_ushiftRight,
      toNat_and_mask log2 (by omega), Nat.shiftRight_eq_div_pow]
    omega

section Words

theorem Config.sizeWords_toNat (cfg : Config) :
    cfg.sizeWords.toNat = cfg.sizeAtDescriptor.toNat / 4 := by
  simp [Config.sizeWords, Nat.shiftRight_eq_div_pow]

variable (P : Params)

theorem maxWordsTlp_toNat : (maxWordsTlp P).toNat = 2 ^ P.log2MaxPayload / 4 := by
  have hlo := P.three_le_payload
  have hpow : 2 ^ P.log2MaxPayload ≤ 2 ^ 12 := Nat.pow_le_pow_right (by omega) P.payload_le
  rw [maxWordsTlp, BitVec.toNat_ofNat, two_pow_sub_two (by omega), Nat.mod_eq_of_lt (by omega)]

theorem maxWordsReadRequest_toNat :
    (maxWordsReadRequest P).toNat = 2 ^ P.log2MaxReadRequest / 4 := by
  have hlo := P.three_le_readRequest
  have hpow : 2 ^ P.log2MaxReadRequest ≤ 2 ^ 12 :=
    Nat.pow_le_pow_right (by omega) P.readRequest_le
  rw [maxWordsReadRequest, BitVec.toNat_ofNat, two_pow_sub_two (by omega),
    Nat.mod_eq_of_lt (by omega)]

/-- A TLP size is a multiple of eight bytes and at most a page. -/
theorem two_pow_tlp {log2 : Nat} (hlo : 3 ≤ log2) (hhi : log2 ≤ 12) :
    2 ^ log2 % 8 = 0 ∧ 8 ≤ 2 ^ log2 ∧ 2 ^ log2 ≤ 4096 := by
  have hpow : 2 ^ log2 ≤ 2 ^ 12 := Nat.pow_le_pow_right (by omega) hhi
  have hpow' : 2 ^ 3 ≤ 2 ^ log2 := Nat.pow_le_pow_right (by omega) hlo
  have hdvd : 2 ^ 3 ∣ 2 ^ log2 := pow_dvd_pow 2 hlo
  refine ⟨Nat.mod_eq_zero_of_dvd hdvd, by omega, by omega⟩

end Words

/-! ## The TLPs of a block -/

/-- The dwords of TLP number `modulus` of a block, as the header selects them. -/
def tlpWords (log2 : Nat) (size : BitVec 64) (modulus : BitVec 32) : BitVec 32 :=
  if numberEvenTlp log2 size = modulus then oddTlpWords log2 (BitVec.ofNat 64 (2 ^ (log2 - 2))) size
  else (BitVec.ofNat 64 (2 ^ (log2 - 2))).setWidth 32

/-- The words reloaded at the end of a TLP are those the header of the next one selects. -/
theorem tlpWords_next {log2 : Nat} (hlo : 3 ≤ log2) (hhi : log2 ≤ 12) {size : BitVec 64}
    {modulus : BitVec 32} (hone : numberEvenTlp log2 size = 1 → modulus = 1) :
    (if numberEvenTlp log2 size = modulus + 1 ∨ numberEvenTlp log2 size = 1 then
      (oddTlpWords log2 (BitVec.ofNat 64 (2 ^ (log2 - 2))) size).setWidth 64
    else BitVec.ofNat 64 (2 ^ (log2 - 2))) =
      (tlpWords log2 size (if numberEvenTlp log2 size = modulus then 1 else modulus + 1)).setWidth
        64 := by
  have hmax : ((BitVec.ofNat 64 (2 ^ (log2 - 2))).setWidth 32).setWidth 64 =
      BitVec.ofNat 64 (2 ^ (log2 - 2)) := by
    apply BitVec.eq_of_toNat_eq
    have hle : 2 ^ (log2 - 2) ≤ 2 ^ 10 := Nat.pow_le_pow_right (by omega) (by omega)
    simp only [BitVec.toNat_setWidth, BitVec.toNat_ofNat]
    generalize 2 ^ (log2 - 2) = max at *
    omega
  unfold tlpWords
  generalize numberEvenTlp log2 size = even at *
  by_cases hm : even = modulus
  · -- a new block: the first of its TLPs is the short one if it is the only one
    have hne : ¬ even = modulus + 1 := by
      rw [hm]
      bv_omega
    rw [if_pos hm]
    simp only [hne, false_or]
    split
    · rfl
    · exact hmax.symm
  · have h1 : ¬ even = 1 := by
      intro h1
      exact hm (h1.trans (hone h1).symm)
    rw [if_neg hm]
    simp only [h1, or_false]
    split
    · rfl
    · exact hmax.symm

/-- The TLPs a modulus counter runs through before it meets `even` again. -/
def blockTlps (even : BitVec 32) : Nat := if even = 0 then 2 ^ 32 else even.toNat

theorem blockTlps_pos (even : BitVec 32) : 0 < blockTlps even := by
  unfold blockTlps
  split
  · decide
  · bv_omega

theorem blockTlps_le (even : BitVec 32) : blockTlps even ≤ 2 ^ 32 := by
  unfold blockTlps
  split
  · exact Nat.le_refl _
  · bv_omega

theorem ofNat_blockTlps (even : BitVec 32) : BitVec.ofNat 32 (blockTlps even) = even := by
  unfold blockTlps
  split
  · rename_i h
    rw [h]
    rfl
  · simp

/-- A counter below the number of TLPs of a block meets `even` exactly at the last one. -/
theorem even_eq_iff (even : BitVec 32) {i : Nat} (hi : i < blockTlps even) :
    even = BitVec.ofNat 32 (i + 1) ↔ i + 1 = blockTlps even := by
  have hle := blockTlps_le even
  constructor
  · intro h
    unfold blockTlps at *
    split at hi
    · -- the counter only wraps to 0 with the last TLP
      rename_i h0
      rw [if_pos h0] at hle ⊢
      rw [h0] at h
      have := congrArg BitVec.toNat h
      simp at this
      omega
    · rename_i h0
      rw [if_neg h0] at hle ⊢
      have := congrArg BitVec.toNat h
      simp at this
      omega
  · intro h
    rw [h, ofNat_blockTlps]

/-- A block of fewer than `2 ^ 32` TLPs is counted without wrapping. -/
theorem blockTlps_numberEvenTlp {log2 : Nat} {size : BitVec 64} (hpos : 0 < size.toNat)
    (hlt : blockCount (2 ^ log2) size.toNat < 2 ^ 32) :
    blockTlps (numberEvenTlp log2 size) = blockCount (2 ^ log2) size.toNat := by
  have hnat := numberEvenTlp_toNat log2 size
  rw [Nat.mod_eq_of_lt hlt] at hnat
  have hne := blockCount_pos (2 ^ log2) hpos
  unfold blockTlps
  rw [if_neg]
  · exact hnat
  · intro h0
    rw [h0] at hnat
    simp at hnat
    omega

/-- The words of TLP `i` of a block: what the last one has left, and a full TLP before. -/
theorem tlpWords_toNat {log2 : Nat} (hlo : 3 ≤ log2) (hhi : log2 ≤ 12) (size : BitVec 64) {i : Nat}
    (hi : i < blockTlps (numberEvenTlp log2 size)) :
    (tlpWords log2 size (BitVec.ofNat 32 (i + 1))).toNat =
      tileDwords (2 ^ log2) size.toNat (blockTlps (numberEvenTlp log2 size)) i := by
  obtain ⟨-, -, hle⟩ := two_pow_tlp hlo hhi
  unfold tlpWords tileDwords
  by_cases h : i + 1 = blockTlps (numberEvenTlp log2 size)
  · rw [if_pos ((even_eq_iff _ hi).mpr h), if_pos h, oddTlpWords_toNat (by omega) hhi]
  · rw [if_neg (fun he => h ((even_eq_iff _ hi).mp he)), if_neg h, BitVec.toNat_setWidth,
      BitVec.toNat_ofNat, two_pow_sub_two (by omega)]
    generalize 2 ^ log2 = max at *
    omega

end Rq
end PcieBench
