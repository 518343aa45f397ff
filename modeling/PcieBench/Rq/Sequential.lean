import PcieBench.Rq.BlockOrder

/-!
# The sequential pattern

Consecutive blocks should fill the page of the descriptor and start over when the next one does not fit.
The generator looks at the byte behind the block, so a block that ends with the page is left out, and it
does not look at all before the second block.  What comes of this depends on the size of a block only:
the first block that is out of place is the second, the fourth or the last of the page, or there is none.
-/

namespace PcieBench
namespace Rq

open Clocked Tlp

/-! ## Positions in the page -/

/-- The position of block `q` in the page, for blocks of `size` bytes that fill it. -/
def specPos (size : Nat) : Nat → Nat
  | 0 => 0
  | q + 1 => if (specPos size q + 2) * size ≤ 4096 then specPos size q + 1 else 0

/-- The position in `tx_seq_wr_addr_r` after `q` turns of the generator. -/
def codeReg (size : Nat) : Nat → Nat
  | 0 => 1
  | q + 1 => if (codeReg size q + 2) * size < 4096 then codeReg size q + 1 else 0

/-- The position of block `q` as the generator gives it. -/
def codePos (size : Nat) : Nat → Nat
  | 0 => 0
  | q + 1 => codeReg size q

/-- No block ends with the page, and two of them fit into it. -/
def NeverFlush (size : Nat) : Prop := size < 2048 ∧ ¬ size ∣ 4096

instance (size : Nat) : Decidable (NeverFlush size) := inferInstanceAs (Decidable (_ ∧ _))

/-- The first block that is out of place, for the other sizes. -/
def firstWrong (size : Nat) : Nat :=
  if 2048 < size then 1 else if size = 2048 then 3 else 4096 / size - 1

section Positions

variable {size : Nat}

/-- The blocks that fill the page go through its positions in order. -/
theorem specPos_eq_mod (hpos : 0 < size) (hsize : size ≤ 4096) (q : Nat) :
    specPos size q = q % (4096 / size) := by
  have hn : 0 < 4096 / size := Nat.div_pos hsize hpos
  induction q with
  | zero =>
      simp [specPos]
  | succ q ih =>
      have hfits : (specPos size q + 2) * size ≤ 4096 ↔ q % (4096 / size) + 1 < 4096 / size := by
        rw [ih, ← Nat.le_div_iff_mul_le hpos]
        omega
      rw [specPos]
      rcases succ_div_mod hn q with ⟨hend, -, hmod⟩ | ⟨hin, -, hmod⟩
      · rw [if_neg (by rw [hfits]; omega), hmod]
      · rw [if_pos (hfits.mpr hin), hmod, ih]

theorem specPos_fits (hsize : size ≤ 4096) (q : Nat) : (specPos size q + 1) * size ≤ 4096 := by
  cases q with
  | zero =>
      simpa [specPos] using hsize
  | succ q =>
      rw [specPos]
      split
      · rename_i hfits
        exact hfits
      · simpa using hsize

theorem codeReg_le (hsize : size ≤ 4096) (q : Nat) : codeReg size q * size ≤ 4096 := by
  cases q with
  | zero =>
      simpa [codeReg] using hsize
  | succ q =>
      rw [codeReg]
      split
      · rename_i hin
        have hle := Nat.mul_le_mul_right size (show codeReg size q + 1 ≤ codeReg size q + 2 by omega)
        omega
      · simp

theorem codePos_le (hsize : size ≤ 4096) (q : Nat) : codePos size q * size ≤ 4096 := by
  cases q with
  | zero =>
      simp [codePos]
  | succ q =>
      exact codeReg_le hsize q

/-! ## The first block out of place -/

/-- Where no block ends with the page the two tests agree. -/
theorem codeReg_eq_specPos (h : NeverFlush size) (q : Nat) :
    codeReg size q = specPos size (q + 1) := by
  have hne : ∀ k, k * size ≠ 4096 := by
    intro k hk
    exact h.2 ⟨k, by rw [Nat.mul_comm, hk]⟩
  induction q with
  | zero =>
      have hsmall := h.1
      rw [codeReg, specPos, specPos, if_pos (by omega)]
  | succ q ih =>
      rw [codeReg, specPos, ih]
      have hother := hne (specPos size (q + 1) + 2)
      by_cases hfits : (specPos size (q + 1) + 2) * size ≤ 4096
      · rw [if_pos (by omega), if_pos hfits]
      · rw [if_neg (by omega), if_neg hfits]

theorem codePos_of_neverFlush (h : NeverFlush size) (q : Nat) : codePos size q = specPos size q := by
  cases q with
  | zero =>
      rfl
  | succ q =>
      exact codeReg_eq_specPos h q

/-- A size that divides the page into `n` blocks: the generator skips the last one. -/
theorem codePos_of_dvd {n : Nat} (hpos : 0 < size) (hn : n * size = 4096) (h4 : 4 ≤ n) :
    (∀ q, q < n - 1 → codePos size q = specPos size q) ∧
      codePos size (n - 1) ≠ specPos size (n - 1) := by
  have hdiv : 4096 / size = n := by
    rw [← hn, Nat.mul_div_cancel _ hpos]
  have hle : size ≤ 4096 := by
    rw [← hn]
    exact Nat.le_mul_of_pos_left size (by omega)
  have hspec : ∀ q, q < n → specPos size q = q := by
    intro q hq
    rw [specPos_eq_mod hpos hle, hdiv, Nat.mod_eq_of_lt hq]
  have hless : ∀ k, k * size < 4096 ↔ k < n := by
    intro k
    rw [← hn]
    exact Nat.mul_lt_mul_right hpos
  -- the register counts up to the last block but one, where the code already wraps around
  have hreg : ∀ q, q + 1 < n - 1 → codeReg size q = q + 1 := by
    intro q
    induction q with
    | zero =>
        intro _
        rfl
    | succ q ih =>
        intro hq
        rw [codeReg, ih (by omega), if_pos ((hless _).mpr (by omega))]
  constructor
  · intro q hq
    rw [hspec q (by omega)]
    cases q with
    | zero =>
        rfl
    | succ q =>
        exact hreg q hq
  · obtain ⟨m, rfl⟩ : ∃ m, n = m + 3 := ⟨n - 3, by omega⟩
    rw [hspec _ (by omega), show m + 3 - 1 = m + 1 + 1 by omega, codePos, codeReg,
      hreg m (by omega), if_neg (by rw [hless]; omega)]
    omega

/-- For every other size the first block out of place is `firstWrong`. -/
theorem codePos_firstWrong (hpos : 0 < size) (h : ¬ NeverFlush size) :
    (∀ q, q < firstWrong size → codePos size q = specPos size q) ∧
      codePos size (firstWrong size) ≠ specPos size (firstWrong size) := by
  unfold firstWrong
  by_cases hlarge : 2048 < size
  · -- the second block lies behind the page
    rw [if_pos hlarge]
    constructor
    · intro q hq
      obtain rfl : q = 0 := by omega
      rfl
    · rw [codePos, codeReg, specPos, specPos, if_neg (by omega)]
      decide
  · rw [if_neg hlarge]
    by_cases hhalf : size = 2048
    · subst hhalf
      decide
    · rw [if_neg hhalf]
      have hdvd : size ∣ 4096 := by
        by_contra hno
        exact h ⟨by omega, hno⟩
      obtain ⟨n, hn⟩ := hdvd
      have hn' : n * size = 4096 := by rw [hn, Nat.mul_comm]
      have hdiv : 4096 / size = n := by
        rw [hn, Nat.mul_div_cancel_left _ hpos]
      rw [hdiv]
      refine codePos_of_dvd hpos hn' ?_
      -- neither two nor three such blocks make a page
      by_contra hfew
      have hcases : n = 0 ∨ n = 1 ∨ n = 2 ∨ n = 3 := by omega
      rcases hcases with rfl | rfl | rfl | rfl <;> omega

end Positions

/-! ## Addresses -/

/-- The blocks of the sequential pattern as they should follow each other: behind the previous one if the
next block still fits into the page of the descriptor, and at its start otherwise. -/
def Config.seqSpec (cfg : Config) : Nat → BitVec 64
  | 0 => cfg.addrAtDescriptor
  | q + 1 =>
      if (cfg.seqSpec q).toNat + 2 * cfg.sizeAtDescriptor.toNat ≤ cfg.addrAtDescriptor.toNat + 4096 then
        cfg.seqSpec q + cfg.sizeAtDescriptor
      else cfg.addrAtDescriptor

/-- The descriptors that the sequential pattern is meant for: a page and a size that fits into it. -/
structure Config.OnePage (cfg : Config) : Prop where
  page : cfg.addrAtDescriptor.toNat % 4096 = 0
  size_pos : 0 < cfg.sizeAtDescriptor.toNat
  size_le : cfg.sizeAtDescriptor.toNat ≤ 4096
  dwords : cfg.sizeAtDescriptor.toNat % 4 = 0

namespace Config.OnePage

variable {cfg : Config} (h : cfg.OnePage)

omit h in
theorem mul_toNat {k : Nat} (hk : k * cfg.sizeAtDescriptor.toNat < 2 ^ 64) :
    (BitVec.ofNat 64 k * cfg.sizeAtDescriptor).toNat = k * cfg.sizeAtDescriptor.toNat := by
  rw [BitVec.toNat_mul, BitVec.toNat_ofNat, Nat.mod_mul_mod, Nat.mod_eq_of_lt hk]

include h

theorem seqAddr_toNat {k : Nat} (hk : k * cfg.sizeAtDescriptor.toNat < 4096) :
    (cfg.seqAddr k).toNat = cfg.addrAtDescriptor.toNat + k * cfg.sizeAtDescriptor.toNat := by
  have hlt := cfg.addrAtDescriptor.isLt
  have hpage := h.page
  rw [Config.seqAddr, BitVec.toNat_add, mul_toNat (by omega)]
  omega

/-- The page test of the generator. -/
theorem seqAddr_page {k : Nat} (hk : k * cfg.sizeAtDescriptor.toNat < 2 ^ 63) :
    cfg.seqAddr k >>> 12 = cfg.addrAtDescriptor >>> 12 ↔ k * cfg.sizeAtDescriptor.toNat < 4096 := by
  have hlt := cfg.addrAtDescriptor.isLt
  have hpage := h.page
  rw [← BitVec.toNat_inj, BitVec.toNat_ushiftRight, BitVec.toNat_ushiftRight, Config.seqAddr,
    BitVec.toNat_add, mul_toNat (by omega), Nat.shiftRight_eq_div_pow, Nat.shiftRight_eq_div_pow]
  omega

omit h in
/-- Positions up to the end of the page have addresses of their own. -/
theorem seqAddr_inj (hpos : 0 < cfg.sizeAtDescriptor.toNat) {a b : Nat}
    (ha : a * cfg.sizeAtDescriptor.toNat ≤ 4096) (hb : b * cfg.sizeAtDescriptor.toNat ≤ 4096) :
    cfg.seqAddr a = cfg.seqAddr b ↔ a = b := by
  constructor
  · intro heq
    rw [Config.seqAddr, Config.seqAddr, BitVec.add_right_inj, ← BitVec.toNat_inj,
      mul_toNat (by omega), mul_toNat (by omega)] at heq
    exact Nat.eq_of_mul_eq_mul_right hpos heq
  · rintro rfl
    rfl

/-- Headers carry these addresses unchanged. -/
theorem alignDword_seqAddr (k : Nat) : alignDword (cfg.seqAddr k) = cfg.seqAddr k := by
  have hpage := h.page
  have hsize := h.dwords
  have hmul : k * cfg.sizeAtDescriptor.toNat % 4 = 0 := by
    rw [Nat.mul_mod, hsize, Nat.mul_zero, Nat.zero_mod]
  apply BitVec.eq_of_toNat_eq
  rw [alignDword_toNat, Config.seqAddr, BitVec.toNat_add, BitVec.toNat_mul, BitVec.toNat_ofNat,
    Nat.mod_mul_mod]
  omega

/-- The law puts block `q` at its position in the page. -/
theorem seqSpec_eq (q : Nat) :
    cfg.seqSpec q = cfg.seqAddr (specPos cfg.sizeAtDescriptor.toNat q) := by
  induction q with
  | zero =>
      rw [Config.seqSpec, specPos, Config.seqAddr_zero]
  | succ q ih =>
      have hfits := specPos_fits h.size_le q
      have hpos := h.size_pos
      rw [Nat.add_mul, Nat.one_mul] at hfits
      have hnat := h.seqAddr_toNat (k := specPos cfg.sizeAtDescriptor.toNat q) (by omega)
      have hiff : (specPos cfg.sizeAtDescriptor.toNat q + 2) * cfg.sizeAtDescriptor.toNat ≤ 4096 ↔
          (cfg.seqAddr (specPos cfg.sizeAtDescriptor.toNat q)).toNat +
            2 * cfg.sizeAtDescriptor.toNat ≤ cfg.addrAtDescriptor.toNat + 4096 := by
        rw [hnat, Nat.add_mul]
        omega
      rw [Config.seqSpec, specPos, ih]
      by_cases hnext : (specPos cfg.sizeAtDescriptor.toNat q + 2) * cfg.sizeAtDescriptor.toNat ≤ 4096
      · rw [if_pos (hiff.mp hnext), if_pos hnext, Config.seqAddr_succ]
      · rw [if_neg (fun hc => hnext (hiff.mpr hc)), if_neg hnext, Config.seqAddr_zero]

/-- The registers of the generator after `q` turns. -/
theorem blockRegisters_eq (q : Nat) :
    (cfg.blockRegisters q).initialPage = cfg.addrAtDescriptor >>> 12 ∧
      (cfg.blockRegisters q).txSeq = cfg.seqAddr (codeReg cfg.sizeAtDescriptor.toNat q) ∧
      (cfg.blockRegisters q).nextTxSeq = cfg.seqAddr (codeReg cfg.sizeAtDescriptor.toNat q + 1) := by
  induction q with
  | zero =>
      refine ⟨rfl, ?_, ?_⟩
      · rw [codeReg, Config.seqAddr_one]
        rfl
      · rw [codeReg, Config.seqAddr_two]
        rfl
  | succ q ih =>
      obtain ⟨hpage, -, hnext⟩ := ih
      have hle := codeReg_le h.size_le q
      have hsize := h.size_le
      -- the test looks at the end of the block after the next one
      have htest := h.seqAddr_page (k := codeReg cfg.sizeAtDescriptor.toNat q + 2) (by
        rw [Nat.add_mul]
        omega)
      simp only [Config.blockRegisters, BlockAddr.advance, hpage, hnext, ← Config.seqAddr_succ]
      rw [codeReg]
      by_cases hin : (codeReg cfg.sizeAtDescriptor.toNat q + 2) * cfg.sizeAtDescriptor.toNat < 4096
      · have heq := htest.mpr hin
        rw [if_pos hin, if_neg (not_not.mpr heq), if_neg (not_not.mpr heq)]
        exact ⟨trivial, rfl, rfl⟩
      · have hne := fun heq => hin (htest.mp heq)
        rw [if_neg hin, if_pos hne, if_pos hne, Config.seqAddr_zero, Config.seqAddr_one]
        exact ⟨trivial, rfl, rfl⟩

/-- The generator puts block `q` at its own position. -/
theorem blockAddress_eq (hmode : cfg.addressMode = 1) (q : Nat) :
    cfg.blockAddress q = cfg.seqAddr (codePos cfg.sizeAtDescriptor.toNat q) := by
  cases q with
  | zero =>
      rw [Config.blockAddress, codePos, Config.seqAddr_zero]
  | succ q =>
      have hne : ¬ cfg.addressMode = 0 := by
        rw [hmode]
        decide
      rw [Config.blockAddress, Config.nextBase, if_neg hne, (h.blockRegisters_eq q).2.1, codePos]

theorem alignDword_blockAddress_iff (hmode : cfg.addressMode = 1) (q : Nat) :
    alignDword (cfg.blockAddress q) = alignDword (cfg.seqSpec q) ↔
      codePos cfg.sizeAtDescriptor.toNat q = specPos cfg.sizeAtDescriptor.toNat q := by
  have hspec := specPos_fits h.size_le q
  rw [Nat.add_mul] at hspec
  rw [h.blockAddress_eq hmode, h.seqSpec_eq, h.alignDword_seqAddr, h.alignDword_seqAddr,
    seqAddr_inj h.size_pos (codePos_le h.size_le q) (by omega)]

end Config.OnePage

/-! ## Every operation -/

/-- All blocks of both directions follow the sequential pattern. -/
def SequentialLaw (P : Params) (cfg : Config) (l : List Sent) : Prop :=
  BlocksStartAt (cfg.perBlock P) cfg.seqSpec (writeHeaders l) ∧
    BlocksStartAt (cfg.perBlock P) cfg.seqSpec (readHeaders l)

/-- The blocks of one direction follow the pattern as long as none is out of place. -/
theorem BlocksStartAt.sequential_iff {P : Params} {cfg : Config} {hs : List Sent} (hcfg : cfg.OnePage)
    (hmode : cfg.addressMode = 1) (h : BlocksStartAt (cfg.perBlock P) cfg.blockAddress hs) :
    BlocksStartAt (cfg.perBlock P) cfg.seqSpec hs ↔
      NeverFlush cfg.sizeAtDescriptor.toNat ∨
        hs.length ≤ firstWrong cfg.sizeAtDescriptor.toNat * cfg.perBlock P := by
  have hn := cfg.perBlock_pos P
  have hiff := hcfg.alignDword_blockAddress_iff hmode
  by_cases hflush : NeverFlush cfg.sizeAtDescriptor.toNat
  · refine ⟨fun _ => .inl hflush, ?_⟩
    rintro - q x hx
    rw [h q x hx, hiff]
    exact codePos_of_neverFlush hflush q
  · obtain ⟨hright, hwrong⟩ := codePos_firstWrong hcfg.size_pos hflush
    constructor
    · intro hlaw
      right
      by_contra hlong
      have hx := List.getElem?_eq_getElem (l := hs) (Nat.lt_of_not_le hlong)
      have heq := (h _ _ hx).symm.trans (hlaw _ _ hx)
      exact hwrong ((hiff _).mp heq)
    · rintro (hbad | hlong) q x hx
      · exact absurd hbad hflush
      · have hq : q * cfg.perBlock P < firstWrong cfg.sizeAtDescriptor.toNat * cfg.perBlock P :=
          Nat.lt_of_lt_of_le (List.getElem?_eq_some_iff.mp hx).1 hlong
        rw [h q x hx, hiff]
        exact hright q (Nat.lt_of_mul_lt_mul_right hq)

/-- In the sequential pattern the blocks fill the page as they should exactly if no block can end with
the page and two of them fit into it, or if the operation does not come to the first block that is out of
place. -/
theorem sequential_pattern {P : Params} {inp : Run P} {cfg : Config} {start stop : Nat}
    (op : Operation inp cfg start stop) (hmode : cfg.addressMode = 1) (hcfg : cfg.OnePage) (t : Nat)
    (hat : start < t) (htb : t ≤ stop) :
    SequentialLaw P cfg (Operation.beats inp start t) ↔
      NeverFlush cfg.sizeAtDescriptor.toNat ∨
        ((writeHeaders (Operation.beats inp start t)).length ≤
            firstWrong cfg.sizeAtDescriptor.toNat * cfg.perBlock P ∧
          (readHeaders (Operation.beats inp start t)).length ≤
            firstWrong cfg.sizeAtDescriptor.toNat * cfg.perBlock P) := by
  obtain ⟨hwrites, hreads⟩ := op.blocksStartAt (.inr hmode) hat htb
  rw [SequentialLaw, hwrites.sequential_iff hcfg hmode, hreads.sequential_iff hcfg hmode, or_and_left]

/-! ## Blocks of more than half a page -/

/-- Memory reads in the sequential pattern, six requests. -/
def sequentialConfig (size : BitVec 64) : Config :=
  { readConfig size with addressMode := 1, numberTlps := 6 }

theorem sequentialConfig_operation (size : BitVec 64)
    (hidle : (st (steady (sequentialConfig size)) 4).wrState = .idle)
    (hbusy : ∀ t, t < 11 → 4 < t → (st (steady (sequentialConfig size)) t).wrState ≠ .idle) :
    Operation (steady (sequentialConfig size)) (sequentialConfig size) 4 11 :=
  steady_operation (by decide) hidle hbusy (hbusy 5 (by decide) (by decide))

theorem sequential_pattern_twelve :
    SequentialLaw pcieController (sequentialConfig 12)
      (Operation.beats (steady (sequentialConfig 12)) 4 11) :=
  (sequential_pattern (sequentialConfig_operation 12 (by decide +kernel) (by decide +kernel)) rfl
    ⟨by decide, by decide, by decide, by decide⟩ 11 (by decide) (by decide)).mpr (.inl (by decide))

/-- A block of 2052 bytes takes five requests; the sixth one is behind it and not at the start of the
page. -/
theorem second_block_leaves_page :
    Operation (steady (sequentialConfig 2052)) (sequentialConfig 2052) 4 11 ∧
      (sequentialConfig 2052).OnePage ∧
      (readHeaders (Operation.beats (steady (sequentialConfig 2052)) 4 11)).map
          (fun x => x.beat.addr) =
        [0x100000, 0x100200, 0x100400, 0x100600, 0x100800, 0x100804] ∧
      ¬ SequentialLaw pcieController (sequentialConfig 2052)
        (Operation.beats (steady (sequentialConfig 2052)) 4 11) := by
  have haddrs : (readHeaders (Operation.beats (steady (sequentialConfig 2052)) 4 11)).map
      (fun x => x.beat.addr) =
        [0x100000, 0x100200, 0x100400, 0x100600, 0x100800, 0x100804] := by decide +kernel
  refine ⟨sequentialConfig_operation 2052 (by decide +kernel) (by decide +kernel),
    ⟨by decide, by decide, by decide, by decide⟩, haddrs, ?_⟩
  intro hlaw
  have hcount : 1 * (sequentialConfig 2052).perBlock pcieController = 5 := by decide +kernel
  have hsixth : ((readHeaders (Operation.beats (steady (sequentialConfig 2052)) 4 11)).map
      (fun x => x.beat.addr))[5]? = some 0x100804 := by rw [haddrs]; rfl
  rw [List.getElem?_map, Option.map_eq_some_iff] at hsixth
  obtain ⟨x, hx, haddr⟩ := hsixth
  have hspec := hlaw.2 1 x (by rw [hcount]; exact hx)
  rw [haddr] at hspec
  revert hspec
  decide +kernel

end Rq
end PcieBench
