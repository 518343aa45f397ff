import PcieBench.Rq.Blocks

/-!
# The base addresses of the blocks

The first block of an operation is at `ADDR_AT_DESCRIPTOR`.  The later ones come from one of three
generators: a fixed offset, consecutive blocks that start over before they leave the initial page, or
a random offset.  This module says what the registers of the generators hold while an operation runs,
with the random offsets left to a predicate on `random.addressWr` and `random.addressRd`.
-/

namespace PcieBench
namespace Rq

open Clocked Tlp

section Addresses

variable {P : Params}

/-! ## One direction -/

/-- The address of block `k` when the blocks follow each other. -/
def Config.seqAddr (cfg : Config) (k : Nat) : BitVec 64 :=
  cfg.addrAtDescriptor + BitVec.ofNat 64 k * cfg.sizeAtDescriptor

theorem Config.seqAddr_succ (cfg : Config) (k : Nat) :
    cfg.seqAddr (k + 1) = cfg.seqAddr k + cfg.sizeAtDescriptor := by
  rw [seqAddr, seqAddr, BitVec.ofNat_add, BitVec.add_mul, BitVec.add_assoc]
  congr 2
  exact BitVec.one_mul _

theorem Config.seqAddr_zero (cfg : Config) : cfg.seqAddr 0 = cfg.addrAtDescriptor := by
  rw [seqAddr]
  simp

theorem Config.seqAddr_one (cfg : Config) :
    cfg.seqAddr 1 = cfg.addrAtDescriptor + cfg.sizeAtDescriptor := by
  rw [cfg.seqAddr_succ 0, seqAddr_zero]

theorem Config.seqAddr_two (cfg : Config) :
    cfg.seqAddr 2 = cfg.addrAtDescriptor + (cfg.sizeAtDescriptor <<< 1) := by
  have hdouble : cfg.sizeAtDescriptor <<< 1 = cfg.sizeAtDescriptor + cfg.sizeAtDescriptor := by
    apply BitVec.eq_of_toNat_eq
    rw [BitVec.toNat_shiftLeft, BitVec.toNat_add, Nat.shiftLeft_eq]
    omega
  rw [cfg.seqAddr_succ 1, seqAddr_one, hdouble, BitVec.add_assoc]

/-- From the third block on every sequential block up to block `k` ends inside the initial page, and so
does the byte behind it. -/
def Config.InPage (cfg : Config) (k : Nat) : Prop :=
  ∀ j, 2 ≤ j → j ≤ k → cfg.seqAddr (j + 1) >>> 12 = cfg.addrAtDescriptor >>> 12

/-- What the block registers of a direction hold while an operation runs; `random` is what is known
of the random offsets. -/
structure BlockAddr.Inv (b : BlockAddr) (cfg : Config) (random : BitVec 64 → Prop) : Prop where
  initialPage : b.initialPage = cfg.addrAtDescriptor >>> 12
  seq : ∃ k, b.txSeq = cfg.seqAddr k ∧ b.nextTxSeq = cfg.seqAddr (k + 1) ∧ cfg.InPage k
  random : ∃ r, random r ∧ b.txRand = cfg.addrAtDescriptor + r

theorem BlockAddr.inv_prepare (starts : Bool) (cfg : Config) {random : BitVec 64 → Prop}
    {r : BitVec 64} (hr : random r) : (BlockAddr.prepare starts cfg r).Inv cfg random := by
  refine ⟨rfl, ?_, r, hr, rfl⟩
  cases starts with
  | false =>
      refine ⟨0, ?_, ?_, fun j h2 h0 => by omega⟩
      · rw [Config.seqAddr_zero]
        rfl
      · rw [Config.seqAddr_one]
        rfl
  | true =>
      refine ⟨1, ?_, ?_, fun j h2 h1 => by omega⟩
      · rw [Config.seqAddr_one]
        rfl
      · rw [Config.seqAddr_two]
        rfl

theorem BlockAddr.Inv.advance {b : BlockAddr} {cfg : Config} {random : BitVec 64 → Prop}
    (h : b.Inv cfg random) {r : BitVec 64} (hr : random r) : (b.advance cfg r).Inv cfg random := by
  obtain ⟨k, -, hnext, hbefore⟩ := h.seq
  refine ⟨h.initialPage, ?_, r, hr, rfl⟩
  simp only [BlockAddr.advance, hnext, ← Config.seqAddr_succ, h.initialPage]
  by_cases hpage : cfg.seqAddr (k + 2) >>> 12 = cfg.addrAtDescriptor >>> 12
  · -- the block after the next one still fits
    refine ⟨k + 1, ?_, ?_, ?_⟩
    · rw [if_neg (not_not.mpr hpage)]
    · rw [if_neg (not_not.mpr hpage)]
    · intro j h2 hj
      rcases Nat.eq_or_lt_of_le hj with rfl | hlt
      · exact hpage
      · exact hbefore j h2 (by omega)
  · refine ⟨0, ?_, ?_, fun j h2 h0 => by omega⟩
    · rw [if_pos hpage, Config.seqAddr_zero]
    · rw [if_pos hpage, Config.seqAddr_one]

/-- Block registers that agree up to the random generator. -/
structure BlockAddr.Agrees (b b' : BlockAddr) : Prop where
  initialPage : b.initialPage = b'.initialPage
  txSeq : b.txSeq = b'.txSeq
  nextTxSeq : b.nextTxSeq = b'.nextTxSeq

theorem BlockAddr.prepare_agrees (starts : Bool) (cfg : Config) (r r' : BitVec 64) :
    (BlockAddr.prepare starts cfg r).Agrees (BlockAddr.prepare starts cfg r') :=
  ⟨rfl, rfl, rfl⟩

theorem BlockAddr.Agrees.advance {b b' : BlockAddr} (h : b.Agrees b') (cfg : Config)
    (r r' : BitVec 64) : (b.advance cfg r).Agrees (b'.advance cfg r') := by
  constructor
  · exact h.initialPage
  · simp only [BlockAddr.advance, h.initialPage, h.nextTxSeq]
  · simp only [BlockAddr.advance, h.initialPage, h.nextTxSeq]

/-- The address that follows a block of a fixed or sequential pattern. -/
def Config.nextBase (cfg : Config) (b : BlockAddr) : BitVec 64 :=
  if cfg.addressMode = 0 then cfg.addrAtDescriptor + cfg.addressGenOffset else b.txSeq

/-- The multiplexer of a direction whose registers agree with `b'` up to the random generator. -/
theorem BlockAddr.Agrees.nextBase {b b' : BlockAddr} (h : b.Agrees b') {cfg : Config}
    (hmode : cfg.addressMode = 0 ∨ cfg.addressMode = 1) {txFix : BitVec 64}
    (hfix : txFix = cfg.addrAtDescriptor + cfg.addressGenOffset) :
    (if cfg.addressMode = 0 then txFix else if cfg.addressMode = 1 then b.txSeq else b.txRand) =
      cfg.nextBase b' := by
  rw [Config.nextBase]
  rcases hmode with h0 | h1
  · rw [if_pos h0, if_pos h0]
    exact hfix
  · have hne : ¬ cfg.addressMode = 0 := by
      rw [h1]
      decide
    rw [if_neg hne, if_neg hne, if_pos h1]
    exact h.txSeq

/-- The base address of a block after the first one, according to the address mode. -/
def IsBase (cfg : Config) (random : BitVec 64 → Prop) (x : BitVec 64) : Prop :=
  if cfg.addressMode = 0 then x = cfg.addrAtDescriptor + cfg.addressGenOffset
  else if cfg.addressMode = 1 then ∃ k, x = cfg.seqAddr k ∧ cfg.InPage k
  else ∃ r, random r ∧ x = cfg.addrAtDescriptor + r

theorem BlockAddr.Inv.isBase {b : BlockAddr} {cfg : Config} {random : BitVec 64 → Prop}
    (h : b.Inv cfg random) {txFix : BitVec 64}
    (hfix : txFix = cfg.addrAtDescriptor + cfg.addressGenOffset) :
    IsBase cfg random (if cfg.addressMode = 0 then txFix
      else if cfg.addressMode = 1 then b.txSeq else b.txRand) := by
  unfold IsBase
  split
  · exact hfix
  · split
    · obtain ⟨k, hseq, -, hpage⟩ := h.seq
      exact ⟨k, hseq, hpage⟩
    · exact h.random

/-! ## Along an operation -/

/-- The random offsets that an operation can use: those of its start and of its busy cycles. -/
def RandomOk (inp : Run P) (start stop : Nat) (random : BitVec 64 → Prop) : Prop :=
  ∀ t, start ≤ t → t < stop → t = start ∨ (st inp t).wrState ≠ .idle →
    random (st inp t).random.addressWr ∧ random (st inp t).random.addressRd

namespace Operation

variable {inp : Run P} {cfg : Config} {start stop : Nat}

theorem blockAddr_inv (op : Operation inp cfg start stop) {random : BitVec 64 → Prop}
    (hrandom : RandomOk inp start stop random) :
    ∀ t, start < t → t ≤ stop → (st inp t).wrState ≠ .idle →
      (st inp t).wrBlock.Inv cfg random ∧ (st inp t).rdBlock.Inv cfg random := by
  refine op.induction ?_ ?_ ?_
  · intro _
    have hcfg := op.stable start (Nat.le_refl _) op.start_lt (.inl rfl)
    obtain ⟨hwr, hrd⟩ := hrandom start (Nat.le_refl _) op.start_lt (.inl rfl)
    simp only [st_succ, step_wrBlock, step_rdBlock, nextWrBlock, nextRdBlock, op.idle, hcfg]
    exact ⟨BlockAddr.inv_prepare _ cfg hwr, BlockAddr.inv_prepare _ cfg hrd⟩
  · intro t hat htb hs hcfg ih _
    obtain ⟨hwr, hrd⟩ := ih hs
    obtain ⟨hrwr, hrrd⟩ := hrandom t (by omega) htb (.inr hs)
    rw [st_succ]
    rcases busy_cases (inp t) hs with hm | hm | hm | hm | hm | hm
    · -- a stall leaves the registers alone
      rw [hm.wrBlock, hm.rdBlock]
      exact ⟨hwr, hrd⟩
    · -- the header of a memory write
      rw [hm.wrBlock, hm.rdBlock]
      exact ⟨hwr, hrd⟩
    · -- a payload beat in the middle of a TLP
      rw [hm.wrBlock, hm.rdBlock]
      exact ⟨hwr, hrd⟩
    · -- the last beat of a memory write
      rw [hm.wrBlock, hm.rdBlock, hcfg]
      refine ⟨?_, hrd⟩
      split
      · exact hwr.advance hrwr
      · exact hwr
    · -- a memory read request
      rw [hm.wrBlock, hm.rdBlock, hcfg]
      refine ⟨hwr, ?_⟩
      split
      · exact hrd.advance hrrd
      · exact hrd
    · -- the end of the operation
      rw [hm.wrBlock, hm.rdBlock]
      exact ⟨hwr, hrd⟩
  · intro t hat htb hs hs' _ hbusy
    exact absurd hs' hbusy

/-- While an operation runs the registers of the fixed pattern hold its address. -/
theorem txFix_eq (op : Operation inp cfg start stop) {t : Nat} (hat : start < t) (htb : t ≤ stop)
    (hs : (st inp t).wrState ≠ .idle) :
    (st inp t).txFixWr = cfg.addrAtDescriptor + cfg.addressGenOffset ∧
      (st inp t).txFixRd = cfg.addrAtDescriptor + cfg.addressGenOffset := by
  obtain ⟨u, rfl⟩ : ∃ u, t = u + 1 := ⟨t - 1, by omega⟩
  have hcfg := op.cfg_before (show start ≤ u by omega) (by omega) hs
  constructor
  · rw [st_succ, step_txFixWr, hcfg]
  · rw [st_succ, step_txFixRd, hcfg]

/-- While an operation runs the address of the next block is a base address in both directions. -/
theorem isBase (op : Operation inp cfg start stop) {random : BitVec 64 → Prop}
    (hrandom : RandomOk inp start stop random) {t : Nat} (hat : start < t) (htb : t < stop)
    (hs : (st inp t).wrState ≠ .idle) :
    IsBase cfg random ((st inp t).txWrAddr cfg) ∧ IsBase cfg random ((st inp t).txRdAddr cfg) := by
  obtain ⟨hwr, hrd⟩ := op.blockAddr_inv hrandom t hat (by omega) hs
  obtain ⟨hfixwr, hfixrd⟩ := op.txFix_eq hat (by omega) hs
  exact ⟨hwr.isBase hfixwr, hrd.isBase hfixrd⟩

end Operation

/-- Block 0 is at the address of the descriptor, the others are where the generators put them. -/
def BlockBase (cfg : Config) (random : BitVec 64 → Prop) (q : Nat) (x : BitVec 64) : Prop :=
  if q = 0 then x = cfg.addrAtDescriptor else IsBase cfg random x

/-- The headers of both directions form blocks at the addresses of the configuration. -/
structure BuiltFrom (P : Params) (cfg : Config) (random : BitVec 64 → Prop) (l : List Sent) :
    Prop where
  writes : (wrBlocks P cfg (BlockBase cfg random)).Tiles (writeHeaders l)
  reads : (rdBlocks P cfg (BlockBase cfg random)).Tiles (readHeaders l)

/-- Everything an operation sends is built from its configuration. -/
theorem Operation.builtFrom {inp : Run P} {cfg : Config} {start stop : Nat}
    (op : Operation inp cfg start stop) {random : BitVec 64 → Prop}
    (hrandom : RandomOk inp start stop random) {t : Nat} (hat : start < t) (htb : t ≤ stop) :
    BuiltFrom P cfg random (Operation.beats inp start t) := by
  have hfirst : BlockBase cfg random 0 cfg.addrAtDescriptor := by
    rw [BlockBase, if_pos rfl]
  have hlater : ∀ q {x}, IsBase cfg random x → BlockBase cfg random (q + 1) x := by
    intro q x hx
    rw [BlockBase, if_neg (Nat.succ_ne_zero q)]
    exact hx
  constructor
  · exact op.writes_tile _ hfirst (fun _ hu hu' hs _ _ => hlater _ (op.isBase hrandom hu hu' hs).1)
      hat htb
  · exact op.reads_tile _ hfirst (fun _ hu hu' hs => hlater _ (op.isBase hrandom hu hu' hs).2)
      hat htb

end Addresses

end Rq
end PcieBench
