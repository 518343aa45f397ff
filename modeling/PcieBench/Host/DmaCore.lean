import PcieBench.Completer.Registers

/-!
# struct dma_core

The driver reaches the registers of the core through a packed struct over BAR 0.  This module lays it out
as the compiler does and takes the address of a field through `pcie_completer_to_bram` and
`dma_sriov_top`.  The padding behind the descriptors is four words too long in each engine, so the struct
finds the common block eight words behind its place.
-/

namespace PcieBench
namespace Host
namespace RegisterMap

open Clocked Tlp
open Bar0 (wordAddr)
open Manager (HostAccess Index)

/-! ## Packed structs -/

/-- The members of a packed struct in their order, with their bits. -/
abbrev Layout (α : Type) := List (α × Nat)

namespace Layout

variable {α : Type} [DecidableEq α]

/-- The bits of the struct. -/
def bits (l : Layout α) : Nat := (l.map Prod.snd).sum

/-- The bits in front of a member. -/
def offset (l : Layout α) (m : α) : Nat := bits (l.takeWhile (fun x => decide (x.1 ≠ m)))

/-- The bits of a member. -/
def width (l : Layout α) (m : α) : Nat := ((l.find? (fun x => decide (x.1 = m))).map Prod.snd).getD 0

end Layout

inductive DescriptorMember
  | address
  | size
  | generateIrq
  | u0
  | latency
  | timeAtReq
  | timeAtComp
  | bytesAtReq
  | bytesAtComp
  deriving DecidableEq, Repr

inductive EngineMember
  | enable
  | reset
  | isC2s
  | isS2c
  | addressMode
  | u0
  | completeUntilDescriptor
  | u1
  | u2
  | totalTime
  | totalBytes
  | hostBufferSize
  | addressOffset
  | addressInc
  | numberOfTlps
  | dmaDescriptor
  | u4
  deriving DecidableEq, Repr

inductive CommonMember
  | maxPayload
  | maxReadRequest
  | irqEnable
  | userReset
  | engineFinished
  | u0
  deriving DecidableEq, Repr

/-- `MAX_NUM_DMA_DESCRIPTORS`, `MAX_NUM_DMA_ENGINES` and `OFFSET_BETWEEN_ENGINES`. -/
def maxNumDmaDescriptors : Nat := 1024

def maxNumDmaEngines : Nat := 2

def offsetBetweenEngines : Nat := 0x4000

/-- `DMA_OFFSET`, in words. -/
def dmaOffset : Nat := 0x200

/-- `struct dma_descriptor`. -/
def dmaDescriptor : Layout DescriptorMember :=
  [(.address, 64), (.size, 64), (.generateIrq, 1), (.u0, 63), (.latency, 64), (.timeAtReq, 64),
    (.timeAtComp, 64), (.bytesAtReq, 64), (.bytesAtComp, 64)]

/-- `struct dma_engine`.  The padding makes up for four words in front of the descriptors; there are
eight. -/
def dmaEngine : Layout EngineMember :=
  [(.enable, 1), (.reset, 1), (.isC2s, 1), (.isS2c, 1), (.addressMode, 2), (.u0, 58),
    (.completeUntilDescriptor, 16), (.u1, 16), (.u2, 32), (.totalTime, 64), (.totalBytes, 64),
    (.hostBufferSize, 64), (.addressOffset, 64), (.addressInc, 64), (.numberOfTlps, 64),
    (.dmaDescriptor, maxNumDmaDescriptors * dmaDescriptor.bits),
    (.u4, 64 * (offsetBetweenEngines - 4 - maxNumDmaDescriptors * (dmaDescriptor.bits / 8) / 8))]

/-- `struct dma_common_block`. -/
def dmaCommonBlock : Layout CommonMember :=
  [(.maxPayload, 3), (.maxReadRequest, 3), (.irqEnable, 1), (.userReset, 1), (.engineFinished, 16),
    (.u0, 32)]

/-! ## The fields of struct dma_core -/

/-- The fields of `struct dma_core` for engine 0 and the common block behind the engines. -/
inductive Field
  | engine (m : EngineMember)
  | descriptor (j : Index) (m : DescriptorMember)
  | common (m : CommonMember)
  deriving DecidableEq, Repr

namespace Field

/-- The bits in front of a field. -/
def bitOffset : Field → Nat
  | .engine m => dmaEngine.offset m
  | .descriptor j m =>
      dmaEngine.offset .dmaDescriptor + j.toNat * dmaDescriptor.bits + dmaDescriptor.offset m
  | .common m => maxNumDmaEngines * dmaEngine.bits + dmaCommonBlock.offset m

/-- The word of BAR 0 with the field, `DMA_OFFSET + offsetof(field) / 8`. -/
def word (f : Field) : Nat := dmaOffset + f.bitOffset / 64

/-- The first bit of the field in its word. -/
def bit (f : Field) : Nat := f.bitOffset % 64

def width : Field → Nat
  | .engine m => dmaEngine.width m
  | .descriptor _ m => dmaDescriptor.width m
  | .common m => dmaCommonBlock.width m

end Field

/-! ## Addresses -/

/-- The request addresses the word of the field; BAR 0 has 16 MB and is aligned to its size. -/
def Field.Addressed (f : Field) (b : CqBeat) : Prop :=
  ∃ bar, bar % 2 ^ 24 = 0 ∧ b.addr.toNat / 2 = bar / 8 + f.word

theorem bitOffset_descriptor (j : Index) (m : DescriptorMember) :
    (Field.descriptor j m).bitOffset = 512 + j.toNat * 512 + dmaDescriptor.offset m := by
  have hstart : dmaEngine.offset .dmaDescriptor = 512 := by decide
  have hbits : dmaDescriptor.bits = 512 := by decide
  rw [Field.bitOffset, hstart, hbits]

/-- The words of the descriptors. -/
theorem word_descriptor (j : Index) (m : DescriptorMember) :
    (Field.descriptor j m).word = 0x208 + 8 * j.toNat + dmaDescriptor.offset m / 64 := by
  rw [Field.word, bitOffset_descriptor, dmaOffset]
  omega

theorem bit_descriptor (j : Index) (m : DescriptorMember) :
    (Field.descriptor j m).bit = dmaDescriptor.offset m % 64 := by
  rw [Field.bit, bitOffset_descriptor]
  omega

/-- Every field lies in the sixteen bits of the address that the core looks at, behind the words that
`dma_sriov_top` keeps. -/
theorem Field.word_bounds (f : Field) : 0x200 ≤ f.word ∧ f.word < 2 ^ 16 := by
  cases f with
  | engine m =>
      cases m <;> decide
  | common m =>
      cases m <;> decide
  | descriptor j m =>
      have hj := j.isLt
      have hoffset : dmaDescriptor.offset m / 64 < 8 := by cases m <;> decide
      rw [word_descriptor]
      omega

/-- The address of a request on its way through the completer. -/
theorem Field.Addressed.wordAddr_toNat {f : Field} {b : CqBeat} (h : f.Addressed b) :
    (wordAddr b).toNat = f.word := by
  obtain ⟨bar, hbar, haddr⟩ := h
  have hbounds := f.word_bounds
  have hsplit : (wordAddr b).toNat = b.addr.toNat / 2 % 2 ^ 16 := by
    rw [wordAddr, BitVec.toNat_setWidth, BitVec.toNat_setWidth, BitVec.extractLsb'_toNat,
      Nat.shiftRight_eq_div_pow]
    omega
  rw [hsplit, haddr]
  omega

theorem Field.Addressed.forwarded {f : Field} {b : CqBeat} (h : f.Addressed b) :
    Bar0.forwarded b = true := by
  have hbounds := f.word_bounds
  have htable : Manager.engineTableOffset.toNat = 0x200 := rfl
  rw [Bar0.forwarded, decide_eq_true_eq, BitVec.le_def, h.wordAddr_toNat, htable]
  exact hbounds.1

theorem word_toNat (h : HostAccess) : h.word.toNat = h.addr.toNat := by
  have hlt := h.addr.isLt
  rw [HostAccess.word, BitVec.toNat_setWidth]
  omega

/-- The access has the address of the field. -/
theorem Field.Addressed.addr_toNat {f : Field} {b : CqBeat} (hb : f.Addressed b) {h : HostAccess}
    (hword : h.word = wordAddr b) : h.addr.toNat = f.word := by
  rw [← word_toNat, hword, hb.wordAddr_toNat]

/-- A request for the word of a field. -/
def Field.request (f : Field) : CqBeat :=
  requestBeat memWrReq 0 7 1 (BitVec.ofNat 62 (2 * f.word)) 0x0f

theorem Field.request_addr (f : Field) : f.request.addr = BitVec.ofNat 62 (2 * f.word) := by
  apply BitVec.eq_of_getLsbD_eq
  intro k hk
  simp only [Field.request, requestBeat, CqBeat.addr, BitVec.getLsbD_extractLsb', BitVec.getLsbD_append]
  simp [hk, show ¬ 2 + k < 2 by omega]

theorem Field.request_addressed (f : Field) : f.Addressed f.request := by
  have hbounds := f.word_bounds
  refine ⟨0, by decide, ?_⟩
  rw [f.request_addr, BitVec.toNat_ofNat]
  omega

theorem Field.wordAddr_request {f : Field} {a : BitVec 16} (ha : a.toNat = f.word) :
    wordAddr f.request = a.setWidth 32 := by
  apply BitVec.eq_of_toNat_eq
  rw [f.request_addressed.wordAddr_toNat, BitVec.toNat_setWidth, ← ha]
  omega

end RegisterMap
end Host
end PcieBench
