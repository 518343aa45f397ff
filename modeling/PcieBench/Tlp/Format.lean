import Mathlib.Data.BitVec

/-!
# The AXI-Stream format of requester TLPs

One beat of the RQ stream carries 256 bits, eight `TKEEP` bits (one per dword), `TLAST` and the byte
enables in `TUSER`.  The first beat of a request has its descriptor in `TDATA[127:0]`; a memory write
continues with its payload, four dwords in the same beat and eight in each following one.
-/

namespace PcieBench
namespace Tlp

/-! ## Beats -/

/-- One beat of the requester stream; the lanes are `TDATA[255:128]` and `TDATA[127:0]`. -/
structure Beat where
  tdataHi : BitVec 128
  tdataLo : BitVec 128
  tkeep : BitVec 8
  tlast : Bool
  firstBe : BitVec 4
  lastBe : BitVec 4
  deriving DecidableEq, Repr

/-- The number of dwords a `TKEEP` value enables. -/
def popcount (keep : BitVec 8) : Nat :=
  (keep.getLsbD 0).toNat + (keep.getLsbD 1).toNat + (keep.getLsbD 2).toNat + (keep.getLsbD 3).toNat +
    (keep.getLsbD 4).toNat + (keep.getLsbD 5).toNat + (keep.getLsbD 6).toNat +
    (keep.getLsbD 7).toNat

/-! ## Request descriptors -/

/-- The request types the core uses. -/
def memoryRead : BitVec 4 := 0
def memoryWrite : BitVec 4 := 1

/-- The descriptor lane of a request: no ECRC, attributes and traffic class 0, the endpoint's own
requester ID, and an untranslated address without its two low bits. -/
def packDescriptor (tag : BitVec 8) (reqType : BitVec 4) (dwords : BitVec 11) (addr : BitVec 64) :
    BitVec 128 :=
  0#1 ++ 0#3 ++ 0#3 ++ 0#1 ++ 0#16 ++ tag ++ 0#16 ++ 0#1 ++ reqType ++ dwords ++
    addr.extractLsb' 2 62 ++ 0#2

namespace Beat

variable (b : Beat)

/-- The byte address in the descriptor. -/
def addr : BitVec 64 := b.tdataLo.extractLsb' 2 62 ++ 0#2

def dwords : BitVec 11 := b.tdataLo.extractLsb' 64 11

def reqType : BitVec 4 := b.tdataLo.extractLsb' 75 4

def tag : BitVec 8 := b.tdataLo.extractLsb' 96 8

end Beat

/-! ## Reading a packed descriptor back -/

section Pack

variable (tag : BitVec 8) (reqType : BitVec 4) (dwords : BitVec 11) (addr : BitVec 64)

theorem packDescriptor_addr :
    (packDescriptor tag reqType dwords addr).extractLsb' 2 62 = addr.extractLsb' 2 62 := by
  apply BitVec.eq_of_getLsbD_eq
  intro k hk
  simp only [packDescriptor, BitVec.getLsbD_extractLsb', BitVec.getLsbD_append, hk]
  grind

theorem packDescriptor_dwords :
    (packDescriptor tag reqType dwords addr).extractLsb' 64 11 = dwords := by
  apply BitVec.eq_of_getLsbD_eq
  intro k hk
  simp only [packDescriptor, BitVec.getLsbD_extractLsb', BitVec.getLsbD_append, hk]
  grind

theorem packDescriptor_reqType :
    (packDescriptor tag reqType dwords addr).extractLsb' 75 4 = reqType := by
  apply BitVec.eq_of_getLsbD_eq
  intro k hk
  simp only [packDescriptor, BitVec.getLsbD_extractLsb', BitVec.getLsbD_append, hk]
  grind

theorem packDescriptor_tag :
    (packDescriptor tag reqType dwords addr).extractLsb' 96 8 = tag := by
  apply BitVec.eq_of_getLsbD_eq
  intro k hk
  simp only [packDescriptor, BitVec.getLsbD_extractLsb', BitVec.getLsbD_append, hk]
  grind

end Pack

end Tlp
end PcieBench
