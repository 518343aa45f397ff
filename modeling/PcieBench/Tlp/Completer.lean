import Mathlib.Data.BitVec

/-!
# The AXI-Stream format of completer TLPs

A request of the host arrives as one beat of the CQ stream: a descriptor in `TDATA[127:0]`, the first
dwords of the payload above it, and the byte enables and the start of the packet in `TUSER`.  A
completion leaves as one beat of the CC stream with a descriptor of three dwords.  Both completers of
the design read and build them with the same layout.
-/

namespace PcieBench
namespace Tlp

/-! ## Requests -/

/-- One beat of the completer request stream.  `TKEEP` and `TLAST` are not read by the completers. -/
structure CqBeat where
  tdata : BitVec 256
  tuser : BitVec 85
  tvalid : Bool
  deriving DecidableEq, Repr

namespace CqBeat

variable (b : CqBeat)

def addressType : BitVec 2 := b.tdata.extractLsb' 0 2

/-- The dword address. -/
def addr : BitVec 62 := b.tdata.extractLsb' 2 62

def dwordCnt : BitVec 11 := b.tdata.extractLsb' 64 11

def reqType : BitVec 4 := b.tdata.extractLsb' 75 4

def reqrId : BitVec 16 := b.tdata.extractLsb' 80 16

def tag : BitVec 8 := b.tdata.extractLsb' 96 8

def barId : BitVec 3 := b.tdata.extractLsb' 112 3

def tc : BitVec 3 := b.tdata.extractLsb' 121 3

def attr : BitVec 3 := b.tdata.extractLsb' 124 3

/-- The first two dwords of the payload. -/
def data : BitVec 64 := b.tdata.extractLsb' 128 64

def firstBe : BitVec 4 := b.tuser.extractLsb' 0 4

def lastBe : BitVec 4 := b.tuser.extractLsb' 4 4

def sop : Bool := b.tuser.getLsbD 40

def discontinue : Bool := b.tuser.getLsbD 41

/-- The first beat of a packet that the core does not take back. -/
def starts : Bool := b.sop && !b.discontinue && b.tvalid

end CqBeat

/-- The request types that the completers know, `C_MEM_RD_REQ` and `C_MEM_WR_REQ`. -/
def memRdReq : BitVec 4 := 0
def memWrReq : BitVec 4 := 1

/-- A beat with these fields, for a request of one function without payload. -/
def requestBeat (reqType : BitVec 4) (barId : BitVec 3) (tag : BitVec 8) (dwordCnt : BitVec 11)
    (addr : BitVec 62) (be : BitVec 8) : CqBeat where
  tdata := 0#128 ++ 0#13 ++ barId ++ 0#8 ++ tag ++ 0#16 ++ 0#1 ++ reqType ++ dwordCnt ++ addr ++ 0#2
  tuser := 0#44 ++ 1#1 ++ 0#32 ++ be
  tvalid := true

/-- A cycle without a request. -/
def noRequest : CqBeat where
  tdata := 0
  tuser := 0
  tvalid := false

/-! ## Completions -/

/-- The fields of a completion descriptor that are not constant. -/
structure CplHeader where
  lowerAddr : BitVec 7
  addressType : BitVec 2
  byteCnt : BitVec 13
  dwordCnt : BitVec 11
  reqrId : BitVec 16
  tag : BitVec 8
  tc : BitVec 3
  attr : BitVec 3
  deriving DecidableEq, Repr

/-- `s_axis_cc_tdata`: the descriptor of a successful completion and up to two dwords. -/
def packCompletion (h : CplHeader) (data : BitVec 64) : BitVec 256 :=
  0#96 ++ data ++ 0#1 ++ h.attr ++ h.tc ++ 0#1 ++ 0#16 ++ h.tag ++ h.reqrId ++ 0#1 ++ 0#1 ++ 0#3 ++
    h.dwordCnt ++ 0#2 ++ 0#1 ++ h.byteCnt ++ 0#6 ++ h.addressType ++ 0#1 ++ h.lowerAddr

/-- One beat of the completer completion stream; all its `TUSER` bits are 0. -/
structure CcBeat where
  tdata : BitVec 256
  tkeep : BitVec 8
  tlast : Bool
  deriving DecidableEq, Repr

namespace CcBeat

variable (b : CcBeat)

def reqrId : BitVec 16 := b.tdata.extractLsb' 48 16

def tag : BitVec 8 := b.tdata.extractLsb' 64 8

/-- The dwords behind the descriptor. -/
def data : BitVec 64 := b.tdata.extractLsb' 96 64

/-- The descriptor as the requester reads it. -/
def header : CplHeader where
  lowerAddr := b.tdata.extractLsb' 0 7
  addressType := b.tdata.extractLsb' 8 2
  byteCnt := b.tdata.extractLsb' 16 13
  dwordCnt := b.tdata.extractLsb' 32 11
  reqrId := b.reqrId
  tag := b.tag
  tc := b.tdata.extractLsb' 89 3
  attr := b.tdata.extractLsb' 92 3

end CcBeat

section Pack

variable (h : CplHeader) (data : BitVec 64)

/-- The requester reads the header that was packed. -/
theorem header_packCompletion (tkeep : BitVec 8) (tlast : Bool) :
    (CcBeat.mk (packCompletion h data) tkeep tlast).header = h := by
  obtain ⟨lowerAddr, addressType, byteCnt, dwordCnt, reqrId, tag, tc, attr⟩ := h
  simp only [CcBeat.header, CcBeat.reqrId, CcBeat.tag, CplHeader.mk.injEq]
  refine ⟨?_, ?_, ?_, ?_, ?_, ?_, ?_, ?_⟩
  all_goals
    apply BitVec.eq_of_getLsbD_eq
    intro k hk
    simp only [packCompletion, BitVec.getLsbD_extractLsb', BitVec.getLsbD_append, hk]
    grind

theorem packCompletion_reqrId : (packCompletion h data).extractLsb' 48 16 = h.reqrId :=
  congrArg CplHeader.reqrId (header_packCompletion h data 0 true)

theorem packCompletion_tag : (packCompletion h data).extractLsb' 64 8 = h.tag :=
  congrArg CplHeader.tag (header_packCompletion h data 0 true)

theorem packCompletion_data : (packCompletion h data).extractLsb' 96 64 = data := by
  apply BitVec.eq_of_getLsbD_eq
  intro k hk
  simp only [packCompletion, BitVec.getLsbD_extractLsb', BitVec.getLsbD_append, hk]
  grind

end Pack

end Tlp
end PcieBench
