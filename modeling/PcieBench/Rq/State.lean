import Mathlib.Data.Fintype.Pi
import Mathlib.Data.Fin.Basic
import PcieBench.Clocked.Trace

/-!
# dma_rq_logic — parameters, ports, registers and wires

The requester side of the DMA core.  The registers are grouped by the `always` block that assigns
them; every register keeps its Verilog name without the `_r` suffix, every wire its name without
`_s`.  Registers and inputs that nothing in the module reads (`BYTE_COUNT`, `is_sop_r`,
`mem_rd_last_tlp_words_r`, `block_in_boundary_r`, `LAST_TAG`, …) are left out.

A one-bit signal is a `Bool`, a vector of one bit per tag a function on the tags, and
`M_AXIS_RQ_TREADY` a single bit: the module only uses it as a truth value.
-/

namespace PcieBench
namespace Rq

/-! ## Parameters -/

/-- The module parameters.  The lower bounds keep the replications in `max_words_tlp_s` and
`max_words_read_request_s` from being empty (a value of 2, one dword for each request, would still
elaborate and is left out); the upper ones keep a request inside the eleven bits of the dword count
(4 KB, the most PCIe allows). -/
structure Params where
  windowSize : Nat
  log2MaxPayload : Nat
  log2MaxReadRequest : Nat
  three_le_payload : 3 ≤ log2MaxPayload
  payload_le : log2MaxPayload ≤ 12
  three_le_readRequest : 3 ≤ log2MaxReadRequest
  readRequest_le : log2MaxReadRequest ≤ 12

/-- The instance in `pcie_controller`. -/
def pcieController : Params where
  windowSize := 24
  log2MaxPayload := 8
  log2MaxReadRequest := 9
  three_le_payload := by decide
  payload_le := by decide
  three_le_readRequest := by decide
  readRequest_le := by decide

/-- One bit for each tag of the window. -/
abbrev TagSet (P : Params) := Fin P.windowSize → Bool

/-! ## Ports -/

/-- The descriptor interface: what describes the operation to perform. -/
structure Config where
  capWrite : Bool
  capRead : Bool
  addressMode : BitVec 2
  sizeAtDescriptor : BitVec 64
  sizeAtHost : BitVec 64
  numberTlps : BitVec 64
  addrAtDescriptor : BitVec 64
  addressGenOffset : BitVec 64
  deriving DecidableEq, Repr

/-- The inputs of one clock cycle.  `c2sTkeepHi` is `C2S_FIFO_TKEEP[C_AXI_KEEP_WIDTH/2]`. -/
structure Input (P : Params) where
  axisRqTready : Bool
  axisRcTvalid : Bool
  axisRcTready : Bool
  axisRcTkeep : BitVec 8
  c2sTvalid : Bool
  c2sTdataLo : BitVec 128
  c2sTdataHi : BitVec 128
  c2sTkeepHi : Bool
  engineValid : Bool
  cfg : Config
  completedTags : TagSet P
  currentWindowSize : BitVec 64

/-! ## Registers -/

/-- The states of the main FSM.  `WAIT_RD_OP` and `WAIT_WR_OP` are declared in the source but never
assigned. -/
inductive WrState
  | idle
  | initWrite
  | write
  | initRead
  | waitRead
  deriving DecidableEq, Repr

/-- The circular buffer between the C2S FIFO and the output register, write side. -/
structure C2sBuffer where
  slots : Nat → BitVec 128
  wrPtr : BitVec 5

/-- Registers of the random address generator, in the order of its steps. -/
structure RandomGen where
  randomNumber : BitVec 31
  randomNumberModulus : BitVec 64
  candidate : BitVec 64
  candidatePlus1 : BitVec 64
  pageWr : BitVec 64
  pageRd : BitVec 64
  addressWrNonTruncated : BitVec 64
  addressRdNonTruncated : BitVec 64
  addressWr : BitVec 64
  addressRd : BitVec 64
  sizeAtDescriptor : BitVec 64
  clogBlock : BitVec 5
  blockMinus1 : BitVec 12
  offsetWr : BitVec 12
  offsetRd : BitVec 12

/-- The sequential and random block address of one direction. -/
structure BlockAddr where
  txSeq : BitVec 64
  nextTxSeq : BitVec 64
  txRand : BitVec 64
  initialPage : BitVec 64

/-- The values derived from the size and the number of TLPs, one cycle after their inputs. -/
structure Boundaries where
  wrTotal : BitVec 32
  rdTotal : BitVec 32
  wrOddWords : BitVec 32
  rdOddWords : BitVec 32
  wrNumberEven : BitVec 32
  rdNumberEven : BitVec 32

/-- The current TLP, absolute and modulus the TLPs of a block. -/
structure TlpCount where
  current : BitVec 32
  modulus : BitVec 32

/-- Position inside the current memory write TLP. -/
structure WrPointer where
  remaining : BitVec 64
  nextRemainder : BitVec 4
  addr : BitVec 64

/-- Position of the next memory read request. -/
structure RdPointer where
  addr : BitVec 64
  remaining : BitVec 64

/-- Data half of the RQ output register, with the read pointer of the circular buffer.  The two
lanes are `TDATA[255:128]` and `TDATA[127:0]`. -/
structure OutData where
  tvalid : Bool
  tdataHi : BitVec 128
  tdataLo : BitVec 128
  c2sRdPtr : BitVec 5

/-- Sideband half of the RQ output register. -/
structure OutCtl where
  tkeep : BitVec 8
  tlast : Bool
  firstBe : BitVec 4
  lastBe : BitVec 4

/-- The tags in use and the dwords each of them waits for. -/
structure TagState (P : Params) where
  current : TagSet P
  size : Fin P.windowSize → BitVec 11

/-- The measurements of the current operation. -/
structure Latency (P : Params) where
  update : Bool
  stop : Bool
  tags : TagSet P
  current : BitVec 64
  timeComp : BitVec 64
  timeReq : BitVec 64
  bytesComp : BitVec 64
  bytesReq : BitVec 64

/-- All registers of the module. -/
structure State (P : Params) where
  c2s : C2sBuffer
  txFixWr : BitVec 64
  txFixRd : BitVec 64
  random : RandomGen
  wrBlock : BlockAddr
  rdBlock : BlockAddr
  bounds : Boundaries
  wrCount : TlpCount
  rdCount : TlpCount
  wrState : WrState
  wrStatePipe : WrState
  windowSize : BitVec 8
  windowSizeMask : TagSet P
  endOfOperationR : Bool
  wrPtr : WrPointer
  rdPtr : RdPointer
  out : OutData
  ctl : OutCtl
  tags : TagState P
  latency : Latency P

/-! ## Wires -/

section Wires

variable {P : Params}

/-- `max_words_tlp_s`: the dwords of a full memory write TLP. -/
def maxWordsTlp (P : Params) : BitVec 64 := BitVec.ofNat 64 (2 ^ (P.log2MaxPayload - 2))

/-- `max_words_read_request_s`. -/
def maxWordsReadRequest (P : Params) : BitVec 64 := BitVec.ofNat 64 (2 ^ (P.log2MaxReadRequest - 2))

/-- `dec2mask`: one bit for every tag below `dec`. -/
def dec2mask (P : Params) (dec : BitVec 8) : TagSet P :=
  fun k => decide (k.val < dec.toNat)

/-- `firstFree`: the loop runs from the highest tag down, so the lowest free tag wins; 0 when there
is none. -/
def firstFree (oh : TagSet P) : BitVec 8 :=
  (List.finRange P.windowSize).foldr (fun k acc => if oh k then acc else BitVec.ofNat 8 k.val) 0

/-- `(tags & mask) == mask`. -/
def covers (tags mask : TagSet P) : Bool :=
  decide (∀ k, mask k = true → tags k = true)

/-- `(tags & mask) == 0`. -/
def disjoint (tags mask : TagSet P) : Bool :=
  decide (∀ k, mask k = true → tags k = false)

namespace State

variable (s : State P)

def c2sBufOccupancy : BitVec 5 := s.c2s.wrPtr - s.out.c2sRdPtr

def c2sFifoTready : Bool := decide (s.c2sBufOccupancy ≤ 12)

def oneWordAtBuffer : Bool := s.c2sBufOccupancy != 0

/-- `c2s_buf_occupancy[4:1] != 0`. -/
def twoWordsAtBuffer : Bool := s.c2sBufOccupancy.extractLsb' 1 4 != 0

def lastWordAtTlp : Bool := decide (s.wrPtr.remaining ≤ 4)

def lastTwoWordsAtTlp : Bool := decide (s.wrPtr.remaining ≤ 8)

def currentWrTlpWords : BitVec 32 :=
  if s.bounds.wrNumberEven = s.wrCount.modulus then s.bounds.wrOddWords
  else (maxWordsTlp P).setWidth 32

def currentRdTlpWords (cfg : Config) : BitVec 32 :=
  if s.bounds.rdNumberEven = s.rdCount.modulus then s.bounds.rdOddWords
  else if cfg.capWrite then (maxWordsTlp P).setWidth 32
  else (maxWordsReadRequest P).setWidth 32

/-- The address of the next block of memory writes, according to the address mode. -/
def txWrAddr (cfg : Config) : BitVec 64 :=
  if cfg.addressMode = 0 then s.txFixWr
  else if cfg.addressMode = 1 then s.wrBlock.txSeq
  else s.wrBlock.txRand

/-- The address of the next block of memory reads. -/
def txRdAddr (cfg : Config) : BitVec 64 :=
  if cfg.addressMode = 0 then s.txFixRd
  else if cfg.addressMode = 1 then s.rdBlock.txSeq
  else s.rdBlock.txRand

/-- `(current_tags_s & window_size_mask_r) != window_size_mask_r`. -/
def tagAvailable : Bool := !covers s.tags.current s.windowSizeMask

def endOfOperation : Bool :=
  (decide (s.wrState = .waitRead) && disjoint s.tags.current s.windowSizeMask) ||
    (decide (s.wrState = .idle) &&
      (decide (s.wrStatePipe = .initWrite) || decide (s.wrStatePipe = .write)))

/-- `s2c_rq_tag_s`, the tag of the next memory read request. -/
def s2cRqTag : BitVec 8 := firstFree s.tags.current

/-- `c2s_rq_tag_s`, the tag of the next memory write request. -/
def c2sRqTag : BitVec 8 := (s.wrCount.current - 1).setWidth 8

/-- The guard under which a memory write TLP ends in state `WRITE`. -/
def writeEnds : Bool :=
  (s.twoWordsAtBuffer && s.lastTwoWordsAtTlp) || (s.oneWordAtBuffer && s.lastWordAtTlp)

/-- The word at a position of the circular buffer; `trunc` keeps four bits of the pointer. -/
def c2sWord (ptr : BitVec 5) : BitVec 128 := s.c2s.slots (ptr.toNat % 16)

end State

end Wires

end Rq
end PcieBench
