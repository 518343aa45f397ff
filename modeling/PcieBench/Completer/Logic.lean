import PcieBench.Clocked.Trace
import PcieBench.Tlp.Completer

/-!
# pcie_completer_to_bram

The completer of one BAR: it takes the requests of the host one at a time, turns each read and write
of one or two dwords into an access of a 64-bit memory interface and answers a read with a completion
after the acknowledgement.  The registers keep their names; `req_*` and `cpl_*` are not reset, so a
run starts with arbitrary values in them.
-/

namespace PcieBench
namespace Completer

open Clocked Tlp

/-! ## Ports and registers -/

/-- The states of the FSM. -/
inductive FsmState
  | reset
  | waitForReq
  | storeWrReq
  | storeRdReq
  | waitForRdCpl
  | sendRdCpl
  | sendUnsupportedReq
  deriving DecidableEq, Repr

/-- `decoded_req`. -/
inductive Decoded
  | noReq
  | validRdReq
  | validWrReq
  | unsupportedReq
  deriving DecidableEq, Repr

/-- The inputs of one clock cycle. -/
structure Input where
  cq : CqBeat
  ccTready : Bool
  dout : BitVec 64
  ack : Bool

/-- The request in progress, registers `req_*`. -/
structure Request where
  addressType : BitVec 2
  addr : BitVec 62
  dwordCnt : BitVec 11
  reqType : BitVec 4
  reqrId : BitVec 16
  tag : BitVec 8
  barId : BitVec 3
  tc : BitVec 3
  attr : BitVec 3
  firstBe : BitVec 4
  lastBe : BitVec 4
  data : BitVec 64
  deriving DecidableEq, Repr

/-- The completion in preparation, registers `cpl_*`. -/
structure Completion where
  lowerAddr : BitVec 7
  byteCnt : BitVec 13
  data : BitVec 64
  deriving DecidableEq, Repr

structure State where
  state : FsmState
  req : Request
  cpl : Completion
  deriving DecidableEq, Repr

/-! ## Decoding -/

/-- `cq_valid_dword_cnt`. -/
def validDwordCnt (b : CqBeat) : Bool := b.dwordCnt == 1 || b.dwordCnt == 2

/-- The request in a beat, for the completer of BAR `bar`. -/
def decodedReq (bar : BitVec 3) (b : CqBeat) : Decoded :=
  if b.starts then
    -- requests of the other BARs pass unnoticed
    if b.reqType == memRdReq && b.barId == bar then
      if validDwordCnt b then .validRdReq else .unsupportedReq
    else if b.reqType == memWrReq && b.barId == bar then
      if validDwordCnt b then .validWrReq else .unsupportedReq
    else .noReq
  else .noReq

/-! ## The memory interface -/

section Wires

variable (s : State)

def State.en : Bool := s.state == .storeRdReq || s.state == .storeWrReq

/-- `addr`, the 64-bit word of the request; it stays behind after the access. -/
def State.addr : BitVec 24 := s.req.addr.extractLsb' 1 24

def State.din : BitVec 64 :=
  if s.state = .storeWrReq then
    if s.req.dwordCnt = 1 then
      -- bit 2 of the byte address says in which half of the word the dword lies
      if s.req.addr.getLsbD 0 then s.req.data.extractLsb' 0 32 ++ 0#32
      else 0#32 ++ s.req.data.extractLsb' 0 32
    else s.req.data
  else 0

def State.we : BitVec 8 :=
  if s.state = .storeWrReq then
    if s.req.dwordCnt = 1 then
      if s.req.addr.getLsbD 0 then s.req.firstBe ++ 0#4 else 0#4 ++ s.req.firstBe
    else s.req.lastBe ++ s.req.firstBe
  else 0

def State.cqTready : Bool := s.state == .waitForReq

/-! ## The completion stream -/

def State.ccTvalid : Bool := s.state == .sendRdCpl

/-- The completion of the request in progress. -/
def State.ccBeat : CcBeat where
  tdata := packCompletion
    { lowerAddr := s.cpl.lowerAddr
      addressType := s.req.addressType
      byteCnt := s.cpl.byteCnt
      dwordCnt := s.req.dwordCnt
      reqrId := s.req.reqrId
      tag := s.req.tag
      tc := s.req.tc
      attr := s.req.attr } s.cpl.data
  tkeep := if s.req.dwordCnt = 1 then 0x0f else 0x1f
  tlast := true

end Wires

/-! ## Byte counts -/

/-- A row of a `casex` over the byte enables: the bits that count and their values, the bytes from
the first enabled to the last enabled one, and the offset of the first one. -/
structure Row (w : Nat) where
  care : BitVec w
  bits : BitVec w
  byteCnt : BitVec 13
  offset : BitVec 2

/-- The rows for one dword, in their order. -/
def oneDwordRows : List (Row 4) :=
  [⟨0b1001, 0b1001, 4, 0⟩, ⟨0b1101, 0b0101, 3, 0⟩, ⟨0b1011, 0b1010, 3, 1⟩, ⟨0b1111, 0b0011, 2, 0⟩,
    ⟨0b1111, 0b0110, 2, 1⟩, ⟨0b1111, 0b1100, 2, 2⟩, ⟨0b1111, 0b0001, 1, 0⟩, ⟨0b1111, 0b0010, 1, 1⟩,
    ⟨0b1111, 0b0100, 1, 2⟩, ⟨0b1111, 0b1000, 1, 3⟩]

/-- The rows for two dwords, over the last byte enables followed by the first ones. -/
def twoDwordRows : List (Row 8) :=
  [⟨0b10000001, 0b10000001, 8, 0⟩, ⟨0b11000001, 0b01000001, 7, 0⟩, ⟨0b11100001, 0b00100001, 6, 0⟩,
    ⟨0b11110001, 0b00010001, 5, 0⟩, ⟨0b10000011, 0b10000010, 7, 1⟩, ⟨0b11000011, 0b01000010, 6, 1⟩,
    ⟨0b11100011, 0b00100010, 5, 1⟩, ⟨0b11110011, 0b00010010, 4, 1⟩, ⟨0b10000111, 0b10000100, 6, 2⟩,
    ⟨0b11000111, 0b01000100, 5, 2⟩, ⟨0b11100111, 0b00100100, 4, 2⟩, ⟨0b11110111, 0b00010100, 3, 2⟩,
    ⟨0b10001111, 0b10001000, 5, 3⟩, ⟨0b11001111, 0b01001000, 4, 3⟩, ⟨0b11101111, 0b00101000, 3, 3⟩,
    ⟨0b11111111, 0b00011000, 2, 3⟩]

/-- The first row that matches. -/
def matchRow {w : Nat} (rows : List (Row w)) (be : BitVec w) : Option (BitVec 13 × BitVec 2) :=
  (rows.find? (fun r => be &&& r.care == r.bits)).map (fun r => (r.byteCnt, r.offset))

/-- The row of a request. -/
def byteRow (r : Request) : Option (BitVec 13 × BitVec 2) :=
  if r.dwordCnt = 1 then matchRow oneDwordRows r.firstBe
  else matchRow twoDwordRows (r.lastBe ++ r.firstBe)

/-- The part of the 64-bit word that a request reads. -/
def selectData (r : Request) (dout : BitVec 64) : BitVec 64 :=
  if r.dwordCnt = 1 then
    if r.addr.getLsbD 0 then 0#32 ++ dout.extractLsb' 32 32 else 0#32 ++ dout.extractLsb' 0 32
  else dout

/-! ## The clocked processes -/

section Processes

variable (bar : BitVec 3) (s : State) (i : Input)

def nextState : FsmState :=
  match s.state with
  | .reset => .waitForReq
  | .waitForReq =>
      match decodedReq bar i.cq with
      | .noReq => .waitForReq
      | .validRdReq => .storeRdReq
      | .validWrReq => .storeWrReq
      | .unsupportedReq => .sendUnsupportedReq
  -- a posted write: the access takes one cycle and nothing is answered
  | .storeWrReq => .waitForReq
  | .storeRdReq => .waitForRdCpl
  | .waitForRdCpl => if i.ack then .sendRdCpl else .waitForRdCpl
  | .sendRdCpl => if i.ccTready then .waitForReq else .sendRdCpl
  -- the state drives nothing on the CC stream, so the request is dropped here
  | .sendUnsupportedReq => .waitForReq

/-- The fields of a request as they are stored. -/
def Request.ofBeat (b : CqBeat) : Request where
  addressType := b.addressType
  addr := b.addr
  dwordCnt := b.dwordCnt
  reqType := b.reqType
  reqrId := b.reqrId
  tag := b.tag
  barId := b.barId
  tc := b.tc
  attr := b.attr
  firstBe := b.firstBe
  lastBe := b.lastBe
  data := b.data

def nextReq : Request :=
  if s.state = .waitForReq ∧ decodedReq bar i.cq ≠ .noReq then .ofBeat i.cq else s.req

/-- The completion follows `dout` until the acknowledgement.  Byte enables without a row leave the
count and the address of the previous completion. -/
def nextCpl : Completion :=
  if s.state = .waitForRdCpl then
    -- assigned in every cycle of the state, so the last one before the completion counts
    { data := selectData s.req i.dout
      byteCnt := match byteRow s.req with
        | some (byteCnt, _) => byteCnt
        | none => s.cpl.byteCnt
      lowerAddr := match byteRow s.req with
        | some (_, offset) => s.req.addr.extractLsb' 0 5 ++ offset
        | none => s.cpl.lowerAddr }
  else s.cpl

/-- One rising edge of `user_clk`. -/
@[simps]
def step : State where
  state := nextState bar s i
  req := nextReq bar s i
  cpl := nextCpl s i

end Processes

/-- The completer as a clocked machine, with what the registers hold before the first request. -/
def machine (bar : BitVec 3) (req : Request) (cpl : Completion) : Machine State Input where
  reset := { state := .reset, req := req, cpl := cpl }
  step := step bar

end Completer
end PcieBench
