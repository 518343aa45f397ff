import PcieBench.Clocked.Trace
import PcieBench.Tlp.Completer

/-!
# pcie_to_axi_reg_requester

The completer of BAR 2: it turns the requests of one dword into accesses of an AXI-Lite slave in
another clock domain.  A read puts its address into `ar_fifo` and its descriptor into `d_fifo`; the
slave answers through `r_fifo`, and a second FSM joins the descriptor and the answer to a completion.
The FIFOs are queues; when they take an item and when an item of theirs becomes visible depends on
their clocks, so `s_axis_tready` and `m_axis_tvalid` are inputs of the model.
-/

namespace PcieBench
namespace Requester

open Clocked Tlp

/-! ## Ports and registers -/

/-- `cq_state`. -/
inductive CqState
  | reset
  | waitForReq
  | storeRdReq
  | storeWrReq
  deriving DecidableEq, Repr

/-- `cc_state`. -/
inductive CcState
  | reset
  | waitForData
  | sendCpl
  deriving DecidableEq, Repr

/-- The inputs of one cycle of `user_clk`.  `dVisible` and `rVisible` say that the FIFO shows its first
item, if it has one; `responses` is the data that the slave writes into `r_fifo` before the next edge. -/
structure Input where
  cq : CqBeat
  ccTready : Bool
  waReady : Bool
  wReady : Bool
  raReady : Bool
  dReady : Bool
  dVisible : Bool
  rVisible : Bool
  responses : List (BitVec 32)

/-- The request in progress, registers `req_*`. -/
structure Request where
  addressType : BitVec 2
  addr : BitVec 32
  dwordCnt : BitVec 11
  reqType : BitVec 4
  reqrId : BitVec 16
  tag : BitVec 8
  barId : BitVec 3
  tc : BitVec 3
  attr : BitVec 3
  firstBe : BitVec 4
  data : BitVec 32
  deriving DecidableEq, Repr

/-- An item of `d_fifo`. -/
structure DEntry where
  tdata : BitVec 32
  tuser : BitVec 12
  deriving DecidableEq, Repr

/-- The completion in progress, registers `cpl_*`, with the widths they are declared with. -/
structure Completion where
  addr : BitVec 5
  addressType : BitVec 2
  byteCnt : BitVec 3
  rqerId : BitVec 16
  tag : BitVec 79
  tc : BitVec 3
  attr : BitVec 3
  data : BitVec 32
  deriving DecidableEq, Repr

/-- The registers, the contents of `d_fifo` and `r_fifo`, and the reads that the slave has to answer,
in `ar_fifo` or behind it. -/
structure State where
  cqState : CqState
  req : Request
  ccState : CcState
  cpl : Completion
  dFifo : List DEntry
  rFifo : List (BitVec 32)
  pendingReads : List (BitVec 32)
  deriving DecidableEq, Repr

/-! ## Requests -/

/-- A request of type `reqType` that the module serves. -/
def validReq (reqType : BitVec 4) (b : CqBeat) : Bool :=
  b.reqType == reqType && b.dwordCnt == 1 && b.starts && b.barId == 2

def validRdReq (b : CqBeat) : Bool := validReq memRdReq b

def validWrReq (b : CqBeat) : Bool := validReq memWrReq b

/-- The registers loaded from a beat. -/
def Request.ofBeat (b : CqBeat) : Request where
  addressType := b.addressType
  addr := b.addr.extractLsb' 0 30 ++ 0#2
  dwordCnt := b.dwordCnt
  reqType := b.reqType
  reqrId := b.reqrId
  tag := b.tag
  barId := b.barId
  tc := b.tc
  attr := b.attr
  firstBe := b.firstBe
  data := b.data.extractLsb' 0 32

/-- `d_fifo_s_tdata` and `d_fifo_s_tuser`. -/
def Request.dEntry (r : Request) : DEntry where
  tdata := r.attr ++ r.tc ++ r.addressType ++ r.tag ++ r.reqrId
  -- byte count, a zero bit and the lower address
  tuser := 4#4 ++ 0#1 ++ r.addr.extractLsb' 0 7

section Wires

variable (s : State) (i : Input)

def State.cqTready : Bool := s.cqState == .waitForReq

/-- `ra_fifo_tvalid` and `d_fifo_s_tvalid`. -/
def State.storesRd : Bool := s.cqState == .storeRdReq && i.raReady && i.dReady

/-! ## Completions -/

/-- The item that `d_fifo` shows, `d_fifo_m_tvalid` and `d_fifo_m_tdata`. -/
def State.dHead : Option DEntry := if i.dVisible then s.dFifo.head? else none

/-- The item that `r_fifo` shows. -/
def State.rHead : Option (BitVec 32) := if i.rVisible then s.rFifo.head? else none

def State.cplDataAvailable : Bool := (s.dHead i).isSome && (s.rHead i).isSome

end Wires

/-- The registers loaded from the two FIFOs; `cpl_addr` and `cpl_byte_cnt` are narrower than the fields
they are loaded from. -/
def Completion.load (d : DEntry) (r : BitVec 32) : Completion where
  addr := (d.tuser.extractLsb' 0 7).setWidth 5
  addressType := d.tdata.extractLsb' 24 2
  byteCnt := (d.tuser.extractLsb' 8 4).setWidth 3
  rqerId := d.tdata.extractLsb' 0 16
  tag := (d.tdata.extractLsb' 16 8).setWidth 79
  tc := d.tdata.extractLsb' 26 3
  attr := d.tdata.extractLsb' 29 3
  data := r

/-- The completion on the CC stream. -/
def Completion.ccBeat (c : Completion) : CcBeat where
  tdata := packCompletion
    { lowerAddr := c.addr.setWidth 7
      addressType := c.addressType
      byteCnt := c.byteCnt.setWidth 13
      dwordCnt := 1
      reqrId := c.rqerId
      tag := c.tag.setWidth 8
      tc := c.tc
      attr := c.attr } (0#32 ++ c.data)
  tkeep := 0x0f
  tlast := true

def State.ccTvalid (s : State) : Bool := s.ccState == .sendCpl

/-! ## The clock edge -/

section Step

variable (s : State) (i : Input)

def nextCqState : CqState :=
  match s.cqState with
  | .reset => .waitForReq
  | .waitForReq =>
      if validRdReq i.cq then .storeRdReq
      else if validWrReq i.cq then .storeWrReq
      -- `tready` is high: a request of another length or BAR is consumed and forgotten
      else .waitForReq
  | .storeWrReq => if i.waReady && i.wReady then .waitForReq else .storeWrReq
  | .storeRdReq => if i.raReady && i.dReady then .waitForReq else .storeRdReq

def nextReq : Request :=
  if s.cqState = .waitForReq ∧ (validRdReq i.cq || validWrReq i.cq) then .ofBeat i.cq else s.req

def nextCcState : CcState :=
  match s.ccState with
  | .reset => .waitForData
  | .waitForData => if s.cplDataAvailable i then .sendCpl else .waitForData
  | .sendCpl => if i.ccTready then .waitForData else .sendCpl

def nextCpl : Completion :=
  match s.ccState, s.dHead i, s.rHead i with
  -- loaded only here, while the FIFOs are popped in every state
  | .waitForData, some d, some r => .load d r
  | _, _, _ => s.cpl

/-- `d_fifo`; both FIFOs are popped when both show an item, whatever `cc_state` is. -/
def nextDFifo : List DEntry :=
  (if s.cplDataAvailable i then s.dFifo.tail else s.dFifo) ++
    (if s.storesRd i then [s.req.dEntry] else [])

def nextRFifo : List (BitVec 32) :=
  (if s.cplDataAvailable i then s.rFifo.tail else s.rFifo) ++ i.responses

/-- The reads to answer: each answer is for the oldest one. -/
def nextPendingReads : List (BitVec 32) :=
  s.pendingReads.drop i.responses.length ++ (if s.storesRd i then [s.req.addr] else [])

def step : State where
  cqState := nextCqState s i
  req := nextReq s i
  ccState := nextCcState s i
  cpl := nextCpl s i
  dFifo := nextDFifo s i
  rFifo := nextRFifo s i
  pendingReads := nextPendingReads s i

end Step

/-- The state after reset; `req` and `cpl` are what their registers happen to hold. -/
def resetState (req : Request) (cpl : Completion) : State where
  cqState := .reset
  req := req
  ccState := .reset
  cpl := cpl
  dFifo := []
  rFifo := []
  pendingReads := []

def machine (req : Request) (cpl : Completion) : Machine State Input where
  reset := resetState req cpl
  step := step

/-! ## Wires and fields -/

section Lemmas

variable {s : State} {i : Input}

/-- Both FIFOs show an item. -/
theorem cplDataAvailable_iff :
    s.cplDataAvailable i = true ↔ ∃ d r, s.dHead i = some d ∧ s.rHead i = some r := by
  rw [State.cplDataAvailable, Bool.and_eq_true, Option.isSome_iff_exists, Option.isSome_iff_exists]
  constructor
  · rintro ⟨⟨d, hd⟩, ⟨r, hr⟩⟩
    exact ⟨d, r, hd, hr⟩
  · rintro ⟨d, r, hd, hr⟩
    exact ⟨⟨d, hd⟩, ⟨r, hr⟩⟩

theorem dFifo_of_dHead {d : DEntry} (h : s.dHead i = some d) :
    s.dFifo = d :: s.dFifo.tail := by
  unfold State.dHead at h
  split at h
  · exact List.eq_cons_of_mem_head? h
  · cases h

theorem rFifo_of_rHead {r : BitVec 32} (h : s.rHead i = some r) :
    s.rFifo = r :: s.rFifo.tail := by
  unfold State.rHead at h
  split at h
  · exact List.eq_cons_of_mem_head? h
  · cases h

/-- A completion carries the tag of the descriptor it is loaded from. -/
theorem load_tag (q : Request) (data : BitVec 32) :
    (Completion.load q.dEntry data).ccBeat.tag = q.tag := by
  rw [CcBeat.tag, Completion.ccBeat, packCompletion_tag]
  apply BitVec.eq_of_getLsbD_eq
  intro k hk
  simp only [Completion.load, Request.dEntry, BitVec.getLsbD_setWidth, BitVec.getLsbD_extractLsb',
    BitVec.getLsbD_append, hk]
  grind

theorem load_reqrId (q : Request) (data : BitVec 32) :
    (Completion.load q.dEntry data).ccBeat.reqrId = q.reqrId := by
  rw [CcBeat.reqrId, Completion.ccBeat, packCompletion_reqrId]
  apply BitVec.eq_of_getLsbD_eq
  intro k hk
  simp only [Completion.load, Request.dEntry, BitVec.getLsbD_extractLsb', BitVec.getLsbD_append, hk]
  grind

theorem load_data (d : DEntry) (data : BitVec 32) :
    (Completion.load d data).ccBeat.data = 0#32 ++ data := by
  rw [CcBeat.data, Completion.ccBeat, packCompletion_data, Completion.load]

end Lemmas

end Requester
end PcieBench
