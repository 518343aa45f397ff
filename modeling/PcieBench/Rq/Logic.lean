import PcieBench.Rq.State
import PcieBench.Tlp.Format

/-!
# dma_rq_logic — the clocked processes

One definition per `always` block of the module, each computing the next values of the registers it
assigns from the registers and inputs of the current cycle.  The two directions of the design share
the blocks that are written twice in the source (`BlockAddr`, `TlpCount`).
-/

namespace PcieBench
namespace Rq

open Tlp

section Processes

variable {P : Params} (s : State P) (i : Input P)

/-! ## C2S FIFO management -/

/-- Both halves of a FIFO beat are written; the pointer moves over the second one only if it is
valid. -/
def nextC2s : C2sBuffer :=
  if i.c2sTvalid && s.c2sFifoTready then
    -- the second slot is overwritten by the next beat if the pointer does not pass it
    { slots := Function.update
        (Function.update s.c2s.slots (s.c2s.wrPtr.toNat % 16) i.c2sTdataLo)
        ((s.c2s.wrPtr + 1).toNat % 16) i.c2sTdataHi
      wrPtr := if i.c2sTkeepHi then s.c2s.wrPtr + 2 else s.c2s.wrPtr + 1 }
  else s.c2s

/-! ## Address generation -/

/-- The `CLOG2` macro. -/
def clog2 (x : BitVec 64) : BitVec 5 :=
  if x ≤ 2 then 1
  else if x ≤ 4 then 2
  else if x ≤ 8 then 3
  else if x ≤ 16 then 4
  else if x ≤ 32 then 5
  else if x ≤ 64 then 6
  else if x ≤ 128 then 7
  else if x ≤ 256 then 8
  else if x ≤ 512 then 9
  else if x ≤ 1024 then 10
  else if x ≤ 2048 then 11
  else 12

/-- Step 4: the page of the candidate, or the following one if the last address lies in it. -/
def otherPage (candidate candidatePlus1 last : BitVec 64) : BitVec 64 :=
  if candidate.extractLsb' 12 52 ≠ last.extractLsb' 12 52 then candidate.extractLsb' 12 52 ++ 0#12
  else candidatePlus1.extractLsb' 12 52 ++ 0#12

/-- Step 3*: the high bits of a random number as an offset inside the page. -/
def offsetInWindow (size : BitVec 64) (number : BitVec 31) (blockMinus1 : BitVec 12) : BitVec 12 :=
  if size ≠ 0 then number.extractLsb' 0 12 &&& ~~~ blockMinus1 else 0

def nextRandom : RandomGen where
  -- a shift register of 31 bits with taps 30 and 27
  randomNumber := s.random.randomNumber.extractLsb' 0 30 ++
    BitVec.ofBool (s.random.randomNumber.getLsbD 30 ^^ s.random.randomNumber.getLsbD 27)
  randomNumberModulus := s.random.randomNumber.setWidth 64 &&& (i.cfg.sizeAtHost - 1)
  -- each step of the pipeline reads the registers of the previous one
  candidate := s.random.randomNumberModulus
  candidatePlus1 := s.random.randomNumberModulus + 4096
  pageWr := otherPage s.random.candidate s.random.candidatePlus1 s.wrBlock.txRand
  pageRd := otherPage s.random.candidate s.random.candidatePlus1 s.rdBlock.txRand
  addressWrNonTruncated := s.random.pageWr.extractLsb' 12 52 ++ s.random.offsetWr
  addressRdNonTruncated := s.random.pageRd.extractLsb' 12 52 ++ s.random.offsetRd
  addressWr := s.random.addressWrNonTruncated &&& (i.cfg.sizeAtHost - 1)
  addressRd := s.random.addressRdNonTruncated &&& (i.cfg.sizeAtHost - 1)
  sizeAtDescriptor := i.cfg.sizeAtDescriptor
  clogBlock := clog2 s.random.sizeAtDescriptor
  blockMinus1 := BitVec.ofNat 12 (2 ^ s.random.clogBlock.toNat - 1)
  offsetWr := offsetInWindow i.cfg.sizeAtDescriptor s.random.randomNumber s.random.blockMinus1
  offsetRd := offsetInWindow i.cfg.sizeAtDescriptor s.random.randomNumber s.random.blockMinus1

/-- The block registers while the FSM is idle: the first block is `ADDR_AT_DESCRIPTOR` itself, so a
starting operation already prepares the second one. -/
def BlockAddr.prepare (starts : Bool) (cfg : Config) (random : BitVec 64) : BlockAddr where
  initialPage := cfg.addrAtDescriptor >>> 12
  txSeq := if starts then cfg.addrAtDescriptor + cfg.sizeAtDescriptor else cfg.addrAtDescriptor
  nextTxSeq := if starts then cfg.addrAtDescriptor + (cfg.sizeAtDescriptor <<< 1)
    else cfg.addrAtDescriptor + cfg.sizeAtDescriptor
  txRand := cfg.addrAtDescriptor + random

/-- The end of a block: the next sequential address, or the first one again if the block after it
leaves the initial page; a new random address. -/
def BlockAddr.advance (b : BlockAddr) (cfg : Config) (random : BitVec 64) : BlockAddr where
  initialPage := b.initialPage
  txSeq := if (b.nextTxSeq + cfg.sizeAtDescriptor) >>> 12 ≠ b.initialPage then cfg.addrAtDescriptor
    else b.nextTxSeq
  nextTxSeq := if (b.nextTxSeq + cfg.sizeAtDescriptor) >>> 12 ≠ b.initialPage then
      cfg.addrAtDescriptor + cfg.sizeAtDescriptor
    else b.nextTxSeq + cfg.sizeAtDescriptor
  txRand := cfg.addrAtDescriptor + random

/-- The guard under which an operation of one direction starts in state `IDLE`. -/
def startsWith (cap : Bool) : Bool :=
  i.axisRqTready && cap && i.engineValid && !s.endOfOperationR && !s.endOfOperation

def nextWrBlock : BlockAddr :=
  match s.wrState with
  | .idle => BlockAddr.prepare (startsWith s i i.cfg.capWrite) i.cfg s.random.addressWr
  | .initWrite =>
      -- a TLP that ends with its header beat and is the last one of its block
      if i.axisRqTready && s.oneWordAtBuffer && s.lastWordAtTlp &&
          s.bounds.wrNumberEven == s.wrCount.modulus then
        s.wrBlock.advance i.cfg s.random.addressWr
      else s.wrBlock
  | .write =>
      if i.axisRqTready && s.bounds.wrNumberEven == s.wrCount.modulus && s.writeEnds then
        s.wrBlock.advance i.cfg s.random.addressWr
      else s.wrBlock
  | _ => s.wrBlock

def nextRdBlock : BlockAddr :=
  match s.wrState with
  | .idle => BlockAddr.prepare (startsWith s i i.cfg.capRead) i.cfg s.random.addressRd
  | .initRead =>
      if s.tagAvailable && i.axisRqTready && s.bounds.rdNumberEven == s.rdCount.modulus then
        s.rdBlock.advance i.cfg s.random.addressRd
      else s.rdBlock
  | _ => s.rdBlock

/-! ## Boundaries -/

/-- The TLPs of a block of `size` bytes when a TLP holds `2 ^ log2` of them. -/
def numberEvenTlp (log2 : Nat) (size : BitVec 64) : BitVec 32 :=
  if size.extractLsb' 0 log2 ≠ 0 then size.extractLsb' log2 32 + 1 else size.extractLsb' log2 32

/-- The dwords of the last TLP of a block. -/
def oddTlpWords (log2 : Nat) (maxWords size : BitVec 64) : BitVec 32 :=
  if size.extractLsb' 0 log2 ≠ 0 then
    ((size &&& BitVec.ofNat 64 (2 ^ log2 - 1)) >>> 2).setWidth 32
  else maxWords.setWidth 32

def nextBounds (P : Params) (cfg : Config) : Boundaries where
  wrTotal := cfg.numberTlps.setWidth 32
  rdTotal := cfg.numberTlps.setWidth 32
  wrNumberEven := numberEvenTlp P.log2MaxPayload cfg.sizeAtDescriptor
  wrOddWords := oddTlpWords P.log2MaxPayload (maxWordsTlp P) cfg.sizeAtDescriptor
  -- together with writes, a read request is no longer than a write TLP
  rdNumberEven :=
    if cfg.capWrite then numberEvenTlp P.log2MaxPayload cfg.sizeAtDescriptor
    else numberEvenTlp P.log2MaxReadRequest cfg.sizeAtDescriptor
  rdOddWords :=
    if cfg.capWrite then oddTlpWords P.log2MaxPayload (maxWordsTlp P) cfg.sizeAtDescriptor
    else oddTlpWords P.log2MaxReadRequest (maxWordsReadRequest P) cfg.sizeAtDescriptor

/-! ## The current TLP -/

def TlpCount.first : TlpCount := { current := 1, modulus := 1 }

def TlpCount.next (c : TlpCount) (numberEven : BitVec 32) : TlpCount where
  current := c.current + 1
  modulus := if numberEven = c.modulus then 1 else c.modulus + 1

def nextWrCount : TlpCount :=
  match s.wrState with
  | .idle => if i.axisRqTready then TlpCount.first else s.wrCount
  | .initWrite =>
      if i.axisRqTready && s.oneWordAtBuffer && s.lastWordAtTlp then
        s.wrCount.next s.bounds.wrNumberEven
      else s.wrCount
  | .write =>
      if i.axisRqTready && s.writeEnds then s.wrCount.next s.bounds.wrNumberEven else s.wrCount
  | _ => s.wrCount

def nextRdCount : TlpCount :=
  match s.wrState with
  | .idle => if i.axisRqTready then TlpCount.first else s.rdCount
  | .initRead =>
      if s.tagAvailable && i.axisRqTready then s.rdCount.next s.bounds.rdNumberEven else s.rdCount
  | _ => s.rdCount

/-! ## The main FSM -/

/-- Where a memory write TLP leads when it ends: the next TLP of the block, the reads of the block,
the next block, or the end of the operation. -/
def afterWrite : WrState :=
  if s.bounds.wrNumberEven = s.wrCount.modulus then
    -- with both directions the reads decide when the operation is over
    if i.cfg.capRead then .initRead
    else if s.bounds.wrTotal ≤ s.wrCount.current then .idle else .initWrite
  else .initWrite

def nextWrState : WrState :=
  match s.wrState with
  | .idle =>
      -- a write goes first when both capabilities are set
      if startsWith s i i.cfg.capWrite then .initWrite
      else if startsWith s i i.cfg.capRead then .initRead
      else .idle
  | .initWrite =>
      if i.axisRqTready then
        -- no payload yet: the header waits
        if !s.oneWordAtBuffer then .initWrite
        else if s.lastWordAtTlp then afterWrite s i
        else .write
      else .initWrite
  | .write =>
      if i.axisRqTready then
        if s.writeEnds then afterWrite s i else .write
      else .write
  | .initRead =>
      if i.axisRqTready && s.tagAvailable then
        if s.bounds.rdTotal ≤ s.rdCount.current then .waitRead
        else if i.cfg.capWrite && s.bounds.rdNumberEven == s.rdCount.modulus then .initWrite
        else .initRead
      else .initRead
  -- all requests are sent and some completions are missing
  | .waitRead => if s.endOfOperation then .idle else .waitRead

def nextEndOfOperationR : Bool :=
  if i.engineValid then s.endOfOperation || s.endOfOperationR else s.endOfOperation

/-! ## Position in the current TLP -/

/-- The end of a memory write TLP: where the next one starts and how many dwords it has. -/
def WrPointer.next (p : WrPointer) : WrPointer where
  addr :=
    if s.bounds.wrNumberEven = s.wrCount.modulus then s.txWrAddr i.cfg
    else p.addr + ((s.currentWrTlpWords.setWidth 11).setWidth 64 <<< 2)
  -- the next TLP is the last one of its block, or each block is one TLP
  remaining :=
    if s.bounds.wrNumberEven = s.wrCount.modulus + 1 ∨ s.bounds.wrNumberEven = 1 then
      s.bounds.wrOddWords.setWidth 64
    else maxWordsTlp P
  nextRemainder :=
    if s.bounds.wrNumberEven = s.wrCount.modulus + 1 ∨ s.bounds.wrNumberEven = 1 then
      s.bounds.wrOddWords.setWidth 4
    else (maxWordsTlp P).setWidth 4

/-- `SIZE_AT_DESCRIPTOR[63:2]`. -/
def Config.sizeWords (cfg : Config) : BitVec 64 := cfg.sizeAtDescriptor >>> 2

def nextWrPtr : WrPointer :=
  match s.wrState with
  | .idle =>
      -- the first TLP of an operation is prepared in every idle cycle, without `tready`
      let words := if i.cfg.sizeWords ≤ maxWordsTlp P then i.cfg.sizeWords else maxWordsTlp P
      { remaining := words
        nextRemainder := words.setWidth 4
        addr := i.cfg.addrAtDescriptor }
  | .initWrite =>
      if i.axisRqTready && s.oneWordAtBuffer then
        if s.lastWordAtTlp then WrPointer.next s i s.wrPtr
        else
          -- the header beat has room for four dwords
          { s.wrPtr with
            remaining := s.wrPtr.remaining - 4
            nextRemainder := s.wrPtr.nextRemainder - 4 }
      else s.wrPtr
  | .write =>
      if i.axisRqTready then
        if s.writeEnds then WrPointer.next s i s.wrPtr
        else if s.twoWordsAtBuffer then
          { s.wrPtr with
            remaining := s.wrPtr.remaining - 8
            nextRemainder := s.wrPtr.nextRemainder - 8 }
        else s.wrPtr
      else s.wrPtr
  | _ => s.wrPtr

def nextRdPtr : RdPointer :=
  match s.wrState with
  | .idle =>
      if i.axisRqTready then
        { addr := i.cfg.addrAtDescriptor
          remaining :=
            -- compared with a read request also where a write TLP is the limit
            if i.cfg.sizeWords ≤ maxWordsReadRequest P then i.cfg.sizeWords
            else if i.cfg.capWrite then maxWordsTlp P
            else maxWordsReadRequest P }
      else s.rdPtr
  | .initRead =>
      if s.tagAvailable && i.axisRqTready then
        { remaining :=
            if s.bounds.rdNumberEven = s.rdCount.modulus + 1 ∨ s.bounds.rdNumberEven = 1 then
              s.bounds.rdOddWords.setWidth 64
            else if i.cfg.capWrite then maxWordsTlp P
            else maxWordsReadRequest P
          addr :=
            if s.bounds.rdNumberEven = s.rdCount.modulus then s.txRdAddr i.cfg
            else s.rdPtr.addr + (((s.currentRdTlpWords i.cfg).setWidth 11).setWidth 64 <<< 2) }
      else s.rdPtr
  | _ => s.rdPtr

/-! ## The output register -/

def nextOut : OutData :=
  if i.axisRqTready then
    match s.wrState with
    | .initWrite =>
        -- the header beat carries the first 16 bytes of the payload behind the descriptor
        { tdataHi := s.c2sWord s.out.c2sRdPtr
          tdataLo := packDescriptor s.c2sRqTag memoryWrite (s.currentWrTlpWords.setWidth 11)
            s.wrPtr.addr
          tvalid := s.oneWordAtBuffer
          c2sRdPtr := if s.oneWordAtBuffer then s.out.c2sRdPtr + 1 else s.out.c2sRdPtr }
    | .write =>
        if s.oneWordAtBuffer && s.lastWordAtTlp then
          -- the last beat may take the lower half only
          { tdataHi := 0
            tdataLo := s.c2sWord s.out.c2sRdPtr
            tvalid := true
            c2sRdPtr := s.out.c2sRdPtr + 1 }
        else if s.twoWordsAtBuffer then
          { tdataHi := s.c2sWord (s.out.c2sRdPtr + 1)
            tdataLo := s.c2sWord s.out.c2sRdPtr
            tvalid := true
            c2sRdPtr := s.out.c2sRdPtr + 2 }
        -- the buffer runs dry inside a TLP
        else { s.out with tvalid := false }
    | .initRead =>
        { tdataHi := 0
          tdataLo := packDescriptor s.s2cRqTag memoryRead
            ((s.currentRdTlpWords i.cfg).setWidth 11) s.rdPtr.addr
          -- without a free tag the beat is prepared and not sent
          tvalid := s.tagAvailable
          c2sRdPtr := s.out.c2sRdPtr }
    | _ => { s.out with tvalid := false, tdataHi := 0, tdataLo := 0 }
  else s.out

/-- `TKEEP` of a header beat that ends its TLP, by the dwords left for it. -/
def headerKeep (remainder : BitVec 4) : BitVec 8 :=
  if remainder = 0 then 0x0f
  else if remainder = 1 then 0x1f
  else if remainder = 2 then 0x3f
  else if remainder = 3 then 0x7f
  else 0xff

/-- `TKEEP` of a payload beat that ends its TLP. -/
def payloadKeep (remainder : BitVec 4) : BitVec 8 :=
  if remainder = 0 then 0x00
  else if remainder = 1 then 0x01
  else if remainder = 2 then 0x03
  else if remainder = 3 then 0x07
  else if remainder = 4 then 0x0f
  else if remainder = 5 then 0x1f
  else if remainder = 6 then 0x3f
  else if remainder = 7 then 0x7f
  else 0xff

def nextCtl : OutCtl :=
  if i.axisRqTready then
    match s.wrState with
    | .initWrite =>
        { firstBe := 0xf
          lastBe := if s.wrPtr.remaining ≤ 1 then 0 else 0xf
          tlast := if s.oneWordAtBuffer then s.lastWordAtTlp else s.ctl.tlast
          tkeep :=
            if s.oneWordAtBuffer then
              if s.lastWordAtTlp then headerKeep s.wrPtr.nextRemainder else 0xff
            else s.ctl.tkeep }
    | .write =>
        if s.writeEnds then
          { s.ctl with
            tlast := s.lastTwoWordsAtTlp
            tkeep := payloadKeep s.wrPtr.nextRemainder }
        else s.ctl
    | .initRead =>
        { firstBe := 0xf
          lastBe := if s.rdPtr.remaining.extractLsb' 1 10 = 0 then 0 else 0xf
          tlast := true
          tkeep := 0x0f }
    | _ => s.ctl
  else s.ctl

/-! ## Tags -/

/-- The guard under which tag `j` is taken: the lowest free one inside the window. -/
def issuesTag (j : Fin P.windowSize) : Bool :=
  decide (s.wrState = .initRead) && i.axisRqTready &&
    decide (j.val < (i.currentWindowSize.setWidth 8).toNat) && !s.tags.current j &&
    decide (∀ k : Fin P.windowSize, k < j → s.tags.current k = true)

/-- The tag 0 process has no clause for tags outside the window, the other ones do. -/
def nextTags : TagState P where
  current j :=
    if issuesTag s i j then true
    else if j.val = 0 then s.tags.current j && !i.completedTags j
    else (s.tags.current j && !i.completedTags j) ||
      decide ((i.currentWindowSize.setWidth 8).toNat ≤ j.val)
  size j := if issuesTag s i j then (s.currentRdTlpWords i.cfg).setWidth 11 else s.tags.size j

/-! ## Measurements -/

/-- The guard under which tag `j` starts to count as part of the first block.  The source compares
the lower tags with `-1`, a 32-bit value: shorter vectors are extended with zeros and never match. -/
def marksLatencyTag (j : Fin P.windowSize) : Bool :=
  decide (s.wrState = .initRead) && i.axisRqTready &&
    decide (j.val < (i.currentWindowSize.setWidth 8).toNat) && !s.latency.tags j &&
    (decide (j.val = 0) ||
      (decide (32 ≤ j.val) &&
        decide (∀ k : Fin P.windowSize, k < j → s.latency.tags k = true))) &&
    s.rdCount.current == s.rdCount.modulus

def nextLatency : Latency P where
  update :=
    !(decide (s.wrState = .initWrite) && i.cfg.capWrite && i.axisRqTready) &&
      !(decide (s.wrState = .initRead) && i.cfg.capRead && i.axisRqTready) && s.endOfOperation
  stop :=
    if decide (s.wrState = .initWrite) && i.cfg.capWrite && i.axisRqTready then false
    else if decide (s.wrState = .initRead) && i.cfg.capRead && i.axisRqTready then false
    else if s.endOfOperation then true
    else s.latency.stop
  tags j := if marksLatencyTag s i j then true else s.latency.tags j && !i.completedTags j
  current := if s.latency.stop then 0 else s.latency.current + 1
  timeComp :=
    if s.latency.stop then 0
    else if i.cfg.capRead then
      if s.rdCount.current = s.rdCount.modulus ∨ ∃ j, s.latency.tags j = true then
        s.latency.timeComp + 1
      else s.latency.timeComp
    else if s.wrCount.current = s.wrCount.modulus then s.latency.timeComp + 1
    else s.latency.timeComp
  timeReq :=
    if s.latency.stop then 0
    else if decide (s.wrState ≠ .idle) && s.out.tvalid && i.axisRqTready then s.latency.timeReq + 1
    else if decide (s.wrState ≠ .waitRead) && s.latency.timeReq != 0 then s.latency.timeReq + 1
    else s.latency.timeReq
  bytesComp :=
    if s.latency.stop then 0
    else if i.axisRcTvalid && i.axisRcTready then
      s.latency.bytesComp + BitVec.ofNat 64 (popcount i.axisRcTkeep)
    else s.latency.bytesComp
  bytesReq :=
    if s.latency.stop then 0
    else if s.out.tvalid && i.axisRqTready then
      s.latency.bytesReq + BitVec.ofNat 64 (popcount s.ctl.tkeep)
    else s.latency.bytesReq

/-! ## The module -/

/-- One rising edge of `CLK`. -/
@[simps]
def step : State P where
  c2s := nextC2s s i
  txFixWr := i.cfg.addrAtDescriptor + i.cfg.addressGenOffset
  txFixRd := i.cfg.addrAtDescriptor + i.cfg.addressGenOffset
  random := nextRandom s i
  wrBlock := nextWrBlock s i
  rdBlock := nextRdBlock s i
  bounds := nextBounds P i.cfg
  wrCount := nextWrCount s i
  rdCount := nextRdCount s i
  wrState := nextWrState s i
  wrStatePipe := s.wrState
  windowSize := i.currentWindowSize.setWidth 8
  windowSizeMask := dec2mask P s.windowSize
  endOfOperationR := nextEndOfOperationR s i
  wrPtr := nextWrPtr s i
  rdPtr := nextRdPtr s i
  out := nextOut s i
  ctl := nextCtl s i
  tags := nextTags s i
  latency := nextLatency s i

end Processes

/-- The registers after `RST_N`. -/
def reset (P : Params) : State P where
  c2s := { slots := fun _ => 0, wrPtr := 0 }
  txFixWr := 0
  txFixRd := 0
  random :=
    { randomNumber := 1
      randomNumberModulus := 0
      candidate := 0
      candidatePlus1 := 0
      pageWr := 0
      pageRd := 0
      addressWrNonTruncated := 0
      addressRdNonTruncated := 0
      addressWr := 0
      addressRd := 0
      sizeAtDescriptor := 0
      clogBlock := 0
      blockMinus1 := 0
      offsetWr := 0
      offsetRd := 0 }
  wrBlock := { txSeq := 0, nextTxSeq := 0, txRand := 0, initialPage := 0 }
  rdBlock := { txSeq := 0, nextTxSeq := 0, txRand := 0, initialPage := 0 }
  bounds :=
    { wrTotal := 0
      rdTotal := 0
      wrOddWords := 0
      rdOddWords := 0
      wrNumberEven := 0
      rdNumberEven := 0 }
  wrCount := TlpCount.first
  rdCount := TlpCount.first
  wrState := .idle
  wrStatePipe := .idle
  windowSize := 0
  windowSizeMask := fun _ => false
  endOfOperationR := false
  wrPtr := { remaining := 0, nextRemainder := 0, addr := 0 }
  rdPtr := { addr := 0, remaining := 0 }
  out := { tvalid := false, tdataHi := 0, tdataLo := 0, c2sRdPtr := 0 }
  ctl := { tkeep := 0, tlast := false, firstBe := 0, lastBe := 0 }
  tags := { current := fun _ => false, size := fun _ => 0 }
  latency :=
    { update := false
      stop := true
      tags := fun _ => false
      current := 0
      timeComp := 0
      timeReq := 0
      bytesComp := 0
      bytesReq := 0 }

/-- `dma_rq_logic` as a clocked machine. -/
def machine (P : Params) : Clocked.Machine (State P) (Input P) where
  reset := reset P
  step := step

end Rq
end PcieBench
