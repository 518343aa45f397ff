import PcieBench.Clocked.Bram
import PcieBench.Clocked.Trace

/-!
# dma_engine_manager

The register file of the DMA engine, the descriptor memories and the queue of descriptors.  The
registers are grouped by the `always` block that assigns them and keep their Verilog names without
the `_r` suffix.  `ACTIVE_ENGINE` is tied to 0 in `dma_logic`, so the comparison with its own pipe
register always holds and both are left out; so are `C_DEFAULT_TIMEOUT`, `DWORD_TLP` and `IRQ`, which
nothing reads.
-/

namespace PcieBench
namespace Manager

open Clocked

/-! ## Ports -/

/-- The index of a descriptor, `C_NUM_DESCRIPTORS` = 1024. -/
abbrev Index := BitVec 10

/-- An access through `S_MEM_IFACE`. -/
structure HostAccess where
  en : Bool
  addr : BitVec 16
  din : BitVec 64
  we : BitVec 8
  deriving DecidableEq, Repr

/-- The measurements of an operation that end up in the statistics memories. -/
structure Statistics where
  time : BitVec 64
  reqTime : BitVec 64
  compTime : BitVec 64
  reqBytes : BitVec 64
  compBytes : BitVec 64

/-- What port B of each memory reads on a collision. -/
structure Collisions where
  size : BitVec 64
  address : BitVec 64
  control : BitVec 64
  statistics : Statistics

/-- The inputs of one clock cycle.  `CONTROL_BYTE` carries the end of the operation and its error
bit. -/
structure Input where
  host : HostAccess
  isEndOfOperation : Bool
  operationError : Bool
  byteCount : BitVec 64
  updateLatency : Bool
  current : Statistics
  collisions : Collisions

/-! ## Registers -/

/-- The engine registers, written through `S_MEM_IFACE`. -/
structure Registers where
  enable : Bool
  reset : Bool
  clEngineStats : Bool
  lastIndexDescriptor : Index
  capabilities : BitVec 2
  addressMode : BitVec 2
  windowSize : BitVec 64
  bufferAtHost : BitVec 64
  addressGenOffset : BitVec 64
  addressGenIncr : BitVec 64
  numberTlps : BitVec 64

/-- The outputs registered behind port B of the descriptor memories, and the pipe register that
delays `VALID_ENGINE` until they show a new index. -/
structure DescriptorOut where
  addr : BitVec 64
  size : BitVec 64
  windowSize : BitVec 64
  activeIndexPipe : Index
  validEngine : Bool

/-- The memories of the descriptors and of the statistics. -/
structure Memories where
  size : Bram Index
  address : Bram Index
  control : Bram Index
  time : Bram Index
  reqTime : Bram Index
  compTime : Bram Index
  reqBytes : Bram Index
  compBytes : Bram Index

/-- The registers in front of port A of the statistics memories, which share enable and write
enable; the host reads them through port B. -/
structure StatisticsPort where
  enaTime : Bool
  weaTime : BitVec 8
  dina : Statistics
  addraTime : Index
  addraReqTime : Index
  addraCompTime : Index
  addraReqBytes : Index
  addraCompBytes : Index

/-- The answer to a read of the host. -/
structure ReadOut where
  rdataEngine : BitVec 64
  rdataDescriptor : BitVec 64
  isEngineRead : Bool
  ackPending1 : Bool
  ackPending2 : Bool
  ackPending3 : Bool
  ack : Bool

/-- The counters and flags of the running operation. -/
structure Progress where
  time : BitVec 64
  byteCount : BitVec 64
  running : Bool
  stop : Bool
  error : Bool
  activeIndexDescriptor : Index

/-- All registers of the module. -/
structure State where
  regs : Registers
  out : DescriptorOut
  memories : Memories
  sizePort : PortA Index
  addressPort : PortA Index
  controlPort : PortA Index
  statisticsPort : StatisticsPort
  read : ReadOut
  progress : Progress

/-! ## Decoding -/

/-- `C_ENGINE_TABLE_OFFSET`. -/
def engineTableOffset : BitVec 32 := 0x200

/-- `c_offset_engines_config` and `c_offset_between_descriptors`. -/
def offsetEnginesConfig : BitVec 32 := 8

def offsetBetweenDescriptors : BitVec 32 := 8

namespace HostAccess

variable (h : HostAccess)

/-- The address in the 32 bits of the expressions it is used in. -/
def word : BitVec 32 := h.addr.setWidth 32

/-- `effective_addres_s`, the address relative to the descriptor table. -/
def effectiveAddress : BitVec 32 := h.word - engineTableOffset - offsetEnginesConfig

/-- `effective_addres_trunc_s`, the word of the descriptor. -/
def effectiveField : BitVec 3 := h.effectiveAddress.setWidth 3

/-- The access falls into the descriptor table (one word past its end still does). -/
def inTable : Bool :=
  h.en && decide (h.effectiveAddress ≤ offsetBetweenDescriptors * 1024)

/-- The index in the memory of field `field` of the descriptors. -/
def tableIndex (field : BitVec 32) : Index :=
  ((h.word - engineTableOffset - offsetEnginesConfig - field) / offsetBetweenDescriptors).setWidth 10

/-- A write to the engine register at offset `k`. -/
def writesRegister (k : BitVec 32) : Bool :=
  h.en && h.we != 0 && decide (h.word = engineTableOffset + k)

/-- The value of a 64-bit engine register after the access. -/
def store (k : BitVec 32) (old : BitVec 64) : BitVec 64 :=
  if h.writesRegister k then writeBytes h.we old h.din else old

/-- A write to the control byte. -/
def writesControl : Bool := h.writesRegister 0 && h.we.getLsbD 0

end HostAccess

/-! ## The queue -/

/-- The index after `k`, around the end of the table. -/
def nextIndex (k : Index) : Index := if k = 1023 then 0 else k + 1

theorem nextIndex_eq (k : Index) : nextIndex k = k + 1 := by
  unfold nextIndex
  split
  · rename_i h
    rw [h]
    rfl
  · rfl

/-- The descriptors that an enabled engine goes through: from `k` on, until it ends the operation of
the last one.  The first argument bounds their number. -/
def served (last : Index) : Nat → Index → List Index
  | 0, _ => []
  | n + 1, k => k :: if k = last then [] else served last n (nextIndex k)

/-- The engine goes from the active descriptor up to the last one. -/
theorem served_eq {last : Index} {n : Nat} {k : Index} (h : (last - k).toNat < n) :
    served last n k =
      (List.range ((last - k).toNat + 1)).map (fun i => k + BitVec.ofNat 10 i) := by
  induction n generalizing k with
  | zero =>
      omega
  | succ n ih =>
      unfold served
      by_cases hk : k = last
      · subst hk
        simp
      · have hne : (last - k).toNat ≠ 0 := by
          intro h0
          apply hk
          have hzero : last - k = 0 := BitVec.eq_of_toNat_eq (by simpa using h0)
          rw [BitVec.sub_eq_iff_eq_add] at hzero
          simpa using hzero.symm
        -- one step brings the engine closer by one
        have hdist : (last - nextIndex k).toNat + 1 = (last - k).toNat := by
          rw [nextIndex_eq, ← BitVec.sub_sub, BitVec.toNat_sub]
          have hlt := (last - k).isLt
          have hone : BitVec.toNat (1 : Index) = 1 := rfl
          rw [hone]
          omega
        rw [if_neg hk, ih (by omega), hdist, List.range_succ_eq_map, List.map_cons, List.map_map]
        congr 1
        · simp
        · apply List.map_congr_left
          intro i _
          simp only [Function.comp, nextIndex_eq, Nat.succ_eq_add_one, BitVec.ofNat_add]
          rw [BitVec.add_assoc, BitVec.add_comm (1 : Index)]
          rfl

/-! ## The clocked processes -/

section Processes

variable (s : State) (i : Input)

/-- The write logic.  `enable` falls after `stop` unless the host writes it, and the statistics are
cleared when the host enables or resets the engine. -/
def nextRegisters : Registers where
  enable := if i.host.writesControl then i.host.din.getLsbD 0 else s.regs.enable && !s.progress.stop
  reset := i.host.writesControl && i.host.din.getLsbD 1
  clEngineStats := i.host.writesControl && (i.host.din.getLsbD 1 || i.host.din.getLsbD 0)
  lastIndexDescriptor :=
    -- the macro `CLOG2` is not parenthesised, so the first branch is always taken
    if i.host.writesRegister 1 && i.host.we.getLsbD 0 then i.host.din.setWidth 10
    else s.regs.lastIndexDescriptor
  capabilities :=
    if i.host.writesControl then i.host.din.extractLsb' 2 2 else s.regs.capabilities
  addressMode := if i.host.writesControl then i.host.din.extractLsb' 4 2 else s.regs.addressMode
  windowSize := i.host.store 3 s.regs.windowSize
  bufferAtHost := i.host.store 4 s.regs.bufferAtHost
  addressGenOffset := i.host.store 5 s.regs.addressGenOffset
  addressGenIncr := i.host.store 6 s.regs.addressGenIncr
  numberTlps := i.host.store 7 s.regs.numberTlps

def nextOut : DescriptorOut where
  addr := s.memories.address.doutb
  size := s.memories.size.doutb
  windowSize := s.regs.windowSize
  activeIndexPipe := s.progress.activeIndexDescriptor
  validEngine :=
    -- between two descriptors it stays up for one cycle and then waits for the memories
    if i.isEndOfOperation then
      decide (s.progress.activeIndexDescriptor ≠ s.regs.lastIndexDescriptor)
    else decide (s.progress.activeIndexDescriptor = s.out.activeIndexPipe) && s.regs.enable

/-- The registers in front of port A of the memory of field `field`. -/
def nextPort (port : PortA Index) (field : BitVec 32) : PortA Index where
  -- an update of the statistics has priority, so an access in the same cycle is lost
  en := !i.updateLatency && i.host.inTable && decide (i.host.effectiveField = field.setWidth 3)
  we := if !i.updateLatency && i.host.inTable then i.host.we else port.we
  addr := i.host.tableIndex field
  din := i.host.din

def nextStatisticsPort : StatisticsPort where
  enaTime := i.updateLatency
  weaTime :=
    if i.updateLatency then 0xff
    else if i.host.inTable then 0
    else s.statisticsPort.weaTime
  dina := i.current
  addraTime := i.host.tableIndex 3
  addraReqTime := i.host.tableIndex 4
  addraCompTime := i.host.tableIndex 5
  addraReqBytes := i.host.tableIndex 6
  addraCompBytes := i.host.tableIndex 7

/-- Port A of a statistics memory: the slot of the active descriptor. -/
def statisticsAccess (din : BitVec 64) : PortA Index where
  en := s.statisticsPort.enaTime
  we := s.statisticsPort.weaTime
  addr := s.progress.activeIndexDescriptor
  din := din

/-- Port B of the descriptor memories reads the active descriptor. -/
def nextMemories : Memories where
  size := s.memories.size.step s.sizePort s.progress.activeIndexDescriptor i.collisions.size
  address :=
    s.memories.address.step s.addressPort s.progress.activeIndexDescriptor i.collisions.address
  control :=
    s.memories.control.step s.controlPort s.progress.activeIndexDescriptor i.collisions.control
  time := s.memories.time.step (statisticsAccess s s.statisticsPort.dina.time)
    s.statisticsPort.addraTime i.collisions.statistics.time
  reqTime := s.memories.reqTime.step (statisticsAccess s s.statisticsPort.dina.reqTime)
    s.statisticsPort.addraReqTime i.collisions.statistics.reqTime
  compTime := s.memories.compTime.step (statisticsAccess s s.statisticsPort.dina.compTime)
    s.statisticsPort.addraCompTime i.collisions.statistics.compTime
  reqBytes := s.memories.reqBytes.step (statisticsAccess s s.statisticsPort.dina.reqBytes)
    s.statisticsPort.addraReqBytes i.collisions.statistics.reqBytes
  compBytes := s.memories.compBytes.step (statisticsAccess s s.statisticsPort.dina.compBytes)
    s.statisticsPort.addraCompBytes i.collisions.statistics.compBytes

/-- The engine register that a read returns, if the address is one of the first four. -/
def engineRead : Option (BitVec 64) :=
  if i.host.word = engineTableOffset then
    some ((s.regs.capabilities ++ BitVec.ofBool s.progress.error ++ BitVec.ofBool s.progress.stop ++
      BitVec.ofBool s.progress.running ++ BitVec.ofBool s.regs.reset ++
      BitVec.ofBool s.regs.enable).setWidth 64)
  else if i.host.word = engineTableOffset + 1 then
    some ((s.progress.activeIndexDescriptor ++ s.regs.lastIndexDescriptor).setWidth 64)
  else if i.host.word = engineTableOffset + 2 then some s.progress.time
  else if i.host.word = engineTableOffset + 3 then some s.progress.byteCount
  else none

/-- The word of the descriptor that a read returns.  The address and the control word come from
port B, at the active descriptor. -/
def descriptorRead : BitVec 64 :=
  if i.host.effectiveField = 0 then s.memories.address.doutb
  else if i.host.effectiveField = 1 then s.memories.size.douta
  else if i.host.effectiveField = 2 then s.memories.control.doutb
  else if i.host.effectiveField = 3 then s.memories.time.doutb
  else if i.host.effectiveField = 4 then s.memories.reqTime.doutb
  else if i.host.effectiveField = 5 then s.memories.compTime.doutb
  else if i.host.effectiveField = 6 then s.memories.reqBytes.doutb
  else s.memories.compBytes.doutb

def nextRead : ReadOut where
  rdataEngine := if i.host.en then (engineRead s i).getD 0 else s.read.rdataEngine
  isEngineRead := if i.host.en then (engineRead s i).isSome else s.read.isEngineRead
  rdataDescriptor := descriptorRead s i
  -- the acknowledgement follows four cycles later, the time the memories need
  ackPending1 := i.host.en
  ackPending2 := s.read.ackPending1
  ackPending3 := s.read.ackPending2
  ack := s.read.ackPending3

/-- `S_MEM_IFACE_DOUT`. -/
def State.dout : BitVec 64 :=
  if s.read.isEngineRead then s.read.rdataEngine else s.read.rdataDescriptor

def nextProgress : Progress where
  time :=
    if s.regs.clEngineStats then 0
    else if s.regs.enable && !s.progress.stop then s.progress.time + 1
    else s.progress.time
  byteCount :=
    if s.regs.clEngineStats then 0
    else if s.regs.enable && !s.progress.stop then s.progress.byteCount + i.byteCount
    else s.progress.byteCount
  running := s.regs.enable && !s.progress.stop
  -- `enable` falls in the cycle after it
  stop := !s.regs.clEngineStats && i.isEndOfOperation &&
    decide (s.progress.activeIndexDescriptor = s.regs.lastIndexDescriptor)
  error := !s.regs.clEngineStats && i.operationError
  activeIndexDescriptor :=
    if i.isEndOfOperation then nextIndex s.progress.activeIndexDescriptor
    else s.progress.activeIndexDescriptor

/-- One rising edge of `CLK`. -/
@[simps]
def step : State where
  regs := nextRegisters s i
  out := nextOut s i
  memories := nextMemories s i
  sizePort := nextPort i s.sizePort 1
  addressPort := nextPort i s.addressPort 0
  controlPort := nextPort i s.controlPort 2
  statisticsPort := nextStatisticsPort s i
  read := nextRead s i
  progress := nextProgress s i

end Processes

/-- The registers after `RST_N`.  It does not clear the memories, and the default window is a
parameter of the instance. -/
def reset (defaultWindowSize : Nat) (memories : Memories) : State where
  regs :=
    { enable := false
      reset := false
      clEngineStats := false
      lastIndexDescriptor := 0
      capabilities := 2
      addressMode := 0
      windowSize := BitVec.ofNat 64 defaultWindowSize
      bufferAtHost := 0
      addressGenOffset := 0
      addressGenIncr := 0
      numberTlps := 0 }
  out :=
    { addr := 0
      size := 0
      windowSize := BitVec.ofNat 64 defaultWindowSize
      activeIndexPipe := 0
      validEngine := false }
  memories := memories
  sizePort := { en := false, we := 0, addr := 0, din := 0 }
  addressPort := { en := false, we := 0, addr := 0, din := 0 }
  controlPort := { en := false, we := 0, addr := 0, din := 0 }
  statisticsPort :=
    { enaTime := false
      weaTime := 0
      dina := { time := 0, reqTime := 0, compTime := 0, reqBytes := 0, compBytes := 0 }
      addraTime := 0
      addraReqTime := 0
      addraCompTime := 0
      addraReqBytes := 0
      addraCompBytes := 0 }
  read :=
    { rdataEngine := 0
      rdataDescriptor := 0
      isEngineRead := false
      ackPending1 := false
      ackPending2 := false
      ackPending3 := false
      ack := false }
  progress :=
    { time := 0
      byteCount := 0
      running := false
      stop := false
      error := false
      activeIndexDescriptor := 0 }

end Manager
end PcieBench
