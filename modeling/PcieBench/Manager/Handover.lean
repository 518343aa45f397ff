import PcieBench.Manager.Window
import PcieBench.Rq.Addresses
import PcieBench.Rq.Liveness

/-!
# From one descriptor to the next

A descriptor is read through port B of its memories, an output register and `DESCRIPTOR_ADDR` and
`DESCRIPTOR_SIZE`: three cycles.  Between two operations the active index moves, `VALID_ENGINE` falls
for one cycle and `end_of_operation_r` blocks two.  This module follows these registers from cycle to
cycle.  One cycle is missing: when the engine is ready again, it still shows the previous descriptor.
-/

namespace PcieBench

/-! ## Accesses that leave a queue alone -/

namespace Manager

open Clocked

namespace HostAccess

variable (h : HostAccess)

/-- A write to one of the engine registers. -/
def touchesEngine : Bool :=
  h.en && h.we != 0 && decide (engineTableOffset ≤ h.word) &&
    decide (h.word < engineTableOffset + 8)

/-- A write to the address or the size of descriptor `k`. -/
def writesSlot (k : Index) : Bool :=
  h.inTable && h.we != 0 &&
    ((decide (h.effectiveField = 0) && decide (h.tableIndex 0 = k)) ||
      (decide (h.effectiveField = 1) && decide (h.tableIndex 1 = k)))

/-- An access that neither writes an engine register nor one of the descriptors in `slots`. -/
structure Spares (slots : Index → Prop) : Prop where
  engine : h.touchesEngine = false
  descriptors : ∀ k, slots k → h.writesSlot k = false

variable {h}

theorem writesRegister_of_not_touches (hno : h.touchesEngine = false) {k : BitVec 32}
    (hk : k < 8) : h.writesRegister k = false := by
  by_contra hw
  rw [Bool.not_eq_false] at hw
  simp only [writesRegister, Bool.and_eq_true, decide_eq_true_eq] at hw
  obtain ⟨⟨hen, hwe⟩, hword⟩ := hw
  have hlow : engineTableOffset ≤ h.word := by
    rw [hword]
    unfold engineTableOffset
    bv_omega
  have hhigh : h.word < engineTableOffset + 8 := by
    rw [hword]
    unfold engineTableOffset
    bv_omega
  rw [touchesEngine, hen, hwe, decide_eq_true hlow, decide_eq_true hhigh] at hno
  cases hno

theorem writesControl_of_not_touches (hno : h.touchesEngine = false) : h.writesControl = false := by
  rw [writesControl, writesRegister_of_not_touches hno (by decide)]
  rfl

theorem store_of_not_touches (hno : h.touchesEngine = false) {k : BitVec 32} (hk : k < 8)
    (old : BitVec 64) : h.store k old = old := by
  rw [store, writesRegister_of_not_touches hno hk, if_neg (by simp)]

end HostAccess

/-- What port A writes was addressed by the host one cycle before. -/
theorem nextPort_writes {i : Input} {port : PortA Index} {field : BitVec 32} {k : Index}
    (h : (nextPort i port field).writes k = true) :
    i.host.inTable = true ∧ (i.host.we != 0) = true ∧ i.host.effectiveField = field.setWidth 3 ∧
      i.host.tableIndex field = k := by
  simp only [PortA.writes, nextPort, Bool.and_eq_true, decide_eq_true_eq] at h
  obtain ⟨⟨⟨⟨hupdate, htable⟩, hfield⟩, hwe⟩, hindex⟩ := h
  rw [hupdate, htable] at hwe
  exact ⟨htable, by simpa using hwe, hfield, hindex⟩

/-- The registers and the descriptors of a queue are those of `m₀`, and no write to them is on its
way. -/
structure Kept (slots : Index → Prop) (m₀ m : State) : Prop where
  lastIndex : m.regs.lastIndexDescriptor = m₀.regs.lastIndexDescriptor
  capabilities : m.regs.capabilities = m₀.regs.capabilities
  addressMode : m.regs.addressMode = m₀.regs.addressMode
  windowSize : m.regs.windowSize = m₀.regs.windowSize
  bufferAtHost : m.regs.bufferAtHost = m₀.regs.bufferAtHost
  addressGenOffset : m.regs.addressGenOffset = m₀.regs.addressGenOffset
  numberTlps : m.regs.numberTlps = m₀.regs.numberTlps
  address : ∀ k, slots k → m.memories.address.mem k = m₀.memories.address.mem k
  size : ∀ k, slots k → m.memories.size.mem k = m₀.memories.size.mem k
  addressPort : ∀ k, slots k → m.addressPort.writes k = false
  sizePort : ∀ k, slots k → m.sizePort.writes k = false

/-- The ports after an access that spares the queue. -/
theorem nextPort_of_spares {slots : Index → Prop} {i : Input} (hi : i.host.Spares slots)
    (port : PortA Index) {k : Index} (hk : slots k) :
    (nextPort i port 0).writes k = false ∧ (nextPort i port 1).writes k = false := by
  have hslot := hi.descriptors k hk
  constructor
  · cases hw : (nextPort i port 0).writes k with
    | false =>
        rfl
    | true =>
        obtain ⟨htable, hwe, hfield, hindex⟩ := nextPort_writes hw
        have hzero : i.host.effectiveField = 0 := hfield
        rw [HostAccess.writesSlot, htable, hwe, decide_eq_true hzero, decide_eq_true hindex] at hslot
        cases hslot
  · cases hw : (nextPort i port 1).writes k with
    | false =>
        rfl
    | true =>
        obtain ⟨htable, hwe, hfield, hindex⟩ := nextPort_writes hw
        have hone : i.host.effectiveField = 1 := hfield
        rw [HostAccess.writesSlot, htable, hwe, decide_eq_true hone, decide_eq_true hindex,
          Bool.and_true, Bool.or_true] at hslot
        cases hslot

theorem Kept.step {slots : Index → Prop} {m₀ m : State} (h : Kept slots m₀ m) {i : Input}
    (hi : i.host.Spares slots) : Kept slots m₀ (step m i) := by
  have hreg := fun {k : BitVec 32} (hk : k < 8) =>
    HostAccess.writesRegister_of_not_touches hi.engine hk
  have hcontrol := HostAccess.writesControl_of_not_touches hi.engine
  have hstore := fun {k : BitVec 32} (hk : k < 8) old =>
    HostAccess.store_of_not_touches hi.engine hk old
  -- the registers see no write, the memories none that was on its way, the ports no new one
  refine ⟨?_, ?_, ?_, ?_, ?_, ?_, ?_, ?_, ?_, ?_, ?_⟩
  · simp only [step_regs, nextRegisters, hreg (k := 1) (by decide), Bool.false_and,
      Bool.false_eq_true, if_false]
    exact h.lastIndex
  · simp only [step_regs, nextRegisters, hcontrol, Bool.false_eq_true, if_false]
    exact h.capabilities
  · simp only [step_regs, nextRegisters, hcontrol, Bool.false_eq_true, if_false]
    exact h.addressMode
  · exact (hstore (k := 3) (by decide) _).trans h.windowSize
  · exact (hstore (k := 4) (by decide) _).trans h.bufferAtHost
  · exact (hstore (k := 5) (by decide) _).trans h.addressGenOffset
  · exact (hstore (k := 7) (by decide) _).trans h.numberTlps
  · intro k hk
    rw [step_memories, nextMemories, Bram.step_mem_of_not_writes _ _ _ _ (h.addressPort k hk)]
    exact h.address k hk
  · intro k hk
    rw [step_memories, nextMemories, Bram.step_mem_of_not_writes _ _ _ _ (h.sizePort k hk)]
    exact h.size k hk
  · intro k hk
    exact (nextPort_of_spares hi _ hk).1
  · intro k hk
    exact (nextPort_of_spares hi _ hk).2

/-! ## The way of a descriptor through the registers -/

/-- The descriptors of `m₀` on their way: the one shown to the requester side, the one behind it in
the output registers of the memories, and the one just read. -/
structure Fetched (m₀ m : State) (shown next latched : Index) : Prop where
  addr : m.out.addr = m₀.memories.address.mem shown
  size : m.out.size = m₀.memories.size.mem shown
  nextAddr : m.memories.address.doutb = m₀.memories.address.mem next
  nextSize : m.memories.size.doutb = m₀.memories.size.mem next
  latchedAddr : m.memories.address.latchb = m₀.memories.address.mem latched
  latchedSize : m.memories.size.latchb = m₀.memories.size.mem latched

/-- Every clock edge moves the descriptors on and reads the active one. -/
theorem Fetched.step {slots : Index → Prop} {m₀ m : State} {x y z k : Index}
    (h : Fetched m₀ m x y z) (hk : Kept slots m₀ m) (hslot : slots k)
    (hactive : m.progress.activeIndexDescriptor = k) (i : Input) :
    Fetched m₀ (step m i) y z k := by
  refine ⟨h.nextAddr, h.nextSize, h.latchedAddr, h.latchedSize, ?_, ?_⟩
  · have hquiet := hk.addressPort k hslot
    rw [← hactive] at hquiet hslot ⊢
    rw [step_memories, nextMemories, Bram.step_latchb_of_not_writes _ _ _ _ hquiet]
    exact hk.address _ hslot
  · have hquiet := hk.sizePort k hslot
    rw [← hactive] at hquiet hslot ⊢
    rw [step_memories, nextMemories, Bram.step_latchb_of_not_writes _ _ _ _ hquiet]
    exact hk.size _ hslot

/-- An enabled engine at descriptor `k`, with the delayed index `pipe`. -/
structure Position (m : State) (k pipe : Index) (valid : Bool) : Prop where
  active : m.progress.activeIndexDescriptor = k
  pipe : m.out.activeIndexPipe = pipe
  valid : m.out.validEngine = valid
  enable : m.regs.enable = true
  stop : m.progress.stop = false
  stats : m.regs.clEngineStats = false

/-- The engine registers after an access that spares them. -/
theorem registers_of_not_touches (m : State) {i : Input} (hno : i.host.touchesEngine = false) :
    (step m i).regs.enable = (m.regs.enable && !m.progress.stop) ∧
      (step m i).regs.clEngineStats = false := by
  have hcontrol := HostAccess.writesControl_of_not_touches hno
  constructor <;> simp [nextRegisters, hcontrol]

/-- A clock edge without the end of an operation. -/
theorem step_of_no_end (m : State) {i : Input} (hend : i.isEndOfOperation = false) :
    (step m i).progress.activeIndexDescriptor = m.progress.activeIndexDescriptor ∧
      (step m i).out.activeIndexPipe = m.progress.activeIndexDescriptor ∧
      (step m i).out.validEngine =
        (decide (m.progress.activeIndexDescriptor = m.out.activeIndexPipe) && m.regs.enable) ∧
      (step m i).progress.stop = false := by
  refine ⟨?_, rfl, ?_, ?_⟩
  · simp [nextProgress, hend]
  · simp [nextOut, hend]
  · simp [nextProgress, hend]

/-- Without the end of an operation the engine is valid once the delayed index has caught up. -/
theorem Position.step {m : State} {k pipe : Index} {valid : Bool} (h : Position m k pipe valid)
    {i : Input} (hend : i.isEndOfOperation = false) (hno : i.host.touchesEngine = false) :
    Position (step m i) k k (decide (k = pipe)) := by
  obtain ⟨henable, hstats⟩ := registers_of_not_touches m hno
  obtain ⟨hactive, hpipe, hvalid, hstop⟩ := step_of_no_end m hend
  rw [h.active] at hactive hpipe
  rw [h.active, h.pipe, h.enable, Bool.and_true] at hvalid
  rw [h.enable, h.stop] at henable
  exact ⟨hactive, hpipe, hvalid, henable, hstop, hstats⟩

/-- The end of an operation moves to the next descriptor, unless it was the last one. -/
theorem Position.next {m : State} {k pipe : Index} {valid : Bool} (h : Position m k pipe valid)
    {i : Input} (hend : i.isEndOfOperation = true) (hno : i.host.touchesEngine = false)
    (hlast : k ≠ m.regs.lastIndexDescriptor) : Position (Manager.step m i) (k + 1) k true := by
  obtain ⟨henable, hstats⟩ := registers_of_not_touches m hno
  refine ⟨?_, ?_, ?_, ?_, ?_, hstats⟩
  · simp [nextProgress, hend, h.active, nextIndex_eq]
  · simp [nextOut, h.active]
  · simp [nextOut, hend, h.active, hlast]
  · rw [henable, h.enable, h.stop]
    rfl
  · simp [nextProgress, hend, h.active, hlast]

/-- The end of the last operation stops the engine. -/
theorem Position.last {m : State} {k pipe : Index} {valid : Bool} (h : Position m k pipe valid)
    {i : Input} (hend : i.isEndOfOperation = true) (hno : i.host.touchesEngine = false)
    (hlast : k = m.regs.lastIndexDescriptor) :
    (Manager.step m i).progress.activeIndexDescriptor = k + 1 ∧
      (Manager.step m i).out.activeIndexPipe = k ∧
      (Manager.step m i).out.validEngine = false ∧
      (Manager.step m i).regs.enable = true ∧
      (Manager.step m i).progress.stop = true := by
  obtain ⟨henable, -⟩ := registers_of_not_touches m hno
  refine ⟨?_, ?_, ?_, ?_, ?_⟩
  · simp [nextProgress, hend, h.active, nextIndex_eq]
  · simp [nextOut, h.active]
  · simp [nextOut, hend, h.active, ← hlast]
  · rw [henable, h.enable, h.stop]
    rfl
  · simp [nextProgress, hend, h.active, h.stats, ← hlast]

/-- The configuration that descriptor `k` stands for. -/
def queueConfig (m₀ : State) (k : Index) : Rq.Config :=
  { Engine.descriptor m₀ with
    addrAtDescriptor := m₀.memories.address.mem k
    sizeAtDescriptor := m₀.memories.size.mem k }

theorem Kept.descriptor_eq {slots : Index → Prop} {m₀ m : State} (h : Kept slots m₀ m)
    {x y z : Index} (hf : Fetched m₀ m x y z) : Engine.descriptor m = queueConfig m₀ x := by
  simp only [Engine.descriptor, queueConfig, h.capabilities, h.addressMode, h.bufferAtHost,
    h.addressGenOffset, h.numberTlps, hf.addr, hf.size]

end Manager

end PcieBench
