import PcieBench.Completer.ReadData
import PcieBench.Manager.Engine
import PcieBench.Manager.Table
import PcieBench.Rq.Measure

/-!
# The statistics of an operation

The measurements of an operation take three cycles from its end to their memories: a register in
`dma_rq_logic`, the registers in front of port A and the memory itself.  Meanwhile the active
descriptor moves on, so they are found in the slot behind the descriptor of the operation.
-/

namespace PcieBench
namespace Bar0

open Clocked
open Manager (Index)

/-! ## One edge of the statistics memories -/

/-- The measurement that goes to a statistics memory. -/
def StatField.measured (f : StatField) (c : Manager.Statistics) : BitVec 64 :=
  match f with
  | .latency => c.time
  | .timeAtReq => c.reqTime
  | .timeAtComp => c.compTime
  | .bytesAtReq => c.reqBytes
  | .bytesAtComp => c.compBytes

variable {s : Manager.State} {i : Manager.Input}

/-- A slot that is not written keeps its word. -/
theorem StatField.mem_of_not_writes (f : StatField) {j : Index}
    (h : statisticsWrites s j = false) :
    (f.memory (Manager.step s i).memories).mem j = (f.memory s.memories).mem j := by
  cases f <;> exact Bram.step_mem_of_not_writes _ _ _ _ h

/-- A slot that is written takes the measurement as a whole. -/
theorem StatField.mem_of_writes (f : StatField) {j : Index} (h : statisticsWrites s j = true)
    (hwe : s.statisticsPort.weaTime = 0xff#8) :
    (f.memory (Manager.step s i).memories).mem j = f.measured s.statisticsPort.dina := by
  simp only [statisticsWrites, PortA.writes, Manager.statisticsAccess, Bool.and_eq_true] at h
  obtain ⟨⟨hen, -⟩, hj⟩ := h
  obtain rfl := of_decide_eq_true hj
  cases f <;>
    simp [StatField.memory, StatField.measured, Manager.nextMemories, Manager.statisticsAccess,
      Bram.step, hen, hwe, writeBytes_all]

/-- Port A writes after an update, in the slot of the active descriptor. -/
theorem statisticsWrites_step (s : Manager.State) (i : Manager.Input) (j : Index) :
    statisticsWrites (Manager.step s i) j =
      (i.updateLatency && decide ((Manager.step s i).progress.activeIndexDescriptor = j)) := by
  cases h : i.updateLatency <;>
    simp [statisticsWrites, PortA.writes, Manager.statisticsAccess, Manager.nextStatisticsPort, h]

end Bar0

namespace Engine

open Clocked
open Bar0 (StatField statisticsWrites)
open Manager (Index nextIndex TableField)
open Rq (Params Run pcieController)

section Statistics

variable {P : Params} (memories : Manager.Memories) (inp : Nat → Input P)

/-! ## From the end of an operation to the memories -/

/-- The word of a statistics memory in cycle `t`. -/
def statistic (f : StatField) (t : Nat) (j : Index) : BitVec 64 :=
  (f.memory (mgr memories inp t).memories).mem j

/-- The measurements that `dma_rq_logic` shows in cycle `t`. -/
def measurement (f : StatField) (t : Nat) : BitVec 64 :=
  f.measured (mgrInput (sys memories inp t) (inp t)).current

/-- The active descriptor in cycle `t`. -/
def active (t : Nat) : Index := (mgr memories inp t).progress.activeIndexDescriptor

theorem active_succ (t : Nat) : active memories inp (t + 1) =
    if (Rq.st (rqRun memories inp) t).endOfOperation then nextIndex (active memories inp t)
    else active memories inp t := by
  rw [active, mgr_succ, Manager.step_progress, Manager.nextProgress, mgrInput_isEndOfOperation]
  rfl

theorem updateLatency_succ (t : Nat) :
    (mgrInput (sys memories inp (t + 1)) (inp (t + 1))).updateLatency =
      (Rq.st (rqRun memories inp) t).endOfOperation := by
  have hupdate : (mgrInput (sys memories inp (t + 1)) (inp (t + 1))).updateLatency =
      (Rq.st (rqRun memories inp) (t + 1)).latency.update := by
    rw [st_rqRun]
    rfl
  rw [hupdate, Rq.st_succ, Rq.update_succ]

/-- Two cycles after the end of an operation, and only then, port A writes the slot behind its
descriptor. -/
theorem writes_after (t : Nat) (j : Index) :
    statisticsWrites (mgr memories inp (t + 2)) j = true ↔
      (Rq.st (rqRun memories inp) t).endOfOperation = true ∧
        j = nextIndex (active memories inp t) := by
  rw [mgr_succ, Bar0.statisticsWrites_step, updateLatency_succ, Bool.and_eq_true, decide_eq_true_eq,
    ← mgr_succ]
  refine and_congr_right ?_
  intro hend
  -- the index moves behind cycle `t` and, as an end lasts one cycle, not again behind the next one
  have hnext : active memories inp (t + 2) = nextIndex (active memories inp t) := by
    have honce := (Rq.endOfOperation_once hend (rqRun memories inp t)).2
    rw [← Rq.st_succ] at honce
    rw [active_succ, honce, active_succ, hend]
    rfl
  rw [← hnext, eq_comm]
  rfl

/-- Three cycles after a cycle in which no operation ends the memories are as they were. -/
theorem statistic_of_not_written (f : StatField) {t : Nat} {j : Index}
    (h : (Rq.st (rqRun memories inp) t).endOfOperation = true → j ≠ nextIndex (active memories inp t)) :
    statistic memories inp f (t + 3) j = statistic memories inp f (t + 2) j := by
  rw [statistic, mgr_succ]
  refine f.mem_of_not_writes ?_
  rw [← Bool.not_eq_true, writes_after]
  rintro ⟨hend, hj⟩
  exact h hend hj

/-- Three cycles after its end the measurements of an operation are in the memories. -/
theorem statistic_of_ended (f : StatField) {t : Nat}
    (hend : (Rq.st (rqRun memories inp) t).endOfOperation = true) :
    statistic memories inp f (t + 3) (nextIndex (active memories inp t)) =
      measurement memories inp f (t + 1) := by
  have hport := mgr_succ memories inp (t + 1)
  have hwe : (mgr memories inp (t + 2)).statisticsPort.weaTime = 0xff#8 := by
    rw [hport, Manager.step_statisticsPort, Manager.nextStatisticsPort, updateLatency_succ, hend]
    rfl
  rw [statistic, mgr_succ, f.mem_of_writes ((writes_after memories inp t _).mpr ⟨hend, rfl⟩) hwe,
    hport]
  rfl

/-! ## The slot of an operation -/

/-- The host writes no engine register from cycle `start` until cycle `t`. -/
def RegistersKept (inp : Nat → Input P) (start t : Nat) : Prop :=
  ∀ u, start ≤ u → u < t → ∀ k : BitVec 32, k < 8 → (inp u).host.writesRegister k = false

variable {inp}

theorem RegistersKept.capabilities {start t u : Nat} (h : RegistersKept inp start t)
    (hsu : start ≤ u) (hut : u ≤ t) :
    (mgr memories inp u).regs.capabilities = (mgr memories inp start).regs.capabilities := by
  induction u, hsu using Nat.le_induction with
  | base =>
      rfl
  | succ u hsu ih =>
      have hno : (inp u).host.writesControl = false := by
        rw [Manager.HostAccess.writesControl, h u hsu hut 0 (by decide)]
        rfl
      rw [mgr_succ, Manager.step_regs, ← ih (by omega)]
      simp [Manager.nextRegisters, hno]

/-- The descriptor table may change during an operation, the capabilities do not. -/
theorem RegistersKept.measured {start s t : Nat} (h : RegistersKept inp start t)
    (op : Rq.Spans (rqRun memories inp) start s t) : Rq.Measured (rqRun memories inp) start s t := by
  refine ⟨op, ?_⟩
  intro u hsu hus
  have hend := op.lt_end
  simp only [rqRun_cfg, descriptor, h.capabilities memories hsu (show u ≤ t by omega)]
  exact ⟨trivial, trivial⟩

/-- What becomes of the measurements of the operation that starts in cycle `start`, opens the gate in
cycle `s` and ends in cycle `t`, until cycle `stop`. -/
structure StatisticsStored (inp : Nat → Input P) (start s t stop : Nat) : Prop where
  once : ∀ u j, start ≤ u → u ≤ stop →
    (statisticsWrites (mgr memories inp (u + 2)) j = true ↔
      u = t ∧ j = nextIndex (active memories inp t))
  latency : statistic memories inp .latency (t + 3) (nextIndex (active memories inp t)) =
    BitVec.ofNat 64 (t - s)
  stored : ∀ f, statistic memories inp f (t + 3) (nextIndex (active memories inp t)) =
    measurement memories inp f (t + 1)
  frame : ∀ f u j, start ≤ u → u ≤ stop → ¬ (u = t ∧ j = nextIndex (active memories inp t)) →
    statistic memories inp f (u + 3) j = statistic memories inp f (u + 2) j
  read : ∀ (f : StatField) (r : Nat), t + 2 ≤ r → r ≤ stop + 1 → (inp r).host.en = true →
    (∀ v, r ≤ v → v ≤ r + 3 → (inp v).host.word = f.word (nextIndex (active memories inp t))) →
      (mgr memories inp (r + 4)).read.ack = true ∧
        (mgr memories inp (r + 4)).dout =
          statistic memories inp f (t + 3) (nextIndex (active memories inp t))

/-- The statistics of an operation are written once, all five of them into the slot behind its
descriptor, whatever the host does with the descriptor table, and reads find them there. -/
theorem statistics_slot {start s t stop : Nat} (op : Rq.Spans (rqRun memories inp) start s t)
    (hregs : RegistersKept inp start t)
    (hrest : ∀ u, t < u → u < stop → (Rq.st (rqRun memories inp) (u + 1)).wrState = .idle) :
    StatisticsStored memories inp start s t stop := by
  have hends : ∀ {u}, start ≤ u → u ≤ stop →
      ((Rq.st (rqRun memories inp) u).endOfOperation = true ↔ u = t) :=
    fun hsu hus => op.endOfOperation_iff hrest hsu hus
  have hmeasured := hregs.measured memories op
  have hstored := fun f => statistic_of_ended memories inp f op.ends
  have hframe : ∀ f u j, start ≤ u → u ≤ stop →
      ¬ (u = t ∧ j = nextIndex (active memories inp t)) →
        statistic memories inp f (u + 3) j = statistic memories inp f (u + 2) j := by
    intro f u j hsu hus hne
    refine statistic_of_not_written memories inp f ?_
    intro hend hj
    obtain rfl := (hends hsu hus).mp hend
    exact hne ⟨rfl, hj⟩
  refine ⟨?_, ?_, hstored, hframe, ?_⟩
  · intro u j hsu hus
    rw [writes_after, hends hsu hus]
    refine and_congr_right ?_
    rintro rfl
    rfl
  · rw [hstored, ← hmeasured.current_eq, st_rqRun]
    rfl
  · intro f r htr hrs hen hword
    obtain ⟨hack, hdout⟩ := f.read_returns (m := mgr memories inp) (fun v => mgr_succ memories inp v)
      (r := r) hen hword
    refine ⟨hack, ?_⟩
    -- the word stays until port B reads it
    have hkept : ∀ v, t + 3 ≤ v → v ≤ r + 1 →
        statistic memories inp f v (nextIndex (active memories inp t)) =
          statistic memories inp f (t + 3) (nextIndex (active memories inp t)) := by
      intro v htv
      induction v, htv using Nat.le_induction with
      | base =>
          intro _
          rfl
      | succ v htv ih =>
          intro hvr
          obtain ⟨u, rfl⟩ : ∃ u, v = u + 2 := ⟨v - 2, by omega⟩
          rw [← ih (by omega)]
          exact hframe f u _ (by have := op.start_lt_end; omega) (by omega) (by omega)
    have hfree : statisticsWrites (mgr memories inp (r + 1))
        (nextIndex (active memories inp t)) = false := by
      obtain ⟨u, rfl⟩ : ∃ u, r = u + 1 := ⟨r - 1, by omega⟩
      rw [← Bool.not_eq_true, writes_after]
      rintro ⟨hend, -⟩
      have := (hends (by have := op.start_lt_end; omega) (by omega)).mp hend
      omega
    rw [hdout, StatField.content, hfree, ← hkept (r + 1) (by omega) (Nat.le_refl _)]
    rfl

/-! ## What the manager sees of a run -/

/-- The inputs of `dma_engine_manager` in a run of both modules. -/
def mgrRun (memories : Manager.Memories) (inp : Nat → Input P) : Manager.Run :=
  fun t => mgrInput (sys memories inp t) (inp t)

theorem st_mgrRun (t : Nat) :
    Manager.st P.windowSize memories (mgrRun memories inp) t = mgr memories inp t := by
  induction t with
  | zero =>
      rfl
  | succ t ih =>
      rw [Manager.st_succ, ih]
      rfl

end Statistics

/-! ## A write of four bytes -/

/-- The host prepares descriptor 0 for a single TLP of four bytes, enables the engine and accesses it
once more in cycle 11, the cycle of the update. -/
def fourBytes (access : Manager.HostAccess) (t : Nat) : Input pcieController :=
  { quiet with
    c2sTvalid := true
    host :=
      if t = 0 then hostWrite 0x208 0x100000
      else if t = 1 then hostWrite 0x209 4
      else if t = 2 then hostWrite 0x207 1
      else if t = 6 then hostWrite 0x200 5
      else if t = 11 then access
      else noAccess }

theorem fourBytes_spans :
    Rq.Spans (rqRun emptyMemories (fourBytes noAccess)) 8 9 10 where
  idle := by decide +kernel
  leaves := by decide +kernel
  start_lt := by decide
  opens := by decide +kernel
  first u hu hus := by omega
  start_lt_end := by decide
  ends := by decide +kernel
  running u hu hut := by
    obtain rfl : u = 9 := by omega
    decide +kernel

theorem statistics_slot_fourBytes :
    StatisticsStored emptyMemories (fourBytes noAccess) 8 9 10 12 := by
  refine statistics_slot emptyMemories fourBytes_spans ?_ ?_
  · intro u hu hut k _
    obtain rfl | rfl : u = 8 ∨ u = 9 := by omega
    · rfl
    · rfl
  · intro u hu hut
    obtain rfl : u = 11 := by omega
    decide +kernel

/-- The size of descriptor 1, written in the cycle of the update, does not arrive. -/
theorem write_during_update :
    (mgrRun emptyMemories (fourBytes (hostWrite 0x211 64)) 11).host = hostWrite 0x211 64 ∧
      (hostWrite 0x211 64).addr.toNat = TableField.size.word 1 ∧
      ¬ Manager.Holds (hostWrite 0x211 64)
        (TableField.size.mem pcieController.windowSize emptyMemories
          (mgrRun emptyMemories (fourBytes (hostWrite 0x211 64))) 13 1) := by
  refine ⟨rfl, by decide, ?_⟩
  intro hholds
  have hbyte := hholds 0 (by decide) (by decide)
  rw [TableField.mem, st_mgrRun] at hbyte
  revert hbyte
  decide +kernel

end Engine
end PcieBench
