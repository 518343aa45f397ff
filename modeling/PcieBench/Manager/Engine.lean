import PcieBench.Manager.Logic
import PcieBench.Rq.Tags

/-!
# dma_engine_manager and dma_rq_logic together

The manager hands the active descriptor and the engine registers to the requester side, which answers
with the end of each operation.  Everything else is the environment: the accesses of the host, the
back-pressure of the core, the C2S data and the completions.
-/

namespace PcieBench
namespace Engine

open Clocked
open Rq (Params TagSet Config Run pcieController)

/-! ## The coupled machine -/

/-- The registers of both modules. -/
structure System (P : Params) where
  mgr : Manager.State
  rq : Rq.State P

/-- The inputs of the coupled modules. -/
structure Input (P : Params) where
  host : Manager.HostAccess
  axisRqTready : Bool
  axisRcTvalid : Bool
  axisRcTready : Bool
  axisRcTkeep : BitVec 8
  c2sTvalid : Bool
  c2sTdataLo : BitVec 128
  c2sTdataHi : BitVec 128
  c2sTkeepHi : Bool
  completedTags : TagSet P
  byteCount : BitVec 64
  collisions : Manager.Collisions

section Coupling

variable {P : Params}

/-- The descriptor interface: `STATUS_BYTE` carries the capabilities and the address mode. -/
def descriptor (m : Manager.State) : Config where
  capWrite := m.regs.capabilities.getLsbD 0
  capRead := m.regs.capabilities.getLsbD 1
  addressMode := m.regs.addressMode
  sizeAtDescriptor := m.out.size
  sizeAtHost := m.regs.bufferAtHost
  numberTlps := m.regs.numberTlps
  addrAtDescriptor := m.out.addr
  addressGenOffset := m.regs.addressGenOffset

/-- The inputs of `dma_rq_logic`. -/
def rqInput (s : System P) (i : Input P) : Rq.Input P where
  axisRqTready := i.axisRqTready
  axisRcTvalid := i.axisRcTvalid
  axisRcTready := i.axisRcTready
  axisRcTkeep := i.axisRcTkeep
  c2sTvalid := i.c2sTvalid
  c2sTdataLo := i.c2sTdataLo
  c2sTdataHi := i.c2sTdataHi
  c2sTkeepHi := i.c2sTkeepHi
  engineValid := s.mgr.out.validEngine
  cfg := descriptor s.mgr
  completedTags := i.completedTags
  currentWindowSize := s.mgr.out.windowSize

/-- The inputs of `dma_engine_manager`.  `CONTROL_BYTE[4]` is constantly 0. -/
def mgrInput (s : System P) (i : Input P) : Manager.Input where
  host := i.host
  isEndOfOperation := s.rq.endOfOperation
  operationError := false
  byteCount := i.byteCount
  updateLatency := s.rq.latency.update
  current :=
    { time := s.rq.latency.current
      reqTime := s.rq.latency.timeReq
      compTime := s.rq.latency.timeComp
      reqBytes := s.rq.latency.bytesReq
      compBytes := s.rq.latency.bytesComp }
  collisions := i.collisions

/-- Both modules at one rising edge. -/
def step (s : System P) (i : Input P) : System P where
  mgr := Manager.step s.mgr (mgrInput s i)
  rq := Rq.step s.rq (rqInput s i)

/-- The default window is the whole window of tags. -/
def machine (P : Params) (memories : Manager.Memories) : Machine (System P) (Input P) where
  reset := { mgr := Manager.reset P.windowSize memories, rq := Rq.reset P }
  step := step

variable (memories : Manager.Memories) (inp : Nat → Input P)

/-- The registers in cycle `t` of a run. -/
def sys (t : Nat) : System P := (machine P memories).trace inp t

/-- The registers of the manager. -/
abbrev mgr (t : Nat) : Manager.State := (sys memories inp t).mgr

theorem mgr_succ (t : Nat) : mgr memories inp (t + 1) =
    Manager.step (mgr memories inp t) (mgrInput (sys memories inp t) (inp t)) := rfl

/-- What `dma_rq_logic` sees of a run. -/
def rqRun : Run P := fun t => rqInput (sys memories inp t) (inp t)

/-- With the manager `dma_rq_logic` runs as it does alone. -/
theorem st_rqRun (t : Nat) : Rq.st (rqRun memories inp) t = (sys memories inp t).rq := by
  induction t with
  | zero =>
      rfl
  | succ t ih =>
      rw [Rq.st_succ, ih]
      rfl

@[simp] theorem rqRun_cfg (t : Nat) :
    (rqRun memories inp t).cfg = descriptor (mgr memories inp t) := rfl

@[simp] theorem rqRun_engineValid (t : Nat) :
    (rqRun memories inp t).engineValid = (mgr memories inp t).out.validEngine := rfl

@[simp] theorem rqRun_axisRqTready (t : Nat) :
    (rqRun memories inp t).axisRqTready = (inp t).axisRqTready := rfl

@[simp] theorem rqRun_currentWindowSize (t : Nat) :
    (rqRun memories inp t).currentWindowSize = (mgr memories inp t).out.windowSize := rfl

@[simp] theorem rqRun_completedTags (t : Nat) :
    (rqRun memories inp t).completedTags = (inp t).completedTags := rfl

@[simp] theorem mgrInput_isEndOfOperation (t : Nat) :
    (mgrInput (sys memories inp t) (inp t)).isEndOfOperation =
      (Rq.st (rqRun memories inp) t).endOfOperation := by
  rw [st_rqRun]
  rfl

@[simp] theorem mgrInput_host (s : System P) (i : Input P) : (mgrInput s i).host = i.host := rfl

/-! ## Before the first enable -/

/-- Nothing starts in the first three cycles: the engine is not valid before its enable bit has been
written. -/
theorem wrState_early {t : Nat} (ht : t < 3) : (Rq.st (rqRun memories inp) t).wrState = .idle := by
  have hidle : ∀ u, (Rq.st (rqRun memories inp) u).wrState = .idle →
      (mgr memories inp u).out.validEngine = false →
        (Rq.st (rqRun memories inp) (u + 1)).wrState = .idle := by
    intro u hs hv
    simp [Rq.st_succ, Rq.nextWrState, Rq.startsWith, hs, hv]
  have h0 : (Rq.st (rqRun memories inp) 0).wrState = .idle := rfl
  have h1 : (Rq.st (rqRun memories inp) 1).wrState = .idle := hidle 0 h0 rfl
  have hv1 : (mgr memories inp 1).out.validEngine = false := rfl
  obtain rfl | rfl | rfl : t = 0 ∨ t = 1 ∨ t = 2 := by omega
  · exact h0
  · exact h1
  · exact hidle 1 h1 hv1

end Coupling

/-! ## A quiet environment -/

/-- No access of the host. -/
def noAccess : Manager.HostAccess where
  en := false
  addr := 0
  din := 0
  we := 0

/-- A write of a whole word. -/
def hostWrite (addr : BitVec 16) (din : BitVec 64) : Manager.HostAccess where
  en := true
  addr := addr
  din := din
  we := 0xff

/-- A memory full of zeros. -/
def emptyBram : Bram Manager.Index where
  mem _ := 0
  douta := 0
  latchb := 0
  doutb := 0

def emptyMemories : Manager.Memories where
  size := emptyBram
  address := emptyBram
  control := emptyBram
  time := emptyBram
  reqTime := emptyBram
  compTime := emptyBram
  reqBytes := emptyBram
  compBytes := emptyBram

/-- An environment that takes every beat and neither writes, sends nor completes anything. -/
def quiet : Input pcieController where
  host := noAccess
  axisRqTready := true
  axisRcTvalid := false
  axisRcTready := true
  axisRcTkeep := 0
  c2sTvalid := false
  c2sTdataLo := 0
  c2sTdataHi := 0
  c2sTkeepHi := true
  completedTags _ := false
  byteCount := 0
  collisions :=
    { size := 0
      address := 0
      control := 0
      statistics := { time := 0, reqTime := 0, compTime := 0, reqBytes := 0, compBytes := 0 } }

end Engine
end PcieBench
