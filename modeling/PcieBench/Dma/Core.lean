import PcieBench.Dma.Completion
import PcieBench.Manager.Window

/-!
# dma_logic

The three modules of the DMA core together: `dma_engine_manager`, `dma_rq_logic` and `dma_rc_logic`.
Each pair has been studied on its own, with the third module as its environment; a run of the core is
a run of both pairs.
-/

namespace PcieBench
namespace Dma

open Clocked
open Rq (Params)

/-- The registers of the three modules. -/
structure Core (P : Params) where
  mgr : Manager.State
  rq : Rq.State P
  rc : Rc.State P

/-- The inputs of the core. -/
structure CoreInput where
  host : Manager.HostAccess
  axisRqTready : Bool
  rc : Rc.Beat
  c2sTvalid : Bool
  c2sTdataLo : BitVec 128
  c2sTdataHi : BitVec 128
  c2sTkeepHi : Bool
  byteCount : BitVec 64
  collisions : Manager.Collisions

section Coupling

variable {P : Params}

/-- What the manager and the requester side see: the completions come from the core itself. -/
def Core.engineInput (c : Core P) (i : CoreInput) : Engine.Input P where
  host := i.host
  axisRqTready := i.axisRqTready
  axisRcTvalid := i.rc.tvalid
  axisRcTready := true
  axisRcTkeep := i.rc.tkeep
  c2sTvalid := i.c2sTvalid
  c2sTdataLo := i.c2sTdataLo
  c2sTdataHi := i.c2sTdataHi
  c2sTkeepHi := i.c2sTkeepHi
  completedTags := c.rc.completedTags
  byteCount := i.byteCount
  collisions := i.collisions

/-- What the two directions see: the descriptor and the window come from the manager. -/
def Core.dmaInput (c : Core P) (i : CoreInput) : Input P where
  axisRqTready := i.axisRqTready
  c2sTvalid := i.c2sTvalid
  c2sTdataLo := i.c2sTdataLo
  c2sTdataHi := i.c2sTdataHi
  c2sTkeepHi := i.c2sTkeepHi
  engineValid := c.mgr.out.validEngine
  cfg := Engine.descriptor c.mgr
  currentWindowSize := c.mgr.out.windowSize
  rc := i.rc

/-- The three modules at one rising edge. -/
def Core.step (c : Core P) (i : CoreInput) : Core P where
  mgr := Manager.step c.mgr (Engine.mgrInput ⟨c.mgr, c.rq⟩ (c.engineInput i))
  rq := Rq.step c.rq (Engine.rqInput ⟨c.mgr, c.rq⟩ (c.engineInput i))
  rc := Rc.step c.rc c.rq.tags.current c.rq.tags.size i.rc

def coreMachine (P : Params) (memories : Manager.Memories) : Machine (Core P) CoreInput where
  reset := { mgr := Manager.reset P.windowSize memories, rq := Rq.reset P, rc := Rc.reset P }
  step := Core.step

variable (P) (memories : Manager.Memories) (inp : Nat → CoreInput)

/-- The registers in cycle `t` of a run of the core. -/
def core (t : Nat) : Core P := (coreMachine P memories).trace inp t

/-- A run of the core as a run of the manager and the requester side. -/
def engineRun (t : Nat) : Engine.Input P := (core P memories inp t).engineInput (inp t)

/-- A run of the core as a run of the two directions. -/
def dmaRun (t : Nat) : Input P := (core P memories inp t).dmaInput (inp t)

theorem sys_engineRun (t : Nat) : Engine.sys memories (engineRun P memories inp) t =
    ⟨(core P memories inp t).mgr, (core P memories inp t).rq⟩ := by
  induction t with
  | zero =>
      rfl
  | succ t ih =>
      have hstep : Engine.sys memories (engineRun P memories inp) (t + 1) =
          Engine.step (Engine.sys memories (engineRun P memories inp) t)
            (engineRun P memories inp t) := rfl
      rw [hstep, ih]
      rfl

theorem sys_dmaRun (t : Nat) : sys (dmaRun P memories inp) t =
    ⟨(core P memories inp t).rq, (core P memories inp t).rc⟩ := by
  induction t with
  | zero =>
      rfl
  | succ t ih =>
      rw [sys_succ, ih]
      rfl

/-- Both see the same run of `dma_rq_logic`. -/
theorem rqRun_engineRun :
    Engine.rqRun memories (engineRun P memories inp) = rqRun (dmaRun P memories inp) := by
  funext t
  rw [Engine.rqRun, rqRun, sys_engineRun, sys_dmaRun]
  rfl

end Coupling

end Dma
end PcieBench
