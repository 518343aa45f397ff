import PcieBench.Completer.ReadData
import PcieBench.Dma.Application
import PcieBench.Dma.System
import PcieBench.Manager.Engine

/-!
# The whole design

`pcie_benchmark` puts `pcie_controller` and `app` on one clock.  Of the controller this is the side of
BAR 0: the completer, the registers of `dma_logic`, the engine manager, both halves of the DMA core and
the FIFO of the C2S data.  What is left as environment is the PCIe core: the requests of the host, the
completions it answers with, its flow control, and the words that the memories give on a collision.
-/

namespace PcieBench
namespace Board

open Clocked Tlp
open Application (App Item)
open Rq (Params Run)

/-! ## The machine -/

/-- All registers of the design. -/
structure System (P : Params) (F : Fifo Item) where
  bar0 : Bar0.System
  rq : Rq.State P
  rc : Rc.State P
  app : App
  fifo : F.State

/-- What the PCIe core does in a cycle. -/
structure Input where
  cq : CqBeat
  ccTready : Bool
  rqTready : Bool
  nphAv : BitVec 2
  npdAv : BitVec 2
  rc : Rc.Beat
  collisions : Manager.Collisions

/-- `s_axis_rq_treadybit`: the core is ready and reports more than one credit of each kind. -/
def Input.treadybit (i : Input) : Bool := i.rqTready && decide (1 < i.nphAv) && decide (1 < i.npdAv)

section Coupling

variable {P : Params} {F : Fifo Item} (s : System P F) (i : Input)

/-- The manager and the requester side. -/
def System.engine : Engine.System P := ⟨s.bar0.manager, s.rq⟩

/-- What these two see of a cycle.  `byte_count_r` of `dma_logic` is constantly 0. -/
def System.engineInput : Engine.Input P where
  host := s.bar0.access
  axisRqTready := i.treadybit
  axisRcTvalid := i.rc.tvalid
  axisRcTready := true
  axisRcTkeep := i.rc.tkeep
  c2sTvalid := F.outValid s.fifo
  c2sTdataLo := (F.outValue s.fifo).tdata.extractLsb' 0 128
  c2sTdataHi := (F.outValue s.fifo).tdata.extractLsb' 128 128
  c2sTkeepHi := (F.outValue s.fifo).tkeep.getLsbD 16
  completedTags := s.rc.completedTags
  byteCount := 0
  collisions := i.collisions

def System.rqInput : Rq.Input P := Engine.rqInput s.engine (s.engineInput i)

def System.barInput : Bar0.Input where
  cq := i.cq
  ccTready := i.ccTready
  engine := Engine.mgrInput s.engine (s.engineInput i)

/-- The signals of the FIFO. -/
def System.fifoInput : FifoInput Item where
  inValid := true
  inValue := s.app.item
  outReady := s.rq.c2sFifoTready

/-- One rising edge.  The user reset reaches everything in `dma_logic`, but neither the completer nor
`app`. -/
def System.step : System P F where
  bar0 := Bar0.step P s.bar0 (s.barInput i)
  rq := if s.bar0.userReset then Rq.reset P else Rq.step s.rq (s.rqInput i)
  rc :=
    if s.bar0.userReset then Rc.reset P
    else Rc.step s.rc s.rq.tags.current s.rq.tags.size i.rc
  app := s.app.step (F.inReady s.fifo)
  fifo := if s.bar0.userReset then F.machine.reset else F.machine.step s.fifo s.fifoInput

/-- `s_axis_rq_tvalid`: the valid bit is masked as long as the core cannot take the beat. -/
def System.rqTvalid : Bool := s.rq.out.tvalid && i.treadybit

end Coupling

/-! ## Runs -/

/-- The design as a clocked machine, with what its registers without reset hold at the start. -/
def machine (p : Bar0.Instance) (F : Fifo Item) : Machine (System p.params F) Input where
  reset :=
    { bar0 := (Bar0.machine p).reset
      rq := Rq.reset p.params
      rc := Rc.reset p.params
      app := ⟨0⟩
      fifo := F.machine.reset }
  step := System.step

section Runs

variable (p : Bar0.Instance) (F : Fifo Item) (inp : Nat → Input)

/-- The registers in cycle `t`. -/
def sys (t : Nat) : System p.params F := (machine p F).trace inp t

/-- What the register path sees of a run. -/
def barRun : Bar0.Run := fun t => (sys p F inp t).barInput (inp t)

/-- What the manager and the requester side see. -/
def engineRun : Nat → Engine.Input p.params := fun t => (sys p F inp t).engineInput (inp t)

/-- What `dma_rq_logic` sees. -/
def rqRun : Run p.params := fun t => (sys p F inp t).rqInput (inp t)

/-- What the two halves of the DMA core see. -/
def dmaRun : Nat → Dma.Input p.params := fun t =>
  { axisRqTready := (rqRun p F inp t).axisRqTready
    c2sTvalid := (rqRun p F inp t).c2sTvalid
    c2sTdataLo := (rqRun p F inp t).c2sTdataLo
    c2sTdataHi := (rqRun p F inp t).c2sTdataHi
    c2sTkeepHi := (rqRun p F inp t).c2sTkeepHi
    engineValid := (rqRun p F inp t).engineValid
    cfg := (rqRun p F inp t).cfg
    currentWindowSize := (rqRun p F inp t).currentWindowSize
    rc := (inp t).rc }

/-- The beat that the PCIe core takes in cycle `t`. -/
def requests (t : Nat) : List Rq.Sent :=
  if (sys p F inp t).rqTvalid (inp t) && (inp t).rqTready then
    [⟨Rq.origin (rqRun p F inp) t, (sys p F inp t).rq.beat⟩]
  else []

/-- No request of the run asks for a user reset. -/
def NoUserReset : Prop := Bar0.NoUserReset p (barRun p F inp)

theorem sys_succ (t : Nat) : sys p F inp (t + 1) = (sys p F inp t).step (inp t) := rfl

/-- In the design the register path runs as it does alone. -/
theorem st_barRun (t : Nat) : Bar0.st p (barRun p F inp) t = (sys p F inp t).bar0 := by
  induction t with
  | zero =>
      rfl
  | succ t ih =>
      rw [Bar0.st_succ, ih, sys_succ]
      rfl

end Runs

/-! ## The parts of a run without a user reset -/

section Parts

variable {p : Bar0.Instance} {F : Fifo Item} {inp : Nat → Input} (hreset : NoUserReset p F inp)

include hreset

theorem userReset_eq (t : Nat) : (sys p F inp t).bar0.userReset = false := by
  have hno := hreset t
  rwa [st_barRun] at hno

theorem rq_succ (t : Nat) : (sys p F inp (t + 1)).rq =
    Rq.step (sys p F inp t).rq (rqRun p F inp t) := by
  rw [sys_succ, System.step]
  exact if_neg (by simp [userReset_eq hreset t])

theorem rc_succ (t : Nat) : (sys p F inp (t + 1)).rc =
    Rc.step (sys p F inp t).rc (sys p F inp t).rq.tags.current (sys p F inp t).rq.tags.size
      (inp t).rc := by
  rw [sys_succ, System.step]
  exact if_neg (by simp [userReset_eq hreset t])

theorem fifo_succ (t : Nat) : (sys p F inp (t + 1)).fifo =
    F.machine.step (sys p F inp t).fifo (sys p F inp t).fifoInput := by
  rw [sys_succ, System.step]
  exact if_neg (by simp [userReset_eq hreset t])

theorem manager_succ (t : Nat) : (sys p F inp (t + 1)).bar0.manager =
    Manager.step (sys p F inp t).bar0.manager
      (Engine.mgrInput (sys p F inp t).engine (engineRun p F inp t)) := by
  have hmanager := Bar0.manager_succ hreset t
  rw [st_barRun, st_barRun] at hmanager
  exact hmanager

/-- The requester side. -/
theorem st_rqRun (t : Nat) : Rq.st (rqRun p F inp) t = (sys p F inp t).rq := by
  induction t with
  | zero =>
      rfl
  | succ t ih =>
      rw [Rq.st_succ, ih, rq_succ hreset]

/-- The manager with the requester side. -/
theorem sys_engineRun (t : Nat) :
    Engine.sys p.memories (engineRun p F inp) t = (sys p F inp t).engine := by
  induction t with
  | zero =>
      rfl
  | succ t ih =>
      have hstep : Engine.sys p.memories (engineRun p F inp) (t + 1) =
          Engine.step (Engine.sys p.memories (engineRun p F inp) t) (engineRun p F inp t) := rfl
      have hnext : (sys p F inp (t + 1)).engine =
          ⟨(sys p F inp (t + 1)).bar0.manager, (sys p F inp (t + 1)).rq⟩ := rfl
      rw [hstep, ih, hnext, manager_succ hreset, rq_succ hreset]
      rfl

theorem rqRun_engineRun : Engine.rqRun p.memories (engineRun p F inp) = rqRun p F inp := by
  funext t
  rw [Engine.rqRun, sys_engineRun hreset]
  rfl

theorem mgr_engineRun (t : Nat) :
    Engine.mgr p.memories (engineRun p F inp) t = (sys p F inp t).bar0.manager := by
  rw [Engine.mgr, sys_engineRun hreset]
  rfl

/-- The two halves of the DMA core. -/
theorem sys_dmaRun (t : Nat) :
    Dma.sys (dmaRun p F inp) t = ⟨(sys p F inp t).rq, (sys p F inp t).rc⟩ := by
  induction t with
  | zero =>
      rfl
  | succ t ih =>
      have hstep : Dma.sys (dmaRun p F inp) (t + 1) =
          Dma.step (Dma.sys (dmaRun p F inp) t) (dmaRun p F inp t) := rfl
      rw [hstep, ih, rq_succ hreset, rc_succ hreset]
      rfl

theorem rqRun_dmaRun : Dma.rqRun (dmaRun p F inp) = rqRun p F inp := by
  funext t
  rw [Dma.rqRun, sys_dmaRun hreset]
  rfl

/-- The application, its FIFO and the requester side. -/
theorem sys_application (t : Nat) : Application.sys F (rqRun p F inp) t =
    ⟨(sys p F inp t).app, (sys p F inp t).fifo, (sys p F inp t).rq⟩ := by
  induction t with
  | zero =>
      rfl
  | succ t ih =>
      rw [Application.sys_succ, ih, rq_succ hreset, fifo_succ hreset]
      rfl

theorem rqRun_application : Application.rqRun F (rqRun p F inp) = rqRun p F inp := by
  funext t
  rw [Application.rqRun, sys_application hreset]
  rfl

/-- The core takes a beat exactly when the requester side counts it as transferred. -/
theorem requests_eq (t : Nat) : requests p F inp t = Rq.emits (rqRun p F inp) t := by
  have hready : (rqRun p F inp t).axisRqTready = (inp t).treadybit := rfl
  rw [requests, System.rqTvalid, Rq.emits, transferred, st_rqRun hreset, hready, Input.treadybit]
  cases (inp t).rqTready <;> simp

end Parts

end Board
end PcieBench
