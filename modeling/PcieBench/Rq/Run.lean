import PcieBench.Clocked.Stream
import PcieBench.Rq.Logic

/-!
# Runs of dma_rq_logic and the beats they send

The state of a run in cycle `t`, the beats loaded into the output register and the beats handed over
on `M_AXIS_RQ`.  A beat is kept together with the FSM state that loaded it: `INIT_WRITE` loads the
header of a memory write, `WRITE` its payload and `INIT_READ` a memory read request.
-/

namespace PcieBench
namespace Rq

open Clocked Tlp

/-- The inputs of a run, one for each cycle after reset. -/
abbrev Run (P : Params) := Nat → Input P

section Runs

variable {P : Params}

/-- The registers in cycle `t` of a run. -/
def st (inp : Run P) (t : Nat) : State P := (machine P).trace inp t

@[simp] theorem st_zero (inp : Run P) : st inp 0 = reset P := rfl

theorem st_succ (inp : Run P) (t : Nat) : st inp (t + 1) = step (st inp t) (inp t) := rfl

/-- An invariant of the module: it holds after reset and every clock edge preserves it. -/
theorem st_invariant (inv : State P → Prop) (hreset : inv (reset P))
    (hstep : ∀ s i, inv s → inv (step s i)) (inp : Run P) (t : Nat) : inv (st inp t) :=
  (machine P).trace_invariant inp inv hreset hstep t

/-! ## Beats -/

/-- The beat in the output register. -/
def State.beat (s : State P) : Beat where
  tdataHi := s.out.tdataHi
  tdataLo := s.out.tdataLo
  tkeep := s.ctl.tkeep
  tlast := s.ctl.tlast
  firstBe := s.ctl.firstBe
  lastBe := s.ctl.lastBe

/-- A beat and the FSM state that loaded it. -/
structure Sent where
  origin : WrState
  beat : Beat
  deriving DecidableEq, Repr

/-- The FSM state that last had the output register at its disposal. -/
def origin (inp : Run P) : Nat → WrState :=
  (machine P).ghost inp .idle (fun s i o => if i.axisRqTready then s.wrState else o)

/-- What one clock edge loads into the output register. -/
def load (s : State P) (i : Input P) : List Sent :=
  if i.axisRqTready && (step s i).out.tvalid then [⟨s.wrState, (step s i).beat⟩] else []

/-- The beat loaded at the end of cycle `t`. -/
def loads (inp : Run P) (t : Nat) : List Sent := load (st inp t) (inp t)

/-- The beat transferred in cycle `t` (`TVALID && TREADY`). -/
def emits (inp : Run P) : Nat → List Sent :=
  transferred (fun t => (st inp t).out.tvalid) (fun t => (inp t).axisRqTready)
    (fun t => ⟨origin inp t, (st inp t).beat⟩)

/-- The beat waiting in the output register in cycle `t`. -/
def waits (inp : Run P) : Nat → List Sent :=
  held (fun t => (st inp t).out.tvalid) (fun t => ⟨origin inp t, (st inp t).beat⟩)

theorem origin_succ (inp : Run P) (t : Nat) :
    origin inp (t + 1) = if (inp t).axisRqTready then (st inp t).wrState else origin inp t := rfl

theorem loads_eq_loaded (inp : Run P) (t : Nat) :
    loads inp t = loaded (fun t => (st inp t).out.tvalid) (fun t => (inp t).axisRqTready)
      (fun t => ⟨origin inp t, (st inp t).beat⟩) t := by
  cases h : (inp t).axisRqTready with
  | true =>
      simp [loads, load, loaded, st_succ, origin_succ, h]
  | false =>
      simp [loads, load, loaded, h]

/-- Without `TREADY` the output register keeps its beat. -/
theorem step_beat_of_not_tready (s : State P) (i : Input P) (h : i.axisRqTready = false) :
    (step s i).out = s.out ∧ (step s i).ctl = s.ctl := by
  simp [nextOut, nextCtl, h]

/-- Back-pressure neither loses nor repeats a beat: the transfers of an interval and the beat still
waiting are the beat that waited before and the loads of the interval. -/
theorem collect_emits_append_waits (inp : Run P) (a n : Nat) :
    collect (emits inp) a n ++ waits inp (a + n) = waits inp a ++ collect (loads inp) a n := by
  have hloads : loads inp = loaded (fun t => (st inp t).out.tvalid)
      (fun t => (inp t).axisRqTready) (fun t => ⟨origin inp t, (st inp t).beat⟩) :=
    funext (loads_eq_loaded inp)
  rw [hloads]
  refine collect_transferred_append_held ?_ a n
  intro t ht
  obtain ⟨hout, hctl⟩ := step_beat_of_not_tready (st inp t) (inp t) ht
  refine ⟨by rw [st_succ, hout], ?_⟩
  simp only [st_succ, origin_succ, ht, State.beat, hout, hctl]
  simp

/-! ## What each FSM state loads -/

theorem load_idle {s : State P} {i : Input P} (hs : s.wrState = .idle) : load s i = [] := by
  cases hr : i.axisRqTready <;> simp [load, nextOut, hs, hr]

theorem load_waitRead {s : State P} {i : Input P} (hs : s.wrState = .waitRead) :
    load s i = [] := by
  cases hr : i.axisRqTready <;> simp [load, nextOut, hs, hr]

theorem load_initWrite {s : State P} {i : Input P} (hs : s.wrState = .initWrite) :
    load s i =
      if i.axisRqTready && s.oneWordAtBuffer then [⟨.initWrite, (step s i).beat⟩] else [] := by
  cases hr : i.axisRqTready with
  | true =>
      simp [load, nextOut, hs, hr]
  | false =>
      simp [load, hr]

theorem load_initRead {s : State P} {i : Input P} (hs : s.wrState = .initRead) :
    load s i =
      if i.axisRqTready && s.tagAvailable then [⟨.initRead, (step s i).beat⟩] else [] := by
  cases hr : i.axisRqTready with
  | true =>
      simp [load, nextOut, hs, hr]
  | false =>
      simp [load, hr]

/-- A payload beat needs one word if it is the last one of the TLP and two otherwise. -/
theorem load_write {s : State P} {i : Input P} (hs : s.wrState = .write) :
    load s i =
      if i.axisRqTready && ((s.oneWordAtBuffer && s.lastWordAtTlp) || s.twoWordsAtBuffer) then
        [⟨.write, (step s i).beat⟩]
      else [] := by
  cases hr : i.axisRqTready with
  | true =>
      cases h1 : (s.oneWordAtBuffer && s.lastWordAtTlp) <;>
        cases h2 : s.twoWordsAtBuffer <;> simp [load, nextOut, hs, hr, h1, h2]
  | false =>
      simp [load, hr]

end Runs

end Rq
end PcieBench
