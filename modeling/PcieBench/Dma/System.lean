import PcieBench.Rc.Logic
import PcieBench.Rq.Tags

/-!
# dma_rq_logic and dma_rc_logic together

The two halves of the DMA core share the tags: the requester side marks them busy and says how many
dwords each of them waits for, the completion side answers with `COMPLETED_TAGS`.  The host is the
environment.  Its side of the protocol is a ledger: what it still owes for each request handed over,
what the core has received, and the completion TLP in transfer.
-/

namespace PcieBench
namespace Dma

open Clocked
open Rq (Params TagSet Config Run)

/-! ## The coupled machine -/

/-- The registers of both modules. -/
structure System (P : Params) where
  rq : Rq.State P
  rc : Rc.State P

/-- The inputs of the coupled modules. -/
structure Input (P : Params) where
  axisRqTready : Bool
  c2sTvalid : Bool
  c2sTdataLo : BitVec 128
  c2sTdataHi : BitVec 128
  c2sTkeepHi : Bool
  engineValid : Bool
  cfg : Config
  currentWindowSize : BitVec 64
  rc : Rc.Beat

section Coupling

variable {P : Params}

/-- The inputs of `dma_rq_logic`, with `COMPLETED_TAGS` from `dma_rc_logic`. -/
def rqInput (s : System P) (i : Input P) : Rq.Input P where
  axisRqTready := i.axisRqTready
  axisRcTvalid := i.rc.tvalid
  axisRcTready := true
  axisRcTkeep := i.rc.tkeep
  c2sTvalid := i.c2sTvalid
  c2sTdataLo := i.c2sTdataLo
  c2sTdataHi := i.c2sTdataHi
  c2sTkeepHi := i.c2sTkeepHi
  engineValid := i.engineValid
  cfg := i.cfg
  completedTags := s.rc.completedTags
  currentWindowSize := i.currentWindowSize

/-- Both modules at one rising edge. -/
def step (s : System P) (i : Input P) : System P where
  rq := Rq.step s.rq (rqInput s i)
  rc := Rc.step s.rc s.rq.tags.current s.rq.tags.size i.rc

def machine (P : Params) : Machine (System P) (Input P) where
  reset := { rq := Rq.reset P, rc := Rc.reset P }
  step := step

/-- The registers in cycle `t` of a run. -/
def sys (inp : Nat → Input P) (t : Nat) : System P := (machine P).trace inp t

@[simp] theorem sys_succ_rq (inp : Nat → Input P) (t : Nat) :
    (sys inp (t + 1)).rq = Rq.step (sys inp t).rq (rqInput (sys inp t) (inp t)) := rfl

@[simp] theorem sys_succ_rc (inp : Nat → Input P) (t : Nat) :
    (sys inp (t + 1)).rc =
      Rc.step (sys inp t).rc (sys inp t).rq.tags.current (sys inp t).rq.tags.size (inp t).rc := rfl

/-- What `dma_rq_logic` sees of a run of the system. -/
def rqRun (inp : Nat → Input P) : Run P := fun t => rqInput (sys inp t) (inp t)

/-- In the system `dma_rq_logic` runs as it does alone. -/
theorem st_rqRun (inp : Nat → Input P) (t : Nat) : Rq.st (rqRun inp) t = (sys inp t).rq := by
  induction t with
  | zero =>
      rfl
  | succ t ih =>
      rw [Rq.st_succ, ih]
      rfl

/-! ## The ledger of the host -/

/-- A completion TLP in transfer: its tag, its dwords and the beats to come. -/
structure Transfer where
  tag : BitVec 8
  dwords : Nat
  left : Nat

/-- What the host owes and what the core has received. -/
structure Ledger (P : Params) where
  due : Fin P.windowSize → Nat
  received : Fin P.windowSize → Nat
  transfer : Option Transfer

/-- The beats of a completion TLP of `d` dwords: three for its descriptor, eight in a beat. -/
def completionBeats (d : Nat) : Nat := (3 + d + 7) / 8

/-- The memory read request handed over in cycle `t`, with its tag and dwords. -/
def requested (inp : Nat → Input P) (t : Nat) (j : Fin P.windowSize) : Option Nat :=
  match Rq.emits (rqRun inp) t with
  | x :: _ => if x.origin = .initRead ∧ x.beat.tag.toNat = j.val then some x.beat.dwords.toNat
      else none
  | [] => none

/-- The dwords that the beat of this cycle completes for tag `j`: those of the TLP it is the last
beat of. -/
def Ledger.completes (l : Ledger P) (b : Rc.Beat) (j : Fin P.windowSize) : Option Nat :=
  if b.tvalid && b.tlast then
    match l.transfer with
    | none => if b.tlpTag.toNat = j.val then some b.tlpDwords.toNat else none
    | some x => if x.tag.toNat = j.val then some x.dwords else none
  else none

/-- The first beat of a completion TLP takes its dwords off what is due. -/
def Ledger.opens (l : Ledger P) (b : Rc.Beat) (j : Fin P.windowSize) : Bool :=
  b.tvalid && l.transfer.isNone && decide (b.tlpTag.toNat = j.val)

/-- The ledger after a cycle: `requested` is the request handed over in it, `issues` the tag taken
in it. -/
def Ledger.next (l : Ledger P) (b : Rc.Beat) (requested : Fin P.windowSize → Option Nat)
    (issues : Fin P.windowSize → Bool) : Ledger P where
  due j :=
    match requested j with
    | some d => d
    | none => if l.opens b j then l.due j - b.tlpDwords.toNat else l.due j
  received j :=
    if issues j then 0
    else
      match l.completes b j with
      | some d => l.received j + d
      | none => l.received j
  transfer :=
    if b.tvalid then
      if b.tlast then none
      else
        match l.transfer with
        | none => some
            { tag := b.tlpTag
              dwords := b.tlpDwords.toNat
              left := completionBeats b.tlpDwords.toNat - 1 }
        | some x => some { x with left := x.left - 1 }
    else l.transfer

/-- The ledger of the host in cycle `t`. -/
def ledger (inp : Nat → Input P) : Nat → Ledger P
  | 0 => { due := fun _ => 0, received := fun _ => 0, transfer := none }
  | t + 1 => (ledger inp t).next (inp t).rc (requested inp t)
      (Rq.issuesTag (sys inp t).rq (rqRun inp t))

/-- What the host may send: whole completion TLPs, one after the other, each of them for a request
that was handed over and not beyond its dwords.  Without `TVALID` everything is arbitrary. -/
def BeatOk (l : Ledger P) (b : Rc.Beat) : Prop :=
  b.tvalid = true →
    match l.transfer with
    | none => ∃ j : Fin P.windowSize, b.tlpTag.toNat = j.val ∧ 1 ≤ b.tlpDwords.toNat ∧
        b.tlpDwords.toNat ≤ l.due j ∧
        (b.tlast = true ↔ completionBeats b.tlpDwords.toNat = 1)
    | some x => b.tlast = true ↔ x.left = 1

instance (l : Ledger P) (b : Rc.Beat) : Decidable (BeatOk l b) :=
  match h : l.transfer with
  | none => decidable_of_iff (b.tvalid = true → ∃ j : Fin P.windowSize, b.tlpTag.toNat = j.val ∧
      1 ≤ b.tlpDwords.toNat ∧ b.tlpDwords.toNat ≤ l.due j ∧
      (b.tlast = true ↔ completionBeats b.tlpDwords.toNat = 1)) (by simp [BeatOk, h])
  | some x => decidable_of_iff (b.tvalid = true → (b.tlast = true ↔ x.left = 1))
      (by simp [BeatOk, h])

/-- The host keeps to the protocol in every cycle. -/
def HostOk (inp : Nat → Input P) : Prop := ∀ t, BeatOk (ledger inp t) (inp t).rc

end Coupling

end Dma
end PcieBench
