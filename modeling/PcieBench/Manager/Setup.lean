import PcieBench.Host.Driver
import PcieBench.Manager.Queue

/-!
# What the host has set up

A write of the host reaches an engine register with the next clock edge and a descriptor one edge
later, when port A of the memory has taken it.  Seen without these delays the registers and the table
are one store that every access updates at once.  This module shows that the manager follows that
store as long as no statistics are updated, and evaluates what the driver writes to it.
-/

namespace PcieBench
namespace Manager

open Clocked

/-! ## The store -/

/-- The engine registers and the descriptors as the host has written them. -/
structure Setup where
  lastIndexDescriptor : Index
  capabilities : BitVec 2
  addressMode : BitVec 2
  windowSize : BitVec 64
  bufferAtHost : BitVec 64
  addressGenOffset : BitVec 64
  addressGenIncr : BitVec 64
  numberTlps : BitVec 64
  table : TableField → Index → BitVec 64

namespace Setup

/-- An access of the host, at once. -/
def access (c : Setup) (h : HostAccess) : Setup where
  lastIndexDescriptor :=
    if h.writesRegister 1 && h.we.getLsbD 0 then h.din.setWidth 10 else c.lastIndexDescriptor
  capabilities := if h.writesControl then h.din.extractLsb' 2 2 else c.capabilities
  addressMode := if h.writesControl then h.din.extractLsb' 4 2 else c.addressMode
  windowSize := h.store 3 c.windowSize
  bufferAtHost := h.store 4 c.bufferAtHost
  addressGenOffset := h.store 5 c.addressGenOffset
  addressGenIncr := h.store 6 c.addressGenIncr
  numberTlps := h.store 7 c.numberTlps
  table f k := if selects h f k then writeBytes h.we (c.table f k) h.din else c.table f k

/-- The operation that descriptor `k` stands for. -/
def config (c : Setup) (k : Index) : Rq.Config where
  capWrite := c.capabilities.getLsbD 0
  capRead := c.capabilities.getLsbD 1
  addressMode := c.addressMode
  sizeAtDescriptor := c.table .size k
  sizeAtHost := c.bufferAtHost
  numberTlps := c.numberTlps
  addrAtDescriptor := c.table .address k
  addressGenOffset := c.addressGenOffset

end Setup

/-- The word of a descriptor once port A has taken the write in front of it. -/
def TableField.settled (f : TableField) (s : State) (k : Index) : BitVec 64 :=
  if (f.port s).en = true ∧ (f.port s).addr = k then
    writeBytes (f.port s).we ((f.memory s.memories).mem k) (f.port s).din
  else (f.memory s.memories).mem k

/-- What the host has set up in a state of the manager. -/
def State.setup (s : State) : Setup where
  lastIndexDescriptor := s.regs.lastIndexDescriptor
  capabilities := s.regs.capabilities
  addressMode := s.regs.addressMode
  windowSize := s.regs.windowSize
  bufferAtHost := s.regs.bufferAtHost
  addressGenOffset := s.regs.addressGenOffset
  addressGenIncr := s.regs.addressGenIncr
  numberTlps := s.regs.numberTlps
  table f k := f.settled s k

/-! ## The manager follows the store -/

section Step

variable {s : State} {i : Input}

theorem TableField.settled_step (f : TableField) (hupdate : i.updateLatency = false) (k : Index) :
    f.settled (step s i) k =
      if selects i.host f k then writeBytes i.host.we (f.settled s k) i.host.din
      else f.settled s k := by
  -- the edge writes what the port held, and the port takes the access
  have hmem : (f.memory (step s i).memories).mem k = f.settled s k := f.mem_step s i k
  rw [settled, hmem, f.port_step]
  cases htable : i.host.inTable with
  | false =>
      simp [nextPort, hupdate, htable, selects]
  | true =>
      simp [nextPort, hupdate, htable, selects]

/-- Every access is in the store behind the edge that ends its cycle. -/
theorem setup_step (hupdate : i.updateLatency = false) :
    (step s i).setup = s.setup.access i.host := by
  have htable : (fun f k => TableField.settled f (step s i) k) = (s.setup.access i.host).table := by
    funext f k
    exact f.settled_step hupdate k
  rw [State.setup, htable]
  rfl

/-- Where nothing waits in front of the memories the descriptors are in place. -/
theorem TableField.settled_of_not_writes (f : TableField) {k : Index}
    (h : (f.port s).writes k = false) : f.settled s k = (f.memory s.memories).mem k := by
  rw [settled]
  split
  · rename_i hport
    rw [PortA.writes, hport.1, decide_eq_true hport.2, Bool.and_true, Bool.true_and, bne_eq_false_iff_eq]
      at h
    rw [h]
    exact writeBytes_zero _ _
  · rfl

end Step

/-! ## Accesses that change nothing -/

/-- The access, if it writes. -/
def HostAccess.writing (h : HostAccess) : List HostAccess := if h.en && h.we != 0 then [h] else []

theorem HostAccess.writesRegister_of_reads {h : HostAccess} (hread : h.writing = []) (k : BitVec 32) :
    h.writesRegister k = false := by
  rw [HostAccess.writing] at hread
  split at hread
  · cases hread
  · rename_i hno
    rw [Bool.not_eq_true] at hno
    rw [HostAccess.writesRegister, hno]
    rfl

/-- An access that does not write spares every queue. -/
theorem HostAccess.spares_of_reads {h : HostAccess} (hread : h.writing = [])
    (slots : Index → Prop) : h.Spares slots := by
  rw [HostAccess.writing] at hread
  split at hread
  · cases hread
  · rename_i hno
    rw [Bool.not_eq_true] at hno
    constructor
    · rw [HostAccess.touchesEngine, hno]
      rfl
    · intro k _
      cases hen : h.en with
      | false =>
          simp [HostAccess.writesSlot, HostAccess.inTable, hen]
      | true =>
          rw [hen, Bool.true_and] at hno
          rw [HostAccess.writesSlot, hno, Bool.and_false]
          rfl

theorem Setup.access_of_reads (c : Setup) {h : HostAccess} (hread : h.writing = []) :
    c.access h = c := by
  have hreg := fun k => HostAccess.writesRegister_of_reads hread k
  have hstore : ∀ (k : BitVec 32) (old : BitVec 64), h.store k old = old := by
    intro k old
    rw [HostAccess.store, hreg k, if_neg (by simp)]
  have htable : (c.access h).table = c.table := by
    funext f k
    simp only [Setup.access]
    split
    · rename_i hselects
      -- a selected word is accessed, so the access has no byte enable
      have hen := ((inTable_iff h).mp hselects.1).1
      rw [HostAccess.writing, hen, Bool.true_and] at hread
      have hwe : h.we = 0 := by
        by_contra hne
        rw [if_pos (bne_iff_ne.mpr hne)] at hread
        cases hread
      rw [hwe]
      exact writeBytes_zero _ _
    · rfl
  have hcontrol : h.writesControl = false := by
    rw [HostAccess.writesControl, hreg 0]
    rfl
  cases c
  simp only [Setup.access, hreg, hstore, hcontrol, Bool.false_and, Bool.false_eq_true, if_false,
    Setup.mk.injEq, true_and]
  exact htable

end Manager

/-! ## Runs -/

namespace Engine

open Clocked Manager
open Rq (Params)

variable {P : Params}

/-- The writes of the host in cycle `t`. -/
def hostWrites (inp : Nat → Input P) (t : Nat) : List HostAccess := (inp t).host.writing

/-- The update of the statistics in cycle `t`. -/
def updates (memories : Manager.Memories) (inp : Nat → Input P) (t : Nat) : Bool :=
  (mgrInput (sys memories inp t) (inp t)).updateLatency

/-- Between two updates of the statistics the manager follows the writes of the host, in whichever
cycles they come. -/
theorem setup_after (memories : Manager.Memories) (inp : Nat → Input P) {t u : Nat} (htu : t ≤ u)
    (hquiet : ∀ v, t ≤ v → v < u → updates memories inp v = false) :
    (mgr memories inp u).setup =
      (collect (hostWrites inp) t (u - t)).foldl Setup.access (mgr memories inp t).setup := by
  obtain ⟨n, rfl⟩ := Nat.exists_eq_add_of_le htu
  rw [Nat.add_sub_cancel_left]
  clear htu
  induction n with
  | zero =>
      rfl
  | succ n ih =>
      have hprev := ih (fun v hv hvn => hquiet v hv (by omega))
      have hstep : (mgr memories inp (t + n + 1)).setup =
          (mgr memories inp (t + n)).setup.access (inp (t + n)).host :=
        setup_step (hquiet (t + n) (by omega) (by omega))
      rw [← Nat.add_assoc, hstep, collect_succ, List.foldl_append, ← hprev, hostWrites]
      by_cases hwrite : ((inp (t + n)).host.en && (inp (t + n)).host.we != 0) = true
      · rw [HostAccess.writing, if_pos hwrite]
        rfl
      · -- a cycle without a write leaves the store
        have hnil : (inp (t + n)).host.writing = [] := by rw [HostAccess.writing, if_neg hwrite]
        rw [Setup.access_of_reads _ hnil, hnil]
        rfl

end Engine
end PcieBench
