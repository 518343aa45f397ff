import PcieBench.Manager.Handover

/-!
# The queue of descriptors

The engine is enabled on a queue of descriptors and performs one operation after the other, until it
stops after the last one.  An induction over the queue follows it from hand-over to hand-over.
-/

namespace PcieBench

/-! ## Sequences of operations -/

namespace Rq

variable {P : Params}

/-- A random offset inside the host buffer. -/
def RandomOffset (cfg : Config) (r : BitVec 64) : Prop := ∃ x, r = x &&& (cfg.sizeAtHost - 1)

/-- From cycle `t` to cycle `u` the FSM performs exactly the operations of the configurations `cfgs`,
one after the other, and everything it sends is built from them. -/
inductive Performs (inp : Run P) : List Config → Nat → Nat → Prop
  | done {t u : Nat} (le : t ≤ u) (idle : ∀ v, t ≤ v → v ≤ u → (st inp v).wrState = .idle) :
      Performs inp [] t u
  | next {cfg : Config} {cfgs : List Config} {t start stop u : Nat} (le : t ≤ start)
      (idle : ∀ v, t ≤ v → v ≤ start → (st inp v).wrState = .idle)
      (operation : Operation inp cfg start stop)
      (busy : ∀ v, start < v → v < stop → (st inp v).wrState ≠ .idle)
      (ended : (st inp stop).wrState = .idle)
      (built : BuiltFrom P cfg (RandomOffset cfg) (Operation.beats inp start stop))
      (rest : Performs inp cfgs stop u) : Performs inp (cfg :: cfgs) t u

/-- Idle cycles before a sequence of operations belong to it. -/
theorem Performs.before {inp : Run P} {cfgs : List Config} {t t' u : Nat}
    (h : Performs inp cfgs t u) (hle : t' ≤ t)
    (hidle : ∀ v, t' ≤ v → v < t → (st inp v).wrState = .idle) : Performs inp cfgs t' u := by
  have hjoin : ∀ {b}, (∀ v, t ≤ v → v ≤ b → (st inp v).wrState = .idle) →
      ∀ v, t' ≤ v → v ≤ b → (st inp v).wrState = .idle := by
    intro b hb v hv hvb
    rcases Nat.lt_or_ge v t with hlt | hge
    · exact hidle v hv hlt
    · exact hb v hge hvb
  cases h with
  | done le idle =>
      exact .done (by omega) (hjoin idle)
  | next le idle operation busy ended built rest =>
      exact .next (by omega) (hjoin idle) operation busy ended built rest

/-- The first operation lies where the FSM is busy. -/
theorem Performs.first {inp : Run P} {cfg : Config} {cfgs : List Config} {t u : Nat}
    (h : Performs inp (cfg :: cfgs) t u) (start stop : Nat) (hle : t ≤ start)
    (hidle : ∀ v, t ≤ v → v ≤ start → (st inp v).wrState = .idle) (hlt : start + 1 < stop)
    (hbusy : ∀ v, start < v → v < stop → (st inp v).wrState ≠ .idle)
    (hended : (st inp stop).wrState = .idle) :
    BuiltFrom P cfg (RandomOffset cfg) (Operation.beats inp start stop) ∧
      Performs inp cfgs stop u := by
  cases h with
  | @next _ _ _ start' stop' _ le idle operation busy ended built rest =>
      have hlt' := operation.start_lt
      have hstart : start' = start := by
        rcases Nat.lt_trichotomy start' start with hlt | heq | hgt
        · exact absurd (hidle (start' + 1) (by omega) (by omega)) operation.leaves
        · exact heq
        · exact absurd (idle (start + 1) (by omega) (by omega)) (hbusy _ (by omega) (by omega))
      subst hstart
      have hstop : stop' = stop := by
        rcases Nat.lt_trichotomy stop' stop with hlt | heq | hgt
        · exact absurd ended (hbusy stop' (by omega) hlt)
        · exact heq
        · exact absurd hended (busy stop (by omega) hgt)
      subst hstop
      exact ⟨built, rest⟩

/-- The first memory write of an operation is at the address of its descriptor. -/
theorem BuiltFrom.first_addr {cfg : Config} {random : BitVec 64 → Prop} {l : List Sent}
    (h : BuiltFrom P cfg random l) {addr : BitVec 64} {rest : List (BitVec 64)}
    (hl : (writeHeaders l).map (fun x => x.beat.addr) = addr :: rest) :
    addr = alignDword cfg.addrAtDescriptor := by
  obtain ⟨base, hfrom⟩ := h.writes
  obtain ⟨x, xs, hcons, rfl, -⟩ := List.map_eq_cons_iff.mp hl
  obtain ⟨hbase, htile⟩ := hfrom 0 x (by rw [hcons]; rfl)
  rw [Nat.zero_div] at hbase htile
  have hfirst : base 0 = cfg.addrAtDescriptor := hbase
  rw [htile.addr, hfirst, Nat.zero_mod, Nat.zero_mul]
  simp

end Rq

namespace Engine

open Clocked Manager
open Rq (Params TagSet Config Run pcieController)

section Queue

variable {P : Params} (memories : Manager.Memories) (inp : Nat → Input P)

/-! ## A disabled engine -/

/-- A write that enables the engine. -/
def enables (h : HostAccess) : Bool := h.writesControl && h.din.getLsbD 0

/-- The engine is disabled and nothing is left of its last operation. -/
structure AtRest (t : Nat) : Prop where
  idle : (Rq.st (rqRun memories inp) t).wrState = .idle
  pipe : (Rq.st (rqRun memories inp) t).wrStatePipe = .idle
  noEndR : (Rq.st (rqRun memories inp) t).endOfOperationR = false
  enable : (mgr memories inp t).regs.enable = false
  valid : (mgr memories inp t).out.validEngine = false
  stop : (mgr memories inp t).progress.stop = false

variable {memories inp}

/-- A clock edge without the end of an operation. -/
theorem mgr_succ_of_no_end {t : Nat}
    (hend : (Rq.st (rqRun memories inp) t).endOfOperation = false) :
    (mgr memories inp (t + 1)).progress.activeIndexDescriptor =
        (mgr memories inp t).progress.activeIndexDescriptor ∧
      (mgr memories inp (t + 1)).out.activeIndexPipe =
        (mgr memories inp t).progress.activeIndexDescriptor ∧
      (mgr memories inp (t + 1)).out.validEngine =
        (decide ((mgr memories inp t).progress.activeIndexDescriptor =
          (mgr memories inp t).out.activeIndexPipe) && (mgr memories inp t).regs.enable) ∧
      (mgr memories inp (t + 1)).progress.stop = false := by
  refine step_of_no_end (mgr memories inp t) ?_
  rw [← hend]
  exact mgrInput_isEndOfOperation memories inp t

theorem AtRest.noEnd {t : Nat} (h : AtRest memories inp t) :
    (Rq.st (rqRun memories inp) t).endOfOperation = false := by
  simp [Rq.State.endOfOperation, h.idle, h.pipe]

/-- What every clock edge of an engine at rest does, whatever the host writes. -/
theorem AtRest.edge {t : Nat} (h : AtRest memories inp t) :
    (Rq.st (rqRun memories inp) (t + 1)).wrState = .idle ∧
      (Rq.st (rqRun memories inp) (t + 1)).wrStatePipe = .idle ∧
      (Rq.st (rqRun memories inp) (t + 1)).endOfOperationR = false ∧
      (mgr memories inp (t + 1)).out.validEngine = false ∧
      (mgr memories inp (t + 1)).progress.stop = false ∧
      (mgr memories inp (t + 1)).progress.activeIndexDescriptor =
        (mgr memories inp t).progress.activeIndexDescriptor ∧
      (mgr memories inp (t + 1)).out.activeIndexPipe =
        (mgr memories inp t).progress.activeIndexDescriptor := by
  have hend := h.noEnd
  obtain ⟨hactive, hpipe, hvalid, hstop⟩ := mgr_succ_of_no_end hend
  rw [h.enable, Bool.and_false] at hvalid
  refine ⟨Rq.stays_idle h.idle (.inr (.inl h.valid)), h.idle, ?_, hvalid, hstop, hactive, hpipe⟩
  rw [Rq.st_succ, Rq.endOfOperationR_succ, hend, rqRun_engineValid, h.valid]
  rfl

/-- Without an enable the engine stays at rest. -/
theorem AtRest.succ {t : Nat} (h : AtRest memories inp t) (hno : enables (inp t).host = false) :
    AtRest memories inp (t + 1) := by
  obtain ⟨hidle, hpipe, hendR, hvalid, hstop, -, -⟩ := h.edge
  refine ⟨hidle, hpipe, hendR, ?_, hvalid, hstop⟩
  rw [mgr_succ, step_regs, nextRegisters]
  simp only [mgrInput_host, h.enable, Bool.false_and]
  split
  · rename_i hcontrol
    simpa [enables, hcontrol] using hno
  · rfl

/-- Until the next enable the engine stays at rest, at the same descriptor. -/
theorem AtRest.stays {t : Nat} (h : AtRest memories inp t) {u : Nat} (hle : t ≤ u)
    (hno : ∀ v, t ≤ v → v < u → enables (inp v).host = false) :
    AtRest memories inp u ∧ (mgr memories inp u).progress.activeIndexDescriptor =
      (mgr memories inp t).progress.activeIndexDescriptor := by
  refine interval_induction (p := fun v => AtRest memories inp v ∧
    (mgr memories inp v).progress.activeIndexDescriptor =
      (mgr memories inp t).progress.activeIndexDescriptor) ⟨h, rfl⟩ ?_ u hle (Nat.le_refl u)
  intro v hv hvu ih
  exact ⟨ih.1.succ (hno v hv hvu), ih.1.edge.2.2.2.2.2.1.trans ih.2⟩

/-- Until the next enable nothing is sent but the beat that the output register still holds. -/
theorem AtRest.emits {t : Nat} (h : AtRest memories inp t) {u : Nat} (hle : t ≤ u)
    (hno : ∀ v, t ≤ v → v < u → enables (inp v).host = false) :
    collect (Rq.emits (rqRun memories inp)) t (u - t) ++ Rq.waits (rqRun memories inp) u =
      Rq.waits (rqRun memories inp) t := by
  have hloads : collect (Rq.loads (rqRun memories inp)) t (u - t) = [] := by
    refine collect_eq_nil _ _ _ ?_
    intro n hn
    obtain ⟨hat, -⟩ := h.stays (u := t + n) (by omega) (fun w hw hwn => hno w hw (by omega))
    exact Rq.load_idle hat.idle
  have hall := Rq.collect_emits_append_waits (rqRun memories inp) t (u - t)
  rwa [hloads, List.append_nil, Nat.add_sub_cancel' hle] at hall

/-! ## The queue -/

variable (memories inp)

/-- Descriptor `k` is one of the `m` from index `a` on. -/
def InQueue (a : Index) (m : Nat) (k : Index) : Prop := ∃ i, i < m ∧ k = a + BitVec.ofNat 10 i

/-- Since the enable in cycle `e` the engine has not been disabled. -/
def Enabled (e t : Nat) : Prop := ∀ u, e < u → u ≤ t → (mgr memories inp u).regs.enable = true

/-- A queue of `m` descriptors is in place in cycle `q`, from the active index on and with the last
index at its end; the engine is at rest and is enabled in the later cycle `e`.  Nothing overwrites the
queue or the engine registers meanwhile. -/
structure Queued (q e m : Nat) (a : Index) : Prop where
  pos : 1 ≤ m
  le : m ≤ 1024
  rest : AtRest memories inp q
  active : (mgr memories inp q).progress.activeIndexDescriptor = a
  last : (mgr memories inp q).regs.lastIndexDescriptor = a + BitVec.ofNat 10 (m - 1)
  addressPort : ∀ k, InQueue a m k → (mgr memories inp q).addressPort.writes k = false
  sizePort : ∀ k, InQueue a m k → (mgr memories inp q).sizePort.writes k = false
  lt : q < e
  enabling : enables (inp e).host = true
  before : ∀ t, q ≤ t → t < e → (inp t).host.Spares (InQueue a m)
  during : ∀ t, e < t → Enabled memories inp e t → (inp t).host.Spares (InQueue a m)

/-- The environment of the engine keeps it supplied: the core takes beats, C2S data arrives for
writes, and every memory read request is completed. -/
structure Supplied (capWrite capRead : Bool) : Prop where
  tready : ∀ t, ∃ u, t ≤ u ∧ (inp u).axisRqTready = true
  c2s : capWrite = true → ∀ t, ∃ u, t ≤ u ∧ (inp u).c2sTvalid = true
  completes : capRead = true → ∀ t j, Rq.outstanding (rqRun memories inp) t j = true →
    ∃ u, t ≤ u ∧ (inp u).completedTags j = true

/-- The window of the reads: at least one tag, and never smaller before. -/
def WindowKept (e : Nat) : Prop :=
  0 < P.windowSize ∧ 0 < Rq.window (rqRun memories inp) (e + 1) ∧
    ∀ u, u ≤ e → Rq.window (rqRun memories inp) (e + 1) ≤ Rq.window (rqRun memories inp) u

/-- The third cycle after each operation but the last one is stalled, or the next descriptor is the
same: then the descriptor registers have caught up with the active index. -/
def HandedOver (e : Nat) (m₀ : Manager.State) : Prop :=
  ∀ t, e < t → Enabled memories inp e t → (Rq.st (rqRun memories inp) t).endOfOperation = true →
    (mgr memories inp t).progress.activeIndexDescriptor ≠
      (mgr memories inp t).regs.lastIndexDescriptor →
    (inp (t + 3)).axisRqTready = false ∨
      queueConfig m₀ (mgr memories inp t).progress.activeIndexDescriptor =
        queueConfig m₀ ((mgr memories inp t).progress.activeIndexDescriptor + 1)

/-- An engine that works on descriptor `k` of the queue of `m₀`. -/
structure Runs (slots : Index → Prop) (m₀ : Manager.State) (e t : Nat) (k : Index) : Prop where
  lt : e < t
  enabled : Enabled memories inp e t
  kept : Kept slots m₀ (mgr memories inp t)
  position : Position (mgr memories inp t) k k true
  fetched : Fetched m₀ (mgr memories inp t) k k k
  noEndR : (Rq.st (rqRun memories inp) t).endOfOperationR = false

/-- An engine that is about to start on descriptor `k`. -/
structure Ready (slots : Index → Prop) (m₀ : Manager.State) (e t : Nat) (k : Index) : Prop where
  runs : Runs memories inp slots m₀ e t k
  idle : (Rq.st (rqRun memories inp) t).wrState = .idle
  noEnd : (Rq.st (rqRun memories inp) t).endOfOperation = false

variable {memories inp} {q e m : Nat} {a : Index}

theorem Enabled.succ {t : Nat} (h : Enabled memories inp e t)
    (hnext : (mgr memories inp (t + 1)).regs.enable = true) : Enabled memories inp e (t + 1) := by
  intro u hu hut
  rcases Nat.lt_or_ge t u with hlt | hge
  · obtain rfl : u = t + 1 := by omega
    exact hnext
  · exact h u hu hge

/-- The enabling write reaches neither the descriptor table nor the other engine registers. -/
theorem control_access {h : HostAccess} (hcontrol : h.writesControl = true) :
    h.inTable = false ∧ h.writesRegister 1 = false ∧ h.writesRegister 3 = false := by
  simp only [HostAccess.writesControl, HostAccess.writesRegister, Bool.and_eq_true,
    decide_eq_true_eq] at hcontrol
  have hword : h.word = engineTableOffset := by
    rw [hcontrol.1.2]
    rfl
  refine ⟨?_, ?_, ?_⟩
  · have heff : h.effectiveAddress = 0xfffffff8 := by
      rw [HostAccess.effectiveAddress, hword]
      rfl
    rw [HostAccess.inTable, heff]
    simp [offsetBetweenDescriptors]
  · rw [HostAccess.writesRegister, hword, decide_eq_false (by decide), Bool.and_false]
  · rw [HostAccess.writesRegister, hword, decide_eq_false (by decide), Bool.and_false]

/-- Without an access to the descriptor table port A writes nothing. -/
theorem nextPort_of_not_inTable {i : Manager.Input} (h : i.host.inTable = false)
    (port : PortA Index) (field : BitVec 32) (k : Index) :
    (nextPort i port field).writes k = false := by
  simp [PortA.writes, nextPort, h]

/-! ## From the enable to the first operation -/

/-- Until the enable the engine is at rest at the first descriptor and keeps the queue. -/
theorem Queued.waiting (hq : Queued memories inp q e m a) {t : Nat} (hqt : q ≤ t) (hte : t ≤ e) :
    AtRest memories inp t ∧ (mgr memories inp t).progress.activeIndexDescriptor = a ∧
      Kept (InQueue a m) (mgr memories inp q) (mgr memories inp t) := by
  refine interval_induction (p := fun t => AtRest memories inp t ∧
    (mgr memories inp t).progress.activeIndexDescriptor = a ∧
      Kept (InQueue a m) (mgr memories inp q) (mgr memories inp t)) ?_ ?_ t hqt hte
  · exact ⟨hq.rest, hq.active, rfl, rfl, rfl, rfl, rfl, rfl, rfl, fun _ _ => rfl, fun _ _ => rfl,
      hq.addressPort, hq.sizePort⟩
  · rintro t hqt hte ⟨hrest, hactive, hkept⟩
    have hspares := hq.before t hqt hte
    have hno : enables (inp t).host = false := by
      rw [enables, HostAccess.writesControl_of_not_touches hspares.engine]
      rfl
    exact ⟨hrest.succ hno, hrest.edge.2.2.2.2.2.1.trans hactive, hkept.step hspares⟩

/-- The enable leaves the queue as it was. -/
theorem Queued.enabled (hq : Queued memories inp q e m a) :
    (mgr memories inp (e + 1)).regs.enable = true ∧
      (mgr memories inp (e + 1)).regs.lastIndexDescriptor = a + BitVec.ofNat 10 (m - 1) ∧
      (mgr memories inp (e + 1)).regs.windowSize = (mgr memories inp e).regs.windowSize := by
  obtain ⟨-, -, hkept⟩ := hq.waiting (by have := hq.lt; omega) (Nat.le_refl e)
  have henables := hq.enabling
  rw [enables, Bool.and_eq_true] at henables
  obtain ⟨hcontrol, hbit⟩ := henables
  obtain ⟨-, hlast, hwindow⟩ := control_access hcontrol
  refine ⟨?_, ?_, ?_⟩
  · simp [mgr_succ, nextRegisters, hcontrol, hbit]
  · rw [mgr_succ, step_regs, nextRegisters]
    simp only [mgrInput_host, hlast, Bool.false_and, Bool.false_eq_true, if_false]
    exact hkept.lastIndex.trans hq.last
  · rw [mgr_succ, step_regs, nextRegisters]
    simp only [mgrInput_host, HostAccess.store, hwindow, Bool.false_eq_true, if_false]

/-- The queue in the cycle after the enable is the one of cycle `q`. -/
theorem Queued.kept (hq : Queued memories inp q e m a) :
    (∀ k, InQueue a m k →
      (mgr memories inp (e + 1)).memories.address.mem k =
        (mgr memories inp q).memories.address.mem k ∧
      (mgr memories inp (e + 1)).memories.size.mem k =
        (mgr memories inp q).memories.size.mem k) ∧
    Kept (InQueue a m) (mgr memories inp (e + 1)) (mgr memories inp (e + 1)) := by
  obtain ⟨-, -, hkept⟩ := hq.waiting (by have := hq.lt; omega) (Nat.le_refl e)
  have henables := hq.enabling
  rw [enables, Bool.and_eq_true] at henables
  obtain ⟨htable, -, -⟩ := control_access henables.1
  refine ⟨?_, rfl, rfl, rfl, rfl, rfl, rfl, rfl, fun _ _ => rfl, fun _ _ => rfl, ?_, ?_⟩
  · intro k hk
    rw [mgr_succ, step_memories, nextMemories,
      Bram.step_mem_of_not_writes _ _ _ _ (hkept.addressPort k hk),
      Bram.step_mem_of_not_writes _ _ _ _ (hkept.sizePort k hk)]
    exact ⟨hkept.address k hk, hkept.size k hk⟩
  · intro k _
    exact nextPort_of_not_inTable (by rw [mgrInput_host]; exact htable) _ _ k
  · intro k _
    exact nextPort_of_not_inTable (by rw [mgrInput_host]; exact htable) _ _ k

/-- Two cycles after the enable the engine is ready for the first descriptor. -/
theorem Queued.ready (hq : Queued memories inp q e m a) :
    Ready memories inp (InQueue a m) (mgr memories inp (e + 1)) e (e + 2) a ∧
      (Rq.st (rqRun memories inp) (e + 1)).wrState = .idle := by
  have hlt := hq.lt
  have hslot : InQueue a m a := ⟨0, hq.pos, by simp⟩
  obtain ⟨hrest, hactive, hkeptq⟩ := hq.waiting (by omega) (Nat.le_refl e)
  obtain ⟨hidle, hpipe, hendR, hvalid, hstop, hactive1, hpipe1⟩ := hrest.edge
  obtain ⟨henable, -, -⟩ := hq.enabled
  obtain ⟨hsame, hkept⟩ := hq.kept
  have hone : Enabled memories inp e (e + 1) := by
    intro u hu hue
    obtain rfl : u = e + 1 := by omega
    exact henable
  have hspares := hq.during (e + 1) (by omega) hone
  have hend : (Rq.st (rqRun memories inp) (e + 1)).endOfOperation = false := by
    simp [Rq.State.endOfOperation, hidle, hpipe]
  have hidle2 : (Rq.st (rqRun memories inp) (e + 2)).wrState = .idle :=
    Rq.stays_idle hidle (.inr (.inl hvalid))
  obtain ⟨henable2, hstats2⟩ := registers_of_not_touches (mgr memories inp (e + 1))
    (i := mgrInput (sys memories inp (e + 1)) (inp (e + 1))) hspares.engine
  -- the first descriptor has been read in cycle e - 1 already
  have hlatch : ∀ t, q ≤ t → t ≤ e →
      (mgr memories inp (t + 1)).memories.address.latchb =
        (mgr memories inp (e + 1)).memories.address.mem a ∧
      (mgr memories inp (t + 1)).memories.size.latchb =
        (mgr memories inp (e + 1)).memories.size.mem a := by
    intro t hqt hte
    obtain ⟨-, hat, hk⟩ := hq.waiting hqt hte
    obtain ⟨haddr, hsize⟩ := hsame a hslot
    rw [mgr_succ, step_memories, nextMemories, hat,
      Bram.step_latchb_of_not_writes _ _ _ _ (hk.addressPort a hslot),
      Bram.step_latchb_of_not_writes _ _ _ _ (hk.sizePort a hslot), haddr, hsize]
    exact ⟨hk.address a hslot, hk.size a hslot⟩
  obtain ⟨d, rfl⟩ : ∃ d, e = d + 1 := ⟨e - 1, by omega⟩
  have hfetched : Fetched (mgr memories inp (d + 2)) (mgr memories inp (d + 3)) a a a := by
    obtain ⟨hl1, hl1'⟩ := hlatch d (by omega) (by omega)
    obtain ⟨hl2, hl2'⟩ := hlatch (d + 1) (by omega) (by omega)
    refine ⟨hl1, hl1', hl2, hl2', ?_, ?_⟩
    · rw [mgr_succ, step_memories, nextMemories, hactive1, hactive,
        Bram.step_latchb_of_not_writes _ _ _ _ (hkept.addressPort a hslot)]
    · rw [mgr_succ, step_memories, nextMemories, hactive1, hactive,
        Bram.step_latchb_of_not_writes _ _ _ _ (hkept.sizePort a hslot)]
  refine ⟨⟨⟨by omega, ?_, hkept.step hspares, ?_, hfetched, ?_⟩, hidle2, ?_⟩, hidle⟩
  · refine hone.succ ?_
    rw [mgr_succ, henable2, henable, hstop]
    rfl
  · obtain ⟨hactive2, hpipe2, hvalid2, hstop2⟩ := mgr_succ_of_no_end hend
    rw [hactive1, hactive] at hactive2 hpipe2
    rw [hactive1, hpipe1, henable, decide_eq_true rfl] at hvalid2
    rw [henable, hstop] at henable2
    exact ⟨hactive2, hpipe2, hvalid2, henable2, hstop2, hstats2⟩
  · rw [Rq.st_succ, Rq.endOfOperationR_succ, hend, rqRun_engineValid, hvalid]
    rfl
  · exact Rq.endOfOperation_of_idle hidle hidle2

/-! ## One operation -/

theorem Enabled.mono {t u : Nat} (h : Enabled memories inp e t) (hut : u ≤ t) :
    Enabled memories inp e u :=
  fun v hv hvu => h v hv (by omega)

/-- As long as the engine is enabled the queue is kept. -/
theorem Queued.kept_of_enabled (hq : Queued memories inp q e m a) {t : Nat} (ht : e < t)
    (hen : Enabled memories inp e t) :
    Kept (InQueue a m) (mgr memories inp (e + 1)) (mgr memories inp t) := by
  refine interval_induction (p := fun t => Kept (InQueue a m) (mgr memories inp (e + 1))
    (mgr memories inp t)) hq.kept.2 ?_ t ht (Nat.le_refl t)
  intro u hu hut hk
  exact hk.step (hq.during u hu (hen.mono (by omega)))

/-- As long as the engine is enabled the window is the one of the cycle after the enable. -/
theorem Queued.window_eq (hq : Queued memories inp q e m a) {t : Nat} (ht : e < t)
    (hen : Enabled memories inp e t) :
    Rq.window (rqRun memories inp) t = Rq.window (rqRun memories inp) (e + 1) := by
  obtain ⟨u, rfl⟩ : ∃ u, t = u + 1 := ⟨t - 1, by omega⟩
  have hout : (mgr memories inp (u + 1)).out.windowSize =
      (mgr memories inp (e + 1)).out.windowSize := by
    rw [(windowSize_succ memories inp u).2, (windowSize_succ memories inp e).2]
    -- the output register follows the window register by one cycle
    rcases Nat.lt_or_ge e u with hlt | hge
    · rw [(hq.kept_of_enabled hlt (hen.mono (by omega))).windowSize, hq.enabled.2.2]
    · obtain rfl : u = e := by omega
      rfl
  rw [Rq.window, Rq.window, rqRun_currentWindowSize, rqRun_currentWindowSize, hout]

variable {t : Nat} {k : Index}

theorem Runs.succ (hq : Queued memories inp q e m a) (hslot : InQueue a m k)
    (h : Runs memories inp (InQueue a m) (mgr memories inp (e + 1)) e t k)
    (hend : (Rq.st (rqRun memories inp) t).endOfOperation = false) :
    Runs memories inp (InQueue a m) (mgr memories inp (e + 1)) e (t + 1) k := by
  have hspares := hq.during t h.lt h.enabled
  have hpos : Position (mgr memories inp (t + 1)) k k true := by
    have hstep := h.position.step (i := mgrInput (sys memories inp t) (inp t))
      ((mgrInput_isEndOfOperation memories inp t).trans hend) hspares.engine
    rwa [decide_eq_true rfl] at hstep
  refine ⟨by have := h.lt; omega, h.enabled.succ hpos.enable, h.kept.step hspares, hpos,
    h.fetched.step h.kept hslot h.position.active _, ?_⟩
  rw [Rq.st_succ, Rq.endOfOperationR_succ, hend, h.noEndR, Bool.and_false]
  rfl

/-- A ready engine waits for the core. -/
theorem Ready.start (hq : Queued memories inp q e m a) (hslot : InQueue a m k)
    (h : Ready memories inp (InQueue a m) (mgr memories inp (e + 1)) e t k)
    (htready : ∀ t, ∃ u, t ≤ u ∧ (inp u).axisRqTready = true) :
    ∃ s, t ≤ s ∧ Ready memories inp (InQueue a m) (mgr memories inp (e + 1)) e s k ∧
      (inp s).axisRqTready = true ∧
      ∀ v, t ≤ v → v ≤ s → (Rq.st (rqRun memories inp) v).wrState = .idle := by
  classical
  have hexists := htready t
  obtain ⟨hle, hready⟩ := Nat.find_spec hexists
  have hall : ∀ v, t ≤ v → v ≤ Nat.find hexists →
      Ready memories inp (InQueue a m) (mgr memories inp (e + 1)) e v k := by
    refine interval_induction h ?_
    intro v hv hlt hr
    have hstall : (inp v).axisRqTready = false := by
      by_contra hno
      exact Nat.find_min hexists hlt ⟨hv, by simpa using hno⟩
    have hidle : (Rq.st (rqRun memories inp) (v + 1)).wrState = .idle :=
      Rq.stays_idle hr.idle (.inl hstall)
    exact ⟨hr.runs.succ hq hslot hr.noEnd, hidle, Rq.endOfOperation_of_idle hr.idle hidle⟩
  exact ⟨Nat.find hexists, hle, hall _ hle (Nat.le_refl _), hready,
    fun v hv hvs => (hall v hv hvs).idle⟩

/-- The random offsets of an enabled engine lie in its host buffer. -/
theorem Queued.randomOk (hq : Queued memories inp q e m a) {s stop : Nat} (hs : e + 1 < s)
    (hen : ∀ t, t < stop → Enabled memories inp e t) :
    Rq.RandomOk (rqRun memories inp) s stop
      (Rq.RandomOffset (queueConfig (mgr memories inp (e + 1)) k)) := by
  intro t hst hts _
  obtain ⟨u, rfl⟩ : ∃ u, t = u + 1 := ⟨t - 1, by omega⟩
  have hkept := hq.kept_of_enabled (t := u) (by omega) (hen u (by omega))
  have hhost : (rqRun memories inp u).cfg.sizeAtHost =
      (queueConfig (mgr memories inp (e + 1)) k).sizeAtHost := hkept.bufferAtHost
  rw [Rq.st_succ]
  refine ⟨⟨(Rq.st (rqRun memories inp) u).random.addressWrNonTruncated, ?_⟩,
    ⟨(Rq.st (rqRun memories inp) u).random.addressRdNonTruncated, ?_⟩⟩
  · rw [← hhost]
    rfl
  · rw [← hhost]
    rfl

/-- The environment of an operation that would run for ever. -/
theorem Queued.fair (hq : Queued memories inp q e m a)
    (hen : ∀ t, Enabled memories inp e t)
    (hsupplied : Supplied memories inp (queueConfig (mgr memories inp (e + 1)) k).capWrite
      (queueConfig (mgr memories inp (e + 1)) k).capRead)
    (hwindow : (queueConfig (mgr memories inp (e + 1)) k).capRead = true →
      WindowKept memories inp e) :
    Rq.Fair (rqRun memories inp) (queueConfig (mgr memories inp (e + 1)) k) (e + 1)
      (Rq.window (rqRun memories inp) (e + 1)) where
  tready := hsupplied.tready
  c2s := hsupplied.c2s
  window t ht := hq.window_eq ht (hen t)
  window_pos hcap := ⟨(hwindow hcap).2.1, (hwindow hcap).1⟩
  completes := by
    intro hcap t j _ hj hbusy
    refine hsupplied.completes hcap t j ?_
    refine outstanding_of_current memories inp ?_ hj hbusy
    intro u _
    rcases Nat.lt_or_ge e u with hlt | hge
    · rw [hq.window_eq hlt (hen u)]
    · exact (hwindow hcap).2.2 u hge

/-- A ready engine that the core lets start performs the operation of its descriptor, and stays on
the descriptor until the operation ends. -/
theorem Ready.performs_of_fair (hq : Queued memories inp q e m a) (hslot : InQueue a m k) {s : Nat}
    (hs : e + 1 < s) (h : Ready memories inp (InQueue a m) (mgr memories inp (e + 1)) e s k)
    (hready : (inp s).axisRqTready = true)
    (hfair : (∀ t, Enabled memories inp e t) →
      (∀ t, s < t → (Rq.st (rqRun memories inp) t).wrState ≠ .idle) →
      (∀ t, s ≤ t → (rqRun memories inp t).cfg = queueConfig (mgr memories inp (e + 1)) k) →
      Rq.Fair (rqRun memories inp) (queueConfig (mgr memories inp (e + 1)) k) (e + 1)
        (Rq.window (rqRun memories inp) (e + 1)))
    (hterm : (queueConfig (mgr memories inp (e + 1)) k).Terminates P) :
    ∃ stop t, Rq.Operation (rqRun memories inp) (queueConfig (mgr memories inp (e + 1)) k) s stop ∧
      (∀ v, s < v → v < stop → (Rq.st (rqRun memories inp) v).wrState ≠ .idle) ∧
      (Rq.st (rqRun memories inp) stop).wrState = .idle ∧
      Runs memories inp (InQueue a m) (mgr memories inp (e + 1)) e t k ∧
      (Rq.st (rqRun memories inp) t).endOfOperation = true ∧ (t = stop ∨ t + 1 = stop) := by
  -- as long as it is busy the engine stays on the descriptor
  have hstay : ∀ t, s ≤ t → (∀ u, s < u → u ≤ t → (Rq.st (rqRun memories inp) u).wrState ≠ .idle) →
      Runs memories inp (InQueue a m) (mgr memories inp (e + 1)) e t k := by
    intro t hst hbusy
    refine interval_induction (p := fun t => Runs memories inp (InQueue a m)
      (mgr memories inp (e + 1)) e t k) h.runs ?_ t hst (Nat.le_refl t)
    intro u hu hut hr
    exact hr.succ hq hslot (Rq.endOfOperation_of_busy (i := rqRun memories inp u)
      (hbusy (u + 1) (by omega) (by omega)))
  have hconfig : ∀ {t}, Runs memories inp (InQueue a m) (mgr memories inp (e + 1)) e t k →
      (rqRun memories inp t).cfg = queueConfig (mgr memories inp (e + 1)) k := by
    intro t hr
    exact hr.kept.descriptor_eq hr.fetched
  -- a descriptor that terminates has a direction, so the FSM leaves idle
  have hcap : (queueConfig (mgr memories inp (e + 1)) k).capWrite = true ∨
      (queueConfig (mgr memories inp (e + 1)) k).capRead = true := by
    rcases hterm with hcap | ⟨hcap, -⟩
    · exact .inr hcap
    · exact .inl hcap
  have hleaves : (Rq.st (rqRun memories inp) (s + 1)).wrState ≠ .idle := by
    refine Rq.leaves_idle h.idle hready h.runs.position.valid h.runs.noEndR h.noEnd ?_
    rw [hconfig h.runs]
    exact hcap
  -- were it busy for ever, the environment would be fair for ever
  have hfair : (∀ t, s < t → (Rq.st (rqRun memories inp) t).wrState ≠ .idle) →
      Rq.Fair (rqRun memories inp) (queueConfig (mgr memories inp (e + 1)) k) (e + 1)
        (Rq.window (rqRun memories inp) (e + 1)) := by
    intro hforever
    refine hfair (fun t => ?_) hforever (fun t hst => ?_)
    · have hlong := hstay (max s t) (Nat.le_max_left _ _) (fun u hu _ => hforever u hu)
      exact hlong.enabled.mono (Nat.le_max_right _ _)
    · exact hconfig (hstay t hst (fun u hu _ => hforever u hu))
  obtain ⟨stop, op, hidle, hbusy⟩ := Rq.operation_ends h.idle hleaves
    (fun t hst hb => hconfig (hstay t hst hb)) hfair hs hterm
  have hlong : s + 1 < stop := by
    have := op.start_lt
    by_contra hno
    obtain rfl : stop = s + 1 := by omega
    exact hleaves hidle
  obtain ⟨l, rfl⟩ : ∃ l, stop = l + 1 := ⟨stop - 1, by omega⟩
  have hlast := hstay l (by omega) (fun u hu hul => hbusy u hu (by omega))
  -- the pulse comes in the last busy cycle or in the first idle one
  rcases Rq.endOfOperation_of_leaving (i := rqRun memories inp l) (hbusy l (by omega) (by omega))
    hidle with hend | ⟨hno, hend⟩
  · exact ⟨l + 1, l, op, hbusy, hidle, hlast, hend, .inr rfl⟩
  · exact ⟨l + 1, l + 1, op, hbusy, hidle, hlast.succ hq hslot hno, hend, .inl rfl⟩

/-- A supplied engine does so. -/
theorem Ready.performs (hq : Queued memories inp q e m a) (hslot : InQueue a m k) {s : Nat}
    (hs : e + 1 < s) (h : Ready memories inp (InQueue a m) (mgr memories inp (e + 1)) e s k)
    (hready : (inp s).axisRqTready = true)
    (hsupplied : Supplied memories inp (queueConfig (mgr memories inp (e + 1)) k).capWrite
      (queueConfig (mgr memories inp (e + 1)) k).capRead)
    (hwindow : (queueConfig (mgr memories inp (e + 1)) k).capRead = true →
      WindowKept memories inp e)
    (hterm : (queueConfig (mgr memories inp (e + 1)) k).Terminates P) :
    ∃ stop t, Rq.Operation (rqRun memories inp) (queueConfig (mgr memories inp (e + 1)) k) s stop ∧
      (∀ v, s < v → v < stop → (Rq.st (rqRun memories inp) v).wrState ≠ .idle) ∧
      (Rq.st (rqRun memories inp) stop).wrState = .idle ∧
      Runs memories inp (InQueue a m) (mgr memories inp (e + 1)) e t k ∧
      (Rq.st (rqRun memories inp) t).endOfOperation = true ∧ (t = stop ∨ t + 1 = stop) :=
  h.performs_of_fair hq hslot hs hready (fun hen _ _ => hq.fair hen hsupplied hwindow) hterm

/-! ## From one operation to the next -/

/-- An idle engine on its way to descriptor `k`. -/
structure Between (memories : Manager.Memories) (inp : Nat → Input P) (slots : Index → Prop)
    (m₀ : Manager.State) (e t : Nat) (k pipe : Index) (valid endR : Bool)
    (shown next latched : Index) : Prop where
  lt : e < t
  enabled : Enabled memories inp e t
  kept : Kept slots m₀ (mgr memories inp t)
  position : Position (mgr memories inp t) k pipe valid
  fetched : Fetched m₀ (mgr memories inp t) shown next latched
  endR : (Rq.st (rqRun memories inp) t).endOfOperationR = endR
  idle : (Rq.st (rqRun memories inp) t).wrState = .idle
  noEnd : (Rq.st (rqRun memories inp) t).endOfOperation = false

/-- As long as something blocks the start, every cycle moves the descriptors on. -/
theorem Between.succ (hq : Queued memories inp q e m a) (hslot : InQueue a m k) {pipe x y z : Index}
    {valid endR : Bool}
    (h : Between memories inp (InQueue a m) (mgr memories inp (e + 1)) e t k pipe valid endR x y z)
    (hblock : (inp t).axisRqTready = false ∨ valid = false ∨ endR = true) :
    Between memories inp (InQueue a m) (mgr memories inp (e + 1)) e (t + 1) k k (decide (k = pipe))
      (valid && endR) y z k := by
  have hspares := hq.during t h.lt h.enabled
  have hpos := h.position.step (i := mgrInput (sys memories inp t) (inp t))
    ((mgrInput_isEndOfOperation memories inp t).trans h.noEnd) hspares.engine
  have hidle : (Rq.st (rqRun memories inp) (t + 1)).wrState = .idle := by
    refine Rq.stays_idle h.idle ?_
    -- the three conditions of the state `IDLE`
    rcases hblock with hstall | hvalid | hendR
    · exact .inl hstall
    · exact .inr (.inl (h.position.valid.trans hvalid))
    · exact .inr (.inr (.inl (h.endR.trans hendR)))
  refine ⟨by have := h.lt; omega, h.enabled.succ hpos.enable, h.kept.step hspares, hpos,
    h.fetched.step h.kept hslot h.position.active _, ?_, hidle,
    Rq.endOfOperation_of_idle h.idle hidle⟩
  rw [Rq.st_succ, Rq.endOfOperationR_succ, h.noEnd, h.endR, rqRun_engineValid, h.position.valid,
    Bool.false_or]

theorem Between.ready
    (h : Between memories inp (InQueue a m) (mgr memories inp (e + 1)) e t k k true false k k k) :
    Ready memories inp (InQueue a m) (mgr memories inp (e + 1)) e t k :=
  ⟨⟨h.lt, h.enabled, h.kept, h.position, h.fetched, h.endR⟩, h.idle, h.noEnd⟩

/-- In the cycle after an operation the active index has moved, the descriptor registers have not. -/
theorem Runs.moves (hq : Queued memories inp q e m a) (hslot : InQueue a m k)
    (h : Runs memories inp (InQueue a m) (mgr memories inp (e + 1)) e t k)
    (hend : (Rq.st (rqRun memories inp) t).endOfOperation = true)
    (hlast : k ≠ (mgr memories inp t).regs.lastIndexDescriptor) :
    Between memories inp (InQueue a m) (mgr memories inp (e + 1)) e (t + 1) (k + 1) k true true
      k k k := by
  have hspares := hq.during t h.lt h.enabled
  have hpos := h.position.next (i := mgrInput (sys memories inp t) (inp t))
    ((mgrInput_isEndOfOperation memories inp t).trans hend) hspares.engine hlast
  obtain ⟨hidle, hnoEnd⟩ := Rq.endOfOperation_once hend (rqRun memories inp t)
  refine ⟨by have := h.lt; omega, h.enabled.succ hpos.enable, h.kept.step hspares, hpos,
    h.fetched.step h.kept hslot h.position.active _, ?_, hidle, hnoEnd⟩
  rw [Rq.st_succ, Rq.endOfOperationR_succ, hend, Bool.true_or]

/-- The hand-over: `end_of_operation_r` and `VALID_ENGINE` block two cycles, and the third one has to
be lost as well unless both descriptors are the same. -/
theorem Runs.handover (hq : Queued memories inp q e m a) (hslot : InQueue a m k)
    (hnext : InQueue a m (k + 1))
    (h : Runs memories inp (InQueue a m) (mgr memories inp (e + 1)) e t k)
    (hend : (Rq.st (rqRun memories inp) t).endOfOperation = true)
    (hlast : k ≠ (mgr memories inp t).regs.lastIndexDescriptor)
    (hover : (inp (t + 3)).axisRqTready = false ∨
      queueConfig (mgr memories inp (e + 1)) k = queueConfig (mgr memories inp (e + 1)) (k + 1)) :
    ∃ s, t < s ∧ Ready memories inp (InQueue a m) (mgr memories inp (e + 1)) e s (k + 1) ∧
      ∀ v, t < v → v ≤ s → (Rq.st (rqRun memories inp) v).wrState = .idle := by
  -- cycle 1: the index has moved; cycle 2: `VALID_ENGINE` is low; cycle 3: it is high again
  have h1 := h.moves hq hslot hend hlast
  have h2 := h1.succ hq hnext (.inr (.inr rfl))
  have hne : k + 1 ≠ k := by
    intro heq
    bv_omega
  rw [decide_eq_false hne] at h2
  have h3 := h2.succ hq hnext (.inr (.inl rfl))
  rw [decide_eq_true rfl] at h3
  have hidle : ∀ v, t < v → v ≤ t + 3 → (Rq.st (rqRun memories inp) v).wrState = .idle := by
    intro v hv hvt
    obtain rfl | rfl | rfl : v = t + 1 ∨ v = t + 2 ∨ v = t + 3 := by omega
    · exact h1.idle
    · exact h2.idle
    · exact h3.idle
  rcases hover with hstall | hsame
  · -- one more cycle, and the next descriptor shows
    have h4 := h3.succ hq hnext (.inl hstall)
    rw [decide_eq_true rfl] at h4
    refine ⟨t + 4, by omega, h4.ready, ?_⟩
    intro v hv hvt
    rcases Nat.lt_or_ge (t + 3) v with hlt | hge
    · obtain rfl : v = t + 4 := by omega
      exact h4.idle
    · exact hidle v hv hge
  · -- the engine shows the previous descriptor, which is the next one as well
    refine ⟨t + 3, by omega, Between.ready { h3 with fetched := ?_ }, hidle⟩
    have haddr := congrArg Rq.Config.addrAtDescriptor hsame
    have hsize := congrArg Rq.Config.sizeAtDescriptor hsame
    exact { h3.fetched with
      addr := h3.fetched.addr.trans haddr
      size := h3.fetched.size.trans hsize }

/-- After the last operation the engine comes to rest behind the queue. -/
theorem Runs.finish (hq : Queued memories inp q e m a)
    (h : Runs memories inp (InQueue a m) (mgr memories inp (e + 1)) e t k)
    (hend : (Rq.st (rqRun memories inp) t).endOfOperation = true)
    (hlast : k = (mgr memories inp t).regs.lastIndexDescriptor) :
    AtRest memories inp (t + 2) ∧
      (mgr memories inp (t + 2)).progress.activeIndexDescriptor = k + 1 ∧
      ∀ v, t < v → v ≤ t + 2 → (Rq.st (rqRun memories inp) v).wrState = .idle := by
  obtain ⟨hactive, hpipe, hvalid, henable, hstop⟩ := h.position.last
    (i := mgrInput (sys memories inp t) (inp t))
    ((mgrInput_isEndOfOperation memories inp t).trans hend) (hq.during t h.lt h.enabled).engine hlast
  rw [← mgr_succ] at hactive hpipe hvalid henable hstop
  obtain ⟨hidle, hnoEnd⟩ := Rq.endOfOperation_once hend (rqRun memories inp t)
  rw [← Rq.st_succ] at hidle hnoEnd
  have hidle2 : (Rq.st (rqRun memories inp) (t + 2)).wrState = .idle :=
    Rq.stays_idle hidle (.inr (.inl hvalid))
  -- stop_r clears the enable bit one cycle later
  have hspares := hq.during (t + 1) (by have := h.lt; omega) (h.enabled.succ henable)
  obtain ⟨henable2, -⟩ := registers_of_not_touches (mgr memories inp (t + 1))
    (i := mgrInput (sys memories inp (t + 1)) (inp (t + 1))) hspares.engine
  obtain ⟨hactive2, -, hvalid2, hstop2⟩ := mgr_succ_of_no_end hnoEnd
  refine ⟨⟨hidle2, hidle, ?_, ?_, ?_, hstop2⟩, hactive2.trans hactive, ?_⟩
  · rw [Rq.st_succ, Rq.endOfOperationR_succ, hnoEnd, rqRun_engineValid, hvalid]
    rfl
  · rw [mgr_succ, henable2, henable, hstop]
    rfl
  · rw [hvalid2, hactive, hpipe]
    have hne : k + 1 ≠ k := by
      intro heq
      bv_omega
    rw [decide_eq_false hne, Bool.false_and]
  · intro v hv hvt
    obtain rfl | rfl : v = t + 1 ∨ v = t + 2 := by omega
    · exact hidle
    · exact hidle2

/-! ## The whole queue -/

/-- The configurations of `n` descriptors from descriptor `i` of the queue on. -/
def queueConfigs (m₀ : Manager.State) (a : Index) (i n : Nat) : List Config :=
  (List.range' i n).map fun j => queueConfig m₀ (a + BitVec.ofNat 10 j)

/-- What holds between an operation of the queue and the next one, or the end. -/
theorem Ready.operation (hq : Queued memories inp q e m a) (hslot : InQueue a m k)
    (hs : e + 1 < t) (h : Ready memories inp (InQueue a m) (mgr memories inp (e + 1)) e t k)
    (hsupplied : Supplied memories inp (queueConfig (mgr memories inp (e + 1)) k).capWrite
      (queueConfig (mgr memories inp (e + 1)) k).capRead)
    (hwindow : (queueConfig (mgr memories inp (e + 1)) k).capRead = true →
      WindowKept memories inp e)
    (hterm : (queueConfig (mgr memories inp (e + 1)) k).Terminates P) :
    ∃ l stop, t < stop ∧ Runs memories inp (InQueue a m) (mgr memories inp (e + 1)) e l k ∧
      (Rq.st (rqRun memories inp) l).endOfOperation = true ∧ (l = stop ∨ l + 1 = stop) ∧
      (Rq.st (rqRun memories inp) stop).wrState = .idle ∧
      ∀ cfgs u, Rq.Performs (rqRun memories inp) cfgs stop u →
        Rq.Performs (rqRun memories inp) (queueConfig (mgr memories inp (e + 1)) k :: cfgs) t u := by
  obtain ⟨s, hts, hready, htready, hidle⟩ := h.start hq hslot hsupplied.tready
  obtain ⟨stop, l, op, hbusy, hended, hruns, hend, hl⟩ :=
    hready.performs hq hslot (by omega) htready hsupplied hwindow hterm
  have hlt := op.start_lt
  refine ⟨l, stop, by omega, hruns, hend, hl, hended, ?_⟩
  intro cfgs u hrest
  have hrandom : Rq.RandomOk (rqRun memories inp) s stop
      (Rq.RandomOffset (queueConfig (mgr memories inp (e + 1)) k)) :=
    hq.randomOk (by omega) (fun v hv => hruns.enabled.mono (by omega))
  exact .next hts hidle op hbusy hended (op.builtFrom hrandom hlt (Nat.le_refl _))
    hrest

theorem Runs.isLast (hq : Queued memories inp q e m a) {i : Nat} (hi : i < m)
    (h : Runs memories inp (InQueue a m) (mgr memories inp (e + 1)) e t (a + BitVec.ofNat 10 i)) :
    a + BitVec.ofNat 10 i = (mgr memories inp t).regs.lastIndexDescriptor ↔ i + 1 = m := by
  have hle := hq.le
  rw [h.kept.lastIndex, hq.enabled.2.1, BitVec.add_right_inj]
  constructor
  · intro heq
    have hnat := congrArg BitVec.toNat heq
    simp only [BitVec.toNat_ofNat] at hnat
    omega
  · rintro rfl
    rfl

/-- A queue of one descriptor is at its last one. -/
theorem Runs.eq_lastIndex (hq : Queued memories inp q e 1 a) {slots : Index → Prop} {x : Index}
    (h : Runs memories inp slots (mgr memories inp (e + 1)) e t x) :
    a = (mgr memories inp t).regs.lastIndexDescriptor := by
  rw [h.kept.lastIndex, hq.enabled.2.1]
  simp

/-- From every descriptor on the engine performs the rest of the queue. -/
theorem Ready.queue (hq : Queued memories inp q e m a)
    (hover : HandedOver memories inp e (mgr memories inp (e + 1)))
    (hsupplied : Supplied memories inp (descriptor (mgr memories inp (e + 1))).capWrite
      (descriptor (mgr memories inp (e + 1))).capRead)
    (hwindow : (descriptor (mgr memories inp (e + 1))).capRead = true → WindowKept memories inp e)
    (hterm : ∀ k, InQueue a m k → (queueConfig (mgr memories inp (e + 1)) k).Terminates P)
    {n i : Nat} (hi : i + (n + 1) = m) (hs : e + 1 < t)
    (h : Ready memories inp (InQueue a m) (mgr memories inp (e + 1)) e t
      (a + BitVec.ofNat 10 i)) :
    ∃ u, t < u ∧
      Rq.Performs (rqRun memories inp) (queueConfigs (mgr memories inp (e + 1)) a i (n + 1)) t u ∧
      AtRest memories inp u ∧
      (mgr memories inp u).progress.activeIndexDescriptor = a + BitVec.ofNat 10 m := by
  have hsucc : ∀ j, a + BitVec.ofNat 10 j + 1 = a + BitVec.ofNat 10 (j + 1) := by
    intro j
    rw [BitVec.ofNat_add, BitVec.add_assoc]
    rfl
  -- the induction is on the number of descriptors left
  induction n generalizing i t with
  | zero =>
      have hslot : InQueue a m (a + BitVec.ofNat 10 i) := ⟨i, by omega, rfl⟩
      obtain ⟨l, stop, hlt, hruns, hend, hl, hended, hperf⟩ :=
        h.operation hq hslot hs hsupplied hwindow (hterm _ hslot)
      obtain ⟨hrest, hactive, hidle⟩ :=
        hruns.finish hq hend ((hruns.isLast hq (by omega)).mpr (by omega))
      refine ⟨l + 2, by omega, hperf [] _ (.done (by omega) ?_), hrest, ?_⟩
      · intro v hv hvl
        rcases Nat.eq_or_lt_of_le hv with rfl | hlt'
        · exact hended
        · exact hidle v (by omega) hvl
      · rw [hactive, hsucc, hi]
  | succ n ih =>
      have hslot : InQueue a m (a + BitVec.ofNat 10 i) := ⟨i, by omega, rfl⟩
      have hnext : InQueue a m (a + BitVec.ofNat 10 i + 1) := ⟨i + 1, by omega, hsucc i⟩
      obtain ⟨l, stop, hlt, hruns, hend, hl, hended, hperf⟩ :=
        h.operation hq hslot hs hsupplied hwindow (hterm _ hslot)
      have hlast : a + BitVec.ofNat 10 i ≠ (mgr memories inp l).regs.lastIndexDescriptor := by
        intro heq
        have := (hruns.isLast hq (by omega)).mp heq
        omega
      have hstall := hover l hruns.lt hruns.enabled hend
      rw [hruns.position.active] at hstall
      obtain ⟨s, hls, hready, hidle⟩ :=
        hruns.handover hq hslot hnext hend hlast (hstall hlast)
      rw [hsucc] at hready
      obtain ⟨u, hsu, hrest, hat, hactive⟩ := ih (by omega) (by omega) hready
      refine ⟨u, by omega, hperf _ u (hrest.before (by omega) ?_), hat, hactive⟩
      intro v hv hvs
      rcases Nat.eq_or_lt_of_le hv with rfl | hlt'
      · exact hended
      · exact hidle v (by omega) (by omega)

/-- The engine performs exactly the operations of the queue, comes to rest behind it and stays there
until it is enabled again. -/
def PerformsQueue (memories : Manager.Memories) (inp : Nat → Input P) (e m : Nat) (a : Index) :
    Prop :=
  ∃ stop, e < stop ∧
    Rq.Performs (rqRun memories inp) (queueConfigs (mgr memories inp (e + 1)) a 0 m) e stop ∧
    (mgr memories inp stop).regs.enable = false ∧
    (mgr memories inp stop).progress.activeIndexDescriptor = a + BitVec.ofNat 10 m ∧
    ∀ u, stop ≤ u → (∀ v, stop ≤ v → v < u → enables (inp v).host = false) →
      (Rq.st (rqRun memories inp) u).wrState = .idle ∧
      collect (Rq.emits (rqRun memories inp)) stop (u - stop) ++ Rq.waits (rqRun memories inp) u =
        Rq.waits (rqRun memories inp) stop ∧
      (mgr memories inp u).regs.enable = false ∧
      (mgr memories inp u).progress.activeIndexDescriptor = a + BitVec.ofNat 10 m

/-- The queue is performed when every hand-over leaves the descriptor registers enough time. -/
theorem queue_performed (hq : Queued memories inp q e m a)
    (hover : HandedOver memories inp e (mgr memories inp (e + 1)))
    (hsupplied : Supplied memories inp (descriptor (mgr memories inp (e + 1))).capWrite
      (descriptor (mgr memories inp (e + 1))).capRead)
    (hwindow : (descriptor (mgr memories inp (e + 1))).capRead = true → WindowKept memories inp e)
    (hterm : ∀ k, InQueue a m k → (queueConfig (mgr memories inp (e + 1)) k).Terminates P) :
    PerformsQueue memories inp e m a := by
  obtain ⟨hready, hidle1⟩ := hq.ready
  obtain ⟨n, rfl⟩ : ∃ n, m = n + 1 := ⟨m - 1, by have := hq.pos; omega⟩
  have hfirst : Ready memories inp (InQueue a (n + 1)) (mgr memories inp (e + 1)) e (e + 2)
      (a + BitVec.ofNat 10 0) := by
    simpa using hready
  obtain ⟨stop, hlt, hperf, hrest, hactive⟩ :=
    hfirst.queue hq hover hsupplied hwindow hterm (Nat.zero_add _) (by omega)
  obtain ⟨hwait, -, -⟩ := hq.waiting (by have := hq.lt; omega) (Nat.le_refl e)
  refine ⟨stop, by omega, ?_, hrest.enable, hactive, ?_⟩
  · refine hperf.before (by omega) ?_
    intro v hv hve
    obtain rfl | rfl : v = e ∨ v = e + 1 := by omega
    · exact hwait.idle
    · exact hidle1
  · intro u hu hno
    obtain ⟨hat, hsame⟩ := hrest.stays hu hno
    exact ⟨hat.idle, hrest.emits hu hno, hat.enable, hsame.trans hactive⟩

end Queue

/-! ## Two descriptors -/

/-- Two descriptors of 64 bytes each. -/
def twoDescriptors : Manager.Memories :=
  { emptyMemories with
    address := { emptyBram with mem := fun k => if k = 0 then 0x10000 else 0x20000 }
    size := { emptyBram with mem := fun _ => 64 } }

/-- A host that enables the engine for memory writes on both descriptors; the core may stall the third
cycle after the first operation. -/
def queueRun (stall : Bool) (t : Nat) : Input pcieController :=
  { quiet with
    host :=
      if t = 0 then hostWrite 0x201 1
      else if t = 1 then hostWrite 0x207 1
      else if t = 3 then hostWrite 0x200 5
      else noAccess
    axisRqTready := !(stall && decide (t = 12))
    c2sTvalid := true }

theorem queueRun_host {stall : Bool} {t : Nat} (ht : 2 ≤ t) (hne : t ≠ 3) :
    (queueRun stall t).host = noAccess := by
  simp only [queueRun, if_neg (show ¬ t = 0 by omega), if_neg (show ¬ t = 1 by omega), if_neg hne]

theorem noAccess_spares (slots : Index → Prop) : noAccess.Spares slots :=
  ⟨rfl, fun _ _ => rfl⟩

/-- Both descriptors are in place in cycle 2, and cycle 3 enables the engine. -/
theorem queueRun_queued (stall : Bool) : Queued twoDescriptors (queueRun stall) 2 3 2 0 where
  pos := by decide
  le := by decide
  rest := by cases stall <;> constructor <;> decide +kernel
  active := by cases stall <;> decide +kernel
  last := by cases stall <;> decide +kernel
  addressPort k _ := by
    have hen : (mgr twoDescriptors (queueRun stall) 2).addressPort.en = false := by
      cases stall <;> decide +kernel
    rw [PortA.writes, hen, Bool.false_and, Bool.false_and]
  sizePort k _ := by
    have hen : (mgr twoDescriptors (queueRun stall) 2).sizePort.en = false := by
      cases stall <;> decide +kernel
    rw [PortA.writes, hen, Bool.false_and, Bool.false_and]
  lt := by decide
  enabling := by cases stall <;> decide
  before := by
    intro t h2 h3
    rw [queueRun_host h2 (by omega)]
    exact noAccess_spares _
  during := by
    intro t h3 _
    rw [queueRun_host (by omega) (by omega)]
    exact noAccess_spares _

theorem queueRun_supplied (stall : Bool) :
    Supplied twoDescriptors (queueRun stall)
      (descriptor (mgr twoDescriptors (queueRun stall) 4)).capWrite
      (descriptor (mgr twoDescriptors (queueRun stall) 4)).capRead where
  tready t := by
    refine ⟨t + 13, by omega, ?_⟩
    have hne : ¬ t + 13 = 12 := by omega
    simp only [queueRun, decide_eq_false hne, Bool.and_false, Bool.not_false]
  c2s _ t := ⟨t, Nat.le_refl t, rfl⟩
  completes hcap := by
    have hno : (descriptor (mgr twoDescriptors (queueRun stall) 4)).capRead = false := by
      cases stall <;> decide +kernel
    rw [hno] at hcap
    cases hcap

theorem queueRun_terminates (stall : Bool) (k : Index) (hk : InQueue 0 2 k) :
    (queueConfig (mgr twoDescriptors (queueRun stall) 4) k).Terminates pcieController := by
  obtain ⟨i, hi, rfl⟩ := hk
  obtain rfl | rfl : i = 0 ∨ i = 1 := by omega
  · exact .inr ⟨by cases stall <;> decide +kernel, 1, by cases stall <;> decide +kernel⟩
  · exact .inr ⟨by cases stall <;> decide +kernel, 1, by cases stall <;> decide +kernel⟩

/-- With the stall in cycle 12 both descriptors are performed. -/
theorem queue_performed_two : PerformsQueue twoDescriptors (queueRun true) 3 2 0 := by
  refine queue_performed (queueRun_queued true) ?_ (queueRun_supplied true) ?_
    (queueRun_terminates true)
  · intro t h3 hen hend hlast
    left
    have ht : t < 19 := by
      by_contra hge
      have h := hen 19 (by omega) (by omega)
      revert h
      decide +kernel
    have hnine : t = 9 := by
      interval_cases t <;> revert hend hlast <;> decide +kernel
    subst hnine
    rfl
  · intro hcap
    have hno : (descriptor (mgr twoDescriptors (queueRun true) 4)).capRead = false := by
      decide +kernel
    rw [hno] at hcap
    cases hcap

/-- Without the stall the second operation goes to the address of the first descriptor. -/
theorem queue_stale_descriptor :
    ∃ inp : Nat → Input pcieController, Queued twoDescriptors inp 2 3 2 0 ∧
      Supplied twoDescriptors inp (descriptor (mgr twoDescriptors inp 4)).capWrite
        (descriptor (mgr twoDescriptors inp 4)).capRead ∧
      (∀ k, InQueue 0 2 k →
        (queueConfig (mgr twoDescriptors inp 4) k).Terminates pcieController) ∧
      ¬ PerformsQueue twoDescriptors inp 3 2 0 := by
  refine ⟨queueRun false, queueRun_queued false, queueRun_supplied false,
    queueRun_terminates false, ?_⟩
  rintro ⟨stop, -, hperf, -⟩
  have hbusy : ∀ v, 5 < v → v < 9 ∨ 12 < v ∧ v < 16 →
      (Rq.st (rqRun twoDescriptors (queueRun false)) v).wrState ≠ .idle := by
    intro v hv hv'
    have hlt : v < 16 := by omega
    interval_cases v <;> first | omega | decide +kernel
  have hsecond := (hperf.first 5 9 (by decide) (by decide +kernel) (by decide)
    (fun v hv hv' => hbusy v hv (.inl hv')) (by decide +kernel)).2
  have hbuilt := (hsecond.first 12 16 (by decide) (by decide +kernel) (by decide)
    (fun v hv hv' => hbusy v (by omega) (.inr ⟨hv, hv'⟩)) (by decide +kernel)).1
  have hheaders : (Rq.writeHeaders (Rq.Operation.beats (rqRun twoDescriptors (queueRun false)) 12
      16)).map (fun x => x.beat.addr) = [0x10000] := by
    decide +kernel
  have haddr := hbuilt.first_addr hheaders
  revert haddr
  decide +kernel

end Engine
end PcieBench
