import PcieBench.Board.Logic
import PcieBench.Host.SessionLatency

/-!
# A session on the bus

What the driver does to the card are memory requests of the host.  This module follows them through the
completer: a write request is one access of the manager, a read is answered with what the interface shows
at its acknowledgement.  A session of the driver on the bus is thus one of the engine, and the
completions carry the statistics of the calls.
-/

namespace PcieBench

/-! ## Write requests -/

namespace Bar0

open Clocked Tlp
open Completer (selectData)
open Manager (HostAccess engineTableOffset)

/-- The access that a write request of one or two dwords stands for. -/
def writeAccess (b : CqBeat) : HostAccess where
  en := forwarded b
  addr := (b.addr.extractLsb' 1 24).setWidth 16
  din :=
    if b.dwordCnt = 1 then
      if b.addr.getLsbD 0 then b.data.extractLsb' 0 32 ++ 0#32 else 0#32 ++ b.data.extractLsb' 0 32
    else b.data
  we :=
    if b.dwordCnt = 1 then
      if b.addr.getLsbD 0 then b.firstBe ++ 0#4 else 0#4 ++ b.firstBe
    else b.lastBe ++ b.firstBe

/-- The write of the request taken in cycle `t`, if it is one and reaches the manager. -/
def writesTaken (p : Instance) (inp : Run) (t : Nat) : List HostAccess :=
  if taken p inp t = .validWrReq then (writeAccess (inp t).cq).writing else []

section Writes

variable {p : Instance} {inp : Run} {t a u : Nat}

/-- A write request is performed in the cycle after it is taken. -/
theorem access_of_write (h : taken p inp t = .validWrReq) :
    (st p inp (t + 1)).access = writeAccess (inp t).cq := by
  have hreq := req_of_taken h (by simp)
  have hstate := state_of_write h
  simp only [System.access, Completer.State.en, Completer.State.addr, Completer.State.din,
    Completer.State.we, hstate, hreq, Completer.Request.ofBeat, writeAccess, forwarded, wordAddr, if_true]
  rfl

/-- The manager sees the writes of the host one cycle after the completer has taken them. -/
theorem writing_succ (p : Instance) (inp : Run) (t : Nat) :
    (st p inp (t + 1)).access.writing = writesTaken p inp t := by
  rw [writesTaken]
  split
  · rename_i hwrite
    rw [access_of_write hwrite]
  · rename_i hno
    -- anything else that is enabled is a read
    have hnone : ((st p inp (t + 1)).access.en && (st p inp (t + 1)).access.we != 0) = false := by
      rw [access_en_succ, sent]
      cases hread : taken p inp t with
      | validRdReq =>
          have hwe : (st p inp (t + 1)).access.we = 0 := by
            rw [System.access, Completer.State.we, state_of_read hread, if_neg (by simp)]
          simp [hwe]
      | validWrReq =>
          exact absurd hread hno
      | noReq | unsupportedReq =>
          simp
    rw [HostAccess.writing, hnone]
    rfl

theorem writing_zero (p : Instance) (inp : Run) : (st p inp 0).access.writing = [] := rfl

/-! ## Reads of engine registers -/

/-- A read occupies the completer for more than three cycles. -/
theorem not_taken_after (h : taken p inp a = .validRdReq) {v : Nat} (hav : a < v) (hva : v ≤ a + 3) :
    (st p inp v).completer.state ≠ .waitForReq := by
  have hwait := waits_of_read h
  obtain rfl | rfl | rfl : v = a + 1 ∨ v = a + 2 ∨ v = a + 3 := by omega
  · simp [state_of_read h]
  · simp [hwait]
  · rw [state_succ, Completer.nextState, hwait]
    simp only
    split <;> simp

theorem access_en_after (h : taken p inp a = .validRdReq) {v : Nat} (hav : a + 1 < v)
    (hva : v ≤ a + 4) : (st p inp v).access.en = false := by
  obtain ⟨x, rfl⟩ : ∃ x, v = x + 1 := ⟨v - 1, by omega⟩
  rw [access_en_succ, sent, taken, if_neg (not_taken_after h (by omega) (by omega))]
  simp

/-- Its address stays on the interface, whenever the acknowledgement comes. -/
theorem access_word_after (h : taken p inp a = .validRdReq) {v : Nat} (hav : a + 1 ≤ v)
    (hva : v ≤ a + 4) : (st p inp v).access.word = wordAddr (inp a).cq := by
  have hreq : (st p inp v).completer.req = .ofBeat (inp a).cq := by
    refine interval_induction (p := fun v => (st p inp v).completer.req = .ofBeat (inp a).cq)
      (b := a + 4) (req_of_taken h (by simp)) ?_ v hav hva
    intro x hax hxa hkeep
    rw [completer_succ, Completer.step_req, Completer.nextReq,
      if_neg (by simp [not_taken_after h (show a < x by omega) (by omega)])]
    exact hkeep
  rw [HostAccess.word, System.access, Completer.State.addr, hreq]
  rfl

variable (hreset : NoUserReset p inp)

include hreset

/-- A read that reaches the manager has its own acknowledgement five cycles later. -/
theorem ack_of_read (h : taken p inp a = .validRdReq) (hforward : forwarded (inp a).cq = true) :
    (st p inp (a + 5)).ack = true := by
  have hsent : sent p inp a = true := by
    rw [sent, h, hforward]
    rfl
  rw [System.ack, managerAck_eq hreset a, hsent]
  split <;> simp_all

/-- The read of an engine register shows its word from the next cycle on, so it does not matter which
acknowledgement ends the wait. -/
theorem dout_of_register (h : taken p inp a = .validRdReq)
    (hword : wordAddr (inp a).cq = engineTableOffset) {v : Nat} (hav : a + 2 ≤ v) (hva : v ≤ a + 5) :
    (st p inp v).manager.dout = (st p inp (a + 5)).manager.dout := by
  have hsent : (st p inp (a + 1)).access.en = true := by
    rw [access_en_succ, sent, h, forwarded, hword]
    decide
  have hread : (st p inp (a + 2)).manager.read.isEngineRead = true := by
    have hat : ((st p inp (a + 1)).managerInput (inp (a + 1))).host.word = engineTableOffset :=
      (access_word_after h (Nat.le_refl _) (by omega)).trans hword
    have hen : ((st p inp (a + 1)).managerInput (inp (a + 1))).host.en = true := hsent
    rw [manager_succ hreset (a + 1), Manager.step_read, Manager.nextRead]
    simp only [hen, if_true, Manager.engineRead, hat, Option.isSome_some]
  -- without another access the two registers behind `DOUT` stay
  have hkeep : ∀ v, a + 2 ≤ v → v ≤ a + 5 →
      (st p inp v).manager.read.isEngineRead = true ∧
        (st p inp v).manager.dout = (st p inp (a + 2)).manager.dout := by
    refine interval_induction ⟨hread, rfl⟩ ?_
    rintro v hav hva ⟨hengine, hdout⟩
    have hen : ((st p inp v).managerInput (inp v)).host.en = false :=
      access_en_after h (by omega) (by omega)
    have hregs : (st p inp (v + 1)).manager.read.isEngineRead = true ∧
        (st p inp (v + 1)).manager.read.rdataEngine = (st p inp v).manager.read.rdataEngine := by
      rw [manager_succ hreset v, Manager.step_read, Manager.nextRead]
      simp [hen, hengine]
    refine ⟨hregs.1, ?_⟩
    rw [← hdout, Manager.State.dout, Manager.State.dout, hregs.1, hregs.2, hengine, if_pos rfl,
      if_pos rfl]
  exact (hkeep v hav hva).2.trans (hkeep (a + 5) (by omega) (Nat.le_refl _)).2.symm

/-- The completion of such a read, which its own acknowledgement ends at the latest. -/
theorem Offering.register {w : Nat} (h : Offering p inp a w)
    (hword : wordAddr (inp a).cq = engineTableOffset) :
    a + 2 < w ∧ (st p inp w).completer.ccBeat.data =
      selectData (.ofBeat (inp a).cq) (st p inp (a + 5)).manager.dout := by
  obtain ⟨u, hu, hack, huw, hsend⟩ := h
  have hle := hu.le
  have hctrl := hu.not_common hreset (show wordAddr (inp a).cq ≠ commonBlock by rw [hword]; decide)
  have hua : u ≤ a + 5 := by
    by_contra hlt
    have hown := ack_of_read hreset hu.read (by rw [forwarded, hword]; decide)
    rw [hu.not_ack (show a + 2 ≤ a + 5 by omega) (by omega)] at hown
    cases hown
  refine ⟨by omega, ?_⟩
  rw [hu.offered huw hsend, System.dout, if_neg (by simp [hctrl]),
    dout_of_register hreset hu.read hword hle hua]

omit hreset

/-- A read of the low dword, or of the whole word, carries bit 0. -/
theorem selectData_bit {r : Completer.Request} (hlow : r.dwordCnt = 1 → r.addr.getLsbD 0 = false)
    (x : BitVec 64) : (selectData r x).getLsbD 0 = x.getLsbD 0 := by
  rw [selectData]
  split
  · rename_i hone
    rw [hlow hone, if_neg (by simp), BitVec.getLsbD_append]
    simp
  · rfl

end Writes

end Bar0

namespace Board

open Clocked Tlp Manager
open Application (Item)
open Bar0 (StatField Offering WriteBehind writesTaken wordAddr)
open Completer (selectData)
open Engine (enables hostWrites measurement)
open Host (Call Numbered accesses)
open Rq (Params)

/-! ## The calls on the bus -/

section Bus

variable (p : Bar0.Instance) (F : Fifo Item) (inp : Nat → Input)

/-- The writes of the host that the completer takes in cycle `t`. -/
def writesAt (t : Nat) : List HostAccess := writesTaken p (barRun p F inp) t

/-- The read of the control word taken in cycle `a` is answered in cycle `w`, with a zero enable bit. -/
structure Polls (a w : Nat) : Prop where
  offers : Offering p (barRun p F inp) a w
  word : wordAddr (inp a).cq = engineTableOffset
  low : (inp a).cq.dwordCnt = 1 → (inp a).cq.addr.getLsbD 0 = false
  clear : (sys p F inp w).bar0.completer.ccBeat.data.getLsbD 0 = false

/-- From cycle `q` to cycle `u` the completer takes these writes, at any pace and with any reads in
between, and then a poll finds the engine disabled. -/
structure Issues (accesses : List HostAccess) (q u : Nat) : Prop where
  writes : collect (writesAt p F inp) q (u - q) = accesses
  polled : ∃ a w, q ≤ a ∧ w < u ∧ (∀ v, a ≤ v → v < u → writesAt p F inp v = []) ∧ Polls p F inp a w

/-- The calls `0, …, N - 1` of the program on fresh hardware, call `n` from cycle `q n` to cycle
`q (n + 1)`. -/
structure Session (calls : Nat → Call) (q : Nat → Nat) (N : Nat) : Prop where
  reset : NoUserReset p F inp
  before : ∀ v, v < q 0 → writesAt p F inp v = []
  issues : ∀ n, n < N → Issues p F inp (accesses calls n) (q n) (q (n + 1))

/-- From cycle `t` on, until the engine is enabled again, the completions of reads of slot `j` carry these
statistics, unless a write is right in front of the read. -/
def Answered (t : Nat) (j : Index) (value : StatField → BitVec 64) : Prop :=
  ∀ (f : StatField) (a w : Nat), t ≤ a → (∀ v, t ≤ v → v < a → ∀ x ∈ writesAt p F inp v, enables x = false) →
    wordAddr (inp a).cq = f.word j → Offering p (barRun p F inp) a w →
      ¬ WriteBehind p (barRun p F inp) a →
        (sys p F inp w).bar0.completer.ccBeat.data = selectData (.ofBeat (inp a).cq) (value f)

end Bus

/-! ## From the bus to the engine -/

section Bridge

variable {p : Bar0.Instance} {F : Fifo Item} {inp : Nat → Input} {calls : Nat → Call} {q : Nat → Nat}
  {N n a w t u : Nat}

theorem host_engineRun (p : Bar0.Instance) (F : Fifo Item) (inp : Nat → Input) (t : Nat) :
    (engineRun p F inp t).host = (Bar0.st p (barRun p F inp) t).access := by
  rw [st_barRun]
  rfl

/-- The manager sees a write one cycle after it is taken. -/
theorem hostWrites_succ (p : Bar0.Instance) (F : Fifo Item) (inp : Nat → Input) (t : Nat) :
    hostWrites (engineRun p F inp) (t + 1) = writesAt p F inp t := by
  rw [hostWrites, host_engineRun, Bar0.writing_succ]
  rfl

/-- What the manager sees is a read or nothing, unless it is a write that the completer has taken. -/
theorem host_cases (p : Bar0.Instance) (F : Fifo Item) (inp : Nat → Input) (t : Nat) :
    (engineRun p F inp (t + 1)).host.writing = [] ∨
      (engineRun p F inp (t + 1)).host ∈ writesAt p F inp t := by
  have hwrites := hostWrites_succ p F inp t
  rw [hostWrites] at hwrites
  rw [← hwrites, HostAccess.writing]
  split
  · exact .inr (List.mem_singleton_self _)
  · exact .inl rfl

theorem enables_of_writes (h : ∀ x ∈ writesAt p F inp t, enables x = false) :
    enables (engineRun p F inp (t + 1)).host = false := by
  rcases host_cases p F inp t with hnil | hmem
  · exact Engine.enables_of_reads hnil
  · exact h _ hmem

theorem apart (p : Bar0.Instance) (F : Fifo Item) (inp : Nat → Input) :
    Host.Apart (engineRun p F inp) := by
  intro t hen
  rw [host_engineRun] at hen ⊢
  exact Bar0.access_apart p (barRun p F inp) t hen

/-- A read that has an answer is on the interface of the manager for four cycles. -/
theorem host_of_offers (h : Offering p (barRun p F inp) a w)
    (hforward : Bar0.forwarded (inp a).cq = true) :
    (engineRun p F inp (a + 1)).host.en = true ∧
      ∀ v, a + 1 ≤ v → v ≤ a + 4 → (engineRun p F inp v).host.word = wordAddr (inp a).cq := by
  obtain ⟨x, hx, -⟩ := h
  refine ⟨?_, ?_⟩
  · rw [host_engineRun, Bar0.access_en_succ, Bar0.sent, hx.read]
    exact hforward
  · intro v hav hva
    rw [host_engineRun]
    exact Bar0.access_word_after hx.read hav hva

theorem Polls.polled (hreset : NoUserReset p F inp) (h : Polls p F inp a w) :
    Host.Polled p.memories (engineRun p F inp) (a + 1) := by
  have hforward : Bar0.forwarded (inp a).cq = true := by
    rw [Bar0.forwarded, h.word]
    decide
  obtain ⟨hen, hword⟩ := host_of_offers h.offers hforward
  refine ⟨hen, fun v hav hva => (hword v hav (by omega)).trans h.word, ?_⟩
  obtain ⟨-, hdata⟩ := h.offers.register hreset h.word
  have hclear := h.clear
  rw [st_barRun, st_barRun] at hdata
  rw [hdata, Bar0.selectData_bit h.low] at hclear
  rwa [mgr_engineRun hreset]

theorem Issues.engine (hreset : NoUserReset p F inp) {accesses : List HostAccess} {q u : Nat}
    (h : Issues p F inp accesses q u) :
    Host.Issues p.memories (engineRun p F inp) accesses (q + 1) (u + 1) := by
  obtain ⟨a, w, hqa, hwu, hquiet, hpoll⟩ := h.polled
  obtain ⟨hlt, -⟩ := hpoll.offers.register hreset hpoll.word
  refine ⟨?_, a + 1, by omega, by omega, ?_, hpoll.polled hreset⟩
  · rw [Nat.add_sub_add_right, collect_delayed (writesAt p F inp) q (hostWrites_succ p F inp), h.writes]
  · intro v hav hvu
    obtain ⟨x, rfl⟩ : ∃ x, v = x + 1 := ⟨v - 1, by omega⟩
    exact (hostWrites_succ p F inp x).trans (hquiet x (by omega) (by omega))

/-- A session on the bus is one of the engine, one cycle later. -/
theorem Session.engine (h : Session p F inp calls q N) :
    Host.Session p.memories (engineRun p F inp) calls (fun n => q n + 1) N where
  apart := apart p F inp
  before v hv := by
    cases v with
    | zero =>
        rw [host_engineRun]
        exact Engine.enables_of_reads (Bar0.writing_zero p (barRun p F inp))
    | succ v =>
        refine enables_of_writes ?_
        simp [h.before v (by omega)]
  issues n hn := (h.issues n hn).engine h.reset

/-- In the cycle of the access of a poll that finds it so the engine is disabled. -/
theorem Polls.disabled (hreset : NoUserReset p F inp) (h : Polls p F inp a w) :
    (Engine.mgr p.memories (engineRun p F inp) (a + 1)).regs.enable = false := by
  refine (h.polled hreset).disabled_at ?_
  intro v hav hva
  obtain ⟨x, hx, -⟩ := h.offers
  rw [host_engineRun]
  exact Bar0.access_en_after hx.read hav (by omega)

/-- The operations of the calls so far have ended before a poll behind the writes finds the engine
disabled. -/
theorem Session.ended_before_poll (h : Session p F inp calls q N) (ho : Numbered calls N) (hn : n < N)
    (hpoll : Polls p F inp a w)
    (hquiet : ∀ v, a ≤ v → v < q (n + 1) → writesAt p F inp v = []) {l : Nat} (hl : l ≤ q (n + 1) + 1)
    (hend : (Rq.st (rqRun p F inp) l).endOfOperation = true) : l < a := by
  have hs := h.engine
  obtain ⟨e, l', hqe, hends⟩ := hs.call ho hn (hs.waits ho (by omega))
  have hlt := hends.lt
  have hle := hends.le
  -- the enable is one of the writes
  have hea : e ≤ a := by
    by_contra hlate
    obtain ⟨v, rfl⟩ : ∃ v, e = v + 1 := ⟨e - 1, by omega⟩
    have hnone := (hostWrites_succ p F inp v).trans (hquiet v (by omega) (by omega))
    have hno := HostAccess.writesRegister_of_reads hnone 0
    have hwrites := hends.enabling.1
    rw [HostAccess.writesControl, hno] at hwrites
    cases hwrites
  have hlast := hends.lt_of_disabled (show e < a + 1 by omega) (hpoll.disabled h.reset)
  rw [← rqRun_engineRun h.reset] at hend
  rcases Nat.lt_or_ge (q n) l with hcall | hbefore
  · have := hends.only l (by omega) hl hend
    omega
  · omega

/-- What the engine shows is what the completions carry. -/
theorem answered_of_shows (hreset : NoUserReset p F inp) {t : Nat} {j : Index}
    {value : StatField → BitVec 64}
    (h : Host.Shows p.memories (engineRun p F inp) (t + 1) j value) : Answered p F inp t j value := by
  intro f a w hta hno hword hoffers hspaced
  have hother : wordAddr (inp a).cq ≠ Bar0.commonBlock := by
    rw [hword]
    exact (f.word_ne j).1
  have hforward : Bar0.forwarded (inp a).cq = true := by
    have hrange := f.word_toNat j
    rw [Bar0.forwarded, hword, decide_eq_true_eq, BitVec.le_def, hrange.1]
    have : engineTableOffset.toNat = 0x200 := rfl
    omega
  obtain ⟨hen, hhost⟩ := host_of_offers hoffers hforward
  obtain ⟨x, hx, hack, hxw, hsend⟩ := hoffers
  obtain ⟨rfl, hctrl, -⟩ := hx.own hreset hother hspaced hack
  -- the read itself and the wait for its answer enable nothing
  have hquiet : ∀ v, t + 1 ≤ v → v < a + 1 + 4 → enables (engineRun p F inp v).host = false := by
    intro v htv hva
    obtain ⟨y, rfl⟩ : ∃ y, v = y + 1 := ⟨v - 1, by omega⟩
    refine enables_of_writes ?_
    rcases Nat.lt_or_ge y a with hlt | hge
    · exact hno y (by omega) hlt
    · have hnone : Bar0.taken p (barRun p F inp) y ≠ .validWrReq := by
        rcases Nat.eq_or_lt_of_le hge with rfl | hgt
        · simp [hx.read]
        · rw [Bar0.taken, if_neg (Bar0.not_taken_after hx.read hgt (by omega))]
          simp
      rw [writesAt, writesTaken, if_neg hnone]
      simp
  obtain ⟨-, hdout⟩ := h f (a + 1) (by omega) hquiet hen
    (fun v hav hva => (hhost v hav (by omega)).trans hword)
  have hdata := hx.offered hxw hsend
  rw [Bar0.System.dout, if_neg (by simp [hctrl]), st_barRun, st_barRun, ← mgr_engineRun hreset] at hdata
  rw [hdata]
  exact congrArg _ hdout

/-! ## The session -/

/-- The card performs the operations of the calls and nothing else, and the completions of the reads of
the program carry the statistics of each call, its latency among them. -/
theorem session_answered (h : Session p F inp calls q N) (ho : Numbered calls N) (hn : n ≤ N) :
    Rq.Performs (rqRun p F inp) ((List.range n).map fun k => (calls k).config) 0 (q n + 1) ∧
      ∀ k, k < n → n ≤ k + 1024 → ∃ start g l, q k < start ∧ l ≤ q (k + 1) ∧
        Rq.Spans (rqRun p F inp) start g l ∧
        measurement p.memories (engineRun p F inp) .latency (l + 1) = BitVec.ofNat 64 (l - g) ∧
        Answered p F inp (q n) (BitVec.ofNat 10 (k + 1))
          (fun f => measurement p.memories (engineRun p F inp) f (l + 1)) := by
  have hs := h.engine
  have hrun := rqRun_engineRun h.reset
  have hperforms := hs.performs ho hn
  rw [hrun] at hperforms
  refine ⟨hperforms, ?_⟩
  intro k hkn hnk
  obtain ⟨e, l, hqe, hends⟩ := hs.call ho (show k < N by omega) (hs.waits ho (by omega))
  obtain ⟨start, g, hstart, hspans⟩ := hends.spans
  have hle := hends.le
  have hlatency := hends.latency hstart hspans
  rw [hrun] at hspans
  refine ⟨start, g, l, by omega, by omega, hspans, hlatency, ?_⟩
  exact answered_of_shows h.reset (hs.shows_call ho hkn hnk hn hends)

end Bridge

/-! ## The requests of the driver -/

section Stores

/-- The memory write request for a store of the driver: one dword if the upper half of the word is not
written. -/
def storeBeat (h : HostAccess) : CqBeat where
  tdata := 0#64 ++ h.din ++ 0#49 ++ memWrReq ++ (if h.we.extractLsb' 4 4 = 0 then 1#11 else 2#11) ++
    h.addr.setWidth 61 ++ 0#3
  tuser := 0#44 ++ 1#1 ++ 0#32 ++ h.we
  tvalid := true

theorem storeBeat_fields (h : HostAccess) : (storeBeat h).starts = true ∧
    (storeBeat h).reqType = memWrReq ∧ (storeBeat h).barId = 0 ∧
    (storeBeat h).dwordCnt = (if h.we.extractLsb' 4 4 = 0 then 1#11 else 2#11) ∧
    (storeBeat h).addr = h.addr.setWidth 61 ++ 0#1 ∧ (storeBeat h).data = h.din ∧
    (storeBeat h).firstBe = h.we.extractLsb' 0 4 ∧ (storeBeat h).lastBe = h.we.extractLsb' 4 4 := by
  generalize hcnt : (if h.we.extractLsb' 4 4 = 0 then 1#11 else 2#11) = cnt
  refine ⟨?_, ?_, ?_, ?_, ?_, ?_, ?_, ?_⟩
  · simp only [CqBeat.starts, CqBeat.sop, CqBeat.discontinue, storeBeat, BitVec.getLsbD_append]
    rfl
  all_goals
    apply BitVec.eq_of_getLsbD_eq
    intro k hk
    simp only [CqBeat.reqType, CqBeat.barId, CqBeat.dwordCnt, CqBeat.addr, CqBeat.data, CqBeat.firstBe,
      CqBeat.lastBe, storeBeat, hcnt, BitVec.getLsbD_extractLsb', BitVec.getLsbD_append, hk]
    grind

/-- Such a request is taken as a write. -/
theorem decodedReq_storeBeat (h : HostAccess) :
    Completer.decodedReq 0 (storeBeat h) = .validWrReq := by
  obtain ⟨hstarts, htype, hbar, hcnt, -⟩ := storeBeat_fields h
  have hvalid : Completer.validDwordCnt (storeBeat h) = true := by
    rw [Completer.validDwordCnt, hcnt]
    split <;> rfl
  simp [Completer.decodedReq, hstarts, htype, hbar, hvalid, memWrReq, memRdReq]

/-- What it stands for is the store. -/
theorem writeAccess_storeBeat {h : HostAccess} (hen : h.en = true) (haddr : 0x200 ≤ h.addr.toNat)
    (hlow : h.we.extractLsb' 4 4 = 0 → h.din.extractLsb' 32 32 = 0) :
    Bar0.writeAccess (storeBeat h) = h := by
  obtain ⟨-, -, -, hcnt, haddr', hdata, hfirst, hlast⟩ := storeBeat_fields h
  have hword : (storeBeat h).addr.extractLsb' 1 24 = h.addr.setWidth 24 := by
    rw [haddr']
    apply BitVec.eq_of_getLsbD_eq
    intro k hk
    simp only [BitVec.getLsbD_extractLsb', BitVec.getLsbD_append, BitVec.getLsbD_setWidth, hk]
    grind
  have htrunc : (h.addr.setWidth 24).setWidth 16 = h.addr := by
    rw [BitVec.setWidth_setWidth_of_le _ (by decide), BitVec.setWidth_eq]
  have hforward : Bar0.forwarded (storeBeat h) = true := by
    have hoffset : engineTableOffset.toNat = 0x200 := rfl
    rw [Bar0.forwarded, wordAddr, hword, htrunc, decide_eq_true_eq, BitVec.le_def, hoffset,
      BitVec.toNat_setWidth]
    have hlt := h.addr.isLt
    omega
  have hbit : (storeBeat h).addr.getLsbD 0 = false := by
    rw [haddr', BitVec.getLsbD_append]
    rfl
  -- the two halves of the word, and of its byte enables
  have hwe : h.we.extractLsb' 4 4 ++ h.we.extractLsb' 0 4 = h.we :=
    @BitVec.extractLsb'_append_extractLsb' 4 4 h.we
  have hdin : h.din.extractLsb' 32 32 ++ h.din.extractLsb' 0 32 = h.din :=
    @BitVec.extractLsb'_append_extractLsb' 32 32 h.din
  have hself : h = { en := true, addr := h.addr, din := h.din, we := h.we } := by rw [← hen]
  rw [Bar0.writeAccess, hforward, hword, htrunc, hcnt, hbit, hdata, hfirst, hlast, hwe]
  conv_rhs => rw [hself]
  by_cases hzero : h.we.extractLsb' 4 4 = 0
  · rw [hzero] at hwe
    rw [hlow hzero] at hdin
    rw [if_pos hzero]
    exact congrArg₂ (HostAccess.mk true h.addr) hdin hwe
  · rw [if_neg hzero]
    rfl

/-- Every store of an enabled call has a request that stands for it. -/
theorem writeAccess_of_mem {c : Call} {ldescriptor : BitVec 32} {x : HostAccess}
    (hx : x ∈ c.writes ldescriptor) :
    Completer.decodedReq 0 (storeBeat x) = .validWrReq ∧ Bar0.writeAccess (storeBeat x) = x := by
  refine ⟨decodedReq_storeBeat x, ?_⟩
  have hslot := c.slot.isLt
  have hstore : ∀ {word : Nat} (we : BitVec 8) (din : BitVec 64), word < 2 ^ 15 →
      (we.extractLsb' 4 4 = 0 → din.extractLsb' 32 32 = 0) →
        Bar0.writeAccess (storeBeat (Host.engineWrite word we din)) = Host.engineWrite word we din := by
    intro word we din hw hlow
    refine writeAccess_storeBeat rfl ?_ hlow
    rw [Host.engineWrite_addr hw]
    omega
  -- whole words have no empty half, and the other stores carry 32 bits
  have hwhole : ∀ {word : Nat} (din : BitVec 64), word < 2 ^ 15 →
      Bar0.writeAccess (storeBeat (Host.engineWrite word 0xff din)) = Host.engineWrite word 0xff din :=
    fun din hw => hstore 0xff din hw (fun hzero => absurd hzero (by decide))
  have hshort : ∀ x : BitVec 32, (x.setWidth 64 : BitVec 64).extractLsb' 32 32 = 0 :=
    fun x => Application.extractLsb'_high x 64 32 (Nat.le_refl 32)
  simp only [Call.writes, Host.descriptorAccesses, List.cons_append, List.nil_append, List.mem_cons,
    List.not_mem_nil, or_false] at hx
  rcases hx with rfl | rfl | rfl | rfl | rfl | rfl | rfl | rfl | rfl
  · exact hwhole _ (by decide)
  · exact hwhole _ (by decide)
  · exact hwhole _ (by decide)
  · exact hwhole _ (by decide)
  · exact hwhole _ (by omega)
  · exact hwhole _ (by omega)
  · exact hstore _ _ (by decide) (fun _ => hshort _)
  · exact hstore _ _ (by decide) (fun _ => hshort _)
  · exact hstore _ _ (by decide) (fun _ => hshort _)

end Stores

/-! ## Two iterations -/

section TwoIterations

/-- A host that sends a request every other cycle, polls after 28 cycles and calls again after 36. -/
def hostRequests (t : Nat) : CqBeat :=
  if 72 ≤ t then noRequest
  else if t % 36 = 28 then requestBeat memRdReq 0 7 1 0x400 0x0f
  else if t % 2 = 1 then
    ((((Host.singleWrite (t / 36)).writes (BitVec.ofNat 32 (t / 36 % 1024)))[t % 36 / 2]?).map
      storeBeat).getD noRequest
  else noRequest

/-- The core takes everything and has credits enough. -/
def boardRun (t : Nat) : Input where
  cq := hostRequests t
  ccTready := true
  rqTready := true
  nphAv := 3
  npdAv := 3
  rc := { tvalid := false, tlast := false, tkeep := 0, tdata := 0 }
  collisions := Engine.quiet.collisions

/-- The FIFO between `app` and the requester side. -/
def queue : Fifo Item := .queue 16 ⟨0, 0⟩

theorem writesAt_eq (p : Bar0.Instance) (F : Fifo Item) (inp : Nat → Input) (t : Nat) :
    writesAt p F inp t =
      if (sys p F inp t).bar0.completer.state = .waitForReq ∧
          Completer.decodedReq 0 (inp t).cq = .validWrReq then
        (Bar0.writeAccess (inp t).cq).writing
      else [] := by
  rw [writesAt, writesTaken, Bar0.taken, st_barRun]
  have hcq : (barRun p F inp t).cq = (inp t).cq := rfl
  rw [hcq]
  by_cases hs : (sys p F inp t).bar0.completer.state = .waitForReq <;> simp [hs]

/-- What a run shows around a poll in cycle `a`, with the completion six cycles later. -/
def ShowsPoll (p : Bar0.Instance) (F : Fifo Item) (inp : Nat → Input) (a : Nat) : Prop :=
  ((sys p F inp a).bar0.completer.state = .waitForReq ∧
    Completer.decodedReq 0 (inp a).cq = .validRdReq ∧ wordAddr (inp a).cq = engineTableOffset ∧
    (inp a).cq.addr.getLsbD 0 = false) ∧
  (∀ k, k < 4 → (sys p F inp (a + 2 + k)).bar0.completer.state = .waitForRdCpl) ∧
  (sys p F inp (a + 5)).bar0.ack = true ∧
  (sys p F inp (a + 6)).bar0.completer.state = .sendRdCpl ∧
  (sys p F inp (a + 6)).bar0.completer.ccBeat.data.getLsbD 0 = false

instance (p : Bar0.Instance) (F : Fifo Item) (inp : Nat → Input) (a : Nat) :
    Decidable (ShowsPoll p F inp a) :=
  inferInstanceAs (Decidable (_ ∧ _))

theorem ShowsPoll.polls {p : Bar0.Instance} {F : Fifo Item} {inp : Nat → Input} {a : Nat}
    (h : ShowsPoll p F inp a) : Polls p F inp a (a + 6) := by
  obtain ⟨⟨hidle, hread, hword, hlow⟩, hwait, hack, hsend, hclear⟩ := h
  refine ⟨⟨a + 5, ⟨by omega, ?_, ?_⟩, ?_, by omega, ?_⟩, hword, fun _ => hlow, hclear⟩
  · rw [Bar0.taken, st_barRun, if_pos hidle]
    exact hread
  · intro v hv hvu
    obtain ⟨k, rfl⟩ : ∃ k, v = a + 2 + k := ⟨v - (a + 2), by omega⟩
    rw [st_barRun]
    exact hwait k (by omega)
  · rw [st_barRun]
    exact hack
  · intro v hv hvw
    obtain rfl : v = a + 6 := by omega
    rw [st_barRun]
    exact hsend

/-- A host that stops and has not written the common block has not asked for a user reset. -/
theorem noUserReset_of_requests {p : Bar0.Instance} {F : Fifo Item} {inp : Nat → Input} {n : Nat}
    (hlate : ∀ t, n ≤ t → Completer.decodedReq 0 (inp t).cq = .noReq)
    (hearly : ∀ t, t < n → Completer.decodedReq 0 (inp t).cq = .validWrReq →
      wordAddr (inp t).cq ≠ Bar0.commonBlock) : NoUserReset p F inp := by
  refine Bar0.noUserReset_of_writes ?_
  intro t hwrite
  have hcq : (barRun p F inp t).cq = (inp t).cq := rfl
  rw [hcq] at hwrite ⊢
  rcases Nat.lt_or_ge t n with hlt | hge
  · exact hearly t hlt hwrite
  · rw [hlate t hge] at hwrite
    cases hwrite

theorem hostRequests_late {t : Nat} (ht : 72 ≤ t) :
    Completer.decodedReq 0 (hostRequests t) = .noReq := by
  rw [hostRequests, if_pos ht]
  decide

theorem boardRun_noUserReset : NoUserReset Bar0.cleared queue boardRun :=
  noUserReset_of_requests (fun _ => hostRequests_late) (by decide +kernel)

theorem boardRun_session :
    Session Bar0.cleared queue boardRun Host.singleWrite (fun n => 36 * n) 2 where
  reset := boardRun_noUserReset
  before v hv := absurd hv (Nat.not_lt_zero v)
  issues n hn := by
    have hwrites : ∀ n, n < 2 → collect (fun t =>
        if (sys Bar0.cleared queue boardRun t).bar0.completer.state = .waitForReq ∧
            Completer.decodedReq 0 (boardRun t).cq = .validWrReq then
          (Bar0.writeAccess (boardRun t).cq).writing
        else []) (36 * n) 36 = accesses Host.singleWrite n := by
      decide +kernel
    have hpoll : ∀ n, n < 2 → ShowsPoll Bar0.cleared queue boardRun (36 * n + 28) := by
      decide +kernel
    refine ⟨?_, 36 * n + 28, 36 * n + 28 + 6, by omega, by omega, ?_, (hpoll n hn).polls⟩
    · rw [show 36 * (n + 1) - 36 * n = 36 by omega, ← hwrites n hn]
      exact congrArg (fun f => collect f (36 * n) 36) (funext (writesAt_eq _ _ _))
    · intro v hv hvu
      have hquiet : ∀ n, n < 2 → ∀ k, k < 8 →
          Completer.decodedReq 0 (boardRun (36 * n + 28 + k)).cq ≠ .validWrReq := by
        decide +kernel
      obtain ⟨k, rfl⟩ : ∃ k, v = 36 * n + 28 + k := ⟨v - (36 * n + 28), by omega⟩
      rw [writesAt_eq, if_neg (fun h => hquiet n hn k (by omega) h.2)]

/-- Both iterations have their operation, and after the second one the reads of slot 1 are still answered
with the statistics of the first. -/
theorem session_answered_two :
    Rq.Performs (rqRun Bar0.cleared queue boardRun)
        [(Host.singleWrite 0).config, (Host.singleWrite 1).config] 0 73 ∧
      ∃ start g l, 0 < start ∧ l ≤ 36 ∧ Rq.Spans (rqRun Bar0.cleared queue boardRun) start g l ∧
        measurement Bar0.cleared.memories (engineRun Bar0.cleared queue boardRun) .latency (l + 1) =
          BitVec.ofNat 64 (l - g) ∧
        Answered Bar0.cleared queue boardRun 72 1
          (fun f => measurement Bar0.cleared.memories (engineRun Bar0.cleared queue boardRun) f
            (l + 1)) := by
  obtain ⟨hperforms, hcalls⟩ :=
    session_answered boardRun_session Host.singleWrite_numbered (Nat.le_refl 2)
  exact ⟨hperforms, hcalls 0 (by decide) (by decide)⟩

end TwoIterations

end Board

end PcieBench
