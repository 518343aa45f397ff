import PcieBench.Board.Session
import PcieBench.Dma.Progress

/-!
# The memory reads of a session

A call with memory reads returns when the program has polled its end.  All that the call has asked the host
for has been received by then, unless the completion side has taken the last beat of one answer for that of
another one (a clash).
-/

namespace PcieBench

namespace Board

open Clocked Tlp Manager
open Application (Item)
open Host (Call Numbered)

section Session

variable {p : Bar0.Instance} {F : Fifo Item} {inp : Nat → Input} {calls : Nat → Call} {q : Nat → Nat}
  {N n : Nat}

/-- A program that leaves the window alone works with the one of the instance. -/
theorem windowSize_eq (hreset : NoUserReset p F inp)
    (hwindow : ∀ t, ∀ x ∈ writesAt p F inp t, x.writesRegister 3 = false) (t : Nat) :
    (sys p F inp t).bar0.manager.regs.windowSize = BitVec.ofNat 64 p.params.windowSize ∧
      (sys p F inp t).bar0.manager.out.windowSize = BitVec.ofNat 64 p.params.windowSize := by
  induction t with
  | zero =>
      exact ⟨rfl, rfl⟩
  | succ t ih =>
      have hkeep : (engineRun p F inp t).host.writesRegister 3 = false := by
        cases t with
        | zero =>
            rw [host_engineRun]
            exact HostAccess.writesRegister_of_reads (Bar0.writing_zero p (barRun p F inp)) 3
        | succ t =>
            rcases host_cases p F inp t with hnil | hmem
            · exact HostAccess.writesRegister_of_reads hnil 3
            · exact hwindow t _ hmem
      rw [manager_succ hreset]
      refine ⟨?_, ih.1⟩
      rw [step_regs, nextRegisters, HostAccess.store, Engine.mgrInput_host, hkeep]
      exact ih.1

/-- When a poll behind the writes of call `n` finds the engine disabled, the card has performed the
operations of the calls so far and nothing else, and it has issued all of their memory reads.  Where the
completion side meets no clash, all dwords of each read have been received by then: there was a cycle in
which the ledger of the host had them, before the tag was used again. -/
theorem session_reads (h : Session p F inp calls q N) (ho : Numbered calls N) (hn : n < N)
    (hwindow : ∀ t, ∀ x ∈ writesAt p F inp t, x.writesRegister 3 = false) (a w : Nat)
    (hpoll : Polls p F inp a w) (haq : a < q (n + 1))
    (hquiet : ∀ v, a ≤ v → v < q (n + 1) → writesAt p F inp v = []) :
    Rq.Performs (rqRun p F inp) ((List.range (n + 1)).map fun k => (calls k).config) 0 (q (n + 1) + 1) ∧
      (Rq.readHeaders (collect (Rq.loads (rqRun p F inp)) 0 a)).length =
        ((List.range (n + 1)).map fun k => (calls k).config.readRequests).sum ∧
      (Dma.HostOk (dmaRun p F inp) → (∀ t j, ¬ Dma.Clash (dmaRun p F inp) t j) →
        ∀ v, v ≤ q (n + 1) → ∀ x ∈ Rq.loads (rqRun p F inp) v, x.origin = .initRead →
          ∃ j y, x.beat.tag.toNat = j.val ∧ v < y ∧ y < a ∧
            x.beat.dwords.toNat ≤ (Dma.ledger (dmaRun p F inp) y).received j ∧
            ∀ z, v < z → z ≤ y →
              Rq.loadsTag (Rq.st (rqRun p F inp) z) (rqRun p F inp z) j = false) := by
  have hwin : ∀ t, (dmaRun p F inp t).currentWindowSize = BitVec.ofNat 64 p.params.windowSize :=
    fun t => (windowSize_eq h.reset hwindow t).2
  have hstable := Dma.windowStable_of_fixed hwin
  rw [rqRun_dmaRun h.reset] at hstable
  have hperforms := h.engine.performs ho (show n + 1 ≤ N from hn)
  rw [rqRun_engineRun h.reset] at hperforms
  obtain ⟨hcount, hall⟩ := hperforms.reads_completed hstable
  rw [List.map_map] at hcount
  -- every read has been completed before an end, and every end comes before the poll
  have hbefore : ∀ v, v ≤ q (n + 1) → ∀ x ∈ Rq.loads (rqRun p F inp) v, x.origin = .initRead →
      ∃ j y, Rq.Completed (rqRun p F inp) v y x j ∧ y < a := by
    intro v hv x hx horigin
    obtain ⟨j, y, e, hdone, hye, heu, hend⟩ := hall v (Nat.zero_le v) (by omega) x hx horigin
    have hea := h.ended_before_poll ho hn hpoll hquiet (show e ≤ q (n + 1) + 1 by omega) hend
    exact ⟨j, y, hdone, by omega⟩
  refine ⟨hperforms, ?_, ?_⟩
  · -- so behind the poll there are no more reads
    have hrest : Rq.readHeaders (collect (Rq.loads (rqRun p F inp)) a (q (n + 1) + 1 - a)) = [] := by
      rw [Rq.readHeaders, List.filter_eq_nil_iff]
      intro x hx
      obtain ⟨k, hk, hx⟩ := (mem_collect _ _).mp hx
      rw [decide_eq_true_eq]
      intro horigin
      obtain ⟨j, y, hdone, hya⟩ := hbefore (a + k) (by omega) x hx horigin
      have hlt := hdone.lt
      omega
    rw [collect_split _ 0 (Nat.zero_le a) (show a ≤ q (n + 1) + 1 by omega), Rq.readHeaders_append, hrest,
      List.append_nil] at hcount
    exact hcount
  · intro hhost hclash v hv x hx horigin
    obtain ⟨j, y, hdone, hya⟩ := hbefore v hv x hx horigin
    refine ⟨j, y, hdone.tag, hdone.lt, hya, ?_, fun z hvz hzy => hdone.own hstable hvz hzy⟩
    rw [← rqRun_dmaRun h.reset] at hdone
    exact Dma.received_of_completed hhost hwin hclash hdone

end Session

/-! ## A read and a write -/

/-- A call that reads sixteen bytes once. -/
def singleRead : Call where
  dd := { Host.firstSlot.dd with isC2sOp := false, isS2cOp := true, length := 16 }
  ioAddress := 0x100000
  index_lt := by decide

/-- A call that reads, then one that writes. -/
def readThenWrite (n : Nat) : Call := if n = 0 then singleRead else Host.singleWrite n

/-- The writes of the calls in every other cycle, with a poll in cycle 40 and in cycle 76. -/
def readRequests (t : Nat) : CqBeat :=
  if 84 ≤ t then noRequest
  else if t = 40 ∨ t = 76 then requestBeat memRdReq 0 7 1 0x400 0x0f
  else if t % 2 = 1 then
    let n := t / 48
    ((((readThenWrite n).writes (BitVec.ofNat 32 n))[t % 48 / 2]?).map storeBeat).getD noRequest
  else noRequest

/-- The host answers the read in cycle 30. -/
def readRun (t : Nat) : Input where
  cq := readRequests t
  ccTready := true
  rqTready := true
  nphAv := 3
  npdAv := 3
  rc := Dma.completionTlp 0 4 (decide (t = 30)) (decide (t = 30))
  collisions := Engine.quiet.collisions

/-- Where the calls start, with the end of the second one. -/
def readStarts (n : Nat) : Nat := if n < 2 then 48 * n else 84

theorem readRequests_late {t : Nat} (ht : 84 ≤ t) :
    Completer.decodedReq 0 (readRequests t) = .noReq := by
  rw [readRequests, if_pos ht]
  decide

theorem readRun_noUserReset : NoUserReset Bar0.cleared queue readRun :=
  noUserReset_of_requests (fun _ => readRequests_late) (by decide +kernel)

/-- The run up to the answer of the second poll. -/
theorem readRun_run :
    (∀ n, n < 2 → collect (fun t =>
        if (sys Bar0.cleared queue readRun t).bar0.completer.state = .waitForReq ∧
            Completer.decodedReq 0 (readRun t).cq = .validWrReq then
          (Bar0.writeAccess (readRun t).cq).writing
        else []) (48 * n) (40 - 4 * n) = Host.accesses readThenWrite n ∧
      ShowsPoll Bar0.cleared queue readRun (40 + 36 * n) ∧
      ∀ k, k < 8 → Completer.decodedReq 0 (readRun (40 + 36 * n + k)).cq ≠ .validWrReq) ∧
      (∀ t, t < 84 → ∀ x ∈ (Bar0.writeAccess (readRun t).cq).writing, x.writesRegister 3 = false) ∧
      Dma.BeatOk (Dma.ledger (dmaRun Bar0.cleared queue readRun) 30) (readRun 30).rc ∧
      (sys Bar0.cleared queue readRun 29).rq.wrState ≠ .initRead := by
  decide +kernel

theorem readRun_polls {n : Nat} (hn : n < 2) :
    Polls Bar0.cleared queue readRun (40 + 36 * n) (46 + 36 * n) := by
  have hpoll := (readRun_run.1 n hn).2.1.polls
  rwa [show 40 + 36 * n + 6 = 46 + 36 * n by omega] at hpoll

/-- Around a poll nothing is written. -/
theorem readRun_quiet {n v : Nat} (hn : n < 2) (hv : 40 + 36 * n ≤ v) (hvn : v < 48 + 36 * n) :
    writesAt Bar0.cleared queue readRun v = [] := by
  obtain ⟨k, rfl⟩ : ∃ k, v = 40 + 36 * n + k := ⟨v - (40 + 36 * n), by omega⟩
  have hnone := (readRun_run.1 n hn).2.2 k (by omega)
  rw [writesAt_eq, if_neg (fun h => hnone h.2)]

/-- With the second poll the writes are over. -/
theorem readRun_late {v : Nat} (hv : 76 ≤ v) : writesAt Bar0.cleared queue readRun v = [] := by
  rcases Nat.lt_or_ge v 84 with hlt | hge
  · exact readRun_quiet (n := 1) (by decide) (by omega) (by omega)
  · have hlate : Completer.decodedReq 0 (readRun v).cq = .noReq := readRequests_late hge
    rw [writesAt_eq, if_neg (fun h => by rw [hlate] at h; cases h.2)]

theorem readRun_writes {n : Nat} (hn : n < 2) :
    collect (writesAt Bar0.cleared queue readRun) (48 * n) (40 - 4 * n) = Host.accesses readThenWrite n := by
  rw [← (readRun_run.1 n hn).1]
  exact congrArg (fun f => collect f (48 * n) (40 - 4 * n)) (funext (writesAt_eq _ _ _))

theorem readRun_session : Session Bar0.cleared queue readRun readThenWrite readStarts 2 where
  reset := readRun_noUserReset
  before v hv := absurd hv (Nat.not_lt_zero v)
  issues n hn := by
    have hstart : readStarts n = 48 * n := if_pos hn
    have hnext : readStarts (n + 1) = 48 + 36 * n := by
      obtain rfl | rfl : n = 0 ∨ n = 1 := by omega
      · rfl
      · rfl
    rw [hstart, hnext]
    refine ⟨?_, 40 + 36 * n, 46 + 36 * n, by omega, by omega, fun v hv hvn => readRun_quiet hn hv hvn,
      readRun_polls hn⟩
    obtain rfl | rfl : n = 0 ∨ n = 1 := by omega
    · -- the cycles of the poll have no writes
      have hrest : collect (writesAt Bar0.cleared queue readRun) 40 (48 - 40) = [] :=
        collect_eq_nil _ _ _ (fun k hk => readRun_quiet (n := 0) hn (by omega) (by omega))
      refine (collect_split _ 0 (show 0 ≤ 40 by omega) (show 40 ≤ 48 by omega)).trans ?_
      rw [hrest, List.append_nil]
      exact readRun_writes hn
    · exact readRun_writes hn

theorem readRun_window (t : Nat) :
    ∀ x ∈ writesAt Bar0.cleared queue readRun t, x.writesRegister 3 = false := by
  intro x hx
  rcases Nat.lt_or_ge t 84 with hlt | hge
  · rw [writesAt_eq] at hx
    split at hx
    · exact readRun_run.2.1 t hlt x hx
    · cases hx
  · rw [readRun_late (by omega)] at hx
    cases hx

theorem readRun_silent {t : Nat} (ht : t ≠ 30) : (dmaRun Bar0.cleared queue readRun t).rc.tvalid = false :=
  decide_eq_false ht

theorem readRun_hostOk : Dma.HostOk (dmaRun Bar0.cleared queue readRun) := by
  intro t
  by_cases ht : t = 30
  · rw [ht]
    exact readRun_run.2.2.1
  · intro hvalid
    rw [readRun_silent ht] at hvalid
    cases hvalid

theorem readRun_no_clash (t : Nat) (j : Fin Bar0.cleared.params.windowSize) :
    ¬ Dma.Clash (dmaRun Bar0.cleared queue readRun) t j := by
  rintro ⟨harmed, hvalid, -⟩
  have ht : t = 29 := by
    by_contra hne
    rw [readRun_silent (by omega)] at hvalid
    cases hvalid
  have hissues := harmed.issues
  have hstate : (sys Bar0.cleared queue readRun t).rq.wrState ≠ .initRead := by
    rw [ht]
    exact readRun_run.2.2.2
  rw [sys_dmaRun readRun_noUserReset] at hissues
  simp [Rq.issuesTag, hstate] at hissues

theorem readThenWrite_numbered : Numbered readThenWrite 2 where
  enable n _ := by
    rw [readThenWrite]
    split <;> rfl
  index n hn := by
    obtain rfl | rfl : n = 0 ∨ n = 1 := by omega
    · rfl
    · rfl

/-- The one read request of the two calls has been answered before the second poll. -/
theorem session_reads_two :
    Rq.Performs (rqRun Bar0.cleared queue readRun)
        [(readThenWrite 0).config, (readThenWrite 1).config] 0 85 ∧
      (Rq.readHeaders (collect (Rq.loads (rqRun Bar0.cleared queue readRun)) 0 76)).length = 1 ∧
      ∀ v, v ≤ 84 → ∀ x ∈ Rq.loads (rqRun Bar0.cleared queue readRun) v, x.origin = .initRead →
        ∃ j y, x.beat.tag.toNat = j.val ∧ v < y ∧ y < 76 ∧
          x.beat.dwords.toNat ≤ (Dma.ledger (dmaRun Bar0.cleared queue readRun) y).received j ∧
          ∀ z, v < z → z ≤ y → Rq.loadsTag (Rq.st (rqRun Bar0.cleared queue readRun) z)
            (rqRun Bar0.cleared queue readRun z) j = false := by
  obtain ⟨hperforms, hcount, hreceived⟩ :=
    session_reads readRun_session readThenWrite_numbered (show 1 < 2 by decide) readRun_window 76 82
      (readRun_polls (n := 1) (by decide)) (by decide) (fun v hv _ => readRun_late hv)
  exact ⟨hperforms, hcount, hreceived readRun_hostOk readRun_no_clash⟩

end Board
end PcieBench
