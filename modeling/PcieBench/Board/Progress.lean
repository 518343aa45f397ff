import PcieBench.Board.Reads
import PcieBench.Host.Progress

/-!
# Every call returns

A call returns with a poll that finds the enable bit clear.  That such a poll comes is not up to the driver,
which can only ask again: the PCIe core has to take the beats, the FIFO has to hand on the data of `app`, and
the host has to answer the memory reads.  Where they do, the calls of a program return one after the other.
-/

namespace PcieBench

/-! ## Answers of the completer -/

namespace Bar0

open Clocked

variable {p : Instance} {inp : Run} {a : Nat}

/-- A read that reaches the manager is answered within six cycles. -/
theorem exists_offering (hreset : NoUserReset p inp) (h : taken p inp a = .validRdReq)
    (hforward : forwarded (inp a).cq = true) : ∃ w, w ≤ a + 6 ∧ Offering p inp a w := by
  -- its own acknowledgement ends the wait, if no other one does before
  have hown := ack_of_read hreset h hforward
  obtain ⟨u, hau, hack, hwait, hfirst⟩ := lasts_until (p := fun u => Waiting p inp a u)
    (e := fun u => (st p inp u).ack = true) (fun u _ h hno => h.next (by simpa using hno))
    (Waiting.first h) ⟨a + 5, by omega, hown⟩
  have hua : u ≤ a + 5 := by
    by_contra hlate
    exact (hfirst (a + 5) (by omega) (by omega)).2 hown
  refine ⟨u + 1, by omega, u, hwait, hack, Nat.lt_succ_self u, ?_⟩
  intro v huv hvu
  obtain rfl : v = u + 1 := by omega
  rw [state_succ, Completer.nextState, hwait.state u hau (Nat.le_refl u)]
  exact if_pos hack

end Bar0

namespace Board

open Clocked Tlp Manager
open Application (Item)
open Host (Call Numbered accesses)
open Bar0 (wordAddr)

/-! ## A program that makes its calls -/

section Calls

variable (p : Bar0.Instance) (F : Fifo Item) (inp : Nat → Input)

/-- In cycle `a` the completer takes a read of the control word. -/
structure Asks (a : Nat) : Prop where
  read : Bar0.taken p (barRun p F inp) a = .validRdReq
  word : wordAddr (inp a).cq = engineTableOffset
  low : (inp a).cq.dwordCnt = 1 → (inp a).cq.addr.getLsbD 0 = false

/-- The writes of a call are taken in `n` cycles from cycle `q` on.  Then the driver asks for the enable bit,
and writes nothing, until it has found the bit clear; its time-out of ten seconds is left out. -/
structure Calling (accesses : List HostAccess) (q n : Nat) : Prop where
  writes : collect (writesAt p F inp) q n = accesses
  quiet : ∀ v, q + n ≤ v → (∀ a w, q + n ≤ a → w < v → ¬ Polls p F inp a w) →
    writesAt p F inp v = []
  asks : (∀ a w, q + n ≤ a → ¬ Polls p F inp a w) → ∀ t, ∃ a, t ≤ a ∧ Asks p F inp a

/-- Behind each session of fewer than `M` calls the program makes the next one. -/
def Drives (calls : Nat → Call) (M : Nat) : Prop :=
  ∀ N q, N < M → q 0 = 0 → Session p F inp calls q N → ∃ n, Calling p F inp (accesses calls N) (q N) n

/-- What the calls of a program have to be like. -/
structure Proper (calls : Nat → Call) (M : Nat) : Prop where
  numbered : Numbered calls M
  terminates : ∀ n, n < M → (calls n).config.Terminates p.params
  dwords : ∀ n, n < M → (calls n).config.sizeAtDescriptor.toNat % 4 = 0

/-- The host answers the memory reads as the protocol says, and the completion side meets no clash. -/
structure Served : Prop where
  hostOk : Dma.HostOk (dmaRun p F inp)
  answers : Dma.Answers (dmaRun p F inp)
  apart : ∀ t j, ¬ Dma.Clash (dmaRun p F inp) t j
  window : ∀ t, ∀ x ∈ writesAt p F inp t, x.writesRegister 3 = false

end Calls

section Progress

variable {p : Bar0.Instance} {F : Fifo Item} {inp : Nat → Input} {calls : Nat → Call} {q : Nat → Nat}
  {M N n a : Nat}

/-! ## The bit is found clear -/

/-- Once the enable bit has fallen for good, whoever asks finds it clear. -/
theorem Asks.polls (hreset : NoUserReset p F inp) (h : Asks p F inp a) {l : Nat}
    (hoff : ∀ v, l ≤ v → (sys p F inp v).bar0.manager.regs.enable = false) (hla : l ≤ a) :
    ∃ w, Polls p F inp a w := by
  have hforward : Bar0.forwarded (inp a).cq = true := by
    rw [Bar0.forwarded, h.word]
    decide
  obtain ⟨w, -, hoffer⟩ := Bar0.exists_offering hreset h.read hforward
  refine ⟨w, hoffer, h.word, h.low, ?_⟩
  -- the answer shows the bit of a cycle behind `a`
  obtain ⟨hen, hword⟩ := host_of_offers hoffer hforward
  obtain ⟨x, hax, -, hshown⟩ := @Host.exists_enable_shown _ p.memories _ _ hen
    (fun v hav hva => (hword v hav (by omega)).trans h.word)
  obtain ⟨-, hdata⟩ := hoffer.register hreset h.word
  rw [st_barRun, st_barRun] at hdata
  have hlow : (Completer.Request.ofBeat (inp a).cq).dwordCnt = 1 →
      (Completer.Request.ofBeat (inp a).cq).addr.getLsbD 0 = false := h.low
  rw [mgr_engineRun hreset, mgr_engineRun hreset, hoff x (by omega)] at hshown
  rw [hdata]
  exact (Bar0.selectData_bit hlow _).trans hshown

/-! ## The memory reads of a call that is under way -/

/-- All memory reads that are issued before the end of a call have dwords. -/
theorem Session.read_dwords (h : Session p F inp calls q N) (ho : Numbered calls N)
    (hsize : ∀ k, k ≤ N → (calls k).config.sizeAtDescriptor.toNat % 4 = 0) {s v : Nat}
    (hidle : ∀ v, q N + 1 ≤ v → v ≤ s → (Rq.st (rqRun p F inp) v).wrState = .idle)
    (hbusy : ∀ v, s < v → (Rq.st (rqRun p F inp) v).wrState ≠ .idle)
    (hcfg : ∀ v, s ≤ v → (rqRun p F inp v).cfg = (calls N).config) {x : Rq.Sent}
    (hqs : q N + 1 ≤ s) (hx : x ∈ Rq.loads (rqRun p F inp) v) (horigin : x.origin = .initRead) :
    x.beat.dwords ≠ 0 := by
  rcases Nat.lt_or_ge v (q N + 1) with hbefore | hafter
  · -- a request of a call that has returned
    have hperforms := h.engine.performs ho (Nat.le_refl N)
    rw [rqRun_engineRun h.reset] at hperforms
    refine hperforms.read_dwords ?_ v (Nat.zero_le v) hbefore x hx horigin
    intro cfg hmem
    obtain ⟨k, hk, rfl⟩ := List.mem_map.mp hmem
    exact hsize k (List.mem_range.mp hk).le
  · have hsv : s < v := by
      by_contra hle
      rw [Rq.loads, Rq.load_idle (hidle v hafter (by omega))] at hx
      cases hx
    have hop : Rq.Operation (rqRun p F inp) (calls N).config s (v + 1) :=
      ⟨by omega, hidle s hqs (Nat.le_refl s), hbusy (s + 1) (Nat.lt_succ_self s),
        fun t hst _ ht => absurd ht (hbusy t hst), fun t hst _ _ => hcfg t hst⟩
    exact hop.read_dwords (hsize N (Nat.le_refl N)) hsv (Nat.lt_succ_self v) hx horigin

/-- As long as the operation of the next call runs, its memory reads are answered. -/
theorem Session.readsServed (h : Session p F inp calls q N) (ho : Numbered calls N)
    (hsize : ∀ k, k ≤ N → (calls k).config.sizeAtDescriptor.toNat % 4 = 0)
    (hserved : Served p F inp) (htready : ∀ t, ∃ u, t ≤ u ∧ (inp u).treadybit = true)
    (hpos : 0 < p.params.windowSize) (hlt : p.params.windowSize < 256) (e : Nat) (hqe : q N + 1 ≤ e) :
    Host.ReadsServed (engineRun p F inp) p.memories (calls N).config (q N + 1) e := by
  intro s hes hidle hbusy hcfg
  rw [rqRun_engineRun h.reset] at hidle hbusy hcfg ⊢
  have hwin : ∀ t, (dmaRun p F inp t).currentWindowSize = BitVec.ofNat 64 p.params.windowSize :=
    fun t => (windowSize_eq h.reset hserved.window t).2
  have hsame : ∀ t, Rq.window (rqRun p F inp) t = p.params.windowSize := by
    intro t
    have hw : (rqRun p F inp t).currentWindowSize = BitVec.ofNat 64 p.params.windowSize := hwin t
    rw [Rq.window, hw, BitVec.toNat_setWidth, BitVec.toNat_ofNat]
    omega
  refine ⟨⟨by rw [hsame]; exact hpos, hpos⟩, ?_⟩
  intro t j _ hj hcurrent
  -- a busy tag has a request that has not been answered
  have hlive : Rq.outstanding (rqRun p F inp) t j = true := by
    rw [← rqRun_engineRun h.reset] at hcurrent hj ⊢
    refine Engine.outstanding_of_current p.memories (engineRun p F inp) ?_ hj hcurrent
    intro u _
    rw [rqRun_engineRun h.reset, hsame, hsame]
  obtain ⟨v, x, hvt, hx, horigin, htag, hnone⟩ := Rq.load_of_outstanding hlive
  have hdwords := h.read_dwords ho hsize hidle hbusy hcfg (by omega) hx horigin
  have hx' := hx
  rw [← rqRun_dmaRun h.reset] at hx'
  obtain ⟨k, w, hdone⟩ := Dma.completed_of_load hserved.hostOk hserved.answers htready hwin hserved.apart
    hx' horigin hdwords
  obtain rfl : j = k := by
    apply Fin.ext
    rw [← htag, hdone.tag]
  have hpulse := hdone.pulse
  rw [rqRun_dmaRun h.reset] at hpulse
  -- this pulse is not one of those before cycle `t`
  refine ⟨w, ?_, hpulse⟩
  by_contra hwt
  rw [hnone w hdone.lt (by omega)] at hpulse
  cases hpulse

/-! ## The data of a call that is under way -/

/-- The application offers a word in every cycle, so a live FIFO hands on words again and again. -/
theorem data_comes (hreset : NoUserReset p F inp) (hlive : F.Live) (t : Nat) :
    ∃ u, t ≤ u ∧ F.outValid (sys p F inp u).fifo = true := by
  have hfifo : ∀ t, (sys p F inp t).fifo = F.st (fun t => (sys p F inp t).fifoInput) t := by
    intro t
    induction t with
    | zero =>
        rfl
    | succ t ih =>
        rw [fifo_succ hreset, ih]
        rfl
  obtain ⟨u, htu, hvalid⟩ := hlive (fun t => (sys p F inp t).fifoInput) (fun _ => rfl) t
  exact ⟨u, htu, by rw [hfifo u]; exact hvalid⟩

/-! ## From one call to the next -/

section Environment

variable (hproper : Proper p calls M) (hlive : F.Live)
  (htready : ∀ t, ∃ u, t ≤ u ∧ (inp u).treadybit = true) (hserved : Served p F inp)
  (hpos : 0 < p.params.windowSize) (hlt : p.params.windowSize < 256)

include hproper hlive htready hserved hpos hlt

/-- The driver does not ask in vain. -/
theorem Calling.returns (h : Session p F inp calls q N) (hN : N < M)
    (hcall : Calling p F inp (accesses calls N) (q N) n) : ∃ a w, q N + n ≤ a ∧ Polls p F inp a w := by
  by_contra hno
  push Not at hno
  -- the driver would write nothing any more, so the bit would fall for good
  have ho : Numbered calls (N + 1) := hproper.numbered.mono hN
  have hsilent : ∀ v, q N + n ≤ v → writesAt p F inp v = [] :=
    fun v hv => hcall.quiet v hv (fun a w ha _ => hno a w ha)
  obtain ⟨l, -, hoff⟩ := h.engine.falls ho (n := n)
    (by rw [collect_delayed (writesAt p F inp) (q N) (hostWrites_succ p F inp), hcall.writes])
    (by
      intro v hv
      obtain ⟨x, rfl⟩ : ∃ x, v = x + 1 := ⟨v - 1, by omega⟩
      exact (hostWrites_succ p F inp x).trans (hsilent x (by omega)))
    htready (hproper.terminates N hN) (fun _ => data_comes h.reset hlive)
    (fun _ => h.readsServed (ho.mono (Nat.le_succ N)) (fun k hk => hproper.dwords k (by omega)) hserved
      htready hpos hlt)
  -- and whoever asks then finds it clear
  obtain ⟨a, ha, hasks⟩ := hcall.asks hno (max l (q N + n))
  obtain ⟨w, hpolls⟩ := hasks.polls h.reset
    (fun v hv => (congrArg (fun m => m.regs.enable) (mgr_engineRun h.reset v)).symm.trans (hoff v hv))
    (by omega)
  exact hno a w (by omega) hpolls

omit hproper hlive htready hserved hpos hlt in
/-- The first poll that finds the bit clear ends the call. -/
theorem Session.extend (h : Session p F inp calls q N)
    (hcall : Calling p F inp (accesses calls N) (q N) n)
    (hpoll : ∃ a w, q N + n ≤ a ∧ Polls p F inp a w) :
    ∃ u, Session p F inp calls (Function.update q (N + 1) u) (N + 1) := by
  classical
  have hfound : ∃ w a, q N + n ≤ a ∧ Polls p F inp a w := by
    obtain ⟨a, w, ha, hpolls⟩ := hpoll
    exact ⟨w, a, ha, hpolls⟩
  obtain ⟨w, ⟨a, ha, hpolls⟩, hfirst⟩ :
      ∃ w, (∃ a, q N + n ≤ a ∧ Polls p F inp a w) ∧
        ∀ v, v < w → ¬ ∃ a, q N + n ≤ a ∧ Polls p F inp a v :=
    ⟨Nat.find hfound, Nat.find_spec hfound, fun v hv => Nat.find_min hfound hv⟩
  obtain ⟨haw, -⟩ := hpolls.offers.register h.reset hpolls.word
  -- no poll before cycle `w` has been answered like this, so the driver is still waiting
  have hquiet : ∀ v, q N + n ≤ v → v ≤ w → writesAt p F inp v = [] := by
    intro v hv hvw
    exact hcall.quiet v hv (fun b x hb hx hother => hfirst x (by omega) ⟨b, hb, hother⟩)
  have hold : ∀ k, k ≤ N → Function.update q (N + 1) (w + 1) k = q k :=
    fun k hk => Function.update_of_ne (by omega) _ _
  have hnew : Function.update q (N + 1) (w + 1) (N + 1) = w + 1 := Function.update_self _ _ _
  refine ⟨w + 1, h.reset, ?_, ?_⟩
  · rw [hold 0 (Nat.zero_le N)]
    exact h.before
  · intro k hk
    rcases Nat.lt_or_ge k N with hlt | hge
    · rw [hold k hlt.le, hold (k + 1) hlt]
      exact h.issues k hlt
    · obtain rfl : k = N := by omega
      rw [hold k (Nat.le_refl k), hnew]
      refine ⟨?_, a, w, by omega, Nat.lt_succ_self w, fun v hv hvw => hquiet v (by omega) (by omega),
        hpolls⟩
      have hrest : collect (writesAt p F inp) (q k + n) (w + 1 - (q k + n)) = [] :=
        collect_eq_nil _ _ _ (fun x hx => hquiet (q k + n + x) (by omega) (by omega))
      rw [collect_split _ (q k) (show q k ≤ q k + n by omega) (show q k + n ≤ w + 1 by omega), hrest,
        List.append_nil, Nat.add_sub_cancel_left, hcall.writes]

/-- Where the core takes the beats, the FIFO hands on its data and the host serves the memory reads, all
calls of the program return. -/
theorem every_call_returns (hreset : NoUserReset p F inp) (hdrives : Drives p F inp calls M) :
    ∀ N, N ≤ M → ∃ q, q 0 = 0 ∧ Session p F inp calls q N := by
  intro N
  -- each call starts from the session of the calls before
  induction N with
  | zero =>
      intro _
      exact ⟨fun _ => 0, rfl, hreset, fun v hv => absurd hv (Nat.not_lt_zero v),
        fun n hn => absurd hn (Nat.not_lt_zero n)⟩
  | succ N ih =>
      intro hN
      obtain ⟨q, hzero, hsession⟩ := ih (by omega)
      obtain ⟨n, hcall⟩ := hdrives N q hN hzero hsession
      obtain ⟨u, hnext⟩ := hsession.extend hcall
        (hcall.returns hproper hlive htready hserved hpos hlt hsession hN)
      exact ⟨_, by rw [Function.update_of_ne (by omega)]; exact hzero, hnext⟩

end Environment

end Progress

/-! ## A read and a write -/

/-- The tag of the one request of `readRun`. -/
def readTag : Fin Bar0.cleared.params.windowSize := ⟨0, by decide⟩

/-- What the ledger shows up to the return of the second call. -/
theorem readRun_ledger :
    (∀ t, t < 86 → (Dma.ledger (dmaRun Bar0.cleared queue readRun) t).transfer.isNone = true ∧
        ∀ j, 0 < (Dma.ledger (dmaRun Bar0.cleared queue readRun) t).due j → t < 31 ∧ j = readTag) ∧
      (Dma.ledger (dmaRun Bar0.cleared queue readRun) 30).opens (readRun 30).rc readTag = true ∧
      (sys Bar0.cleared queue readRun 85).rq.out.tvalid = false := by
  decide +kernel

/-- After the calls the engine is idle. -/
theorem readRun_idle {t : Nat} (ht : 85 ≤ t) : (sys Bar0.cleared queue readRun t).rq.wrState = .idle := by
  have hwaits := readRun_session.engine.waits readThenWrite_numbered (Nat.le_refl 2)
  have hcalm := (hwaits.calm.stays ht (by
    intro v hv _
    have hv85 : 85 ≤ v := hv
    obtain ⟨x, rfl⟩ : ∃ x, v = x + 1 := ⟨v - 1, by omega⟩
    refine enables_of_writes ?_
    simp [readRun_late (show 76 ≤ x by omega)])).1
  have hidle := hcalm.rest.idle
  rwa [rqRun_engineRun readRun_noUserReset, st_rqRun readRun_noUserReset] at hidle

theorem readRun_served : Served Bar0.cleared queue readRun where
  hostOk := readRun_hostOk
  answers := by
    obtain ⟨hledger, hopens, hout⟩ := readRun_ledger
    have hsys := sys_dmaRun readRun_noUserReset (F := queue)
    exact Dma.answers_of_one hledger (by decide) hopens (fun t ht => readRun_silent (by omega))
      (by rw [hsys]; exact hout) (fun t ht => by rw [hsys]; exact readRun_idle ht)
  apart := readRun_no_clash
  window := readRun_window

/-- In cycle 49 the second call begins to write. -/
theorem readRun_begins : writesAt Bar0.cleared queue readRun 48 = [] ∧
    writesAt Bar0.cleared queue readRun 49 ≠ [] := by
  rw [writesAt_eq, writesAt_eq]
  decide +kernel

/-- Wherever a session has its first call end, the writes of the second one are still to come. -/
theorem readRun_second {q : Nat → Nat} (hzero : q 0 = 0)
    (h : Session Bar0.cleared queue readRun readThenWrite q 1) :
    q 1 ≤ 49 ∧ collect (writesAt Bar0.cleared queue readRun) (q 1) (49 - q 1) = [] := by
  have hfirst : collect (writesAt Bar0.cleared queue readRun) 0 49 = Host.accesses readThenWrite 0 := by
    have hrest : collect (writesAt Bar0.cleared queue readRun) 40 (49 - 40) = [] := by
      refine collect_eq_nil _ _ _ ?_
      intro k hk
      rcases Nat.eq_or_lt_of_le (show 40 + k ≤ 48 by omega) with heq | hlt
      · rw [heq]
        exact readRun_begins.1
      · exact readRun_quiet (n := 0) (by decide) (by omega) (by omega)
    refine (collect_split _ 0 (show 0 ≤ 40 by omega) (show 40 ≤ 49 by omega)).trans ?_
    rw [hrest, List.append_nil]
    exact readRun_writes (n := 0) (by decide)
  have hwrites := (h.issues 0 Nat.one_pos).writes
  rw [hzero, Nat.zero_add, Nat.sub_zero] at hwrites
  rcases Nat.lt_or_ge 49 (q 1) with hlate | hle
  · -- the session would have taken a write too many
    exfalso
    have hmore := (collect_split (writesAt Bar0.cleared queue readRun) 0 (Nat.zero_le 49) hlate.le).symm
    rw [Nat.sub_zero, Nat.sub_zero, hwrites, hfirst, List.append_right_eq_self] at hmore
    obtain ⟨m, hm⟩ : ∃ m, q 1 - 49 = 1 + m := ⟨q 1 - 50, by omega⟩
    rw [hm, collect_add, List.append_eq_nil_iff] at hmore
    exact readRun_begins.2 hmore.1
  · refine ⟨hle, ?_⟩
    have hsplit := collect_split (writesAt Bar0.cleared queue readRun) 0 (Nat.zero_le (q 1)) hle
    rw [Nat.sub_zero, Nat.sub_zero, hwrites, hfirst, eq_comm, List.append_right_eq_self] at hsplit
    exact hsplit

theorem readRun_drives : Drives Bar0.cleared queue readRun readThenWrite 2 := by
  intro N q hN hzero hsession
  obtain rfl | rfl : N = 0 ∨ N = 1 := by omega
  · refine ⟨40, ?_, ?_, ?_⟩
    · rw [hzero]
      exact readRun_writes (n := 0) hN
    · intro v hv hno
      -- up to the answer of the poll nothing is written
      have hv46 : v ≤ 46 := by
        by_contra hlate
        exact hno 40 46 (by omega) (by omega) (readRun_polls (n := 0) hN)
      exact readRun_quiet (n := 0) hN (by omega) (by omega)
    · intro hno
      exact absurd (readRun_polls (n := 0) hN) (hno 40 46 (by omega))
  · obtain ⟨hle, hnone⟩ := readRun_second hzero hsession
    refine ⟨76 - q 1, ?_, ?_, ?_⟩
    · have hsecond := readRun_writes (n := 1) hN
      have hrest : collect (writesAt Bar0.cleared queue readRun) 48 (49 - 48) = [] := by
        refine collect_eq_nil _ _ _ ?_
        intro k hk
        obtain rfl : k = 0 := by omega
        exact readRun_begins.1
      rw [show 40 - 4 * 1 = 84 - 48 from rfl,
        collect_split _ 48 (show 48 ≤ 49 by omega) (show 49 ≤ 84 by omega), hrest, List.nil_append,
        collect_split _ 49 (show 49 ≤ 76 by omega) (show 76 ≤ 84 by omega),
        collect_eq_nil _ 76 _ (fun k _ => readRun_late (Nat.le_add_right 76 k)), List.append_nil] at hsecond
      rw [collect_split _ (q 1) hle (show 49 ≤ 76 by omega), hnone, List.nil_append]
      exact hsecond
    · intro v hv _
      exact readRun_late (by omega)
    · intro hno
      exact absurd (readRun_polls (n := 1) hN) (hno 76 82 (by omega))

/-- Both calls return. -/
theorem every_call_returns_two :
    ∃ q, q 0 = 0 ∧ Session Bar0.cleared queue readRun readThenWrite q 2 := by
  have hterminates : ∀ n, n < 2 → (readThenWrite n).config.Terminates Bar0.cleared.params := by
    intro n hn
    obtain rfl | rfl : n = 0 ∨ n = 1 := by omega
    · exact .inl rfl
    · exact .inr ⟨rfl, 1, by decide, by decide⟩
  have hdwords : ∀ n, n < 2 → (readThenWrite n).config.sizeAtDescriptor.toNat % 4 = 0 := by
    intro n hn
    obtain rfl | rfl : n = 0 ∨ n = 1 := by omega
    · decide
    · decide
  exact every_call_returns ⟨readThenWrite_numbered, hterminates, hdwords⟩ (Fifo.queue_live (by decide) _)
    (fun t => ⟨t, Nat.le_refl t, rfl⟩) readRun_served (by decide) (by decide) readRun_noUserReset
    readRun_drives 2 (Nat.le_refl 2)

end Board

end PcieBench
