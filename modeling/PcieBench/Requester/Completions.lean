import PcieBench.Clocked.Eventually
import PcieBench.Requester.Logic

/-!
# Reads and completions of BAR 2

The reads that `pcie_to_axi_reg_requester` accepts, the answers of the AXI-Lite slave and the
completions form three lists that grow from cycle to cycle.  Descriptors and answers are taken from
their FIFOs in pairs, but they are taken in every state of the completion FSM: a pair that shows while
the FSM still sends the completion before it is lost.
-/

namespace PcieBench
namespace Requester

open Clocked Tlp

/-! ## Runs -/

/-- What the registers without reset hold at the start. -/
structure Instance where
  req : Request
  cpl : Completion

/-- The inputs of a run, one for each cycle after reset. -/
abbrev Run := Nat → Input

/-- The registers and queues in cycle `t` of a run. -/
def st (p : Instance) (inp : Run) (t : Nat) : State := (machine p.req p.cpl).trace inp t

section Runs

variable (p : Instance) (inp : Run) (t : Nat)

/-- The read accepted in cycle `t`. -/
def acceptsRead : List CqBeat :=
  if (st p inp t).cqTready && validRdReq (inp t).cq then [(inp t).cq] else []

/-- The completion transferred in cycle `t`. -/
def completes : List CcBeat :=
  if (st p inp t).ccTvalid && (inp t).ccTready then [(st p inp t).cpl.ccBeat] else []

/-- The reads accepted before cycle `t`. -/
def reads : List CqBeat := collect (acceptsRead p inp) 0 t

/-- The answers of the slave before cycle `t`. -/
def answers : List (BitVec 32) := collect (fun t => (inp t).responses) 0 t

/-- The completions transferred before cycle `t`. -/
def completions : List CcBeat := collect (completes p inp) 0 t

end Runs

/-- The completion has the tag and the requester ID of the request and the data of the answer. -/
structure Answers (c : CcBeat) (b : CqBeat) (data : BitVec 32) : Prop where
  tag : c.tag = b.tag
  reqrId : c.reqrId = b.reqrId
  data : c.data = 0#32 ++ data

/-- Every read gets exactly one completion, in order, with the data of its answer. -/
structure OneCompletionPerRead (p : Instance) (inp : Run) : Prop where
  pairs : ∀ (t k : Nat) c, (completions p inp t)[k]? = some c →
    ∃ b data, (reads p inp t)[k]? = some b ∧ (answers inp t)[k]? = some data ∧ Answers c b data
  complete : ∀ t k, k < (reads p inp t).length → ∃ u, k < (completions p inp u).length

/-- What surrounds the module.  The slave answers every read once, the CC stream is ready again and
again, and the FIFOs are AXI-Stream FIFOs: one that is empty gets ready and stays ready until it is
written, one that holds an item shows it and goes on showing it until it is read. -/
structure Environment (p : Instance) (inp : Run) : Prop where
  once : ∀ t, (inp t).responses.length ≤ (st p inp t).pendingReads.length
  answered : ∀ t, (st p inp t).pendingReads ≠ [] → ∃ u, t ≤ u ∧ (inp u).responses ≠ []
  ccReady : ∀ t, ∃ u, t ≤ u ∧ (inp u).ccTready = true
  raReady : ∀ t, (∀ u, t ≤ u → (st p inp u).pendingReads = []) → ∃ u, t ≤ u ∧ (inp u).raReady = true
  raReady_keeps : ∀ t, (inp t).raReady = true → (st p inp t).storesRd (inp t) = false →
    (inp (t + 1)).raReady = true
  dReady : ∀ t, (∀ u, t ≤ u → (st p inp u).dFifo = []) → ∃ u, t ≤ u ∧ (inp u).dReady = true
  dReady_keeps : ∀ t, (inp t).dReady = true → (st p inp t).storesRd (inp t) = false →
    (inp (t + 1)).dReady = true
  dVisible : ∀ t, (∀ u, t ≤ u → (st p inp u).dFifo ≠ []) → ∃ u, t ≤ u ∧ (inp u).dVisible = true
  dVisible_keeps : ∀ t, (inp t).dVisible = true → (st p inp t).cplDataAvailable (inp t) = false →
    (inp (t + 1)).dVisible = true
  rVisible : ∀ t, (∀ u, t ≤ u → (st p inp u).rFifo ≠ []) → ∃ u, t ≤ u ∧ (inp u).rVisible = true
  rVisible_keeps : ∀ t, (inp t).rVisible = true → (st p inp t).cplDataAvailable (inp t) = false →
    (inp (t + 1)).rVisible = true

/-- The two FIFOs never show an item together while the FSM is busy with the completion before. -/
def NoOverrun (p : Instance) (inp : Run) : Prop :=
  ∀ t, (st p inp t).cplDataAvailable (inp t) = true → (st p inp t).ccState = .waitForData

section Completions

variable {p : Instance} {inp : Run}

theorem st_succ (t : Nat) : st p inp (t + 1) = step (st p inp t) (inp t) := rfl

/-! ## The balances -/

/-- The descriptor that waits for the FIFOs. -/
def storing (p : Instance) (inp : Run) (t : Nat) : List DEntry :=
  if (st p inp t).cqState = .storeRdReq then [(st p inp t).req.dEntry] else []

/-- The descriptor written into `d_fifo`. -/
def stores (p : Instance) (inp : Run) (t : Nat) : List DEntry :=
  if (st p inp t).storesRd (inp t) then [(st p inp t).req.dEntry] else []

/-- The descriptor and the answer that are taken from the FIFOs. -/
def takes (p : Instance) (inp : Run) (t : Nat) : List (DEntry × BitVec 32) :=
  match (st p inp t).dHead (inp t), (st p inp t).rHead (inp t) with
  | some d, some r => [(d, r)]
  | _, _ => []

/-- The completion in progress. -/
def sending (p : Instance) (inp : Run) (t : Nat) : List CcBeat :=
  if (st p inp t).ccTvalid then [(st p inp t).cpl.ccBeat] else []

/-- A cycle takes a pair, or nothing. -/
theorem takes_cases (p : Instance) (inp : Run) (t : Nat) :
    (∃ d r, (st p inp t).cplDataAvailable (inp t) = true ∧ (st p inp t).dHead (inp t) = some d ∧
      (st p inp t).rHead (inp t) = some r ∧ takes p inp t = [(d, r)]) ∨
      ((st p inp t).cplDataAvailable (inp t) = false ∧ takes p inp t = []) := by
  cases hd : (st p inp t).dHead (inp t) with
  | none =>
      exact .inr ⟨by simp [State.cplDataAvailable, hd], by simp [takes, hd]⟩
  | some d =>
      cases hr : (st p inp t).rHead (inp t) with
      | none =>
          exact .inr ⟨by simp [State.cplDataAvailable, hr], by simp [takes, hr]⟩
      | some r =>
          exact .inl ⟨d, r, by simp [State.cplDataAvailable, hd, hr], rfl, rfl, by simp [takes, hd, hr]⟩

theorem stores_append_storing (p : Instance) (inp : Run) (t : Nat) :
    stores p inp t ++ storing p inp (t + 1) =
      storing p inp t ++ (acceptsRead p inp t).map (fun b => (Request.ofBeat b).dEntry) := by
  have hnext : (st p inp (t + 1)).cqState = nextCqState (st p inp t) (inp t) := rfl
  have hreq : (st p inp (t + 1)).req = nextReq (st p inp t) (inp t) := rfl
  cases hs : (st p inp t).cqState with
  | reset =>
      simp [stores, storing, acceptsRead, State.storesRd, State.cqTready, hnext, nextCqState, hs]
  | waitForReq =>
      rw [nextCqState, hs] at hnext
      cases hrd : validRdReq (inp t).cq with
      | true =>
          -- the beat is loaded into the registers of the request
          simp [stores, storing, acceptsRead, State.storesRd, State.cqTready, hnext, hreq, nextReq, hs, hrd]
      | false =>
          -- a write, or nothing
          have hother : (st p inp (t + 1)).cqState ≠ .storeRdReq := by
            rw [hnext, hrd]
            cases validWrReq (inp t).cq <;> simp
          simp [stores, storing, acceptsRead, State.storesRd, State.cqTready, hother, hs, hrd]
  | storeRdReq =>
      -- the descriptor leaves when both FIFOs are ready, and waits otherwise
      have hkeep : (st p inp (t + 1)).req = (st p inp t).req := by
        simp [hreq, nextReq, hs]
      cases hready : (inp t).raReady && (inp t).dReady with
      | true =>
          have hready' := hready
          rw [Bool.and_eq_true] at hready'
          simp [stores, storing, acceptsRead, State.storesRd, State.cqTready, hnext, nextCqState, hs,
            hready']
      | false =>
          have hblocked : (st p inp t).storesRd (inp t) = false := by
            rw [State.storesRd, hs, Bool.and_assoc, hready, Bool.and_false]
          have hstay : (st p inp (t + 1)).cqState = .storeRdReq := by
            rw [hnext, nextCqState, hs]
            simp only [hready]
            rfl
          simp [stores, storing, acceptsRead, State.cqTready, hblocked, hstay, hkeep, hs]
  | storeWrReq =>
      have hother : (st p inp (t + 1)).cqState ≠ .storeRdReq := by
        rw [hnext, nextCqState, hs]
        simp only
        split <;> simp
      simp [stores, storing, acceptsRead, State.storesRd, State.cqTready, hother, hs]

theorem takes_fst_append_dFifo (p : Instance) (inp : Run) (t : Nat) :
    (takes p inp t).map Prod.fst ++ (st p inp (t + 1)).dFifo =
      (st p inp t).dFifo ++ stores p inp t := by
  have hnext : (st p inp (t + 1)).dFifo = nextDFifo (st p inp t) (inp t) := rfl
  rw [hnext, nextDFifo]
  rcases takes_cases p inp t with ⟨d, r, havail, hd, -, htakes⟩ | ⟨havail, htakes⟩
  · rw [htakes, havail, if_pos rfl, ← List.append_assoc]
    congr 1
    exact (dFifo_of_dHead hd).symm
  · rw [htakes, havail]
    rfl

theorem takes_snd_append_rFifo (p : Instance) (inp : Run) (t : Nat) :
    (takes p inp t).map Prod.snd ++ (st p inp (t + 1)).rFifo =
      (st p inp t).rFifo ++ (inp t).responses := by
  have hnext : (st p inp (t + 1)).rFifo = nextRFifo (st p inp t) (inp t) := rfl
  rw [hnext, nextRFifo]
  rcases takes_cases p inp t with ⟨d, r, havail, -, hr, htakes⟩ | ⟨havail, htakes⟩
  · rw [htakes, havail, if_pos rfl, ← List.append_assoc]
    congr 1
    exact (rFifo_of_rHead hr).symm
  · rw [htakes, havail]
    rfl

/-- Without an overrun every pair that is taken becomes a completion. -/
theorem completes_append_sending (hover : NoOverrun p inp) (t : Nat) :
    completes p inp t ++ sending p inp (t + 1) =
      sending p inp t ++ (takes p inp t).map (fun x => (Completion.load x.1 x.2).ccBeat) := by
  have hnext : (st p inp (t + 1)).ccState = nextCcState (st p inp t) (inp t) := rfl
  have hcpl : (st p inp (t + 1)).cpl = nextCpl (st p inp t) (inp t) := rfl
  rcases takes_cases p inp t with ⟨d, r, havail, hd, hr, htakes⟩ | ⟨havail, htakes⟩
  · -- the pair is taken by an FSM that waits for it
    simp [completes, sending, State.ccTvalid, hnext, hcpl, nextCcState, nextCpl, htakes, havail, hd, hr,
      hover t havail]
  · cases hs : (st p inp t).ccState with
    | reset =>
        simp [completes, sending, State.ccTvalid, hnext, nextCcState, hs, htakes]
    | waitForData =>
        simp [completes, sending, State.ccTvalid, hnext, nextCcState, hs, htakes, havail]
    | sendCpl =>
        -- the completion stays until the CC stream is ready
        have hkeep : (st p inp (t + 1)).cpl = (st p inp t).cpl := by
          rw [hcpl, nextCpl, hs]
        cases hready : (inp t).ccTready <;>
          simp [completes, sending, State.ccTvalid, hnext, nextCcState, hs, htakes, hkeep, hready]

/-- The pairs taken before cycle `t`. -/
def taken (p : Instance) (inp : Run) (t : Nat) : List (DEntry × BitVec 32) :=
  collect (takes p inp) 0 t

/-- The reads are the pairs taken, the descriptors in `d_fifo` and the one that waits. -/
theorem taken_descriptors (p : Instance) (inp : Run) (t : Nat) :
    (taken p inp t).map Prod.fst ++ ((st p inp t).dFifo ++ storing p inp t) =
      (reads p inp t).map (fun b => (Request.ofBeat b).dEntry) := by
  have hstored := collect_balance (storing p inp) (stores_append_storing p inp) 0 t
  have htaken := collect_balance (fun t => (st p inp t).dFifo) (takes_fst_append_dFifo p inp) 0 t
  rw [Nat.zero_add] at hstored htaken
  rw [taken, map_collect, reads, map_collect, ← List.append_assoc, htaken]
  exact hstored

/-- The answers are those of the pairs taken and those in `r_fifo`. -/
theorem taken_answers (p : Instance) (inp : Run) (t : Nat) :
    (taken p inp t).map Prod.snd ++ (st p inp t).rFifo = answers inp t := by
  have htaken := collect_balance (fun t => (st p inp t).rFifo) (takes_snd_append_rFifo p inp) 0 t
  rw [Nat.zero_add] at htaken
  rw [taken, map_collect, htaken]
  rfl

/-- Without an overrun the completions are those of the pairs taken, up to the one in progress. -/
theorem completions_append_sending (hover : NoOverrun p inp) (t : Nat) :
    completions p inp t ++ sending p inp t =
      (taken p inp t).map (fun x => (Completion.load x.1 x.2).ccBeat) := by
  have hsent := collect_balance (sending p inp) (completes_append_sending hover) 0 t
  rw [Nat.zero_add] at hsent
  rw [taken, map_collect, completions, hsent]
  rfl

/-- The descriptor of a pair is that of the read of the same number. -/
theorem read_of_taken {t k : Nat} {d : DEntry} {r : BitVec 32}
    (h : (taken p inp t)[k]? = some (d, r)) :
    ∃ b, (reads p inp t)[k]? = some b ∧ (Request.ofBeat b).dEntry = d := by
  have hlt : k < (taken p inp t).length := (List.getElem?_eq_some_iff.mp h).1
  have hread : ((reads p inp t).map (fun b => (Request.ofBeat b).dEntry))[k]? = some d := by
    rw [← taken_descriptors, List.getElem?_append_left (by simpa using hlt), List.getElem?_map, h]
    rfl
  rwa [List.getElem?_map, Option.map_eq_some_iff] at hread

/-- Each completion answers the read of the same number with the answer of the same number. -/
theorem completion_pairs (hover : NoOverrun p inp) {t k : Nat} {c : CcBeat}
    (h : (completions p inp t)[k]? = some c) :
    ∃ b data, (reads p inp t)[k]? = some b ∧ (answers inp t)[k]? = some data ∧ Answers c b data := by
  have hcompletion : (completions p inp t ++ sending p inp t)[k]? = some c := by
    rw [List.getElem?_append_left (List.getElem?_eq_some_iff.mp h).1]
    exact h
  rw [completions_append_sending hover, List.getElem?_map, Option.map_eq_some_iff] at hcompletion
  obtain ⟨⟨d, r⟩, htaken, rfl⟩ := hcompletion
  have hlt : k < (taken p inp t).length := (List.getElem?_eq_some_iff.mp htaken).1
  obtain ⟨b, hb, rfl⟩ := read_of_taken htaken
  have hanswer : (answers inp t)[k]? = some r := by
    rw [← taken_answers p inp, List.getElem?_append_left (by simpa using hlt), List.getElem?_map,
      htaken]
    rfl
  exact ⟨b, r, hb, hanswer, load_tag _ _, load_reqrId _ _, load_data _ _⟩

/-! ## Progress -/

/-- Each descriptor in `d_fifo` has its answer in `r_fifo`, or the slave has to answer it. -/
theorem dFifo_length (henv : Environment p inp) (t : Nat) :
    (st p inp t).dFifo.length = (st p inp t).rFifo.length + (st p inp t).pendingReads.length := by
  induction t with
  | zero =>
      rfl
  | succ t ih =>
      -- a descriptor and an address enter together, a descriptor and an answer leave together
      have hd := congrArg List.length (takes_fst_append_dFifo p inp t)
      have hr := congrArg List.length (takes_snd_append_rFifo p inp t)
      have hpending : (st p inp (t + 1)).pendingReads.length + (inp t).responses.length =
          (st p inp t).pendingReads.length + (stores p inp t).length := by
        have honce := henv.once t
        show (nextPendingReads (st p inp t) (inp t)).length + _ = _
        rw [nextPendingReads, stores, List.length_append, List.length_drop]
        split <;> simp <;> omega
      simp only [List.length_append, List.length_map] at hd hr
      omega

/-- A completion in progress is transferred. -/
theorem sends (henv : Environment p inp) {t : Nat} (hs : (st p inp t).ccState = .sendCpl) :
    ∃ u, t ≤ u ∧ completes p inp u ≠ [] := by
  obtain ⟨u, htu, hready, hsend, -⟩ := lasts_until
    (p := fun u => (st p inp u).ccState = .sendCpl) (e := fun u => (inp u).ccTready = true)
    (by
      intro u _ hu hnot
      show nextCcState (st p inp u) (inp u) = .sendCpl
      rw [nextCcState, hu]
      simp [hnot])
    hs (henv.ccReady t)
  exact ⟨u, htu, by simp [completes, State.ccTvalid, hsend, hready]⟩

/-- As long as nothing is taken, a FIFO that holds an item goes on holding it. -/
theorem dFifo_keeps {t : Nat} (h : (st p inp t).dFifo ≠ [])
    (hnone : ∀ u, t ≤ u → (st p inp u).cplDataAvailable (inp u) = false) :
    ∀ u, t ≤ u → (st p inp u).dFifo ≠ [] := by
  refine persists ?_ h
  intro u hu hne
  show nextDFifo (st p inp u) (inp u) ≠ []
  simp [nextDFifo, hnone u hu, hne]

theorem rFifo_keeps {t : Nat} (h : (st p inp t).rFifo ≠ [])
    (hnone : ∀ u, t ≤ u → (st p inp u).cplDataAvailable (inp u) = false) :
    ∀ u, t ≤ u → (st p inp u).rFifo ≠ [] := by
  refine persists ?_ h
  intro u hu hne
  show nextRFifo (st p inp u) (inp u) ≠ []
  simp [nextRFifo, hnone u hu, hne]

/-- Two items that wait in both FIFOs are taken. -/
theorem taken_of_both (henv : Environment p inp) {t : Nat} (hd : (st p inp t).dFifo ≠ [])
    (hr : (st p inp t).rFifo ≠ []) :
    ∃ u, t ≤ u ∧ (st p inp u).cplDataAvailable (inp u) = true := by
  by_contra hno
  push Not at hno
  have hnone : ∀ u, t ≤ u → (st p inp u).cplDataAvailable (inp u) = false := by
    intro u hu
    simpa using hno u hu
  have hd' := dFifo_keeps hd hnone
  have hr' := rFifo_keeps hr hnone
  -- from some cycle on both are visible
  obtain ⟨u, htu, hu⟩ := henv.dVisible t hd'
  obtain ⟨v, htv, hv⟩ := henv.rVisible t hr'
  have hdvisible := persists (p := fun w => (inp w).dVisible = true)
    (fun w huw hw => henv.dVisible_keeps w hw (hnone w (by omega))) hu (max u v) (by omega)
  have hrvisible := persists (p := fun w => (inp w).rVisible = true)
    (fun w hvw hw => henv.rVisible_keeps w hw (hnone w (by omega))) hv (max u v) (by omega)
  obtain ⟨d, ds, hds⟩ := List.exists_cons_of_ne_nil (hd' (max u v) (by omega))
  obtain ⟨r, rs, hrs⟩ := List.exists_cons_of_ne_nil (hr' (max u v) (by omega))
  refine hno (max u v) (by omega) (cplDataAvailable_iff.mpr ⟨d, r, ?_, ?_⟩)
  · simp [State.dHead, hdvisible, hds]
  · simp [State.rHead, hrvisible, hrs]

/-- A descriptor in `d_fifo` is taken, after its answer. -/
theorem taken_of_dFifo (henv : Environment p inp) {t : Nat} (hd : (st p inp t).dFifo ≠ []) :
    ∃ u, t ≤ u ∧ (st p inp u).cplDataAvailable (inp u) = true := by
  by_contra hno
  have hnone : ∀ u, t ≤ u → (st p inp u).cplDataAvailable (inp u) = false := by
    intro u hu
    by_contra havail
    exact hno ⟨u, hu, by simpa using havail⟩
  have hd' := dFifo_keeps hd hnone
  have hempty : ∀ u, t ≤ u → (st p inp u).rFifo = [] := by
    intro u hu
    by_contra hr
    obtain ⟨v, huv, hv⟩ := taken_of_both henv (hd' u hu) hr
    exact hno ⟨v, by omega, hv⟩
  -- its answer is neither in `r_fifo` nor taken, so the slave has to give it
  have hpending : (st p inp t).pendingReads ≠ [] := by
    have hlength := dFifo_length henv t
    rw [hempty t le_rfl] at hlength
    intro hnil
    rw [hnil] at hlength
    exact hd (List.length_eq_zero_iff.mp hlength)
  obtain ⟨u, htu, hu⟩ := henv.answered t hpending
  have hnext : nextRFifo (st p inp u) (inp u) = [] := hempty (u + 1) (by omega)
  simp [nextRFifo, hu] at hnext

/-- A read that has been accepted is stored. -/
theorem stored_of_storing (henv : Environment p inp) {t : Nat}
    (hs : (st p inp t).cqState = .storeRdReq) : ∃ u, t ≤ u ∧ (st p inp u).dFifo ≠ [] := by
  by_contra hno
  push Not at hno
  have hblocked : ∀ u, t ≤ u → (st p inp u).storesRd (inp u) = false := by
    intro u hu
    by_contra hstores
    have hnext : nextDFifo (st p inp u) (inp u) = [] := hno (u + 1) (by omega)
    simp [nextDFifo, hstores] at hnext
  have hstay : ∀ u, t ≤ u → (st p inp u).cqState = .storeRdReq := by
    refine persists ?_ hs
    intro u hu hstate
    have hnot := hblocked u hu
    rw [State.storesRd, hstate, Bool.and_assoc] at hnot
    show nextCqState (st p inp u) (inp u) = .storeRdReq
    rw [nextCqState, hstate]
    simp only [beq_self_eq_true, Bool.true_and] at hnot
    simp [hnot]
  -- the FIFOs are empty, so both get ready
  have hpending : ∀ u, t ≤ u → (st p inp u).pendingReads = [] := by
    intro u hu
    have hlength := dFifo_length henv u
    rw [hno u hu, List.length_nil] at hlength
    exact List.length_eq_zero_iff.mp (by omega)
  obtain ⟨u, htu, hu⟩ := henv.raReady t hpending
  obtain ⟨v, htv, hv⟩ := henv.dReady t hno
  have hra := persists (p := fun w => (inp w).raReady = true)
    (fun w huw hw => henv.raReady_keeps w hw (hblocked w (by omega))) hu (max u v) (by omega)
  have hd := persists (p := fun w => (inp w).dReady = true)
    (fun w hvw hw => henv.dReady_keeps w hw (hblocked w (by omega))) hv (max u v) (by omega)
  have hfalse := hblocked (max u v) (by omega)
  simp [State.storesRd, hstay (max u v) (by omega), hra, hd] at hfalse

/-- As long as a read is not completed, there will be another completion. -/
theorem completes_again (henv : Environment p inp) (hover : NoOverrun p inp) {t : Nat}
    (h : (completions p inp t).length < (reads p inp t).length) :
    ∃ u, t ≤ u ∧ completes p inp u ≠ [] := by
  have hreads := congrArg List.length (taken_descriptors p inp t)
  have hsent := congrArg List.length (completions_append_sending hover t)
  simp only [List.length_append, List.length_map] at hreads hsent
  -- a pair that is taken finds the FSM waiting and is sent
  have hdone : ∀ u, t ≤ u → (st p inp u).dFifo ≠ [] → ∃ v, t ≤ v ∧ completes p inp v ≠ [] := by
    intro u htu hd
    obtain ⟨v, huv, havail⟩ := taken_of_dFifo henv hd
    have hsend : (st p inp (v + 1)).ccState = .sendCpl := by
      show nextCcState (st p inp v) (inp v) = .sendCpl
      rw [nextCcState, hover v havail]
      simp [havail]
    obtain ⟨w, hvw, hw⟩ := sends henv hsend
    exact ⟨w, by omega, hw⟩
  -- the read is in the completion in progress, in `d_fifo` or still in the registers
  by_cases hcc : (st p inp t).ccState = .sendCpl
  · exact sends henv hcc
  · have hsending : sending p inp t = [] := by
      simp [sending, State.ccTvalid, hcc]
    rw [hsending, List.length_nil] at hsent
    by_cases hd : (st p inp t).dFifo = []
    · have hcq : (st p inp t).cqState = .storeRdReq := by
        by_contra hcq
        have hnone : storing p inp t = [] := by simp [storing, hcq]
        rw [hd, hnone] at hreads
        simp only [List.length_nil] at hreads
        omega
      obtain ⟨u, htu, hu⟩ := stored_of_storing henv hcq
      exact hdone u htu hu
    · exact hdone t le_rfl hd

/-- Every read is completed. -/
theorem completed (henv : Environment p inp) (hover : NoOverrun p inp) {t k : Nat}
    (h : k < (reads p inp t).length) : ∃ u, k < (completions p inp u).length := by
  -- induction on the completions that are missing
  induction hn : k + 1 - (completions p inp t).length using Nat.strong_induction_on generalizing t with
  | _ n ih =>
      by_cases hdone : k < (completions p inp t).length
      · exact ⟨t, hdone⟩
      · obtain ⟨u, htu, hu⟩ := completes_again henv hover (t := t) (by omega)
        have hgrow : (completions p inp t).length < (completions p inp (u + 1)).length := by
          have hmono := (collect_isPrefix (completes p inp) 0 htu).length_le
          have hpos := List.length_pos_iff.mpr hu
          rw [completions, completions, collect_succ, List.length_append, Nat.zero_add]
          omega
        have hreads : k < (reads p inp (u + 1)).length := by
          have hmono := (collect_isPrefix (acceptsRead p inp) 0 (show t ≤ u + 1 by omega)).length_le
          exact lt_of_lt_of_le h hmono
        exact ih _ (by omega) hreads rfl

/-- If a descriptor and an answer never show together while the completion before is being sent, every
read gets exactly one completion, in order, with its tag, its requester ID and its answer. -/
theorem one_completion_in_order (p : Instance) (inp : Run) (henv : Environment p inp)
    (hover : NoOverrun p inp) : OneCompletionPerRead p inp := by
  refine ⟨?_, ?_⟩
  · intro t k c h
    exact completion_pairs hover h
  · intro t k h
    exact completed henv hover h

end Completions

/-! ## Two reads -/

/-- Nothing is in progress. -/
def State.Idle (s : State) : Prop :=
  s.cqState = .waitForReq ∧ s.ccState = .waitForData ∧ s.dFifo = [] ∧ s.rFifo = [] ∧
    s.pendingReads = []

instance (s : State) : Decidable s.Idle := inferInstanceAs (Decidable (_ ∧ _ ∧ _ ∧ _ ∧ _))

/-- Without requests and answers nothing begins. -/
theorem idle_persists {p : Instance} {inp : Run} {t : Nat} (h : (st p inp t).Idle)
    (hcq : ∀ u, t ≤ u → (inp u).cq = noRequest) (hnone : ∀ u, t ≤ u → (inp u).responses = []) :
    ∀ u, t ≤ u → (st p inp u).Idle := by
  refine persists ?_ h
  rintro u hu ⟨hcqs, hccs, hd, hr, hpending⟩
  have havail : (st p inp u).cplDataAvailable (inp u) = false := by
    simp [State.cplDataAvailable, State.dHead, hd]
  have hstores : (st p inp u).storesRd (inp u) = false := by
    simp [State.storesRd, hcqs]
  refine ⟨?_, ?_, ?_, ?_, ?_⟩
  · show nextCqState (st p inp u) (inp u) = _
    rw [nextCqState, hcqs, hcq u hu]
    rfl
  · show nextCcState (st p inp u) (inp u) = _
    rw [nextCcState, hccs]
    simp [havail]
  · show nextDFifo (st p inp u) (inp u) = _
    simp [nextDFifo, hd, hstores]
  · show nextRFifo (st p inp u) (inp u) = _
    simp [nextRFifo, hr, hnone u hu]
  · show nextPendingReads (st p inp u) (inp u) = _
    simp [nextPendingReads, hpending, hstores]

def cleared : Instance where
  req := .ofBeat noRequest
  cpl := .load (Request.ofBeat noRequest).dEntry 0

/-- Two reads, the first one in cycle 1, with FIFOs that are always ready and show what they hold. -/
def twoReads (second : Nat) (responses : Nat → List (BitVec 32)) : Run := fun t =>
  { cq :=
      if t = 1 then requestBeat memRdReq 2 7 1 0x10 0x0f
      else if t = second then requestBeat memRdReq 2 8 1 0x11 0x0f
      else noRequest
    ccTready := true
    waReady := true
    wReady := true
    raReady := true
    dReady := true
    dVisible := true
    rVisible := true
    responses := responses t }

/-- What is left to show for the environment of these runs is that the slave answers each read once. -/
theorem twoReads_environment {second : Nat} {responses : Nat → List (BitVec 32)}
    (honce : ∀ t, (responses t).length ≤ (st cleared (twoReads second responses) t).pendingReads.length)
    (hanswered : ∀ t, (st cleared (twoReads second responses) t).pendingReads ≠ [] →
      ∃ u, t ≤ u ∧ responses u ≠ []) :
    Environment cleared (twoReads second responses) where
  once := honce
  answered := hanswered
  ccReady t := ⟨t, le_rfl, rfl⟩
  raReady t _ := ⟨t, le_rfl, rfl⟩
  raReady_keeps _ _ _ := rfl
  dReady t _ := ⟨t, le_rfl, rfl⟩
  dReady_keeps _ _ _ := rfl
  dVisible t _ := ⟨t, le_rfl, rfl⟩
  dVisible_keeps _ _ _ := rfl
  rVisible t _ := ⟨t, le_rfl, rfl⟩
  rVisible_keeps _ _ _ := rfl

/-- The second read comes after the first completion. -/
def readsApart : Run :=
  twoReads 6 (fun t => if t = 3 then [0xaaaa] else if t = 8 then [0xbbbb] else [])

theorem readsApart_idle : ∀ u, 11 ≤ u → (st cleared readsApart u).Idle := by
  refine idle_persists (by decide +kernel) ?_ ?_
  · intro u hu
    simp [readsApart, twoReads, show u ≠ 1 by omega, show u ≠ 6 by omega]
  · intro u hu
    simp [readsApart, twoReads, show u ≠ 3 by omega, show u ≠ 8 by omega]

theorem readsApart_environment : Environment cleared readsApart := by
  refine twoReads_environment ?_ ?_
  · intro t
    by_cases h3 : t = 3
    · subst h3
      decide +kernel
    · by_cases h8 : t = 8
      · subst h8
        decide +kernel
      · simp [h3, h8]
  · intro t hpending
    rcases Nat.lt_or_ge 8 t with hlt | hge
    · exfalso
      rcases Nat.lt_or_ge t 11 with hsmall | hlarge
      · have hcases : t = 9 ∨ t = 10 := by omega
        rcases hcases with rfl | rfl <;> exact hpending (by decide +kernel)
      · exact hpending (readsApart_idle t hlarge).2.2.2.2
    · exact ⟨8, hge, by simp⟩

/-- Both reads are completed. -/
theorem one_completion_in_order_two :
    (reads cleared readsApart 7).length = 2 ∧ OneCompletionPerRead cleared readsApart := by
  refine ⟨by decide +kernel, one_completion_in_order _ _ readsApart_environment ?_⟩
  intro t havail
  rcases Nat.lt_or_ge t 11 with hlt | hge
  · revert havail
    have hall : ∀ t, t < 11 → (st cleared readsApart t).cplDataAvailable (readsApart t) = true →
        (st cleared readsApart t).ccState = .waitForData := by
      decide +kernel
    exact hall t hlt
  · obtain ⟨-, hcc, -⟩ := readsApart_idle t hge
    exact hcc

/-- The slave has both answers at the same time. -/
def readsTogether : Run :=
  twoReads 3 (fun t => if t = 5 then [0xaaaa, 0xbbbb] else [])

theorem readsTogether_idle : ∀ u, 8 ≤ u → (st cleared readsTogether u).Idle := by
  refine idle_persists (by decide +kernel) ?_ ?_
  · intro u hu
    simp [readsTogether, twoReads, show u ≠ 1 by omega, show u ≠ 3 by omega]
  · intro u hu
    simp [readsTogether, twoReads, show u ≠ 5 by omega]

theorem readsTogether_environment : Environment cleared readsTogether := by
  refine twoReads_environment ?_ ?_
  · intro t
    by_cases h5 : t = 5
    · subst h5
      decide +kernel
    · simp [h5]
  · intro t hpending
    rcases Nat.lt_or_ge 5 t with hlt | hge
    · exfalso
      rcases Nat.lt_or_ge t 8 with hsmall | hlarge
      · have hcases : t = 6 ∨ t = 7 := by omega
        rcases hcases with rfl | rfl <;> exact hpending (by decide +kernel)
      · exact hpending (readsTogether_idle t hlarge).2.2.2.2
    · exact ⟨5, hge, by simp⟩

/-- Two answers that come together are taken in two cycles that follow each other: the second one finds
the FSM sending, and its read is never completed. -/
theorem second_read_lost :
    Environment cleared readsTogether ∧ (reads cleared readsTogether 4).length = 2 ∧
      ¬ OneCompletionPerRead cleared readsTogether := by
  refine ⟨readsTogether_environment, by decide +kernel, ?_⟩
  intro hone
  obtain ⟨u, hu⟩ := hone.complete 4 1 (by decide +kernel)
  have height : (completions cleared readsTogether 8).length = 1 := by decide +kernel
  -- from cycle 8 on nothing is in progress, so there is no second completion
  have hlate : collect (completes cleared readsTogether) 8 u = [] := by
    refine collect_eq_nil _ _ _ ?_
    intro k _
    obtain ⟨-, hcc, -⟩ := readsTogether_idle (8 + k) (by omega)
    simp [completes, State.ccTvalid, hcc]
  have hsame : (completions cleared readsTogether (8 + u)).length = 1 := by
    rw [completions, collect_add, Nat.zero_add, hlate, List.append_nil]
    exact height
  have hmono := (collect_isPrefix (completes cleared readsTogether) 0 (show u ≤ 8 + u by omega)).length_le
  rw [completions] at hu hsame
  omega

end Requester
end PcieBench
