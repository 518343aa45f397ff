import PcieBench.Clocked.Eventually
import PcieBench.Completer.Logic

/-!
# Requests and their completions

What a run of `pcie_completer_to_bram` does with each request: which cycles accept one, which cycles
send a completion, and whether the two balance.  Requests come in any order, of any type and length,
with beats of a longer payload behind them; the memory interface and the CC stream may take any time.
-/

namespace PcieBench
namespace Completer

open Clocked Tlp

/-! ## Runs -/

/-- The BAR of the instance and what its registers without reset hold at the start. -/
structure Instance where
  bar : BitVec 3
  req : Request
  cpl : Completion

/-- The inputs of a run, one for each cycle after reset. -/
abbrev Run := Nat → Input

/-- The registers in cycle `t` of a run. -/
def st (p : Instance) (inp : Run) (t : Nat) : State := (machine p.bar p.req p.cpl).trace inp t

/-- A request to BAR `bar`, of any type. -/
def isRequest (bar : BitVec 3) (b : CqBeat) : Bool := b.starts && b.barId == bar

/-- A memory read request to BAR `bar`. -/
def isRead (bar : BitVec 3) (b : CqBeat) : Bool := isRequest bar b && b.reqType == memRdReq

section Runs

variable (p : Instance) (inp : Run) (t : Nat)

/-- A request to the BAR is accepted in cycle `t`. -/
def accepts : Bool := (st p inp t).cqTready && isRequest p.bar (inp t).cq

/-- A memory read request is accepted in cycle `t`. -/
def acceptsRead : Bool := (st p inp t).cqTready && isRead p.bar (inp t).cq

/-- A completion is transferred in cycle `t`; it is a TLP of one beat. -/
def completes : Bool := (st p inp t).ccTvalid && (inp t).ccTready

/-- The completion transferred in cycle `u` is the one of the read accepted in cycle `t`, and no
request has been accepted in between. -/
structure Answers (u : Nat) : Prop where
  lt : t < u
  completes : completes p inp u = true
  tag : (st p inp u).ccBeat.tag = (inp t).cq.tag
  reqrId : (st p inp u).ccBeat.reqrId = (inp t).cq.reqrId
  quiet : ∀ v, t < v → v ≤ u → accepts p inp v = false

end Runs

/-- Every accepted memory read gets exactly one completion before the next request is accepted, and
nothing else gets one. -/
structure OneCompletionPerRead (p : Instance) (inp : Run) : Prop where
  reads : ∀ t, acceptsRead p inp t = true → ∃ u, Answers p inp t u ∧
    ∀ v, t < v → v ≠ u → completes p inp v = true → ∃ w, t < w ∧ w < v ∧ accepts p inp w = true
  others : ∀ u, completes p inp u = true → ∃ t, t < u ∧ acceptsRead p inp t = true ∧
    ∀ v, t < v → v < u → accepts p inp v = false

/-- Every `en` pulse is acknowledged, after any number of cycles. -/
def Acknowledged (p : Instance) (inp : Run) : Prop :=
  ∀ t, (st p inp t).en = true → ∃ u, t < u ∧ (inp u).ack = true

/-- The CC stream is ready again and again. -/
def CcReady (inp : Run) : Prop := ∀ t, ∃ u, t ≤ u ∧ (inp u).ccTready = true

section Requests

variable {p : Instance} {inp : Run} {t : Nat}

theorem st_succ : st p inp (t + 1) = step p.bar (st p inp t) (inp t) := rfl

/-! ## What a beat is taken for -/

/-- A memory read is valid or unsupported, by its length. -/
theorem decodedReq_of_isRead {bar : BitVec 3} {b : CqBeat} (h : isRead bar b = true) :
    decodedReq bar b = if validDwordCnt b then .validRdReq else .unsupportedReq := by
  simp only [isRead, isRequest, Bool.and_eq_true] at h
  simp [decodedReq, h]

theorem isRead_of_validRdReq {bar : BitVec 3} {b : CqBeat} (h : decodedReq bar b = .validRdReq) :
    isRead bar b = true := by
  unfold decodedReq at h
  split at h
  · rename_i hstarts
    split at h
    · rename_i hread
      simp only [Bool.and_eq_true] at hread
      simp [isRead, isRequest, hstarts, hread]
    · split at h
      · split at h <;> cases h
      · cases h
  · cases h

/-- A beat without a request is passed over. -/
theorem decodedReq_of_not_isRequest {bar : BitVec 3} {b : CqBeat} (h : isRequest bar b = false) :
    decodedReq bar b = .noReq := by
  unfold decodedReq
  cases hstarts : b.starts with
  | false =>
      simp
  | true =>
      have hbar : (b.barId == bar) = false := by
        simpa [isRequest, hstarts] using h
      simp [hbar]

/-! ## Waiting for a request -/

theorem waits_succ (hs : (st p inp t).state = .waitForReq) (h : accepts p inp t = false) :
    (st p inp (t + 1)).state = .waitForReq := by
  have hnone : isRequest p.bar (inp t).cq = false := by
    simpa [accepts, State.cqTready, hs] using h
  rw [st_succ, step_state, nextState, hs]
  simp [decodedReq_of_not_isRequest hnone]

/-- Without a request the completer goes on waiting. -/
theorem waits {u : Nat} (hs : (st p inp t).state = .waitForReq) (htu : t ≤ u)
    (h : ∀ v, t ≤ v → v < u → accepts p inp v = false) : (st p inp u).state = .waitForReq := by
  induction u, htu using Nat.le_induction with
  | base =>
      exact hs
  | succ u htu ih =>
      refine waits_succ (ih fun v htv hv => h v htv (by omega)) ?_
      exact h u htu (by omega)

/-! ## Serving a read -/

/-- The states between a valid read and the end of its completion. -/
def FsmState.serves : FsmState → Bool
  | .storeRdReq | .waitForRdCpl | .sendRdCpl => true
  | _ => false

/-- In cycle `t` the completer works on the read accepted in cycle `a`. -/
structure Serving (p : Instance) (inp : Run) (a t : Nat) : Prop where
  lt : a < t
  read : acceptsRead p inp a = true
  state : (st p inp t).state.serves = true
  req : (st p inp t).req = .ofBeat (inp a).cq
  quiet : ∀ v, a < v → v ≤ t → accepts p inp v = false

theorem not_accepts_of_serves (hs : (st p inp t).state.serves = true) :
    accepts p inp t = false := by
  cases hstate : (st p inp t).state <;> simp_all [FsmState.serves, accepts, State.cqTready]

theorem Serving.start (h : acceptsRead p inp t = true) (hcnt : validDwordCnt (inp t).cq = true) :
    Serving p inp t (t + 1) := by
  have hparts := h
  simp only [acceptsRead, State.cqTready, Bool.and_eq_true, beq_iff_eq] at hparts
  obtain ⟨hs, hread⟩ := hparts
  have hdecoded : decodedReq p.bar (inp t).cq = .validRdReq := by
    rw [decodedReq_of_isRead hread, if_pos hcnt]
  have hserves : (st p inp (t + 1)).state.serves = true := by
    rw [st_succ, step_state, nextState, hs]
    simp [hdecoded, FsmState.serves]
  refine ⟨by omega, h, hserves, ?_, ?_⟩
  · rw [st_succ, step_req, nextReq, if_pos ⟨hs, by simp [hdecoded]⟩]
  · intro v hv hvt
    obtain rfl : v = t + 1 := by omega
    exact not_accepts_of_serves hserves

/-- One cycle of service: the completion is transferred, or the service goes on. -/
theorem Serving.step {a : Nat} (h : Serving p inp a t) :
    (completes p inp t = true ∧ (st p inp (t + 1)).state = .waitForReq) ∨
      (completes p inp t = false ∧ Serving p inp a (t + 1)) := by
  have hkeep : (st p inp t).state ≠ .waitForReq := by
    intro hs
    have := h.state
    rw [hs] at this
    cases this
  have hreq : (st p inp (t + 1)).req = .ofBeat (inp a).cq := by
    rw [st_succ, step_req, nextReq, if_neg (by simp [hkeep]), h.req]
  have hgoes : (st p inp (t + 1)).state.serves = true → Serving p inp a (t + 1) := by
    intro hserves
    refine ⟨by have := h.lt; omega, h.read, hserves, hreq, ?_⟩
    intro v hv hvt
    rcases Nat.lt_or_ge t v with hlt | hge
    · obtain rfl : v = t + 1 := by omega
      exact not_accepts_of_serves hserves
    · exact h.quiet v hv hge
  have hnext : (st p inp (t + 1)).state = nextState p.bar (st p inp t) (inp t) := rfl
  have hserves := h.state
  -- the three states of a service
  cases hs : (st p inp t).state with
  | storeRdReq =>
      refine .inr ⟨by simp [completes, State.ccTvalid, hs], hgoes ?_⟩
      rw [hnext, nextState, hs]
      rfl
  | waitForRdCpl =>
      refine .inr ⟨by simp [completes, State.ccTvalid, hs], hgoes ?_⟩
      rw [hnext, nextState, hs]
      cases (inp t).ack <;> rfl
  | sendRdCpl =>
      cases hready : (inp t).ccTready with
      | true =>
          refine .inl ⟨by simp [completes, State.ccTvalid, hs, hready], ?_⟩
          rw [hnext, nextState, hs]
          simp [hready]
      | false =>
          refine .inr ⟨by simp [completes, hready], hgoes ?_⟩
          rw [hnext, nextState, hs]
          simp [hready, FsmState.serves]
  -- outside a service
  | reset | waitForReq | storeWrReq | sendUnsupportedReq =>
      rw [hs] at hserves
      cases hserves

/-- A state of a service follows another one or the acceptance of a valid read. -/
theorem serves_cases (hs : (st p inp (t + 1)).state.serves = true) :
    (st p inp t).state.serves = true ∨
      (acceptsRead p inp t = true ∧ validDwordCnt (inp t).cq = true) := by
  have hnext : (st p inp (t + 1)).state = nextState p.bar (st p inp t) (inp t) := rfl
  rw [hnext] at hs
  cases hstate : (st p inp t).state with
  | waitForReq =>
      simp only [nextState, hstate] at hs
      cases hdecoded : decodedReq p.bar (inp t).cq with
      | validRdReq =>
          have hread := isRead_of_validRdReq hdecoded
          refine .inr ⟨by simp [acceptsRead, State.cqTready, hstate, hread], ?_⟩
          by_contra hno
          rw [decodedReq_of_isRead hread, if_neg hno] at hdecoded
          cases hdecoded
      | noReq | validWrReq | unsupportedReq =>
          rw [hdecoded] at hs
          cases hs
  | reset | storeWrReq | sendUnsupportedReq =>
      rw [nextState, hstate] at hs
      cases hs
  | storeRdReq | waitForRdCpl | sendRdCpl =>
      exact .inl rfl

/-- The completer only works on reads that it has accepted. -/
theorem serving (p : Instance) (inp : Run) (t : Nat) (hs : (st p inp t).state.serves = true) :
    ∃ a, Serving p inp a t := by
  induction t with
  | zero =>
      cases hs
  | succ t ih =>
      rcases serves_cases hs with hserves | ⟨hread, hcnt⟩
      · obtain ⟨a, ha⟩ := ih hserves
        rcases ha.step with ⟨-, hwait⟩ | ⟨-, hgoes⟩
        · rw [hwait] at hs
          cases hs
        · exact ⟨a, hgoes⟩
      · exact ⟨t, Serving.start hread hcnt⟩

theorem accepts_of_acceptsRead (h : acceptsRead p inp t = true) : accepts p inp t = true := by
  simp only [acceptsRead, isRead, Bool.and_eq_true] at h
  simp [accepts, h]

/-- A service has gone on since its read was accepted. -/
theorem Serving.back {a v w : Nat} (h : Serving p inp a w) (hav : a < v) (hvw : v ≤ w) :
    Serving p inp a v := by
  induction w, hvw using Nat.le_induction with
  | base =>
      exact h
  | succ w hvw ih =>
      apply ih
      rcases serves_cases h.state with hserves | ⟨hread, -⟩
      · obtain ⟨b, hb⟩ := serving p inp w hserves
        -- between two reads in service one would have to be accepted
        rcases Nat.lt_trichotomy a b with hlt | rfl | hgt
        · have hquiet := h.quiet b hlt (by have := hb.lt; omega)
          rw [accepts_of_acceptsRead hb.read] at hquiet
          cases hquiet
        · exact hb
        · have hquiet := hb.quiet a hgt (by omega)
          rw [accepts_of_acceptsRead h.read] at hquiet
          cases hquiet
      · have hquiet := h.quiet w (by omega) (by omega)
        rw [accepts_of_acceptsRead hread] at hquiet
        cases hquiet

/-- A read in service has one or two dwords. -/
theorem Serving.valid {a : Nat} (h : Serving p inp a t) :
    validDwordCnt (inp a).cq = true := by
  have hstart := h.back (v := a + 1) (by omega) h.lt
  rcases serves_cases hstart.state with hserves | ⟨-, hcnt⟩
  · have hread := h.read
    rw [acceptsRead, State.cqTready] at hread
    cases hs : (st p inp a).state <;> simp_all [FsmState.serves]
  · exact hcnt

/-! ## From the acknowledgement to the completion -/

/-- In cycle `u` the memory interface acknowledges the read accepted in cycle `a`. -/
structure Fetches (p : Instance) (inp : Run) (a u : Nat) : Prop where
  serving : Serving p inp a u
  state : (st p inp u).state = .waitForRdCpl
  ack : (inp u).ack = true

/-- In cycle `w` the completion of the read accepted in cycle `a` is on the CC stream. -/
structure Offers (p : Instance) (inp : Run) (a w : Nat) : Prop where
  serving : Serving p inp a w
  state : (st p inp w).state = .sendRdCpl

/-- The completion does not change while it waits for the CC stream. -/
theorem Offers.stays {a v w : Nat} (h : Offers p inp a v) (hvw : v ≤ w)
    (hserving : Serving p inp a w) :
    (st p inp w).state = .sendRdCpl ∧ (st p inp w).cpl = (st p inp v).cpl := by
  induction w, hvw using Nat.le_induction with
  | base =>
      exact ⟨h.state, rfl⟩
  | succ w hvw ih =>
      have hav := h.serving.lt
      obtain ⟨hs, hcpl⟩ := ih (hserving.back (by omega) (by omega))
      have hserves := hserving.state
      rw [st_succ, step_state, nextState, hs] at hserves
      refine ⟨?_, ?_⟩
      · rw [st_succ, step_state, nextState, hs]
        cases hready : (inp w).ccTready with
        | true =>
            rw [hready] at hserves
            cases hserves
        | false =>
            rfl
      · rw [st_succ, step_cpl, nextCpl, if_neg (by simp [hs]), hcpl]

theorem Fetches.next {a u : Nat} (h : Fetches p inp a u) : Offers p inp a (u + 1) := by
  have hs : (st p inp (u + 1)).state = .sendRdCpl := by
    rw [st_succ, step_state, nextState, h.state]
    simp [h.ack]
  rcases h.serving.step with ⟨-, hwait⟩ | ⟨-, hgoes⟩
  · rw [hs] at hwait
    cases hwait
  · exact ⟨hgoes, hs⟩

/-- A read is acknowledged once. -/
theorem Fetches.unique {a u v : Nat} (hu : Fetches p inp a u) (hv : Fetches p inp a v) : u = v := by
  rcases Nat.lt_trichotomy u v with hlt | heq | hgt
  · have hs := (hu.next.stays hlt hv.serving).1
    rw [hv.state] at hs
    cases hs
  · exact heq
  · have hs := (hv.next.stays hgt hu.serving).1
    rw [hu.state] at hs
    cases hs

/-- The completion holds what the interface showed with the acknowledgement. -/
theorem Offers.fetched {a w : Nat} (h : Offers p inp a w) :
    ∃ u, Fetches p inp a u ∧ (st p inp w).cpl = nextCpl (st p inp u) (inp u) := by
  obtain ⟨hserving, hs⟩ := h
  induction w with
  | zero =>
      cases hs
  | succ w ih =>
      have hnext : (st p inp (w + 1)).state = nextState p.bar (st p inp w) (inp w) := rfl
      rw [hs] at hnext
      -- the state after the one that accepts the request is not the one that sends the completion
      have haw : a < w := by
        have hlt := hserving.lt
        by_contra hge
        obtain rfl : a = w := by omega
        have hread := hserving.read
        simp only [acceptsRead, State.cqTready, Bool.and_eq_true, beq_iff_eq] at hread
        rw [nextState, hread.1] at hnext
        cases hdecoded : decodedReq p.bar (inp a).cq <;> simp [hdecoded] at hnext
      have hback := hserving.back haw (by omega)
      cases hstate : (st p inp w).state with
      | waitForRdCpl =>
          -- the acknowledgement comes in this cycle and loads the completion
          rw [nextState, hstate] at hnext
          refine ⟨w, ⟨hback, hstate, ?_⟩, rfl⟩
          by_contra hack
          simp [hack] at hnext
      | sendRdCpl =>
          obtain ⟨u, hu, hcpl⟩ := ih hback hstate
          refine ⟨u, hu, ?_⟩
          rw [st_succ, step_cpl, nextCpl, if_neg (by simp [hstate]), hcpl]
      | storeRdReq =>
          rw [nextState, hstate] at hnext
          cases hnext
      | reset | waitForReq | storeWrReq | sendUnsupportedReq =>
          have hserves := hback.state
          rw [hstate] at hserves
          cases hserves

/-! ## The balance -/

theorem serves_of_completes (h : completes p inp t = true) :
    (st p inp t).state = .sendRdCpl := by
  simp only [completes, State.ccTvalid, Bool.and_eq_true, beq_iff_eq] at h
  exact h.1

theorem Serving.answers {a : Nat} (h : Serving p inp a t) (hc : completes p inp t = true) :
    Answers p inp a t := by
  refine ⟨h.lt, hc, ?_, ?_, h.quiet⟩
  · rw [CcBeat.tag, State.ccBeat, packCompletion_tag, h.req]
    rfl
  · rw [CcBeat.reqrId, State.ccBeat, packCompletion_reqrId, h.req]
    rfl

/-- A valid read is completed after the acknowledgement, as soon as the CC stream is ready. -/
theorem Serving.eventually_completes (hack : Acknowledged p inp) (hready : CcReady inp) {a : Nat}
    (h : Serving p inp a (a + 1)) :
    ∃ u, a < u ∧ completes p inp u = true ∧ ∀ v, a < v → v < u → completes p inp v = false := by
  have hevent : ∃ u, a + 1 ≤ u ∧ completes p inp u = true := by
    by_contra hno
    push Not at hno
    have hall : ∀ u, a + 1 ≤ u → Serving p inp a u := by
      refine persists ?_ h
      intro u hu hserving
      rcases hserving.step with ⟨hc, -⟩ | ⟨-, hgoes⟩
      · exact absurd hc (hno u hu)
      · exact hgoes
    -- the access of the read comes first, then the wait for its acknowledgement
    have hstore : (st p inp (a + 1)).state = .storeRdReq := by
      have hread := h.read
      simp only [acceptsRead, State.cqTready, Bool.and_eq_true, beq_iff_eq] at hread
      have hserves := h.state
      rw [st_succ, step_state, nextState, hread.1, decodedReq_of_isRead hread.2] at hserves ⊢
      cases hcnt : validDwordCnt (inp a).cq with
      | true =>
          rfl
      | false =>
          rw [hcnt] at hserves
          cases hserves
    obtain ⟨u, hu, hacked⟩ := hack (a + 1) (by simp [State.en, hstore])
    have hwait : (st p inp (a + 2)).state = .waitForRdCpl := by
      rw [st_succ, step_state, nextState, hstore]
    obtain ⟨u, hu, hacked, hs, -⟩ := lasts_until (p := fun v => (st p inp v).state = .waitForRdCpl)
      (e := fun v => (inp v).ack = true) (t := a + 2) (by
        intro v _ hs hno
        rw [st_succ, step_state, nextState, hs]
        simp [hno]) hwait ⟨u, hu, hacked⟩
    have hsend : (st p inp (u + 1)).state = .sendRdCpl := by
      rw [st_succ, step_state, nextState, hs]
      simp [hacked]
    obtain ⟨w, hw, hr, hs', -⟩ := lasts_until (p := fun v => (st p inp v).state = .sendRdCpl)
      (e := fun v => (inp v).ccTready = true) (t := u + 1) (by
        intro v _ hs hno
        rw [st_succ, step_state, nextState, hs]
        simp [hno]) hsend (hready (u + 1))
    exact hno w (by omega) (by simp [completes, State.ccTvalid, hs', hr])
  obtain ⟨u, hu, hc, -, hbefore⟩ := lasts_until (p := fun _ => True) (t := a + 1)
    (fun _ _ _ _ => trivial) trivial hevent
  refine ⟨u, by omega, hc, ?_⟩
  intro v hav hvu
  simpa using (hbefore v (by omega) hvu).2

/-- Up to its completion a read is served. -/
theorem Serving.until {a u : Nat} (h : Serving p inp a (a + 1)) (hau : a < u)
    (hbefore : ∀ v, a < v → v < u → completes p inp v = false) : Serving p inp a u := by
  induction u, hau using Nat.le_induction with
  | base =>
      exact h
  | succ u hau ih =>
      have hserving := ih fun v hav hvu => hbefore v hav (by omega)
      rcases hserving.step with ⟨hc, -⟩ | ⟨-, hgoes⟩
      · rw [hbefore u hau (by omega)] at hc
        cases hc
      · exact hgoes

/-- A valid read gets exactly one completion. -/
theorem answered_once (hack : Acknowledged p inp) (hready : CcReady inp)
    (h : acceptsRead p inp t = true) (hcnt : validDwordCnt (inp t).cq = true) :
    ∃ u, Answers p inp t u ∧
      ∀ v, t < v → v ≠ u → completes p inp v = true → ∃ w, t < w ∧ w < v ∧ accepts p inp w = true := by
  have hstart := Serving.start h hcnt
  obtain ⟨u, htu, hc, hbefore⟩ := hstart.eventually_completes hack hready
  have hserving := hstart.until htu hbefore
  refine ⟨u, hserving.answers hc, ?_⟩
  intro v htv hne hcv
  rcases Nat.lt_trichotomy v u with hlt | heq | hgt
  · rw [hbefore v htv hlt] at hcv
    cases hcv
  · exact absurd heq hne
  · -- after the completion the completer waits until it accepts another request
    by_contra hno
    push Not at hno
    have hwait : (st p inp (u + 1)).state = .waitForReq := by
      rcases hserving.step with ⟨-, hwait⟩ | ⟨hfalse, -⟩
      · exact hwait
      · rw [hc] at hfalse
        cases hfalse
    have hs := waits hwait (show u + 1 ≤ v by omega) (by
      intro w huw hwv
      simpa using hno w (by omega) hwv)
    rw [serves_of_completes hcv] at hs
    cases hs

/-- A read of another length than one or two dwords gets no completion. -/
theorem validDwordCnt_of_oneCompletion (hone : OneCompletionPerRead p inp)
    (h : acceptsRead p inp t = true) : validDwordCnt (inp t).cq = true := by
  by_contra hcnt
  obtain ⟨u, hu, -⟩ := hone.reads t h
  have hparts := h
  simp only [acceptsRead, State.cqTready, Bool.and_eq_true, beq_iff_eq] at hparts
  have hunsupported : (st p inp (t + 1)).state = .sendUnsupportedReq := by
    rw [st_succ, step_state, nextState, hparts.1]
    simp [decodedReq_of_isRead hparts.2, hcnt]
  have hwait : (st p inp (t + 2)).state = .waitForReq := by
    rw [st_succ, step_state, nextState, hunsupported]
  have hsend := serves_of_completes hu.completes
  have htu := hu.lt
  rcases Nat.lt_or_ge u (t + 2) with hlt | hge
  · -- in `S_SEND_UNSUPPORTED_REQ` the CC stream is idle
    obtain rfl : u = t + 1 := by omega
    rw [hunsupported] at hsend
    cases hsend
  · -- afterwards only another request would start a completion
    have hs := waits hwait hge (fun v hv hvu => hu.quiet v (by omega) (by omega))
    rw [hsend] at hs
    cases hs

/-- Every memory read accepted by the completer gets exactly one completion, with its own tag and
requester ID, if and only if all of them ask for one or two dwords: the state for unsupported requests
sends nothing. -/
theorem one_completion_per_read (p : Instance) (inp : Run) (hack : Acknowledged p inp)
    (hready : CcReady inp) :
    OneCompletionPerRead p inp ↔
      ∀ t, acceptsRead p inp t = true → validDwordCnt (inp t).cq = true := by
  constructor
  · intro hone t h
    exact validDwordCnt_of_oneCompletion hone h
  · intro hcnt
    refine ⟨fun t h => answered_once hack hready h (hcnt t h), ?_⟩
    intro u hc
    obtain ⟨a, ha⟩ := serving p inp u (by rw [serves_of_completes hc]; rfl)
    exact ⟨a, ha.lt, ha.read, fun v hav hvu => ha.quiet v hav hvu.le⟩

end Requests

/-! ## One read -/

/-- BAR 0, with cleared registers. -/
def bar0 : Instance where
  bar := 0
  req := .ofBeat noRequest
  cpl := { lowerAddr := 0, byteCnt := 0, data := 0 }

/-- A memory read of `dwords` dwords in cycle 1, acknowledged and accepted without delay. -/
def readOnce (dwords : BitVec 11) : Run := fun t =>
  { cq := if t = 1 then requestBeat memRdReq 0 7 dwords 0x400 0x0f else noRequest
    ccTready := true
    dout := 0
    ack := true }

theorem readOnce_acknowledged (dwords : BitVec 11) : Acknowledged bar0 (readOnce dwords) :=
  fun t _ => ⟨t + 1, by omega, rfl⟩

theorem readOnce_ready (dwords : BitVec 11) : CcReady (readOnce dwords) :=
  fun t => ⟨t, Nat.le_refl t, rfl⟩

/-- A read of one dword is accepted and answered. -/
theorem one_completion_per_read_dword :
    acceptsRead bar0 (readOnce 1) 1 = true ∧ OneCompletionPerRead bar0 (readOnce 1) := by
  refine ⟨by decide, (one_completion_per_read bar0 (readOnce 1) (readOnce_acknowledged 1)
    (readOnce_ready 1)).mpr ?_⟩
  intro t h
  by_cases ht : t = 1
  · subst ht
    decide
  · have hnone : isRead bar0.bar (readOnce 1 t).cq = false := by
      simp only [readOnce, if_neg ht]
      decide
    rw [acceptsRead, hnone, Bool.and_false] at h
    cases h

/-- A read of four dwords is accepted and never answered. -/
theorem read_without_completion :
    Acknowledged bar0 (readOnce 4) ∧ CcReady (readOnce 4) ∧ acceptsRead bar0 (readOnce 4) 1 = true ∧
      ¬ OneCompletionPerRead bar0 (readOnce 4) := by
  refine ⟨readOnce_acknowledged 4, readOnce_ready 4, by decide, ?_⟩
  intro hone
  have hcnt := validDwordCnt_of_oneCompletion hone (t := 1) (by decide)
  revert hcnt
  decide

end Completer
end PcieBench
