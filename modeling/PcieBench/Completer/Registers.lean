import PcieBench.Completer.Requests
import PcieBench.Manager.Logic
import PcieBench.Rq.State

/-!
# The register path of BAR 0

`pcie_completer_to_bram` in front of `dma_sriov_top`, `dma_logic` and `dma_engine_manager`.  The top
level passes on only the accesses from `C_ENGINE_TABLE_OFFSET` on, with sixteen bits of the address;
the manager acknowledges each of them four cycles later, and `dma_logic` acknowledges those of its own
word, the common block, already in the next cycle.  The completer takes any acknowledgement for the
one it waits for.

What the engine does meanwhile (the ends of operations, the measurements) is input of the manager and
arbitrary.
-/

namespace PcieBench
namespace Bar0

open Clocked Tlp
open Completer (FsmState Decoded Request decodedReq validDwordCnt)
open Manager (HostAccess Index Memories engineTableOffset)
open Rq (Params pcieController)

/-! ## The coupled machine -/

/-- The registers of `dma_logic` for the common block. -/
structure Ctrl where
  dout : BitVec 64
  ack : Bool

/-- The registers of the path. -/
structure System where
  completer : Completer.State
  ctrl : Ctrl
  manager : Manager.State

/-- The inputs of the path; the host field of `engine` is not used. -/
structure Input where
  cq : CqBeat
  ccTready : Bool
  engine : Manager.Input

/-- `C_ENGINE_TABLE_OFFSET + C_NUM_ENGINES * C_OFFSET_BETWEEN_ENGINES`. -/
def commonBlock : BitVec 32 := engineTableOffset + 2 * 0x4000

/-- What a read of the common block returns. -/
def commonWord (P : Params) : BitVec 64 :=
  (0#54 ++ 0#3 ++ BitVec.ofInt 3 (P.log2MaxReadRequest - 7) ++
    BitVec.ofInt 3 (P.log2MaxPayload - 7)).setWidth 64

section Coupling

variable (P : Params) (s : System) (i : Input)

/-- The access that leaves `dma_sriov_top`. -/
def System.access : HostAccess where
  en := s.completer.en && decide (engineTableOffset ≤ (s.completer.addr.setWidth 16).setWidth 32)
  addr := s.completer.addr.setWidth 16
  din := s.completer.din
  we := s.completer.we

/-- A write of bit 7 of the common block raises `user_reset_r`, which resets `dma_logic` and itself
at once. -/
def System.userReset : Bool :=
  s.access.en && s.access.we != 0 && decide (s.access.word = commonBlock) &&
    s.access.we.getLsbD 0 && s.access.din.getLsbD 7

def nextCtrl : Ctrl where
  ack := s.access.en && decide (s.access.word = commonBlock)
  dout := if s.access.en && decide (s.access.word = commonBlock) then commonWord P else s.ctrl.dout

/-- The inputs of the manager. -/
def System.managerInput : Manager.Input := { i.engine with host := s.access }

/-- `S_MEM_IFACE_DOUT` and `S_MEM_IFACE_ACK` of `dma_logic`. -/
def System.dout : BitVec 64 := if s.ctrl.ack then s.ctrl.dout else s.manager.dout

def System.ack : Bool := if s.ctrl.ack then s.ctrl.ack else s.manager.read.ack

/-- The inputs of the completer. -/
def System.completerInput : Completer.Input where
  cq := i.cq
  ccTready := i.ccTready
  dout := s.dout
  ack := s.ack

/-- One rising edge; the memories keep their words over a user reset. -/
def step : System where
  completer := Completer.step 0 s.completer (s.completerInput i)
  ctrl := if s.userReset then { dout := 0, ack := false } else nextCtrl P s
  manager :=
    if s.userReset then
      Manager.reset P.windowSize (Manager.step s.manager (s.managerInput i)).memories
    else Manager.step s.manager (s.managerInput i)

end Coupling

/-- The parameters of the design and what the registers without reset hold at the start. -/
structure Instance where
  params : Params
  req : Request
  cpl : Completer.Completion
  memories : Memories

/-- The inputs of a run, one for each cycle after reset. -/
abbrev Run := Nat → Input

/-- The path as a clocked machine. -/
def machine (p : Instance) : Machine System Input where
  reset :=
    { completer := { state := .reset, req := p.req, cpl := p.cpl }
      ctrl := { dout := 0, ack := false }
      manager := Manager.reset p.params.windowSize p.memories }
  step := step p.params

/-- The registers in cycle `t` of a run. -/
def st (p : Instance) (inp : Run) (t : Nat) : System := (machine p).trace inp t

/-- No access of the run asks for a user reset. -/
def NoUserReset (p : Instance) (inp : Run) : Prop := ∀ t, (st p inp t).userReset = false

/-! ## The completer inside the path -/

/-- The word address of a request on its way to `dma_logic`, in the 32 bits of the decoders. -/
def wordAddr (b : CqBeat) : BitVec 32 := ((b.addr.extractLsb' 1 24).setWidth 16).setWidth 32

/-- The request is not held back by `dma_sriov_top`. -/
def forwarded (b : CqBeat) : Bool := decide (engineTableOffset ≤ wordAddr b)

section Runs

variable (p : Instance) (inp : Run) (t : Nat)

/-- What the completer takes in cycle `t`. -/
def taken : Decoded :=
  if (st p inp t).completer.state = .waitForReq then decodedReq 0 (inp t).cq else .noReq

/-- The request taken in cycle `t` reaches `dma_logic`. -/
def sent : Bool :=
  (decide (taken p inp t = .validRdReq) || decide (taken p inp t = .validWrReq)) &&
    forwarded (inp t).cq

/-- An acknowledgement is on its way. -/
def inFlight : Bool :=
  (st p inp t).manager.read.ackPending1 || (st p inp t).manager.read.ackPending2 ||
    (st p inp t).manager.read.ackPending3 || (st p inp t).manager.read.ack || (st p inp t).ctrl.ack

end Runs

section Path

variable {p : Instance} {inp : Run} {t : Nat}

theorem st_succ : st p inp (t + 1) = step p.params (st p inp t) (inp t) := rfl

theorem completer_succ : (st p inp (t + 1)).completer =
    Completer.step 0 (st p inp t).completer ((st p inp t).completerInput (inp t)) := rfl

theorem state_succ : (st p inp (t + 1)).completer.state =
    Completer.nextState 0 (st p inp t).completer ((st p inp t).completerInput (inp t)) := rfl

/-! ## From a request to its access -/

theorem state_of_taken {d : Decoded} (h : taken p inp t = d) (hd : d ≠ .noReq) :
    (st p inp t).completer.state = .waitForReq ∧ decodedReq 0 (inp t).cq = d := by
  unfold taken at h
  split at h
  · rename_i hs
    exact ⟨hs, h⟩
  · exact absurd h.symm hd

/-- The request behind an access. -/
theorem req_of_taken {d : Decoded} (h : taken p inp t = d) (hd : d ≠ .noReq) :
    (st p inp (t + 1)).completer.req = .ofBeat (inp t).cq := by
  obtain ⟨hs, hdecoded⟩ := state_of_taken h hd
  rw [completer_succ, Completer.step_req, Completer.nextReq, if_pos]
  · rfl
  · exact ⟨hs, by rw [System.completerInput, hdecoded]; exact hd⟩

theorem state_of_read (h : taken p inp t = .validRdReq) :
    (st p inp (t + 1)).completer.state = .storeRdReq := by
  obtain ⟨hs, hdecoded⟩ := state_of_taken h (by simp)
  rw [state_succ, Completer.nextState, hs]
  simp only [System.completerInput, hdecoded]

theorem state_of_write (h : taken p inp t = .validWrReq) :
    (st p inp (t + 1)).completer.state = .storeWrReq := by
  obtain ⟨hs, hdecoded⟩ := state_of_taken h (by simp)
  rw [state_succ, Completer.nextState, hs]
  simp only [System.completerInput, hdecoded]

/-- The states of an access come from a request. -/
theorem taken_of_store (h : (st p inp (t + 1)).completer.en = true) :
    taken p inp t = .validRdReq ∨ taken p inp t = .validWrReq := by
  simp only [Completer.State.en, state_succ, Bool.or_eq_true, beq_iff_eq] at h
  unfold taken
  cases hs : (st p inp t).completer.state with
  | waitForReq =>
      simp only [Completer.nextState, hs, System.completerInput] at h
      cases hdecoded : decodedReq 0 (inp t).cq <;> simp_all
  | reset | storeWrReq | storeRdReq | sendUnsupportedReq =>
      simp [Completer.nextState, hs] at h
  | waitForRdCpl =>
      simp only [Completer.nextState, hs] at h
      split at h <;> simp at h
  | sendRdCpl =>
      simp only [Completer.nextState, hs] at h
      split at h <;> simp at h

/-- An access reaches `dma_logic` in the cycle after its request is taken. -/
theorem access_en_succ (p : Instance) (inp : Run) (t : Nat) :
    (st p inp (t + 1)).access.en = sent p inp t := by
  by_cases hen : (st p inp (t + 1)).completer.en = true
  · have htaken := taken_of_store hen
    have hreq : (st p inp (t + 1)).completer.req = .ofBeat (inp t).cq := by
      rcases htaken with h | h
      · exact req_of_taken h (by simp)
      · exact req_of_taken h (by simp)
    have hkind : (decide (taken p inp t = .validRdReq) ||
        decide (taken p inp t = .validWrReq)) = true := by
      simpa using htaken
    rw [System.access, hen, sent, hkind, Completer.State.addr, hreq]
    rfl
  · -- without a valid request the completer does not reach a store state
    have hno : ¬ (taken p inp t = .validRdReq ∨ taken p inp t = .validWrReq) := by
      rintro (h | h)
      · exact hen (by simp [Completer.State.en, state_of_read h])
      · exact hen (by simp [Completer.State.en, state_of_write h])
    rw [not_or] at hno
    simp [System.access, sent, hen, hno]

/-- The word that the access addresses. -/
theorem access_word_succ (h : taken p inp t = .validRdReq) :
    (st p inp (t + 1)).access.word = wordAddr (inp t).cq := by
  rw [HostAccess.word, System.access, Completer.State.addr, req_of_taken h (by simp)]
  rfl

theorem access_en_zero : (st p inp 0).access.en = false := rfl

/-! ## From an access to its acknowledgement -/

variable (hreset : NoUserReset p inp)

include hreset

theorem manager_succ (t : Nat) : (st p inp (t + 1)).manager =
    Manager.step (st p inp t).manager ((st p inp t).managerInput (inp t)) := by
  rw [st_succ]
  exact if_neg (by simp [hreset t])

theorem ctrl_succ (t : Nat) : (st p inp (t + 1)).ctrl = nextCtrl p.params (st p inp t) := by
  rw [st_succ]
  exact if_neg (by simp [hreset t])

theorem ackPending1_eq (t : Nat) :
    (st p inp (t + 2)).manager.read.ackPending1 = sent p inp t := by
  rw [← access_en_succ, manager_succ hreset (t + 1)]
  rfl

theorem ackPending2_eq (t : Nat) :
    (st p inp (t + 3)).manager.read.ackPending2 = sent p inp t := by
  rw [← ackPending1_eq hreset, manager_succ hreset (t + 2)]
  rfl

theorem ackPending3_eq (t : Nat) :
    (st p inp (t + 4)).manager.read.ackPending3 = sent p inp t := by
  rw [← ackPending2_eq hreset, manager_succ hreset (t + 3)]
  rfl

/-- The manager acknowledges an access four cycles after it. -/
theorem managerAck_eq (t : Nat) : (st p inp (t + 5)).manager.read.ack = sent p inp t := by
  rw [← ackPending3_eq hreset, manager_succ hreset (t + 4)]
  rfl

/-- Nothing is on its way right after the reset. -/
theorem early_acks : (∀ t, t < 5 → (st p inp t).manager.read.ack = false) ∧
    (∀ t, t < 4 → (st p inp t).manager.read.ackPending3 = false) ∧
    (∀ t, t < 3 → (st p inp t).manager.read.ackPending2 = false) := by
  have h1 : ∀ t, t < 2 → (st p inp t).manager.read.ackPending1 = false := by
    intro t ht
    match t, ht with
    | 0, _ => rfl
    | 1, _ =>
        rw [manager_succ hreset 0]
        rfl
  have h2 : ∀ t, t < 3 → (st p inp t).manager.read.ackPending2 = false := by
    intro t ht
    match t, ht with
    | 0, _ => rfl
    | t + 1, ht =>
        rw [manager_succ hreset t]
        exact h1 t (by omega)
  have h3 : ∀ t, t < 4 → (st p inp t).manager.read.ackPending3 = false := by
    intro t ht
    match t, ht with
    | 0, _ => rfl
    | t + 1, ht =>
        rw [manager_succ hreset t]
        exact h2 t (by omega)
  refine ⟨?_, h3, h2⟩
  intro t ht
  match t, ht with
  | 0, _ => rfl
  | t + 1, ht =>
      rw [manager_succ hreset t]
      exact h3 t (by omega)

/-- `dma_logic` acknowledges the common block in the next cycle. -/
theorem ctrlAck_of_read {t : Nat} (h : taken p inp t = .validRdReq) :
    (st p inp (t + 2)).ctrl.ack =
      (forwarded (inp t).cq && decide (wordAddr (inp t).cq = commonBlock)) := by
  rw [ctrl_succ hreset (t + 1), nextCtrl, access_en_succ, access_word_succ h, sent, h]
  simp

theorem ctrlAck_of_not_sent {t : Nat} (h : sent p inp t = false) :
    (st p inp (t + 2)).ctrl.ack = false := by
  rw [ctrl_succ hreset (t + 1), nextCtrl, access_en_succ, h]
  rfl

omit hreset

/-! ## What is around a read -/

/-- In the cycle of a request the previous one is over. -/
theorem not_sent_before (h : (st p inp (t + 1)).completer.state = .waitForReq) :
    sent p inp t = false := by
  by_contra hsent
  have hen : (st p inp (t + 1)).completer.en = true := by
    have := access_en_succ p inp t
    rw [Bool.not_eq_false] at hsent
    rw [hsent, System.access] at this
    exact (Bool.and_eq_true _ _ ▸ this).1
  rw [Completer.State.en, h] at hen
  cases hen

/-- Two or three cycles before a request only a write can have been taken. -/
theorem taken_before (hs : (st p inp t).completer.state = .waitForReq) {v : Nat}
    (hv : v + 2 = t ∨ v + 3 = t) : taken p inp v ≠ .validRdReq := by
  intro hread
  have hstore := state_of_read hread
  have hwait : (st p inp (v + 2)).completer.state = .waitForRdCpl := by
    rw [state_succ, Completer.nextState, hstore]
  rcases hv with rfl | rfl
  · rw [hwait] at hs
    cases hs
  · -- from the wait the completer goes on waiting or sends
    rw [state_succ, Completer.nextState, hwait] at hs
    simp only at hs
    split at hs <;> cases hs

/-- A write that reaches `dma_logic` was taken two or three cycles before. -/
def WriteBehind (p : Instance) (inp : Run) (t : Nat) : Prop :=
  ∃ v, (v + 2 = t ∨ v + 3 = t) ∧ taken p inp v = .validWrReq ∧ forwarded (inp v).cq = true

theorem writeBehind_iff (hs : (st p inp t).completer.state = .waitForReq) :
    WriteBehind p inp t ↔ ∃ v, (v + 2 = t ∨ v + 3 = t) ∧ sent p inp v = true := by
  constructor
  · rintro ⟨v, hv, hwrite, hforward⟩
    exact ⟨v, hv, by simp [sent, hwrite, hforward]⟩
  · rintro ⟨v, hv, hsent⟩
    have hread := taken_before hs hv
    simp only [sent, Bool.and_eq_true, Bool.or_eq_true, decide_eq_true_eq] at hsent
    exact ⟨v, hv, hsent.1.resolve_left hread, hsent.2⟩

theorem waits_of_read (h : taken p inp t = .validRdReq) :
    (st p inp (t + 2)).completer.state = .waitForRdCpl := by
  rw [state_succ, Completer.nextState, state_of_read h]

/-- A run starts in state `S_RESET`. -/
theorem pos_of_waitForReq (hs : (st p inp t).completer.state = .waitForReq) : 0 < t := by
  rcases Nat.eq_zero_or_pos t with rfl | hpos
  · cases hs
  · exact hpos

include hreset

/-- In the first cycle of its wait a read has an acknowledgement on its way if it or a write behind it
has reached `dma_logic`. -/
theorem inFlight_of_read (h : taken p inp t = .validRdReq) :
    inFlight p inp (t + 2) = true ↔ forwarded (inp t).cq = true ∨ WriteBehind p inp t := by
  obtain ⟨hs, -⟩ := state_of_taken h (by simp)
  obtain ⟨u, rfl⟩ : ∃ u, t = u + 1 := ⟨t - 1, by have := pos_of_waitForReq hs; omega⟩
  have hown : sent p inp (u + 1) = forwarded (inp (u + 1)).cq := by simp [sent, h]
  have hbefore : sent p inp u = false := not_sent_before hs
  obtain ⟨hearly, hearly3, -⟩ := early_acks hreset
  rw [writeBehind_iff hs, inFlight, ackPending1_eq hreset (u + 1), ackPending2_eq hreset u, hown,
    hbefore, ctrlAck_of_read hreset h]
  constructor
  · intro hflight
    simp only [Bool.or_eq_true, Bool.or_false, Bool.and_eq_true] at hflight
    -- each stage of the pipe holds the access of another cycle
    rcases hflight with ((hforward | hpending) | hack) | hctrl
    · exact .inl hforward
    · -- the access of three cycles before
      cases u with
      | zero =>
          rw [hearly3 _ (by omega)] at hpending
          cases hpending
      | succ v =>
          rw [ackPending3_eq hreset v] at hpending
          exact .inr ⟨v, .inl rfl, hpending⟩
    · -- the access of four cycles before
      rcases Nat.lt_or_ge u 2 with hlt | hge
      · rw [hearly _ (by omega)] at hack
        cases hack
      · obtain ⟨v, rfl⟩ : ∃ v, u = v + 2 := ⟨u - 2, by omega⟩
        rw [managerAck_eq hreset v] at hack
        exact .inr ⟨v, .inr rfl, hack⟩
    · exact .inl hctrl.1
  · rintro (hforward | ⟨v, hv | hv, hsent⟩)
    · simp [hforward]
    · obtain rfl : u = v + 1 := by omega
      simp [ackPending3_eq hreset v, hsent]
    · obtain rfl : u = v + 2 := by omega
      simp [managerAck_eq hreset v, hsent]

/-- While the completer waits, an acknowledgement on its way comes closer. -/
theorem inFlight_succ (hack : (st p inp t).ack = false) (h : inFlight p inp t = true) :
    inFlight p inp (t + 1) = true := by
  simp only [System.ack] at hack
  split at hack
  · rename_i hctrl
    rw [hctrl] at hack
    cases hack
  · rename_i hctrl
    simp only [inFlight, hack, Bool.not_eq_true _ ▸ hctrl, Bool.or_false, Bool.or_eq_true] at h
    simp only [inFlight, manager_succ hreset t, Manager.step_read, Manager.nextRead]
    rcases h with (h1 | h2) | h3
    · simp [h1]
    · simp [h2]
    · simp [h3]

/-- The completer never waits without an acknowledgement on its way, if and only if every read that
`dma_sriov_top` holds back was taken so soon after a write that the acknowledgement of the write
releases it. -/
theorem waiting_acknowledged :
    (∀ t, (st p inp t).completer.state = .waitForRdCpl → inFlight p inp t = true) ↔
      ∀ t, taken p inp t = .validRdReq → forwarded (inp t).cq = true ∨ WriteBehind p inp t := by
  constructor
  · intro hall t h
    exact (inFlight_of_read hreset h).mp (hall (t + 2) (waits_of_read h))
  · intro hall t
    induction t with
    | zero =>
        intro hs
        cases hs
    | succ t ih =>
        intro hs
        have hnext := hs
        rw [state_succ] at hnext
        cases hstate : (st p inp t).completer.state with
        | storeRdReq =>
            -- the first cycle of the wait
            obtain ⟨u, rfl⟩ : ∃ u, t = u + 1 := by
              refine ⟨t - 1, ?_⟩
              rcases Nat.eq_zero_or_pos t with rfl | hpos
              · cases hstate
              · omega
            have hen : (st p inp (u + 1)).completer.en = true := by
              simp [Completer.State.en, hstate]
            have htaken : taken p inp u = .validRdReq := by
              rcases taken_of_store hen with h | h
              · exact h
              · rw [state_of_write h] at hstate
                cases hstate
            exact (inFlight_of_read hreset htaken).mpr (hall u htaken)
        | waitForRdCpl =>
            -- the wait has gone on, so nothing was acknowledged
            refine inFlight_succ hreset ?_ (ih hstate)
            rw [Completer.nextState, hstate] at hnext
            by_contra hack
            rw [Bool.not_eq_false] at hack
            simp [System.completerInput, hack] at hnext
        -- no other state leads into the wait
        | waitForReq =>
            simp only [Completer.nextState, hstate] at hnext
            split at hnext <;> cases hnext
        | sendRdCpl =>
            simp only [Completer.nextState, hstate] at hnext
            split at hnext <;> cases hnext
        | reset | storeWrReq | sendUnsupportedReq =>
            rw [Completer.nextState, hstate] at hnext
            cases hnext

omit hreset

/-! ## One read -/

/-- Without a write to the common block there is no user reset. -/
theorem noUserReset_of_writes
    (h : ∀ t, decodedReq 0 (inp t).cq = .validWrReq → wordAddr (inp t).cq ≠ commonBlock) :
    NoUserReset p inp := by
  intro t
  by_contra hset
  simp only [System.userReset, Bool.not_eq_false, Bool.and_eq_true, bne_iff_ne,
    decide_eq_true_eq] at hset
  obtain ⟨⟨⟨⟨hen, hwe⟩, hword⟩, -⟩, -⟩ := hset
  cases t with
  | zero =>
      rw [access_en_zero] at hen
      cases hen
  | succ t =>
      -- byte enables come with a write only
      have hstore : (st p inp (t + 1)).completer.state = .storeWrReq := by
        by_contra hno
        exact hwe (by rw [System.access, Completer.State.we, if_neg hno])
      have htaken : taken p inp t = .validWrReq := by
        rcases taken_of_store (by rw [Completer.State.en, hstore]; rfl) with hread | hwrite
        · rw [state_of_read hread] at hstore
          cases hstore
        · exact hwrite
      refine h t (state_of_taken htaken (by simp)).2 ?_
      rw [← hword, HostAccess.word, System.access, Completer.State.addr,
        req_of_taken htaken (by simp)]
      rfl

end Path

/-- Memories full of zeros. -/
def blank : Bram Index where
  mem := fun _ => 0
  douta := 0
  latchb := 0
  doutb := 0

/-- The instance of `pcie_controller`, with cleared registers and memories. -/
def cleared : Instance where
  params := pcieController
  req := .ofBeat noRequest
  cpl := { lowerAddr := 0, byteCnt := 0, data := 0 }
  memories :=
    { size := blank
      address := blank
      control := blank
      time := blank
      reqTime := blank
      compTime := blank
      reqBytes := blank
      compBytes := blank }

/-- An engine that does nothing. -/
def quietEngine : Manager.Input where
  host := { en := false, addr := 0, din := 0, we := 0 }
  isEndOfOperation := false
  operationError := false
  byteCount := 0
  updateLatency := false
  current := { time := 0, reqTime := 0, compTime := 0, reqBytes := 0, compBytes := 0 }
  collisions :=
    { size := 0
      address := 0
      control := 0
      statistics := { time := 0, reqTime := 0, compTime := 0, reqBytes := 0, compBytes := 0 } }

/-- The requests of a run by cycle, with a quiet engine and a CC stream that is always ready. -/
def requests (cq : Nat → CqBeat) : Run := fun t =>
  { cq := cq t
    ccTready := true
    engine := quietEngine }

/-- A read of the two dwords at word address `word`, in cycle 1. -/
def readWord (word : BitVec 61) : Nat → CqBeat := fun t =>
  if t = 1 then requestBeat memRdReq 0 7 2 (word ++ 0#1) 0xff else noRequest

/-- The run of one read has no user reset. -/
theorem readWord_noUserReset (word : BitVec 61)
    (h : decodedReq 0 (readWord word 1) = .validRdReq) :
    NoUserReset cleared (requests (readWord word)) := by
  refine noUserReset_of_writes ?_
  intro t hwrite
  by_cases ht : t = 1
  · subst ht
    rw [requests, h] at hwrite
    cases hwrite
  · have hnone : decodedReq 0 (readWord word t) = .noReq := by
      rw [readWord, if_neg ht]
      decide
    rw [requests, hnone] at hwrite
    cases hwrite

/-- A read of the first engine register waits, and is always acknowledged. -/
theorem waiting_acknowledged_register :
    (st cleared (requests (readWord 0x200)) 3).completer.state = .waitForRdCpl ∧
      ∀ t, (st cleared (requests (readWord 0x200)) t).completer.state = .waitForRdCpl →
        inFlight cleared (requests (readWord 0x200)) t = true := by
  refine ⟨by decide, (waiting_acknowledged (readWord_noUserReset 0x200 (by decide))).mpr ?_⟩
  intro t htaken
  by_cases ht : t = 1
  · subst ht
    exact .inl (by decide)
  · have hnone : decodedReq 0 (requests (readWord 0x200) t).cq = .noReq := by
      rw [requests, readWord, if_neg ht]
      decide
    rw [taken, hnone, ite_self] at htaken
    cases htaken

/-- A read below the table of the engine waits, and nothing will acknowledge it. -/
theorem read_below_table_waits :
    NoUserReset cleared (requests (readWord 0)) ∧
      (st cleared (requests (readWord 0)) 3).completer.state = .waitForRdCpl ∧
      inFlight cleared (requests (readWord 0)) 3 = false :=
  ⟨readWord_noUserReset 0 (by decide), by decide, by decide⟩

end Bar0
end PcieBench
