import Mathlib.Tactic.IntervalCases
import PcieBench.Requester.Completions

/-!
# The headers of the completions of BAR 2

The header of a read travels through `d_fifo` to its completion.  Every field fits into the registers on
the way but the lower address: `cpl_addr` has five bits for the seven that come out of the FIFO.
-/

namespace PcieBench
namespace Requester

open Clocked Tlp

/-- The header that the completion of a read of one dword should have. -/
def expectedHeader (b : CqBeat) : CplHeader where
  lowerAddr := b.addr.extractLsb' 0 5 ++ 0#2
  addressType := b.addressType
  byteCnt := 4
  dwordCnt := 1
  reqrId := b.reqrId
  tag := b.tag
  tc := b.tc
  attr := b.attr

/-- The number of the read whose descriptor was loaded last: as many pairs were taken before it. -/
def loaded (p : Instance) (inp : Run) : Nat → Nat
  | 0 => 0
  | t + 1 =>
      if (st p inp t).ccState = .waitForData ∧ (st p inp t).cplDataAvailable (inp t) = true then
        (taken p inp t).length
      else loaded p inp t

/-! ## Through the FIFO -/

/-- The byte count is packed as a constant. -/
theorem load_byteCnt (q : Request) (data : BitVec 32) :
    (Completion.load q.dEntry data).byteCnt = 4 := by
  have hfield : (4#4 ++ 0#1 ++ q.addr.extractLsb' 0 7).extractLsb' 8 4 = 4#4 := by
    apply BitVec.eq_of_getLsbD_eq
    intro k hk
    simp only [BitVec.getLsbD_extractLsb', BitVec.getLsbD_append, hk]
    interval_cases k <;> rfl
  rw [Completion.load, Request.dEntry]
  exact congrArg (BitVec.setWidth 3) hfield

/-- All fields of a read come back but the upper two bits of the lower address. -/
theorem load_header (b : CqBeat) (data : BitVec 32) :
    (Completion.load (Request.ofBeat b).dEntry data).ccBeat.header =
      { expectedHeader b with lowerAddr := (b.addr.extractLsb' 0 3 ++ 0#2).setWidth 7 } := by
  rw [Completion.ccBeat, header_packCompletion, load_byteCnt]
  simp only [expectedHeader, CplHeader.mk.injEq, true_and]
  refine ⟨?_, ?_, rfl, ?_, ?_, ?_, ?_⟩
  all_goals
    apply BitVec.eq_of_getLsbD_eq
    intro k hk
    simp only [Completion.load, Request.dEntry, Request.ofBeat, BitVec.getLsbD_setWidth,
      BitVec.getLsbD_extractLsb', BitVec.getLsbD_append, hk]
    grind

/-- Two bits are lost, so they have to be zero. -/
theorem lowerAddr_eq_iff (b : CqBeat) :
    (b.addr.extractLsb' 0 3 ++ 0#2).setWidth 7 = b.addr.extractLsb' 0 5 ++ 0#2 ↔
      b.addr.extractLsb' 3 2 = 0 := by
  constructor
  · intro h
    apply BitVec.eq_of_getLsbD_eq
    intro k hk
    have hbit := congrArg (fun x : BitVec 7 => x.getLsbD (k + 5)) h
    simp only [BitVec.getLsbD_setWidth, BitVec.getLsbD_append, BitVec.getLsbD_extractLsb'] at hbit ⊢
    interval_cases k <;> simp_all
  · intro h
    apply BitVec.eq_of_getLsbD_eq
    intro k hk
    have hbit : ∀ j, j < 2 → b.addr.getLsbD (3 + j) = false := by
      intro j hj
      have hj' := congrArg (fun x : BitVec 2 => x.getLsbD j) h
      simpa [hj] using hj'
    have h3 := hbit 0 (by omega)
    have h4 := hbit 1 (by omega)
    simp only [BitVec.getLsbD_setWidth, BitVec.getLsbD_append, BitVec.getLsbD_extractLsb']
    interval_cases k <;> simp_all

/-! ## The read of a completion -/

section Runs

variable {p : Instance} {inp : Run} {t : Nat}

/-- The completion in progress was loaded from the pair of its number. -/
theorem cpl_of_taken (hs : (st p inp t).ccState = .sendCpl) :
    ∃ x, (taken p inp t)[loaded p inp t]? = some x ∧ (st p inp t).cpl = .load x.1 x.2 := by
  induction t with
  | zero =>
      cases hs
  | succ t ih =>
      have hnext : (st p inp (t + 1)).ccState = nextCcState (st p inp t) (inp t) := rfl
      have hcpl : (st p inp (t + 1)).cpl = nextCpl (st p inp t) (inp t) := rfl
      have htaken : taken p inp (t + 1) = taken p inp t ++ takes p inp t := by
        rw [taken, collect_succ, Nat.zero_add]
        rfl
      rw [hs] at hnext
      cases hstate : (st p inp t).ccState with
      | reset =>
          rw [nextCcState, hstate] at hnext
          cases hnext
      | waitForData =>
          rw [nextCcState, hstate] at hnext
          rcases takes_cases p inp t with ⟨d, r, havail, hd, hr, htakes⟩ | ⟨havail, -⟩
          · -- the pair is the last one taken
            refine ⟨(d, r), ?_, ?_⟩
            · rw [loaded, if_pos ⟨hstate, havail⟩, htaken, htakes]
              simp
            · rw [hcpl, nextCpl, hstate, hd, hr]
          · simp [havail] at hnext
      | sendCpl =>
          -- while the completion waits, its registers and its number stay
          obtain ⟨x, hx, hload⟩ := ih hstate
          refine ⟨x, ?_, ?_⟩
          · have hkeep : loaded p inp (t + 1) = loaded p inp t := by
              rw [loaded, if_neg (by simp [hstate])]
            rw [hkeep, htaken, List.getElem?_append_left (List.getElem?_eq_some_iff.mp hx).1]
            exact hx
          · rw [hcpl, nextCpl, hstate]
            exact hload

/-- Its descriptor is that of the read with this number. -/
theorem cpl_of_read (hs : (st p inp t).ccState = .sendCpl) :
    ∃ b data, (reads p inp t)[loaded p inp t]? = some b ∧
      (st p inp t).cpl = .load (Request.ofBeat b).dEntry data := by
  obtain ⟨⟨d, r⟩, hx, hload⟩ := cpl_of_taken hs
  obtain ⟨b, hb, rfl⟩ := read_of_taken hx
  exact ⟨b, r, hb, hload⟩

end Runs

/-- Every completion is that of a read, and it has the header of the read exactly if bits 6:5 of the byte
address are zero. -/
theorem header_round_trip (p : Instance) (inp : Run) (t : Nat)
    (hc : (st p inp t).ccTvalid = true) :
    ∃ b, (reads p inp t)[loaded p inp t]? = some b ∧
      ((st p inp t).cpl.ccBeat.header = expectedHeader b ↔ b.addr.extractLsb' 3 2 = 0) := by
  have hs : (st p inp t).ccState = .sendCpl := by
    simpa [State.ccTvalid] using hc
  obtain ⟨b, data, hb, hload⟩ := cpl_of_read hs
  refine ⟨b, hb, ?_⟩
  rw [hload, load_header, ← lowerAddr_eq_iff]
  constructor
  · intro h
    exact congrArg CplHeader.lowerAddr h
  · intro h
    rw [h]
    rfl

theorem header_round_trip_first :
    ∃ b, (reads cleared readsApart 5)[loaded cleared readsApart 5]? = some b ∧
      ((st cleared readsApart 5).cpl.ccBeat.header = expectedHeader b ↔
        b.addr.extractLsb' 3 2 = 0) :=
  header_round_trip cleared readsApart 5 (by decide +kernel)

/-- A read of byte address `0x40` is completed with lower address 0. -/
theorem lower_address_lost :
    (st cleared readsApart 5).ccTvalid = true ∧
      (reads cleared readsApart 5)[loaded cleared readsApart 5]? =
        some (requestBeat memRdReq 2 7 1 0x10 0x0f) ∧
      (st cleared readsApart 5).cpl.ccBeat.header.lowerAddr = 0 ∧
      (expectedHeader (requestBeat memRdReq 2 7 1 0x10 0x0f)).lowerAddr = 0x40 ∧
      (st cleared readsApart 5).cpl.ccBeat.header ≠
        expectedHeader (requestBeat memRdReq 2 7 1 0x10 0x0f) := by
  have hcode : (st cleared readsApart 5).cpl.ccBeat.header.lowerAddr = 0 := by decide +kernel
  have hspec : (expectedHeader (requestBeat memRdReq 2 7 1 0x10 0x0f)).lowerAddr = 0x40 := by
    decide +kernel
  refine ⟨by decide +kernel, by decide +kernel, hcode, hspec, ?_⟩
  intro heq
  rw [heq, hspec] at hcode
  exact absurd hcode (by decide)

end Requester
end PcieBench
