import PcieBench.Rq.Run

/-!
# What one clock edge of dma_rq_logic can do

The FSM, the TLP counters, the pointers and the block addresses are updated by separate `always`
blocks with their own copies of the advance condition.  This module proves once that the copies
agree: from a busy state a clock edge either stalls, opens, continues or ends a memory write TLP,
issues a memory read request, or finishes the operation (`busy_cases`).  Each move lists everything
that happens to these registers; later invariants are proved move by move.
-/

namespace PcieBench
namespace Rq

open Clocked Tlp

section Moves

variable {P : Params}

/-! ## The moves -/

/-- Nothing advances: no `TREADY`, no data, or no free tag. -/
structure Stalls (s : State P) (i : Input P) : Prop where
  state : (step s i).wrState = s.wrState
  load : load s i = []
  wrCount : (step s i).wrCount = s.wrCount
  rdCount : (step s i).rdCount = s.rdCount
  wrPtr : (step s i).wrPtr = s.wrPtr
  rdPtr : (step s i).rdPtr = s.rdPtr
  wrBlock : (step s i).wrBlock = s.wrBlock
  rdBlock : (step s i).rdBlock = s.rdBlock
  c2sRdPtr : (step s i).out.c2sRdPtr = s.out.c2sRdPtr
  ctl : s.wrState = .write → (step s i).ctl = s.ctl

/-- The header of a memory write TLP that needs more beats. -/
structure OpensWrite (s : State P) (i : Input P) : Prop where
  initWrite : s.wrState = .initWrite
  tready : i.axisRqTready = true
  word : s.oneWordAtBuffer = true
  more : s.lastWordAtTlp = false
  state : (step s i).wrState = .write
  load : load s i = [⟨.initWrite, (step s i).beat⟩]
  wrCount : (step s i).wrCount = s.wrCount
  rdCount : (step s i).rdCount = s.rdCount
  wrPtr : (step s i).wrPtr =
    { s.wrPtr with
      remaining := s.wrPtr.remaining - 4
      nextRemainder := s.wrPtr.nextRemainder - 4 }
  rdPtr : (step s i).rdPtr = s.rdPtr
  wrBlock : (step s i).wrBlock = s.wrBlock
  rdBlock : (step s i).rdBlock = s.rdBlock

/-- A payload beat in the middle of a memory write TLP. -/
structure ContinuesWrite (s : State P) (i : Input P) : Prop where
  write : s.wrState = .write
  tready : i.axisRqTready = true
  words : s.twoWordsAtBuffer = true
  more : s.writeEnds = false
  state : (step s i).wrState = .write
  load : load s i = [⟨.write, (step s i).beat⟩]
  wrCount : (step s i).wrCount = s.wrCount
  rdCount : (step s i).rdCount = s.rdCount
  wrPtr : (step s i).wrPtr =
    { s.wrPtr with
      remaining := s.wrPtr.remaining - 8
      nextRemainder := s.wrPtr.nextRemainder - 8 }
  rdPtr : (step s i).rdPtr = s.rdPtr
  wrBlock : (step s i).wrBlock = s.wrBlock
  rdBlock : (step s i).rdBlock = s.rdBlock

/-- The last beat of a memory write TLP, which may be its header. -/
structure EndsWrite (s : State P) (i : Input P) : Prop where
  ends : (s.wrState = .initWrite ∧ s.oneWordAtBuffer = true ∧ s.lastWordAtTlp = true) ∨
    (s.wrState = .write ∧ s.writeEnds = true)
  tready : i.axisRqTready = true
  state : (step s i).wrState = afterWrite s i
  load : load s i = [⟨s.wrState, (step s i).beat⟩]
  wrCount : (step s i).wrCount = s.wrCount.next s.bounds.wrNumberEven
  rdCount : (step s i).rdCount = s.rdCount
  wrPtr : (step s i).wrPtr = WrPointer.next s i s.wrPtr
  rdPtr : (step s i).rdPtr = s.rdPtr
  wrBlock : (step s i).wrBlock =
    if s.bounds.wrNumberEven = s.wrCount.modulus then s.wrBlock.advance i.cfg s.random.addressWr
    else s.wrBlock
  rdBlock : (step s i).rdBlock = s.rdBlock

/-- A memory read request. -/
structure IssuesRead (s : State P) (i : Input P) : Prop where
  initRead : s.wrState = .initRead
  tready : i.axisRqTready = true
  available : s.tagAvailable = true
  state : (step s i).wrState =
    if s.bounds.rdTotal ≤ s.rdCount.current then .waitRead
    else if i.cfg.capWrite = true ∧ s.bounds.rdNumberEven = s.rdCount.modulus then .initWrite
    else .initRead
  load : load s i = [⟨.initRead, (step s i).beat⟩]
  wrCount : (step s i).wrCount = s.wrCount
  rdCount : (step s i).rdCount = s.rdCount.next s.bounds.rdNumberEven
  wrPtr : (step s i).wrPtr = s.wrPtr
  rdAddr : (step s i).rdPtr.addr =
    if s.bounds.rdNumberEven = s.rdCount.modulus then s.txRdAddr i.cfg
    else s.rdPtr.addr + (((s.currentRdTlpWords i.cfg).setWidth 11).setWidth 64 <<< 2)
  rdRemaining : (step s i).rdPtr.remaining =
    if s.bounds.rdNumberEven = s.rdCount.modulus + 1 ∨ s.bounds.rdNumberEven = 1 then
      s.bounds.rdOddWords.setWidth 64
    else if i.cfg.capWrite then maxWordsTlp P
    else maxWordsReadRequest P
  wrBlock : (step s i).wrBlock = s.wrBlock
  rdBlock : (step s i).rdBlock =
    if s.bounds.rdNumberEven = s.rdCount.modulus then s.rdBlock.advance i.cfg s.random.addressRd
    else s.rdBlock

/-- The end of an operation with the read capability. -/
structure Finishes (s : State P) (i : Input P) : Prop where
  waitRead : s.wrState = .waitRead
  finished : s.endOfOperation = true
  state : (step s i).wrState = .idle
  load : load s i = []
  wrCount : (step s i).wrCount = s.wrCount
  rdCount : (step s i).rdCount = s.rdCount
  wrPtr : (step s i).wrPtr = s.wrPtr
  rdPtr : (step s i).rdPtr = s.rdPtr
  wrBlock : (step s i).wrBlock = s.wrBlock
  rdBlock : (step s i).rdBlock = s.rdBlock

/-! ## Every busy state makes one of the moves -/

theorem initWrite_cases {s : State P} {i : Input P} (hs : s.wrState = .initWrite) :
    Stalls s i ∨ OpensWrite s i ∨ EndsWrite s i := by
  cases hr : i.axisRqTready with
  | false =>
      left
      constructor <;>
        simp [load, nextWrState, nextWrCount, nextRdCount, nextWrPtr, nextRdPtr, nextWrBlock,
          nextRdBlock, nextOut, nextCtl, hs, hr]
  | true =>
      cases h1 : s.oneWordAtBuffer with
      | false =>
          left
          constructor <;>
            simp [load, nextWrState, nextWrCount, nextRdCount, nextWrPtr, nextRdPtr, nextWrBlock,
              nextRdBlock, nextOut, hs, hr, h1]
      | true =>
          right
          cases h2 : s.lastWordAtTlp with
          | false =>
              left
              constructor <;>
                simp [load, nextWrState, nextWrCount, nextRdCount, nextWrPtr, nextRdPtr,
                  nextWrBlock, nextRdBlock, nextOut, hs, hr, h1, h2]
          | true =>
              right
              constructor <;>
                simp [load, nextWrState, nextWrCount, nextRdCount, nextWrPtr, nextRdPtr,
                  nextWrBlock, nextRdBlock, nextOut, hs, hr, h1, h2]

theorem write_cases {s : State P} {i : Input P} (hs : s.wrState = .write) :
    Stalls s i ∨ ContinuesWrite s i ∨ EndsWrite s i := by
  cases hr : i.axisRqTready with
  | false =>
      left
      constructor <;>
        simp [load, nextWrState, nextWrCount, nextRdCount, nextWrPtr, nextRdPtr, nextWrBlock,
          nextRdBlock, nextOut, nextCtl, hs, hr]
  | true =>
      cases he : s.writeEnds with
      | true =>
          right
          right
          -- the data process tests the two ways to end in its own order
          have hvalid : (nextOut s i).tvalid = true := by
            cases h2 : (s.oneWordAtBuffer && s.lastWordAtTlp) with
            | true =>
                simp [nextOut, hs, hr, h2]
            | false =>
                have h3 : s.twoWordsAtBuffer = true := by
                  simp only [State.writeEnds, h2] at he
                  simp at he
                  exact he.1
                simp [nextOut, hs, hr, h2, h3]
          constructor <;>
            simp [load, nextWrState, nextWrCount, nextRdCount, nextWrPtr, nextRdPtr, nextWrBlock,
              nextRdBlock, hs, hr, he, hvalid]
      | false =>
          have h1 : (s.oneWordAtBuffer && s.lastWordAtTlp) = false := by
            simp only [State.writeEnds, Bool.or_eq_false_iff] at he
            exact he.2
          cases h2 : s.twoWordsAtBuffer with
          | true =>
              right
              left
              constructor <;>
                simp [load, nextWrState, nextWrCount, nextRdCount, nextWrPtr, nextRdPtr,
                  nextWrBlock, nextRdBlock, nextOut, hs, hr, he, h1, h2]
          | false =>
              left
              constructor <;>
                simp [load, nextWrState, nextWrCount, nextRdCount, nextWrPtr, nextRdPtr,
                  nextWrBlock, nextRdBlock, nextOut, nextCtl, hs, hr, he, h1, h2]

theorem initRead_cases {s : State P} {i : Input P} (hs : s.wrState = .initRead) :
    Stalls s i ∨ IssuesRead s i := by
  cases hr : i.axisRqTready with
  | false =>
      left
      constructor <;>
        simp [load, nextWrState, nextWrCount, nextRdCount, nextWrPtr, nextRdPtr, nextWrBlock,
          nextRdBlock, nextOut, nextCtl, hs, hr]
  | true =>
      cases ha : s.tagAvailable with
      | false =>
          left
          constructor <;>
            simp [load, nextWrState, nextWrCount, nextRdCount, nextWrPtr, nextRdPtr, nextWrBlock,
              nextRdBlock, nextOut, hs, hr, ha]
      | true =>
          right
          constructor <;>
            simp [load, nextWrState, nextWrCount, nextRdCount, nextWrPtr, nextRdPtr, nextWrBlock,
              nextRdBlock, nextOut, hs, hr, ha]

theorem waitRead_cases {s : State P} {i : Input P} (hs : s.wrState = .waitRead) :
    Stalls s i ∨ Finishes s i := by
  have hptr : (nextOut s i).c2sRdPtr = s.out.c2sRdPtr := by
    cases hr : i.axisRqTready <;> simp [nextOut, hs, hr]
  cases he : s.endOfOperation with
  | false =>
      left
      constructor <;>
        simp [load_waitRead hs, nextWrState, nextWrCount, nextRdCount, nextWrPtr, nextRdPtr,
          nextWrBlock, nextRdBlock, hs, he, hptr]
  | true =>
      right
      constructor <;>
        simp [load_waitRead hs, nextWrState, nextWrCount, nextRdCount, nextWrPtr, nextRdPtr,
          nextWrBlock, nextRdBlock, hs, he]

/-- The moves of a busy FSM. -/
theorem busy_cases {s : State P} (i : Input P) (hs : s.wrState ≠ .idle) :
    Stalls s i ∨ OpensWrite s i ∨ ContinuesWrite s i ∨ EndsWrite s i ∨ IssuesRead s i ∨
      Finishes s i := by
  cases h : s.wrState with
  | idle =>
      exact absurd h hs
  | initWrite =>
      rcases initWrite_cases (i := i) h with hm | hm | hm <;> simp [hm]
  | write =>
      rcases write_cases (i := i) h with hm | hm | hm <;> simp [hm]
  | initRead =>
      rcases initRead_cases (i := i) h with hm | hm <;> simp [hm]
  | waitRead =>
      rcases waitRead_cases (i := i) h with hm | hm <;> simp [hm]

/-- A memory write TLP leads to a header, to reads or to the end, never into its own middle. -/
theorem afterWrite_cases (s : State P) (i : Input P) :
    afterWrite s i = .idle ∨ afterWrite s i = .initWrite ∨ afterWrite s i = .initRead := by
  unfold afterWrite
  split
  · split
    · simp
    · split <;> simp
  · simp

theorem afterWrite_idle {s : State P} {i : Input P} (h : afterWrite s i = .idle) :
    i.cfg.capRead = false := by
  unfold afterWrite at h
  split at h
  · split at h
    · cases h
    · rename_i hread
      simpa using hread
  · cases h

theorem afterWrite_initRead {s : State P} {i : Input P} (h : afterWrite s i = .initRead) :
    i.cfg.capRead = true := by
  unfold afterWrite at h
  split at h
  · split at h
    · assumption
    · split at h <;> cases h
  · cases h

/-! ## Where the moves come from and lead to -/

theorem EndsWrite.origin {s : State P} {i : Input P} (hm : EndsWrite s i) :
    s.wrState = .initWrite ∨ s.wrState = .write := by
  rcases hm.ends with ⟨hinit, -, -⟩ | ⟨hwrite, -⟩
  · exact .inl hinit
  · exact .inr hwrite

theorem EndsWrite.ne_write {s : State P} {i : Input P} (hm : EndsWrite s i) :
    (step s i).wrState ≠ .write := by
  rw [hm.state]
  rcases afterWrite_cases s i with ha | ha | ha <;> simp [ha]

theorem IssuesRead.state_cases {s : State P} {i : Input P} (hm : IssuesRead s i) :
    (step s i).wrState = .waitRead ∨ (step s i).wrState = .initWrite ∨
      (step s i).wrState = .initRead := by
  rw [hm.state]
  split
  · simp
  · split <;> simp

theorem IssuesRead.ne_write {s : State P} {i : Input P} (hm : IssuesRead s i) :
    (step s i).wrState ≠ .write := by
  rcases hm.state_cases with h | h | h <;> rw [h] <;> simp

theorem IssuesRead.ne_idle {s : State P} {i : Input P} (hm : IssuesRead s i) :
    (step s i).wrState ≠ .idle := by
  rcases hm.state_cases with h | h | h <;> rw [h] <;> simp

/-- State `WRITE` is only entered with a header beat. -/
theorem step_write_cases {s : State P} {i : Input P} (h : (step s i).wrState = .write) :
    OpensWrite s i ∨ ContinuesWrite s i ∨ (s.wrState = .write ∧ Stalls s i) := by
  by_cases hs : s.wrState = .idle
  · simp only [step_wrState, nextWrState, hs] at h
    split at h
    · cases h
    · split at h <;> cases h
  · rcases busy_cases i hs with hm | hm | hm | hm | hm | hm
    · exact .inr (.inr ⟨by rw [← hm.state, h], hm⟩)
    · exact .inl hm
    · exact .inr (.inl hm)
    · exact absurd h hm.ne_write
    · exact absurd h hm.ne_write
    · -- the end of the operation
      rw [hm.state] at h
      cases h

/-- The FSM becomes idle behind a memory write if there are no reads, and else with `WAIT_READ`. -/
theorem step_idle_cases {s : State P} {i : Input P} (hs : s.wrState ≠ .idle)
    (h : (step s i).wrState = .idle) :
    (EndsWrite s i ∧ i.cfg.capRead = false) ∨ Finishes s i := by
  rcases busy_cases i hs with hm | hm | hm | hm | hm | hm
  · exact absurd (hm.state.symm.trans h) hs
  · -- the header of a memory write
    rw [hm.state] at h
    cases h
  · -- a payload beat in the middle of a TLP
    rw [hm.state] at h
    cases h
  · -- the last beat of a memory write
    rw [hm.state] at h
    exact .inl ⟨hm, afterWrite_idle h⟩
  · exact absurd h hm.ne_idle
  · exact .inr hm

/-- `WAIT_READ` is entered with the last memory read request. -/
theorem step_waitRead_cases {s : State P} {i : Input P} (h : (step s i).wrState = .waitRead) :
    (s.wrState = .waitRead ∧ Stalls s i) ∨
      (IssuesRead s i ∧ s.bounds.rdTotal ≤ s.rdCount.current) := by
  by_cases hs : s.wrState = .idle
  · simp only [step_wrState, nextWrState, hs] at h
    split at h
    · cases h
    · split at h <;> cases h
  · rcases busy_cases i hs with hm | hm | hm | hm | hm | hm
    · exact .inl ⟨hm.state.symm.trans h, hm⟩
    · -- the header of a memory write
      rw [hm.state] at h
      cases h
    · -- a payload beat in the middle of a TLP
      rw [hm.state] at h
      cases h
    · -- the last beat of a memory write
      rw [hm.state] at h
      rcases afterWrite_cases s i with ha | ha | ha <;> rw [ha] at h <;> cases h
    · -- a memory read request
      refine .inr ⟨hm, ?_⟩
      by_contra hlast
      rw [hm.state, if_neg hlast] at h
      split at h <;> cases h
    · -- the end of the operation
      rw [hm.state] at h
      cases h

/-! ## Between two operations -/

/-- An operation only starts when nothing blocks it. -/
theorem stays_idle {s : State P} {i : Input P} (hs : s.wrState = .idle)
    (hblock : i.axisRqTready = false ∨ i.engineValid = false ∨ s.endOfOperationR = true ∨
      s.endOfOperation = true) : (step s i).wrState = .idle := by
  rcases hblock with h | h | h | h <;> simp [nextWrState, startsWith, hs, h]

/-- When nothing blocks it and there is a direction, an operation starts. -/
theorem leaves_idle {s : State P} {i : Input P} (hs : s.wrState = .idle)
    (hready : i.axisRqTready = true) (hvalid : i.engineValid = true)
    (hendR : s.endOfOperationR = false) (hend : s.endOfOperation = false)
    (hcap : i.cfg.capWrite = true ∨ i.cfg.capRead = true) : (step s i).wrState ≠ .idle := by
  simp only [step_wrState, nextWrState, hs, startsWith, hready, hvalid, hendR, hend]
  rcases hcap with h | h <;> cases hw : i.cfg.capWrite <;> simp [h, hw] at *

/-- An operation that starts finds the guard of every direction open. -/
theorem startsWith_of_leaves {s : State P} {i : Input P} (hs : s.wrState = .idle)
    (h : (step s i).wrState ≠ .idle) : startsWith s i true = true := by
  by_contra hno
  have hblocked : ∀ cap, startsWith s i cap = false := by
    intro cap
    cases cap with
    | false => simp [startsWith]
    | true => simpa using hno
  apply h
  simp [nextWrState, hs, hblocked]

theorem tready_of_startsWith {s : State P} {i : Input P} {cap : Bool}
    (h : startsWith s i cap = true) : i.axisRqTready = true := by
  simp only [startsWith, Bool.and_eq_true] at h
  exact h.1.1.1.1

/-- What the cycle that leaves `IDLE` needs, and the state it leads to. -/
structure Begins (s : State P) (i : Input P) : Prop where
  tready : i.axisRqTready = true
  ended : s.endOfOperation = false
  next : (i.cfg.capWrite = true ∧ (step s i).wrState = .initWrite) ∨
    (i.cfg.capWrite = false ∧ i.cfg.capRead = true ∧ (step s i).wrState = .initRead)

theorem begins_of_leaves {s : State P} {i : Input P} (hs : s.wrState = .idle)
    (h : (step s i).wrState ≠ .idle) : Begins s i := by
  have hstarts := startsWith_of_leaves hs h
  have hblocked : startsWith s i false = false := by simp [startsWith]
  have hend : s.endOfOperation = false := by
    simp only [startsWith, Bool.and_eq_true, Bool.not_eq_true'] at hstarts
    exact hstarts.2
  refine ⟨tready_of_startsWith hstarts, hend, ?_⟩
  simp only [step_wrState, nextWrState, hs] at h ⊢
  cases hw : i.cfg.capWrite with
  | true =>
      exact .inl ⟨rfl, by rw [hstarts]; rfl⟩
  | false =>
      cases hr : i.cfg.capRead with
      | true =>
          exact .inr ⟨rfl, rfl, by rw [hstarts, hblocked]; rfl⟩
      | false =>
          -- without a capability nothing starts
          rw [hw, hr, hblocked] at h
          exact absurd rfl h

/-- The end of an operation is kept until the engine is not valid any more. -/
theorem endOfOperationR_succ (s : State P) (i : Input P) :
    (step s i).endOfOperationR = (s.endOfOperation || (i.engineValid && s.endOfOperationR)) := by
  cases h : i.engineValid <;> simp [nextEndOfOperationR, h]

/-- An operation ends in `IDLE` or in `WAIT_READ`. -/
theorem idle_or_waitRead_of_end {s : State P} (h : s.endOfOperation = true) :
    s.wrState = .idle ∨ s.wrState = .waitRead := by
  simp only [State.endOfOperation, Bool.or_eq_true, Bool.and_eq_true, decide_eq_true_eq] at h
  rcases h with ⟨hwait, -⟩ | ⟨hidle, -⟩
  · exact .inr hwait
  · exact .inl hidle

/-- In an idle state after an idle one no operation ends. -/
theorem endOfOperation_of_idle {s : State P} {i : Input P} (hs : s.wrState = .idle)
    (hs' : (step s i).wrState = .idle) : (step s i).endOfOperation = false := by
  rw [step_wrState] at hs'
  simp [State.endOfOperation, hs, hs']

/-- The end of an operation lasts one cycle, and the FSM is idle after it. -/
theorem endOfOperation_once {s : State P} (h : s.endOfOperation = true) (i : Input P) :
    (step s i).wrState = .idle ∧ (step s i).endOfOperation = false := by
  rcases idle_or_waitRead_of_end h with hidle | hwait
  · have hs' := stays_idle (i := i) hidle (.inr (.inr (.inr h)))
    exact ⟨hs', endOfOperation_of_idle hidle hs'⟩
  · have hs' : (step s i).wrState = .idle := by
      simp [nextWrState, hwait, h]
    refine ⟨hs', ?_⟩
    rw [step_wrState] at hs'
    simp [State.endOfOperation, hwait, hs']

/-- The end announced by a busy state is the one of `WAIT_READ`. -/
theorem finishes_of_end {s : State P} (h : s.endOfOperation = true) (hs : s.wrState ≠ .idle)
    (i : Input P) : Finishes s i := by
  have hwait : s.wrState = .waitRead := by
    rcases idle_or_waitRead_of_end h with hidle | hwait
    · exact absurd hidle hs
    · exact hwait
  rcases waitRead_cases (i := i) hwait with hm | hm
  · exact absurd (hm.state.symm.trans (endOfOperation_once h i).1) hs
  · exact hm

/-- While an operation goes on it has not ended. -/
theorem endOfOperation_of_busy {s : State P} {i : Input P}
    (hs' : (step s i).wrState ≠ .idle) : s.endOfOperation = false := by
  by_contra h
  exact hs' (endOfOperation_once (by simpa using h) i).1

/-- The last busy cycle of an operation, or the idle one after it, announces its end. -/
theorem endOfOperation_of_leaving {s : State P} {i : Input P} (hs : s.wrState ≠ .idle)
    (hs' : (step s i).wrState = .idle) :
    s.endOfOperation = true ∨ (s.endOfOperation = false ∧ (step s i).endOfOperation = true) := by
  cases hend : s.endOfOperation with
  | true =>
      exact .inl rfl
  | false =>
      refine .inr ⟨rfl, ?_⟩
      have hpipe : s.wrState = .initWrite ∨ s.wrState = .write := by
        rcases step_idle_cases hs hs' with ⟨hm, -⟩ | hm
        · exact hm.origin
        · rw [hm.finished] at hend
          cases hend
      rw [step_wrState] at hs'
      rcases hpipe with h | h <;> simp [State.endOfOperation, hs', h]

end Moves

end Rq
end PcieBench
