import PcieBench.Clocked.Stutter
import PcieBench.Rq.Addresses

/-!
# What an operation sends, without time

When `TREADY`, the words of the C2S FIFO and the completions arrive decides when a beat is sent, and
nothing else.  For memory writes alone and for memory reads alone this module describes the beats by a
generator that has no environment: the position in the block and in the TLP, the registers of the
address generator and, for writes, the number of words sent so far.  Every run of the module stutters
over its generator, and so any two runs send the same beats.

Random addresses are left out: their generator runs freely and depends on the time.
-/

namespace PcieBench
namespace Rq

open Clocked Tlp

section Untimed

variable {P : Params}

/-! ## Memory writes -/

/-- Where a sequence of memory writes has come to: inside a TLP or at its header, the TLP, its address
and the dwords that are left of it, the next block, and the words sent so far. -/
structure WriteView where
  inside : Bool
  count : TlpCount
  addr : BitVec 64
  remaining : BitVec 64
  block : BlockAddr
  carried : Nat

namespace WriteView

variable (P) (cfg : Config) (words : Nat → BitVec 128)

/-- The header of the first TLP of an operation. -/
def start (carried : Nat) : WriteView where
  inside := false
  count := TlpCount.first
  addr := cfg.addrAtDescriptor
  remaining := if cfg.sizeWords ≤ maxWordsTlp P then cfg.sizeWords else maxWordsTlp P
  block := BlockAddr.prepare true cfg 0
  carried := carried

variable (a : WriteView)

/-- The dwords of the current TLP. -/
def dwords : BitVec 32 :=
  if (nextBounds P cfg).wrNumberEven = a.count.modulus then (nextBounds P cfg).wrOddWords
  else (maxWordsTlp P).setWidth 32

/-- The TLP ends with a beat of `sent` words: the next TLP, or the next operation. -/
def finish (sent : Nat) : WriteView :=
  if (nextBounds P cfg).wrNumberEven = a.count.modulus ∧
      (nextBounds P cfg).wrTotal ≤ a.count.current then start P cfg (a.carried + sent)
  else
    { inside := false
      count := a.count.next (nextBounds P cfg).wrNumberEven
      addr :=
        if (nextBounds P cfg).wrNumberEven = a.count.modulus then cfg.nextBase a.block
        else a.addr + (((a.dwords P cfg).setWidth 11).setWidth 64 <<< 2)
      remaining :=
        if (nextBounds P cfg).wrNumberEven = a.count.modulus + 1 ∨
            (nextBounds P cfg).wrNumberEven = 1 then (nextBounds P cfg).wrOddWords.setWidth 64
        else maxWordsTlp P
      block :=
        if (nextBounds P cfg).wrNumberEven = a.count.modulus then a.block.advance cfg 0 else a.block
      carried := a.carried + sent }

/-- One beat further. -/
def next : WriteView :=
  -- `WRITE` sends two words a beat and one if no more are left, `INIT_WRITE` one behind the header
  if a.inside then
    if a.remaining ≤ 4 then a.finish P cfg 1
    else if a.remaining ≤ 8 then a.finish P cfg 2
    else { a with remaining := a.remaining - 8, carried := a.carried + 2 }
  else
    if a.remaining ≤ 4 then a.finish P cfg 1
    else { a with inside := true, remaining := a.remaining - 4, carried := a.carried + 1 }

/-- The header beat, with the first word of the payload. -/
def headerBeat : Beat where
  tdataHi := words a.carried
  tdataLo := packDescriptor ((a.count.current - 1).setWidth 8) memoryWrite
    ((a.dwords P cfg).setWidth 11) a.addr
  tkeep := if a.remaining ≤ 4 then headerKeep (a.remaining.setWidth 4) else 0xff
  tlast := decide (a.remaining ≤ 4)
  firstBe := 0xf
  lastBe := if a.remaining ≤ 1 then 0 else 0xf

/-- A payload beat of one or two words. -/
def payloadBeat : Beat where
  -- the source clears the upper half when only one word is left
  tdataHi := if a.remaining ≤ 4 then 0 else words (a.carried + 1)
  tdataLo := words a.carried
  tkeep := if a.remaining ≤ 8 then payloadKeep (a.remaining.setWidth 4) else 0xff
  tlast := decide (a.remaining ≤ 8)
  firstBe := 0xf
  lastBe := 0xf

/-- The next beat. -/
def beat : Sent :=
  if a.inside then ⟨.write, a.payloadBeat words⟩ else ⟨.initWrite, a.headerBeat P cfg words⟩

end WriteView

/-- A busy state of a write-only operation stands for `a`. -/
structure WriteView.Runs (cfg : Config) (s : State P) (a : WriteView) : Prop where
  state : s.wrState = if a.inside then .write else .initWrite
  byteEnables : a.inside = true → s.ctl.firstBe = 0xf ∧ s.ctl.lastBe = 0xf
  count : s.wrCount = a.count
  addr : s.wrPtr.addr = a.addr
  remaining : s.wrPtr.remaining = a.remaining
  block : s.wrBlock.Agrees a.block

/-- An idle state stands for the start of the next operation. -/
def WriteView.Stands (cfg : Config) (s : State P) (a : WriteView) : Prop :=
  (s.wrState = .idle ∧ a = WriteView.start P cfg a.carried) ∨ a.Runs cfg s

/-- The registers that follow the configuration with one cycle of delay. -/
structure Settled (cfg : Config) (s : State P) (i : Input P) : Prop where
  cfg_eq : i.cfg = cfg
  bounds : s.bounds = nextBounds P cfg
  txFixWr : s.txFixWr = cfg.addrAtDescriptor + cfg.addressGenOffset
  txFixRd : s.txFixRd = cfg.addrAtDescriptor + cfg.addressGenOffset

variable {cfg : Config} {words : Nat → BitVec 128} {s : State P} {i : Input P} {a : WriteView}

namespace WriteView

theorem Runs.ne_idle (h : a.Runs cfg s) : s.wrState ≠ .idle := by
  rw [h.state]
  split <;> simp

theorem Runs.inside_iff (h : a.Runs cfg s) : a.inside = true ↔ s.wrState = .write := by
  rw [h.state]
  cases a.inside <;> simp

theorem Runs.lastWord (h : a.Runs cfg s) : s.lastWordAtTlp = decide (a.remaining ≤ 4) := by
  rw [State.lastWordAtTlp, h.remaining]

theorem Runs.lastTwoWords (h : a.Runs cfg s) : s.lastTwoWordsAtTlp = decide (a.remaining ≤ 8) := by
  rw [State.lastTwoWordsAtTlp, h.remaining]

theorem Runs.dwords_eq (h : a.Runs cfg s) (hset : Settled cfg s i) :
    s.currentWrTlpWords = a.dwords P cfg := by
  rw [State.currentWrTlpWords, WriteView.dwords, hset.bounds, h.count]

/-- A cycle without a beat leaves the operation where it is. -/
theorem Runs.stalls (h : a.Runs cfg s) (hm : Stalls s i) : a.Runs cfg (step s i) := by
  refine ⟨by rw [hm.state]; exact h.state, ?_, by rw [hm.wrCount]; exact h.count,
    by rw [hm.wrPtr]; exact h.addr, by rw [hm.wrPtr]; exact h.remaining,
    by rw [hm.wrBlock]; exact h.block⟩
  intro hin
  rw [hm.ctl (h.inside_iff.mp hin)]
  exact h.byteEnables hin

/-- The header beat. -/
theorem Runs.header_eq (h : a.Runs cfg s) (hset : Settled cfg s i) (hp : PointerInv s)
    (hs : s.wrState = .initWrite) (hready : i.axisRqTready = true) (hone : s.oneWordAtBuffer = true)
    (hword : s.c2sWord s.out.c2sRdPtr = words a.carried) :
    (step s i).beat = a.headerBeat P cfg words := by
  have htag : s.c2sRqTag = (a.count.current - 1).setWidth 8 := by
    rw [State.c2sRqTag, h.count]
  have hremainder : s.wrPtr.nextRemainder = a.remaining.setWidth 4 := by
    rw [hp.remainder, h.remaining]
  simp [State.beat, headerBeat, nextOut, nextCtl, hs, hready, hone, hword, htag, hremainder,
    h.dwords_eq hset, h.addr, h.remaining, h.lastWord]

/-- The payload beat. -/
theorem Runs.payload_eq (h : a.Runs cfg s) (hp : PointerInv s) (hs : s.wrState = .write)
    (hready : i.axisRqTready = true) (hin : a.inside = true)
    (hone : a.remaining ≤ 4 → s.oneWordAtBuffer = true)
    (htwo : ¬ a.remaining ≤ 4 → s.twoWordsAtBuffer = true)
    (hlo : s.c2sWord s.out.c2sRdPtr = words a.carried)
    (hhi : ¬ a.remaining ≤ 4 → s.c2sWord (s.out.c2sRdPtr + 1#5) = words (a.carried + 1)) :
    (step s i).beat = a.payloadBeat words := by
  obtain ⟨hfirst, hlast⟩ := h.byteEnables hin
  have hremainder : s.wrPtr.nextRemainder = a.remaining.setWidth 4 := by
    rw [hp.remainder, h.remaining]
  by_cases h4 : a.remaining ≤ 4
  · -- the last word of the TLP travels alone
    have h8 : a.remaining ≤ 8 := by bv_omega
    have hword : s.lastWordAtTlp = true := h.lastWord.trans (decide_eq_true h4)
    have hwords : s.lastTwoWordsAtTlp = true := h.lastTwoWords.trans (decide_eq_true h8)
    have hends : s.writeEnds = true := by simp [State.writeEnds, hone h4, hword]
    rw [payloadBeat, if_pos h4, if_pos h8, decide_eq_true h8]
    simp [State.beat, nextOut, nextCtl, hs, hready, hone h4, hends, hword, hwords, hlo, hremainder,
      hfirst, hlast]
  · have hword : s.lastWordAtTlp = false := h.lastWord.trans (decide_eq_false h4)
    rw [payloadBeat, if_neg h4]
    by_cases h8 : a.remaining ≤ 8
    · have hwords : s.lastTwoWordsAtTlp = true := h.lastTwoWords.trans (decide_eq_true h8)
      have hends : s.writeEnds = true := by simp [State.writeEnds, htwo h4, hwords]
      rw [if_pos h8, decide_eq_true h8]
      simp [State.beat, nextOut, nextCtl, hs, hready, htwo h4, hends, hword, hwords, hlo, hhi h4,
        hremainder, hfirst, hlast]
    · have hwords : s.lastTwoWordsAtTlp = false := h.lastTwoWords.trans (decide_eq_false h8)
      have hends : s.writeEnds = false := by simp [State.writeEnds, hword, hwords]
      rw [if_neg h8, decide_eq_false h8]
      simp [State.beat, nextOut, nextCtl, hs, hready, htwo h4, hends, hword, hlo, hhi h4, hfirst, hlast,
        hp.keep hs, hp.last hs]

/-- The header of a TLP with more beats. -/
theorem Runs.opens (h : a.Runs cfg s) (hm : OpensWrite s i) : (a.next P cfg).Runs cfg (step s i) := by
  have hout : ¬ a.inside = true := by
    rw [h.inside_iff, hm.initWrite]
    simp
  have hmore : ¬ a.remaining ≤ 4 := by simpa [h.lastWord] using hm.more
  rw [next, if_neg hout, if_neg hmore]
  refine ⟨hm.state, ?_, by rw [hm.wrCount]; exact h.count, by rw [hm.wrPtr]; exact h.addr, ?_,
    by rw [hm.wrBlock]; exact h.block⟩
  · intro _
    have h1 : ¬ s.wrPtr.remaining ≤ 1 := by
      rw [h.remaining]
      bv_omega
    rw [step_ctl, nextCtl, if_pos hm.tready, hm.initWrite]
    exact ⟨rfl, if_neg h1⟩
  · rw [hm.wrPtr, h.remaining]

/-- A payload beat in the middle of a TLP. -/
theorem Runs.continues (h : a.Runs cfg s) (hm : ContinuesWrite s i) :
    (a.next P cfg).Runs cfg (step s i) := by
  have hin := h.inside_iff.mpr hm.write
  have hmore : ¬ a.remaining ≤ 8 := by
    have hgt := remaining_gt_eight hm.words hm.more
    rw [h.remaining] at hgt
    bv_omega
  have h4 : ¬ a.remaining ≤ 4 := by bv_omega
  rw [next, if_pos hin, if_neg h4, if_neg hmore]
  refine ⟨by rw [hm.state, if_pos hin], ?_, by rw [hm.wrCount]; exact h.count,
    by rw [hm.wrPtr]; exact h.addr, ?_, by rw [hm.wrBlock]; exact h.block⟩
  · intro _
    simpa [nextCtl, hm.write, hm.tready, hm.more] using h.byteEnables hin
  · rw [hm.wrPtr, h.remaining]

/-- The address of the next block. -/
theorem Runs.txWrAddr_eq (h : a.Runs cfg s) (hset : Settled cfg s i)
    (hmode : cfg.addressMode = 0 ∨ cfg.addressMode = 1) : s.txWrAddr cfg = cfg.nextBase a.block :=
  h.block.nextBase hmode hset.txFixWr

/-- The end of a TLP: the header of the next one, or the end of the operation. -/
theorem Runs.finishes (h : a.Runs cfg s) (hset : Settled cfg s i) (hm : EndsWrite s i)
    (hmode : cfg.addressMode = 0 ∨ cfg.addressMode = 1) (hread : cfg.capRead = false) (sent : Nat) :
    (a.finish P cfg sent).Stands cfg (step s i) := by
  have hstate : (step s i).wrState = if (nextBounds P cfg).wrNumberEven = a.count.modulus ∧
      (nextBounds P cfg).wrTotal ≤ a.count.current then .idle else .initWrite := by
    rw [hm.state, afterWrite, hset.cfg_eq, hread, hset.bounds, h.count]
    by_cases heven : (nextBounds P cfg).wrNumberEven = a.count.modulus <;> simp [heven]
  by_cases hend : (nextBounds P cfg).wrNumberEven = a.count.modulus ∧
      (nextBounds P cfg).wrTotal ≤ a.count.current
  · -- the last TLP of a block, and no more to count
    rw [finish, if_pos hend]
    rw [if_pos hend] at hstate
    exact .inl ⟨hstate, rfl⟩
  · rw [finish, if_neg hend]
    rw [if_neg hend] at hstate
    refine .inr ⟨hstate, fun hin => (by cases hin), ?_, ?_, ?_, ?_⟩
    · rw [hm.wrCount, h.count, hset.bounds]
    · rw [hm.wrPtr, WrPointer.next, hset.cfg_eq, hset.bounds, h.count, h.txWrAddr_eq hset hmode,
        h.dwords_eq hset, h.addr]
    · rw [hm.wrPtr, WrPointer.next, hset.bounds, h.count]
    · rw [hm.wrBlock, hset.bounds, h.count, hset.cfg_eq]
      show BlockAddr.Agrees _ (if _ then _ else _)
      split
      · exact h.block.advance cfg _ 0
      · exact h.block

/-- The end of a TLP counts the words of its last beat. -/
theorem finish_carried (P : Params) (cfg : Config) (a : WriteView) (sent : Nat) :
    (a.finish P cfg sent).carried = a.carried + sent := by
  unfold finish
  split <;> rfl

/-- `TKEEP` of the last beat says how many words it has. -/
theorem popcount_payloadKeep_le : ∀ r : BitVec 4, r ≤ 8 → (popcount (payloadKeep r) ≤ 4 ↔ r ≤ 4) := by
  decide

/-- The words of a beat are counted. -/
theorem next_carried (P : Params) (cfg : Config) (words : Nat → BitVec 128) (a : WriteView) :
    (a.next P cfg).carried = a.carried + (payload [a.beat P cfg words]).length := by
  unfold next beat
  by_cases hin : a.inside = true
  · rw [if_pos hin, if_pos hin]
    by_cases h8 : a.remaining ≤ 8
    · have hle : a.remaining.setWidth 4 ≤ 8 := by bv_omega
      have hiff : a.remaining.setWidth 4 ≤ 4 ↔ a.remaining ≤ 4 := by bv_omega
      by_cases h4 : a.remaining ≤ 4
      · have hkeep := (popcount_payloadKeep_le _ hle).mpr (hiff.mpr h4)
        rw [if_pos h4, finish_carried]
        simp only [payload, Sent.payload, payloadBeat, if_pos h8, List.flatMap_singleton, if_pos hkeep]
        rfl
      · have hkeep := mt (popcount_payloadKeep_le _ hle).mp (mt hiff.mp h4)
        rw [if_neg h4, if_pos h8, finish_carried]
        simp only [payload, Sent.payload, payloadBeat, if_pos h8, List.flatMap_singleton, if_neg hkeep]
        rfl
    · have h4 : ¬ a.remaining ≤ 4 := by bv_omega
      have hkeep : ¬ popcount 0xff ≤ 4 := by decide
      rw [if_neg h4, if_neg h8]
      simp only [payload, Sent.payload, payloadBeat, if_neg h8, List.flatMap_singleton, if_neg hkeep]
      rfl
  · -- a header carries one word
    rw [if_neg hin, if_neg hin]
    split
    · exact finish_carried P cfg a 1
    · rfl

/-- Idle cycles, and the one in which the next operation starts. -/
theorem idle_step (hs : s.wrState = .idle) (ha : a = start P cfg a.carried)
    (hcfg : (step s i).wrState ≠ .idle → i.cfg = cfg) (hw : cfg.capWrite = true) :
    a.Stands cfg (step s i) ∧ load s i = [] := by
  refine ⟨?_, load_idle hs⟩
  by_cases hidle : (step s i).wrState = .idle
  · exact .inl ⟨hidle, ha⟩
  · have hstarts := startsWith_of_leaves hs hidle
    have hready := tready_of_startsWith hstarts
    -- the cycle that leaves `IDLE` loads the registers, whatever they held before
    rw [← hcfg hidle] at hw
    rw [ha, ← hcfg hidle]
    refine .inr ⟨?_, fun hin => (by cases hin), ?_, ?_, ?_, ?_⟩
    · rw [step_wrState, nextWrState, hs, hw]
      exact if_pos hstarts
    · rw [step_wrCount, nextWrCount, hs]
      exact if_pos hready
    · rw [step_wrPtr, nextWrPtr, hs]
      rfl
    · rw [step_wrPtr, nextWrPtr, hs]
      rfl
    · rw [step_wrBlock, nextWrBlock, hs, hw, hstarts]
      exact BlockAddr.prepare_agrees _ _ _ _

/-- The words at the head of the queue are words `n` and `n + 1` of the stream. -/
structure HeadWords (s : State P) (words : Nat → BitVec 128) (n : Nat) : Prop where
  first : s.oneWordAtBuffer = true → s.c2sWord s.out.c2sRdPtr = words n
  second : s.twoWordsAtBuffer = true → s.c2sWord (s.out.c2sRdPtr + 1#5) = words (n + 1)

theorem headWords {accepted carried : List (BitVec 128)} (hq : QueueInv s accepted carried)
    (hwords : ∀ k x, accepted[k]? = some x → x = words k) : HeadWords s words carried.length := by
  constructor
  · intro hone
    rw [oneWordAtBuffer_eq, decide_eq_true_eq, hq.occupancy_eq] at hone
    simpa using hwords _ _ (hq.word (k := 0) (by omega))
  · intro htwo
    rw [twoWordsAtBuffer_eq, decide_eq_true_eq, hq.occupancy_eq] at htwo
    exact hwords _ _ (hq.word (k := 1) (by omega))

theorem oneWord_of_twoWords (h : s.twoWordsAtBuffer = true) : s.oneWordAtBuffer = true := by
  rw [twoWordsAtBuffer_eq, decide_eq_true_eq] at h
  rw [oneWordAtBuffer_eq, decide_eq_true_eq]
  omega

section Beats

variable (h : a.Runs cfg s) (hset : Settled cfg s i) (hp : PointerInv s)
  (hhead : HeadWords s words a.carried) (hmode : cfg.addressMode = 0 ∨ cfg.addressMode = 1)
  (hread : cfg.capRead = false)

include h hset hp hhead hmode hread

/-- A cycle inside a TLP. -/
theorem Runs.step_inside (hin : a.inside = true) :
    (a.Stands cfg (Rq.step s i) ∧ load s i = []) ∨
      ((a.next P cfg).Stands cfg (Rq.step s i) ∧ load s i = [a.beat P cfg words]) := by
  have hs := h.inside_iff.mp hin
  have hbeat : a.beat P cfg words = ⟨.write, a.payloadBeat words⟩ := if_pos hin
  rw [hbeat]
  rcases write_cases (i := i) hs with hm | hm | hm
  · exact .inl ⟨.inr (h.stalls hm), hm.load⟩
  · -- two words in the middle of a TLP
    have hone := oneWord_of_twoWords hm.words
    refine .inr ⟨.inr (h.continues hm), ?_⟩
    rw [hm.load, h.payload_eq hp hs hm.tready hin (fun _ => hone) (fun _ => hm.words)
      (hhead.first hone) (fun _ => hhead.second hm.words)]
  · -- the end of the TLP, with one word or two
    have hends : (s.twoWordsAtBuffer = true ∧ a.remaining ≤ 8) ∨
        (s.oneWordAtBuffer = true ∧ a.remaining ≤ 4) := by
      rcases hm.ends with ⟨hinit, -, -⟩ | ⟨-, hends⟩
      · rw [hs] at hinit
        cases hinit
      · simpa only [State.writeEnds, h.lastWord, h.lastTwoWords, Bool.or_eq_true, Bool.and_eq_true,
          decide_eq_true_eq] using hends
    have hone : s.oneWordAtBuffer = true := by
      rcases hends with ⟨htwo, -⟩ | ⟨hone, -⟩
      · exact oneWord_of_twoWords htwo
      · exact hone
    have htwo : ¬ a.remaining ≤ 4 → s.twoWordsAtBuffer = true ∧ a.remaining ≤ 8 := by
      intro h4
      rcases hends with htwo | ⟨-, hle⟩
      · exact htwo
      · exact absurd hle h4
    refine .inr ⟨?_, ?_⟩
    · rw [next, if_pos hin]
      split
      · exact h.finishes hset hm hmode hread 1
      · rename_i h4
        rw [if_pos (htwo h4).2]
        exact h.finishes hset hm hmode hread 2
    · rw [hm.load, hs, h.payload_eq hp hs hm.tready hin (fun _ => hone) (fun h4 => (htwo h4).1)
        (hhead.first hone) (fun h4 => hhead.second (htwo h4).1)]

/-- A cycle at the header of a TLP. -/
theorem Runs.step_header (hout : ¬ a.inside = true) :
    (a.Stands cfg (Rq.step s i) ∧ load s i = []) ∨
      ((a.next P cfg).Stands cfg (Rq.step s i) ∧ load s i = [a.beat P cfg words]) := by
  have hs : s.wrState = .initWrite := by rw [h.state, if_neg hout]
  have hbeat : a.beat P cfg words = ⟨.initWrite, a.headerBeat P cfg words⟩ := if_neg hout
  rw [hbeat]
  rcases initWrite_cases (i := i) hs with hm | hm | hm
  · exact .inl ⟨.inr (h.stalls hm), hm.load⟩
  · refine .inr ⟨.inr (h.opens hm), ?_⟩
    rw [hm.load, h.header_eq hset hp hs hm.tready hm.word (hhead.first hm.word)]
  · -- a TLP of one beat
    obtain ⟨hone, hlast⟩ : s.oneWordAtBuffer = true ∧ s.lastWordAtTlp = true := by
      rcases hm.ends with ⟨-, hends⟩ | ⟨hwrite, -⟩
      · exact hends
      · rw [hs] at hwrite
        cases hwrite
    rw [h.lastWord, decide_eq_true_eq] at hlast
    refine .inr ⟨?_, ?_⟩
    · rw [next, if_neg hout, if_pos hlast]
      exact h.finishes hset hm hmode hread 1
    · rw [hm.load, hs, h.header_eq hset hp hs hm.tready hone (hhead.first hone)]

/-- Every busy cycle waits or sends the beat that is due. -/
theorem Runs.step : (a.Stands cfg (Rq.step s i) ∧ load s i = []) ∨
    ((a.next P cfg).Stands cfg (Rq.step s i) ∧ load s i = [a.beat P cfg words]) := by
  by_cases hin : a.inside = true
  · exact h.step_inside hset hp hhead hmode hread hin
  · exact h.step_header hset hp hhead hmode hread hin

end Beats

end WriteView

/-! ## Memory reads -/

/-- Where a sequence of memory reads has come to. -/
structure ReadView where
  count : TlpCount
  addr : BitVec 64
  remaining : BitVec 64
  block : BlockAddr

/-- What a memory read request asks for; its tag depends on the time. -/
structure Request where
  addr : BitVec 64
  dwords : BitVec 11
  firstBe : BitVec 4
  lastBe : BitVec 4
  deriving DecidableEq, Repr

def Sent.readRequest (x : Sent) : Request where
  addr := x.beat.addr
  dwords := x.beat.dwords
  firstBe := x.beat.firstBe
  lastBe := x.beat.lastBe

namespace ReadView

variable (P) (cfg : Config)

/-- The first request of an operation. -/
def start : ReadView where
  count := TlpCount.first
  addr := cfg.addrAtDescriptor
  remaining := if cfg.sizeWords ≤ maxWordsReadRequest P then cfg.sizeWords else maxWordsReadRequest P
  block := BlockAddr.prepare true cfg 0

variable (a : ReadView)

/-- The dwords of the current request. -/
def dwords : BitVec 32 :=
  if (nextBounds P cfg).rdNumberEven = a.count.modulus then (nextBounds P cfg).rdOddWords
  else (maxWordsReadRequest P).setWidth 32

/-- One request further: the next one of the operation, or the first one of the next operation. -/
def next : ReadView :=
  if (nextBounds P cfg).rdTotal ≤ a.count.current then start P cfg
  else
    { count := a.count.next (nextBounds P cfg).rdNumberEven
      addr :=
        if (nextBounds P cfg).rdNumberEven = a.count.modulus then cfg.nextBase a.block
        else a.addr + (((a.dwords P cfg).setWidth 11).setWidth 64 <<< 2)
      remaining :=
        if (nextBounds P cfg).rdNumberEven = a.count.modulus + 1 ∨
            (nextBounds P cfg).rdNumberEven = 1 then (nextBounds P cfg).rdOddWords.setWidth 64
        else maxWordsReadRequest P
      block :=
        if (nextBounds P cfg).rdNumberEven = a.count.modulus then a.block.advance cfg 0 else a.block }

/-- The next request. -/
def request : Request where
  addr := alignDword a.addr
  dwords := (a.dwords P cfg).setWidth 11
  firstBe := 0xf
  lastBe := if a.remaining.extractLsb' 1 10 = 0 then 0 else 0xf

end ReadView

/-- A state of a read-only operation that has requests to send stands for `a`. -/
structure ReadView.Runs (s : State P) (a : ReadView) : Prop where
  state : s.wrState = .initRead
  count : s.rdCount = a.count
  addr : s.rdPtr.addr = a.addr
  remaining : s.rdPtr.remaining = a.remaining
  block : s.rdBlock.Agrees a.block

/-- A state without requests to send stands for the start of the next operation. -/
def ReadView.Stands (cfg : Config) (s : State P) (a : ReadView) : Prop :=
  ((s.wrState = .idle ∨ s.wrState = .waitRead) ∧ a = ReadView.start P cfg) ∨ a.Runs s

namespace ReadView

variable {a : ReadView}

theorem idle_step (hs : s.wrState = .idle)
    (hcfg : (step s i).wrState ≠ .idle → i.cfg = cfg) (hw : cfg.capWrite = false)
    (hr : cfg.capRead = true) :
    (start P cfg).Stands cfg (step s i) ∧ load s i = [] := by
  refine ⟨?_, load_idle hs⟩
  by_cases hidle : (step s i).wrState = .idle
  · exact .inl ⟨.inl hidle, rfl⟩
  · have hstarts := startsWith_of_leaves hs hidle
    have hready := tready_of_startsWith hstarts
    have hno : startsWith s i false = false := by simp [startsWith]
    rw [← hcfg hidle] at hw hr
    rw [← hcfg hidle]
    refine .inr ⟨?_, ?_, ?_, ?_, ?_⟩
    · rw [step_wrState, nextWrState, hs, hw, hno, hr]
      exact if_pos hstarts
    · rw [step_rdCount, nextRdCount, hs]
      exact if_pos hready
    · rw [step_rdPtr, nextRdPtr, hs]
      simp only [hready, if_true]
      rfl
    · rw [step_rdPtr, nextRdPtr, hs]
      simp only [hready, if_true, hw]
      rfl
    · rw [step_rdBlock, nextRdBlock, hs, hr, hstarts]
      exact BlockAddr.prepare_agrees _ _ _ _

theorem Runs.dwords_eq (h : a.Runs s) (hset : Settled cfg s i) (hw : cfg.capWrite = false) :
    s.currentRdTlpWords cfg = a.dwords P cfg := by
  simp only [State.currentRdTlpWords, ReadView.dwords, hset.bounds, h.count, hw, Bool.false_eq_true,
    if_false]

/-- The address of the next block. -/
theorem Runs.txRdAddr_eq (h : a.Runs s) (hset : Settled cfg s i)
    (hmode : cfg.addressMode = 0 ∨ cfg.addressMode = 1) : s.txRdAddr cfg = cfg.nextBase a.block :=
  h.block.nextBase hmode hset.txFixRd

theorem Runs.stalls (h : a.Runs s) (hm : Stalls s i) : a.Runs (step s i) :=
  ⟨by rw [hm.state]; exact h.state, by rw [hm.rdCount]; exact h.count,
    by rw [hm.rdPtr]; exact h.addr, by rw [hm.rdPtr]; exact h.remaining,
    by rw [hm.rdBlock]; exact h.block⟩

/-- The request in the output register. -/
theorem Runs.request_eq (h : a.Runs s) (hset : Settled cfg s i) (hm : IssuesRead s i)
    (hw : cfg.capWrite = false) :
    Sent.readRequest ⟨.initRead, (step s i).beat⟩ = a.request P cfg := by
  obtain ⟨haddr, hdwords⟩ := issuesRead_isTile hm
  rw [hset.cfg_eq, h.dwords_eq hset hw] at hdwords
  rw [h.addr] at haddr
  rw [Sent.readRequest, request, haddr, hdwords]
  simp [State.beat, nextCtl, hm.initRead, hm.tready, h.remaining]

/-- A memory read request: the next one, or the end of the operation. -/
theorem Runs.issues (h : a.Runs s) (hset : Settled cfg s i) (hm : IssuesRead s i)
    (hmode : cfg.addressMode = 0 ∨ cfg.addressMode = 1) (hw : cfg.capWrite = false) :
    (a.next P cfg).Stands cfg (step s i) := by
  have hstate : (step s i).wrState =
      if (nextBounds P cfg).rdTotal ≤ a.count.current then .waitRead else .initRead := by
    rw [hm.state, hset.bounds, h.count, hset.cfg_eq, hw]
    simp
  by_cases hend : (nextBounds P cfg).rdTotal ≤ a.count.current
  · -- reads are counted one by one, an operation may stop inside a block
    rw [next, if_pos hend]
    rw [if_pos hend] at hstate
    exact .inl ⟨.inr hstate, rfl⟩
  · rw [next, if_neg hend]
    rw [if_neg hend] at hstate
    refine .inr ⟨hstate, ?_, ?_, ?_, ?_⟩
    · rw [hm.rdCount, h.count, hset.bounds]
    · rw [hm.rdAddr, hset.cfg_eq, hset.bounds, h.count, h.txRdAddr_eq hset hmode,
        h.dwords_eq hset hw, h.addr]
    · rw [hm.rdRemaining, hset.cfg_eq, hset.bounds, h.count, hw]
      rfl
    · rw [hm.rdBlock, hset.bounds, h.count, hset.cfg_eq]
      show BlockAddr.Agrees _ (if _ then _ else _)
      split
      · exact h.block.advance cfg _ 0
      · exact h.block

/-- Every cycle of a run waits or sends the request that is due. -/
theorem Stands.step (h : a.Stands cfg s) (hset : s.wrState ≠ .idle → Settled cfg s i)
    (hcfg : (step s i).wrState ≠ .idle → i.cfg = cfg)
    (hmode : cfg.addressMode = 0 ∨ cfg.addressMode = 1) (hw : cfg.capWrite = false)
    (hr : cfg.capRead = true) :
    (a.Stands cfg (Rq.step s i) ∧ (load s i).map Sent.readRequest = []) ∨
      ((a.next P cfg).Stands cfg (Rq.step s i) ∧
        (load s i).map Sent.readRequest = [a.request P cfg]) := by
  rcases h with ⟨hidle | hwait, rfl⟩ | h
  · obtain ⟨hstands, hload⟩ := idle_step hidle hcfg hw hr
    exact .inl ⟨hstands, by rw [hload]; rfl⟩
  · -- all requests are sent, completions are missing
    refine .inl ⟨.inl ⟨?_, rfl⟩, by rw [load_waitRead hwait]; rfl⟩
    rcases waitRead_cases (i := i) hwait with hm | hm
    · exact .inr (hm.state.trans hwait)
    · exact .inl hm.state
  · have hset := hset (by rw [h.state]; simp)
    rcases initRead_cases (i := i) h.state with hm | hm
    · exact .inl ⟨.inr (h.stalls hm), by rw [hm.load]; rfl⟩
    · refine .inr ⟨h.issues hset hm hmode hw, ?_⟩
      rw [hm.load, List.map_singleton, h.request_eq hset hm hw]

end ReadView

/-! ## Every run -/

/-- Up to cycle `stop` every operation of the run has the configuration `cfg`, and the words taken from
the C2S FIFO since reset are those of `words`. -/
structure Follows (inp : Run P) (cfg : Config) (words : Nat → BitVec 128) (stop : Nat) : Prop where
  stable : ∀ t, t < stop → (st inp t).wrState ≠ .idle ∨ (st inp (t + 1)).wrState ≠ .idle →
    (inp t).cfg = cfg
  stream : ∀ t, t ≤ stop → ∀ k x, (acceptedWords inp t)[k]? = some x → x = words k

section Runs

variable {inp : Run P} {stop : Nat}

/-- In a busy cycle the delayed registers have settled. -/
theorem Follows.settled (h : Follows inp cfg words stop) {t : Nat} (ht : t < stop)
    (hs : (st inp t).wrState ≠ .idle) : Settled cfg (st inp t) (inp t) := by
  cases t with
  | zero =>
      exact absurd rfl hs
  | succ t =>
      have hcfg := h.stable t (by omega) (.inr hs)
      refine ⟨h.stable (t + 1) ht (.inl hs), ?_, ?_, ?_⟩
      · rw [st_succ, step_bounds, hcfg]
      · rw [st_succ, step_txFixWr, hcfg]
      · rw [st_succ, step_txFixRd, hcfg]

/-- A run with memory writes stutters over their generator. -/
theorem Follows.writes_stutter (h : Follows inp cfg words stop)
    (hmode : cfg.addressMode = 0 ∨ cfg.addressMode = 1) (hw : cfg.capWrite = true)
    (hr : cfg.capRead = false) :
    Stutters (WriteView.next P cfg) (WriteView.beat P cfg words)
      (fun t a => a.Stands cfg (st inp t) ∧ a.carried = (payload (collect (loads inp) 0 t)).length)
      (loads inp) stop := by
  rintro t a ht ⟨hstands, hcarried⟩
  have hcollect : collect (loads inp) 0 (t + 1) = collect (loads inp) 0 t ++ loads inp t := by
    rw [collect_succ, Nat.zero_add]
  have hstep : (a.Stands cfg (st inp (t + 1)) ∧ loads inp t = []) ∨
      ((a.next P cfg).Stands cfg (st inp (t + 1)) ∧ loads inp t = [a.beat P cfg words]) := by
    rw [st_succ, loads]
    rcases hstands with ⟨hs, ha⟩ | hruns
    · exact .inl (WriteView.idle_step hs ha (fun hs' => h.stable t ht (.inr hs')) hw)
    · -- the queue holds what was taken and not sent, so its head is the next word of the stream
      have hhead := WriteView.headWords (queueInv inp t) (h.stream t (by omega))
      rw [← hcarried] at hhead
      exact hruns.step (h.settled ht hruns.ne_idle) (pointerInv inp t) hhead hmode hr
  -- the generator counts the words as the payload of the beats does
  rcases hstep with ⟨hsame, hload⟩ | ⟨hnext, hload⟩
  · refine .inl ⟨⟨hsame, ?_⟩, hload⟩
    rw [hcollect, hload, List.append_nil]
    exact hcarried
  · refine .inr ⟨⟨hnext, ?_⟩, hload⟩
    rw [hcollect, hload, payload_append, List.length_append, WriteView.next_carried P cfg words,
      hcarried]

/-- A run with memory reads stutters over theirs. -/
theorem Follows.reads_stutter (h : Follows inp cfg words stop)
    (hmode : cfg.addressMode = 0 ∨ cfg.addressMode = 1) (hw : cfg.capWrite = false)
    (hr : cfg.capRead = true) :
    Stutters (ReadView.next P cfg) (ReadView.request P cfg) (fun t a => a.Stands cfg (st inp t))
      (fun t => (loads inp t).map Sent.readRequest) stop := by
  intro t a ht hstands
  exact hstands.step (h.settled ht) (fun hs' => h.stable t ht (.inr hs')) hmode hw hr

end Runs

/-- One of the sequences is a prefix of the other: they agree on their common length. -/
def Agree {α : Type} (l l' : List α) : Prop := l <+: l' ∨ l' <+: l

/-- Prefixes of sequences that agree, agree. -/
theorem Agree.of_isPrefix {α : Type} {l l' m m' : List α} (h : Agree m m') (hl : l <+: m)
    (hl' : l' <+: m') : Agree l l' := by
  rcases h with h | h
  · exact List.prefix_or_prefix_of_prefix (hl.trans h) hl'
  · exact List.prefix_or_prefix_of_prefix hl (hl'.trans h)

/-- Back-pressure, the arrival of C2S words and the arrival of completions do not change what is sent:
two runs with the same configuration and the same words emit the same beats of memory writes and the
same memory read requests as far as they have come, and each has handed over what it has loaded, but
for the beat that waits. -/
theorem timing_insensitive {inp inp' : Run P} {stop stop' : Nat} (h : Follows inp cfg words stop)
    (h' : Follows inp' cfg words stop') (hmode : cfg.addressMode = 0 ∨ cfg.addressMode = 1) {t u : Nat}
    (ht : t ≤ stop) (hu : u ≤ stop') :
    (cfg.capWrite = true → cfg.capRead = false →
        Agree ((collect (emits inp) 0 t).map Sent.beat) ((collect (emits inp') 0 u).map Sent.beat)) ∧
      (cfg.capWrite = false → cfg.capRead = true →
        Agree ((collect (emits inp) 0 t).map Sent.readRequest)
          ((collect (emits inp') 0 u).map Sent.readRequest)) ∧
      collect (emits inp) 0 t ++ waits inp t = collect (loads inp) 0 t := by
  refine ⟨?_, ?_, ?_⟩
  · intro hw hr
    have hstart : ∀ inp : Run P, (WriteView.start P cfg 0).Stands cfg (st inp 0) ∧
        (WriteView.start P cfg 0).carried = (payload (collect (loads inp) 0 0)).length :=
      fun _ => ⟨.inl ⟨rfl, rfl⟩, rfl⟩
    have hloads := (h.writes_stutter hmode hw hr).isPrefix_or_isPrefix (hstart inp)
      (h'.writes_stutter hmode hw hr) (hstart inp') ht hu
    have hagree : Agree (collect (emits inp) 0 t) (collect (emits inp') 0 u) :=
      Agree.of_isPrefix hloads (collect_emits_isPrefix inp t) (collect_emits_isPrefix inp' u)
    rcases hagree with hp | hp
    · exact .inl (hp.map _)
    · exact .inr (hp.map _)
  · intro hw hr
    have hstart : ∀ inp : Run P, (ReadView.start P cfg).Stands cfg (st inp 0) :=
      fun _ => .inl ⟨.inl rfl, rfl⟩
    have hloads := (h.reads_stutter hmode hw hr).isPrefix_or_isPrefix (hstart inp)
      (h'.reads_stutter hmode hw hr) (hstart inp') ht hu
    rw [← map_collect, ← map_collect] at hloads
    exact Agree.of_isPrefix hloads ((collect_emits_isPrefix inp t).map _)
      ((collect_emits_isPrefix inp' u).map _)
  · have happend := collect_emits_append_waits inp 0 t
    rw [Nat.zero_add] at happend
    exact happend

/-- The steady environment, without `TREADY` in cycle 6. -/
def pausing (cfg : Config) : Run pcieController := fun t =>
  { steady cfg t with axisRqTready := decide (t ≠ 6) }

/-- A run that has taken the words 0, 1, 2, … -/
theorem follows_of_accepted {inp : Run pcieController} {stop : Nat} (hcfg : ∀ t, (inp t).cfg = cfg)
    (hwords : ∀ t, t < stop + 1 →
      acceptedWords inp t = (List.range (acceptedWords inp t).length).map (BitVec.ofNat 128)) :
    Follows inp cfg (BitVec.ofNat 128) stop where
  stable t _ _ := hcfg t
  stream t ht k x hx := by
    obtain ⟨hk, -⟩ := List.getElem?_eq_some_iff.mp hx
    rw [hwords t (by omega), List.getElem?_map, List.getElem?_range hk] at hx
    exact (Option.some.inj hx).symm

/-- Two beats of memory writes, and one that is late. -/
theorem timing_insensitive_pause :
    (collect (emits (steady (writeConfig 4))) 0 8).length = 2 ∧
      (collect (emits (pausing (writeConfig 4))) 0 8).length = 1 ∧
      Agree ((collect (emits (steady (writeConfig 4))) 0 8).map Sent.beat)
        ((collect (emits (pausing (writeConfig 4))) 0 8).map Sent.beat) := by
  have hsteady : Follows (steady (writeConfig 4)) (writeConfig 4) (BitVec.ofNat 128) 8 :=
    follows_of_accepted (fun _ => rfl) (by decide +kernel)
  have hpausing : Follows (pausing (writeConfig 4)) (writeConfig 4) (BitVec.ofNat 128) 8 :=
    follows_of_accepted (fun _ => rfl) (by decide +kernel)
  exact ⟨by decide +kernel, by decide +kernel,
    (timing_insensitive hsteady hpausing (.inl rfl) (by decide) (by decide)).1 rfl rfl⟩

end Untimed

end Rq
end PcieBench
