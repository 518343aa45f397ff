import PcieBench.Clocked.Ring
import PcieBench.Rq.Fsm

/-!
# The payload path of dma_rq_logic

From the C2S FIFO through the circular buffer into the write beats.  The results hold for every run
of the module, whatever the descriptor interface does: the buffer refines the queue of the accepted
words, and the words carried by the beats are a prefix of it.
-/

namespace PcieBench
namespace Rq

open Clocked Tlp

section Payload

variable {P : Params}

/-! ## The position inside a TLP -/

/-- What every reachable state knows about the write pointer and the sideband register. -/
structure PointerInv (s : State P) : Prop where
  remainder : s.wrPtr.nextRemainder = s.wrPtr.remaining.setWidth 4
  remaining_pos : s.wrState = .write → 1 ≤ s.wrPtr.remaining.toNat
  keep : s.wrState = .write → s.ctl.tkeep = 0xff
  last : s.wrState = .write → s.ctl.tlast = false

theorem setWidth_sub_four (x : BitVec 64) : (x - 4).setWidth 4 = x.setWidth 4 - 4 := by
  apply BitVec.eq_of_toNat_eq
  simp
  omega

theorem setWidth_sub_eight (x : BitVec 64) : (x - 8).setWidth 4 = x.setWidth 4 - 8 := by
  apply BitVec.eq_of_toNat_eq
  simp
  omega

theorem lastWordAtTlp_eq (s : State P) :
    s.lastWordAtTlp = decide (s.wrPtr.remaining.toNat ≤ 4) := by
  simp [State.lastWordAtTlp, BitVec.le_def]

theorem lastTwoWordsAtTlp_eq (s : State P) :
    s.lastTwoWordsAtTlp = decide (s.wrPtr.remaining.toNat ≤ 8) := by
  simp [State.lastTwoWordsAtTlp, BitVec.le_def]

theorem PointerInv.reset : PointerInv (Rq.reset P) := by
  constructor <;> simp [Rq.reset]

/-- The remainder register is the low nibble of the remaining dwords after every clock edge. -/
theorem step_remainder (s : State P) (i : Input P)
    (h : s.wrPtr.nextRemainder = s.wrPtr.remaining.setWidth 4) :
    (step s i).wrPtr.nextRemainder = (step s i).wrPtr.remaining.setWidth 4 := by
  by_cases hs : s.wrState = .idle
  · simp [nextWrPtr, hs]
  · rcases busy_cases i hs with hm | hm | hm | hm | hm | hm <;> rw [hm.wrPtr]
    · exact h
    · rw [h, setWidth_sub_four]
    · rw [h, setWidth_sub_eight]
    · simp only [WrPointer.next]
      split <;> simp
    · exact h
    · exact h

/-- A payload beat that does not end its TLP leaves dwords to send. -/
theorem remaining_gt_eight {s : State P} (htwo : s.twoWordsAtBuffer = true)
    (hmore : s.writeEnds = false) : 8 < s.wrPtr.remaining.toNat := by
  have hlast : s.lastTwoWordsAtTlp = false := by
    simpa [htwo] using (Bool.or_eq_false_iff.mp hmore).1
  simpa [lastTwoWordsAtTlp_eq] using hlast

theorem PointerInv.step {s : State P} (h : PointerInv s) (i : Input P) :
    PointerInv (step s i) := by
  refine ⟨step_remainder s i h.remainder, ?_, ?_, ?_⟩ <;> intro hw <;>
    rcases step_write_cases hw with hm | hm | ⟨hs, hm⟩
  · have hgt : 4 < s.wrPtr.remaining.toNat := by
      simpa [lastWordAtTlp_eq] using hm.more
    rw [hm.wrPtr]
    bv_omega
  · have hgt := remaining_gt_eight hm.words hm.more
    rw [hm.wrPtr]
    bv_omega
  · rw [hm.wrPtr]
    exact h.remaining_pos hs
  · simp [nextCtl, hm.initWrite, hm.tready, hm.word, hm.more]
  · simp [nextCtl, hm.write, hm.tready, hm.more, h.keep]
  · rw [hm.ctl hs]
    exact h.keep hs
  · simp [nextCtl, hm.initWrite, hm.tready, hm.word, hm.more]
  · simp [nextCtl, hm.write, hm.tready, hm.more, h.last]
  · rw [hm.ctl hs]
    exact h.last hs

/-- Every state of every run satisfies the pointer invariant. -/
theorem pointerInv (inp : Run P) (t : Nat) : PointerInv (st inp t) :=
  st_invariant PointerInv PointerInv.reset (fun _ i h => h.step i) inp t

/-! ## Words in and words out -/

/-- The words accepted from the C2S FIFO at a clock edge. -/
def accepts (s : State P) (i : Input P) : List (BitVec 128) :=
  if i.c2sTvalid && s.c2sFifoTready then
    if i.c2sTkeepHi then [i.c2sTdataLo, i.c2sTdataHi] else [i.c2sTdataLo]
  else []

/-- The payload words a beat carries: one in the upper lane of a write header, one or two, by
`TKEEP`, in a payload beat, none in a read request. -/
def Sent.payload (x : Sent) : List (BitVec 128) :=
  match x.origin with
  | .initWrite => [x.beat.tdataHi]
  | .write =>
      if popcount x.beat.tkeep ≤ 4 then [x.beat.tdataLo] else [x.beat.tdataLo, x.beat.tdataHi]
  | _ => []

/-- The payload words of a sequence of beats. -/
def payload (l : List Sent) : List (BitVec 128) := l.flatMap Sent.payload

theorem payload_append (l l' : List Sent) : payload (l ++ l') = payload l ++ payload l' := by
  simp [payload]

theorem oneWordAtBuffer_eq (s : State P) :
    s.oneWordAtBuffer = decide (1 ≤ s.c2sBufOccupancy.toNat) := by
  unfold State.oneWordAtBuffer
  generalize s.c2sBufOccupancy = x
  revert x
  decide

theorem twoWordsAtBuffer_eq (s : State P) :
    s.twoWordsAtBuffer = decide (2 ≤ s.c2sBufOccupancy.toNat) := by
  unfold State.twoWordsAtBuffer
  generalize s.c2sBufOccupancy = x
  revert x
  decide

/-- `TKEEP` of the last payload beat counts the remaining dwords. -/
theorem popcount_payloadKeep :
    ∀ r : BitVec 4, r ≠ 0 → r ≤ 8 → popcount (payloadKeep r) = r.toNat := by
  decide

/-- The last payload beat enables exactly the remaining dwords. -/
theorem popcount_payloadKeep_remaining {s : State P} (h : PointerInv s) (hs : s.wrState = .write)
    (hle : s.wrPtr.remaining.toNat ≤ 8) :
    popcount (payloadKeep s.wrPtr.nextRemainder) = s.wrPtr.remaining.toNat := by
  have hpos := h.remaining_pos hs
  have hnat : s.wrPtr.nextRemainder.toNat = s.wrPtr.remaining.toNat := by
    rw [h.remainder, BitVec.toNat_setWidth]
    omega
  rw [popcount_payloadKeep, hnat]
  · intro h0
    rw [h0] at hnat
    simp at hnat
    omega
  · rw [BitVec.le_def, hnat]
    simpa using hle

/-- The last word of a TLP is the low half of its beat. -/
theorem popcount_tkeep_last {s : State P} {i : Input P} (h : PointerInv s) (hs : s.wrState = .write)
    (hr : i.axisRqTready = true) (hone : (s.oneWordAtBuffer && s.lastWordAtTlp) = true) :
    popcount (nextCtl s i).tkeep ≤ 4 := by
  have hle : s.wrPtr.remaining.toNat ≤ 4 := by
    simpa [lastWordAtTlp_eq] using (Bool.and_eq_true_iff.mp hone).2
  have hends : s.writeEnds = true := by simp [State.writeEnds, hone]
  simp only [nextCtl, hs, hr, hends, if_true]
  rw [popcount_payloadKeep_remaining h hs (by omega)]
  exact hle

/-- A beat of two words has enabled dwords in both halves. -/
theorem popcount_tkeep_two {s : State P} {i : Input P} (h : PointerInv s) (hs : s.wrState = .write)
    (hr : i.axisRqTready = true) (hone : (s.oneWordAtBuffer && s.lastWordAtTlp) = false)
    (htwo : s.twoWordsAtBuffer = true) : ¬ popcount (nextCtl s i).tkeep ≤ 4 := by
  have hgt : 4 < s.wrPtr.remaining.toNat := by
    have hocc : 2 ≤ s.c2sBufOccupancy.toNat := by simpa [twoWordsAtBuffer_eq] using htwo
    have hbuf : s.oneWordAtBuffer = true := by
      rw [oneWordAtBuffer_eq]
      simp
      omega
    simpa [hbuf, lastWordAtTlp_eq] using hone
  cases hends : s.writeEnds with
  | true =>
      have hle : s.wrPtr.remaining.toNat ≤ 8 := by
        simpa [State.writeEnds, hone, htwo, lastTwoWordsAtTlp_eq] using hends
      simp only [nextCtl, hs, hr, hends, if_true]
      rw [popcount_payloadKeep_remaining h hs hle]
      omega
  | false =>
      simp [nextCtl, hs, hr, hends, h.keep hs]
      decide

/-- Each clock edge takes at most two words from the buffer, no more than it has, and sends them in
order. -/
theorem load_consumes {s : State P} (h : PointerInv s) (i : Input P) :
    ∃ m, m ≤ 2 ∧ m ≤ s.c2sBufOccupancy.toNat ∧
      payload (load s i) =
        (List.range m).map (fun k => s.c2sWord (s.out.c2sRdPtr + BitVec.ofNat 5 k)) ∧
      (step s i).out.c2sRdPtr = s.out.c2sRdPtr + BitVec.ofNat 5 m := by
  cases hs : s.wrState with
  | idle =>
      refine ⟨0, by omega, by omega, ?_, ?_⟩
      · simp [load_idle hs, payload]
      · cases hr : i.axisRqTready <;> simp [nextOut, hs, hr]
  | initWrite =>
      rw [load_initWrite hs]
      cases hr : i.axisRqTready with
      | false =>
          exact ⟨0, by omega, by omega, by simp [payload], by simp [nextOut, hr]⟩
      | true =>
          cases h1 : s.oneWordAtBuffer with
          | false =>
              exact ⟨0, by omega, by omega, by simp [payload], by simp [nextOut, hs, hr, h1]⟩
          | true =>
              -- the header takes the first word of the payload along
              refine ⟨1, by omega, by simpa [oneWordAtBuffer_eq] using h1, ?_, ?_⟩
              · simp [payload, Sent.payload, State.beat, nextOut, hs, hr, List.range_succ]
              · simp [nextOut, hs, hr, h1]
  | write =>
      rw [load_write hs]
      cases hr : i.axisRqTready with
      | false =>
          exact ⟨0, by omega, by omega, by simp [payload], by simp [nextOut, hr]⟩
      | true =>
          cases h1 : (s.oneWordAtBuffer && s.lastWordAtTlp) with
          | true =>
              -- the last word of the TLP travels alone
              have hone : s.oneWordAtBuffer = true := (Bool.and_eq_true_iff.mp h1).1
              have hkeep := popcount_tkeep_last h hs hr h1
              refine ⟨1, by omega, by simpa [oneWordAtBuffer_eq] using hone, ?_, ?_⟩
              · simp [payload, Sent.payload, State.beat, nextOut, hs, hr, h1, hkeep,
                  List.range_succ]
              · simp [nextOut, hs, hr, h1]
          | false =>
              cases h2 : s.twoWordsAtBuffer with
              | false =>
                  exact ⟨0, by omega, by omega, by simp [payload],
                    by simp [nextOut, hs, hr, h1, h2]⟩
              | true =>
                  have htwo : 2 ≤ s.c2sBufOccupancy.toNat := by
                    simpa [twoWordsAtBuffer_eq] using h2
                  have hkeep := popcount_tkeep_two h hs hr h1 h2
                  refine ⟨2, by omega, htwo, ?_, ?_⟩
                  · simp [payload, Sent.payload, State.beat, nextOut, hs, hr, h1, h2, hkeep,
                      List.range_succ]
                  · simp [nextOut, hs, hr, h1, h2]
  | initRead =>
      rw [load_initRead hs]
      refine ⟨0, by omega, by omega, ?_, ?_⟩
      · split <;> simp [payload, Sent.payload]
      · cases hr : i.axisRqTready <;> simp [nextOut, hs, hr]
  | waitRead =>
      refine ⟨0, by omega, by omega, ?_, ?_⟩
      · simp [load_waitRead hs, payload]
      · cases hr : i.axisRqTready <;> simp [nextOut, hs, hr]

/-! ## The buffer as a queue -/

/-- The circular buffer refines a queue: `accepted` is everything that was ever put in, `carried`
everything that was taken out. -/
structure QueueInv (s : State P) (accepted carried : List (BitVec 128)) : Prop where
  carried_isPrefix : carried <+: accepted
  occupancy : accepted.length ≤ carried.length + 14
  wrPtr : s.c2s.wrPtr = BitVec.ofNat 5 accepted.length
  rdPtr : s.out.c2sRdPtr = BitVec.ofNat 5 carried.length
  ring : RingHolds 16 s.c2s.slots accepted carried.length

theorem QueueInv.reset : QueueInv (Rq.reset P) [] [] where
  carried_isPrefix := List.prefix_rfl
  occupancy := by simp
  wrPtr := rfl
  rdPtr := rfl
  ring := RingHolds.nil _ _

/-- The difference of the pointers is the number of words in the queue. -/
theorem QueueInv.occupancy_eq {s : State P} {accepted carried : List (BitVec 128)}
    (h : QueueInv s accepted carried) :
    s.c2sBufOccupancy.toNat = accepted.length - carried.length := by
  have hle := h.carried_isPrefix.length_le
  have hocc := h.occupancy
  rw [State.c2sBufOccupancy, h.wrPtr, h.rdPtr]
  simp only [BitVec.toNat_sub, BitVec.toNat_ofNat]
  omega

/-- A queued word is found in the buffer where the read pointer says. -/
theorem QueueInv.word {s : State P} {accepted carried : List (BitVec 128)}
    (h : QueueInv s accepted carried) {k : Nat} (hk : carried.length + k < accepted.length) :
    accepted[carried.length + k]? = some (s.c2sWord (s.out.c2sRdPtr + BitVec.ofNat 5 k)) := by
  rw [h.ring.read (by omega) hk, State.c2sWord, h.rdPtr]
  congr 2
  simp only [BitVec.toNat_add, BitVec.toNat_ofNat]
  omega

/-- Taking the first `m` queued words leaves a prefix. -/
theorem QueueInv.carry {s : State P} {accepted carried : List (BitVec 128)}
    (h : QueueInv s accepted carried) (m : Nat) (hm : carried.length + m ≤ accepted.length) :
    carried ++ (List.range m).map (fun k => s.c2sWord (s.out.c2sRdPtr + BitVec.ofNat 5 k)) <+:
      accepted := by
  induction m with
  | zero =>
      simpa using h.carried_isPrefix
  | succ m ih =>
      have hword := h.word (k := m) (by omega)
      rw [List.range_succ, List.map_append, ← List.append_assoc]
      have hp := ih (by omega)
      obtain ⟨rest, hrest⟩ := hp
      have hlen : (carried ++ (List.range m).map
          (fun k => s.c2sWord (s.out.c2sRdPtr + BitVec.ofNat 5 k))).length =
            carried.length + m := by
        simp
      -- the words taken so far are a prefix, and the next word is the first one behind it
      cases rest with
      | nil =>
          rw [← hrest, List.append_nil, hlen] at hm
          omega
      | cons x rest =>
          have hx : accepted[carried.length + m]? = some x := by
            rw [← hrest, ← hlen]
            simp
          refine ⟨rest, ?_⟩
          rw [hx] at hword
          cases hword
          simpa using hrest

/-- Accepting a FIFO beat appends its valid words to the queue; the slot written speculatively on a
half beat is free. -/
theorem nextC2s_ring {s : State P} {accepted carried : List (BitVec 128)}
    (h : QueueInv s accepted carried) (i : Input P) :
    (nextC2s s i).wrPtr = BitVec.ofNat 5 (accepted ++ accepts s i).length ∧
      (accepted ++ accepts s i).length ≤ carried.length + 14 ∧
      RingHolds 16 (nextC2s s i).slots (accepted ++ accepts s i) carried.length := by
  have hle := h.carried_isPrefix.length_le
  cases hc : (i.c2sTvalid && s.c2sFifoTready) with
  | false =>
      simp only [nextC2s, accepts, hc]
      exact ⟨by simpa using h.wrPtr, by simpa using h.occupancy, by simpa using h.ring⟩
  | true =>
      -- `C2S_FIFO_TREADY` leaves room for two words
      have hroom : accepted.length ≤ carried.length + 12 := by
        have hready : s.c2sBufOccupancy ≤ 12 := by
          simpa [State.c2sFifoTready] using (Bool.and_eq_true_iff.mp hc).2
        have hnat : s.c2sBufOccupancy.toNat ≤ 12 := by
          simpa [BitVec.le_def] using hready
        rw [h.occupancy_eq] at hnat
        omega
      have hlo : s.c2s.wrPtr.toNat % 16 = accepted.length % 16 := by
        rw [h.wrPtr]
        simp
      have hhi : (s.c2s.wrPtr + 1).toNat % 16 = (accepted.length + 1) % 16 := by
        rw [h.wrPtr]
        simp [BitVec.toNat_add]
      have hpush := h.ring.push (by omega) i.c2sTdataLo
      simp only [nextC2s, accepts, hc, hlo, hhi, if_true]
      cases hk : i.c2sTkeepHi with
      | false =>
          refine ⟨?_, ?_, ?_⟩
          · rw [h.wrPtr]
            apply BitVec.eq_of_toNat_eq
            simp [BitVec.toNat_add]
          · simp
            omega
          · simpa using hpush.scribble (m := accepted.length + 1) (by simp) (by omega) i.c2sTdataHi
      | true =>
          refine ⟨?_, ?_, ?_⟩
          · rw [h.wrPtr]
            apply BitVec.eq_of_toNat_eq
            simp [BitVec.toNat_add]
          · simp
            omega
          · simpa using hpush.push (by simp; omega) i.c2sTdataHi

/-- One clock edge of the queue. -/
theorem QueueInv.step {s : State P} {accepted carried : List (BitVec 128)}
    (h : QueueInv s accepted carried) (hp : PointerInv s) (i : Input P) :
    QueueInv (step s i) (accepted ++ accepts s i) (carried ++ payload (load s i)) := by
  obtain ⟨m, hm2, hmocc, hload, hptr⟩ := load_consumes hp i
  obtain ⟨hwr, hroom, hring⟩ := nextC2s_ring h i
  have hle := h.carried_isPrefix.length_le
  rw [h.occupancy_eq] at hmocc
  have hlen : (payload (load s i)).length = m := by
    rw [hload]
    simp
  constructor
  · rw [hload]
    exact (h.carry m (by omega)).trans (List.prefix_append _ _)
  · have hcarried : (carried ++ payload (load s i)).length = carried.length + m := by
      rw [List.length_append, hlen]
    omega
  · exact hwr
  · rw [hptr, h.rdPtr, List.length_append, hlen, BitVec.ofNat_add]
  · refine hring.consume ?_
    simp

/-- The words accepted from the C2S FIFO before cycle `t`. -/
def acceptedWords (inp : Run P) (t : Nat) : List (BitVec 128) :=
  collect (fun u => accepts (st inp u) (inp u)) 0 t

/-- The queue refinement along every run. -/
theorem queueInv (inp : Run P) (t : Nat) :
    QueueInv (st inp t) (acceptedWords inp t) (payload (collect (loads inp) 0 t)) := by
  induction t with
  | zero =>
      exact QueueInv.reset
  | succ t ih =>
      have hstep := ih.step (pointerInv inp t) (inp t)
      rw [← payload_append] at hstep
      simpa [acceptedWords, collect_succ, st_succ, loads] using hstep

/-- The beats handed over before cycle `t` are the beats loaded before it, but for the one that still
waits. -/
theorem collect_emits_isPrefix (inp : Run P) (t : Nat) :
    collect (emits inp) 0 t <+: collect (loads inp) 0 t := by
  refine ⟨waits inp t, ?_⟩
  have h := collect_emits_append_waits inp 0 t
  simpa [waits, held, Rq.reset] using h

/-- The payload words emitted before cycle `t` are a prefix of the words accepted before it. -/
theorem payload_emits_isPrefix (inp : Run P) (t : Nat) :
    payload (collect (emits inp) 0 t) <+: acceptedWords inp t := by
  obtain ⟨rest, hrest⟩ := collect_emits_isPrefix inp t
  have hp := (queueInv inp t).carried_isPrefix
  rw [← hrest, payload_append] at hp
  exact (List.prefix_append _ _).trans hp

end Payload

end Rq
end PcieBench
