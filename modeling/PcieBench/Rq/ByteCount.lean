import PcieBench.Rq.Measure
import PcieBench.Rq.Payload

/-!
# Request bytes of an operation

`bytes_req_r` adds up the enabled dwords of the beats handed over while the gate is open.  The gate
closes with `end_of_operation`, which the FSM gives when it has loaded the last beat.  A beat that
the core holds back in that cycle is handed over behind the closed gate.
-/

namespace PcieBench
namespace Rq

open Clocked Tlp

section ByteCount

variable {P : Params}

/-- The enabled dwords of the beat handed over in cycle `t`. -/
def requestKeep (inp : Run P) (t : Nat) : Nat :=
  if (st inp t).out.tvalid && (inp t).axisRqTready then popcount (st inp t).ctl.tkeep else 0

/-- The beat in the output register in cycle `t` is held back and handed over until cycle `stop`. -/
def HeldBack (inp : Run P) (t stop : Nat) : Prop :=
  (st inp t).out.tvalid = true ∧ (inp t).axisRqTready = false ∧
    ∃ u, t < u ∧ u ≤ stop ∧ (inp u).axisRqTready = true

/-! ## Every beat enables a dword -/

theorem popcount_headerKeep_pos : ∀ r : BitVec 4, 1 ≤ popcount (headerKeep r) := by
  decide

/-- A beat that is loaded enables a dword. -/
theorem keep_pos_of_load {s : State P} (h : PointerInv s) {i : Input P}
    (hready : i.axisRqTready = true) (hvalid : (step s i).out.tvalid = true) :
    1 ≤ popcount (step s i).ctl.tkeep := by
  have hfull : 1 ≤ popcount 0xff := by decide
  simp only [step_out, nextOut, step_ctl, nextCtl, hready, if_true] at hvalid ⊢
  cases hs : s.wrState with
  | idle =>
      simp [hs] at hvalid
  | waitRead =>
      simp [hs] at hvalid
  | initWrite =>
      simp only [hs] at hvalid
      simp only [hvalid, if_true]
      split
      · exact popcount_headerKeep_pos _
      · exact hfull
  | write =>
      -- the last beat of a TLP keeps what is left of it, the others keep all dwords
      simp only
      split
      · rename_i hends
        have hle : s.wrPtr.remaining.toNat ≤ 8 := by
          simp only [State.writeEnds, lastWordAtTlp_eq, lastTwoWordsAtTlp_eq, Bool.or_eq_true,
            Bool.and_eq_true, decide_eq_true_eq] at hends
          omega
        simp only [popcount_payloadKeep_remaining h hs hle]
        exact h.remaining_pos hs
      · rw [h.keep hs]
        exact hfull
  | initRead =>
      simp only
      decide

/-- The beat in the output register enables a dword. -/
theorem keep_pos (inp : Run P) (t : Nat) (hvalid : (st inp t).out.tvalid = true) :
    1 ≤ popcount (st inp t).ctl.tkeep := by
  induction t with
  | zero =>
      cases hvalid
  | succ t ih =>
      cases hready : (inp t).axisRqTready with
      | true =>
          exact keep_pos_of_load (pointerInv inp t) hready hvalid
      | false =>
          obtain ⟨hout, hctl⟩ := step_beat_of_not_tready (st inp t) (inp t) hready
          rw [st_succ, hout] at hvalid
          rw [st_succ, hctl]
          exact ih hvalid

/-! ## Before and behind the gate -/

variable {inp : Run P} {start s t : Nat}

/-- Until the gate opens the output register is empty. -/
theorem Spans.silent (h : Spans inp start s t) {u : Nat} (hu : start < u) (hus : u ≤ s) :
    (st inp u).out.tvalid = false := by
  induction u, hu using Nat.le_induction with
  | base =>
      rw [st_succ, step_out, nextOut, h.begins.1, h.idle]
      rfl
  | succ u hu ih =>
      have hready : (inp u).axisRqTready = false := by
        by_contra hready
        rw [Bool.not_eq_false] at hready
        refine h.first u hu hus ⟨?_, hready⟩
        rw [(h.waits hu (by omega)).1]
        rcases h.begins.2.2 with ⟨-, hs⟩ | ⟨-, hs⟩
        · exact .inl hs
        · exact .inr hs
      rw [st_succ, (step_beat_of_not_tready _ _ hready).1]
      exact ih (by omega)

/-- What is handed over up to the end of the operation is handed over while the gate is open. -/
theorem Spans.sum_requestKeep (h : Spans inp start s t) :
    ∑ u ∈ Finset.Ioc start t, requestKeep inp u = ∑ u ∈ Finset.Ioc s t, requestKeep inp u := by
  have hsplit := Finset.sum_Ioc_consecutive (requestKeep inp) h.start_lt.le h.lt_end.le
  have hbefore : ∑ u ∈ Finset.Ioc start s, requestKeep inp u = 0 := by
    refine Finset.sum_eq_zero ?_
    intro u hu
    rw [Finset.mem_Ioc] at hu
    simp [requestKeep, h.silent hu.1 hu.2]
  omega

/-- In an idle state the output register is emptied by the first `TREADY`. -/
theorem tvalid_of_ready {u : Nat}
    (hs : (st inp u).wrState = .idle ∨ (st inp u).wrState = .waitRead)
    (hready : (inp u).axisRqTready = true) : (st inp (u + 1)).out.tvalid = false := by
  rw [st_succ, step_out, nextOut, hready]
  rcases hs with hs | hs <;> simp [hs]

/-- From its end until the next operation starts, the FSM does not load anything. -/
theorem Spans.rests (h : Spans inp start s t) {stop : Nat}
    (hrest : ∀ u, t < u → u < stop → (st inp (u + 1)).wrState = .idle) {u : Nat} (htu : t ≤ u)
    (hus : u ≤ stop) : (st inp u).wrState = .idle ∨ (st inp u).wrState = .waitRead := by
  rcases Nat.eq_or_lt_of_le htu with rfl | htu
  · exact idle_or_waitRead_of_end h.ends
  · obtain ⟨v, rfl⟩ : ∃ v, u = v + 1 := ⟨u - 1, by omega⟩
    left
    rcases Nat.eq_or_lt_of_le (Nat.le_of_lt_succ htu) with rfl | htv
    · exact (endOfOperation_once h.ends (inp t)).1
    · exact hrest v htv hus

/-- The output register behind the end of an operation: the beat of cycle `t` as long as `TREADY` is
low, then nothing. -/
inductive Behind (inp : Run P) (t v : Nat) : Prop
  | holds (low : ∀ u, t ≤ u → u ≤ v → (inp u).axisRqTready = false)
      (out : (st inp (v + 1)).out = (st inp t).out) (ctl : (st inp (v + 1)).ctl = (st inp t).ctl)
      (sum : ∑ u ∈ Finset.Ioc t v, requestKeep inp u = 0)
  | empty (high : ∃ u, t ≤ u ∧ u ≤ v ∧ (inp u).axisRqTready = true)
      (out : (st inp (v + 1)).out.tvalid = false)
      (sum : ∑ u ∈ Finset.Ioc t v, requestKeep inp u =
        if (inp t).axisRqTready then 0 else if (st inp t).out.tvalid then popcount (st inp t).ctl.tkeep
          else 0)

theorem Spans.behind (h : Spans inp start s t) {stop : Nat}
    (hrest : ∀ u, t < u → u < stop → (st inp (u + 1)).wrState = .idle) {v : Nat} (htv : t ≤ v)
    (hvs : v ≤ stop) : Behind inp t v := by
  induction v, htv using Nat.le_induction with
  | base =>
      cases hready : (inp t).axisRqTready with
      | true =>
          refine .empty ⟨t, Nat.le_refl t, Nat.le_refl t, hready⟩
            (tvalid_of_ready (h.rests hrest (Nat.le_refl t) hvs) hready) ?_
          simp [hready]
      | false =>
          obtain ⟨hout, hctl⟩ := step_beat_of_not_tready (st inp t) (inp t) hready
          refine .holds ?_ (by rw [st_succ, hout]) (by rw [st_succ, hctl]) (by simp)
          intro u htu hut
          obtain rfl : u = t := by omega
          exact hready
  | succ v htv ih =>
      have hempty : (inp (v + 1)).axisRqTready = true → (st inp (v + 1 + 1)).out.tvalid = false :=
        tvalid_of_ready (h.rests hrest (u := v + 1) (by omega) hvs)
      rcases ih (by omega) with ⟨hlow, hout, hctl, hsum⟩ | ⟨⟨u, htu, huv, hhigh⟩, hout, hsum⟩
      · -- the beat of cycle `t` is still there: it goes with the first `TREADY`
        cases hready : (inp (v + 1)).axisRqTready with
        | true =>
            refine .empty ⟨v + 1, by omega, Nat.le_refl _, hready⟩ (hempty hready) ?_
            rw [Finset.sum_Ioc_succ_top htv, hsum, hlow t (Nat.le_refl t) htv, requestKeep, hout, hctl,
              hready]
            simp
        | false =>
            obtain ⟨hout', hctl'⟩ := step_beat_of_not_tready (st inp (v + 1)) (inp (v + 1)) hready
            refine .holds ?_ (by rw [st_succ, hout', hout]) (by rw [st_succ, hctl', hctl]) ?_
            · intro u htu huv
              rcases Nat.eq_or_lt_of_le huv with rfl | huv
              · exact hready
              · exact hlow u htu (by omega)
            · rw [Finset.sum_Ioc_succ_top htv, hsum, requestKeep, hready]
              simp
      · refine .empty ⟨u, htu, by omega, hhigh⟩ ?_ ?_
        · cases hready : (inp (v + 1)).axisRqTready with
          | true =>
              exact hempty hready
          | false =>
              rw [st_succ, (step_beat_of_not_tready _ _ hready).1]
              exact hout
        · rw [Finset.sum_Ioc_succ_top htv, hsum, requestKeep, hout]
          simp

/-- Behind the end of an operation nothing is handed over but a beat held back in the cycle of the
end. -/
theorem Spans.sum_behind (h : Spans inp start s t) {stop : Nat} (hts : t ≤ stop)
    (hrest : ∀ u, t < u → u < stop → (st inp (u + 1)).wrState = .idle) :
    ∑ u ∈ Finset.Ioc t stop, requestKeep inp u = 0 ↔ ¬ HeldBack inp t stop := by
  rcases h.behind hrest hts (Nat.le_refl stop) with ⟨hlow, -, -, hsum⟩ | ⟨⟨u, htu, hus, hhigh⟩, -, hsum⟩
  · refine iff_of_true hsum ?_
    rintro ⟨-, -, u, htu, hus, hhigh⟩
    rw [hlow u htu.le hus] at hhigh
    cases hhigh
  · rw [hsum]
    cases hready : (inp t).axisRqTready with
    | true =>
        simp [HeldBack, hready]
    | false =>
        cases hvalid : (st inp t).out.tvalid with
        | false =>
            simp [HeldBack, hvalid]
        | true =>
            have hpos := keep_pos inp t hvalid
            refine iff_of_false ?_ ?_
            · simp
              omega
            · rw [not_not]
              refine ⟨hvalid, hready, u, ?_, hus, hhigh⟩
              rcases Nat.eq_or_lt_of_le htu with rfl | htu
              · rw [hready] at hhigh
                cases hhigh
              · exact htu

/-- That is one beat at most. -/
theorem Spans.sum_behind_le (h : Spans inp start s t) {stop : Nat} (hts : t ≤ stop)
    (hrest : ∀ u, t < u → u < stop → (st inp (u + 1)).wrState = .idle) :
    ∑ u ∈ Finset.Ioc t stop, requestKeep inp u ≤ 8 := by
  have hkeep : ∀ k : BitVec 8, popcount k ≤ 8 := by decide
  rcases h.behind hrest hts (Nat.le_refl stop) with ⟨-, -, -, hsum⟩ | ⟨-, -, hsum⟩
  · omega
  · rw [hsum]
    have := hkeep (st inp t).ctl.tkeep
    split
    · omega
    · split <;> omega

/-! ## What the counter shows -/

/-- `bytes_req_r` in the cycle of the update. -/
theorem Measured.bytesReq_eq (h : Measured inp start s t) :
    (st inp (t + 1)).latency.bytesReq =
      BitVec.ofNat 64 (∑ u ∈ Finset.Ioc start t, requestKeep inp u) := by
  have hsum := h.counted (x := fun u => (st inp u).latency.bytesReq)
    (y := fun u => BitVec.ofNat 64 (requestKeep inp u)) ?_
  · rw [hsum, sum_ofNat, h.sum_requestKeep]
  · intro u
    simp only [st_succ, step_latency, nextLatency, requestKeep]
    cases ((st inp u).out.tvalid && (inp u).axisRqTready) <;> simp

/-- The statistic is the sum over all beats of the operation exactly if none was held back. -/
theorem Measured.bytesReq_iff (h : Measured inp start s t) {stop : Nat} (hts : t ≤ stop)
    (hrest : ∀ u, t < u → u < stop → (st inp (u + 1)).wrState = .idle) :
    (st inp (t + 1)).latency.bytesReq =
        BitVec.ofNat 64 (∑ u ∈ Finset.Ioc start stop, requestKeep inp u) ↔
      ¬ HeldBack inp t stop := by
  have hsplit := Finset.sum_Ioc_consecutive (requestKeep inp) h.start_lt_end.le hts
  rw [← h.sum_behind hts hrest, h.bytesReq_eq, ← hsplit, ← BitVec.toNat_inj, BitVec.toNat_ofNat,
    BitVec.toNat_ofNat]
  -- a difference of at most eight does not wrap around 64 bits
  have hle := h.sum_behind_le hts hrest
  omega

end ByteCount

end Rq
end PcieBench
