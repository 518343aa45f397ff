import PcieBench.Dma.Core
import PcieBench.Manager.Statistics
import PcieBench.Rq.ByteCount

/-!
# Byte statistics of an operation

The request bytes count the beats handed over before the end of the operation, the completion bytes
every beat of the completion stream until then.  These are the answers to the requests of the
operation if nothing was left to answer when it started and nothing is when it ends.
-/

namespace PcieBench
namespace Dma

open Clocked Tlp
open Rq (Params Run)

section Answers

variable {P : Params}

/-! ## Whom a completion answers -/

/-- The tag of the completion TLP that a beat belongs to. -/
def Ledger.beatTag (l : Ledger P) (b : Rc.Beat) : BitVec 8 :=
  match l.transfer with
  | none => b.tlpTag
  | some x => x.tag

/-- The cycle in which the last request with tag `j` before cycle `t` was handed over. -/
def lastRequest (inp : Nat → Input P) : Nat → Fin P.windowSize → Option Nat
  | 0, _ => none
  | t + 1, j => if (requested inp t j).isSome then some t else lastRequest inp t j

/-- The beat of the completion stream in cycle `u` answers a request handed over in the cycles after
`start`, up to and including `stop`. -/
def answers (inp : Nat → Input P) (start stop u : Nat) : Bool :=
  (inp u).rc.tvalid && decide (∃ j : Fin P.windowSize,
    ((ledger inp u).beatTag (inp u).rc).toNat = j.val ∧
      (lastRequest inp u j).any (fun v => decide (start < v ∧ v ≤ stop)) = true)

/-- The enabled dwords of such a beat. -/
def answerKeep (inp : Nat → Input P) (start stop u : Nat) : Nat :=
  if answers inp start stop u then popcount (inp u).rc.tkeep else 0

/-- The enabled dwords of any beat of the completion stream. -/
def completionKeep (inp : Nat → Input P) (u : Nat) : Nat :=
  if (inp u).rc.tvalid then popcount (inp u).rc.tkeep else 0

/-- The host owes an answer for the tag. -/
def Ledger.Owes (l : Ledger P) (j : Fin P.windowSize) : Prop := 0 < l.due j ∨ 0 < l.inflight j

/-- Every read request has been handed over and answered. -/
structure Drained (inp : Nat → Input P) (t : Nat) : Prop where
  ledger : ∀ j, ¬ (ledger inp t).Owes j
  waiting : (sys inp t).rq.out.tvalid = true → Rq.origin (rqRun inp) t = .initRead →
    (sys inp t).rq.beat.dwords = 0

/-! ## What the host owes -/

variable {inp : Nat → Input P}

/-- A completion TLP in transfer has dwords and one of the tags. -/
def TransferOk (l : Ledger P) : Prop :=
  ∀ x, l.transfer = some x → 1 ≤ x.dwords ∧ ∃ j : Fin P.windowSize, x.tag.toNat = j.val

theorem transferOk (hhost : HostOk inp) (t : Nat) : TransferOk (ledger inp t) := by
  induction t with
  | zero =>
      intro x hx
      cases hx
  | succ t ih =>
      intro x hx
      have hbeat := hhost t
      simp only [ledger_succ, Ledger.next] at hx
      split at hx
      · rename_i hvalid
        have hbeat := hbeat hvalid
        split at hx
        · cases hx
        · cases htransfer : (ledger inp t).transfer with
          | none =>
              rw [htransfer] at hx hbeat
              obtain ⟨j, htag, hpos, -, -⟩ := hbeat
              obtain rfl := Option.some.inj hx
              exact ⟨hpos, j, htag⟩
          | some y =>
              rw [htransfer] at hx
              obtain rfl := Option.some.inj hx
              exact ih y htransfer
      · exact ih x hx

/-- The host only sends what it owes. -/
theorem owes_of_beat (hhost : HostOk inp) {u : Nat} (hvalid : (inp u).rc.tvalid = true) :
    ∃ j : Fin P.windowSize, ((ledger inp u).beatTag (inp u).rc).toNat = j.val ∧
      (ledger inp u).Owes j := by
  have hbeat := hhost u hvalid
  cases htransfer : (ledger inp u).transfer with
  | none =>
      rw [htransfer] at hbeat
      obtain ⟨j, htag, hpos, hdue, -⟩ := hbeat
      exact ⟨j, by simpa [Ledger.beatTag, htransfer] using htag, .inl (by omega)⟩
  | some x =>
      obtain ⟨hpos, j, htag⟩ := transferOk hhost u x htransfer
      refine ⟨j, by simpa [Ledger.beatTag, htransfer] using htag, .inr ?_⟩
      simp [Ledger.inflight, htransfer, htag]
      omega

/-- A debt comes from a request that is handed over. -/
theorem owes_succ (hhost : HostOk inp) {u : Nat} {j : Fin P.windowSize}
    (h : (ledger inp (u + 1)).Owes j) :
    (ledger inp u).Owes j ∨ ∃ d, requested inp u j = some d ∧ 0 < d := by
  rw [ledger_succ] at h
  rcases h with hdue | hflight
  · simp only [Ledger.next] at hdue
    cases hreq : requested inp u j with
    | some d =>
        rw [hreq] at hdue
        exact .inr ⟨d, rfl, hdue⟩
    | none =>
        simp only [hreq] at hdue
        refine .inl (.inl ?_)
        split at hdue <;> omega
  · left
    simp only [Ledger.inflight, Ledger.next] at hflight
    split at hflight
    · omega
    · rename_i x hx
      split at hx
      · rename_i hvalid
        split at hx
        · cases hx
        · cases htransfer : (ledger inp u).transfer with
          | none =>
              -- the first beat of a TLP takes its dwords off what is due
              have hbeat := hhost u hvalid
              rw [htransfer] at hx hbeat
              obtain rfl := Option.some.inj hx
              obtain ⟨k, htag, hpos, hdue, -⟩ := hbeat
              split at hflight
              · rename_i hj
                obtain rfl : j = k := Fin.ext (hj.symm.trans htag)
                exact .inl (by omega)
              · omega
          | some y =>
              rw [htransfer] at hx
              obtain rfl := Option.some.inj hx
              refine .inr ?_
              rw [Ledger.inflight, htransfer]
              exact hflight
      · refine .inr ?_
        rw [Ledger.inflight, hx]
        exact hflight

theorem lastRequest_eq_some {u v : Nat} {j : Fin P.windowSize} (h : lastRequest inp u j = some v) :
    v < u ∧ ∃ d, requested inp v j = some d := by
  induction u with
  | zero =>
      cases h
  | succ u ih =>
      simp only [lastRequest] at h
      split at h
      · rename_i hsome
        obtain rfl := Option.some.inj h
        exact ⟨by omega, Option.isSome_iff_exists.mp hsome⟩
      · obtain ⟨hlt, hreq⟩ := ih h
        exact ⟨by omega, hreq⟩

/-- What is owed after a cycle without debts has been requested since. -/
theorem requested_of_owes (hhost : HostOk inp) {a u : Nat} {j : Fin P.windowSize}
    (hclear : ¬ (ledger inp a).Owes j) (hau : a ≤ u) (howes : (ledger inp u).Owes j) :
    ∃ v w d, a ≤ v ∧ v ≤ w ∧ requested inp v j = some d ∧ 0 < d ∧ lastRequest inp u j = some w := by
  induction u, hau using Nat.le_induction with
  | base =>
      exact absurd howes hclear
  | succ u hau ih =>
      rw [lastRequest]
      rcases owes_succ hhost howes with hold | ⟨d, hd, hpos⟩
      · obtain ⟨v, w, d, hav, hvw, hreq, hpos, hlast⟩ := ih hold
        have hwu := (lastRequest_eq_some hlast).1
        split
        · exact ⟨v, u, d, hav, by omega, hreq, hpos, rfl⟩
        · exact ⟨v, w, d, hav, hvw, hreq, hpos, hlast⟩
      · refine ⟨u, u, d, hau, Nat.le_refl u, hd, hpos, ?_⟩
        rw [hd]
        rfl

/-! ## From the start to the end of an operation -/

variable {start s t stop : Nat}

/-- A request with dwords waits in the output register. -/
theorem waiting_of_requested {u d : Nat} {j : Fin P.windowSize} (h : requested inp u j = some d)
    (hpos : 0 < d) : (sys inp u).rq.out.tvalid = true ∧ Rq.origin (rqRun inp) u = .initRead ∧
      (sys inp u).rq.beat.dwords ≠ 0 := by
  obtain ⟨-, hvalid, horigin, -, hd⟩ := requested_eq_some h
  refine ⟨hvalid, horigin, ?_⟩
  intro hzero
  rw [hzero] at hd
  simp at hd
  omega

/-- When the operation starts without debts, what the host owes after that was requested by the
operation. -/
theorem Drained.ledger_succ (h : Drained inp t) (hhost : HostOk inp) (j : Fin P.windowSize) :
    ¬ (Dma.ledger inp (t + 1)).Owes j := by
  intro howes
  rcases owes_succ hhost howes with hold | ⟨d, hd, hpos⟩
  · exact h.ledger j hold
  · obtain ⟨hvalid, horigin, hne⟩ := waiting_of_requested hd hpos
    exact hne (h.waiting hvalid horigin)

/-- Behind the end of an operation no request with dwords is handed over. -/
theorem Drained.not_waiting (h : Drained inp t) (op : Rq.Spans (rqRun inp) start s t)
    (hrest : ∀ u, t < u → u < stop → (Rq.st (rqRun inp) (u + 1)).wrState = .idle) {u : Nat}
    (htu : t ≤ u) (hus : u ≤ stop) (hvalid : (sys inp u).rq.out.tvalid = true)
    (horigin : Rq.origin (rqRun inp) u = .initRead) : (sys inp u).rq.beat.dwords = 0 := by
  induction u, htu using Nat.le_induction with
  | base =>
      exact h.waiting hvalid horigin
  | succ u htu ih =>
      rw [← st_rqRun] at hvalid ⊢
      cases hready : (rqRun inp u).axisRqTready with
      | true =>
          rw [Rq.tvalid_of_ready (op.rests hrest htu (by omega)) hready] at hvalid
          cases hvalid
      | false =>
          obtain ⟨hout, hctl⟩ := Rq.step_beat_of_not_tready (Rq.st (rqRun inp) u) (rqRun inp u) hready
          rw [Rq.origin_succ, hready] at horigin
          rw [Rq.st_succ, hout] at hvalid
          have hbeat : (Rq.st (rqRun inp) (u + 1)).beat = (Rq.st (rqRun inp) u).beat := by
            simp only [Rq.st_succ, Rq.State.beat, hout, hctl]
          rw [hbeat]
          rw [st_rqRun] at hvalid ⊢
          exact ih (by omega) hvalid horigin

/-- The answers to the requests of the operation are the beats of the completion stream while the gate
is open. -/
theorem answers_iff (hhost : HostOk inp) (op : Rq.Spans (rqRun inp) start s t)
    (hstart : Drained inp start) (hend : Drained inp t) (hts : t ≤ stop)
    (hrest : ∀ u, t < u → u < stop → (Rq.st (rqRun inp) (u + 1)).wrState = .idle) (u : Nat) :
    answers inp start stop u = true ↔ (inp u).rc.tvalid = true ∧ s < u ∧ u ≤ t := by
  rw [answers, Bool.and_eq_true, decide_eq_true_eq]
  refine and_congr_right ?_
  intro hvalid
  obtain ⟨j, htag, howes⟩ := owes_of_beat hhost hvalid
  constructor
  · rintro ⟨k, hk, hany⟩
    obtain rfl : j = k := Fin.ext (htag.symm.trans hk)
    rw [Option.any_eq_true] at hany
    obtain ⟨v, hlast, hv⟩ := hany
    rw [decide_eq_true_eq] at hv
    obtain ⟨hvu, d, hreq⟩ := lastRequest_eq_some hlast
    constructor
    · -- nothing is handed over before the gate opens
      by_contra hle
      have hwaits := (requested_eq_some hreq).2.1
      rw [← st_rqRun, op.silent hv.1 (by omega)] at hwaits
      cases hwaits
    · -- a debt behind the end would come from a request that was still waiting there
      by_contra hgt
      obtain ⟨x, w, d, htx, hxw, hreq, hpos, hw⟩ :=
        requested_of_owes hhost (hend.ledger j) (by omega) howes
      obtain rfl := Option.some.inj (hlast.symm.trans hw)
      obtain ⟨hx, horigin, hne⟩ := waiting_of_requested hreq hpos
      exact hne (hend.not_waiting op hrest htx (by omega) hx horigin)
  · -- what is owed while the gate is open was requested since the start
    rintro ⟨hsu, hut⟩
    have hlt := op.start_lt
    obtain ⟨x, w, d, htx, hxw, -, -, hw⟩ :=
      requested_of_owes hhost (hstart.ledger_succ hhost j) (show start + 1 ≤ u by omega) howes
    have hwu := (lastRequest_eq_some hw).1
    refine ⟨j, htag, ?_⟩
    rw [hw, Option.any_some, decide_eq_true_eq]
    omega

/-- `bytes_comp_r` in the cycle of the update. -/
theorem bytesComp_eq (op : Rq.Measured (rqRun inp) start s t) :
    (sys inp (t + 1)).rq.latency.bytesComp =
      BitVec.ofNat 64 (∑ u ∈ Finset.Ioc s t, completionKeep inp u) := by
  have hsum := op.counted (x := fun u => (Rq.st (rqRun inp) u).latency.bytesComp)
    (y := fun u => BitVec.ofNat 64 (completionKeep inp u)) ?_
  · rw [← st_rqRun, hsum, sum_ofNat]
  · intro u
    simp only [Rq.st_succ, Rq.step_latency, Rq.nextLatency, completionKeep, rqRun, rqInput,
      Bool.and_true]
    cases (inp u).rc.tvalid <;> simp

/-- The completion bytes are those of the answers to the requests of the operation. -/
theorem bytesComp_of_drained (hhost : HostOk inp) (op : Rq.Measured (rqRun inp) start s t)
    (hstart : Drained inp start) (hend : Drained inp t) (hts : t ≤ stop)
    (hrest : ∀ u, t < u → u < stop → (Rq.st (rqRun inp) (u + 1)).wrState = .idle) {n : Nat}
    (htn : t < n) :
    (sys inp (t + 1)).rq.latency.bytesComp =
      BitVec.ofNat 64 (∑ u ∈ Finset.range n, answerKeep inp start stop u) := by
  have hkeep : ∀ u, answerKeep inp start stop u =
      if u ∈ Finset.Ioc s t then completionKeep inp u else 0 := by
    intro u
    have hiff := answers_iff hhost op.toSpans hstart hend hts hrest u
    simp only [Finset.mem_Ioc]
    by_cases hu : s < u ∧ u ≤ t
    · simp [answerKeep, completionKeep, hiff, hu]
    · simp [answerKeep, hiff, hu]
  have hsub : Finset.Ioc s t ⊆ Finset.range n := by
    intro u hu
    rw [Finset.mem_Ioc] at hu
    rw [Finset.mem_range]
    omega
  simp only [bytesComp_eq op, hkeep, Finset.sum_ite_mem, Finset.inter_eq_right.mpr hsub]

/-! ## When nothing is left to answer -/

/-- Without a clash, the host owes nothing and no request waits when the tags of the window are
free. -/
theorem drained_of_free {w : BitVec 64} (h : SystemInv inp t)
    (hwin : ∀ t, (inp t).currentWindowSize = w)
    (hfree : ∀ j : Fin P.windowSize, j.val < (w.setWidth 8).toNat →
      (sys inp t).rq.tags.current j = false) : Drained inp t := by
  -- only tags outside the window are busy, and they have no request
  have hbusy : ∀ j : Fin P.windowSize, (sys inp t).rq.tags.current j = true →
      (sys inp t).rq.tags.size j = 0 := by
    intro j hj
    refine size_outside hwin t ?_
    by_contra hlt
    rw [hfree j (by omega)] at hj
    cases hj
  constructor
  · intro j howes
    have hclear : (ledger inp t).due j = 0 ∧ (ledger inp t).inflight j = 0 := by
      rcases h.phase j with hp | hp | hp | hp | hp
      · exact ⟨hp.due, hp.inflight⟩
      · exact ⟨hp.due, hp.inflight⟩
      · exact absurd (hbusy j hp.busy) hp.size
      · have hmissing := hp.missing
        rw [hbusy j hp.busy] at hmissing
        simp at hmissing
      · exact absurd (hbusy j hp.busy) hp.size
    rcases howes with hdue | hflight <;> omega
  · intro hvalid horigin
    obtain ⟨j, -, hsize, -, -, -, hcurrent⟩ := h.pending hvalid horigin
    by_contra hne
    rw [← hsize] at hne
    exact hne (hbusy j (hcurrent hne))

end Answers

section Core

variable {P : Params} {memories : Manager.Memories} {inp : Nat → CoreInput} {start s t stop : Nat}

/-- The window that the core has from reset on. -/
def FixedWindow (P : Params) (memories : Manager.Memories) (inp : Nat → CoreInput) (w : BitVec 64) :
    Prop :=
  ∀ t, (dmaRun P memories inp t).currentWindowSize = w

/-- A window register that the host never writes keeps its default. -/
theorem fixedWindow_of_kept (hkeep : ∀ t, (inp t).host.writesRegister 3 = false) :
    FixedWindow P memories inp (BitVec.ofNat 64 P.windowSize) := by
  have hboth : ∀ t,
      (core P memories inp t).mgr.regs.windowSize = BitVec.ofNat 64 P.windowSize ∧
        (core P memories inp t).mgr.out.windowSize = BitVec.ofNat 64 P.windowSize := by
    intro t
    induction t with
    | zero =>
        exact ⟨rfl, rfl⟩
    | succ t ih =>
        refine ⟨?_, ih.1⟩
        have hstore : (core P memories inp (t + 1)).mgr.regs.windowSize =
            (inp t).host.store 3 (core P memories inp t).mgr.regs.windowSize := rfl
        rw [hstore, Manager.HostAccess.store, hkeep t]
        exact ih.1
  exact fun t => (hboth t).2

/-- Between two operations the tags of a fixed window are free. -/
theorem current_of_idle {w : BitVec 64} (hwin : FixedWindow P memories inp w)
    (hcap : Rq.ReadCapStable (rqRun (dmaRun P memories inp)))
    (hs : (Rq.st (rqRun (dmaRun P memories inp)) t).wrState = .idle) {j : Fin P.windowSize}
    (hj : j.val < (w.setWidth 8).toNat) :
    (Rq.st (rqRun (dmaRun P memories inp)) t).tags.current j = false := by
  by_contra hbusy
  rw [Bool.not_eq_false] at hbusy
  have hnone := (Rq.drainInv (windowStable_of_fixed hwin) hcap t).idle hs j
  rw [← rqRun_engineRun] at hnone hbusy
  rw [Engine.outstanding_of_current memories (engineRun P memories inp) ?_ hj hbusy] at hnone
  · cases hnone
  · intro u _
    rw [rqRun_engineRun]
    exact Nat.le_of_eq (congrArg (fun x : BitVec 64 => (x.setWidth 8).toNat) (hwin u).symm)

/-- At its end an operation has freed the tags of a fixed window. -/
theorem current_of_ended {w : BitVec 64} (hwin : FixedWindow P memories inp w)
    (hcap : Rq.ReadCapStable (rqRun (dmaRun P memories inp)))
    (hend : (Rq.st (rqRun (dmaRun P memories inp)) t).endOfOperation = true) {j : Fin P.windowSize}
    (hj : j.val < (w.setWidth 8).toNat) :
    (Rq.st (rqRun (dmaRun P memories inp)) t).tags.current j = false := by
  by_cases hs : (Rq.st (rqRun (dmaRun P memories inp)) t).wrState = .idle
  · exact current_of_idle hwin hcap hs hj
  · have hm := Rq.finishes_of_end hend hs (rqRun (dmaRun P memories inp) t)
    refine hm.tag_free (windowStable_of_fixed hwin) j ?_
    rw [← hwin t] at hj
    exact hj

/-- With a fixed window and without a clash, nothing is left to answer when an operation starts or
ends. -/
theorem drained_of_no_clash {w : BitVec 64} (hhost : HostOk (dmaRun P memories inp))
    (hwin : FixedWindow P memories inp w)
    (hcap : Rq.ReadCapStable (rqRun (dmaRun P memories inp)))
    (hclash : ∀ u j, ¬ Clash (dmaRun P memories inp) u j)
    (ht : (Rq.st (rqRun (dmaRun P memories inp)) t).wrState = .idle ∨
      (Rq.st (rqRun (dmaRun P memories inp)) t).endOfOperation = true) :
    Drained (dmaRun P memories inp) t := by
  refine drained_of_free (systemInv hhost hwin (fun u _ => hclash u) t (Nat.le_refl t)) hwin ?_
  intro j hj
  rw [← st_rqRun]
  rcases ht with hs | hend
  · exact current_of_idle hwin hcap hs hj
  · exact current_of_ended hwin hcap hend hj

/-! ## The statistics -/

/-- The slot of the statistics of the operation that ends in cycle `t`. -/
def statisticsSlot (P : Params) (memories : Manager.Memories) (inp : Nat → CoreInput) (t : Nat) :
    Manager.Index :=
  Manager.nextIndex (Engine.active memories (engineRun P memories inp) t)

/-- `BYTES_AT_REQ` of the operation that starts in cycle `start` and ends in cycle `t`: the enabled
dwords of all its beats, handed over until cycle `stop`. -/
def RequestBytes (P : Params) (memories : Manager.Memories) (inp : Nat → CoreInput)
    (start t stop : Nat) : Prop :=
  Engine.statistic memories (engineRun P memories inp) .bytesAtReq (t + 3)
      (statisticsSlot P memories inp t) =
    BitVec.ofNat 64
      (∑ u ∈ Finset.Ioc start stop, Rq.requestKeep (rqRun (dmaRun P memories inp)) u)

/-- `BYTES_AT_COMP` of this operation: the enabled dwords of all answers to its requests, however long
the completion stream is observed. -/
def CompletionBytes (P : Params) (memories : Manager.Memories) (inp : Nat → CoreInput)
    (start t stop : Nat) : Prop :=
  ∀ n, t < n →
    Engine.statistic memories (engineRun P memories inp) .bytesAtComp (t + 3)
        (statisticsSlot P memories inp t) =
      BitVec.ofNat 64 (∑ u ∈ Finset.range n, answerKeep (dmaRun P memories inp) start stop u)

/-- The request bytes are right exactly if no beat of the operation is held back in the cycle of its
end; the completion bytes are right if nothing is left to answer when it starts and when it ends, as
it is with a fixed window and without a clash. -/
theorem byte_statistics (hhost : HostOk (dmaRun P memories inp))
    (op : Rq.Spans (rqRun (dmaRun P memories inp)) start s t)
    (hregs : Engine.RegistersKept (engineRun P memories inp) start t) (hts : t ≤ stop)
    (hrest : ∀ u, t < u → u < stop →
      (Rq.st (rqRun (dmaRun P memories inp)) (u + 1)).wrState = .idle) :
    (RequestBytes P memories inp start t stop ↔
      ¬ Rq.HeldBack (rqRun (dmaRun P memories inp)) t stop) ∧
    (Drained (dmaRun P memories inp) start → Drained (dmaRun P memories inp) t →
      CompletionBytes P memories inp start t stop) ∧
    (∀ w, FixedWindow P memories inp w → Rq.ReadCapStable (rqRun (dmaRun P memories inp)) →
      (∀ u j, ¬ Clash (dmaRun P memories inp) u j) →
        Drained (dmaRun P memories inp) start ∧ Drained (dmaRun P memories inp) t) := by
  have hmeasured : Rq.Measured (rqRun (dmaRun P memories inp)) start s t := by
    rw [← rqRun_engineRun] at op ⊢
    exact hregs.measured memories op
  -- the measurements go to the slot as they are in the cycle of the update
  have hstored : ∀ f, Engine.statistic memories (engineRun P memories inp) f (t + 3)
      (statisticsSlot P memories inp t) =
        Engine.measurement memories (engineRun P memories inp) f (t + 1) := by
    intro f
    refine Engine.statistic_of_ended memories (engineRun P memories inp) f ?_
    rw [rqRun_engineRun]
    exact op.ends
  have hreq : Engine.measurement memories (engineRun P memories inp) .bytesAtReq (t + 1) =
      (Rq.st (rqRun (dmaRun P memories inp)) (t + 1)).latency.bytesReq := by
    rw [← rqRun_engineRun, Engine.st_rqRun]
    rfl
  have hcomp : Engine.measurement memories (engineRun P memories inp) .bytesAtComp (t + 1) =
      (sys (dmaRun P memories inp) (t + 1)).rq.latency.bytesComp := by
    rw [← st_rqRun, ← rqRun_engineRun, Engine.st_rqRun]
    rfl
  refine ⟨?_, ?_, ?_⟩
  · rw [RequestBytes, hstored, hreq]
    exact hmeasured.bytesReq_iff hts hrest
  · intro hstart hend n htn
    rw [hstored, hcomp]
    exact bytesComp_of_drained hhost hmeasured hstart hend hts hrest htn
  · intro w hwin hcap hclash
    exact ⟨drained_of_no_clash hhost hwin hcap hclash (.inl op.idle),
      drained_of_no_clash hhost hwin hcap hclash (.inr op.ends)⟩

end Core

/-! ## A beat held back -/

/-- A write of four bytes; in cycle 10, in which the operation ends, the core may be stalled. -/
def fourBytes (stall : Bool) (t : Nat) : CoreInput where
  host := (Engine.fourBytes Engine.noAccess t).host
  axisRqTready := !(stall && decide (t = 10))
  rc := { tvalid := false, tlast := false, tkeep := 0, tdata := 0 }
  c2sTvalid := true
  c2sTdataLo := 0
  c2sTdataHi := 0
  c2sTkeepHi := true
  byteCount := 0
  collisions := Engine.quiet.collisions

theorem fourBytes_hostOk (stall : Bool) (memories : Manager.Memories) :
    HostOk (dmaRun Rq.pcieController memories (fourBytes stall)) := by
  intro t hvalid
  cases hvalid

theorem fourBytes_spans (stall : Bool) :
    Rq.Spans (rqRun (dmaRun Rq.pcieController Engine.emptyMemories (fourBytes stall))) 8 9 10 where
  idle := by cases stall <;> decide +kernel
  leaves := by cases stall <;> decide +kernel
  start_lt := by decide
  opens := by cases stall <;> decide +kernel
  first u hu hus := by omega
  start_lt_end := by decide
  ends := by cases stall <;> decide +kernel
  running u hu hut := by
    obtain rfl : u = 9 := by omega
    cases stall <;> decide +kernel

theorem fourBytes_registersKept (stall : Bool) :
    Engine.RegistersKept
      (engineRun Rq.pcieController Engine.emptyMemories (fourBytes stall)) 8 10 := by
  intro u hu hut k _
  obtain rfl | rfl : u = 8 ∨ u = 9 := by omega
  · rfl
  · rfl

theorem fourBytes_rests (stall : Bool) : ∀ u, 10 < u → u < 12 →
    (Rq.st (rqRun (dmaRun Rq.pcieController Engine.emptyMemories (fourBytes stall)))
      (u + 1)).wrState = .idle := by
  intro u hu hut
  obtain rfl : u = 11 := by omega
  cases stall <;> decide +kernel

/-- A read of four bytes; the host answers it in cycle 14. -/
def fourBytesRead (t : Nat) : CoreInput where
  host :=
    if t = 0 then Engine.hostWrite 0x208 0x100000
    else if t = 1 then Engine.hostWrite 0x209 4
    else if t = 2 then Engine.hostWrite 0x207 1
    else if t = 6 then Engine.hostWrite 0x200 9
    else Engine.noAccess
  axisRqTready := true
  rc := { completionTlp 0 1 (decide (t = 14)) (decide (t = 14)) with tkeep := 0x0f }
  c2sTvalid := false
  c2sTdataLo := 0
  c2sTdataHi := 0
  c2sTkeepHi := true
  byteCount := 0
  collisions := Engine.quiet.collisions

theorem fourBytesRead_host {t : Nat} (ht : 7 ≤ t) : (fourBytesRead t).host = Engine.noAccess := by
  simp only [fourBytesRead, if_neg (show ¬ t = 0 by omega), if_neg (show ¬ t = 1 by omega),
    if_neg (show ¬ t = 2 by omega), if_neg (show ¬ t = 6 by omega)]

/-- The host is silent but for the answer. -/
theorem fourBytesRead_silent {t : Nat} (ht : t ≠ 14) : (fourBytesRead t).rc.tvalid = false :=
  decide_eq_false ht

/-- The operation runs from cycle 8 to cycle 16. -/
theorem fourBytesRead_run :
    ((∀ t, t < 8 → (Rq.st (rqRun (dmaRun Rq.pcieController Engine.emptyMemories fourBytesRead))
        (t + 1)).wrState = .idle) ∧
      (Rq.st (rqRun (dmaRun Rq.pcieController Engine.emptyMemories fourBytesRead)) 9).wrState ≠ .idle ∧
      Rq.opensGate (rqRun (dmaRun Rq.pcieController Engine.emptyMemories fourBytesRead)) 9 ∧
      (∀ t, t < 17 → 8 < t →
        (Rq.st (rqRun (dmaRun Rq.pcieController Engine.emptyMemories fourBytesRead)) t).endOfOperation =
          decide (t = 16)) ∧
      (Rq.st (rqRun (dmaRun Rq.pcieController Engine.emptyMemories fourBytesRead)) 18).wrState = .idle) ∧
    BeatOk (ledger (dmaRun Rq.pcieController Engine.emptyMemories fourBytesRead) 14)
      (fourBytesRead 14).rc ∧
    (sys (dmaRun Rq.pcieController Engine.emptyMemories fourBytesRead) 13).rq.wrState ≠ .initRead ∧
    ∀ t, t < 7 → (fourBytesRead t).host.writesRegister 3 = false := by
  decide +kernel

theorem fourBytesRead_hostOk :
    HostOk (dmaRun Rq.pcieController Engine.emptyMemories fourBytesRead) := by
  intro t
  by_cases ht : t = 14
  · rw [ht]
    exact fourBytesRead_run.2.1
  · intro hvalid
    have hsilent := fourBytesRead_silent ht
    cases hsilent.symm.trans hvalid

theorem fourBytesRead_no_clash (t : Nat) (j : Fin Rq.pcieController.windowSize) :
    ¬ Clash (dmaRun Rq.pcieController Engine.emptyMemories fourBytesRead) t j := by
  rintro ⟨harmed, hvalid, -⟩
  have ht : t = 13 := by
    by_contra hne
    cases (fourBytesRead_silent (t := t + 1) (by omega)).symm.trans hvalid
  have hstate : (sys (dmaRun Rq.pcieController Engine.emptyMemories fourBytesRead) t).rq.wrState ≠
      .initRead := by
    rw [ht]
    exact fourBytesRead_run.2.2.1
  have hissues := harmed.issues
  simp [Rq.issuesTag, hstate] at hissues

theorem fourBytesRead_window :
    FixedWindow Rq.pcieController Engine.emptyMemories fourBytesRead 24 := by
  refine fixedWindow_of_kept ?_
  intro t
  rcases Nat.lt_or_ge t 7 with hlt | hge
  · exact fourBytesRead_run.2.2.2 t hlt
  · rw [fourBytesRead_host hge]
    rfl

theorem fourBytesRead_registersKept (t : Nat) : Engine.RegistersKept
    (engineRun Rq.pcieController Engine.emptyMemories fourBytesRead) 8 t := by
  intro u hu _ k _
  have hhost : (engineRun Rq.pcieController Engine.emptyMemories fourBytesRead u).host =
      Engine.noAccess := fourBytesRead_host (by omega)
  rw [hhost]
  rfl

/-- The direction is chosen before the operation. -/
theorem fourBytesRead_capRead :
    Rq.ReadCapStable (rqRun (dmaRun Rq.pcieController Engine.emptyMemories fourBytesRead)) := by
  intro t hbusy
  rcases Nat.lt_or_ge t 8 with hlt | hge
  · exact absurd (fourBytesRead_run.1.1 t hlt) hbusy
  · have hkept := fourBytesRead_registersKept (t + 1)
    rw [← rqRun_engineRun, Engine.rqRun_cfg, Engine.rqRun_cfg, Engine.descriptor, Engine.descriptor]
    dsimp only
    rw [hkept.capabilities _ (show 8 ≤ t + 1 by omega) (Nat.le_refl _),
      hkept.capabilities _ hge (Nat.le_succ t)]

theorem fourBytesRead_spans :
    Rq.Spans (rqRun (dmaRun Rq.pcieController Engine.emptyMemories fourBytesRead)) 8 9 16 where
  idle := fourBytesRead_run.1.1 7 (by decide)
  leaves := fourBytesRead_run.1.2.1
  start_lt := by decide
  opens := fourBytesRead_run.1.2.2.1
  first u hu hus := by omega
  start_lt_end := by decide
  ends := fourBytesRead_run.1.2.2.2.1 16 (by decide) (by decide)
  running u hu hut := by
    rw [fourBytesRead_run.1.2.2.2.1 u (by omega) hu]
    exact decide_eq_false (by omega)

theorem fourBytesRead_rests : ∀ u, 16 < u → u < 18 →
    (Rq.st (rqRun (dmaRun Rq.pcieController Engine.emptyMemories fourBytesRead)) (u + 1)).wrState =
      .idle := by
  intro u hu hut
  obtain rfl : u = 17 := by omega
  exact fourBytesRead_run.1.2.2.2.2

/-- Without the stall the five dwords of the beat are in the statistics; of the read, the four of the
request and the four of its answer. -/
theorem byte_statistics_fourBytes :
    RequestBytes Rq.pcieController Engine.emptyMemories (fourBytes false) 8 10 12 ∧
      RequestBytes Rq.pcieController Engine.emptyMemories fourBytesRead 8 16 18 ∧
      CompletionBytes Rq.pcieController Engine.emptyMemories fourBytesRead 8 16 18 := by
  have hwrite := byte_statistics (fourBytes_hostOk false _) (fourBytes_spans false)
    (fourBytes_registersKept false) (by decide) (fourBytes_rests false)
  obtain ⟨hrequest, hcompletion, hdrained⟩ := byte_statistics fourBytesRead_hostOk
    fourBytesRead_spans (fourBytesRead_registersKept 16) (by decide) fourBytesRead_rests
  obtain ⟨hstart, hend⟩ :=
    hdrained 24 fourBytesRead_window fourBytesRead_capRead fourBytesRead_no_clash
  refine ⟨hwrite.1.mpr ?_, hrequest.mpr ?_, hcompletion hstart hend⟩
  · rintro ⟨-, hready, -⟩
    cases hready
  · rintro ⟨-, hready, -⟩
    cases hready

/-- With it they are not: the beat is handed over one cycle after the end. -/
theorem last_beat_not_counted :
    HostOk (dmaRun Rq.pcieController Engine.emptyMemories (fourBytes true)) ∧
      Rq.Spans (rqRun (dmaRun Rq.pcieController Engine.emptyMemories (fourBytes true))) 8 9 10 ∧
      Engine.RegistersKept
        (engineRun Rq.pcieController Engine.emptyMemories (fourBytes true)) 8 10 ∧
      ¬ RequestBytes Rq.pcieController Engine.emptyMemories (fourBytes true) 8 10 12 := by
  refine ⟨fourBytes_hostOk true _, fourBytes_spans true, fourBytes_registersKept true, ?_⟩
  rw [RequestBytes, Engine.statistic, Engine.mgr, sys_engineRun]
  decide +kernel

end Dma
end PcieBench
