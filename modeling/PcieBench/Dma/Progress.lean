import PcieBench.Clocked.Eventually
import PcieBench.Dma.Completion
import PcieBench.Rq.SequenceReads

/-!
# Requests are answered

A host that goes on with what it has begun, and begins an answer for each request with dwords due, brings
every memory read to its pulse on `COMPLETED_TAGS`.  The request waits in the output register until the core
takes it; from then on the dwords due and the beats left of its completion TLP are a rank that every beat
for its tag makes smaller.
-/

namespace PcieBench
namespace Dma

open Clocked
open Rq (Params Completed)

section Progress

variable {P : Params}

/-! ## What is left of an answer -/

/-- The dwords of tag `j` that the ledger knows of: received, in transfer or due. -/
def Ledger.owed (l : Ledger P) (j : Fin P.windowSize) : Nat := l.received j + l.inflight j + l.due j

/-- The beats to come of the completion TLP in transfer, if it is for tag `j`. -/
def Ledger.beatsLeft (l : Ledger P) (j : Fin P.windowSize) : Nat :=
  match l.transfer with
  | none => 0
  | some x => if x.tag.toNat = j.val then x.left else 0

/-- The rank of an answer. -/
def Ledger.rank (l : Ledger P) (j : Fin P.windowSize) : Nat × Nat := (l.due j, l.beatsLeft j)

/-- The beat belongs to a completion TLP for tag `j`. -/
def Ledger.Moves (l : Ledger P) (b : Rc.Beat) (j : Fin P.windowSize) : Prop :=
  l.opens b j = true ∨
    ∃ x, l.transfer = some x ∧ x.tag.toNat = j.val ∧ b.tvalid = true

variable {s : System P} {i : Input P} {l : Ledger P} {req : Fin P.windowSize → Option Nat}
  {iss : Fin P.windowSize → Bool} {j : Fin P.windowSize}

theorem Ledger.transfer_of_inflight (h : l.inflight j ≠ 0) :
    ∃ x, l.transfer = some x ∧ x.tag.toNat = j.val := by
  cases ht : l.transfer with
  | none =>
      simp [Ledger.inflight, ht] at h
  | some x =>
      refine ⟨x, rfl, ?_⟩
      by_contra hne
      simp [Ledger.inflight, ht, hne] at h

section Next

variable (hinv : TransferInv s l) (hbeat : BeatOk l i.rc) (hreq : req j = none)

include hinv hreq

theorem TransferInv.due_next (iss : Fin P.windowSize → Bool) : (l.next i.rc req iss).due j =
    if Rc.startsTag s.rc i.rc j then l.due j - i.rc.tlpDwords.toNat else l.due j := by
  simp [Ledger.next, hreq, hinv.opens_eq]

include hbeat

/-- A completion TLP moves dwords from due to transfer and from there to what has been received, but
neither loses any nor adds some. -/
theorem TransferInv.owed_next (hiss : iss j = false) : (l.next i.rc req iss).owed j = l.owed j := by
  have hdue := hinv.due_next (i := i) hreq iss
  cases hstart : Rc.startsTag s.rc i.rc j with
  | true =>
      obtain ⟨hnone, hvalid, htag, -, hle, -⟩ := hinv.starts hbeat hstart
      have hflight : l.inflight j = 0 := by simp [Ledger.inflight, hnone]
      rw [hstart, if_pos rfl] at hdue
      cases hl : i.rc.tlast with
      | true =>
          obtain ⟨hreceived, hflight'⟩ := l.next_of_single hnone hvalid hl htag req hiss
          rw [Ledger.owed, Ledger.owed, hdue, hreceived, hflight', hflight]
          omega
      | false =>
          obtain ⟨hreceived, hflight'⟩ := l.next_of_first hnone hvalid hl htag req hiss
          rw [Ledger.owed, Ledger.owed, hdue, hreceived, hflight', hflight]
          omega
  | false =>
      rw [hstart, if_neg (by simp)] at hdue
      by_cases hflight : l.inflight j = 0
      · have hq := hinv.quiet hflight hstart
        rw [Ledger.owed, Ledger.owed, hdue, hq.received, hq.inflight, hiss, hflight]
        rfl
      · obtain ⟨x, hx, htag⟩ := Ledger.transfer_of_inflight hflight
        have hdwords : l.inflight j = x.dwords := by simp [Ledger.inflight, hx, htag]
        cases hlast : (i.rc.tvalid && i.rc.tlast) with
        | true =>
            obtain ⟨hreceived, hflight'⟩ := l.next_of_last hx htag hlast req hiss
            rw [Ledger.owed, Ledger.owed, hdue, hreceived, hflight', hdwords]
            omega
        | false =>
            obtain ⟨hreceived, hflight'⟩ := l.next_of_not_last hx htag hlast req hiss
            rw [Ledger.owed, Ledger.owed, hdue, hreceived, hflight', hdwords]

/-- A beat for the tag makes the rank smaller, and nothing else changes it. -/
theorem TransferInv.rank_next :
    (l.Moves i.rc j ∧ Prod.Lex (· < ·) (· < ·) ((l.next i.rc req iss).rank j) (l.rank j)) ∨
      (¬ l.Moves i.rc j ∧ (l.next i.rc req iss).rank j = l.rank j) := by
  have hdue := hinv.due_next (i := i) hreq iss
  cases hstart : Rc.startsTag s.rc i.rc j with
  | true =>
      -- a first beat takes its dwords off what is due
      obtain ⟨-, -, -, hpos, hle, -⟩ := hinv.starts hbeat hstart
      rw [hstart, if_pos rfl] at hdue
      refine .inl ⟨.inl ?_, .left _ _ ?_⟩
      · rw [hinv.opens_eq, hstart]
      · rw [hdue]
        omega
  | false =>
      rw [hstart, if_neg (by simp)] at hdue
      have hopens : l.opens i.rc j = false := by rw [hinv.opens_eq, hstart]
      rw [Ledger.rank, Ledger.rank, hdue]
      cases hx : l.transfer with
      | none =>
          -- a TLP that begins is for another tag
          have hother : i.rc.tvalid = true → i.rc.tlpTag.toNat ≠ j.val := by
            intro hv htag
            simp [Ledger.opens, hv, hx, htag] at hopens
          refine .inr ⟨?_, ?_⟩
          · rintro (h | ⟨x, h, -⟩)
            · rw [hopens] at h
              cases h
            · rw [hx] at h
              cases h
          · cases hv : i.rc.tvalid with
            | false =>
                simp [Ledger.beatsLeft, Ledger.next, hv, hx]
            | true =>
                cases hl : i.rc.tlast <;>
                  simp [Ledger.beatsLeft, Ledger.next, hv, hl, hx, hother hv]
      | some x =>
          obtain ⟨-, -, hleft⟩ := hinv.running x hx
          by_cases htag : x.tag.toNat = j.val
          · cases hv : i.rc.tvalid with
            | true =>
                refine .inl ⟨.inr ⟨x, hx, htag, hv⟩, .right _ ?_⟩
                cases hl : i.rc.tlast <;>
                  simp [Ledger.beatsLeft, Ledger.next, hv, hl, hx, htag] <;> omega
            | false =>
                refine .inr ⟨?_, ?_⟩
                · rintro (h | ⟨-, -, -, h⟩)
                  · rw [hopens] at h
                    cases h
                  · rw [hv] at h
                    cases h
                · simp [Ledger.beatsLeft, Ledger.next, hv, hx]
          · refine .inr ⟨?_, ?_⟩
            · rintro (h | ⟨y, hy, hother, -⟩)
              · rw [hopens] at h
                cases h
              · rw [hx, Option.some.injEq] at hy
                rw [← hy] at hother
                exact htag hother
            · cases hv : i.rc.tvalid <;> cases hl : i.rc.tlast <;>
                simp [Ledger.beatsLeft, Ledger.next, hv, hl, hx, htag]

end Next

/-! ## A request on its way -/

section Run

variable (inp : Nat → Input P)

/-- The host goes on with the completion TLP in transfer, and begins one for every tag with dwords due, in
its own time. -/
structure Answers : Prop where
  goesOn : ∀ t, (ledger inp t).transfer.isSome = true → ∃ u, t ≤ u ∧ (inp u).rc.tvalid = true
  begins : ∀ t j, 0 < (ledger inp t).due j → ∃ u, t ≤ u ∧ (ledger inp u).opens (inp u).rc j = true

/-- A request for tag `j` is in the output register. -/
structure Waiting (t : Nat) (j : Fin P.windowSize) : Prop where
  tvalid : (sys inp t).rq.out.tvalid = true
  origin : Rq.origin (rqRun inp) t = .initRead
  tag : (sys inp t).rq.beat.tag.toNat = j.val
  size : (sys inp t).rq.tags.size j ≠ 0

/-- The core has taken the request for tag `j`, and the host owes the rest of its dwords. -/
structure Counting (t : Nat) (j : Fin P.windowSize) : Prop where
  settled : Settled (sys inp t) (ledger inp t) j
  owed : (ledger inp t).owed j = ((sys inp t).rq.tags.size j).toNat

variable {inp} {w : BitVec 64} {t v : Nat}

/-- While it waits nothing has been received for the tag, nothing is due and the tag is busy. -/
theorem Waiting.pending (h : Waiting inp t j) (hsys : SystemInv inp t) :
    (ledger inp t).received j = 0 ∧ (ledger inp t).inflight j = 0 ∧ (ledger inp t).due j = 0 ∧
      (sys inp t).rq.tags.size j = (sys inp t).rq.beat.dwords ∧
      (sys inp t).rq.tags.current j = true ∧ (sys inp t).rc.completedTags j = false := by
  obtain ⟨k, hk, hsize, hreceived, hflight, hdue, hbusy⟩ := hsys.pending h.tvalid h.origin
  obtain rfl : j = k := Fin.ext (h.tag.symm.trans hk)
  refine ⟨hreceived, hflight, hdue, hsize, hbusy h.size, ?_⟩
  rcases hsys.phase j with hp | hp | hp | hp | hp
  · exact hp.completed
  · exact absurd hp.size h.size
  · exact hp.completed
  · exact hp.completed
  · -- a completed tag has received its dwords
    have hpos := size_ne_zero.mp h.size
    rw [← hp.received, hreceived] at hpos
    cases hpos

/-- A request that the core does not take stays. -/
theorem Waiting.stays (h : Waiting inp t j) (hready : (inp t).axisRqTready = false) :
    Waiting inp (t + 1) j := by
  obtain ⟨hout, hctl⟩ := Rq.step_beat_of_not_tready (sys inp t).rq (rqInput (sys inp t) (inp t)) hready
  have hbeat : (sys inp (t + 1)).rq.beat = (sys inp t).rq.beat := by
    simp only [sys_succ_rq, Rq.State.beat, hout, hctl]
  have hno : (rqRun inp t).axisRqTready = false := hready
  refine ⟨?_, ?_, ?_, ?_⟩
  · rw [sys_succ_rq, hout]
    exact h.tvalid
  · rw [Rq.origin_succ, if_neg (by simp [hno])]
    exact h.origin
  · rw [hbeat]
    exact h.tag
  · rw [sys_succ, step_size_of_not_issues (by simp [Rq.issuesTag, rqInput, hready])]
    exact h.size

/-- The cycle in which the core takes it: all its dwords are due. -/
theorem Waiting.taken (h : Waiting inp t j) (hsys : SystemInv inp t) (hnext : SystemInv inp (t + 1))
    (hbeat : BeatOk (ledger inp t) (inp t).rc) (hready : (inp t).axisRqTready = true) :
    Counting inp (t + 1) j := by
  obtain ⟨hreceived, hflight, hdue, hsize, hbusy, hcompleted⟩ := h.pending hsys
  have hiss := Rq.issuesTag_of_busy (i := rqInput (sys inp t) (inp t)) hbusy
  have hsame := step_size_of_not_issues (i := inp t) hiss
  rw [← sys_succ] at hsame
  have hq := hsys.transfer.quiet_of_due hbeat hflight hdue
  have hrequested : requested inp t j = some ((sys inp t).rq.tags.size j).toNat := by
    have hr : (rqRun inp t).axisRqTready = true := hready
    simp only [requested, Rq.emits, transferred, st_rqRun, h.tvalid, hr, Bool.and_self, if_true,
      h.origin, h.tag, and_self, hsize]
  have hdue' : (ledger inp (t + 1)).due j = ((sys inp t).rq.tags.size j).toNat := by
    rw [ledger_succ, hq.due, hrequested]
    rfl
  have hreceived' : (ledger inp (t + 1)).received j = 0 := by
    rw [ledger_succ, hq.received, hiss]
    exact hreceived
  have hflight' : (ledger inp (t + 1)).inflight j = 0 := by
    rw [ledger_succ]
    exact hq.inflight _ _
  have hbusy' : (sys inp (t + 1)).rq.tags.current j = true := by
    rw [sys_succ, step_busy_of_not_issues hiss]
    exact .inl ⟨hbusy, hcompleted⟩
  have hpos := size_ne_zero.mp h.size
  refine ⟨?_, ?_⟩
  · -- of the phases only one has dwords due
    rcases hnext.phase j with hp | hp | hp | hp | hp
    · rw [hp.busy] at hbusy'
      cases hbusy'
    · exact absurd hp.size (by rw [hsame]; exact h.size)
    · have := hp.due
      omega
    · exact hp
    · have := hp.due
      omega
  · rw [Ledger.owed, hreceived', hflight', hdue', hsame]
    omega

/-- One cycle of a tag whose dwords are counted: its pulse comes next, or the rank gets smaller with a beat
for the tag and stays without one. -/
theorem Counting.step (h : Counting inp t j) (hsys : SystemInv inp t)
    (hbeat : BeatOk (ledger inp t) (inp t).rc) :
    (sys inp (t + 1)).rc.completedTags j = true ∨
      (Counting inp (t + 1) j ∧
        (((ledger inp t).Moves (inp t).rc j ∧
            Prod.Lex (· < ·) (· < ·) ((ledger inp (t + 1)).rank j) ((ledger inp t).rank j)) ∨
          (¬ (ledger inp t).Moves (inp t).rc j ∧
            (ledger inp (t + 1)).rank j = (ledger inp t).rank j))) := by
  have hok := hsys.pending.requestOk j
  have hiss := Rq.issuesTag_of_busy (i := rqInput (sys inp t) (inp t)) h.settled.busy
  have hsame := step_size_of_not_issues (i := inp t) hiss
  -- its request was taken before, so none is handed over now
  have hnone : requested inp t j = none := by
    by_contra hsome
    obtain ⟨d, hd⟩ := Option.ne_none_iff_exists'.mp hsome
    obtain ⟨-, hreceived, hflight, hdue, -⟩ := hok d hd
    have howed := h.owed
    have hmissing := h.settled.missing
    rw [Ledger.owed] at howed
    omega
  rcases h.settled.step hsys.transfer hbeat hok with hnext | hnext
  · right
    rw [ledger_succ]
    refine ⟨⟨?_, ?_⟩, hsys.transfer.rank_next hbeat hnone⟩
    · rw [ledger_succ]
      exact hnext
    · rw [ledger_succ, hsys.transfer.owed_next hbeat hnone hiss, h.owed, sys_succ, hsame]
  · exact .inl hnext.completed

/-- The host does not leave it at that: some cycle has a beat for the tag. -/
theorem Counting.moves (h : Counting inp t j) (hanswers : Answers inp) :
    ¬ ∀ u, t ≤ u → ¬ (ledger inp u).Moves (inp u).rc j := by
  intro hnone
  by_cases hflight : (ledger inp t).inflight j = 0
  · have hdue : 0 < (ledger inp t).due j := by
      have howed := h.owed
      have hmissing := h.settled.missing
      rw [Ledger.owed, hflight] at howed
      omega
    obtain ⟨u, hu, hopens⟩ := hanswers.begins t j hdue
    exact hnone u hu (.inl hopens)
  · -- its completion TLP stays in transfer as long as no beat comes
    have hstays : ∀ u, t ≤ u → ∃ x, (ledger inp u).transfer = some x ∧ x.tag.toNat = j.val := by
      refine persists ?_ (Ledger.transfer_of_inflight hflight)
      rintro u hu ⟨x, hx, htag⟩
      have hidle : (inp u).rc.tvalid = false := by
        by_contra hv
        exact hnone u hu (.inr ⟨x, hx, htag, by simpa using hv⟩)
      refine ⟨x, ?_, htag⟩
      simp [ledger_succ, Ledger.next, hidle, hx]
    obtain ⟨y, hy, -⟩ := hstays t (Nat.le_refl t)
    obtain ⟨u, hu, hvalid⟩ := hanswers.goesOn t (by rw [hy]; rfl)
    obtain ⟨x, hx, htag⟩ := hstays u hu
    exact hnone u hu (.inr ⟨x, hx, htag, hvalid⟩)

/-- Once the core has taken a request the pulse of its tag comes. -/
theorem Counting.completed (h : Counting inp t j) (hsys : ∀ u, SystemInv inp u) (hhost : HostOk inp)
    (hanswers : Answers inp) : ∃ u, t < u ∧ (sys inp u).rc.completedTags j = true := by
  have hreach : ∃ u, t ≤ u ∧ (sys inp (u + 1)).rc.completedTags j = true := by
    refine eventually_of_rank (r := Prod.Lex (· < ·) (· < ·))
      (WellFounded.prod_lex Nat.lt_wfRel.wf Nat.lt_wfRel.wf)
      (fun u => (sys inp (u + 1)).rc.completedTags j = true)
      (fun u => ¬ (ledger inp u).Moves (inp u).rc j)
      (fun u x => Counting inp u j ∧ x = (ledger inp u).rank j) ?_ ?_ ⟨h, rfl⟩
    · rintro u x ⟨hu, rfl⟩
      rcases hu.step (hsys u) (hhost u) with hpulse | ⟨hnext, ⟨-, hless⟩ | ⟨hstall, hsame⟩⟩
      · exact .inl hpulse
      · exact .inr (.inr ⟨_, hless, hnext, rfl⟩)
      · exact .inr (.inl ⟨hstall, hnext, hsame.symm⟩)
    · rintro u x ⟨hu, -⟩
      exact hu.moves hanswers
  obtain ⟨u, hu, hpulse⟩ := hreach
  exact ⟨u + 1, by omega, hpulse⟩

/-! ## The answer to a request -/

variable {x : Rq.Sent}

/-- From the cycle after the request on its tag waits for its dwords. -/
theorem size_of_completed (hwin : ∀ t, (inp t).currentWindowSize = w)
    (h : Completed (rqRun inp) v t x j) {y : Nat} (hvy : v + 1 ≤ y) (hyt : y ≤ t) :
    (sys inp y).rq.tags.size j = x.beat.dwords := by
  have hstable := windowStable_of_fixed hwin
  obtain ⟨hm, hbeat⟩ := Rq.issuesRead_of_mem_load h.loaded h.read
  obtain ⟨k, hk⟩ := hm.takesTag (fun _ => hstable.mask_le (by simp [hm.initRead]))
  obtain rfl : j = k := by
    apply Fin.ext
    rw [← h.tag, hbeat, hk.tag]
  refine interval_induction (p := fun y => (sys inp y).rq.tags.size j = x.beat.dwords) (b := t) ?_ ?_ y
    hvy hyt
  · have hsize := hk.size
    rw [← hbeat, ← Rq.st_succ, st_rqRun] at hsize
    exact hsize
  · intro z hvz hzt hsize
    have hbusy := Rq.outstanding_busy hstable z j (h.live z hvz (by omega))
    rw [st_rqRun] at hbusy
    rw [← hsize]
    exact step_size_of_not_issues (Rq.issuesTag_of_busy hbusy)

/-- Without a clash all dwords of a request have been received when it is completed. -/
theorem received_of_completed (hhost : HostOk inp) (hwin : ∀ t, (inp t).currentWindowSize = w)
    (hclash : ∀ u j, ¬ Clash inp u j) (h : Completed (rqRun inp) v t x j) :
    x.beat.dwords.toNat ≤ (ledger inp t).received j := by
  have hinv := systemInv hhost hwin (n := t) (fun u _ => hclash u) t (Nat.le_refl t)
  have hbusy := Rq.outstanding_busy (windowStable_of_fixed hwin) t j (h.live t h.lt (Nat.le_refl t))
  rw [st_rqRun] at hbusy
  rw [← size_of_completed hwin h h.lt (Nat.le_refl t)]
  exact (hinv.phase j).sound h.pulse hbusy

/-- A request that has been issued waits in the output register. -/
theorem waiting_of_load (hwin : ∀ t, (inp t).currentWindowSize = w) (hx : x ∈ Rq.loads (rqRun inp) v)
    (horigin : x.origin = .initRead) (hdwords : x.beat.dwords ≠ 0) :
    ∃ j : Fin P.windowSize, x.beat.tag.toNat = j.val ∧ Waiting inp (v + 1) j := by
  obtain ⟨hm, hbeat⟩ := Rq.issuesRead_of_mem_load hx horigin
  obtain ⟨j, hj⟩ := hm.takesTag
    (fun _ => (windowStable_of_fixed hwin).mask_le (by simp [hm.initRead]))
  have hstep : Rq.step (Rq.st (rqRun inp) v) (rqRun inp v) = (sys inp (v + 1)).rq := by
    rw [← Rq.st_succ, st_rqRun]
  have htag := hj.tag
  have hsize := hj.size
  rw [hstep] at hbeat htag hsize
  refine ⟨j, by rw [hbeat, htag], ?_, ?_, htag, ?_⟩
  · have hload := hm.load
    rw [Rq.load, hm.tready, Bool.true_and, hstep] at hload
    by_contra hno
    rw [if_neg hno] at hload
    cases hload
  · rw [Rq.origin_succ, if_pos hm.tready, hm.initRead]
  · rw [hsize, ← hbeat]
    exact hdwords

section Answered

variable (hhost : HostOk inp) (hanswers : Answers inp)
  (htready : ∀ t, ∃ u, t ≤ u ∧ (inp u).axisRqTready = true)
  (hwin : ∀ t, (inp t).currentWindowSize = w) (hclash : ∀ t j, ¬ Clash inp t j)

include hhost hanswers htready hwin hclash

/-- Its pulse comes, and until then no other request has its tag. -/
theorem completed_of_load (hx : x ∈ Rq.loads (rqRun inp) v) (horigin : x.origin = .initRead)
    (hdwords : x.beat.dwords ≠ 0) : ∃ j t, Completed (rqRun inp) v t x j := by
  have hsys : ∀ u, SystemInv inp u :=
    fun u => systemInv hhost hwin (n := u) (fun y _ => hclash y) u (Nat.le_refl u)
  obtain ⟨j, htag, hwait⟩ := waiting_of_load hwin hx horigin hdwords
  -- the request waits until the core takes it
  obtain ⟨u, hvu, hready, hstill, -⟩ := lasts_until (p := fun u => Waiting inp u j)
    (fun u _ h hno => h.stays (by simpa using hno)) hwait (htready (v + 1))
  have hcounting := hstill.taken (hsys u) (hsys (u + 1)) (hhost u) hready
  obtain ⟨y, hy, hpulse⟩ := hcounting.completed hsys hhost hanswers
  obtain ⟨t, -, hdone⟩ := Rq.exists_completed (windowStable_of_fixed hwin) hx horigin htag
    (t := y + 1) ⟨y, by omega, Nat.lt_succ_self y, hpulse⟩
  exact ⟨j, t, hdone⟩

/-- Where the core takes its beats, the host answers and no clash happens, every memory read is completed:
its pulse comes when all its dwords have been received, and until then no other request has its tag. -/
theorem request_answered (hx : x ∈ Rq.loads (rqRun inp) v) (horigin : x.origin = .initRead)
    (hdwords : x.beat.dwords ≠ 0) :
    ∃ j t, Completed (rqRun inp) v t x j ∧ x.beat.dwords.toNat ≤ (ledger inp t).received j := by
  obtain ⟨j, t, hdone⟩ := completed_of_load hhost hanswers htready hwin hclash hx horigin hdwords
  exact ⟨j, t, hdone, received_of_completed hhost hwin hclash hdone⟩

end Answered

/-! ## A host that has answered everything -/

/-- Behind a cycle in which nothing is due and nothing in transfer, a card that requests nothing and a host
that sends nothing leave it at that. -/
theorem settled_of_silent {n : Nat} (hnone : (ledger inp n).transfer = none)
    (hdue : ∀ j, (ledger inp n).due j = 0) (hidle : ∀ t, n ≤ t → (inp t).rc.tvalid = false)
    (hrequested : ∀ t j, n ≤ t → requested inp t j = none) :
    ∀ t, n ≤ t → (ledger inp t).transfer = none ∧ ∀ j, (ledger inp t).due j = 0 := by
  refine persists ?_ ⟨hnone, hdue⟩
  rintro t ht ⟨htransfer, hzero⟩
  have hquiet := hidle t ht
  refine ⟨?_, ?_⟩
  · simp [ledger_succ, Ledger.next, hquiet, htransfer]
  · intro j
    simp [ledger_succ, Ledger.next, hrequested t j ht, Ledger.opens, hquiet, hzero j]

/-- An idle FSM with an empty output register requests nothing. -/
theorem requested_of_idle {n : Nat} (hout : (sys inp n).rq.out.tvalid = false)
    (hidle : ∀ t, n ≤ t → (sys inp t).rq.wrState = .idle) (t : Nat) (j : Fin P.windowSize)
    (ht : n ≤ t) : requested inp t j = none := by
  have hempty : (sys inp t).rq.out.tvalid = false := by
    refine persists (p := fun t => (sys inp t).rq.out.tvalid = false) ?_ hout t ht
    intro u hu hu'
    have hload := Rq.load_idle (i := rqRun inp u) (hidle u hu)
    have hstep : Rq.step (sys inp u).rq (rqRun inp u) = (sys inp (u + 1)).rq := rfl
    cases hready : (inp u).axisRqTready with
    | true =>
        have hr : (rqRun inp u).axisRqTready = true := hready
        rw [Rq.load, hr, Bool.true_and, hstep] at hload
        by_contra hno
        rw [if_pos (by simpa using hno)] at hload
        cases hload
    | false =>
        have hr : (rqInput (sys inp u) (inp u)).axisRqTready = false := hready
        rw [sys_succ_rq, (Rq.step_beat_of_not_tready _ _ hr).1, hu']
  by_contra hsome
  obtain ⟨d, hd⟩ := Option.ne_none_iff_exists'.mp hsome
  rw [(requested_eq_some hd).2.1] at hempty
  cases hempty

/-- Where the one tag with dwords due is `k`, the host has answered everything with one beat in cycle `u`. -/
theorem answers_of_one {n u : Nat} {k : Fin P.windowSize}
    (hledger : ∀ t, t < n + 1 → (ledger inp t).transfer.isNone = true ∧
      ∀ j, 0 < (ledger inp t).due j → t < u + 1 ∧ j = k)
    (hun : u < n) (hopens : (ledger inp u).opens (inp u).rc k = true)
    (hsilent : ∀ t, n ≤ t → (inp t).rc.tvalid = false) (hout : (sys inp n).rq.out.tvalid = false)
    (hidle : ∀ t, n ≤ t → (sys inp t).rq.wrState = .idle) : Answers inp := by
  obtain ⟨hnone, hdue⟩ := hledger n (Nat.lt_succ_self n)
  have hzero : ∀ j, (ledger inp n).due j = 0 := by
    intro j
    by_contra hne
    have := (hdue j (Nat.pos_of_ne_zero hne)).1
    omega
  -- from cycle `n` on nothing is requested any more
  have hlate := settled_of_silent (Option.isNone_iff_eq_none.mp hnone) hzero hsilent
    (fun t j ht => requested_of_idle hout hidle t j ht)
  refine ⟨?_, ?_⟩
  · intro t hsome
    rcases Nat.lt_or_ge t n with hlt | hge
    · rw [Option.isNone_iff_eq_none.mp (hledger t (by omega)).1] at hsome
      cases hsome
    · rw [(hlate t hge).1] at hsome
      cases hsome
  · intro t j hj
    rcases Nat.lt_or_ge t n with hlt | hge
    · obtain ⟨htu, rfl⟩ := (hledger t (by omega)).2 j hj
      exact ⟨u, by omega, hopens⟩
    · exact absurd ((hlate t hge).2 j) (by omega)

end Run

end Progress

/-! ## One read -/

/-- A memory read of four dwords, issued in cycle 5 and answered by one beat in cycle 12. -/
def oneRead : Nat → Input Rq.pcieController := fun t =>
  { axisRqTready := true
    c2sTvalid := false
    c2sTdataLo := 0
    c2sTdataHi := 0
    c2sTkeepHi := false
    engineValid := decide (t = 4)
    cfg := { Rq.readConfig 16 with numberTlps := 1 }
    currentWindowSize := 24
    rc := completionTlp 0 4 (decide (t = 12)) (decide (t = 12)) }

theorem oneRead_quiet {t : Nat} (ht : t ≠ 12) : (oneRead t).rc.tvalid = false := by
  simp [oneRead, completionTlp, ht]

/-- Its one tag. -/
def tagZero : Fin Rq.pcieController.windowSize := ⟨0, by decide⟩

/-- The run up to the cycle in which the core is idle again. -/
theorem oneRead_run :
    (BeatOk (ledger oneRead 12) (oneRead 12).rc ∧ (sys oneRead 11).rq.wrState ≠ .initRead ∧
      (sys oneRead 16).rq.wrState = .idle ∧ (sys oneRead 16).rq.out.tvalid = false) ∧
      (∀ t, t < 17 → (ledger oneRead t).transfer.isNone = true ∧
        ∀ j, 0 < (ledger oneRead t).due j → t < 13 ∧ j = tagZero) ∧
      (ledger oneRead 12).opens (oneRead 12).rc tagZero = true ∧
      (Rq.loads (rqRun oneRead) 5).map (fun x => (x.origin, x.beat.dwords)) = [(.initRead, 4)] := by
  decide +kernel

theorem oneRead_hostOk : HostOk oneRead := by
  intro t
  by_cases ht : t = 12
  · rw [ht]
    exact oneRead_run.1.1
  · intro hvalid
    rw [oneRead_quiet ht] at hvalid
    cases hvalid

theorem oneRead_no_clash (t : Nat) (j : Fin Rq.pcieController.windowSize) :
    ¬ Clash oneRead t j := by
  rintro ⟨harmed, hvalid, -⟩
  have ht : t = 11 := by
    by_contra hne
    rw [oneRead_quiet (by omega)] at hvalid
    cases hvalid
  have hstate : (sys oneRead t).rq.wrState ≠ .initRead := by
    rw [ht]
    exact oneRead_run.1.2.1
  have hissues := harmed.issues
  simp [Rq.issuesTag, hstate] at hissues

/-- After its one operation the core is idle. -/
theorem oneRead_idle : ∀ t, 16 ≤ t → (sys oneRead t).rq.wrState = .idle := by
  refine persists ?_ oneRead_run.1.2.2.1
  intro t ht hidle
  have hoff : (rqInput (sys oneRead t) (oneRead t)).engineValid = false :=
    decide_eq_false (show ¬ t = 4 by omega)
  rw [sys_succ_rq]
  exact Rq.stays_idle hidle (.inr (.inl hoff))

theorem oneRead_answers : Answers oneRead := by
  obtain ⟨⟨-, -, -, hout⟩, hledger, hopens, -⟩ := oneRead_run
  exact answers_of_one hledger (by decide) hopens (fun t ht => oneRead_quiet (by omega)) hout oneRead_idle

/-- Its one request is completed with all four dwords received. -/
theorem request_answered_one :
    ∃ x ∈ Rq.loads (rqRun oneRead) 5, x.origin = .initRead ∧ x.beat.dwords = 4 ∧
      ∃ j t, Completed (rqRun oneRead) 5 t x j ∧ 4 ≤ (ledger oneRead t).received j := by
  obtain ⟨x, hx, hfields⟩ := List.map_eq_singleton_iff.mp oneRead_run.2.2.2
  obtain ⟨horigin, hdwords⟩ := Prod.mk.inj hfields
  have hmem : x ∈ Rq.loads (rqRun oneRead) 5 := by
    rw [hx]
    exact List.mem_singleton_self x
  refine ⟨x, hmem, horigin, hdwords, ?_⟩
  have hall := request_answered oneRead_hostOk oneRead_answers (fun t => ⟨t, Nat.le_refl t, rfl⟩)
    (fun _ => rfl) oneRead_no_clash hmem horigin (by rw [hdwords]; decide)
  rwa [hdwords] at hall

end Dma
end PcieBench
