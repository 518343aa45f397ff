import PcieBench.Dma.System

/-!
# Completions of memory reads

`COMPLETED_TAGS` must rise once per request, when all its dwords have been received and not before.
Each tag goes through a few phases (`TagPhase`), in which its five registers on the completion side
and the ledger of the host agree.  The one way out of the phases is a tag in its first use: its
`is_tag_count_exceeded_r` bit is still that of a tag with nothing to wait for, and `tlp_tag_r` may
have latched the tag from an idle bus (`Armed`).
-/

namespace PcieBench
namespace Dma

open Clocked
open Rq (Params TagSet Config Run)

section Completion

variable {P : Params}

/-! ## The completion TLP in transfer -/

/-- The dwords of tag `j` in transfer. -/
def Ledger.inflight (l : Ledger P) (j : Fin P.windowSize) : Nat :=
  match l.transfer with
  | none => 0
  | some x => if x.tag.toNat = j.val then x.dwords else 0

/-- The core follows the completion TLPs of the host. -/
structure TransferInv (s : System P) (l : Ledger P) : Prop where
  sop : s.rc.isRcSop = l.transfer.isNone
  running : ∀ x, l.transfer = some x → s.rc.tlpTag = x.tag ∧ 1 ≤ x.dwords ∧ 1 ≤ x.left

variable {s : System P} {i : Input P} {l : Ledger P} {req : Fin P.windowSize → Option Nat}
  {iss : Fin P.windowSize → Bool} {j : Fin P.windowSize}

/-- A first beat is one for the core and for the host. -/
theorem TransferInv.opens_eq (h : TransferInv s l) (b : Rc.Beat) (j : Fin P.windowSize) :
    l.opens b j = Rc.startsTag s.rc b j := by
  simp only [Ledger.opens, Rc.startsTag, h.sop]
  cases l.transfer.isNone <;> cases b.tvalid <;> rfl

/-- What the host promises about the first beat of a completion TLP. -/
theorem TransferInv.starts (h : TransferInv s l) (hbeat : BeatOk l i.rc)
    (hstart : Rc.startsTag s.rc i.rc j = true) :
    l.transfer = none ∧ i.rc.tvalid = true ∧ i.rc.tlpTag.toNat = j.val ∧
      1 ≤ i.rc.tlpDwords.toNat ∧ i.rc.tlpDwords.toNat ≤ l.due j ∧
      (i.rc.tlast = true ↔ i.rc.tlpDwords.toNat ≤ 5) := by
  simp only [Rc.startsTag, Bool.and_eq_true, decide_eq_true_eq, h.sop, Option.isNone_iff_eq_none]
    at hstart
  obtain ⟨⟨hnone, hvalid⟩, htag⟩ := hstart
  have hok := hbeat hvalid
  rw [hnone] at hok
  obtain ⟨k, hk, hpos, hle, hlast⟩ := hok
  obtain rfl : j = k := Fin.ext (htag.symm.trans hk)
  refine ⟨hnone, hvalid, htag, hpos, hle, hlast.trans ?_⟩
  rw [completionBeats]
  omega

theorem TransferInv.step (h : TransferInv s l) (hbeat : BeatOk l i.rc) :
    TransferInv (step s i) (l.next i.rc req iss) := by
  have hsop := h.sop
  cases hv : i.rc.tvalid with
  | false =>
      constructor
      · simpa [Dma.step, Rc.nextIsRcSop, Ledger.next, hv] using hsop
      · intro x hx
        have hx' : l.transfer = some x := by simpa [Ledger.next, hv] using hx
        have hin : s.rc.isRcSop = false := by rw [hsop, hx']; rfl
        obtain ⟨htag, hpos, hleft⟩ := h.running x hx'
        exact ⟨by simp [Dma.step, Rc.nextTlpTag, hin, htag], hpos, hleft⟩
  | true =>
      have hok := hbeat hv
      cases hl : i.rc.tlast with
      | true =>
          constructor
          · simp [Dma.step, Rc.nextIsRcSop, Ledger.next, hv, hl]
          · intro x hx
            simp [Ledger.next, hv, hl] at hx
      | false =>
          constructor
          · cases ht : l.transfer <;>
              simp [Dma.step, Rc.nextIsRcSop, Ledger.next, hv, hl, ht]
          · intro x hx
            cases ht : l.transfer with
            | none =>
                -- a completion TLP of several beats begins
                rw [ht] at hok hsop
                obtain ⟨k, -, hpos, -, hlast⟩ := hok
                have hmany : completionBeats i.rc.tlpDwords.toNat ≠ 1 := by
                  rw [Ne, ← hlast, hl]
                  simp
                simp only [Ledger.next, hv, hl, ht, if_true] at hx
                simp at hx
                subst hx
                refine ⟨by simp [Dma.step, Rc.nextTlpTag, hsop], hpos, ?_⟩
                simp only [completionBeats] at hmany ⊢
                omega
            | some y =>
                rw [ht] at hok hsop
                obtain ⟨htag, hpos, hleft⟩ := h.running y ht
                have hlast : i.rc.tlast = true ↔ y.left = 1 := hok
                have hmore : y.left ≠ 1 := by
                  rw [Ne, ← hlast, hl]
                  simp
                simp only [Ledger.next, hv, hl, ht, if_true] at hx
                simp at hx
                subst hx
                exact ⟨by simp [Dma.step, Rc.nextTlpTag, hsop, htag], hpos, by simp; omega⟩

/-! ## Cycles without an event for a tag -/

/-- Nothing is due for the tag and nothing of it is in transfer: the cycle brings no event for it. -/
structure Quiet (s : System P) (l : Ledger P) (b : Rc.Beat) (j : Fin P.windowSize) : Prop where
  starts : Rc.startsTag s.rc b j = false
  opens : l.opens b j = false
  completes : l.completes b j = none
  inflight : ∀ req iss, (l.next b req iss).inflight j = 0

/-- A tag without dwords in transfer is not the one of the running TLP. -/
theorem TransferInv.other_tag (h : TransferInv s l) (hflight : l.inflight j = 0) {x : Transfer}
    (hx : l.transfer = some x) : x.tag.toNat ≠ j.val := by
  intro htag
  obtain ⟨-, hpos, -⟩ := h.running x hx
  simp only [Ledger.inflight, hx, htag, if_true] at hflight
  omega

/-- If such a tag is the latched one in the next cycle, it was on the bus between two TLPs. -/
theorem TransferInv.shown_of_latched (h : TransferInv s l) (hflight : l.inflight j = 0)
    (htag : (Dma.step s i).rc.tlpTag.toNat = j.val) :
    s.rc.isRcSop = true ∧ i.rc.tlpTag.toNat = j.val := by
  cases hsop : s.rc.isRcSop with
  | true =>
      simpa [Dma.step, Rc.nextTlpTag, hsop] using htag
  | false =>
      have hsome : l.transfer.isNone = false := by rw [← h.sop, hsop]
      obtain ⟨x, hx⟩ := Option.isSome_iff_exists.mp (Option.isNone_eq_false_iff.mp hsome)
      have hlatched : (Dma.step s i).rc.tlpTag = x.tag := by
        simp [Dma.step, Rc.nextTlpTag, hsop, (h.running x hx).1]
      exact absurd (by rw [← hlatched]; exact htag) (h.other_tag hflight hx)

theorem TransferInv.quiet (h : TransferInv s l) (hflight : l.inflight j = 0)
    (hstart : Rc.startsTag s.rc i.rc j = false) : Quiet s l i.rc j := by
  have hother : ∀ x, l.transfer = some x → x.tag.toNat ≠ j.val := fun _ => h.other_tag hflight
  have hfirst : l.transfer = none → i.rc.tvalid = true → i.rc.tlpTag.toNat ≠ j.val := by
    intro hnone hv htag
    have : Rc.startsTag s.rc i.rc j = true := by
      simp [Rc.startsTag, h.sop, hnone, hv, htag]
    rw [this] at hstart
    cases hstart
  refine ⟨hstart, by rw [h.opens_eq, hstart], ?_, ?_⟩
  · unfold Ledger.completes
    split
    · rename_i hlast
      rw [Bool.and_eq_true] at hlast
      cases ht : l.transfer with
      | none =>
          simp [hfirst ht hlast.1]
      | some x =>
          simp [hother x ht]
    · rfl
  · intro req iss
    cases hv : i.rc.tvalid with
    | false =>
        simpa [Ledger.inflight, Ledger.next, hv] using hflight
    | true =>
        cases hl : i.rc.tlast with
        | true =>
            simp [Ledger.inflight, Ledger.next, hv, hl]
        | false =>
            cases ht : l.transfer with
            | none =>
                simp [Ledger.inflight, Ledger.next, hv, hl, ht, hfirst ht hv]
            | some x =>
                simp [Ledger.inflight, Ledger.next, hv, hl, ht, hother x ht]

/-- With nothing due no first beat can come. -/
theorem TransferInv.quiet_of_due (h : TransferInv s l) (hbeat : BeatOk l i.rc)
    (hflight : l.inflight j = 0) (hdue : l.due j = 0) : Quiet s l i.rc j := by
  refine h.quiet hflight ?_
  by_contra hstart
  rw [Bool.not_eq_false] at hstart
  obtain ⟨-, -, -, hpos, hle, -⟩ := h.starts hbeat hstart
  omega

/-- The last beat of the running TLP: its dwords have arrived. -/
theorem Ledger.next_of_last (l : Ledger P) {b : Rc.Beat} {x : Transfer} (hx : l.transfer = some x)
    (htag : x.tag.toNat = j.val) (hlast : (b.tvalid && b.tlast) = true)
    (req : Fin P.windowSize → Option Nat) (hiss : iss j = false) :
    (l.next b req iss).received j = l.received j + x.dwords ∧ (l.next b req iss).inflight j = 0 := by
  have hparts := Bool.and_eq_true_iff.mp hlast
  constructor
  · simp [Ledger.next, hiss, Ledger.completes, hparts, hx, htag]
  · simp [Ledger.inflight, Ledger.next, hparts]

/-- Any other beat, or none: they are still in transfer. -/
theorem Ledger.next_of_not_last (l : Ledger P) {b : Rc.Beat} {x : Transfer}
    (hx : l.transfer = some x) (htag : x.tag.toNat = j.val) (hlast : (b.tvalid && b.tlast) = false)
    (req : Fin P.windowSize → Option Nat) (hiss : iss j = false) :
    (l.next b req iss).received j = l.received j ∧ (l.next b req iss).inflight j = x.dwords := by
  constructor
  · simp [Ledger.next, hiss, Ledger.completes, hlast]
  · cases hv : b.tvalid with
    | false =>
        simp [Ledger.inflight, Ledger.next, hv, hx, htag]
    | true =>
        have hl : b.tlast = false := by simpa [hv] using hlast
        simp [Ledger.inflight, Ledger.next, hv, hl, hx, htag]

/-- A TLP of a single beat arrives at once. -/
theorem Ledger.next_of_single (l : Ledger P) {b : Rc.Beat} (hnone : l.transfer = none)
    (hvalid : b.tvalid = true) (hlast : b.tlast = true) (htag : b.tlpTag.toNat = j.val)
    (req : Fin P.windowSize → Option Nat) (hiss : iss j = false) :
    (l.next b req iss).received j = l.received j + b.tlpDwords.toNat ∧
      (l.next b req iss).inflight j = 0 := by
  constructor
  · simp [Ledger.next, hiss, Ledger.completes, hvalid, hlast, hnone, htag]
  · simp [Ledger.inflight, Ledger.next, hvalid, hlast]

/-- The first of several beats: the dwords of the TLP are in transfer. -/
theorem Ledger.next_of_first (l : Ledger P) {b : Rc.Beat} (hnone : l.transfer = none)
    (hvalid : b.tvalid = true) (hlast : b.tlast = false) (htag : b.tlpTag.toNat = j.val)
    (req : Fin P.windowSize → Option Nat) (hiss : iss j = false) :
    (l.next b req iss).received j = l.received j ∧
      (l.next b req iss).inflight j = b.tlpDwords.toNat := by
  constructor
  · simp [Ledger.next, hiss, Ledger.completes, hlast]
  · simp [Ledger.inflight, Ledger.next, hvalid, hlast, hnone, htag]

section NoStart

variable (hstart : Rc.startsTag s.rc i.rc j = false)

include hstart

theorem wordCount_of_not_starts : (step s i).rc.wordCountTag j =
    if s.rc.completedTags j then 0 else s.rc.wordCountTag j := by
  simp [Dma.step, Rc.nextWordCountTag, hstart]

theorem difference_of_not_starts : (step s i).rc.difference j =
    s.rq.tags.size j - s.rc.wordCountTag j := by
  simp [Dma.step, Rc.nextDifference, hstart]

theorem exceeded_of_not_starts : (step s i).rc.isTagCountExceeded j =
    (!s.rc.completedTags j && decide (s.rq.tags.size j ≤ s.rc.wordCountTag j)) := by
  simp [Dma.step, Rc.nextIsTagCountExceeded, hstart]

/-- Without a first beat only a set `is_tag_count_exceeded_r` bit completes the tag. -/
theorem completed_of_not_starts : (step s i).rc.completedTags j =
    (!s.rc.completedTags j && s.rq.tags.current j && (i.rc.tvalid && i.rc.tlast) &&
      (s.rc.isTagCountExceeded j && decide (s.rc.tlpTag.toNat = j.val))) := by
  simp only [Rc.startsTag] at hstart
  simp only [Dma.step, Rc.step_completedTags, Rc.nextCompletedTags]
  cases hv : i.rc.tvalid with
  | false =>
      simp
  | true =>
      rw [hv, Bool.and_true] at hstart
      rw [hstart]
      simp

end NoStart

section QuietLedger

variable (hq : Quiet s l i.rc j)

include hq

theorem Quiet.due : (l.next i.rc req iss).due j = (req j).getD (l.due j) := by
  cases h : req j <;> simp [Ledger.next, h, hq.opens]

theorem Quiet.received : (l.next i.rc req iss).received j = if iss j then 0 else l.received j := by
  simp [Ledger.next, hq.completes]

end QuietLedger

/-! ## The phases of a tag -/

/-- A tag in its first use is taken in a cycle in which the idle bus shows it. -/
structure Armed (s : System P) (i : Input P) (j : Fin P.windowSize) : Prop where
  issues : Rq.issuesTag s.rq (rqInput s i) j = true
  unused : s.rq.tags.size j = 0
  dwords : (step s i).rq.tags.size j ≠ 0
  sop : s.rc.isRcSop = true
  idle : i.rc.tvalid = false
  shown : i.rc.tlpTag.toNat = j.val

section Phases

variable (s l j)

/-- No request has the tag. -/
structure Free : Prop where
  busy : s.rq.tags.current j = false
  word : s.rc.wordCountTag j = 0
  inflight : l.inflight j = 0
  due : l.due j = 0
  completed : s.rc.completedTags j = false
  exceeded : s.rc.isTagCountExceeded j = true → s.rq.tags.size j = 0

/-- The tag is busy with nothing to wait for: it lies outside the window, or has a request without
dwords. -/
structure Void : Prop where
  busy : s.rq.tags.current j = true
  size : s.rq.tags.size j = 0
  word : s.rc.wordCountTag j = 0
  inflight : l.inflight j = 0
  due : l.due j = 0

/-- The tag was taken in the cycle before; the completion side does not know the new size yet. -/
structure Fresh (armed : Prop) : Prop where
  busy : s.rq.tags.current j = true
  size : s.rq.tags.size j ≠ 0
  word : s.rc.wordCountTag j = 0
  inflight : l.inflight j = 0
  due : l.due j = 0
  received : l.received j = 0
  completed : s.rc.completedTags j = false
  exceeded : s.rc.isTagCountExceeded j = true → s.rc.tlpTag.toNat = j.val → armed

/-- The completion side counts the dwords of the request. -/
structure Settled : Prop where
  busy : s.rq.tags.current j = true
  word : (s.rc.wordCountTag j).toNat = l.received j + l.inflight j
  missing : l.received j < (s.rq.tags.size j).toNat
  due : l.received j + l.inflight j + l.due j ≤ (s.rq.tags.size j).toNat
  completed : s.rc.completedTags j = false
  exceeded : s.rc.isTagCountExceeded j = decide (s.rq.tags.size j ≤ s.rc.wordCountTag j)
  difference : s.rc.difference j = s.rq.tags.size j - s.rc.wordCountTag j

/-- Everything has been received and `COMPLETED_TAGS` says so. -/
structure Completing : Prop where
  busy : s.rq.tags.current j = true
  size : s.rq.tags.size j ≠ 0
  received : l.received j = (s.rq.tags.size j).toNat
  inflight : l.inflight j = 0
  due : l.due j = 0
  completed : s.rc.completedTags j = true

def TagPhase (armed : Prop) : Prop :=
  Free s l j ∨ Void s l j ∨ Fresh s l j armed ∨ Settled s l j ∨ Completing s l j

end Phases

/-- A request handed over in this cycle is the one the tag waits for, and nothing of it has been
answered. -/
def RequestOk (s : System P) (l : Ledger P) (req : Fin P.windowSize → Option Nat)
    (j : Fin P.windowSize) : Prop :=
  ∀ d, req j = some d → d = (s.rq.tags.size j).toNat ∧ l.received j = 0 ∧ l.inflight j = 0 ∧
    l.due j = 0 ∧ (s.rq.tags.size j ≠ 0 → s.rq.tags.current j = true)

theorem size_ne_zero {x : BitVec 11} : x ≠ 0 ↔ 0 < x.toNat := by
  rw [Nat.pos_iff_ne_zero, Ne, ← BitVec.toNat_inj]
  rfl

/-! ## The busy bit -/

/-- Without a request the size stays. -/
theorem step_size_of_not_issues (h : Rq.issuesTag s.rq (rqInput s i) j = false) :
    (step s i).rq.tags.size j = s.rq.tags.size j := by
  simp [Dma.step, Rq.nextTags, h]

/-- Without a request a tag that becomes or stays busy was busy and is not completed, or is outside
the window. -/
theorem step_busy_of_not_issues (h : Rq.issuesTag s.rq (rqInput s i) j = false) :
    (step s i).rq.tags.current j = true ↔
      (s.rq.tags.current j = true ∧ s.rc.completedTags j = false) ∨
        (j.val ≠ 0 ∧ (i.currentWindowSize.setWidth 8).toNat ≤ j.val) := by
  have hcomp : (rqInput s i).completedTags = s.rc.completedTags := rfl
  have hwin : (rqInput s i).currentWindowSize = i.currentWindowSize := rfl
  by_cases h0 : j.val = 0 <;> simp [Dma.step, Rq.nextTags, h, hcomp, hwin, h0]

/-- What is due after a cycle without an event, if it was nothing before. -/
theorem Quiet.due_cases (hq : Quiet s l i.rc j) (hreq : RequestOk s l req j) (hdue : l.due j = 0)
    (iss : Fin P.windowSize → Bool) :
    (l.next i.rc req iss).due j = 0 ∨ (l.next i.rc req iss).due j = (s.rq.tags.size j).toNat := by
  rw [hq.due]
  cases hr : req j with
  | none =>
      exact .inl hdue
  | some d =>
      exact .inr (hreq d hr).1

/-! ## One cycle of each phase -/

section Steps

variable (hinv : TransferInv s l) (hbeat : BeatOk l i.rc) (hreq : RequestOk s l req j)
  (hout : (i.currentWindowSize.setWidth 8).toNat ≤ j.val → s.rq.tags.size j = 0)

include hinv hbeat hreq

theorem Void.step (h : Void s l j) :
    TagPhase (step s i) (l.next i.rc req (Rq.issuesTag s.rq (rqInput s i))) j (Armed s i j) := by
  have hq := hinv.quiet_of_due hbeat h.inflight h.due
  have hiss := Rq.issuesTag_of_busy (i := rqInput s i) h.busy
  have hsame := step_size_of_not_issues (i := i) hiss
  have hdue : (l.next i.rc req (Rq.issuesTag s.rq (rqInput s i))).due j = 0 := by
    rcases hq.due_cases hreq h.due (Rq.issuesTag s.rq (rqInput s i)) with hd | hd
    · exact hd
    · rw [hd, h.size]
      rfl
  have hword : (Dma.step s i).rc.wordCountTag j = 0 := by
    rw [wordCount_of_not_starts hq.starts, h.word]
    split <;> rfl
  cases hbusy : (Dma.step s i).rq.tags.current j with
  | true =>
      exact .inr (.inl ⟨hbusy, by rw [hsame]; exact h.size, hword, hq.inflight _ _, hdue⟩)
  | false =>
      have hcomp : s.rc.completedTags j = true := by
        by_contra hno
        have := (step_busy_of_not_issues (i := i) hiss).mpr (.inl ⟨h.busy, by simpa using hno⟩)
        rw [hbusy] at this
        cases this
      refine .inl ⟨hbusy, hword, hq.inflight _ _, hdue, ?_, fun _ => by rw [hsame]; exact h.size⟩
      rw [completed_of_not_starts hq.starts, hcomp]
      rfl

/-- A fresh tag settles, unless the last beat of another completion TLP meets an armed one. -/
theorem Fresh.step {armed : Prop} (h : Fresh s l j armed)
    (hclash : armed → ¬ (i.rc.tvalid = true ∧ i.rc.tlast = true)) :
    TagPhase (step s i) (l.next i.rc req (Rq.issuesTag s.rq (rqInput s i))) j (Armed s i j) := by
  have hq := hinv.quiet_of_due hbeat h.inflight h.due
  have hiss := Rq.issuesTag_of_busy (i := rqInput s i) h.busy
  have hsame := step_size_of_not_issues (i := i) hiss
  have hpos := size_ne_zero.mp h.size
  have hreceived : (l.next i.rc req (Rq.issuesTag s.rq (rqInput s i))).received j = 0 := by
    rw [hq.received, hiss]
    exact h.received
  have hword : (Dma.step s i).rc.wordCountTag j = 0 := by
    rw [wordCount_of_not_starts hq.starts, h.completed, h.word]
    rfl
  have hflight := hq.inflight req (Rq.issuesTag s.rq (rqInput s i))
  refine .inr (.inr (.inr (.inl ⟨?_, ?_, ?_, ?_, ?_, ?_, ?_⟩)))
  · exact (step_busy_of_not_issues hiss).mpr (.inl ⟨h.busy, h.completed⟩)
  · rw [hword, hreceived, hflight]
    rfl
  · rw [hreceived, hsame]
    exact hpos
  · rw [hreceived, hflight, hsame]
    rcases hq.due_cases hreq h.due (Rq.issuesTag s.rq (rqInput s i)) with hd | hd <;> omega
  · rw [completed_of_not_starts hq.starts]
    by_contra hpulse
    simp only [Bool.not_eq_false, Bool.and_eq_true, decide_eq_true_eq] at hpulse
    exact hclash (h.exceeded hpulse.2.1 hpulse.2.2) hpulse.1.2
  · rw [exceeded_of_not_starts hq.starts, h.completed, h.word, hword, hsame]
    rfl
  · rw [difference_of_not_starts hq.starts, h.word, hword, hsame]

omit hinv hbeat hreq in
/-- The counters after a first beat that does not complete the tag: its dwords are added to what has been
counted. -/
theorem Settled.counts_of_starts (h : Settled s l j) (hstart : Rc.startsTag s.rc i.rc j = true)
    (hmore : (i.rc.tlast && Rc.fitsOneBeat s.rc i.rc j) = false)
    (hroom : (s.rc.wordCountTag j).toNat + i.rc.tlpDwords.toNat ≤ (s.rq.tags.size j).toNat) :
    (Dma.step s i).rc.wordCountTag j = s.rc.wordCountTag j + i.rc.tlpDwords ∧
      (Dma.step s i).rc.isTagCountExceeded j =
        decide (s.rq.tags.size j ≤ s.rc.wordCountTag j + i.rc.tlpDwords) ∧
      (Dma.step s i).rc.difference j =
        s.rq.tags.size j - (s.rc.wordCountTag j + i.rc.tlpDwords) := by
  have hsize := (s.rq.tags.size j).isLt
  refine ⟨?_, ?_, ?_⟩
  · simp [Dma.step, Rc.nextWordCountTag, hstart, hmore, h.completed]
  · -- both comparisons ask whether the dwords of this TLP reach the size
    have hdiff : (s.rq.tags.size j - s.rc.wordCountTag j).toNat =
        (s.rq.tags.size j).toNat - (s.rc.wordCountTag j).toNat :=
      BitVec.toNat_sub_of_le (by rw [BitVec.le_def]; omega)
    have hsum : (s.rc.wordCountTag j + i.rc.tlpDwords).toNat =
        (s.rc.wordCountTag j).toNat + i.rc.tlpDwords.toNat := by
      rw [BitVec.toNat_add]
      omega
    simp only [Dma.step, Rc.step_isTagCountExceeded, Rc.nextIsTagCountExceeded, hstart, h.busy, hmore,
      Bool.and_true, Bool.false_eq_true, if_true, if_false]
    rw [decide_eq_decide, BitVec.le_def, BitVec.le_def, hdiff, hsum]
    omega
  · simp only [Dma.step, Rc.step_difference, Rc.nextDifference, hstart, if_true]
    rw [BitVec.sub_sub]

omit hinv hbeat hreq in
/-- Without a first beat for the tag they stay, and the derived registers follow them. -/
theorem Settled.counts_of_not_starts (h : Settled s l j)
    (hstart : Rc.startsTag s.rc i.rc j = false) :
    (Dma.step s i).rc.wordCountTag j = s.rc.wordCountTag j ∧
      (Dma.step s i).rc.isTagCountExceeded j = decide (s.rq.tags.size j ≤ s.rc.wordCountTag j) ∧
      (Dma.step s i).rc.difference j = s.rq.tags.size j - s.rc.wordCountTag j := by
  refine ⟨?_, ?_, difference_of_not_starts hstart⟩
  · rw [wordCount_of_not_starts hstart, h.completed]
    rfl
  · rw [exceeded_of_not_starts hstart, h.completed]
    rfl

omit hinv hbeat hreq in
/-- A tag that is not completed stays settled if its count is that of the ledger. -/
theorem Settled.again (h : Settled s l j) {w : BitVec 11} {l' : Ledger P}
    (hcounts : (Dma.step s i).rc.wordCountTag j = w ∧
      (Dma.step s i).rc.isTagCountExceeded j = decide (s.rq.tags.size j ≤ w) ∧
      (Dma.step s i).rc.difference j = s.rq.tags.size j - w)
    (hcompleted : (Dma.step s i).rc.completedTags j = false)
    (hword : w.toNat = l'.received j + l'.inflight j)
    (hmissing : l'.received j < (s.rq.tags.size j).toNat)
    (hdue : l'.received j + l'.inflight j + l'.due j ≤ (s.rq.tags.size j).toNat) :
    Settled (step s i) l' j := by
  have hiss := Rq.issuesTag_of_busy (i := rqInput s i) h.busy
  have hsame := step_size_of_not_issues (i := i) hiss
  obtain ⟨hw, hexceeded, hdiff⟩ := hcounts
  refine ⟨(step_busy_of_not_issues (i := i) hiss).mpr (.inl ⟨h.busy, h.completed⟩), ?_, ?_, ?_,
    hcompleted, ?_, ?_⟩
  · rw [hw, hword]
  · rw [hsame]
    exact hmissing
  · rw [hsame]
    exact hdue
  · rw [hexceeded, hw, hsame]
  · rw [hdiff, hw, hsame]

omit hinv hbeat hreq in
/-- A first beat is a TLP of one beat with all that is missing exactly if its dwords say so. -/
theorem Settled.fitsOneBeat_eq (h : Settled s l j) (hflight : l.inflight j = 0) :
    Rc.fitsOneBeat s.rc i.rc j = (decide (i.rc.tlpDwords.toNat ≤ 5) &&
      decide ((s.rq.tags.size j).toNat ≤ l.received j + i.rc.tlpDwords.toNat)) := by
  have hword := h.word
  have hmissing := h.missing
  have hdiff : (s.rq.tags.size j - s.rc.wordCountTag j).toNat =
      (s.rq.tags.size j).toNat - (s.rc.wordCountTag j).toNat :=
    BitVec.toNat_sub_of_le (by rw [BitVec.le_def]; omega)
  have hshort : i.rc.tlpDwords ≤ 5 ↔ i.rc.tlpDwords.toNat ≤ 5 := by
    rw [BitVec.le_def]
    rfl
  have henough : s.rc.difference j ≤ i.rc.tlpDwords ↔
      (s.rq.tags.size j).toNat ≤ l.received j + i.rc.tlpDwords.toNat := by
    rw [h.difference, BitVec.le_def, hdiff]
    omega
  simp only [Rc.fitsOneBeat, hshort, henough]

omit hreq in
/-- The first beat of a completion TLP for the tag. -/
theorem Settled.starts (h : Settled s l j) (hnone : req j = none)
    (hstart : Rc.startsTag s.rc i.rc j = true) :
    Settled (step s i) (l.next i.rc req (Rq.issuesTag s.rq (rqInput s i))) j ∨
      Completing (step s i) (l.next i.rc req (Rq.issuesTag s.rq (rqInput s i))) j := by
  obtain ⟨htransfer, hvalid, htag, hpos, hle, hlast⟩ := hinv.starts hbeat hstart
  have hiss := Rq.issuesTag_of_busy (i := rqInput s i) h.busy
  have hsame := step_size_of_not_issues (i := i) hiss
  have hbusy := (step_busy_of_not_issues (i := i) hiss).mpr (.inl ⟨h.busy, h.completed⟩)
  have hflight : l.inflight j = 0 := by simp [Ledger.inflight, htransfer]
  have hsop : s.rc.isRcSop = true := by rw [hinv.sop, htransfer]; rfl
  have hword := h.word
  have hmissing := h.missing
  have hdue := h.due
  have hsize := (s.rq.tags.size j).isLt
  have hroom : (s.rc.wordCountTag j).toNat + i.rc.tlpDwords.toNat ≤ (s.rq.tags.size j).toNat := by
    omega
  have hopens : l.opens i.rc j = true := by rw [hinv.opens_eq, hstart]
  have hdue' : (l.next i.rc req (Rq.issuesTag s.rq (rqInput s i))).due j =
      l.due j - i.rc.tlpDwords.toNat := by
    simp [Ledger.next, hnone, hopens]
  have hnotfull : s.rc.isTagCountExceeded j = false := by
    rw [h.exceeded, decide_eq_false_iff_not, BitVec.le_def]
    omega
  have hfits := h.fitsOneBeat_eq (i := i) hflight
  have hsum : (s.rc.wordCountTag j + i.rc.tlpDwords).toNat =
      l.received j + i.rc.tlpDwords.toNat := by
    rw [BitVec.toNat_add]
    omega
  cases hl : i.rc.tlast with
  | true =>
      have h5 := hlast.mp hl
      obtain ⟨hreceived, hflight'⟩ := l.next_of_single htransfer hvalid hl htag req hiss
      by_cases hfinal : (s.rq.tags.size j).toNat ≤ l.received j + i.rc.tlpDwords.toNat
      · -- the single beat brings all that was missing
        right
        have hfit : Rc.fitsOneBeat s.rc i.rc j = true := by simp [hfits, h5, hfinal]
        refine ⟨hbusy, ?_, ?_, hflight', ?_, ?_⟩
        · rw [hsame, size_ne_zero]
          omega
        · rw [hreceived, hsame]
          omega
        · rw [hdue']
          omega
        · simp [Dma.step, Rc.nextCompletedTags, h.completed, h.busy, hvalid, hl, hsop, htag, hfit]
      · -- a single beat, and more TLPs to come
        left
        have hfit : Rc.fitsOneBeat s.rc i.rc j = false := by simp [hfits, hfinal]
        refine h.again (h.counts_of_starts hstart (by simp [hfit]) hroom) ?_ ?_ ?_ ?_
        · simp [Dma.step, Rc.nextCompletedTags, hnotfull, hfit]
        · rw [hsum, hreceived, hflight', Nat.add_zero]
        · rw [hreceived]
          omega
        · rw [hreceived, hflight', hdue']
          omega
  | false =>
      -- a completion TLP of several beats: its dwords are in transfer
      left
      obtain ⟨hreceived, hflight'⟩ := l.next_of_first htransfer hvalid hl htag req hiss
      refine h.again (h.counts_of_starts hstart (by simp [hl]) hroom) ?_ ?_ ?_ ?_
      · simp [Dma.step, Rc.nextCompletedTags, hl]
      · rw [hsum, hreceived, hflight']
      · rw [hreceived]
        exact hmissing
      · rw [hreceived, hflight', hdue']
        omega

omit hbeat hreq in
/-- A beat of a completion TLP for the tag after the first one. -/
theorem Settled.continues (h : Settled s l j) (hnone : req j = none) {x : Transfer}
    (hx : l.transfer = some x) (htag : x.tag.toNat = j.val) :
    Settled (step s i) (l.next i.rc req (Rq.issuesTag s.rq (rqInput s i))) j ∨
      Completing (step s i) (l.next i.rc req (Rq.issuesTag s.rq (rqInput s i))) j := by
  obtain ⟨hlatched, hpos, -⟩ := hinv.running x hx
  have hiss := Rq.issuesTag_of_busy (i := rqInput s i) h.busy
  have hsame := step_size_of_not_issues (i := i) hiss
  have hbusy := (step_busy_of_not_issues (i := i) hiss).mpr (.inl ⟨h.busy, h.completed⟩)
  have hsop : s.rc.isRcSop = false := by rw [hinv.sop, hx]; rfl
  have hstart : Rc.startsTag s.rc i.rc j = false := by simp [Rc.startsTag, hsop]
  have hflight : l.inflight j = x.dwords := by simp [Ledger.inflight, hx, htag]
  have hword := h.word
  have hdue := h.due
  have hdue' : (l.next i.rc req (Rq.issuesTag s.rq (rqInput s i))).due j = l.due j := by
    simp [Ledger.next, hnone, hinv.opens_eq, hstart]
  have hcompleted : (Dma.step s i).rc.completedTags j =
      ((i.rc.tvalid && i.rc.tlast) && decide (s.rq.tags.size j ≤ s.rc.wordCountTag j)) := by
    rw [completed_of_not_starts hstart, h.completed, h.busy, h.exceeded, hlatched, htag]
    simp
  cases hlast : (i.rc.tvalid && i.rc.tlast) with
  | true =>
      obtain ⟨hreceived, hflight'⟩ := l.next_of_last hx htag hlast req hiss
      by_cases hfinal : s.rq.tags.size j ≤ s.rc.wordCountTag j
      · right
        have hfull := hfinal
        rw [BitVec.le_def] at hfull
        refine ⟨hbusy, ?_, ?_, hflight', ?_, ?_⟩
        · rw [hsame, size_ne_zero]
          have := h.missing
          omega
        · rw [hreceived, hsame]
          omega
        · rw [hdue']
          omega
        · rw [hcompleted, hlast]
          simpa using hfinal
      · left
        have hshort := hfinal
        rw [BitVec.le_def] at hshort
        refine h.again (h.counts_of_not_starts hstart) ?_ ?_ ?_ ?_
        · rw [hcompleted]
          simp [hfinal]
        · rw [hword, hflight, hreceived, hflight', Nat.add_zero]
        · rw [hreceived]
          omega
        · rw [hreceived, hflight', hdue']
          omega
  | false =>
      left
      obtain ⟨hreceived, hflight'⟩ := l.next_of_not_last hx htag hlast req hiss
      refine h.again (h.counts_of_not_starts hstart) ?_ ?_ ?_ ?_
      · rw [hcompleted, hlast]
        rfl
      · rw [hword, hflight, hreceived, hflight']
      · rw [hreceived]
        exact h.missing
      · rw [hreceived, hflight', hdue']
        omega

theorem Settled.step (h : Settled s l j) :
    Settled (step s i) (l.next i.rc req (Rq.issuesTag s.rq (rqInput s i))) j ∨
      Completing (step s i) (l.next i.rc req (Rq.issuesTag s.rq (rqInput s i))) j := by
  have hword := h.word
  have hmissing := h.missing
  have hdue := h.due
  cases hstart : Rc.startsTag s.rc i.rc j with
  | true =>
      obtain ⟨-, -, -, hpos, hle, -⟩ := hinv.starts hbeat hstart
      refine h.starts hinv hbeat ?_ hstart
      by_contra hsome
      obtain ⟨d, hd⟩ := Option.ne_none_iff_exists'.mp hsome
      obtain ⟨-, -, -, hzero, -⟩ := hreq d hd
      omega
  | false =>
      by_cases hflight : l.inflight j = 0
      · -- nothing happens to the tag, or its request is handed over
        left
        have hq := hinv.quiet hflight hstart
        have hiss := Rq.issuesTag_of_busy (i := rqInput s i) h.busy
        have hreceived : (l.next i.rc req (Rq.issuesTag s.rq (rqInput s i))).received j =
            l.received j := by
          rw [hq.received, hiss]
          rfl
        have hnotfull : s.rc.isTagCountExceeded j = false := by
          rw [h.exceeded, decide_eq_false_iff_not, BitVec.le_def]
          omega
        refine h.again (h.counts_of_not_starts hstart) ?_ ?_ ?_ ?_
        · rw [completed_of_not_starts hstart, hnotfull]
          simp
        · rw [hword, hreceived, hflight, hq.inflight]
        · rw [hreceived]
          exact hmissing
        · rw [hreceived, hq.inflight, hq.due]
          cases hr : req j with
          | none =>
              rw [Option.getD_none]
              omega
          | some d =>
              obtain ⟨hd, hzero, -⟩ := hreq d hr
              rw [Option.getD_some]
              omega
      · obtain ⟨x, hx, htag⟩ : ∃ x, l.transfer = some x ∧ x.tag.toNat = j.val := by
          cases ht : l.transfer with
          | none =>
              simp [Ledger.inflight, ht] at hflight
          | some x =>
              refine ⟨x, rfl, ?_⟩
              by_contra hne
              simp [Ledger.inflight, ht, hne] at hflight
        refine h.continues hinv ?_ hx htag
        by_contra hsome
        obtain ⟨d, hd⟩ := Option.ne_none_iff_exists'.mp hsome
        exact hflight (hreq d hd).2.2.1

include hout

theorem Free.step (h : Free s l j) :
    TagPhase (step s i) (l.next i.rc req (Rq.issuesTag s.rq (rqInput s i))) j (Armed s i j) := by
  have hq := hinv.quiet_of_due hbeat h.inflight h.due
  have hdue : (l.next i.rc req (Rq.issuesTag s.rq (rqInput s i))).due j = 0 := by
    rw [hq.due]
    cases hr : req j with
    | none =>
        exact h.due
    | some d =>
        -- a free tag can only belong to a request without dwords
        obtain ⟨hd, -, -, -, hbusy⟩ := hreq d hr
        have hzero : s.rq.tags.size j = 0 := by
          by_contra hne
          have := hbusy hne
          rw [h.busy] at this
          cases this
        rw [Option.getD_some, hd, hzero]
        rfl
  have hword : (Dma.step s i).rc.wordCountTag j = 0 := by
    rw [wordCount_of_not_starts hq.starts, h.completed, h.word]
    rfl
  have hcompleted : (Dma.step s i).rc.completedTags j = false := by
    rw [completed_of_not_starts hq.starts, h.busy]
    simp
  have hexceeded : (Dma.step s i).rc.isTagCountExceeded j = true → s.rq.tags.size j = 0 := by
    intro he
    rw [exceeded_of_not_starts hq.starts, h.word, Bool.and_eq_true, decide_eq_true_eq, BitVec.le_def] at he
    exact BitVec.eq_of_toNat_eq (Nat.le_zero.mp he.2)
  cases hiss : Rq.issuesTag s.rq (rqInput s i) j with
  | true =>
      have hbusy : (Dma.step s i).rq.tags.current j = true := by
        simp [Dma.step, Rq.nextTags, hiss]
      by_cases hsize : (Dma.step s i).rq.tags.size j = 0
      · exact .inr (.inl ⟨hbusy, hsize, hword, hq.inflight _ _, hdue⟩)
      · refine .inr (.inr (.inl ⟨hbusy, hsize, hword, hq.inflight _ _, hdue, ?_, hcompleted, ?_⟩))
        · rw [hq.received, hiss]
          rfl
        · intro he htag
          have hshown := hinv.shown_of_latched h.inflight htag
          refine ⟨hiss, hexceeded he, hsize, hshown.1, ?_, hshown.2⟩
          have hstart := hq.starts
          simpa [Rc.startsTag, hshown] using hstart
  | false =>
      have hsame := step_size_of_not_issues (i := i) hiss
      cases hbusy : (Dma.step s i).rq.tags.current j with
      | true =>
          rcases (step_busy_of_not_issues hiss).mp hbusy with ⟨hb, -⟩ | ⟨-, hle⟩
          · rw [h.busy] at hb
            cases hb
          · exact .inr (.inl ⟨hbusy, by rw [hsame]; exact hout hle, hword, hq.inflight _ _, hdue⟩)
      | false =>
          exact .inl ⟨hbusy, hword, hq.inflight _ _, hdue, hcompleted,
            by rw [hsame]; exact hexceeded⟩

theorem Completing.step (h : Completing s l j) :
    TagPhase (step s i) (l.next i.rc req (Rq.issuesTag s.rq (rqInput s i))) j (Armed s i j) := by
  have hq := hinv.quiet_of_due hbeat h.inflight h.due
  have hiss := Rq.issuesTag_of_busy (i := rqInput s i) h.busy
  have hpos := size_ne_zero.mp h.size
  refine .inl ⟨?_, ?_, hq.inflight _ _, ?_, ?_, ?_⟩
  · by_contra hbusy
    rw [Bool.not_eq_false, step_busy_of_not_issues hiss] at hbusy
    rcases hbusy with ⟨-, hcomp⟩ | ⟨-, hle⟩
    · rw [h.completed] at hcomp
      cases hcomp
    · exact h.size (hout hle)
  · rw [wordCount_of_not_starts hq.starts, h.completed]
    rfl
  · rw [hq.due]
    cases hr : req j with
    | none =>
        exact h.due
    | some d =>
        obtain ⟨-, hzero, -⟩ := hreq d hr
        rw [h.received] at hzero
        omega
  · rw [completed_of_not_starts hq.starts, h.completed]
    rfl
  · intro he
    rw [exceeded_of_not_starts hq.starts, h.completed] at he
    cases he

/-- One cycle of a tag. -/
theorem TagPhase.step {armed : Prop} (h : TagPhase s l j armed)
    (hclash : armed → ¬ (i.rc.tvalid = true ∧ i.rc.tlast = true)) :
    TagPhase (step s i) (l.next i.rc req (Rq.issuesTag s.rq (rqInput s i))) j (Armed s i j) := by
  rcases h with h | h | h | h | h
  · exact h.step hinv hbeat hreq hout
  · exact h.step hinv hbeat hreq
  · exact h.step hinv hbeat hreq hclash
  · rcases h.step hinv hbeat hreq with h' | h'
    · exact .inr (.inr (.inr (.inl h')))
    · exact .inr (.inr (.inr (.inr h')))
  · exact h.step hinv hbeat hreq hout

end Steps

/-! ## Runs -/

/-- The tag was armed in the cycle before. -/
def ArmedBefore (inp : Nat → Input P) (j : Fin P.windowSize) : Nat → Prop
  | 0 => False
  | t + 1 => Armed (sys inp t) (inp t) j

/-- An armed tag meets the last beat of a completion TLP in the cycle after. -/
def Clash (inp : Nat → Input P) (t : Nat) (j : Fin P.windowSize) : Prop :=
  Armed (sys inp t) (inp t) j ∧ (inp (t + 1)).rc.tvalid = true ∧ (inp (t + 1)).rc.tlast = true

/-- The request waiting in the output register is the one its tag waits for. -/
def PendingInv (inp : Nat → Input P) (t : Nat) : Prop :=
  (sys inp t).rq.out.tvalid = true → Rq.origin (rqRun inp) t = .initRead →
    ∃ j : Fin P.windowSize, (sys inp t).rq.beat.tag.toNat = j.val ∧
      (sys inp t).rq.tags.size j = (sys inp t).rq.beat.dwords ∧
      (ledger inp t).received j = 0 ∧ (ledger inp t).inflight j = 0 ∧ (ledger inp t).due j = 0 ∧
      ((sys inp t).rq.tags.size j ≠ 0 → (sys inp t).rq.tags.current j = true)

/-- The core and the ledger of the host agree in cycle `t`. -/
structure SystemInv (inp : Nat → Input P) (t : Nat) : Prop where
  transfer : TransferInv (sys inp t) (ledger inp t)
  phase : ∀ j, TagPhase (sys inp t) (ledger inp t) j (ArmedBefore inp j t)
  pending : PendingInv inp t

variable {inp : Nat → Input P} {w : BitVec 64}

theorem ledger_succ (inp : Nat → Input P) (t : Nat) : ledger inp (t + 1) =
    (ledger inp t).next (inp t).rc (requested inp t)
      (Rq.issuesTag (sys inp t).rq (rqInput (sys inp t) (inp t))) := rfl

theorem sys_succ (inp : Nat → Input P) (t : Nat) : sys inp (t + 1) = step (sys inp t) (inp t) := rfl

/-- A request handed over was waiting in the output register. -/
theorem requested_eq_some {t : Nat} {j : Fin P.windowSize} {d : Nat}
    (h : requested inp t j = some d) :
    (inp t).axisRqTready = true ∧ (sys inp t).rq.out.tvalid = true ∧
      Rq.origin (rqRun inp) t = .initRead ∧ (sys inp t).rq.beat.tag.toNat = j.val ∧
      d = (sys inp t).rq.beat.dwords.toNat := by
  have hready : (rqRun inp t).axisRqTready = (inp t).axisRqTready := rfl
  simp only [requested, Rq.emits, transferred, st_rqRun, hready] at h
  cases hv : ((sys inp t).rq.out.tvalid && (inp t).axisRqTready) with
  | false =>
      simp [hv] at h
  | true =>
      rw [Bool.and_eq_true] at hv
      simp only [hv, Bool.and_self, if_true] at h
      split at h
      · rename_i hx
        exact ⟨hv.2, hv.1, hx.1, hx.2, by simpa using h.symm⟩
      · cases h

theorem PendingInv.requestOk {t : Nat} (h : PendingInv inp t) (j : Fin P.windowSize) :
    RequestOk (sys inp t) (ledger inp t) (requested inp t) j := by
  intro d hd
  obtain ⟨-, hvalid, horigin, htag, hdw⟩ := requested_eq_some hd
  obtain ⟨k, hk, hsize, hrest⟩ := h hvalid horigin
  obtain rfl : j = k := Fin.ext (htag.symm.trans hk)
  exact ⟨by rw [hdw, hsize], hrest⟩

/-- With a fixed window no tag outside it ever gets a request. -/
theorem size_outside (hwin : ∀ t, (inp t).currentWindowSize = w) (t : Nat) {j : Fin P.windowSize}
    (hj : (w.setWidth 8).toNat ≤ j.val) : (sys inp t).rq.tags.size j = 0 := by
  induction t with
  | zero =>
      rfl
  | succ t ih =>
      have hno : Rq.issuesTag (sys inp t).rq (rqInput (sys inp t) (inp t)) j = false := by
        have hw : (rqInput (sys inp t) (inp t)).currentWindowSize = w := hwin t
        have hlt : ¬ j.val < (w.setWidth 8).toNat := by omega
        simp only [Rq.issuesTag, hw, hlt, decide_false, Bool.and_false, Bool.false_and]
      rw [sys_succ, step_size_of_not_issues hno, ih]

theorem windowStable_of_fixed (hwin : ∀ t, (inp t).currentWindowSize = w) :
    Rq.WindowStable (rqRun inp) := by
  intro t _ u _ _
  exact (hwin u).trans (hwin t).symm

/-- A request that stays in the output register keeps its tag. -/
theorem PendingInv.waits {t : Nat} (h : SystemInv inp t) (hbeat : BeatOk (ledger inp t) (inp t).rc)
    (hready : (inp t).axisRqTready = false) : PendingInv inp (t + 1) := by
  intro hvalid horigin
  obtain ⟨hout, hctl⟩ := Rq.step_beat_of_not_tready (sys inp t).rq (rqInput (sys inp t) (inp t)) hready
  have hb : (sys inp (t + 1)).rq.beat = (sys inp t).rq.beat := by
    simp only [sys_succ_rq, Rq.State.beat, hout, hctl]
  have hr : (rqRun inp t).axisRqTready = false := hready
  rw [sys_succ_rq, hout] at hvalid
  rw [Rq.origin_succ, if_neg (by simp [hr])] at horigin
  obtain ⟨j, htag, hsize, hreceived, hflight, hdue, hbusy⟩ := h.pending hvalid horigin
  have hq := h.transfer.quiet_of_due hbeat hflight hdue
  have hiss : ∀ k, Rq.issuesTag (sys inp t).rq (rqInput (sys inp t) (inp t)) k = false := by
    intro k
    have : (rqInput (sys inp t) (inp t)).axisRqTready = false := hready
    simp [Rq.issuesTag, this]
  have hsame := step_size_of_not_issues (i := inp t) (hiss j)
  have hnone : requested inp t j = none := by
    by_contra hsome
    obtain ⟨d, hd⟩ := Option.ne_none_iff_exists'.mp hsome
    rw [(requested_eq_some hd).1] at hready
    cases hready
  refine ⟨j, by rw [hb]; exact htag, ?_, ?_, ?_, ?_, ?_⟩
  · rw [hb, sys_succ, hsame]
    exact hsize
  · rw [ledger_succ, hq.received, hiss]
    exact hreceived
  · rw [ledger_succ]
    exact hq.inflight _ _
  · rw [ledger_succ, hq.due, hnone]
    exact hdue
  · intro hne
    rw [sys_succ, hsame] at hne
    rw [sys_succ, step_busy_of_not_issues (hiss j)]
    refine .inl ⟨hbusy hne, ?_⟩
    -- a tag is only completed with all its dwords received
    rcases h.phase j with hp | hp | hp | hp | hp
    · exact hp.completed
    · exact absurd hp.size hne
    · exact hp.completed
    · exact hp.completed
    · have := size_ne_zero.mp hp.size
      have := hp.received
      omega

/-- A request loaded into the output register has just taken a free tag. -/
theorem PendingInv.loads {t : Nat} (h : SystemInv inp t) (hbeat : BeatOk (ledger inp t) (inp t).rc)
    (hwin : Rq.WindowStable (rqRun inp)) (hready : (inp t).axisRqTready = true) :
    PendingInv inp (t + 1) := by
  intro hvalid horigin
  have hr : (rqRun inp t).axisRqTready = true := hready
  rw [Rq.origin_succ, if_pos hr, st_rqRun] at horigin
  have hm : Rq.IssuesRead (sys inp t).rq (rqRun inp t) := by
    rcases Rq.initRead_cases (i := rqRun inp t) horigin with hstall | hm
    · have hload := hstall.load
      rw [sys_succ_rq] at hvalid
      have hv : (Rq.step (sys inp t).rq (rqRun inp t)).out.tvalid = true := hvalid
      rw [Rq.load, hv, hr] at hload
      simp at hload
    · exact hm
  have hmask : ∀ k, (sys inp t).rq.windowSizeMask k = true → k.val < Rq.window (rqRun inp) t := by
    intro k hk
    rw [← st_rqRun] at hk horigin
    exact hwin.mask_le (by simp [horigin]) hk
  obtain ⟨j, hj⟩ := hm.takesTag hmask
  have hiss : Rq.issuesTag (sys inp t).rq (rqInput (sys inp t) (inp t)) j = true :=
    (hj.issues j).mpr rfl
  have hfree : Free (sys inp t) (ledger inp t) j := by
    have hbusy := hj.free
    rcases h.phase j with hp | hp | hp | hp | hp
    · exact hp
    all_goals
      rw [hp.busy] at hbusy
      cases hbusy
  have hq := h.transfer.quiet_of_due hbeat hfree.inflight hfree.due
  refine ⟨j, hj.tag, hj.size, ?_, ?_, ?_, fun _ => hj.busy⟩
  · rw [ledger_succ, hq.received, hiss]
    rfl
  · rw [ledger_succ]
    exact hq.inflight _ _
  · rw [ledger_succ, hq.due]
    cases hreq : requested inp t j with
    | none =>
        exact hfree.due
    | some d =>
        obtain ⟨hd, -, -, -, hbusy⟩ := h.pending.requestOk j d hreq
        have hzero : (sys inp t).rq.tags.size j = 0 := by
          by_contra hne
          have := hbusy hne
          rw [hfree.busy] at this
          cases this
        rw [Option.getD_some, hd, hzero]
        rfl

theorem systemInv_zero (inp : Nat → Input P) : SystemInv inp 0 := by
  refine ⟨⟨rfl, ?_⟩, ?_, ?_⟩
  · intro x hx
    cases hx
  · intro j
    exact .inl ⟨rfl, rfl, rfl, rfl, rfl, fun h => by cases h⟩
  · intro hvalid
    cases hvalid

/-- Without a clash the core and the ledger agree in every cycle. -/
theorem systemInv (hhost : HostOk inp) (hwin : ∀ t, (inp t).currentWindowSize = w) {n : Nat}
    (hclash : ∀ u, u + 1 < n → ∀ j, ¬ Clash inp u j) : ∀ t, t ≤ n → SystemInv inp t := by
  intro t
  induction t with
  | zero =>
      intro _
      exact systemInv_zero inp
  | succ t ih =>
      intro htn
      have h := ih (by omega)
      have hbeat := hhost t
      refine ⟨?_, ?_, ?_⟩
      · rw [ledger_succ, sys_succ]
        exact h.transfer.step hbeat
      · intro j
        rw [ledger_succ, sys_succ]
        refine (h.phase j).step h.transfer hbeat (h.pending.requestOk j) ?_ ?_
        · intro hle
          rw [hwin t] at hle
          exact size_outside hwin t hle
        · intro harmed hlast
          cases t with
          | zero =>
              exact harmed
          | succ u =>
              exact hclash u (by omega) j ⟨harmed, hlast.1, hlast.2⟩
      · cases hready : (inp t).axisRqTready with
        | false =>
            exact PendingInv.waits h hbeat hready
        | true =>
            exact PendingInv.loads h hbeat (windowStable_of_fixed hwin) hready

/-! ## Soundness -/

/-- `COMPLETED_TAGS` rises for a busy tag only when all dwords of its request have been received. -/
def CompletionSound (inp : Nat → Input P) : Prop :=
  ∀ t j, (sys inp t).rc.completedTags j = true → (sys inp t).rq.tags.current j = true →
    ((sys inp t).rq.tags.size j).toNat ≤ (ledger inp t).received j

theorem TagPhase.sound {armed : Prop} (h : TagPhase s l j armed)
    (hcompleted : s.rc.completedTags j = true) (hbusy : s.rq.tags.current j = true) :
    (s.rq.tags.size j).toNat ≤ l.received j := by
  rcases h with h | h | h | h | h
  · rw [h.busy] at hbusy
    cases hbusy
  · rw [h.size]
    exact Nat.zero_le _
  · rw [h.completed] at hcompleted
    cases hcompleted
  · rw [h.completed] at hcompleted
    cases hcompleted
  · exact Nat.le_of_eq h.received.symm

/-- A clash completes a request of which nothing has been received. -/
theorem Clash.unsound {t : Nat} (h : SystemInv inp t) (hhost : HostOk inp)
    (hinv : TransferInv (sys inp (t + 1)) (ledger inp (t + 1))) {j : Fin P.windowSize}
    (hclash : Clash inp t j) :
    (sys inp (t + 2)).rc.completedTags j = true ∧ (sys inp (t + 2)).rq.tags.current j = true ∧
      (ledger inp (t + 2)).received j < ((sys inp (t + 2)).rq.tags.size j).toNat := by
  obtain ⟨harmed, hvalid, hlast⟩ := hclash
  have hfree : Free (sys inp t) (ledger inp t) j := by
    have hissues := harmed.issues
    rcases h.phase j with hp | hp | hp | hp | hp
    · exact hp
    all_goals
      rw [Rq.issuesTag_of_busy hp.busy] at hissues
      cases hissues
  -- the cycle in which the tag is taken
  have hq := h.transfer.quiet_of_due (hhost t) hfree.inflight hfree.due
  have hbusy : (sys inp (t + 1)).rq.tags.current j = true := by
    simp [sys_succ, Dma.step, Rq.nextTags, harmed.issues]
  have hexceeded : (sys inp (t + 1)).rc.isTagCountExceeded j = true := by
    rw [sys_succ, exceeded_of_not_starts hq.starts, hfree.completed, hfree.word, harmed.unused]
    rfl
  have hcompleted : (sys inp (t + 1)).rc.completedTags j = false := by
    rw [sys_succ, completed_of_not_starts hq.starts, hfree.busy]
    simp
  have htag : (sys inp (t + 1)).rc.tlpTag.toNat = j.val := by
    simpa [sys_succ, Dma.step, Rc.nextTlpTag, harmed.sop] using harmed.shown
  have hreceived : (ledger inp (t + 1)).received j = 0 := by
    rw [ledger_succ, hq.received, harmed.issues]
    rfl
  have hdue : (ledger inp (t + 1)).due j = 0 := by
    rw [ledger_succ]
    rcases hq.due_cases (h.pending.requestOk j) hfree.due
      (Rq.issuesTag (sys inp t).rq (rqInput (sys inp t) (inp t))) with hd | hd
    · exact hd
    · rw [hd, harmed.unused]
      rfl
  have hflight : (ledger inp (t + 1)).inflight j = 0 := by
    rw [ledger_succ]
    exact hq.inflight _ _
  -- the cycle of the last beat
  have hq' := hinv.quiet_of_due (hhost (t + 1)) hflight hdue
  have hiss' := Rq.issuesTag_of_busy (i := rqInput (sys inp (t + 1)) (inp (t + 1))) hbusy
  refine ⟨?_, ?_, ?_⟩
  · rw [sys_succ inp (t + 1), completed_of_not_starts hq'.starts, hcompleted, hbusy, hvalid, hlast,
      hexceeded, htag]
    simp
  · rw [sys_succ inp (t + 1), step_busy_of_not_issues hiss']
    exact .inl ⟨hbusy, hcompleted⟩
  · rw [ledger_succ inp (t + 1), hq'.received, hiss', if_neg (by simp), hreceived,
      sys_succ inp (t + 1), step_size_of_not_issues hiss']
    exact size_ne_zero.mp harmed.dwords

/-- Completions are sound in a run exactly if it has no clash. -/
theorem completionSound_iff (hhost : HostOk inp) (hwin : ∀ t, (inp t).currentWindowSize = w) :
    CompletionSound inp ↔ ∀ t j, ¬ Clash inp t j := by
  constructor
  · intro hsound
    by_contra hsome
    push Not at hsome
    classical
    -- up to the first clash the invariant holds
    have hfirst := Nat.find_spec hsome
    have hbefore : ∀ u, u < Nat.find hsome → ∀ j, ¬ Clash inp u j := by
      intro u hu j hc
      exact Nat.find_min hsome hu ⟨j, hc⟩
    have hinv := systemInv hhost hwin (n := Nat.find hsome + 1)
      (fun u hu j => hbefore u (by omega) j)
    obtain ⟨j, hj⟩ := hfirst
    obtain ⟨hcompleted, hbusy, hlt⟩ := hj.unsound (hinv _ (by omega)) hhost
      (hinv _ (Nat.le_refl _)).transfer
    have := hsound _ j hcompleted hbusy
    omega
  · intro hclash t j hcompleted hbusy
    have hinv := systemInv hhost hwin (n := t) (fun u _ => hclash u) t (Nat.le_refl _)
    exact (hinv.phase j).sound hcompleted hbusy

/-! ## Completeness -/

/-- The last beat of the answer to a request is followed by one pulse, and the count of a tag is 0
when it is taken. -/
def CompletionComplete (inp : Nat → Input P) : Prop :=
  (∀ t j d, (ledger inp t).completes (inp t).rc j = some d →
    (ledger inp t).received j + d = ((sys inp t).rq.tags.size j).toNat →
      (sys inp (t + 1)).rc.completedTags j = true ∧
        (sys inp (t + 2)).rc.completedTags j = false) ∧
    ∀ t j, Rq.issuesTag (sys inp t).rq (rqRun inp t) j = true → (sys inp t).rc.wordCountTag j = 0

theorem TagPhase.completes {armed : Prop} (h : TagPhase s l j armed) (hinv : TransferInv s l)
    (hbeat : BeatOk l i.rc) (hreq : RequestOk s l req j) {d : Nat}
    (hd : l.completes i.rc j = some d)
    (hall : l.received j + d = (s.rq.tags.size j).toNat) :
    (Dma.step s i).rc.completedTags j = true := by
  have hsettled : Settled s l j := by
    have hquiet : ∀ hq : Quiet s l i.rc j, False := by
      intro hq
      rw [hq.completes] at hd
      cases hd
    rcases h with h | h | h | h | h
    · exact (hquiet (hinv.quiet_of_due hbeat h.inflight h.due)).elim
    · exact (hquiet (hinv.quiet_of_due hbeat h.inflight h.due)).elim
    · exact (hquiet (hinv.quiet_of_due hbeat h.inflight h.due)).elim
    · exact h
    · exact (hquiet (hinv.quiet_of_due hbeat h.inflight h.due)).elim
  have hiss := Rq.issuesTag_of_busy (i := rqInput s i) hsettled.busy
  rcases hsettled.step hinv hbeat hreq with hnext | hnext
  · -- a settled tag still misses dwords
    have hmissing := hnext.missing
    rw [step_size_of_not_issues hiss] at hmissing
    simp only [Ledger.next, hiss, hd] at hmissing
    simp at hmissing
    omega
  · exact hnext.completed

/-- Without a clash no final pulse is lost. -/
theorem completionComplete_of_no_clash (hhost : HostOk inp)
    (hwin : ∀ t, (inp t).currentWindowSize = w) (hclash : ∀ t j, ¬ Clash inp t j) :
    CompletionComplete inp := by
  have hinv : ∀ t, SystemInv inp t := by
    intro t
    exact systemInv hhost hwin (n := t) (fun u _ => hclash u) t (Nat.le_refl _)
  refine ⟨?_, ?_⟩
  · intro t j d hd hall
    have hpulse : (sys inp (t + 1)).rc.completedTags j = true :=
      ((hinv t).phase j).completes (hinv t).transfer (hhost t) ((hinv t).pending.requestOk j) hd hall
    refine ⟨hpulse, ?_⟩
    rw [sys_succ_rc inp (t + 1), Rc.step_completedTags, Rc.nextCompletedTags, hpulse]
    rfl
  · intro t j hissues
    have hissues' : Rq.issuesTag (sys inp t).rq (rqInput (sys inp t) (inp t)) j = true := hissues
    rcases (hinv t).phase j with hp | hp | hp | hp | hp
    · exact hp.word
    all_goals
      rw [Rq.issuesTag_of_busy hp.busy] at hissues'
      cases hissues'

end Completion

/-! ## A clash -/

/-- A first beat of a completion TLP. -/
def completionTlp (tag : BitVec 8) (dwords : BitVec 11) (tvalid tlast : Bool) : Rc.Beat where
  tvalid := tvalid
  tlast := tlast
  tkeep := 0xff
  tdata := (tag.setWidth 256 <<< 64) ||| (dwords.setWidth 256 <<< 32)

/-- Two memory reads of four dwords, tags 0 and 1, issued in cycles 5 and 6.  The first is answered
by one beat in cycle `first`, the second one in cycle 12; the idle bus shows tag 1 all the time. -/
def twoReads (first : Nat) : Nat → Input Rq.pcieController := fun t =>
  { axisRqTready := true
    c2sTvalid := false
    c2sTdataLo := 0
    c2sTdataHi := 0
    c2sTkeepHi := false
    engineValid := decide (4 ≤ t)
    cfg := { Rq.readConfig 16 with numberTlps := 2 }
    currentWindowSize := 24
    rc := if t = first then completionTlp 0 4 true true
      else completionTlp 1 4 (decide (t = 12)) (decide (t = 12)) }

/-- The second tag of the window. -/
def tagOne : Fin Rq.pcieController.windowSize := ⟨1, by decide⟩

theorem twoReads_idle {first t : Nat} (h1 : t ≠ first) (h2 : t ≠ 12) :
    (twoReads first t).rc.tvalid = false := by
  simp [twoReads, completionTlp, h1, h2]

/-- The host only speaks in two cycles. -/
theorem twoReads_hostOk {first : Nat}
    (hfirst : BeatOk (ledger (twoReads first) first) (twoReads first first).rc)
    (hlast : BeatOk (ledger (twoReads first) 12) (twoReads first 12).rc) :
    HostOk (twoReads first) := by
  intro t
  by_cases h1 : t = first
  · rw [h1]
    exact hfirst
  · by_cases h2 : t = 12
    · rw [h2]
      exact hlast
    · intro hvalid
      rw [twoReads_idle h1 h2] at hvalid
      cases hvalid

/-- Answered late, the two requests meet no last beat in the cycle after they are issued. -/
theorem twoReads_no_clash (t : Nat) (j : Fin Rq.pcieController.windowSize) :
    ¬ Clash (twoReads 9) t j := by
  rintro ⟨harmed, hvalid, -⟩
  have ht : t = 8 ∨ t = 11 := by
    by_contra hne
    rw [twoReads_idle (by omega) (by omega)] at hvalid
    cases hvalid
  have hstate : (sys (twoReads 9) t).rq.wrState ≠ .initRead := by
    rcases ht with rfl | rfl <;> decide +kernel
  have hissues := harmed.issues
  simp [Rq.issuesTag, hstate] at hissues

theorem completionSound_twoReads : CompletionSound (twoReads 9) :=
  (completionSound_iff (twoReads_hostOk (by decide +kernel) (by decide +kernel))
    (fun _ => rfl)).mpr twoReads_no_clash

theorem completionComplete_twoReads : CompletionComplete (twoReads 9) :=
  completionComplete_of_no_clash (twoReads_hostOk (by decide +kernel) (by decide +kernel))
    (fun _ => rfl) twoReads_no_clash

/-- If the answer to the first request comes in cycle 7, the second one is completed in cycle 8, with
none of its four dwords received. -/
theorem early_completion :
    HostOk (twoReads 7) ∧ (∀ t, (twoReads 7 t).currentWindowSize = 24) ∧
      ¬ CompletionSound (twoReads 7) := by
  refine ⟨twoReads_hostOk (by decide +kernel) (by decide +kernel), fun _ => rfl, ?_⟩
  intro h
  have hle := h 8 tagOne (by decide +kernel) (by decide +kernel)
  revert hle
  decide +kernel

/-- The four dwords that arrive in cycle 12 are then followed by no pulse. -/
theorem lost_completion :
    HostOk (twoReads 7) ∧ (∀ t, (twoReads 7 t).currentWindowSize = 24) ∧
      ¬ CompletionComplete (twoReads 7) := by
  refine ⟨twoReads_hostOk (by decide +kernel) (by decide +kernel), fun _ => rfl, ?_⟩
  intro h
  have hpulse := (h.1 12 tagOne 4 (by decide +kernel) (by decide +kernel)).1
  revert hpulse
  decide +kernel

end Dma
end PcieBench
