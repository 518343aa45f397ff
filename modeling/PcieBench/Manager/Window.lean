import PcieBench.Manager.Engine

/-!
# Tags and changes of the window

A busy bit means two things: a request is outstanding, or the tag lies outside the window.  The first
one is cleared by a completion, the second one by nothing.  A window that only shrinks keeps the two
apart: the tags inside were never outside.
-/

namespace PcieBench
namespace Engine

open Clocked
open Rq (Params TagSet Config Run pcieController)

section Window

variable {P : Params}

/-! ## A tag that is taken is loaded -/

/-- The request that takes tag `j` is loaded if the mask, two cycles older, already shows the tag. -/
theorem loadsTag_of_issuesTag {s : Rq.State P} {i : Rq.Input P} {j : Fin P.windowSize}
    (hissue : Rq.issuesTag s i j = true) (hmask : s.windowSizeMask j = true) :
    Rq.loadsTag s i j = true := by
  simp only [Rq.issuesTag, Bool.and_eq_true, decide_eq_true_eq, Bool.not_eq_true'] at hissue
  obtain ⟨⟨⟨⟨hs, hready⟩, hin⟩, hfree⟩, hlow⟩ := hissue
  have havail : s.tagAvailable = true := by
    simp only [Rq.State.tagAvailable, Rq.covers, Bool.not_eq_true', decide_eq_false_iff_not]
    intro hall
    rw [hall j hmask] at hfree
    cases hfree
  have hbeat : (Rq.step s i).beat.tdataLo = Tlp.packDescriptor s.s2cRqTag Tlp.memoryRead
      ((s.currentRdTlpWords i.cfg).setWidth 11) s.rdPtr.addr := by
    simp [Rq.State.beat, Rq.nextOut, hs, hready]
  have htag : (Rq.step s i).beat.tag.toNat = j.val := by
    rw [Tlp.Beat.tag, hbeat, Tlp.packDescriptor_tag, Rq.State.s2cRqTag, Rq.firstFree_eq hfree hlow,
      BitVec.toNat_ofNat]
    have := (i.currentWindowSize.setWidth 8).isLt
    omega
  simp [Rq.loadsTag, Rq.load_initRead hs, hready, havail, htag]

variable (memories : Manager.Memories) (inp : Nat → Input P)

/-- Inside a bound that the window has always kept, a busy tag has an outstanding request. -/
theorem outstanding_of_current {w t : Nat} (hw : ∀ u, u < t → w ≤ Rq.window (rqRun memories inp) u)
    {j : Fin P.windowSize} (hj : j.val < w)
    (hbusy : (Rq.st (rqRun memories inp) t).tags.current j = true) :
    Rq.outstanding (rqRun memories inp) t j = true := by
  induction t with
  | zero =>
      cases hbusy
  | succ t ih =>
      have hin : j.val < Rq.window (rqRun memories inp) t := by
        have := hw t (by omega)
        omega
      rw [Rq.outstanding_succ, Bool.or_eq_true]
      by_cases hissue : Rq.issuesTag (Rq.st (rqRun memories inp) t) (rqRun memories inp t) j = true
      · -- the FSM is not reading before the mask shows the window of two cycles ago
        left
        refine loadsTag_of_issuesTag hissue ?_
        have hs : (Rq.st (rqRun memories inp) t).wrState = .initRead := by
          simp only [Rq.issuesTag, Bool.and_eq_true, decide_eq_true_eq] at hissue
          exact hissue.1.1.1.1
        have ht : 3 ≤ t := by
          by_contra hlt
          rw [wrState_early memories inp (by omega)] at hs
          cases hs
        obtain ⟨u, rfl⟩ : ∃ u, t = u + 2 := ⟨t - 2, by omega⟩
        rw [Rq.windowSizeMask_eq, decide_eq_true_eq]
        have := hw u (by omega)
        omega
      · right
        rw [Rq.st_succ, Rq.step_tags] at hbusy
        have hout : ¬ ((rqRun memories inp t).currentWindowSize.setWidth 8).toNat ≤ j.val :=
          Nat.not_le.mpr hin
        have hkeep : ((Rq.st (rqRun memories inp) t).tags.current j &&
            !(rqRun memories inp t).completedTags j) = true := by
          simp only [Rq.nextTags, if_neg hissue, decide_eq_false hout, Bool.or_false,
            ite_self] at hbusy
          exact hbusy
        rw [Bool.and_eq_true] at hkeep ⊢
        exact ⟨ih (fun u hu => hw u (by omega)) hkeep.1, hkeep.2⟩

/-! ## The window register -/

/-- The window register after the host access of cycle `t`. -/
def storedWindow (t : Nat) : Nat :=
  ((inp t).host.store 3 (mgr memories inp t).regs.windowSize).toNat

/-- What the host promises: it writes the window register only while no request is outstanding, with
values that the tags allow. -/
structure WindowWrites : Prop where
  range : ∀ t, (inp t).host.writesRegister 3 = true →
    1 ≤ storedWindow memories inp t ∧ storedWindow memories inp t ≤ P.windowSize
  drained : ∀ t, (inp t).host.writesRegister 3 = true →
    ∀ j, Rq.outstanding (rqRun memories inp) t j = false

/-- No write makes the window larger than it is. -/
def WindowShrinks : Prop :=
  ∀ t, (inp t).host.writesRegister 3 = true →
    storedWindow memories inp t ≤ (mgr memories inp t).regs.windowSize.toNat

/-- Four cycles after the last write of the window, the tags inside it are busy only while their
requests are outstanding; without such requests a read operation can end. -/
def NoTagLeak : Prop :=
  ∀ t, (∀ u, u < t → t < u + 4 → (inp u).host.writesRegister 3 = false) →
    (∀ j : Fin P.windowSize, j.val < (mgr memories inp t).out.windowSize.toNat →
      Rq.outstanding (rqRun memories inp) t j = false →
        (Rq.st (rqRun memories inp) t).tags.current j = false) ∧
    ((∀ j : Fin P.windowSize, j.val < (mgr memories inp t).out.windowSize.toNat →
      Rq.outstanding (rqRun memories inp) t j = false) →
        Rq.disjoint (Rq.st (rqRun memories inp) t).tags.current
          (Rq.st (rqRun memories inp) t).windowSizeMask = true)

/-- The register holds what the host stored, the output follows one cycle later. -/
theorem windowSize_succ (t : Nat) :
    (mgr memories inp (t + 1)).regs.windowSize.toNat = storedWindow memories inp t ∧
      (mgr memories inp (t + 1)).out.windowSize = (mgr memories inp t).regs.windowSize :=
  ⟨rfl, rfl⟩

theorem storedWindow_of_not_writes {t : Nat} (h : (inp t).host.writesRegister 3 = false) :
    storedWindow memories inp t = (mgr memories inp t).regs.windowSize.toNat := by
  rw [storedWindow, Manager.HostAccess.store, h, if_neg (by simp)]

variable {memories inp}

/-- A shrinking window never exceeds the default and is largest at first. -/
theorem WindowShrinks.regs_le (h : WindowShrinks memories inp) {u t : Nat} (hut : u ≤ t) :
    (mgr memories inp t).regs.windowSize.toNat ≤ (mgr memories inp u).regs.windowSize.toNat := by
  induction t, hut using Nat.le_induction with
  | base =>
      exact Nat.le_refl _
  | succ t hut ih =>
      rw [(windowSize_succ memories inp t).1]
      cases hwrite : (inp t).host.writesRegister 3 with
      | true =>
          exact (h t hwrite).trans ih
      | false =>
          rw [storedWindow_of_not_writes memories inp hwrite]
          exact ih

theorem WindowShrinks.out_le (h : WindowShrinks memories inp) {u t : Nat} (hut : u ≤ t) :
    (mgr memories inp t).out.windowSize.toNat ≤ (mgr memories inp u).out.windowSize.toNat := by
  match u, t, hut with
  | 0, 0, _ => exact Nat.le_refl _
  | 0, t + 1, _ =>
      rw [(windowSize_succ memories inp t).2]
      exact h.regs_le (u := 0) (by omega)
  | u + 1, t + 1, hut =>
      rw [(windowSize_succ memories inp t).2, (windowSize_succ memories inp u).2]
      exact h.regs_le (by omega)

/-- The tag logic reads the whole window in its low byte. -/
theorem WindowShrinks.window_eq (h : WindowShrinks memories inp) (hP : P.windowSize < 256) (t : Nat) :
    Rq.window (rqRun memories inp) t = (mgr memories inp t).out.windowSize.toNat := by
  have hle := h.out_le (u := 0) (t := t) (by omega)
  have hdefault : (mgr memories inp 0).out.windowSize.toNat = P.windowSize := by
    have hval : (mgr memories inp 0).out.windowSize = BitVec.ofNat 64 P.windowSize := rfl
    rw [hval, BitVec.toNat_ofNat]
    omega
  rw [Rq.window, rqRun_currentWindowSize, BitVec.toNat_setWidth]
  omega

/-- While the window is not written the mask shows it. -/
theorem mask_lt {t : Nat} (hquiet : ∀ u, u < t → t < u + 4 → (inp u).host.writesRegister 3 = false)
    {j : Fin P.windowSize} (hmask : (Rq.st (rqRun memories inp) t).windowSizeMask j = true) :
    j.val < Rq.window (rqRun memories inp) t := by
  rcases Nat.lt_or_ge t 2 with ht | ht
  · rw [Rq.windowSizeMask_early _ ht] at hmask
    cases hmask
  · obtain ⟨u, rfl⟩ : ∃ u, t = u + 2 := ⟨t - 2, by omega⟩
    have hstep : ∀ v, v < u + 2 → u ≤ v + 1 →
        (mgr memories inp (v + 1)).regs.windowSize = (mgr memories inp v).regs.windowSize := by
      intro v hv huv
      apply BitVec.eq_of_toNat_eq
      rw [(windowSize_succ memories inp v).1,
        storedWindow_of_not_writes memories inp (hquiet v hv (by omega))]
    have hout : (mgr memories inp (u + 2)).out.windowSize = (mgr memories inp u).out.windowSize := by
      rw [(windowSize_succ memories inp (u + 1)).2, hstep u (by omega) (by omega)]
      match u, hstep with
      | 0, _ => rfl
      | v + 1, hstep =>
          rw [(windowSize_succ memories inp v).2, hstep v (by omega) (by omega)]
    rw [Rq.windowSizeMask_eq, decide_eq_true_eq] at hmask
    rw [Rq.window, rqRun_currentWindowSize] at hmask ⊢
    rw [hout]
    exact hmask

/-- In a run whose window writes never enlarge the window, no tag is lost. -/
theorem noTagLeak_of_shrinks (hP : P.windowSize < 256) (hshrink : WindowShrinks memories inp) :
    NoTagLeak memories inp := by
  intro t hquiet
  have hfree : ∀ j : Fin P.windowSize, j.val < (mgr memories inp t).out.windowSize.toNat →
      Rq.outstanding (rqRun memories inp) t j = false →
        (Rq.st (rqRun memories inp) t).tags.current j = false := by
    intro j hj hnone
    by_contra hbusy
    rw [Bool.not_eq_false] at hbusy
    have hkept : ∀ u, u < t →
        (mgr memories inp t).out.windowSize.toNat ≤ Rq.window (rqRun memories inp) u := by
      intro u hu
      rw [hshrink.window_eq hP]
      exact hshrink.out_le (by omega)
    rw [outstanding_of_current memories inp hkept hj hbusy] at hnone
    cases hnone
  refine ⟨hfree, ?_⟩
  intro hnone
  simp only [Rq.disjoint, decide_eq_true_eq]
  intro j hmask
  have hj := mask_lt hquiet hmask
  rw [hshrink.window_eq hP] at hj
  exact hfree j hj (hnone j hj)

end Window

/-! ## Two window writes -/

/-- A host that writes the window register in two cycles and nothing else. -/
def windowRun (first second : BitVec 64) (t : Nat) : Input pcieController :=
  { quiet with
    host :=
      if t = 2 then hostWrite 0x203 first
      else if t = 12 then hostWrite 0x203 second
      else noAccess }

theorem windowRun_writes {first second : BitVec 64} {t : Nat}
    (h : (windowRun first second t).host.writesRegister 3 = true) : t = 2 ∨ t = 12 := by
  by_contra hne
  rw [not_or] at hne
  simp only [windowRun, if_neg hne.1, if_neg hne.2] at h
  cases h

/-- A window of four tags, then of three. -/
theorem noTagLeak_of_shrinks_three :
    (∃ t, (windowRun 4 3 t).host.writesRegister 3 = true) ∧
      NoTagLeak emptyMemories (windowRun 4 3) := by
  refine ⟨⟨2, rfl⟩, noTagLeak_of_shrinks (by decide) ?_⟩
  intro t ht
  rcases windowRun_writes ht with rfl | rfl <;> decide +kernel

/-- A window of four tags, then of eight: tag 5 is busy for ever, although nothing was requested. -/
theorem tag_leak :
    ∃ inp : Nat → Input pcieController, WindowWrites emptyMemories inp ∧
      ¬ NoTagLeak emptyMemories inp := by
  refine ⟨windowRun 4 8, ⟨?_, ?_⟩, ?_⟩
  · intro t ht
    rcases windowRun_writes ht with rfl | rfl <;> decide +kernel
  · intro t ht
    rcases windowRun_writes ht with rfl | rfl <;> decide +kernel
  · intro h
    have hquiet : ∀ u, u < 16 → 16 < u + 4 →
        (windowRun 4 8 u).host.writesRegister 3 = false := by
      intro u hu hut
      by_contra hwrite
      rcases windowRun_writes (by simpa using hwrite) with rfl | rfl <;> omega
    have hfree := (h 16 hquiet).1 ⟨5, by decide⟩ (by decide +kernel) (by decide +kernel)
    revert hfree
    decide +kernel

end Engine
end PcieBench
