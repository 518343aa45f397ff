import PcieBench.Rq.ReadEnd

/-!
# What the latency of an operation covers

`time_comp_r` counts while the requests of the first block are issued and then as long as one of them
is marked in `latency_tags_r`.  The marks are set by a second copy of the tag allocation.  It compares
the lower marks with `-1`, which has 32 bits, so a mark other than the one of tag 0 is never set.  The
mark of tag 0 follows the busy bit of tag 0 through the first block; this module proves that, and what
of the first block the latency covers because of it.
-/

namespace PcieBench
namespace Rq

open Clocked Tlp

section Latency

variable {P : Params}

/-! ## The first block -/

/-- The requests of the first block are still being issued: the two counters agree. -/
def State.firstBlock (s : State P) : Bool := s.rdCount.current == s.rdCount.modulus

/-- The tags of the requests issued during a first block whose completion pulse has not occurred. -/
def firstOutstanding (inp : Run P) : Nat → TagSet P :=
  (machine P).ghost inp (fun _ => false)
    (fun s i live j => (loadsTag s i j && s.firstBlock) || (live j && !i.completedTags j))

/-- `time_comp_r` counts every cycle in which a request of the first block is outstanding. -/
def LatencyCovered (inp : Run P) : Prop :=
  ∀ t, (st inp t).latency.stop = false → (∃ j, firstOutstanding inp t j = true) →
    (st inp (t + 1)).latency.timeComp = (st inp t).latency.timeComp + 1

/-- Once the first block has been issued, its request on tag 0 is the last one to be completed. -/
def TagZeroLast (inp : Run P) : Prop :=
  ∀ t, (st inp t).latency.stop = false → (st inp t).firstBlock = false →
    (∃ j, firstOutstanding inp t j = true) → ∃ z, z.val = 0 ∧ firstOutstanding inp t z = true

theorem firstOutstanding_succ (inp : Run P) (t : Nat) (j : Fin P.windowSize) :
    firstOutstanding inp (t + 1) j = ((loadsTag (st inp t) (inp t) j && (st inp t).firstBlock) ||
      (firstOutstanding inp t j && !(inp t).completedTags j)) := rfl

theorem outstanding_of_firstOutstanding {inp : Run P} {t : Nat} {j : Fin P.windowSize}
    (h : firstOutstanding inp t j = true) : outstanding inp t j = true := by
  induction t with
  | zero =>
      cases h
  | succ t ih =>
      rw [firstOutstanding_succ, Bool.or_eq_true, Bool.and_eq_true, Bool.and_eq_true] at h
      rw [outstanding_succ]
      rcases h with ⟨hload, -⟩ | ⟨hlive, hopen⟩
      · simp [hload]
      · simp [ih hlive, hopen]

/-! ## The marks -/

/-- Only tag 0 is ever marked. -/
theorem latency_tags_zero (inp : Run P) (t : Nat) {j : Fin P.windowSize}
    (h : (st inp t).latency.tags j = true) : j.val = 0 := by
  induction t generalizing j with
  | zero =>
      cases h
  | succ t ih =>
      rw [st_succ, step_latency] at h
      simp only [nextLatency] at h
      by_cases hmark : marksLatencyTag (st inp t) (inp t) j = true
      · simp only [marksLatencyTag, Bool.and_eq_true, Bool.or_eq_true, decide_eq_true_eq] at hmark
        rcases hmark.1.2 with hzero | ⟨hwide, hlower⟩
        · exact hzero
        · -- a mark beyond the 32 bits of `-1` would need the mark of tag 1
          have hone : (1 : Nat) < P.windowSize := by have := j.isLt; omega
          have hmarked := hlower ⟨1, hone⟩ (show 1 < j.val by omega)
          exact absurd (ih hmarked) (by simp)
      · rw [if_neg hmark, Bool.and_eq_true] at h
        exact ih h.1

/-- The guard that the busy bit and the mark of tag 0 share. -/
def readsZero (s : State P) (i : Input P) : Bool :=
  decide (s.wrState = .initRead) && i.axisRqTready &&
    decide (0 < (i.currentWindowSize.setWidth 8).toNat)

section TagZero

variable {inp : Run P} {t : Nat} {z : Fin P.windowSize} (hz : z.val = 0)

include hz

theorem current_zero_succ : (st inp (t + 1)).tags.current z =
    ((readsZero (st inp t) (inp t) && !(st inp t).tags.current z) ||
      ((st inp t).tags.current z && !(inp t).completedTags z)) := by
  have hlower : ∀ k : Fin P.windowSize, k < z → (st inp t).tags.current k = true := by
    intro k hk
    rw [Fin.lt_def] at hk
    omega
  have hissues : issuesTag (st inp t) (inp t) z =
      (readsZero (st inp t) (inp t) && !(st inp t).tags.current z) := by
    rw [issuesTag, decide_eq_true hlower, Bool.and_true, hz]
    rfl
  rw [st_succ, step_tags]
  simp only [nextTags, hissues, if_pos hz]
  cases (readsZero (st inp t) (inp t) && !(st inp t).tags.current z) <;> simp

theorem latency_zero_succ : (st inp (t + 1)).latency.tags z =
    ((readsZero (st inp t) (inp t) && !(st inp t).latency.tags z && (st inp t).firstBlock) ||
      ((st inp t).latency.tags z && !(inp t).completedTags z)) := by
  have hmarks : marksLatencyTag (st inp t) (inp t) z =
      (readsZero (st inp t) (inp t) && !(st inp t).latency.tags z && (st inp t).firstBlock) := by
    rw [marksLatencyTag, decide_eq_true hz, Bool.true_or, Bool.and_true, hz]
    rfl
  rw [st_succ, step_latency]
  simp only [nextLatency, hmarks]
  cases (readsZero (st inp t) (inp t) && !(st inp t).latency.tags z && (st inp t).firstBlock) <;>
    simp

/-- A request that takes tag 0 meets the guard, and finds the tag free. -/
theorem readsZero_of_loadsTag (hwin : WindowStable inp)
    (hload : loadsTag (st inp t) (inp t) z = true) :
    readsZero (st inp t) (inp t) = true ∧ (st inp t).tags.current z = false := by
  have hm := issuesRead_of_loadsTag hload
  obtain ⟨k, hk⟩ := hm.takesTag (fun _ => hwin.mask_le (by simp [hm.initRead]))
  obtain rfl := (hk.loadsTag_iff hm z).mp hload
  have hinside := hk.inside
  rw [hz] at hinside
  refine ⟨?_, hk.free⟩
  rw [readsZero, hm.initRead, hm.tready, decide_eq_true hinside]
  rfl

end TagZero

/-! ## The mark of tag 0 follows its busy bit -/

/-- The mark and the busy bit of tag 0 agree in the first block; later the mark stays until the tag is
completed. -/
structure Shadow (inp : Run P) (z : Fin P.windowSize) (t : Nat) : Prop where
  idle : (st inp t).wrState = .idle → (st inp t).tags.current z = false
  noRead : (st inp t).wrState ≠ .idle → (inp t).cfg.capRead = false →
    (st inp t).tags.current z = false
  marked : (st inp t).latency.tags z = true → (st inp t).tags.current z = true
  first : (st inp t).wrState ≠ .idle → (st inp t).firstBlock = true →
    (st inp t).tags.current z = true → (st inp t).latency.tags z = true
  covers : firstOutstanding inp t z = true → (st inp t).latency.tags z = true
  window : (st inp t).wrState = .waitRead → 0 < Rq.window inp t
  counter : (st inp t).wrState ≠ .idle → (st inp t).wrState ≠ .waitRead →
    (st inp t).rdCount.current ≠ 0

section Steps

variable {inp : Run P} {t : Nat} {z : Fin P.windowSize}

/-- Outside `INIT_READ` a free tag 0 stays free. -/
theorem current_zero_of_ne (hz : z.val = 0) (hs : (st inp t).wrState ≠ .initRead)
    (hfree : (st inp t).tags.current z = false) : (st inp (t + 1)).tags.current z = false := by
  rw [current_zero_succ hz, readsZero, decide_eq_false hs, hfree]
  rfl

theorem initRead_of_readsZero (h : readsZero (st inp t) (inp t) = true) :
    (st inp t).wrState = .initRead := by
  simp only [readsZero, Bool.and_eq_true, decide_eq_true_eq] at h
  exact h.1.1

/-- Only when the mark and the busy bit agree is a mark set, and then on a free tag. -/
theorem Shadow.marked_succ (h : Shadow inp z t) (hz : z.val = 0)
    (hmark : (st inp (t + 1)).latency.tags z = true) :
    (st inp (t + 1)).tags.current z = true := by
  rw [latency_zero_succ hz, Bool.or_eq_true, Bool.and_eq_true, Bool.and_eq_true,
    Bool.and_eq_true] at hmark
  rw [current_zero_succ hz]
  rcases hmark with ⟨⟨hreads, hno⟩, hfirst⟩ | ⟨hold, hopen⟩
  · have hfree : (st inp t).tags.current z = false := by
      by_contra hbusy
      rw [Bool.not_eq_false] at hbusy
      rw [h.first (by simp [initRead_of_readsZero hreads]) hfirst hbusy] at hno
      cases hno
    simp [hreads, hfree]
  · simp [h.marked hold, hopen]

/-- A request of the first block that takes tag 0 is marked. -/
theorem Shadow.covers_succ (h : Shadow inp z t) (hz : z.val = 0) (hwin : WindowStable inp)
    (hlive : firstOutstanding inp (t + 1) z = true) :
    (st inp (t + 1)).latency.tags z = true := by
  rw [firstOutstanding_succ, Bool.or_eq_true, Bool.and_eq_true, Bool.and_eq_true] at hlive
  rw [latency_zero_succ hz]
  rcases hlive with ⟨hload, hfirst⟩ | ⟨hold, hopen⟩
  · obtain ⟨hreads, hfree⟩ := readsZero_of_loadsTag hz hwin hload
    have hno : (st inp t).latency.tags z = false := by
      by_contra hmark
      rw [Bool.not_eq_false] at hmark
      rw [h.marked hmark] at hfree
      cases hfree
    simp [hreads, hno, hfirst]
  · simp [h.covers hold, hopen]

/-- The counters do not meet again behind the first block. -/
theorem Shadow.firstBlock_of_succ (h : Shadow inp z t) (hs : (st inp t).wrState ≠ .idle)
    (hfirst : (st inp (t + 1)).firstBlock = true) : (st inp t).firstBlock = true := by
  rw [State.firstBlock, st_succ, beq_iff_eq] at hfirst
  rw [State.firstBlock, beq_iff_eq]
  rcases busy_cases (inp t) hs with hm | hm | hm | hm | hm | hm
  · rwa [hm.rdCount] at hfirst
  · rwa [hm.rdCount] at hfirst
  · rwa [hm.rdCount] at hfirst
  · rwa [hm.rdCount] at hfirst
  · -- a memory read request
    have hne := h.counter hs (by simp [hm.initRead])
    rw [hm.rdCount] at hfirst
    simp only [TlpCount.next] at hfirst
    split at hfirst
    · exact absurd (by simpa using hfirst) hne
    · simpa using hfirst
  · rwa [hm.rdCount] at hfirst

/-- In the first block tag 0 is marked whenever it is taken. -/
theorem Shadow.first_succ (h : Shadow inp z t) (hz : z.val = 0)
    (hs : (st inp t).wrState ≠ .idle) (hfirst : (st inp (t + 1)).firstBlock = true)
    (hbusy : (st inp (t + 1)).tags.current z = true) :
    (st inp (t + 1)).latency.tags z = true := by
  have hnow := h.firstBlock_of_succ hs hfirst
  rw [current_zero_succ hz, Bool.or_eq_true, Bool.and_eq_true, Bool.and_eq_true] at hbusy
  rw [latency_zero_succ hz, hnow]
  rcases hbusy with ⟨hreads, hfree⟩ | ⟨hold, hopen⟩
  · have hno : (st inp t).latency.tags z = false := by
      by_contra hmark
      rw [Bool.not_eq_false] at hmark
      rw [h.marked hmark] at hfree
      cases hfree
    simp [hreads, hno]
  · simp [h.first hs hnow hold, hopen]

/-- An operation leaves tag 0 free. -/
theorem Shadow.idle_succ (h : Shadow inp z t) (hz : z.val = 0) (hwin : WindowStable inp)
    (hs : (st inp t).wrState ≠ .idle) (hs' : (st inp (t + 1)).wrState = .idle) :
    (st inp (t + 1)).tags.current z = false := by
  rw [st_succ] at hs'
  rcases step_idle_cases hs hs' with ⟨hm, hread⟩ | hm
  · -- an operation without reads has not touched the tag
    refine current_zero_of_ne hz ?_ (h.noRead hs hread)
    rcases hm.origin with h | h <;> simp [h]
  · refine current_zero_of_ne hz (by simp [hm.waitRead]) (hm.tag_free hwin z ?_)
    rw [hz]
    exact h.window hm.waitRead

/-- An operation without reads does not touch tag 0. -/
theorem Shadow.noRead_succ (h : Shadow inp z t) (hz : z.val = 0) (hwin : WindowStable inp)
    (hcap : ReadCapStable inp) (hs' : (st inp (t + 1)).wrState ≠ .idle)
    (hread : (inp (t + 1)).cfg.capRead = false) : (st inp (t + 1)).tags.current z = false := by
  rw [hcap t hs'] at hread
  by_cases hs : (st inp t).wrState = .idle
  · exact current_zero_of_ne hz (by simp [hs]) (h.idle hs)
  · refine current_zero_of_ne hz ?_ (h.noRead hs hread)
    rcases ((drainInv hwin hcap t).noRead hs hread).1 with h | h <;> simp [h]

/-- `WAIT_READ` is only reached with a request, and that takes a tag of the window. -/
theorem Shadow.window_succ (h : Shadow inp z t) (hwin : WindowStable inp)
    (hs' : (st inp (t + 1)).wrState = .waitRead) : 0 < Rq.window inp (t + 1) := by
  rw [← hwin.window_eq (by simp [hs']) (u := t) (by omega) (by omega)]
  rw [st_succ] at hs'
  rcases step_waitRead_cases hs' with ⟨hwait, -⟩ | ⟨hm, -⟩
  · exact h.window hwait
  · -- the last request has found a tag inside the window
    obtain ⟨k, hk⟩ := hm.takesTag (fun _ => hwin.mask_le (by simp [hm.initRead]))
    have hinside := hk.inside
    rw [Rq.window]
    omega

/-- The counter of requests wraps only behind the last request. -/
theorem Shadow.counter_succ (h : Shadow inp z t) (hs' : (st inp (t + 1)).wrState ≠ .idle)
    (hwait : (st inp (t + 1)).wrState ≠ .waitRead) : (st inp (t + 1)).rdCount.current ≠ 0 := by
  by_cases hs : (st inp t).wrState = .idle
  · have hready : (inp t).axisRqTready = true := by
      by_contra hno
      exact hs' (stays_idle hs (.inl (by simpa using hno)))
    rw [st_succ, step_rdCount]
    simp [nextRdCount, hs, hready, TlpCount.first]
  · rw [st_succ] at hs' hwait ⊢
    rcases busy_cases (inp t) hs with hm | hm | hm | hm | hm | hm
    · -- a stall leaves the registers alone
      rw [hm.rdCount]
      exact h.counter hs (hm.state ▸ hwait)
    · -- the header of a memory write
      rw [hm.rdCount]
      exact h.counter hs (by simp [hm.initWrite])
    · -- a payload beat in the middle of a TLP
      rw [hm.rdCount]
      exact h.counter hs (by simp [hm.write])
    · -- the last beat of a memory write
      rw [hm.rdCount]
      refine h.counter hs ?_
      rcases hm.origin with h | h <;> simp [h]
    · -- a memory read request
      have hlast : ¬ (st inp t).bounds.rdTotal ≤ (st inp t).rdCount.current := by
        intro hle
        rw [hm.state, if_pos hle] at hwait
        exact hwait rfl
      rw [hm.rdCount]
      intro hzero
      have hmax : ((st inp t).rdCount.current + 1).toNat = 0 := congrArg BitVec.toNat hzero
      rw [BitVec.le_def] at hlast
      rw [BitVec.toNat_add] at hmax
      have := (st inp t).bounds.rdTotal.isLt
      have hone : (1 : BitVec 32).toNat = 1 := rfl
      omega
    · exact absurd hm.state hs'

/-- One edge keeps the shadow. -/
theorem Shadow.step (h : Shadow inp z t) (hz : z.val = 0) (hwin : WindowStable inp)
    (hcap : ReadCapStable inp) : Shadow inp z (t + 1) where
  idle hs' := by
    by_cases hs : (st inp t).wrState = .idle
    · exact current_zero_of_ne hz (by simp [hs]) (h.idle hs)
    · exact h.idle_succ hz hwin hs hs'
  noRead := h.noRead_succ hz hwin hcap
  marked := h.marked_succ hz
  first _ hfirst hbusy := by
    by_cases hs : (st inp t).wrState = .idle
    · rw [current_zero_of_ne hz (by simp [hs]) (h.idle hs)] at hbusy
      cases hbusy
    · exact h.first_succ hz hs hfirst hbusy
  covers := h.covers_succ hz hwin
  window := h.window_succ hwin
  counter := h.counter_succ

theorem shadow (hz : z.val = 0) (hwin : WindowStable inp) (hcap : ReadCapStable inp) (t : Nat) :
    Shadow inp z t := by
  induction t with
  | zero =>
      refine ⟨fun _ => rfl, fun _ _ => rfl, ?_, fun h => absurd rfl h, ?_, ?_, fun h => absurd rfl h⟩
      · intro h
        cases h
      · intro h
        cases h
      · intro h
        cases h
  | succ t ih =>
      exact ih.step hz hwin hcap

end Steps

/-! ## What is covered -/

/-- In an operation with reads `time_comp_r` counts in the first block and while tag 0 is marked. -/
theorem timeComp_succ {inp : Run P} {t : Nat} (hstop : (st inp t).latency.stop = false)
    (hread : (inp t).cfg.capRead = true) :
    (st inp (t + 1)).latency.timeComp = (st inp t).latency.timeComp + 1 ↔
      (st inp t).firstBlock = true ∨ ∃ j, (st inp t).latency.tags j = true := by
  have hne : (st inp t).latency.timeComp ≠ (st inp t).latency.timeComp + 1 := by bv_omega
  rw [st_succ, step_latency, State.firstBlock, beq_iff_eq]
  simp only [nextLatency, hstop, hread, Bool.false_eq_true, if_false, if_true]
  split
  · simp [*]
  · simp [*]

/-- Requests are only outstanding in an operation with reads. -/
theorem capRead_of_outstanding {inp : Run P} (hwin : WindowStable inp) (hcap : ReadCapStable inp)
    {t : Nat} {j : Fin P.windowSize} (hlive : outstanding inp t j = true) :
    (inp t).cfg.capRead = true := by
  have hdrain := drainInv hwin hcap t
  have hs : (st inp t).wrState ≠ .idle := by
    intro hs
    rw [hdrain.idle hs j] at hlive
    cases hlive
  by_contra hread
  rw [(hdrain.noRead hs (by simpa using hread)).2 j] at hlive
  cases hlive

/-- When no operation starts in the cycle of the reset, every mark belongs to a request. -/
theorem firstOutstanding_of_marked {inp : Run P} {z : Fin P.windowSize} (hz : z.val = 0)
    (hwin : WindowStable inp) (hcap : ReadCapStable inp) (hearly : (st inp 1).wrState = .idle)
    {t : Nat} (hmark : (st inp t).latency.tags z = true) : firstOutstanding inp t z = true := by
  induction t with
  | zero =>
      cases hmark
  | succ t ih =>
      rw [latency_zero_succ hz, Bool.or_eq_true, Bool.and_eq_true, Bool.and_eq_true,
        Bool.and_eq_true] at hmark
      rw [firstOutstanding_succ]
      rcases hmark with ⟨⟨hreads, hno⟩, hfirst⟩ | ⟨hold, hopen⟩
      · have hs := initRead_of_readsZero hreads
        have hbusy : (st inp t).wrState ≠ .idle := by simp [hs]
        have hfree : (st inp t).tags.current z = false := by
          by_contra hset
          rw [Bool.not_eq_false] at hset
          rw [(shadow hz hwin hcap t).first hbusy hfirst hset] at hno
          cases hno
        -- tag 0 is free and in the mask, so a request is issued and takes it
        have ht : 2 ≤ t := by
          match t, hbusy with
          | 0, hbusy => exact absurd rfl hbusy
          | 1, hbusy => exact absurd hearly hbusy
          | t + 2, _ => omega
        simp only [readsZero, Bool.and_eq_true, decide_eq_true_eq] at hreads
        have hmask : (st inp t).windowSizeMask z = true := by
          rw [hwin.mask_eq ht hbusy, decide_eq_true_eq, hz]
          exact hreads.2
        have hm : IssuesRead (st inp t) (inp t) := by
          rcases initRead_cases (i := inp t) hs with hm | hm
          · exfalso
            have hload := hm.load
            have hready := hreads.1.2
            have havail : (st inp t).tagAvailable = true := by
              simp only [State.tagAvailable, covers, Bool.not_eq_true', decide_eq_false_iff_not]
              intro hall
              rw [hall z hmask] at hfree
              cases hfree
            simp [load, nextOut, hs, hready, havail] at hload
          · exact hm
        obtain ⟨k, hk⟩ := hm.takesTag (fun _ => hwin.mask_le hbusy)
        obtain rfl : z = k := by
          by_contra hne
          rw [hk.lower z (by rw [Fin.lt_def]; have := Fin.val_ne_of_ne hne; omega)] at hfree
          cases hfree
        rw [(hk.loadsTag_iff hm z).mpr rfl, hfirst]
        rfl
      · simp [ih hold, hopen]

/-- The latency covers the requests of the first block if the one on tag 0 is the last to be completed;
and only then, in a run in which no operation starts in the cycle of the reset. -/
theorem latency_covers_first_block (inp : Run P) (hwin : WindowStable inp)
    (hcap : ReadCapStable inp) :
    (TagZeroLast inp → LatencyCovered inp) ∧
      ((st inp 1).wrState = .idle → LatencyCovered inp → TagZeroLast inp) := by
  constructor
  · rintro hlast t hstop ⟨j, hj⟩
    have hread := capRead_of_outstanding hwin hcap (outstanding_of_firstOutstanding hj)
    rw [timeComp_succ hstop hread]
    cases hfirst : (st inp t).firstBlock with
    | true =>
        exact .inl rfl
    | false =>
        obtain ⟨z, hz, hlive⟩ := hlast t hstop hfirst ⟨j, hj⟩
        exact .inr ⟨z, (shadow hz hwin hcap t).covers hlive⟩
  · rintro hearly hcovered t hstop hfirst ⟨j, hj⟩
    have hread := capRead_of_outstanding hwin hcap (outstanding_of_firstOutstanding hj)
    rcases (timeComp_succ hstop hread).mp (hcovered t hstop ⟨j, hj⟩) with h | ⟨z, hmark⟩
    · rw [hfirst] at h
      cases h
    · have hz := latency_tags_zero inp t hmark
      exact ⟨z, hz, firstOutstanding_of_marked hz hwin hcap hearly hmark⟩

/-- With a window of one tag the condition holds in every run. -/
theorem tagZeroLast_of_window_one {inp : Run P} (hone : ∀ t, (inp t).currentWindowSize = 1) :
    TagZeroLast inp := by
  have hwin : WindowStable inp := by
    intro t _ u _ _
    rw [hone, hone]
  rintro t - - ⟨j, hj⟩
  have hlt : j.val < 1 := by
    refine outstanding_lt hwin ?_ j (outstanding_of_firstOutstanding hj)
    intro u _ _
    rw [window, hone]
    rfl
  exact ⟨j, by omega, hj⟩

/-- The steady environment with a window of one tag. -/
def single (cfg : Config) : Run pcieController := fun t =>
  { steady cfg t with currentWindowSize := 1 }

/-- Two requests a block, one after the other: the first one is counted. -/
theorem latency_covers_first_block_single :
    (∃ j, firstOutstanding (single (readConfig 1024)) 8 j = true) ∧
      LatencyCovered (single (readConfig 1024)) :=
  ⟨by decide +kernel,
    (latency_covers_first_block (single (readConfig 1024)) (fun _ _ _ _ _ => rfl)
      (fun _ _ => rfl)).1 (tagZeroLast_of_window_one fun _ => rfl)⟩

/-- The steady environment with a completion of tag 0 in cycle 9. -/
def zeroFirst (cfg : Config) : Run pcieController := fun t =>
  { steady cfg t with completedTags := fun j => decide (t = 9) && decide (j.val = 0) }

/-- The first block has two requests.  When the first of them is completed, the latency stops, with the
second one still outstanding. -/
theorem latency_stops_early :
    WindowStable (zeroFirst (readConfig 1024)) ∧ ReadCapStable (zeroFirst (readConfig 1024)) ∧
      ¬ LatencyCovered (zeroFirst (readConfig 1024)) := by
  refine ⟨fun _ _ _ _ _ => rfl, fun _ _ => rfl, ?_⟩
  intro hcovered
  have hcounts := hcovered 10 (by decide +kernel) (by decide +kernel)
  revert hcounts
  decide +kernel

end Latency

end Rq
end PcieBench
