import Mathlib.Data.Fintype.Card
import Mathlib.Data.List.FinRange
import Mathlib.Order.WellFounded
import PcieBench.Rq.Operation

/-!
# Tags of the memory read requests

The tag in a header, the busy bit that is set, the advance of the FSM and `tvalid` are computed by
four separate expressions: `firstFree`, a test of every lower bit against `CURRENT_WINDOW_SIZE`, and
two tests against a mask that is two cycles older.  With a window that does not change while an
operation runs they agree: the request takes the lowest free tag, and no tag has two requests.
-/

namespace PcieBench
namespace Rq

open Clocked Tlp

section Tags

variable {P : Params}

/-! ## The lowest free tag -/

/-- The loop of `firstFree` keeps the first free tag it is left with. -/
theorem foldr_firstFree {oh : TagSet P} {k : Fin P.windowSize} (hfree : oh k = false)
    (before after : List (Fin P.windowSize)) (hbusy : ∀ x ∈ before, oh x = true) :
    (before ++ k :: after).foldr (fun x acc => if oh x then acc else BitVec.ofNat 8 x.val) 0 =
      BitVec.ofNat 8 k.val := by
  induction before with
  | nil =>
      simp [hfree]
  | cons x before ih =>
      have hx : oh x = true := hbusy x (by simp)
      simp only [List.cons_append, List.foldr_cons, hx, if_true]
      exact ih (fun y hy => hbusy y (by simp [hy]))

theorem firstFree_eq {oh : TagSet P} {k : Fin P.windowSize} (hfree : oh k = false)
    (hbusy : ∀ l, l < k → oh l = true) : firstFree oh = BitVec.ofNat 8 k.val := by
  have hk : k.val < (List.finRange P.windowSize).length := by simp
  have hsplit : List.finRange P.windowSize = (List.finRange P.windowSize).take k.val ++
      k :: (List.finRange P.windowSize).drop (k.val + 1) := by
    have hget : (List.finRange P.windowSize)[k.val] = k := by simp
    have hdrop := List.cons_getElem_drop_succ (h := hk)
    rw [hget] at hdrop
    rw [hdrop, List.take_append_drop]
  rw [firstFree, hsplit]
  refine foldr_firstFree hfree _ _ ?_
  intro x hx
  obtain ⟨m, hm, rfl⟩ := List.mem_take_iff_getElem.mp hx
  have hlt : m < k.val := by omega
  refine hbusy _ ?_
  simpa [Fin.lt_def] using hlt

/-- A free tag below a bound gives a lowest free one below it. -/
theorem exists_lowest {oh : TagSet P} {k : Fin P.windowSize} (hk : oh k = false) :
    ∃ j, j ≤ k ∧ oh j = false ∧ ∀ l, l < j → oh l = true := by
  obtain ⟨j, hj, hmin⟩ := WellFounded.has_min (wellFounded_lt (α := Fin P.windowSize))
    {l | oh l = false} ⟨k, hk⟩
  refine ⟨j, ?_, hj, ?_⟩
  · exact not_lt.mp (hmin k hk)
  · intro l hl
    by_contra hfree
    exact hmin l (by simpa using hfree) hl

/-! ## The window -/

/-- The window as the tag logic reads it, `CURRENT_WINDOW_SIZE[7:0]`. -/
def window (inp : Run P) (t : Nat) : Nat := ((inp t).currentWindowSize.setWidth 8).toNat

/-- The mask is the window of two cycles ago. -/
theorem windowSizeMask_eq (inp : Run P) (t : Nat) (k : Fin P.windowSize) :
    (st inp (t + 2)).windowSizeMask k = decide (k.val < window inp t) := by
  simp [st_succ, dec2mask, window]

/-- In the first two cycles the mask is empty. -/
theorem windowSizeMask_early (inp : Run P) {t : Nat} (ht : t < 2) (k : Fin P.windowSize) :
    (st inp t).windowSizeMask k = false := by
  match t, ht with
  | 0, _ => rfl
  | 1, _ => simp [st_succ, dec2mask, Rq.reset]

/-- The window does not change from three cycles before an operation starts until it ends. -/
def WindowStable (inp : Run P) : Prop :=
  ∀ t, (st inp t).wrState ≠ .idle → ∀ u, u ≤ t → t ≤ u + 3 →
    (inp u).currentWindowSize = (inp t).currentWindowSize

theorem WindowStable.window_eq {inp : Run P} (h : WindowStable inp) {t u : Nat}
    (hs : (st inp t).wrState ≠ .idle) (hut : u ≤ t) (htu : t ≤ u + 3) :
    window inp u = window inp t := by
  rw [window, h t hs u hut htu]
  rfl

/-- The mask never shows more than the window of a running operation. -/
theorem WindowStable.mask_le {inp : Run P} (h : WindowStable inp) {t : Nat}
    (hs : (st inp t).wrState ≠ .idle) {k : Fin P.windowSize}
    (hk : (st inp t).windowSizeMask k = true) : k.val < window inp t := by
  rcases Nat.lt_or_ge t 2 with ht | ht
  · rw [windowSizeMask_early inp ht] at hk
    cases hk
  · obtain ⟨u, rfl⟩ : ∃ u, t = u + 2 := ⟨t - 2, by omega⟩
    rw [windowSizeMask_eq, decide_eq_true_eq, h.window_eq hs (by omega) (by omega)] at hk
    exact hk

/-- Tags outside the window of a running operation are marked busy. -/
theorem WindowStable.outside_busy {inp : Run P} (h : WindowStable inp) {t : Nat}
    (hs : (st inp t).wrState ≠ .idle) {k : Fin P.windowSize} (hk : window inp t ≤ k.val)
    (hpos : k.val ≠ 0) : (st inp t).tags.current k = true := by
  cases t with
  | zero =>
      exact absurd rfl hs
  | succ t =>
      rw [← h.window_eq hs (u := t) (by omega) (by omega)] at hk
      have hout : (((inp t).currentWindowSize.setWidth 8).toNat ≤ k.val) := hk
      simp only [st_succ, step_tags, nextTags, if_neg hpos]
      split
      · rfl
      · simp only [decide_eq_true hout, Bool.or_true]

/-! ## Requests and tags -/

/-- A clock edge loads a memory read request with tag `j`. -/
def loadsTag (s : State P) (i : Input P) (j : Fin P.windowSize) : Bool :=
  (load s i).any (fun x => decide (x.origin = .initRead) && x.beat.tag.toNat == j.val)

/-- The tags of the requests loaded before cycle `t` whose completion pulse has not occurred. -/
def outstanding (inp : Run P) : Nat → TagSet P :=
  (machine P).ghost inp (fun _ => false)
    (fun s i live j => loadsTag s i j || (live j && !i.completedTags j))

theorem outstanding_succ (inp : Run P) (t : Nat) (j : Fin P.windowSize) :
    outstanding inp (t + 1) j = (loadsTag (st inp t) (inp t) j ||
      (outstanding inp t j && !(inp t).completedTags j)) := rfl

theorem loadsTag_of_ne {s : State P} {i : Input P} (hs : s.wrState ≠ .initRead)
    (j : Fin P.windowSize) : loadsTag s i j = false := by
  unfold loadsTag load
  split <;> simp [hs]

/-- A busy tag is not taken again. -/
theorem issuesTag_of_busy {s : State P} {i : Input P} {j : Fin P.windowSize}
    (h : s.tags.current j = true) : issuesTag s i j = false := by
  simp [issuesTag, h]

/-- Everything that happens to the tags when a request is loaded with tag `j`. -/
structure TakesTag (s : State P) (i : Input P) (j : Fin P.windowSize) : Prop where
  inside : j.val < (i.currentWindowSize.setWidth 8).toNat
  tag : (step s i).beat.tag.toNat = j.val
  free : s.tags.current j = false
  lower : ∀ k, k < j → s.tags.current k = true
  issues : ∀ k, issuesTag s i k = true ↔ k = j
  busy : (step s i).tags.current j = true
  size : (step s i).tags.size j = (step s i).beat.dwords
  sizes : ∀ k, k ≠ j → (step s i).tags.size k = s.tags.size k

/-- A request takes the lowest free tag, if the mask only shows tags of the window. -/
theorem IssuesRead.takesTag {s : State P} {i : Input P} (hm : IssuesRead s i)
    (hmask : ∀ k, s.windowSizeMask k = true → k.val < (i.currentWindowSize.setWidth 8).toNat) :
    ∃ j, TakesTag s i j := by
  obtain ⟨k, hkmask, hkfree⟩ : ∃ k, s.windowSizeMask k = true ∧ s.tags.current k = false := by
    have havail := hm.available
    simp only [State.tagAvailable, covers, Bool.not_eq_true', decide_eq_false_iff_not] at havail
    push Not at havail
    obtain ⟨k, hk, hfree⟩ := havail
    exact ⟨k, hk, by simpa using hfree⟩
  obtain ⟨j, hjk, hjfree, hjlow⟩ := exists_lowest hkfree
  have hwindow : j.val < (i.currentWindowSize.setWidth 8).toNat := by
    have hlt := hmask k hkmask
    have hle : j.val ≤ k.val := hjk
    omega
  have hissues : ∀ l, issuesTag s i l = true ↔ l = j := by
    intro l
    simp only [issuesTag, hm.initRead, hm.tready, decide_true, Bool.true_and, Bool.and_eq_true,
      decide_eq_true_eq, Bool.not_eq_true']
    constructor
    · rintro ⟨⟨-, hfree⟩, hlow⟩
      rcases lt_trichotomy l j with hl | hl | hl
      · rw [hjlow l hl] at hfree
        cases hfree
      · exact hl
      · rw [hlow j hl] at hjfree
        cases hjfree
    · rintro rfl
      exact ⟨⟨hwindow, hjfree⟩, hjlow⟩
  have hbeat : (step s i).beat.tdataLo = packDescriptor s.s2cRqTag memoryRead
      ((s.currentRdTlpWords i.cfg).setWidth 11) s.rdPtr.addr := by
    simp [State.beat, nextOut, hm.initRead, hm.tready]
  refine ⟨j, hwindow, ?_, hjfree, hjlow, hissues, ?_, ?_, ?_⟩
  · rw [Beat.tag, hbeat, packDescriptor_tag, State.s2cRqTag, firstFree_eq hjfree hjlow,
      BitVec.toNat_ofNat]
    have := ((i.currentWindowSize).setWidth 8).isLt
    omega
  · simp [nextTags, (hissues j).mpr rfl]
  · rw [Beat.dwords, hbeat, packDescriptor_dwords]
    simp [nextTags, (hissues j).mpr rfl]
  · intro l hl
    have hno : issuesTag s i l = false := by
      rw [← Bool.not_eq_true, hissues]
      exact hl
    simp [nextTags, hno]

/-- A request is loaded with the tag it takes. -/
theorem TakesTag.loadsTag_iff {s : State P} {i : Input P} {j : Fin P.windowSize}
    (h : TakesTag s i j) (hm : IssuesRead s i) (k : Fin P.windowSize) :
    loadsTag s i k = true ↔ k = j := by
  simp only [loadsTag, hm.load, List.any_cons, List.any_nil, Bool.or_false, decide_true,
    Bool.true_and, beq_iff_eq, h.tag]
  rw [Fin.ext_iff]
  exact eq_comm

/-- A loaded tag comes from a request that is issued. -/
theorem issuesRead_of_loadsTag {s : State P} {i : Input P} {j : Fin P.windowSize}
    (h : loadsTag s i j = true) : IssuesRead s i := by
  have hs : s.wrState = .initRead := by
    by_contra hne
    rw [loadsTag_of_ne hne] at h
    cases h
  rcases initRead_cases (i := i) hs with hm | hm
  · rw [loadsTag, hm.load] at h
    cases h
  · exact hm

/-- A memory read request is loaded when it is issued. -/
theorem issuesRead_of_mem_load {s : State P} {i : Input P} {x : Sent} (hx : x ∈ load s i)
    (horigin : x.origin = .initRead) : IssuesRead s i ∧ x.beat = (step s i).beat := by
  have hs : s.wrState = .initRead := by
    rw [load] at hx
    split at hx
    · rw [List.mem_singleton.mp hx] at horigin
      exact horigin
    · cases hx
  rcases initRead_cases (i := i) hs with hm | hm
  · rw [hm.load] at hx
    cases hx
  · rw [hm.load, List.mem_singleton] at hx
    subst hx
    exact ⟨hm, rfl⟩

/-! ## Exclusivity -/

/-- A tag with an outstanding request is busy. -/
theorem outstanding_busy {inp : Run P} (hwin : WindowStable inp) (t : Nat)
    (j : Fin P.windowSize) (hj : outstanding inp t j = true) :
    (st inp t).tags.current j = true := by
  induction t with
  | zero =>
      cases hj
  | succ t ih =>
      rw [outstanding_succ, Bool.or_eq_true] at hj
      rcases hj with hload | hlive
      · have hm := issuesRead_of_loadsTag hload
        obtain ⟨k, hk⟩ := hm.takesTag (fun _ => hwin.mask_le (by simp [hm.initRead]))
        obtain rfl := (hk.loadsTag_iff hm j).mp hload
        rw [st_succ]
        exact hk.busy
      · rw [Bool.and_eq_true, Bool.not_eq_true'] at hlive
        have hbusy := ih hlive.1
        simp only [st_succ, step_tags, nextTags]
        split
        · rfl
        · split <;> simp [hbusy, hlive.2]

/-- The busy bit that rises with a request is the one of its tag. -/
theorem TakesTag.rises {inp : Run P} (hwin : WindowStable inp) {t : Nat} {j : Fin P.windowSize}
    (h : TakesTag (st inp t) (inp t) j) (hs : (st inp t).wrState ≠ .idle) (k : Fin P.windowSize) :
    ((st inp t).tags.current k = false ∧ (st inp (t + 1)).tags.current k = true) ↔ k = j := by
  constructor
  · rintro ⟨hfree, hbusy⟩
    by_contra hne
    have hno : issuesTag (st inp t) (inp t) k = false := by
      rw [← Bool.not_eq_true, h.issues]
      exact hne
    have hout : ((inp t).currentWindowSize.setWidth 8).toNat ≤ k.val ∧ k.val ≠ 0 := by
      by_contra hin
      rw [st_succ, step_tags] at hbusy
      simp only [nextTags, hno, hfree] at hbusy
      by_cases h0 : k.val = 0
      · simp [h0] at hbusy
      · simp only [h0, if_false, Bool.false_eq_true, Bool.false_and, Bool.false_or,
          decide_eq_true_eq] at hbusy
        exact hin ⟨hbusy, h0⟩
    -- outside the window the bit has been set before
    rw [hwin.outside_busy hs hout.1 hout.2] at hfree
    cases hfree
  · rintro rfl
    exact ⟨h.free, by rw [st_succ]; exact h.busy⟩

/-- Tags below `w` are at most `w` many. -/
theorem card_tags_le {live : TagSet P} {w : Nat} (h : ∀ j, live j = true → j.val < w) :
    (Finset.univ.filter (fun j => live j = true)).card ≤ w := by
  have hcard := Finset.card_le_card_of_injOn (s := Finset.univ.filter (fun j => live j = true))
    (t := Finset.range w) Fin.val ?_ ?_
  · simpa using hcard
  · intro j hj
    simpa using h j (by simpa using hj)
  · intro j _ k _ hjk
    exact Fin.ext hjk

/-- The window of the request is the only bound on its tag. -/
theorem outstanding_lt {inp : Run P} (hwin : WindowStable inp) {w t : Nat}
    (hw : ∀ u, u < t → (st inp u).wrState ≠ .idle → window inp u = w) (j : Fin P.windowSize)
    (hj : outstanding inp t j = true) : j.val < w := by
  induction t with
  | zero =>
      cases hj
  | succ t ih =>
      rw [outstanding_succ, Bool.or_eq_true] at hj
      rcases hj with hload | hlive
      · have hm := issuesRead_of_loadsTag hload
        have hbusy : (st inp t).wrState ≠ .idle := by simp [hm.initRead]
        obtain ⟨k, hk⟩ := hm.takesTag (fun _ => hwin.mask_le hbusy)
        obtain rfl := (hk.loadsTag_iff hm j).mp hload
        have hlt := hk.inside
        have heq := hw t (by omega) hbusy
        rw [window] at heq
        omega
      · rw [Bool.and_eq_true] at hlive
        exact ih (fun u hu => hw u (by omega)) hlive.1

/-- The read capability does not change while an operation runs. -/
def ReadCapStable (inp : Run P) : Prop :=
  ∀ t, (st inp (t + 1)).wrState ≠ .idle → (inp (t + 1)).cfg.capRead = (inp t).cfg.capRead

/-- Between two operations no request is outstanding, and an operation only has requests inside its
window. -/
structure DrainInv (inp : Run P) (t : Nat) : Prop where
  idle : (st inp t).wrState = .idle → ∀ j, outstanding inp t j = false
  busy : (st inp t).wrState ≠ .idle → ∀ j, outstanding inp t j = true → j.val < window inp t
  noRead : (st inp t).wrState ≠ .idle → (inp t).cfg.capRead = false →
    ((st inp t).wrState = .initWrite ∨ (st inp t).wrState = .write) ∧
      ∀ j, outstanding inp t j = false

/-- State `WAIT_READ` is not reached before the mask is there. -/
theorem two_le_of_waitRead {inp : Run P} {t : Nat} (hs : (st inp t).wrState = .waitRead) :
    2 ≤ t := by
  match t, hs with
  | 0, hs => cases hs
  | 1, hs =>
      simp only [st_succ, st_zero, step_wrState, nextWrState, Rq.reset] at hs
      split at hs
      · cases hs
      · split at hs <;> cases hs
  | t + 2, _ => omega

theorem outstanding_succ_of_ne {inp : Run P} {t : Nat} (hs : (st inp t).wrState ≠ .initRead)
    {j : Fin P.windowSize} (hj : outstanding inp t j = false) :
    outstanding inp (t + 1) j = false := by
  rw [outstanding_succ, loadsTag_of_ne hs, hj]
  rfl

/-- Two cycles after it became stable the mask shows the window. -/
theorem WindowStable.mask_eq {inp : Run P} (h : WindowStable inp) {t : Nat} (ht : 2 ≤ t)
    (hs : (st inp t).wrState ≠ .idle) (k : Fin P.windowSize) :
    (st inp t).windowSizeMask k = decide (k.val < window inp t) := by
  obtain ⟨u, rfl⟩ : ∃ u, t = u + 2 := ⟨t - 2, by omega⟩
  rw [windowSizeMask_eq, h.window_eq hs (by omega) (by omega)]

/-- The test of `WAIT_READ` covers the window. -/
theorem Finishes.tag_free {inp : Run P} (hwin : WindowStable inp) {t : Nat}
    (hm : Finishes (st inp t) (inp t)) (j : Fin P.windowSize) (hlt : j.val < window inp t) :
    (st inp t).tags.current j = false := by
  have hmask : (st inp t).windowSizeMask j = true := by
    rw [hwin.mask_eq (two_le_of_waitRead hm.waitRead) (by simp [hm.waitRead]), decide_eq_true_eq]
    exact hlt
  have hend := hm.finished
  simp only [State.endOfOperation, hm.waitRead, decide_true, Bool.true_and, disjoint] at hend
  simp at hend
  exact hend j hmask

theorem Finishes.free {inp : Run P} (hwin : WindowStable inp) {t : Nat}
    (hm : Finishes (st inp t) (inp t)) (j : Fin P.windowSize) (hlt : j.val < window inp t) :
    outstanding inp t j = false := by
  by_contra hlive
  rw [Bool.not_eq_false] at hlive
  have hbusy := outstanding_busy hwin t j hlive
  rw [hm.tag_free hwin j hlt] at hbusy
  cases hbusy

/-- An operation with reads ends with all its tags free. -/
theorem Finishes.drained {inp : Run P} (hwin : WindowStable inp) {t : Nat}
    (hm : Finishes (st inp t) (inp t)) (h : DrainInv inp t) (j : Fin P.windowSize) :
    outstanding inp t j = false := by
  by_contra hlive
  rw [Bool.not_eq_false] at hlive
  rw [hm.free hwin j (h.busy (by simp [hm.waitRead]) j hlive)] at hlive
  cases hlive

/-- An operation starts without requests, or nothing happens. -/
theorem DrainInv.step_idle {inp : Run P} (hcap : ReadCapStable inp) {t : Nat} (h : DrainInv inp t)
    (hs : (st inp t).wrState = .idle) : DrainInv inp (t + 1) := by
  have hnone : ∀ j, outstanding inp (t + 1) j = false := by
    intro j
    exact outstanding_succ_of_ne (by simp [hs]) (h.idle hs j)
  refine ⟨fun _ => hnone, fun _ j hj => ?_, fun hbusy hread => ⟨?_, hnone⟩⟩
  · rw [hnone j] at hj
    cases hj
  · -- without reads the FSM can only leave `IDLE` for a write header
    rw [hcap t hbusy] at hread
    have hstart : startsWith (st inp t) (inp t) (inp t).cfg.capRead = false := by
      simp [startsWith, hread]
    rw [st_succ, step_wrState] at hbusy ⊢
    simp only [nextWrState, hs, hstart] at hbusy ⊢
    split at hbusy
    · left
      simp [*]
    · simp at hbusy

/-- The requests of a running operation stay inside its window: a new one is loaded there, and the
window does not change. -/
theorem DrainInv.inside_succ {inp : Run P} (hwin : WindowStable inp) {t : Nat}
    (h : DrainInv inp t) (hs : (st inp t).wrState ≠ .idle)
    (hs' : (st inp (t + 1)).wrState ≠ .idle) (j : Fin P.windowSize)
    (hj : outstanding inp (t + 1) j = true) : j.val < window inp (t + 1) := by
  have hwindow : window inp t = window inp (t + 1) := hwin.window_eq hs' (by omega) (by omega)
  rw [← hwindow]
  rw [outstanding_succ, Bool.or_eq_true, Bool.and_eq_true] at hj
  rcases hj with hload | ⟨hlive, -⟩
  · have hm := issuesRead_of_loadsTag hload
    obtain ⟨k, hk⟩ := hm.takesTag (fun _ => hwin.mask_le hs)
    obtain rfl := (hk.loadsTag_iff hm j).mp hload
    exact hk.inside
  · exact h.busy hs j hlive

/-- An operation without reads loads no request. -/
theorem DrainInv.none_succ {inp : Run P} {t : Nat} (h : DrainInv inp t)
    (hs : (st inp t).wrState ≠ .idle) (hread : (inp t).cfg.capRead = false) (j : Fin P.windowSize) :
    outstanding inp (t + 1) j = false := by
  obtain ⟨hstate, hnone⟩ := h.noRead hs hread
  refine outstanding_succ_of_ne ?_ (hnone j)
  rcases hstate with h | h <;> simp [h]

/-- An operation without reads goes from header to payload and back until it ends. -/
theorem DrainInv.writing_succ {inp : Run P} {t : Nat} (h : DrainInv inp t)
    (hs : (st inp t).wrState ≠ .idle) (hs' : (st inp (t + 1)).wrState ≠ .idle)
    (hread : (inp t).cfg.capRead = false) :
    (st inp (t + 1)).wrState = .initWrite ∨ (st inp (t + 1)).wrState = .write := by
  have hwriting := (h.noRead hs hread).1
  rw [st_succ] at hs' ⊢
  rcases busy_cases (inp t) hs with hm | hm | hm | hm | hm | hm
  · -- a stall leaves the registers alone
    rw [hm.state]
    exact hwriting
  · exact .inr hm.state
  · exact .inr hm.state
  · -- the last beat of a memory write
    rw [hm.state] at hs' ⊢
    rcases afterWrite_cases (st inp t) (inp t) with ha | ha | ha
    · exact absurd ha hs'
    · exact .inl ha
    · rw [afterWrite_initRead ha] at hread
      cases hread
  · rcases hwriting with h | h <;> rw [hm.initRead] at h <;> cases h
  · exact absurd hm.state hs'

/-- The operation ends with a write when it has no reads, and else when its tags are free. -/
theorem DrainInv.drained {inp : Run P} (hwin : WindowStable inp) {t : Nat} (h : DrainInv inp t)
    (hs : (st inp t).wrState ≠ .idle) (hs' : (st inp (t + 1)).wrState = .idle)
    (j : Fin P.windowSize) : outstanding inp (t + 1) j = false := by
  rw [st_succ] at hs'
  rcases step_idle_cases hs hs' with ⟨-, hread⟩ | hm
  · exact h.none_succ hs hread j
  · exact outstanding_succ_of_ne (by simp [hm.waitRead]) (hm.drained hwin h j)

theorem drainInv {inp : Run P} (hwin : WindowStable inp) (hcap : ReadCapStable inp) (t : Nat) :
    DrainInv inp t := by
  induction t with
  | zero =>
      exact ⟨fun _ _ => rfl, fun h => absurd rfl h, fun h => absurd rfl h⟩
  | succ t ih =>
      by_cases hs : (st inp t).wrState = .idle
      · exact ih.step_idle hcap hs
      · refine ⟨ih.drained hwin hs, ih.inside_succ hwin hs, fun hs' hread => ?_⟩
        rw [hcap t hs'] at hread
        exact ⟨ih.writing_succ hs hs' hread, ih.none_succ hs hread⟩

/-- Every memory read request is loaded with a tag of the window that no outstanding request has and
whose busy bit and size it sets in the same cycle; hence a window of `w` tags never has more than `w`
requests outstanding, and an operation with a stable read capability leaves none behind. -/
theorem tag_exclusivity (inp : Run P) (hwin : WindowStable inp) :
    (∀ t, ∀ x ∈ loads inp t, x.origin = .initRead → ∃ j : Fin P.windowSize,
      x.beat.tag.toNat = j.val ∧ j.val < (inp t).currentWindowSize.toNat ∧
      outstanding inp t j = false ∧
      (∀ k, ((st inp t).tags.current k = false ∧ (st inp (t + 1)).tags.current k = true) ↔ k = j) ∧
      (st inp (t + 1)).tags.size j = x.beat.dwords ∧
      ∀ k, k ≠ j → (st inp (t + 1)).tags.size k = (st inp t).tags.size k) ∧
    (∀ (w : BitVec 64) t,
      (∀ u, u < t → (st inp u).wrState ≠ .idle → (inp u).currentWindowSize = w) →
        (Finset.univ.filter (fun j => outstanding inp t j = true)).card ≤ w.toNat) ∧
    (ReadCapStable inp → ∀ t,
      ((st inp t).wrState = .idle → ∀ j, outstanding inp t j = false) ∧
      ((st inp t).wrState ≠ .idle → (Finset.univ.filter
        (fun j => outstanding inp t j = true)).card ≤ (inp t).currentWindowSize.toNat)) := by
  have hlow : ∀ w : BitVec 64, (w.setWidth 8).toNat ≤ w.toNat := by
    intro w
    rw [BitVec.toNat_setWidth]
    exact Nat.mod_le _ _
  refine ⟨?_, ?_, ?_⟩
  · intro t x hx horigin
    obtain ⟨hm, hbeat⟩ := issuesRead_of_mem_load hx horigin
    have hbusy : (st inp t).wrState ≠ .idle := by simp [hm.initRead]
    obtain ⟨j, hj⟩ := hm.takesTag (fun _ => hwin.mask_le hbusy)
    rw [hbeat]
    refine ⟨j, hj.tag, ?_, ?_, hj.rises hwin hbusy, hj.size, hj.sizes⟩
    · have := hlow (inp t).currentWindowSize
      have := hj.inside
      omega
    · by_contra hlive
      have hfree := hj.free
      rw [outstanding_busy hwin t j (by simpa using hlive)] at hfree
      cases hfree
  · intro w t hw
    refine (card_tags_le (w := (w.setWidth 8).toNat) ?_).trans (hlow w)
    refine outstanding_lt hwin ?_
    intro u hu hbusy
    rw [window, hw u hu hbusy]
  · intro hcap t
    have hinv := drainInv hwin hcap t
    refine ⟨hinv.idle, fun hbusy => ?_⟩
    exact (card_tags_le (hinv.busy hbusy)).trans (hlow _)

/-- Four memory reads in the steady environment. -/
theorem tag_exclusivity_four :
    (∃ x ∈ loads (steady (readConfig 64)) 5, x.origin = .initRead) ∧
      (Finset.univ.filter (fun j => outstanding (steady (readConfig 64)) 8 j = true)).card ≤ 24 :=
  ⟨by decide +kernel,
    (tag_exclusivity (steady (readConfig 64)) (fun _ _ _ _ _ => rfl)).2.1 24 8 (fun _ _ _ => rfl)⟩

end Tags

end Rq
end PcieBench
