import PcieBench.Clocked.Eventually
import PcieBench.Rq.Tags
import PcieBench.Rq.Tiling

/-!
# Operations end

In a fair environment an operation does not run for ever.  No state stalls endlessly: the core takes
a beat again and again, C2S data arrives, and the busy tags of the window are completed.  The moves of
the FSM are bounded by the TLPs left to send and the dwords left in the current one.
-/

namespace PcieBench
namespace Rq

open Clocked Tlp

section Liveness

variable {P : Params}

/-! ## The environment -/

/-- What an operation of configuration `cfg` needs to come to its end: `TREADY` again and again, C2S
data for its writes, and for its reads a window of `w` tags, unchanged from cycle `first` on, whose
busy tags are completed. -/
structure Fair (inp : Run P) (cfg : Config) (first w : Nat) : Prop where
  tready : ∀ t, ∃ u, t ≤ u ∧ (inp u).axisRqTready = true
  c2s : cfg.capWrite = true → ∀ t, ∃ u, t ≤ u ∧ (inp u).c2sTvalid = true
  window : ∀ t, first ≤ t → window inp t = w
  window_pos : cfg.capRead = true → 0 < w ∧ 0 < P.windowSize
  completes : cfg.capRead = true → ∀ t (j : Fin P.windowSize), first ≤ t → j.val < w →
    (st inp t).tags.current j = true → ∃ u, t ≤ u ∧ (inp u).completedTags j = true

/-- When an operation ends: reads count up to `NUMBER_TLPS`; without reads some whole number of
blocks must reach it before the 32-bit counter wraps below it. -/
def Config.Terminates (P : Params) (cfg : Config) : Prop :=
  cfg.capRead = true ∨ (cfg.capWrite = true ∧ ∃ k, 0 < k ∧ cfg.numberTlps.toNat % 2 ^ 32 ≤
    k * blockTlps (numberEvenTlp P.log2MaxPayload cfg.sizeAtDescriptor) % 2 ^ 32)

/-! ## No endless stall -/

/-- A stall leaves the queue to the C2S FIFO. -/
theorem Stalls.occupancy {s : State P} {i : Input P} (h : Stalls s i) :
    s.c2sBufOccupancy.toNat ≤ (step s i).c2sBufOccupancy.toNat ∧
      (i.c2sTvalid = true → s.c2sBufOccupancy.toNat < 2 →
        s.c2sBufOccupancy.toNat < (step s i).c2sBufOccupancy.toNat) := by
  have hocc : (Rq.step s i).c2sBufOccupancy = (nextC2s s i).wrPtr - s.out.c2sRdPtr := by
    rw [State.c2sBufOccupancy, h.c2sRdPtr]
    rfl
  have hsub : ∀ k, s.c2s.wrPtr + k - s.out.c2sRdPtr = s.c2sBufOccupancy + k := by
    intro k
    rw [State.c2sBufOccupancy]
    bv_omega
  have hlt := s.c2sBufOccupancy.isLt
  have hone : BitVec.toNat (1 : BitVec 5) = 1 := rfl
  have htwo : BitVec.toNat (2 : BitVec 5) = 2 := rfl
  have htwelve : BitVec.toNat (12 : BitVec 5) = 12 := rfl
  rw [hocc, nextC2s]
  by_cases haccept : (i.c2sTvalid && s.c2sFifoTready) = true
  · rw [if_pos haccept]
    have hroom : s.c2sBufOccupancy.toNat ≤ 12 := by
      rw [Bool.and_eq_true, State.c2sFifoTready, decide_eq_true_eq, BitVec.le_def] at haccept
      exact haccept.2
    dsimp only
    split
    · rw [hsub, BitVec.toNat_add, htwo]
      omega
    · rw [hsub, BitVec.toNat_add, hone]
      omega
  · rw [if_neg haccept]
    refine ⟨Nat.le_refl _, ?_⟩
    intro hvalid hfew
    exfalso
    apply haccept
    rw [Bool.and_eq_true, State.c2sFifoTready, decide_eq_true_eq, BitVec.le_def]
    exact ⟨hvalid, by omega⟩

variable {inp : Run P} {cfg : Config} {first w t : Nat}

/-- During an endless stall the queue fills up. -/
theorem eventually_twoWords (hfair : ∀ t, ∃ u, t ≤ u ∧ (inp u).c2sTvalid = true)
    (hstall : ∀ u, t ≤ u → Stalls (st inp u) (inp u)) :
    ∃ u, t ≤ u ∧ ∀ v, u ≤ v → 2 ≤ (st inp v).c2sBufOccupancy.toNat := by
  have hmono : ∀ u, t ≤ u → ∀ v, u ≤ v →
      (st inp u).c2sBufOccupancy.toNat ≤ (st inp v).c2sBufOccupancy.toNat := by
    intro u hu
    refine persists ?_ (Nat.le_refl _)
    intro v hv hle
    exact hle.trans (hstall v (by omega)).occupancy.1
  -- every accepted beat brings at least one word
  have hgrow : ∀ n, n ≤ 2 → ∃ u, t ≤ u ∧ n ≤ (st inp u).c2sBufOccupancy.toNat := by
    intro n
    induction n with
    | zero =>
        intro _
        exact ⟨t, Nat.le_refl t, Nat.zero_le _⟩
    | succ n ih =>
        intro hn
        obtain ⟨u, hu, hocc⟩ := ih (by omega)
        obtain ⟨v, hv, hvalid⟩ := hfair u
        have hle := hmono u hu v hv
        by_cases hfew : (st inp v).c2sBufOccupancy.toNat < 2
        · have hlt := (hstall v (by omega)).occupancy.2 hvalid hfew
          rw [← st_succ] at hlt
          exact ⟨v + 1, by omega, by omega⟩
        · exact ⟨v, by omega, by omega⟩
  obtain ⟨u, hu, hocc⟩ := hgrow 2 (Nat.le_refl 2)
  exact ⟨u, hu, fun v hv => hocc.trans (hmono u hu v hv)⟩

/-- During an endless stall the FSM stays where it is. -/
theorem stall_wrState (hstall : ∀ u, t ≤ u → Stalls (st inp u) (inp u)) :
    ∀ u, t ≤ u → (st inp u).wrState = (st inp t).wrState := by
  refine persists ?_ rfl
  intro u hu h
  rw [st_succ, (hstall u hu).state, h]

/-- A stall that loads nothing although a beat could be loaded. -/
theorem not_stalls_of_load {s : State P} {i : Input P} {x : Sent} (h : load s i = [x]) :
    ¬ Stalls s i := by
  intro hstall
  rw [hstall.load] at h
  cases h

theorem no_stall_writing (hfair : Fair inp cfg first w) (hcap : cfg.capWrite = true)
    (hs : (st inp t).wrState = .initWrite ∨ (st inp t).wrState = .write) :
    ¬ ∀ u, t ≤ u → Stalls (st inp u) (inp u) := by
  intro hstall
  obtain ⟨u, hu, hwords⟩ := eventually_twoWords (hfair.c2s hcap) hstall
  obtain ⟨v, hv, hready⟩ := hfair.tready u
  have hstate := stall_wrState hstall v (by omega)
  have htwo : (st inp v).twoWordsAtBuffer = true := by
    rw [twoWordsAtBuffer_eq, decide_eq_true_eq]
    exact hwords v hv
  have hone : (st inp v).oneWordAtBuffer = true := by
    rw [oneWordAtBuffer_eq, decide_eq_true_eq]
    have := hwords v hv
    omega
  rcases hs with hs | hs
  · rw [hs] at hstate
    have hload := load_initWrite (i := inp v) hstate
    rw [hready, hone] at hload
    exact not_stalls_of_load hload (hstall v (by omega))
  · rw [hs] at hstate
    have hload := load_write (i := inp v) hstate
    rw [hready, htwo, Bool.or_true] at hload
    exact not_stalls_of_load hload (hstall v (by omega))

/-! ### Tags -/

/-- From two cycles after `first` on the mask shows the window. -/
theorem Fair.mask (hfair : Fair inp cfg first w) (ht : first + 2 ≤ t) (j : Fin P.windowSize) :
    (st inp t).windowSizeMask j = decide (j.val < w) := by
  obtain ⟨u, rfl⟩ : ∃ u, t = u + 2 := ⟨t - 2, by omega⟩
  rw [windowSizeMask_eq, hfair.window u (by omega)]

/-- A tag of the window that is not taken is busy only while it was busy and not completed. -/
theorem Fair.current_succ (hfair : Fair inp cfg first w) (ht : first ≤ t) {j : Fin P.windowSize}
    (hj : j.val < w) (hissue : issuesTag (st inp t) (inp t) j = false) :
    (st inp (t + 1)).tags.current j =
      ((st inp t).tags.current j && !(inp t).completedTags j) := by
  have hout : ¬ ((inp t).currentWindowSize.setWidth 8).toNat ≤ j.val := by
    have hw := hfair.window t ht
    rw [Rq.window] at hw
    omega
  rw [st_succ, step_tags]
  simp only [nextTags, hissue, decide_eq_false hout, Bool.or_false, ite_self, Bool.false_eq_true,
    if_false]

/-- A busy tag of the window is free from some cycle on, if it is not taken again. -/
theorem Fair.eventually_free (hfair : Fair inp cfg first w) (hcap : cfg.capRead = true)
    (ht : first ≤ t) {j : Fin P.windowSize} (hj : j.val < w)
    (hissue : ∀ u, t ≤ u → issuesTag (st inp u) (inp u) j = false) :
    ∃ u, t ≤ u ∧ ∀ v, u ≤ v → (st inp v).tags.current j = false := by
  have hstay : ∀ u, t ≤ u → (st inp u).tags.current j = false →
      ∀ v, u ≤ v → (st inp v).tags.current j = false := by
    intro u hu hfree
    refine persists ?_ hfree
    intro v hv h
    rw [hfair.current_succ (by omega) hj (hissue v (by omega)), h]
    rfl
  cases hbusy : (st inp t).tags.current j with
  | false =>
      exact ⟨t, Nat.le_refl t, hstay t (Nat.le_refl t) hbusy⟩
  | true =>
      obtain ⟨u, hu, hdone⟩ := hfair.completes hcap t j ht hj hbusy
      refine ⟨u + 1, by omega, hstay (u + 1) (by omega) ?_⟩
      rw [hfair.current_succ (by omega) hj (hissue u hu), hdone, Bool.not_true, Bool.and_false]

theorem no_stall_initRead (hfair : Fair inp cfg first w) (hcap : cfg.capRead = true)
    (ht : first + 2 ≤ t) (hs : (st inp t).wrState = .initRead) :
    ¬ ∀ u, t ≤ u → Stalls (st inp u) (inp u) := by
  intro hstall
  obtain ⟨hw, hP⟩ := hfair.window_pos hcap
  have hstate : ∀ u, t ≤ u → (st inp u).wrState = .initRead := by
    intro u hu
    rw [stall_wrState hstall u hu, hs]
  have havail : ∀ u, t ≤ u → (st inp u).tagAvailable = true → (inp u).axisRqTready = false := by
    intro u hu ha
    by_contra hready
    have hload := load_initRead (i := inp u) (hstate u hu)
    rw [Bool.not_eq_false] at hready
    rw [hready, ha] at hload
    exact not_stalls_of_load hload (hstall u hu)
  -- tag 0 belongs to every window: as long as it is taken or free, the FSM moves on
  have hfree : ∀ u, t ≤ u → (st inp u).tags.current ⟨0, hP⟩ = false →
      (st inp u).tagAvailable = true := by
    intro u hu h0
    simp only [State.tagAvailable, covers, Bool.not_eq_true', decide_eq_false_iff_not]
    intro hall
    have hmask : (st inp u).windowSizeMask ⟨0, hP⟩ = true := by
      rw [hfair.mask (by omega), decide_eq_true_eq]
      exact hw
    rw [hall _ hmask] at h0
    cases h0
  have hissue : ∀ u, t ≤ u → issuesTag (st inp u) (inp u) ⟨0, hP⟩ = false := by
    intro u hu
    cases h0 : (st inp u).tags.current ⟨0, hP⟩ with
    | true =>
        exact issuesTag_of_busy h0
    | false =>
        simp [issuesTag, havail u hu (hfree u hu h0)]
  obtain ⟨u, hu, hlater⟩ := hfair.eventually_free hcap (t := t) (by omega) hw hissue
  obtain ⟨v, hv, hready⟩ := hfair.tready u
  have hblocked := havail v (by omega) (hfree v (by omega) (hlater v hv))
  rw [hready] at hblocked
  cases hblocked

theorem no_stall_waitRead (hfair : Fair inp cfg first w) (hcap : cfg.capRead = true)
    (ht : first + 2 ≤ t) (hs : (st inp t).wrState = .waitRead) :
    ¬ ∀ u, t ≤ u → Stalls (st inp u) (inp u) := by
  intro hstall
  have hstate : ∀ u, t ≤ u → (st inp u).wrState = .waitRead := by
    intro u hu
    rw [stall_wrState hstall u hu, hs]
  have htags : ∀ j : Fin P.windowSize, ∃ u, t ≤ u ∧ ∀ v, u ≤ v →
      (j.val < w → (st inp v).tags.current j = false) := by
    intro j
    by_cases hj : j.val < w
    · obtain ⟨u, hu, hfree⟩ := hfair.eventually_free hcap (t := t) (by omega) hj
        (fun u hu => by simp [issuesTag, hstate u hu])
      exact ⟨u, hu, fun v hv _ => hfree v hv⟩
    · exact ⟨t, Nat.le_refl t, fun _ _ h => absurd h hj⟩
  obtain ⟨u, hu, hfree⟩ := eventually_forall htags
  have hdone : (st inp u).endOfOperation = true := by
    have hdisjoint : disjoint (st inp u).tags.current (st inp u).windowSizeMask = true := by
      rw [disjoint, decide_eq_true_eq]
      intro j hj
      rw [hfair.mask (by omega), decide_eq_true_eq] at hj
      exact hfree j u (Nat.le_refl u) hj
    simp [State.endOfOperation, hstate u hu, hdisjoint]
  have hnext := (hstall u hu).state
  rw [step_wrState, nextWrState, hstate u hu, hdone] at hnext
  cases hnext

/-! ## The rank of an operation -/

/-- The memory writes of a block. -/
def Config.wrLength (P : Params) (cfg : Config) : Nat :=
  blockTlps (numberEvenTlp P.log2MaxPayload cfg.sizeAtDescriptor)

/-- The memory reads of a block. -/
def Config.rdLength (P : Params) (cfg : Config) : Nat :=
  blockTlps (numberEvenTlp (cfg.readLog2 P) cfg.sizeAtDescriptor)

/-- The FSM is in a memory write. -/
def WrState.Writes (state : WrState) : Prop := state = .initWrite ∨ state = .write

instance (state : WrState) : Decidable state.Writes :=
  inferInstanceAs (Decidable (state = .initWrite ∨ state = .write))

/-- A running operation after `f` memory writes and `g` memory reads.  Without reads it ends before
write number `bound`. -/
structure LiveInv (cfg : Config) (bound : Nat) (s : State P) (f g : Nat) : Prop where
  wrCount : s.wrCount.At (cfg.wrLength P) f
  rdCount : s.rdCount.At (cfg.rdLength P) g
  writes : s.wrState.Writes → cfg.capWrite = true
  reads : ¬ s.wrState.Writes → cfg.capRead = true
  reading : cfg.capRead = true → s.wrState ≠ .waitRead → g < cfg.total
  counting : cfg.capRead = false → f < bound

/-- What is left of the operation: memory reads, each with a block of writes before it, or just
memory writes. -/
def stage (cfg : Config) (bound : Nat) (s : State P) (f g : Nat) : Nat :=
  if cfg.capRead then
    (cfg.total - g) * (cfg.wrLength P + 1) +
      if s.wrState.Writes then cfg.wrLength P - f % cfg.wrLength P else 0
  else bound - f

/-- The stage of the operation and the dwords left in the current memory write. -/
def rank (cfg : Config) (bound : Nat) (s : State P) (f g : Nat) : Nat × Nat :=
  (stage cfg bound s f g, s.wrPtr.remaining.toNat)

/-- A clock edge makes the rank smaller and keeps the invariant. -/
def Advances (cfg : Config) (bound : Nat) (s : State P) (i : Input P) (f g : Nat) : Prop :=
  ∃ f' g', LiveInv cfg bound (step s i) f' g' ∧
    Prod.Lex (· < ·) (· < ·) (rank cfg bound (step s i) f' g') (rank cfg bound s f g)

variable {bound f g : Nat} {s : State P} {i : Input P}

/-- Inside a memory write only the dwords left count. -/
theorem LiveInv.within (h : LiveInv cfg bound s f g) (hs : s.wrState.Writes)
    (hs' : (step s i).wrState = .write) (hwr : (step s i).wrCount = s.wrCount)
    (hrd : (step s i).rdCount = s.rdCount)
    (hless : (step s i).wrPtr.remaining.toNat < s.wrPtr.remaining.toNat) :
    Advances cfg bound s i f g := by
  have hw' : (Rq.step s i).wrState.Writes := .inr hs'
  refine ⟨f, g, ⟨?_, ?_, fun _ => h.writes hs, fun hn => absurd hw' hn, ?_, h.counting⟩, ?_⟩
  · rw [hwr]
    exact h.wrCount
  · rw [hrd]
    exact h.rdCount
  · intro hcap _
    refine h.reading hcap ?_
    rcases hs with hs | hs <;> simp [hs]
  · have hstage : stage cfg bound (Rq.step s i) f g = stage cfg bound s f g := by
      simp only [stage, if_pos hs, if_pos hw']
    rw [rank, rank, hstage]
    exact .right _ hless

theorem OpensWrite.advances (h : LiveInv cfg bound s f g) (hm : OpensWrite s i) :
    Advances cfg bound s i f g := by
  have hmore : 4 < s.wrPtr.remaining.toNat := by
    have := hm.more
    rw [lastWordAtTlp_eq, decide_eq_false_iff_not] at this
    omega
  refine h.within (.inl hm.initWrite) hm.state hm.wrCount hm.rdCount ?_
  have hfour : BitVec.toNat (4 : BitVec 64) = 4 := rfl
  rw [hm.wrPtr, BitVec.toNat_sub_of_le (by rw [BitVec.le_def]; omega)]
  omega

theorem ContinuesWrite.advances (h : LiveInv cfg bound s f g) (hm : ContinuesWrite s i) :
    Advances cfg bound s i f g := by
  have hmore := remaining_gt_eight hm.words hm.more
  refine h.within (.inr hm.write) hm.state hm.wrCount hm.rdCount ?_
  have height : BitVec.toNat (8 : BitVec 64) = 8 := rfl
  rw [hm.wrPtr, BitVec.toNat_sub_of_le (by rw [BitVec.le_def]; omega)]
  omega

/-- A number of memory writes after which an operation without reads is over. -/
def EndsAt (P : Params) (cfg : Config) (bound : Nat) : Prop :=
  cfg.capRead = false →
    cfg.wrLength P ∣ bound ∧ cfg.numberTlps.toNat % 2 ^ 32 ≤ bound % 2 ^ 32

/-- The memory write that reaches the bound is the last one. -/
theorem EndsWrite.lt_bound (h : LiveInv cfg bound s f g) (hm : EndsWrite s i)
    (hb : s.bounds = nextBounds P cfg) (hcfg : i.cfg = cfg) (hcap : cfg.capRead = false)
    (hends : EndsAt P cfg bound) (hbusy : (step s i).wrState ≠ .idle) : f + 1 < bound := by
  obtain ⟨hdvd, hbound⟩ := hends hcap
  have hlt := h.counting hcap
  by_contra hge
  have heq : f + 1 = bound := by omega
  apply hbusy
  have hpos : 0 < cfg.wrLength P := blockTlps_pos _
  have heven : s.bounds.wrNumberEven = s.wrCount.modulus := by
    rw [hb]
    refine h.wrCount.even_iff.mpr ?_
    rcases succ_div_mod hpos f with ⟨hend, -, -⟩ | ⟨-, -, hmod⟩
    · exact hend
    · rw [heq, Nat.mod_eq_zero_of_dvd hdvd] at hmod
      omega
  have htotal : s.bounds.wrTotal ≤ s.wrCount.current := by
    rw [hb, h.wrCount.current, heq, BitVec.le_def, BitVec.toNat_ofNat]
    simpa [nextBounds] using hbound
  rw [hm.state, afterWrite, if_pos heven, hcfg, hcap, if_pos htotal]
  rfl

theorem EndsWrite.advances (h : LiveInv cfg bound s f g) (hm : EndsWrite s i)
    (hb : s.bounds = nextBounds P cfg) (hcfg : i.cfg = cfg) (hends : EndsAt P cfg bound)
    (hbusy : (step s i).wrState ≠ .idle) : Advances cfg bound s i f g := by
  have hs : s.wrState.Writes := hm.origin
  have hpos : 0 < cfg.wrLength P := blockTlps_pos _
  have hwr : (Rq.step s i).wrCount.At (cfg.wrLength P) (f + 1) := by
    rw [hm.wrCount, hb]
    exact h.wrCount.next
  have hrd : (Rq.step s i).rdCount.At (cfg.rdLength P) g := by
    rw [hm.rdCount]
    exact h.rdCount
  have hreading : cfg.capRead = true → g < cfg.total := by
    intro hcap
    refine h.reading hcap ?_
    rcases hs with hs | hs <;> simp [hs]
  have hiff : s.bounds.wrNumberEven = s.wrCount.modulus ↔
      f % cfg.wrLength P + 1 = cfg.wrLength P := by
    rw [hb]
    exact h.wrCount.even_iff
  refine ⟨f + 1, g, ⟨hwr, hrd, fun _ => h.writes hs, ?_, fun hcap _ => hreading hcap,
    fun hcap => hm.lt_bound h hb hcfg hcap hends hbusy⟩, ?_⟩
  · -- only reads are left when the writes of a block are over
    intro hn
    by_contra hcap
    rw [Bool.not_eq_true] at hcap
    apply hn
    rw [hm.state] at hbusy ⊢
    rcases afterWrite_cases s i with ha | ha | ha
    · exact absurd ha hbusy
    · exact .inl ha
    · have hread := afterWrite_initRead ha
      rw [hcfg, hcap] at hread
      cases hread
  · refine .left _ _ ?_
    cases hcap : cfg.capRead with
    | false =>
        have hlt := hm.lt_bound h hb hcfg hcap hends hbusy
        simp only [stage, hcap, Bool.false_eq_true, if_false]
        omega
    | true =>
        have hmod := Nat.mod_lt f hpos
        simp only [stage, hcap, if_true, if_pos hs]
        apply Nat.add_lt_add_left
        split
        · rename_i hw'
          rcases succ_div_mod hpos f with ⟨hend, -, -⟩ | ⟨-, -, hmod'⟩
          · exfalso
            have hread : afterWrite s i = .initRead := by
              rw [afterWrite, if_pos (hiff.mpr hend), hcfg, hcap, if_pos rfl]
            rw [hm.state, hread] at hw'
            rcases hw' with h' | h' <;> cases h'
          · rw [hmod']
            omega
        · omega

theorem IssuesRead.advances (h : LiveInv cfg bound s f g) (hm : IssuesRead s i)
    (hb : s.bounds = nextBounds P cfg) (hcfg : i.cfg = cfg) : Advances cfg bound s i f g := by
  have hnw : ¬ s.wrState.Writes := by
    rintro (h' | h') <;> rw [hm.initRead] at h' <;> cases h'
  have hcap := h.reads hnw
  have hlt := h.reading hcap (by simp [hm.initRead])
  have hrd : (Rq.step s i).rdCount.At (cfg.rdLength P) (g + 1) := by
    rw [hm.rdCount, hb, (rdBounds_eq P cfg).1]
    exact h.rdCount.next
  have hwr : (Rq.step s i).wrCount.At (cfg.wrLength P) f := by
    rw [hm.wrCount]
    exact h.wrCount
  have hfit : g + 1 < 2 ^ 32 := by
    have htotal : cfg.total < 2 ^ 32 := by
      rw [Config.total]
      have := Nat.mod_lt cfg.numberTlps.toNat (show 0 < 2 ^ 32 by decide)
      omega
    omega
  have htotal : s.bounds.rdTotal ≤ s.rdCount.current ↔ cfg.total ≤ g + 1 := by
    rw [hb, h.rdCount.current]
    exact total_le_iff cfg hfit
  refine ⟨f, g + 1, ⟨hwr, hrd, ?_, fun _ => hcap, ?_, fun hno => by rw [hcap] at hno; cases hno⟩,
    ?_⟩
  · intro hw
    rw [hm.state] at hw
    split at hw
    · rcases hw with h' | h' <;> cases h'
    · split at hw
      · rename_i hblock
        rw [hcfg] at hblock
        exact hblock.1
      · rcases hw with h' | h' <;> cases h'
  · intro _ hwait
    by_contra hge
    apply hwait
    rw [hm.state, if_pos (htotal.mpr (by omega))]
  · refine .left _ _ ?_
    have hpos : 0 < cfg.wrLength P := blockTlps_pos _
    simp only [stage, hcap, if_true, if_neg hnw, Nat.add_zero]
    have hsplit : cfg.total - g = cfg.total - (g + 1) + 1 := by omega
    rw [hsplit, Nat.add_mul, Nat.one_mul]
    apply Nat.add_lt_add_left
    split <;> omega

theorem Stalls.liveInv (h : LiveInv cfg bound s f g) (hm : Stalls s i) :
    LiveInv cfg bound (step s i) f g ∧ rank cfg bound (step s i) f g = rank cfg bound s f g := by
  constructor
  · constructor
    · rw [hm.wrCount]
      exact h.wrCount
    · rw [hm.rdCount]
      exact h.rdCount
    · rw [hm.state]
      exact h.writes
    · rw [hm.state]
      exact h.reads
    · rw [hm.state]
      exact h.reading
    · exact h.counting
  · simp only [rank, stage, hm.state, hm.wrPtr]

/-- A busy FSM goes idle, stalls or advances. -/
theorem LiveInv.step (h : LiveInv cfg bound s f g) (hs : s.wrState ≠ .idle)
    (hb : s.bounds = nextBounds P cfg) (hcfg : i.cfg = cfg) (hends : EndsAt P cfg bound) :
    (step s i).wrState = .idle ∨ Stalls s i ∨ Advances cfg bound s i f g := by
  by_cases hidle : (Rq.step s i).wrState = .idle
  · exact .inl hidle
  · right
    rcases busy_cases i hs with hm | hm | hm | hm | hm | hm
    · exact .inl hm
    · exact .inr (hm.advances h)
    · exact .inr (hm.advances h)
    · exact .inr (hm.advances h hb hcfg hends hidle)
    · exact .inr (hm.advances h hb hcfg)
    · exact absurd hm.state hidle

/-! ## The end of an operation -/

/-- No state of a running operation stalls for ever. -/
theorem LiveInv.no_stall (hfair : Fair inp cfg first w) (ht : first + 2 ≤ t)
    (hs : (st inp t).wrState ≠ .idle) (h : LiveInv cfg bound (st inp t) f g) :
    ¬ ∀ u, t ≤ u → Stalls (st inp u) (inp u) := by
  by_cases hw : (st inp t).wrState.Writes
  · exact no_stall_writing hfair (h.writes hw) hw
  · have hcap := h.reads hw
    cases hstate : (st inp t).wrState with
    | idle =>
        exact absurd hstate hs
    | initWrite =>
        exact absurd (.inl hstate) hw
    | write =>
        exact absurd (.inr hstate) hw
    | initRead =>
        exact no_stall_initRead hfair hcap ht hstate
    | waitRead =>
        exact no_stall_waitRead hfair hcap ht hstate

/-- The invariant of the first busy cycle. -/
theorem Operation.liveInv_first {start stop : Nat} (op : Operation inp cfg start stop)
    (hbound : cfg.capRead = false → 0 < bound) :
    LiveInv cfg bound (st inp (start + 1)) 0 0 := by
  obtain ⟨hwr, hrd, -, -, -⟩ := op.first_registers
  refine ⟨by rw [hwr]; exact .first _, by rw [hrd]; exact .first _, ?_, ?_,
    fun _ _ => cfg.total_pos, hbound⟩
  · intro hw
    rcases op.begins.2 with ⟨hcap, -⟩ | ⟨-, -, hstate⟩
    · exact hcap
    · rw [hstate] at hw
      rcases hw with h' | h' <;> cases h'
  · intro hn
    rcases op.begins.2 with ⟨-, hstate⟩ | ⟨-, hcap, -⟩
    · exact absurd (.inl hstate) hn
    · exact hcap

/-- An operation that starts also ends, if the environment of an endless one would be fair. -/
theorem operation_ends {start : Nat} (hidle : (st inp start).wrState = .idle)
    (hleaves : (st inp (start + 1)).wrState ≠ .idle)
    (hstable : ∀ t, start ≤ t → (∀ u, start < u → u ≤ t → (st inp u).wrState ≠ .idle) →
      (inp t).cfg = cfg)
    (hfair : (∀ t, start < t → (st inp t).wrState ≠ .idle) → Fair inp cfg first w)
    (hfirst : first < start) (hterm : cfg.Terminates P) :
    ∃ stop, Operation inp cfg start stop ∧ (st inp stop).wrState = .idle ∧
      ∀ t, start < t → t < stop → (st inp t).wrState ≠ .idle := by
  -- as long as it has not ended the operation is observed up to any cycle
  have hop : ∀ stop, start < stop → (∀ u, start < u → u < stop → (st inp u).wrState ≠ .idle) →
      Operation inp cfg start stop := by
    intro stop hstop hbusy
    refine ⟨hstop, hidle, hleaves, fun t hat htb hs => absurd hs (hbusy t hat htb), ?_⟩
    intro t hat htb _
    exact hstable t hat (fun u hu hut => hbusy u hu (by omega))
  obtain ⟨bound, hends, hpos⟩ : ∃ bound, EndsAt P cfg bound ∧
      (cfg.capRead = false → 0 < bound) := by
    rcases hterm with hcap | ⟨-, k, hk, hle⟩
    · refine ⟨0, ?_, ?_⟩ <;>
        · intro h
          rw [hcap] at h
          cases h
    · refine ⟨k * cfg.wrLength P, fun _ => ⟨Dvd.intro_left k rfl, hle⟩, fun _ => ?_⟩
      exact Nat.mul_pos hk (blockTlps_pos _)
  have hexists : ∃ u, start < u ∧ (st inp u).wrState = .idle := by
    by_contra hno
    push Not at hno
    have hinv : ∃ u, start + 1 ≤ u ∧ (st inp (u + 1)).wrState = .idle := by
      refine eventually_of_rank (r := Prod.Lex (· < ·) (· < ·))
        (WellFounded.prod_lex Nat.lt_wfRel.wf Nat.lt_wfRel.wf)
        (fun t => (st inp (t + 1)).wrState = .idle) (fun t => Stalls (st inp t) (inp t))
        (fun t x => start < t ∧ ∃ f g, LiveInv cfg bound (st inp t) f g ∧
          x = rank cfg bound (st inp t) f g) ?_ ?_
        ⟨Nat.lt_succ_self start, 0, 0,
          (hop (start + 1) (by omega) (by omega)).liveInv_first hpos, rfl⟩
      · rintro t x ⟨ht, f, g, hlive, rfl⟩
        have hcfg := hstable t (by omega) (fun u hu _ => hno u hu)
        have hb := (hop (t + 1) (by omega) (fun u hu _ => hno u hu)).bounds_eq ht (by omega)
          (hno t ht)
        rcases hlive.step (i := inp t) (hno t ht) hb hcfg hends with h | hm | ⟨f', g', h, hlt⟩
        · exact .inl h
        · obtain ⟨hlive', hrank⟩ := hm.liveInv hlive
          exact .inr (.inl ⟨hm, by omega, f, g, hlive', hrank.symm⟩)
        · exact .inr (.inr ⟨_, hlt, by omega, f', g', h, rfl⟩)
      · rintro t x ⟨ht, f, g, hlive, -⟩
        exact hlive.no_stall (hfair hno) (by omega) (hno t ht)
    obtain ⟨u, hu, hend⟩ := hinv
    exact hno (u + 1) (by omega) hend
  classical
  refine ⟨Nat.find hexists, ?_, (Nat.find_spec hexists).2, ?_⟩
  · refine hop _ (Nat.find_spec hexists).1 ?_
    intro u hu hlt hs
    exact Nat.find_min hexists hlt ⟨hu, hs⟩
  · intro u hu hlt hs
    exact Nat.find_min hexists hlt ⟨hu, hs⟩

end Liveness

end Rq
end PcieBench
