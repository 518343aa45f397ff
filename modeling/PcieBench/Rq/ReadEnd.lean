import PcieBench.Rq.Extent
import PcieBench.Rq.Tags

/-!
# The end of a read operation

`WAIT_READ` is left when no busy bit is set inside the window.  The mask comes from the window size of
two cycles before and the busy bits from the requests and the completion pulses, so the test says that
the operation is done only because its requests all have tags of one window.  The count of requests
and the pulses are followed here from the first busy cycle of an operation to its end.
-/

namespace PcieBench
namespace Rq

open Clocked Tlp

section ReadEnd

variable {P : Params}

/-! ## Completed requests -/

/-- Without a pulse on its tag a request stays outstanding. -/
theorem outstanding_of_no_pulse {inp : Run P} {v : Nat} {j : Fin P.windowSize}
    (hload : loadsTag (st inp v) (inp v) j = true) {t : Nat} (hvt : v < t)
    (hnone : ∀ u, v < u → u < t → (inp u).completedTags j = false) :
    outstanding inp t j = true := by
  induction t, hvt using Nat.le_induction with
  | base =>
      rw [outstanding_succ, hload, Bool.true_or]
  | succ t hvt ih =>
      have hlive := ih (fun u hu hut => hnone u hu (by omega))
      rw [outstanding_succ, hlive, hnone t hvt (by omega)]
      simp

/-- The tag of an outstanding request is not loaded again. -/
theorem loadsTag_of_outstanding {inp : Run P} (hwin : WindowStable inp) {t : Nat}
    {j : Fin P.windowSize} (hlive : outstanding inp t j = true) :
    loadsTag (st inp t) (inp t) j = false := by
  by_contra hload
  rw [Bool.not_eq_false] at hload
  have hm := issuesRead_of_loadsTag hload
  obtain ⟨k, hk⟩ := hm.takesTag (fun _ => hwin.mask_le (by simp [hm.initRead]))
  obtain rfl := (hk.loadsTag_iff hm j).mp hload
  have hbusy := outstanding_busy hwin t j hlive
  rw [hk.free] at hbusy
  cases hbusy

/-- A request that is not outstanding any more has had a pulse on its tag, and until then the tag was
its own. -/
theorem pulse_of_not_outstanding {inp : Run P} (hwin : WindowStable inp) {v t : Nat}
    {j : Fin P.windowSize} (hload : loadsTag (st inp v) (inp v) j = true) (hvt : v < t)
    (hdone : outstanding inp t j = false) :
    ∃ u, v < u ∧ u < t ∧ (inp u).completedTags j = true ∧
      ∀ w, v < w → w ≤ u → loadsTag (st inp w) (inp w) j = false := by
  have hpulse : ∃ u, v < u ∧ u < t ∧ (inp u).completedTags j = true := by
    by_contra hno
    push Not at hno
    rw [outstanding_of_no_pulse hload hvt (fun u hu hut => by simpa using hno u hu hut)] at hdone
    cases hdone
  -- the first pulse is the one of the request
  classical
  obtain ⟨hvu, hut, hdone⟩ := Nat.find_spec hpulse
  refine ⟨Nat.find hpulse, hvu, hut, hdone, ?_⟩
  intro w hvw hwu
  refine loadsTag_of_outstanding hwin (outstanding_of_no_pulse hload hvw ?_)
  intro u hu huw
  have hmin := Nat.find_min hpulse (show u < Nat.find hpulse by omega)
  by_contra hset
  exact hmin ⟨hu, by omega, by simpa using hset⟩

/-! ## The last request -/

/-- Before cycle `t` all memory reads of the operation have been issued, and each of them has had its
own completion pulse. -/
structure ReadsDone (inp : Run P) (cfg : Config) (start t : Nat) : Prop where
  issued : (readHeaders (Operation.beats inp start t)).length = cfg.total
  completed : ∀ v, start < v → v < t → ∀ x ∈ loads inp v, x.origin = .initRead →
    ∃ j : Fin P.windowSize, x.beat.tag.toNat = j.val ∧
      ∃ u, v < u ∧ u < t ∧ (inp u).completedTags j = true ∧
        ∀ w, v < w → w ≤ u → loadsTag (st inp w) (inp w) j = false

/-- The counters, and that `WAIT_READ` is entered with the last request. -/
def Waits (cfg : Config) (s : State P) (l : List Sent) : Prop :=
  ∃ f g, Sending cfg s l f g ∧ (s.wrState = .waitRead → g = cfg.total)

theorem Waits.step {cfg : Config} {s : State P} {i : Input P} {l : List Sent} (h : Waits cfg s l)
    (hb : s.bounds = nextBounds P cfg) (hcfg : i.cfg = cfg) (hs : s.wrState ≠ .idle) :
    Waits cfg (step s i) (l ++ load s i) := by
  obtain ⟨f, g, hsend, hwait⟩ := h
  by_cases hstate : (Rq.step s i).wrState = .waitRead
  · rcases step_waitRead_cases hstate with ⟨hold, hm⟩ | ⟨hm, hlast⟩
    · -- it stays in `WAIT_READ`
      obtain ⟨f', g', hsend'⟩ := hsend.step (i := i) hb hcfg hs
      refine ⟨f', g', hsend', fun _ => ?_⟩
      rw [← hsend'.reads, hm.load, List.append_nil, hsend.reads]
      exact hwait hold
    · -- the last memory read request
      refine ⟨f, g + 1, hsend.issues hm hb hcfg, fun _ => ?_⟩
      have hg := (hsend.reading hm.initRead).2
      have htotal := (hsend.rdTotal_iff hm.initRead hb).mp hlast
      omega
  · obtain ⟨f', g', hsend'⟩ := hsend.step (i := i) hb hcfg hs
    exact ⟨f', g', hsend', fun h => absurd h hstate⟩

namespace Operation

variable {inp : Run P} {cfg : Config} {start stop : Nat}

/-- In `WAIT_READ` all requests of the operation have been issued. -/
theorem issued_of_waitRead (op : Operation inp cfg start stop) {t : Nat} (hat : start < t)
    (htb : t ≤ stop) (hs : (st inp t).wrState = .waitRead) :
    (readHeaders (beats inp start t)).length = cfg.total := by
  have hfirst : Waits cfg (st inp (start + 1)) [] := by
    refine ⟨0, 0, op.sending_first, fun hwait => ?_⟩
    rcases op.begins.2 with ⟨-, hs⟩ | ⟨-, -, hs⟩ <;> rw [hs] at hwait <;> cases hwait
  obtain ⟨f, g, hsend, hwait⟩ := (op.beats_induction (Waits cfg) (fun _ _ => True) hfirst
    (fun _ _ _ hs hcfg hb h => h.step hb hcfg hs) (fun _ _ _ => trivial) t hat htb).1
    (by simp [hs])
  rw [hsend.reads]
  exact hwait hs

/-- An operation is not left and entered again. -/
theorem busy_of_busy (op : Operation inp cfg start stop) {v t : Nat} (hav : start < v) (hvt : v ≤ t)
    (htb : t ≤ stop) (hs : (st inp t).wrState ≠ .idle) : (st inp v).wrState ≠ .idle := by
  intro hidle
  refine hs (interval_induction (p := fun u => (st inp u).wrState = .idle) hidle ?_ t hvt
    (Nat.le_refl t))
  intro u hvu hut hu
  exact op.once u (by omega) (by omega) hu

/-- One window for the whole operation. -/
theorem window_eq (op : Operation inp cfg start stop) (hwin : WindowStable inp) {v t : Nat}
    (hav : start < v) (hvt : v ≤ t) (htb : t ≤ stop) (hs : (st inp t).wrState ≠ .idle) :
    window inp v = window inp t := by
  refine interval_induction (p := fun u => window inp v = window inp u) rfl ?_ t hvt (Nat.le_refl t)
  intro u hvu hut hu
  rw [hu]
  exact hwin.window_eq (op.busy_of_busy (by omega) hut htb hs) (by omega) (by omega)

/-- The end of the operation, seen from the state that announces it. -/
theorem waitRead_of_end (op : Operation inp cfg start stop) (hread : cfg.capRead = true) {t : Nat}
    (hat : start < t) (htb : t ≤ stop) (hend : (st inp t).endOfOperation = true) :
    Finishes (st inp t) (inp t) := by
  by_cases hs : (st inp t).wrState = .idle
  · -- an operation with reads does not become idle behind a memory write
    exfalso
    obtain ⟨u, rfl⟩ : ∃ u, t = u + 1 := ⟨t - 1, by omega⟩
    have hpipe : (st inp u).wrState = .initWrite ∨ (st inp u).wrState = .write := by
      have hprev : (st inp (u + 1)).wrStatePipe = (st inp u).wrState := rfl
      simpa [State.endOfOperation, hs, hprev] using hend
    have hu : start < u := by
      by_contra hle
      obtain rfl : u = start := by omega
      exact op.leaves hs
    have hbusy : (st inp u).wrState ≠ .idle := by
      rcases hpipe with h | h <;> simp [h]
    have hcfg := op.stable u (by omega) (by omega) (.inr hbusy)
    rw [st_succ] at hs
    rcases step_idle_cases hbusy hs with ⟨-, hno⟩ | hm
    · rw [hcfg, hread] at hno
      cases hno
    · rw [hm.waitRead] at hpipe
      rcases hpipe with h | h <;> cases h
  · exact finishes_of_end hend hs (inp t)

/-- The end of a read operation is announced when it is done. -/
theorem readsDone (op : Operation inp cfg start stop) (hwin : WindowStable inp)
    (hread : cfg.capRead = true) {t : Nat} (hat : start < t) (htb : t ≤ stop)
    (hend : (st inp t).endOfOperation = true) : ReadsDone inp cfg start t := by
  have hm := op.waitRead_of_end hread hat htb hend
  refine ⟨op.issued_of_waitRead hat htb hm.waitRead, ?_⟩
  intro v hav hvt x hx horigin
  obtain ⟨hissue, hbeat⟩ := issuesRead_of_mem_load hx horigin
  have hbusy : (st inp t).wrState ≠ .idle := by simp [hm.waitRead]
  obtain ⟨j, hj⟩ := hissue.takesTag
    (fun _ => hwin.mask_le (op.busy_of_busy hav (by omega) htb hbusy))
  refine ⟨j, by rw [hbeat]; exact hj.tag, ?_⟩
  refine pulse_of_not_outstanding hwin ((hj.loadsTag_iff hissue j).mpr rfl) hvt ?_
  refine hm.free hwin j ?_
  rw [← op.window_eq hwin hav (by omega) htb hbusy]
  exact hj.inside

/-- An operation with reads becomes idle through its announced end. -/
theorem end_of_idle (op : Operation inp cfg start stop) (hread : cfg.capRead = true) {t : Nat}
    (hat : start < t) (htb : t ≤ stop) (hs : (st inp t).wrState = .idle) :
    ∃ u, start < u ∧ u < t ∧ (st inp u).endOfOperation = true := by
  induction t, hat using Nat.le_induction with
  | base =>
      exact absurd hs op.leaves
  | succ t hat ih =>
      by_cases hidle : (st inp t).wrState = .idle
      · obtain ⟨u, hau, hut, hend⟩ := ih (by omega) hidle
        exact ⟨u, hau, by omega, hend⟩
      · refine ⟨t, hat, by omega, ?_⟩
        rw [st_succ] at hs
        rcases endOfOperation_of_leaving hidle hs with hend | ⟨-, hlate⟩
        · exact hend
        · -- the late end is the one of an operation without reads
          have hm := op.waitRead_of_end hread (t := t + 1) (by omega) htb hlate
          rw [st_succ] at hm
          rw [hm.waitRead] at hs
          cases hs

/-- The end of an operation is announced only once. -/
theorem end_unique (op : Operation inp cfg start stop) (hread : cfg.capRead = true) {t u : Nat}
    (hat : start < t) (htu : t < u) (hub : u ≤ stop) (hend : (st inp t).endOfOperation = true) :
    (st inp u).endOfOperation = false := by
  by_contra hagain
  rw [Bool.not_eq_false] at hagain
  have hm := op.waitRead_of_end hread (by omega) hub hagain
  have hidle := (endOfOperation_once hend (inp t)).1
  rw [← st_succ] at hidle
  exact op.busy_of_busy (v := t + 1) (by omega) htu hub (by simp [hm.waitRead]) hidle

/-- An operation with reads announces its end only when every request has been issued and has had its
completion pulse; it does so in no more than one cycle, and it has done so when the FSM is idle
again. -/
theorem read_ends_when_done (op : Operation inp cfg start stop) (hwin : WindowStable inp)
    (hread : cfg.capRead = true) :
    (∀ t, start < t → t ≤ stop → (st inp t).endOfOperation = true → ReadsDone inp cfg start t) ∧
      (∀ t u, start < t → t < u → u ≤ stop → (st inp t).endOfOperation = true →
        (st inp u).endOfOperation = false) ∧
      ∀ t, start < t → t ≤ stop → (st inp t).wrState = .idle →
        ∃ u, start < u ∧ u < t ∧ (st inp u).endOfOperation = true := by
  refine ⟨?_, ?_, ?_⟩
  · intro t hat htb hend
    exact op.readsDone hwin hread hat htb hend
  · intro t u hat htu hub hend
    exact op.end_unique hread hat htu hub hend
  · intro t hat htb hs
    exact op.end_of_idle hread hat htb hs

end Operation

/-- The steady environment with a completion of the first four tags in cycle `done`. -/
def answered (cfg : Config) (done : Nat) : Run pcieController := fun t =>
  { steady cfg t with completedTags := fun j => decide (t = done) && decide (j.val < 4) }

/-- Four memory reads that are all completed in cycle 12: the operation ends in the next cycle. -/
theorem read_ends_when_done_four :
    (st (answered (readConfig 64) 12) 13).endOfOperation = true ∧
      ReadsDone (answered (readConfig 64) 12) (readConfig 64) 4 13 := by
  have op : Operation (answered (readConfig 64) 12) (readConfig 64) 4 13 := by
    refine ⟨by decide, by decide +kernel, by decide +kernel, ?_, fun _ _ _ _ => rfl⟩
    intro t hat htb hs
    have hbusy : ∀ u, u < 13 → 4 < u →
        (st (answered (readConfig 64) 12) u).wrState ≠ .idle := by decide +kernel
    exact absurd hs (hbusy t htb hat)
  have hend : (st (answered (readConfig 64) 12) 13).endOfOperation = true := by decide +kernel
  exact ⟨hend, (op.read_ends_when_done (fun _ _ _ _ _ => rfl) rfl).1 13 (by decide) (by decide) hend⟩

end ReadEnd

end Rq
end PcieBench
