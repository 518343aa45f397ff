import PcieBench.Manager.Queue
import PcieBench.Rq.Measure

/-!
# An engine that has stopped

The host learns that its queue is done from the enable bit: it polls the control word until the bit
reads zero.  Nothing is assumed here about the core or the completions, so an engine may well run for
ever.  But once the bit is clear the whole queue has been performed, each operation with the end that
moved the engine on, and the engine is at rest.
-/

namespace PcieBench

/-! ## The gate of an operation -/

namespace Rq

variable {P : Params} {inp : Run P} {start l : Nat}

/-- Until the output register is free the FSM stays in its first state. -/
theorem waits_in_header
    (hheader : (st inp (start + 1)).wrState = .initWrite ∨ (st inp (start + 1)).wrState = .initRead)
    {u : Nat} (hno : ∀ v, start < v → v < u → ¬ opensGate inp v) :
    ∀ v, start + 1 ≤ v → v ≤ u → (st inp v).wrState = (st inp (start + 1)).wrState := by
  refine Clocked.interval_induction rfl ?_
  intro v hv hvu hstate
  rw [← hstate] at hheader ⊢
  have hready : (inp v).axisRqTready = false := by
    by_contra hready
    exact hno v hv hvu ⟨hheader, by simpa using hready⟩
  rw [st_succ, step_wrState, nextWrState]
  rcases hheader with hs | hs <;> simp [hs, hready]

/-- Every operation that ends opens the gate of its measurements first. -/
theorem Spans.of_ended (hidle : (st inp start).wrState = .idle)
    (hleaves : (st inp (start + 1)).wrState ≠ .idle) (hlt : start < l)
    (hend : (st inp l).endOfOperation = true)
    (hrunning : ∀ u, start < u → u < l → (st inp u).endOfOperation = false) :
    ∃ g, Spans inp start g l := by
  have hheader : (st inp (start + 1)).wrState = .initWrite ∨
      (st inp (start + 1)).wrState = .initRead := by
    rcases (begins_of_leaves hidle hleaves).next with ⟨-, hw⟩ | ⟨-, -, hr⟩
    · exact .inl hw
    · exact .inr hr
  have hexists : ∃ g, start < g ∧ opensGate inp g := by
    by_contra hno
    push Not at hno
    -- the FSM would still be in its first state, in which no operation ends
    have hstate := waits_in_header hheader (u := l) (fun v hv _ => hno v hv) l hlt (Nat.le_refl l)
    obtain ⟨hw, hr⟩ := ne_header_of_endOfOperation hend
    rcases hheader with hs | hs
    · exact hw (hstate.trans hs)
    · exact hr (hstate.trans hs)
  obtain ⟨hg, hopens⟩ := Nat.find_spec hexists
  refine ⟨Nat.find hexists, hidle, hleaves, hg, hopens, ?_, hlt, hend, hrunning⟩
  intro u hu hug hopen
  exact Nat.find_min hexists hug ⟨hu, hopen⟩

/-- Idle cycles from `t` to `start`, and busy ones from there until cycle `stop`. -/
structure Episode (inp : Run P) (t start stop : Nat) : Prop where
  le : t ≤ start
  idle : ∀ v, t ≤ v → v ≤ start → (st inp v).wrState = .idle
  lt : start + 1 < stop
  busy : ∀ v, start < v → v < stop → (st inp v).wrState ≠ .idle
  ended : (st inp stop).wrState = .idle

/-- The first end of an operation has a busy cycle before it. -/
theorem busy_before_end {t : Nat} (hidle : (st inp t).wrState = .idle)
    (hno : (st inp t).endOfOperation = false) (htl : t ≤ l)
    (hend : (st inp l).endOfOperation = true) :
    ∃ v, t < v ∧ v ≤ l ∧ (st inp v).wrState ≠ .idle := by
  by_contra hnone
  push Not at hnone
  rcases Nat.eq_or_lt_of_le htl with rfl | hlt
  · rw [hno] at hend
    cases hend
  · obtain ⟨w, rfl⟩ : ∃ w, l = w + 1 := ⟨l - 1, by omega⟩
    have hprev : (st inp w).wrState = .idle := by
      rcases Nat.eq_or_lt_of_le (Nat.le_of_lt_succ hlt) with rfl | htw
      · exact hidle
      · exact hnone w htw (by omega)
    rw [st_succ, endOfOperation_of_idle hprev (hnone (w + 1) hlt (Nat.le_refl _))] at hend
    cases hend

/-- From an idle cycle to the first end of an operation there is one episode. -/
theorem episode_of_end {t : Nat} (hidle : (st inp t).wrState = .idle)
    (hno : (st inp t).endOfOperation = false) (htl : t ≤ l)
    (hend : (st inp l).endOfOperation = true)
    (hfirst : ∀ v, t ≤ v → v < l → (st inp v).endOfOperation = false) :
    ∃ start stop, Episode inp t start stop ∧ start < l ∧ (l = stop ∨ l + 1 = stop) := by
  classical
  -- the cycle before the first busy one
  have hleaves := busy_before_end hidle hno htl hend
  obtain ⟨htv, hvl, hbusy⟩ := Nat.find_spec hleaves
  obtain ⟨start, hstart⟩ : ∃ start, Nat.find hleaves = start + 1 :=
    ⟨Nat.find hleaves - 1, by omega⟩
  rw [hstart] at htv hvl hbusy
  -- the first idle one after it
  have hreturns := (endOfOperation_once hend (inp l)).1
  have hback : ∃ v, start < v ∧ (st inp v).wrState = .idle := ⟨l + 1, by omega, hreturns⟩
  obtain ⟨hsv, hended⟩ := Nat.find_spec hback
  have hstop : Nat.find hback ≤ l + 1 := Nat.find_min' hback ⟨by omega, hreturns⟩
  have hrun : ∀ v, start < v → v < Nat.find hback → (st inp v).wrState ≠ .idle := by
    intro v hv hvs hnow
    exact Nat.find_min hback hvs ⟨hv, hnow⟩
  have hne : Nat.find hback ≠ start + 1 := by
    intro heq
    exact hbusy (heq ▸ hended)
  refine ⟨start, Nat.find hback, ⟨by omega, ?_, by omega, hrun, hended⟩, by omega, ?_⟩
  · intro v hv hvs
    rcases Nat.eq_or_lt_of_le hv with rfl | hlt
    · exact hidle
    · by_contra hnow
      exact Nat.find_min hleaves (by omega) ⟨hlt, by omega, hnow⟩
  · -- the pulse comes in the last busy cycle or in the first idle one, and it is the first pulse
    by_contra hother
    obtain ⟨w, hw⟩ : ∃ w, Nat.find hback = w + 1 := ⟨Nat.find hback - 1, by omega⟩
    rw [hw] at hended
    rcases endOfOperation_of_leaving (i := inp w) (hrun w (by omega) (by omega)) hended with
      hpulse | ⟨-, hpulse⟩
    · rw [hfirst w (by omega) (by omega)] at hpulse
      cases hpulse
    · rw [← st_succ, hfirst (w + 1) (by omega) (by omega)] at hpulse
      cases hpulse

/-- Two sequences of operations, one after the other. -/
theorem Performs.append {cfgs cfgs' : List Config} {t u v : Nat} (h : Performs inp cfgs t u)
    (h' : Performs inp cfgs' u v) : Performs inp (cfgs ++ cfgs') t v := by
  induction h with
  | done le idle =>
      refine h'.before le ?_
      intro w hw hwu
      exact idle w hw (by omega)
  | next le idle operation busy ended built rest ih =>
      exact .next le idle operation busy ended built (ih h')

end Rq

namespace Engine

open Clocked Manager
open Rq (Params)

variable {P : Params} {memories : Manager.Memories} {inp : Nat → Input P} {q e m t : Nat}
  {a k : Index}

/-! ## One operation -/

/-- The operation that a ready engine performs by its first end in cycle `l`. -/
structure Performed (memories : Manager.Memories) (inp : Nat → Input P) (slots : Index → Prop)
    (m₀ : Manager.State) (e t l : Nat) (k : Index) : Prop where
  le : t ≤ l
  runs : Runs memories inp slots m₀ e l k
  ends : (Rq.st (rqRun memories inp) l).endOfOperation = true
  first : ∀ v, t ≤ v → v < l → (Rq.st (rqRun memories inp) v).endOfOperation = false

/-- Until its operation ends a ready engine stays on its descriptor. -/
theorem Ready.stays (hq : Queued memories inp q e m a) (hslot : InQueue a m k)
    (h : Ready memories inp (InQueue a m) (mgr memories inp (e + 1)) e t k) {u : Nat}
    (hno : ∀ v, t ≤ v → v < u → (Rq.st (rqRun memories inp) v).endOfOperation = false) :
    ∀ v, t ≤ v → v ≤ u → Runs memories inp (InQueue a m) (mgr memories inp (e + 1)) e v k := by
  refine interval_induction h.runs ?_
  intro v hv hvu hr
  exact hr.succ hq hslot (hno v hv hvu)

/-- An engine that works on a descriptor stays enabled for one more cycle. -/
theorem Runs.enable_succ (hq : Queued memories inp q e m a)
    (h : Runs memories inp (InQueue a m) (mgr memories inp (e + 1)) e t k) :
    (mgr memories inp (t + 1)).regs.enable = true := by
  have hspares := hq.during t h.lt h.enabled
  obtain ⟨henable, -⟩ := registers_of_not_touches (mgr memories inp t)
    (i := mgrInput (sys memories inp t) (inp t)) hspares.engine
  rw [mgr_succ, henable, h.position.enable, h.position.stop]
  rfl

/-- The enable bit of a ready engine only falls after the end of its operation. -/
theorem Ready.performed (hq : Queued memories inp q e m a) (hslot : InQueue a m k)
    (h : Ready memories inp (InQueue a m) (mgr memories inp (e + 1)) e t k) {p : Nat} (htp : t < p)
    (hoff : (mgr memories inp p).regs.enable = false) :
    ∃ l, l + 2 ≤ p ∧ Performed memories inp (InQueue a m) (mgr memories inp (e + 1)) e t l k := by
  have hexists : ∃ l, t ≤ l ∧ l + 2 ≤ p ∧
      (Rq.st (rqRun memories inp) l).endOfOperation = true := by
    by_contra hno
    push Not at hno
    have hruns := h.stays hq hslot (u := p - 1)
      (fun v hv hvp => by simpa using hno v hv (by omega)) (p - 1) (by omega) (Nat.le_refl _)
    have hon := hruns.enable_succ hq
    rw [Nat.sub_add_cancel (by omega), hoff] at hon
    cases hon
  classical
  obtain ⟨htl, hlp, hend⟩ := Nat.find_spec hexists
  have hfirst : ∀ v, t ≤ v → v < Nat.find hexists →
      (Rq.st (rqRun memories inp) v).endOfOperation = false := by
    intro v hv hvl
    by_contra hno
    exact Nat.find_min hexists hvl ⟨hv, by omega, by simpa using hno⟩
  exact ⟨Nat.find hexists, hlp, htl, h.stays hq hslot hfirst _ htl (Nat.le_refl _), hend, hfirst⟩

/-- Up to its end the engine has waited idle and then performed one operation, that of its
descriptor. -/
theorem Performed.operation (hq : Queued memories inp q e m a) (hslot : InQueue a m k)
    (hs : e + 1 < t) (h : Ready memories inp (InQueue a m) (mgr memories inp (e + 1)) e t k) {l : Nat}
    (hp : Performed memories inp (InQueue a m) (mgr memories inp (e + 1)) e t l k) :
    ∃ start stop, Rq.Episode (rqRun memories inp) t start stop ∧ start < l ∧
      (l = stop ∨ l + 1 = stop) ∧
      Rq.Performs (rqRun memories inp) [queueConfig (mgr memories inp (e + 1)) k] t stop := by
  have hruns := h.stays hq hslot hp.first
  obtain ⟨start, stop, hep, hsl, hlstop⟩ :=
    Rq.episode_of_end h.idle h.noEnd hp.le hp.ends hp.first
  have hle := hep.le
  have hlt := hep.lt
  have hop : Rq.Operation (rqRun memories inp) (queueConfig (mgr memories inp (e + 1)) k) start
      stop := by
    refine ⟨by omega, hep.idle start hle (Nat.le_refl _), hep.busy _ (by omega) hlt,
      fun v hv hvs hno => absurd hno (hep.busy v hv hvs), ?_⟩
    intro v hv hvs _
    have hr := hruns v (by omega) (by omega)
    exact hr.kept.descriptor_eq hr.fetched
  have hrandom : Rq.RandomOk (rqRun memories inp) start stop
      (Rq.RandomOffset (queueConfig (mgr memories inp (e + 1)) k)) :=
    hq.randomOk (by omega) (fun v hv => hp.runs.enabled.mono (by omega))
  refine ⟨start, stop, hep, hsl, hlstop, ?_⟩
  refine .next hle hep.idle hop hep.busy hep.ended
    (hop.builtFrom hrandom (by omega) (Nat.le_refl _)) (.done (Nat.le_refl _) ?_)
  intro v hv hvs
  obtain rfl : v = stop := by omega
  exact hep.ended

end Engine
end PcieBench
