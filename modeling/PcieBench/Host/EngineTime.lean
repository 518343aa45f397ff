import PcieBench.Host.Session

/-!
# The time of a call

`total_time` counts the clock cycles for which the engine has been enabled.  It is cleared with the
enable and stops with the last operation, and the host reads it like the control word.  After a call
it shows the time from the enable to the end of the operation, which is always longer than the latency
in the statistics.
-/

namespace PcieBench

namespace Manager

/-! ## Reads of the engine registers -/

/-- A read that finds the same word in all its cycles returns that word. -/
theorem engineRead_returns {m : Nat → State} {inp : Nat → Input}
    (hstep : ∀ v, m (v + 1) = step (m v) (inp v)) {r : Nat} {x : BitVec 64}
    (hen : (inp r).host.en = true)
    (hread : ∀ v, r ≤ v → v ≤ r + 3 → engineRead (m v) (inp v) = some x) :
    (m (r + 4)).read.ack = true ∧ (m (r + 4)).dout = x := by
  have hkept : ∀ v, r + 1 ≤ v → v ≤ r + 4 →
      (m v).read.isEngineRead = true ∧ (m v).read.rdataEngine = x := by
    refine Clocked.interval_induction ?_ ?_
    · simp [hstep, nextRead, hen, hread r (Nat.le_refl r) (by omega)]
    · rintro v hv hvr ⟨hengine, hdata⟩
      rw [hstep, step_read]
      cases henv : (inp v).host.en with
      | true =>
          simp [nextRead, henv, hread v (by omega) (by omega)]
      | false =>
          -- between two accesses the registers hold the word
          simp [nextRead, henv, hengine, hdata]
  obtain ⟨hengine, hdata⟩ := hkept (r + 4) (by omega) (Nat.le_refl _)
  refine ⟨by simp [hstep, nextRead, hen], ?_⟩
  rw [State.dout, hengine, if_pos rfl, hdata]

/-- A write that clears the counters: it enables or resets the engine. -/
def HostAccess.restarts (h : HostAccess) : Bool :=
  h.writesControl && (h.din.getLsbD 1 || h.din.getLsbD 0)

theorem clEngineStats_succ (s : State) (i : Input) :
    (step s i).regs.clEngineStats = i.host.restarts := rfl

theorem time_succ (s : State) (i : Input) : (step s i).progress.time =
    if s.regs.clEngineStats then 0
    else if s.regs.enable && !s.progress.stop then s.progress.time + 1 else s.progress.time := rfl

end Manager

namespace Host

open Clocked Manager
open Engine (Input mgr mgrInput enables AtRest Calm statistic)
open Rq (Params)

section EngineTime

variable {P : Params} {memories : Manager.Memories} {inp : Nat → Input P} {c : Call} {a : Index}
  {q e l u : Nat}

/-- The register in cycle `t`. -/
def totalTime (memories : Manager.Memories) (inp : Nat → Input P) (t : Nat) : BitVec 64 :=
  (mgr memories inp t).progress.time

theorem totalTime_succ (t : Nat) : totalTime memories inp (t + 1) =
    if (mgr memories inp t).regs.clEngineStats then 0
    else if (mgr memories inp t).regs.enable && !(mgr memories inp t).progress.stop then
      totalTime memories inp t + 1
    else totalTime memories inp t :=
  time_succ _ _

theorem enables_of_restarts {h : HostAccess} (hno : h.restarts = false) : enables h = false := by
  rw [HostAccess.restarts, Bool.and_eq_false_iff] at hno
  rw [enables, Bool.and_eq_false_iff]
  rcases hno with hno | hno
  · exact .inl hno
  · exact .inr (Bool.or_eq_false_iff.mp hno).2

namespace Ends

/-- The enable clears the counter, and it counts until the end of the operation. -/
theorem time_at_end (h : Ends memories inp c a q e l u) :
    totalTime memories inp (l + 1) = BitVec.ofNat 64 (l - e - 1) := by
  have hlt := h.lt
  have hcleared : totalTime memories inp (e + 2) = 0 := by
    have hstats : (mgr memories inp (e + 1)).regs.clEngineStats = true := by
      rw [Engine.mgr_succ, clEngineStats_succ, Engine.mgrInput_host, HostAccess.restarts,
        h.enabling.1, h.enabling.2]
      simp
    rw [totalTime_succ, hstats]
    rfl
  -- one cycle of the operation after the other
  have hcount := interval_induction (a := e + 2) (b := l + 1)
    (p := fun v => totalTime memories inp v = BitVec.ofNat 64 (v - (e + 2))) (by
      rw [hcleared, Nat.sub_self]
      rfl) (by
      intro v hv hvl htime
      have hpos := h.position v hv (by omega)
      rw [totalTime_succ, hpos.stats, hpos.enable, hpos.stop, htime]
      have hnext : v + 1 - (e + 2) = v - (e + 2) + 1 := by omega
      rw [hnext, BitVec.ofNat_add]
      rfl)
  rw [hcount (l + 1) (by omega) (Nat.le_refl _)]
  congr 1
  omega

/-- Until the engine is started or reset again the counter stands still. -/
theorem time_kept (h : Ends memories inp c a q e l u) {t : Nat} (hut : u ≤ t)
    (hno : ∀ v, u ≤ v → v < t → (inp v).host.restarts = false) :
    totalTime memories inp t = BitVec.ofNat 64 (l - e - 1) := by
  have hlt := h.lt
  have hle := h.le
  have hquiet : ∀ v, e < v → v < t → (inp v).host.restarts = false := by
    intro v hev hvt
    rcases Nat.lt_or_ge v u with hvu | huv
    · rw [HostAccess.restarts, HostAccess.writesControl,
        HostAccess.writesRegister_of_reads (h.quiet v hev hvu)]
      rfl
    · exact hno v huv hvt
  have hcalm : ∀ v, l + 3 ≤ v → v ≤ t → AtRest memories inp v := by
    intro v hv hvt
    exact (h.calm.stays hv (fun x hx hxv => enables_of_restarts (hquiet x (by omega) (by omega)))).1.rest
  have hkept := interval_induction (a := l + 1) (b := t)
    (p := fun v => totalTime memories inp v = BitVec.ofNat 64 (l - e - 1)) h.time_at_end (by
      intro v hv hvt htime
      have hstats : (mgr memories inp v).regs.clEngineStats = false := by
        obtain ⟨x, rfl⟩ : ∃ x, v = x + 1 := ⟨v - 1, by omega⟩
        rw [Engine.mgr_succ, clEngineStats_succ, Engine.mgrInput_host]
        exact hquiet x (by omega) (by omega)
      -- `stop_r` holds the counter for one cycle, then the enable bit has fallen
      have hoff : ((mgr memories inp v).regs.enable && !(mgr memories inp v).progress.stop) = false := by
        rcases Nat.eq_or_lt_of_le hv with rfl | hv2
        · rw [h.stops, Bool.not_true, Bool.and_false]
        · rcases Nat.eq_or_lt_of_le hv2 with rfl | hv3
          · rw [h.disabled, Bool.false_and]
          · rw [(hcalm v hv3 (by omega)).enable, Bool.false_and]
      rw [totalTime_succ, hstats, hoff]
      exact htime)
  exact hkept t (by omega) (Nat.le_refl t)

end Ends

variable {calls : Nat → Call} {N : Nat} {q : Nat → Nat}

/-- After each call `total_time` reads as the number of cycles from the enable to the end of the
operation, and that is longer than the latency which the call has left behind its descriptor. -/
theorem session_time (h : Session memories inp calls q N) (ho : Numbered calls N) {n : Nat} (hn : n < N) :
    ∃ e start g l, q n ≤ e ∧ enables (inp e).host = true ∧ e + 1 < start ∧ l < q (n + 1) ∧
      Rq.Spans (Engine.rqRun memories inp) start g l ∧
      statistic memories inp .latency (q (n + 1)) (BitVec.ofNat 10 (n + 1)) = BitVec.ofNat 64 (l - g) ∧
      l - g < l - e - 1 ∧
      ∀ r, q (n + 1) ≤ r → (∀ v, q (n + 1) ≤ v → v < r + 4 → (inp v).host.restarts = false) →
        (inp r).host.en = true →
        (∀ v, r ≤ v → v ≤ r + 3 → (inp v).host.word = engineTableOffset + 2) →
          (mgr memories inp (r + 4)).read.ack = true ∧
            (mgr memories inp (r + 4)).dout = BitVec.ofNat 64 (l - e - 1) := by
  obtain ⟨e, l, hqe, hends⟩ := h.call ho hn (h.waits ho (by omega))
  obtain ⟨start, g, hstart, hspans⟩ := hends.spans
  have hle := hends.le
  have hgate := hspans.start_lt
  have hlate := hspans.lt_end
  have henables : enables (inp e).host = true := by
    rw [enables, hends.enabling.1, hends.enabling.2]
    rfl
  have hstored := (hends.stored .latency).trans (hends.latency hstart hspans)
  have hone : (1 : Index) = BitVec.ofNat 10 1 := rfl
  rw [hone, ← BitVec.ofNat_add] at hstored
  refine ⟨e, start, g, l, hqe, henables, hstart, by omega, hspans, hstored, by omega, ?_⟩
  intro r hqr hno hen hword
  refine engineRead_returns (m := mgr memories inp) (fun v => Engine.mgr_succ memories inp v) hen ?_
  intro v hv hvr
  have htime := hends.time_kept (t := v) (by omega) (fun x hx hxv => hno x hx (by omega))
  have hat : (mgrInput (Engine.sys memories inp v) (inp v)).host.word = engineTableOffset + 2 :=
    hword v hv hvr
  rw [engineRead, hat, if_neg (by decide), if_neg (by decide), if_pos rfl]
  exact congrArg some htime

end EngineTime

/-- The counter of the second iteration, read from cycle 60 on. -/
theorem session_time_two :
    ∃ e start g l, 30 ≤ e ∧ enables (sessionRun e).host = true ∧ e + 1 < start ∧ l < 60 ∧
      Rq.Spans (Engine.rqRun Engine.emptyMemories sessionRun) start g l ∧
      statistic Engine.emptyMemories sessionRun .latency 60 2 = BitVec.ofNat 64 (l - g) ∧
      l - g < l - e - 1 := by
  obtain ⟨e, start, g, l, hqe, hen, hstart, hl, hspans, hstored, hlt, -⟩ :=
    session_time sessionRun_session singleWrite_numbered (show 1 < 2 by decide)
  exact ⟨e, start, g, l, hqe, hen, hstart, hl, hspans, hstored, hlt⟩

end Host
end PcieBench
