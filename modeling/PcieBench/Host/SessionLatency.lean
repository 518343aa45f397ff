import PcieBench.Host.Session
import PcieBench.Rq.LineRate

/-!
# The latency that a benchmark of writes reports

The program reads the latency of each call from the slot behind its descriptor.  For a write this number
has two parts: the beats that the descriptor asks for, and the cycles in which the core or the C2S FIFO
kept the engine waiting.
-/

namespace PcieBench

/-! ## The operation of a call -/

namespace Rq

variable {P : Params} {inp : Run P} {cfg : Config} {t u start g l : Nat}

/-- Where one operation is performed, the one that is seen to start and to end is this operation. -/
theorem Performs.operation (h : Performs inp [cfg] t u) (hs : Spans inp start g l) (hts : t ≤ start)
    (hlu : l ≤ u) : Operation inp cfg start l ∧ ((st inp l).wrState = .idle →
      BuiltFrom P cfg (RandomOffset cfg) (Operation.beats inp start l)) := by
  cases h with
  | @next _ _ _ first stop _ le idle operation busy ended built rest =>
      have hlt := operation.start_lt
      have hsl := hs.start_lt_end
      have hrest : ∀ v, stop ≤ v → v ≤ u → (st inp v).wrState = .idle := by
        cases rest with
        | done _ hidle =>
            exact hidle
      -- both start where the FSM leaves its idle state
      have hfirst : first = start := by
        rcases Nat.lt_trichotomy first start with hlt' | heq | hgt
        · rcases Nat.lt_or_ge start stop with hin | hout
          · exact absurd hs.idle (busy start hlt' hin)
          · exact absurd (hrest (start + 1) (by omega) (by omega)) hs.leaves
        · exact heq
        · exact absurd (idle (start + 1) (by omega) (by omega)) hs.leaves
      subst hfirst
      have hstop : l ≤ stop := by
        by_contra hlt'
        exact hs.busy stop hlt (by omega) ended
      refine ⟨operation.shorten hsl hstop, fun hidle => ?_⟩
      have hlast : l = stop := by
        by_contra hne
        exact busy l hsl (by omega) hidle
      rwa [hlast]

end Rq

namespace Host

open Clocked Manager
open Bar0 (StatField)
open Engine (Input mgr measurement)
open Rq (Params)

section Session

variable {P : Params} {memories : Manager.Memories} {inp : Nat → Input P} {calls : Nat → Call}
  {q : Nat → Nat} {N n k : Nat}

/-- For the next 1023 calls the latency that is read for a call of writes is the number of beats of its
descriptor and of the cycles without a beat.  In each of these the core was not ready, or one cycle before
the C2S FIFO did not offer a full beat; where neither happens the latency is the number of beats. -/
theorem session_latency (h : Session memories inp calls q N) (ho : Numbered calls N) (hkn : k < n)
    (hnk : n ≤ k + 1024) (hn : n ≤ N) (hok : (calls k).config.Storable P)
    (hw : (calls k).dd.isC2sOp = true) (hr : (calls k).dd.isS2cOp = false) :
    ∃ start g l, q k < start ∧ l < q (k + 1) ∧ Rq.Spans (Engine.rqRun memories inp) start g l ∧
      (∃ value : StatField → BitVec 64, Shows memories inp (q n) (BitVec.ofNat 10 (k + 1)) value ∧
        value .latency = BitVec.ofNat 64 ((calls k).config.writeBeats P +
          Rq.stallCount (Engine.rqRun memories inp) g l)) ∧
      (∀ u, g ≤ u → u < l → Rq.loads (Engine.rqRun memories inp) u = [] →
        (inp u).axisRqTready = false ∨ ¬ Rq.offersBeat (Engine.rqRun memories inp) (u - 1)) ∧
      ((∀ u, g ≤ u → u < l → (inp u).axisRqTready = true ∧
          Rq.offersBeat (Engine.rqRun memories inp) (u - 1)) →
        Rq.stallCount (Engine.rqRun memories inp) g l = 0) := by
  obtain ⟨e, l, hqe, hends⟩ := h.call ho (show k < N by omega) (h.waits ho (by omega))
  obtain ⟨start, g, hstart, hspans⟩ := hends.spans
  have hle := hends.le
  obtain ⟨op, hbuilt⟩ := hends.performs.operation hspans (by omega) (by omega)
  have hidle := hspans.idle_at_end op hr
  obtain ⟨-, hstalls, hfull⟩ := hspans.write_latency op hok hw hr (hbuilt hidle)
  refine ⟨start, g, l, by omega, by omega, hspans, ⟨_, h.shows_call ho hkn hnk hn hends, ?_⟩, hstalls,
    hfull⟩
  rw [hends.latency hstart hspans, hspans.beats_add_stalls op hok hw hr (hbuilt hidle)]

end Session

open Engine (emptyMemories)

/-- The core is always ready and the FIFO always full: 64 bytes are three beats. -/
theorem session_latency_two : ∃ value : StatField → BitVec 64,
    Shows emptyMemories sessionRun 60 1 value ∧ value .latency = 3 := by
  have hok : (singleWrite 0).config.Storable Rq.pcieController :=
    ⟨by decide, by decide, by decide, .inl (by decide)⟩
  obtain ⟨start, g, l, -, -, -, ⟨value, hshows, hlatency⟩, -, hfull⟩ :=
    session_latency sessionRun_session singleWrite_numbered (show 0 < 2 by decide) (by decide)
      (Nat.le_refl 2) hok rfl rfl
  have hnone := hfull (fun u _ _ => ⟨rfl, rfl, rfl⟩)
  have hbeats : (singleWrite 0).config.writeBeats Rq.pcieController = 3 := by decide
  rw [hnone, hbeats] at hlatency
  exact ⟨value, hshows, hlatency⟩

end Host
end PcieBench
