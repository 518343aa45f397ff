import PcieBench.Host.Session

/-!
# A call comes to its end

The driver polls the enable bit of a call without end, if it has to.  In an environment that withholds
nothing for ever the bit falls, so it does not have to.
-/

namespace PcieBench
namespace Host

open Clocked Manager
open Engine (Input mgr AtRest)
open Rq (Params)

section Progress

variable {P : Params} {memories : Manager.Memories} {inp : Nat → Input P} {c : Call} {q w e : Nat}
  {a : Index} {ldescriptor : BitVec 32}

/-- While the operation of a call runs from cycle `s` on its memory reads are completed. -/
def ReadsServed (inp : Nat → Input P) (memories : Manager.Memories) (cfg : Rq.Config) (q e : Nat) : Prop :=
  ∀ s, e + 1 < s → (∀ v, q ≤ v → v ≤ s → (Rq.st (Engine.rqRun memories inp) v).wrState = .idle) →
    (∀ v, s < v → (Rq.st (Engine.rqRun memories inp) v).wrState ≠ .idle) →
    (∀ v, s ≤ v → (Engine.rqRun memories inp v).cfg = cfg) →
    (0 < Rq.window (Engine.rqRun memories inp) (e + 1) ∧ 0 < P.windowSize) ∧
      ∀ t (j : Fin P.windowSize), e + 1 ≤ t → j.val < Rq.window (Engine.rqRun memories inp) (e + 1) →
        (Rq.st (Engine.rqRun memories inp) t).tags.current j = true →
          ∃ u, t ≤ u ∧ (inp u).completedTags j = true

/-- Behind the writes of a call the engine waits idle and is then busy with the operation of the call.  If
no part of it is left waiting for ever, the enable bit falls for good. -/
theorem Stores.falls (h : Stores inp ldescriptor c q w e) (hw : Waits memories inp q a)
    (hld : ldescriptor.setWidth 10 = a) (hslot : c.descriptor = a)
    (hafter : ∀ v, e < v → (inp v).host.writing = [])
    (htready : ∀ t, ∃ u, t ≤ u ∧ (inp u).axisRqTready = true) (hterm : c.config.Terminates P)
    (hdata : c.config.capWrite = true → ∀ t, ∃ u, t ≤ u ∧ (inp u).c2sTvalid = true)
    (hreads : c.config.capRead = true → ReadsServed inp memories c.config q e) :
    ∃ l, e < l ∧ ∀ v, l ≤ v → (mgr memories inp v).regs.enable = false := by
  have hq := h.queued hw hld (fun t ht _ => hafter t ht)
  have hin : Engine.InQueue a 1 a := ⟨0, by decide, by simp⟩
  have hcfg := h.config hw hq hslot
  obtain ⟨hready, hidle1⟩ := hq.ready
  obtain ⟨s, hes, hstart, hopen, hidle⟩ := hready.start hq hin htready
  -- from the first write to the start of the operation the core is idle
  have hbefore : ∀ v, q ≤ v → v ≤ s → (Rq.st (Engine.rqRun memories inp) v).wrState = .idle := by
    intro v hv hvs
    rcases Nat.lt_or_ge (e + 1) v with hlt | hge
    · exact hidle v hlt hvs
    · rcases Nat.eq_or_lt_of_le hge with rfl | hle
      · exact hidle1
      · exact (h.calm hw hv (by omega)).1.rest.idle
  obtain ⟨stop, t, -, -, -, hruns, hend, -⟩ := hstart.performs_of_fair hq hin (by omega) hopen
    (fun hon hbusy hstable => by
      rw [hcfg] at hstable ⊢
      have hserved := fun hcap => hreads hcap s (by omega) hbefore hbusy hstable
      exact ⟨htready, hdata, fun t ht => hq.window_eq ht (hon t), fun hcap => (hserved hcap).1,
        fun hcap => (hserved hcap).2⟩)
    (by rw [hcfg]; exact hterm)
  obtain ⟨hrest, -, -⟩ := hruns.finish hq hend (hruns.eq_lastIndex hq)
  have het := hruns.lt
  -- nothing enables the engine again
  refine ⟨t + 2, by omega, fun v hv => ?_⟩
  exact (hrest.stays hv (fun x hx _ => Engine.enables_of_reads (hafter x (by omega)))).1.enable

/-! ## The next call of a session -/

variable {calls : Nat → Call} {start : Nat → Nat} {N n : Nat}

/-- A session stays one without its later calls. -/
theorem Numbered.mono {M : Nat} (ho : Numbered calls M) (hN : N ≤ M) : Numbered calls N :=
  ⟨fun k hk => ho.enable k (by omega), fun k hk => ho.index k (by omega)⟩

/-- Behind a session the writes of the next call are taken up, and the enable bit falls. -/
theorem Session.falls (h : Session memories inp calls start N) (ho : Numbered calls (N + 1))
    (hwrites : collect (Engine.hostWrites inp) (start N) n = accesses calls N)
    (hafter : ∀ v, start N + n ≤ v → (inp v).host.writing = [])
    (htready : ∀ t, ∃ u, t ≤ u ∧ (inp u).axisRqTready = true)
    (hterm : (calls N).config.Terminates P)
    (hdata : (calls N).config.capWrite = true → ∀ t, ∃ u, t ≤ u ∧ (inp u).c2sTvalid = true)
    (hreads : (calls N).config.capRead = true → ∀ e, start N ≤ e →
      ReadsServed inp memories (calls N).config (start N) e) :
    ∃ l, start N < l ∧ ∀ v, l ≤ v → (mgr memories inp v).regs.enable = false := by
  have hwaits := h.waits (ho.mono (Nat.le_succ N)) (Nat.le_refl N)
  have hlast : N < N + 1 := Nat.lt_succ_self N
  have haccesses : collect (Engine.hostWrites inp) (start N) n =
      (calls N).writes ((sys calls N).driver.ldescriptor % 1024) :=
    hwrites.trans (accesses_of_enable (ho.enable N hlast) _)
  obtain ⟨w, e, hs, hen, hquiet⟩ := stores_of_writes h.apart haccesses
  have hqw := hs.first
  have hwe := hs.lt
  -- behind the enable there is no write, neither of this call nor of a later one
  have hsilent : ∀ v, e < v → (inp v).host.writing = [] := by
    intro v hev
    rcases Nat.lt_or_ge v (start N + n) with hlt | hge
    · exact hquiet v hev hlt
    · exact hafter v hge
  obtain ⟨l, hel, hoff⟩ := hs.falls hwaits (lastIndex_eq calls N) (ho.descriptor hlast) hsilent htready hterm
    hdata (fun hcap => hreads hcap e (by omega))
  exact ⟨l, by omega, hoff⟩

end Progress

end Host
end PcieBench
