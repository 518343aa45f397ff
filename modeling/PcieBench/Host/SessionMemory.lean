import PcieBench.Host.Session
import PcieBench.Rq.SequenceMemory

/-!
# The memory of the host after a session

What the host finds in its memory when it has read a zero enable bit: the blocks of all calls so far, one
call after the other, filled with the C2S words in the order in which the engine has accepted them.
-/

namespace PcieBench
namespace Host

open Clocked Manager Tlp Memory
open Engine (Input mgr enables)
open Rq (Params Placed)

section Session

variable {P : Params} {memories : Manager.Memories} {inp : Nat → Input P} {calls : Nat → Call}
  {q : Nat → Nat} {N n u : Nat}

/-- Until it is enabled again the engine performs nothing behind the operations of the calls. -/
theorem Session.performs_until (h : Session memories inp calls q N) (ho : Numbered calls N) (hn : n ≤ N)
    (hu : q n ≤ u) (hno : ∀ v, q n ≤ v → v < u → enables (inp v).host = false) :
    Rq.Performs (Engine.rqRun memories inp) ((List.range n).map fun k => (calls k).config) 0 u := by
  have hidle : Rq.Performs (Engine.rqRun memories inp) [] (q n) u := by
    refine .done hu ?_
    intro v hv hvu
    exact ((h.waits ho hn).calm.stays hv (fun x hx hxv => hno x hx (by omega))).1.rest.idle
  have hall := (h.performs ho hn).append hidle
  rwa [List.append_nil] at hall

/-- After `n` calls, when the last beat is out, the receiver of the requests has stored the blocks of
the write operations of these calls, and each call has gone on with the C2S words where the one before
it has stopped. -/
theorem session_memory (h : Session memories inp calls q N) (ho : Numbered calls N) (hn : n ≤ N)
    (hok : ∀ k, k < n → (calls k).config.Storable P) (hlog : 4 ≤ P.log2MaxPayload) (hu : q n ≤ u)
    (hno : ∀ v, q n ≤ v → v < u → enables (inp v).host = false)
    (hdrained : (Rq.st (Engine.rqRun memories inp) u).out.tvalid = false) :
    ∃ ops : List (Placed P), ops.map Placed.cfg = (List.range n).map (fun k => (calls k).config) ∧
      ∀ m, (receive m (Rq.beatsOf (collect (Rq.emits (Engine.rqRun memories inp)) 0 u))).mem =
        storeAll m (Rq.placedStores ops (Rq.acceptedWords (Engine.rqRun memories inp) u)) := by
  refine (h.performs_until ho hn hu hno).memory ?_ hlog hdrained
  intro cfg hcfg
  obtain ⟨k, hk, rfl⟩ := List.mem_map.mp hcfg
  exact hok k (List.mem_range.mp hk)

end Session

/-- Two iterations of single writes of 64 bytes. -/
theorem session_memory_two : ∃ ops : List (Placed Rq.pcieController),
    ops.map Placed.cfg = [(singleWrite 0).config, (singleWrite 1).config] ∧
      ∀ m, (receive m (Rq.beatsOf (collect
          (Rq.emits (Engine.rqRun Engine.emptyMemories sessionRun)) 0 60))).mem =
        storeAll m (Rq.placedStores ops
          (Rq.acceptedWords (Engine.rqRun Engine.emptyMemories sessionRun) 60)) := by
  have hdrained : (Rq.st (Engine.rqRun Engine.emptyMemories sessionRun) 60).out.tvalid = false := by
    decide +kernel
  refine session_memory sessionRun_session singleWrite_numbered (show 2 ≤ 2 by decide) ?_ (by decide)
    (Nat.le_refl 60) (fun v hv hvu => absurd hvu (by omega)) hdrained
  intro k _
  -- the index of the descriptor is not part of the operation
  have hsame : (singleWrite k).config = (singleWrite 0).config := rfl
  rw [hsame]
  exact ⟨by decide, by decide, by decide, .inl (by decide)⟩

end Host
end PcieBench
