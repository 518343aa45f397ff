import PcieBench.Board.Session
import PcieBench.Host.SessionMemory

/-!
# What a session leaves in the memory of the host

The payload of the memory writes is the counter of `app`.  When the program has polled the end of a call
and the last beat is out, the blocks of all calls so far are in memory, and the counter goes on from block
to block and from call to call.
-/

namespace PcieBench
namespace Board

open Clocked Tlp Memory
open Application (Item counterBlock word)
open Engine (enables)
open Host (Call Numbered)
open Rq (Params Placed placedStores)

/-! ## The counter in a sequence of operations -/

section Counter

variable {P : Params}

/-- The stores of a sequence of operations that count on from word `c` of the stream. -/
def counterStores : List (Placed P) → Nat → List (BitVec 64 × List (BitVec 8))
  | [], _ => []
  | o :: os, c =>
      (if o.cfg.capWrite then
        (List.range (o.cfg.writeBlocks P)).map (fun q => (o.base q,
          counterBlock o.cfg.sizeAtDescriptor.toNat
            (c + q * blockWords o.cfg.sizeAtDescriptor.toNat)))
      else []) ++ counterStores os (c + o.taken)

/-- Operations that find the words of `app` in the FIFO store the counter. -/
theorem placedStores_words {ops : List (Placed P)}
    (hdvd : ∀ o ∈ ops, o.cfg.sizeAtDescriptor.toNat % 4 = 0) {n : Nat}
    (hroom : (ops.map Placed.taken).sum ≤ n) (c : Nat) :
    placedStores ops ((List.range n).map (fun i => word (c + i))) = counterStores ops c := by
  induction ops generalizing n c with
  | nil =>
      rfl
  | cons o ops ih =>
      rw [List.map_cons, List.sum_cons] at hroom
      have hstores : o.stores ((List.range n).map (fun i => word (c + i))) =
          if o.cfg.capWrite then
            (List.range (o.cfg.writeBlocks P)).map (fun q => (o.base q,
              counterBlock o.cfg.sizeAtDescriptor.toNat
                (c + q * blockWords o.cfg.sizeAtDescriptor.toNat)))
          else [] := by
        cases hw : o.cfg.capWrite with
        | false =>
            exact (Placed.of_read hw).2.1 _
        | true =>
            obtain ⟨-, hblocks, htaken⟩ := Placed.of_write hw
            rw [hblocks, if_pos rfl]
            refine List.map_congr_left ?_
            intro q hq
            have hlt := List.mem_range.mp hq
            have hle : (q + 1) * blockWords o.cfg.sizeAtDescriptor.toNat ≤ o.taken := by
              rw [htaken]
              exact Nat.mul_le_mul_right _ hlt
            rw [Application.blockData_word (hdvd o List.mem_cons_self) (by omega)]
      rw [placedStores, counterStores, hstores, Application.drop_words c (by omega),
        ih (fun o' ho' => hdvd o' (List.mem_cons_of_mem _ ho')) (by omega)]

end Counter

/-! ## The session -/

section Session

variable {p : Bar0.Instance} {F : Fifo Item} {inp : Nat → Input} {calls : Nat → Call} {q : Nat → Nat}
  {N n u : Nat}

/-- What the requester side has accepted are the words of the counter, from the first one on. -/
theorem acceptedWords_eq (horder : F.InOrder) (hreset : NoUserReset p F inp) (t : Nat) :
    Rq.acceptedWords (rqRun p F inp) t =
      (List.range (Rq.acceptedWords (rqRun p F inp) t).length).map word := by
  have hwords := Application.acceptedWords_eq (rqRun p F inp) horder t
  rwa [rqRun_application hreset] at hwords

/-- After `n` calls, when the last beat is out, the requests that the core has taken have put the counter of
`app` into the blocks of all write operations, each one going on where the one before has stopped, and have
changed nothing else. -/
theorem session_counter (horder : F.InOrder) (h : Session p F inp calls q N) (ho : Numbered calls N)
    (hn : n ≤ N) (hok : ∀ k, k < n → (calls k).config.Storable p.params)
    (hlog : 4 ≤ p.params.log2MaxPayload) (hu : q n < u)
    (hno : ∀ v, q n ≤ v → v < u → ∀ x ∈ writesAt p F inp v, enables x = false)
    (hdrained : (sys p F inp u).rq.out.tvalid = false) :
    ∃ ops : List (Placed p.params),
      ops.map Placed.cfg = (List.range n).map (fun k => (calls k).config) ∧
        ∀ m, (receive m (Rq.beatsOf (collect (requests p F inp) 0 u))).mem =
          storeAll m (counterStores ops 0) := by
  have hquiet : ∀ v, q n + 1 ≤ v → v < u → enables (engineRun p F inp v).host = false := by
    intro v hv hvu
    obtain ⟨x, rfl⟩ : ∃ x, v = x + 1 := ⟨v - 1, by omega⟩
    exact enables_of_writes (hno x (by omega) (by omega))
  have hperforms := h.engine.performs_until ho hn hu hquiet
  rw [rqRun_engineRun h.reset] at hperforms
  have hall : ∀ cfg ∈ (List.range n).map (fun k => (calls k).config), cfg.Storable p.params := by
    intro cfg hcfg
    obtain ⟨k, hk, rfl⟩ := List.mem_map.mp hcfg
    exact hok k (List.mem_range.mp hk)
  obtain ⟨ops, hops, hroom, hmem⟩ := hperforms.stored hall hlog (by rwa [st_rqRun h.reset])
  refine ⟨ops, hops, ?_⟩
  intro m
  have hdvd : ∀ o ∈ ops, o.cfg.sizeAtDescriptor.toNat % 4 = 0 := by
    intro o ho
    refine (hall o.cfg ?_).dvd
    rw [← hops]
    exact List.mem_map_of_mem ho
  have hwords := placedStores_words hdvd hroom 0
  simp only [Nat.zero_add] at hwords
  rw [funext (requests_eq h.reset), hmem, acceptedWords_eq horder h.reset u, hwords]

end Session

/-- Two iterations of single writes of 64 bytes. -/
theorem session_counter_two : ∃ ops : List (Placed Bar0.cleared.params),
    ops.map Placed.cfg = [(Host.singleWrite 0).config, (Host.singleWrite 1).config] ∧
      ∀ m, (receive m (Rq.beatsOf (collect (requests Bar0.cleared queue boardRun) 0 73))).mem =
        storeAll m (counterStores ops 0) := by
  have hdrained : (sys Bar0.cleared queue boardRun 73).rq.out.tvalid = false := by decide +kernel
  have hquiet : ∀ v, 72 ≤ v → v < 73 → ∀ x ∈ writesAt Bar0.cleared queue boardRun v,
      enables x = false := by
    intro v hv hvu
    have hnone : Completer.decodedReq 0 (boardRun v).cq = .noReq := hostRequests_late hv
    have hno : ¬ ((sys Bar0.cleared queue boardRun v).bar0.completer.state = .waitForReq ∧
        Completer.decodedReq 0 (boardRun v).cq = .validWrReq) := by
      rw [hnone]
      simp
    rw [writesAt_eq, if_neg hno]
    simp
  have hok : ∀ k, k < 2 → (Host.singleWrite k).config.Storable Bar0.cleared.params := by
    intro k _
    -- the index of the descriptor is not part of the operation
    have hsame : (Host.singleWrite k).config = (Host.singleWrite 0).config := rfl
    rw [hsame]
    exact ⟨by decide, by decide, by decide, .inl (by decide)⟩
  have horder : queue.InOrder := Fifo.queue_inOrder 16 _
  exact session_counter horder boardRun_session Host.singleWrite_numbered
    (Nat.le_refl 2) hok (by decide) (show 36 * 2 < 73 by decide) hquiet hdrained

end Board
end PcieBench
