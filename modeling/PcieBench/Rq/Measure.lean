import PcieBench.Clocked.Counter
import PcieBench.Rq.Fsm

/-!
# When the measurements of an operation run

`stop_latency` gates all counters of an operation.  It falls with the first state that has the output
register at its disposal and rises again with `end_of_operation`; `update_latency` follows one cycle
after the end.  Only the capabilities have to stay: the table of descriptors may change meanwhile.
-/

namespace PcieBench
namespace Rq

open Clocked

section Measure

variable {P : Params}

/-- A cycle in which a state with a header has the output register at its disposal. -/
def opensGate (inp : Run P) (t : Nat) : Prop :=
  ((st inp t).wrState = .initWrite ∨ (st inp t).wrState = .initRead) ∧ (inp t).axisRqTready = true

instance (inp : Run P) (t : Nat) : Decidable (opensGate inp t) :=
  inferInstanceAs (Decidable (_ ∧ _))

/-- The operation that starts in the idle cycle `start`, first has the output register at its disposal
in cycle `s` and ends in cycle `t`. -/
structure Spans (inp : Run P) (start s t : Nat) : Prop where
  idle : (st inp start).wrState = .idle
  leaves : (st inp (start + 1)).wrState ≠ .idle
  start_lt : start < s
  opens : opensGate inp s
  first : ∀ u, start < u → u < s → ¬ opensGate inp u
  start_lt_end : start < t
  ends : (st inp t).endOfOperation = true
  running : ∀ u, start < u → u < t → (st inp u).endOfOperation = false

/-- Such an operation, with the same capabilities until cycle `s`. -/
structure Measured (inp : Run P) (start s t : Nat) : Prop extends Spans inp start s t where
  capabilities : ∀ u, start ≤ u → u ≤ s →
    (inp u).cfg.capWrite = (inp start).cfg.capWrite ∧ (inp u).cfg.capRead = (inp start).cfg.capRead

/-! ## The gate -/

/-- The guard under which the gate opens. -/
def clearsStop (s : State P) (i : Input P) : Bool :=
  (decide (s.wrState = .initWrite) && i.cfg.capWrite && i.axisRqTready) ||
    (decide (s.wrState = .initRead) && i.cfg.capRead && i.axisRqTready)

theorem stop_succ (s : State P) (i : Input P) :
    (step s i).latency.stop = if clearsStop s i then false
      else if s.endOfOperation then true else s.latency.stop := by
  simp only [step_latency, nextLatency, clearsStop, Bool.or_eq_true]
  by_cases hw : (decide (s.wrState = .initWrite) && i.cfg.capWrite && i.axisRqTready) = true
  · simp only [if_pos hw, if_pos (Or.inl hw)]
  · simp [hw]

/-- An operation does not end in a state with a header. -/
theorem ne_header_of_endOfOperation {s : State P} (h : s.endOfOperation = true) :
    s.wrState ≠ .initWrite ∧ s.wrState ≠ .initRead := by
  rcases idle_or_waitRead_of_end h with hs | hs <;> simp [hs]

theorem clearsStop_of_ne {s : State P} (i : Input P)
    (h : s.wrState ≠ .initWrite ∧ s.wrState ≠ .initRead) : clearsStop s i = false := by
  simp [clearsStop, h.1, h.2]

/-- The update follows the end of the operation. -/
theorem update_succ (s : State P) (i : Input P) : (step s i).latency.update = s.endOfOperation := by
  simp only [step_latency, nextLatency]
  cases hend : s.endOfOperation with
  | false =>
      simp
  | true =>
      obtain ⟨hw, hr⟩ := ne_header_of_endOfOperation hend
      simp [hw, hr]

/-- Between two operations the gate is closed. -/
theorem stop_of_idle (inp : Run P) (t : Nat) (hs : (st inp t).wrState = .idle)
    (hend : (st inp t).endOfOperation = false) : (st inp t).latency.stop = true := by
  induction t with
  | zero =>
      rfl
  | succ t ih =>
      rw [st_succ, stop_succ]
      by_cases hidle : (st inp t).wrState = .idle
      · rw [clearsStop_of_ne _ (by simp [hidle])]
        cases hnow : (st inp t).endOfOperation with
        | true =>
            simp
        | false =>
            simp [ih hidle hnow]
      · -- the operation that led here has just ended
        rcases endOfOperation_of_leaving hidle hs with hnow | ⟨-, hnext⟩
        · rw [clearsStop_of_ne _ (ne_header_of_endOfOperation hnow), hnow]
          simp
        · rw [← st_succ, hend] at hnext
          cases hnext

/-! ## The gate during an operation -/

namespace Spans

variable {inp : Run P} {start s t : Nat}

/-- The guard of the start and the state it leads to. -/
theorem begins (h : Spans inp start s t) :
    (inp start).axisRqTready = true ∧ (st inp start).endOfOperation = false ∧
      (((inp start).cfg.capWrite = true ∧ (st inp (start + 1)).wrState = .initWrite) ∨
        ((inp start).cfg.capRead = true ∧ (st inp (start + 1)).wrState = .initRead)) := by
  obtain ⟨hready, hend, hwrite | ⟨-, hread⟩⟩ := begins_of_leaves h.idle h.leaves
  · exact ⟨hready, hend, .inl hwrite⟩
  · exact ⟨hready, hend, .inr hread⟩

/-- Until the next operation starts, `end_of_operation` marks the end of this one and nothing else. -/
theorem endOfOperation_iff (h : Spans inp start s t) {stop : Nat}
    (hrest : ∀ u, t < u → u < stop → (st inp (u + 1)).wrState = .idle) {u : Nat} (hsu : start ≤ u)
    (hus : u ≤ stop) : (st inp u).endOfOperation = true ↔ u = t := by
  constructor
  · intro hend
    rcases Nat.lt_trichotomy u t with hlt | heq | hgt
    · rcases Nat.eq_or_lt_of_le hsu with rfl | hsu
      · rw [h.begins.2.1] at hend
        cases hend
      · rw [h.running u hsu hlt] at hend
        cases hend
    · exact heq
    · -- behind the end of the operation the FSM is idle
      obtain ⟨v, rfl⟩ : ∃ v, u = v + 1 := ⟨u - 1, by omega⟩
      rcases Nat.eq_or_lt_of_le (Nat.le_of_lt_succ hgt) with rfl | htv
      · rw [st_succ, (endOfOperation_once h.ends (inp t)).2] at hend
        cases hend
      · have hidle : (st inp v).wrState = .idle := by
          obtain ⟨w, rfl⟩ : ∃ w, v = w + 1 := ⟨v - 1, by omega⟩
          rcases Nat.eq_or_lt_of_le (Nat.le_of_lt_succ htv) with rfl | htw
          · exact (endOfOperation_once h.ends (inp t)).1
          · exact hrest w htw (by omega)
        rw [st_succ, endOfOperation_of_idle hidle (hrest v htv hus)] at hend
        cases hend
  · rintro rfl
    exact h.ends

/-- Until cycle `s` the FSM waits in its first state, with the gate closed. -/
theorem waits (h : Spans inp start s t) {u : Nat} (hu : start < u) (hus : u ≤ s) :
    (st inp u).wrState = (st inp (start + 1)).wrState ∧ (st inp u).latency.stop = true := by
  obtain ⟨-, hend, hbegin⟩ := h.begins
  have hheader : (st inp (start + 1)).wrState = .initWrite ∨
      (st inp (start + 1)).wrState = .initRead := by
    rcases hbegin with ⟨-, hw⟩ | ⟨-, hr⟩
    · exact .inl hw
    · exact .inr hr
  induction u, hu using Nat.le_induction with
  | base =>
      refine ⟨rfl, ?_⟩
      rw [st_succ, stop_succ, clearsStop_of_ne _ (by simp [h.idle]), hend,
        stop_of_idle inp start h.idle hend]
      simp
  | succ u hu ih =>
      -- cycle `s` is the first one with `TREADY` in a header state
      obtain ⟨hstate, hstop⟩ := ih (by omega)
      have hready : (inp u).axisRqTready = false := by
        by_contra hready
        rw [Bool.not_eq_false] at hready
        exact h.first u hu hus ⟨by rw [hstate]; exact hheader, hready⟩
      constructor
      · rw [← hstate, st_succ, step_wrState, nextWrState]
        rw [← hstate] at hheader
        rcases hheader with hs | hs <;> simp [hs, hready]
      · rw [st_succ, stop_succ, hstop]
        simp [clearsStop, hready]

/-- The operation ends behind cycle `s`. -/
theorem lt_end (h : Spans inp start s t) : s < t := by
  by_contra hle
  have hheader := ne_header_of_endOfOperation h.ends
  rw [(h.waits h.start_lt_end (by omega)).1] at hheader
  rcases h.begins.2.2 with ⟨-, hs⟩ | ⟨-, hs⟩
  · exact hheader.1 hs
  · exact hheader.2 hs

end Spans

namespace Measured

variable {inp : Run P} {start s t : Nat}

/-- The gate is closed in cycle `s` and open until the end. -/
theorem gate (h : Measured inp start s t) :
    (st inp s).latency.stop = true ∧ ∀ u, s < u → u ≤ t → (st inp u).latency.stop = false := by
  refine ⟨(h.waits h.start_lt (Nat.le_refl s)).2, ?_⟩
  intro u hsu
  induction u, hsu using Nat.le_induction with
  | base =>
      intro _
      -- the guard asks for the capability again, which has not changed since the start
      have hclears : clearsStop (st inp s) (inp s) = true := by
        have hstate := (h.waits h.start_lt (Nat.le_refl s)).1
        obtain ⟨hwrite, hread⟩ := h.capabilities s h.start_lt.le (Nat.le_refl s)
        have hready := h.opens.2
        rcases h.begins.2.2 with ⟨hcap, hs⟩ | ⟨hcap, hs⟩
        · simp [clearsStop, hstate, hs, hwrite, hcap, hready]
        · simp [clearsStop, hstate, hs, hread, hcap, hready]
      rw [st_succ, stop_succ, if_pos hclears]
  | succ u hsu ih =>
      intro hut
      have hstart := h.start_lt
      rw [st_succ, stop_succ, h.running u (by omega) (by omega), ih (by omega)]
      simp

/-- A counter behind the gate shows, in the cycle of the update, what it has added up. -/
theorem counted (h : Measured inp start s t) {x y : Nat → BitVec 64}
    (hstep : ∀ u, x (u + 1) = if (st inp u).latency.stop then 0 else x u + y u) :
    x (t + 1) = ∑ u ∈ Finset.Ioc s t, y u :=
  gated_sum hstep h.gate.1 h.lt_end.le h.gate.2

/-- `current_latency_r` in the cycle of the update. -/
theorem current_eq (h : Measured inp start s t) :
    (st inp (t + 1)).latency.current = BitVec.ofNat 64 (t - s) := by
  have hsum := h.counted (x := fun u => (st inp u).latency.current) (y := fun _ => BitVec.ofNat 64 1)
    (fun _ => rfl)
  rw [hsum, sum_ofNat, ← Finset.card_eq_sum_ones, Nat.card_Ioc]

end Measured

end Measure

end Rq
end PcieBench
