import Mathlib.Data.List.Basic

/-!
# Clocked machines and their traces

A synchronous circuit is a reset state and a next-state function that is applied at every rising
clock edge.  Its run on an input sequence `inp : Nat → ι` (one input per cycle) is the trace
`Machine.trace`: state `t` is what the registers hold during cycle `t`.

The module provides

* the invariant rules for traces, also for an invariant that holds exactly under a condition,
* ghost state that is updated along a trace without influencing it,
* the list of the events seen in an interval of cycles (`collect`).
-/

namespace PcieBench
namespace Clocked

/-! ## Machines -/

/-- A synchronous machine: the state after reset, and the registers' next values. -/
structure Machine (σ ι : Type) where
  reset : σ
  step : σ → ι → σ

namespace Machine

variable {σ ι γ : Type}

/-- The registers during cycle `t`, counted from the release of reset. -/
def trace (m : Machine σ ι) (inp : Nat → ι) : Nat → σ
  | 0 => m.reset
  | t + 1 => m.step (m.trace inp t) (inp t)

/-- Ghost state carried along a trace: it observes each cycle and drives nothing. -/
def ghost (m : Machine σ ι) (inp : Nat → ι) (init : γ) (observe : σ → ι → γ → γ) : Nat → γ
  | 0 => init
  | t + 1 => observe (m.trace inp t) (inp t) (m.ghost inp init observe t)

@[simp] theorem trace_zero (m : Machine σ ι) (inp : Nat → ι) :
    m.trace inp 0 = m.reset := rfl

@[simp] theorem ghost_zero (m : Machine σ ι) (inp : Nat → ι) (init : γ)
    (observe : σ → ι → γ → γ) :
    m.ghost inp init observe 0 = init := rfl

/-- A property of the reset state that every step preserves holds along every trace. -/
theorem trace_invariant (m : Machine σ ι) (inp : Nat → ι) (inv : σ → Prop)
    (hreset : inv m.reset) (hstep : ∀ s i, inv s → inv (m.step s i)) (t : Nat) :
    inv (m.trace inp t) := by
  induction t with
  | zero =>
      exact hreset
  | succ t ih =>
      exact hstep _ _ ih

/-- If a step leads from a good state to a good state exactly when it meets a condition, the states up to
`n` are good exactly if the steps before `n` meet the condition.  What holds along the trace in any case
may be used for the step. -/
theorem trace_good_iff (m : Machine σ ι) (inp : Nat → ι) (inv : σ → Prop) {good : σ → Prop}
    {ok : σ → ι → Prop} (hinv : ∀ t, inv (m.trace inp t)) (hreset : good m.reset)
    (hstep : ∀ s i, inv s → good s → (good (m.step s i) ↔ ok s i)) (n : Nat) :
    (∀ t ≤ n, good (m.trace inp t)) ↔ ∀ t < n, ok (m.trace inp t) (inp t) := by
  induction n with
  | zero =>
      refine iff_of_true ?_ (fun t ht => absurd ht (Nat.not_lt_zero t))
      intro t ht
      rw [Nat.le_zero.1 ht]
      exact hreset
  | succ n ih =>
      constructor
      · intro hgood t ht
        exact (hstep _ _ (hinv t) (hgood t (by omega))).1 (hgood (t + 1) (by omega))
      · intro hok t ht
        have hbefore := ih.2 (fun t ht => hok t (by omega))
        rcases Nat.lt_or_eq_of_le ht with hlt | rfl
        · exact hbefore t (by omega)
        · exact (hstep _ _ (hinv n) (hbefore n (Nat.le_refl n))).2 (hok n (by omega))

end Machine

/-! ## Intervals of cycles -/

/-- Induction over the cycles `a, a + 1, …, b` of a run. -/
theorem interval_induction {p : Nat → Prop} {a b : Nat} (hstart : p a)
    (hstep : ∀ t, a ≤ t → t < b → p t → p (t + 1)) :
    ∀ t, a ≤ t → t ≤ b → p t := by
  intro t hat htb
  obtain ⟨k, rfl⟩ := Nat.exists_eq_add_of_le hat
  clear hat
  induction k with
  | zero =>
      exact hstart
  | succ k ih =>
      exact hstep (a + k) (by omega) (by omega) (ih (by omega))

/-! ## Events -/

/-- The events of cycles `a, a + 1, …, a + n - 1`, in order. -/
def collect {α : Type} (event : Nat → List α) (a : Nat) : Nat → List α
  | 0 => []
  | n + 1 => collect event a n ++ event (a + n)

section Collect

variable {α : Type} (event : Nat → List α) (a : Nat)

@[simp] theorem collect_zero : collect event a 0 = [] := rfl

theorem collect_succ (n : Nat) :
    collect event a (n + 1) = collect event a n ++ event (a + n) := rfl

/-- What is collected over an interval is what is collected over its two parts. -/
theorem collect_add (m n : Nat) :
    collect event a (m + n) = collect event a m ++ collect event (a + m) n := by
  induction n with
  | zero =>
      simp
  | succ n ih =>
      rw [← Nat.add_assoc, collect_succ, ih, collect_succ, List.append_assoc, Nat.add_assoc]

/-- What is collected from cycle `a` to cycle `c` splits at every cycle in between. -/
theorem collect_split {b c : Nat} (hab : a ≤ b) (hbc : b ≤ c) :
    collect event a (c - a) = collect event a (b - a) ++ collect event b (c - b) := by
  have hadd := collect_add event a (b - a) (c - b)
  rwa [show b - a + (c - b) = c - a by omega, Nat.add_sub_cancel' hab] at hadd

/-- Cycles without events contribute nothing. -/
theorem collect_eq_nil (n : Nat) (h : ∀ k, k < n → event (a + k) = []) :
    collect event a n = [] := by
  induction n with
  | zero =>
      rfl
  | succ n ih =>
      rw [collect_succ, ih (fun k hk => h k (by omega)), h n (by omega), List.append_nil]

/-- What follows the events by one cycle is collected one cycle later. -/
theorem collect_delayed {later : Nat → List α} (h : ∀ t, later (t + 1) = event t) (n : Nat) :
    collect later (a + 1) n = collect event a n := by
  induction n with
  | zero =>
      rfl
  | succ n ih =>
      rw [collect_succ, collect_succ, ih, Nat.add_right_comm, h]

theorem collect_isPrefix {m n : Nat} (h : m ≤ n) : collect event a m <+: collect event a n := by
  obtain ⟨k, rfl⟩ := Nat.exists_eq_add_of_le h
  rw [collect_add]
  exact List.prefix_append _ _

theorem mem_collect {x : α} {n : Nat} : x ∈ collect event a n ↔ ∃ k, k < n ∧ x ∈ event (a + k) := by
  induction n with
  | zero =>
      simp
  | succ n ih =>
      rw [collect_succ, List.mem_append, ih]
      constructor
      · rintro (⟨k, hk, hx⟩ | hx)
        · exact ⟨k, by omega, hx⟩
        · exact ⟨n, by omega, hx⟩
      · rintro ⟨k, hk, hx⟩
        rcases Nat.eq_or_lt_of_le (Nat.le_of_lt_succ hk) with rfl | hlt
        · exact .inr hx
        · exact .inl ⟨k, hlt, hx⟩

/-- Where at most one thing happens in a cycle, the last thing collected has a cycle of its own. -/
theorem collect_eq_append_singleton {l : List α} {x : α} {n : Nat}
    (hone : ∀ t, (event t).length ≤ 1) (h : collect event a n = l ++ [x]) :
    ∃ k, k < n ∧ event (a + k) = [x] ∧ collect event a k = l ∧
      ∀ i, k < i → i < n → event (a + i) = [] := by
  induction n with
  | zero =>
      exact absurd (congrArg List.length h) (by simp)
  | succ n ih =>
      rw [collect_succ] at h
      rcases hlast : event (a + n) with - | ⟨y, ys⟩
      · -- nothing happens in the last cycle
        rw [hlast, List.append_nil] at h
        obtain ⟨k, hk, hx, hl, hnil⟩ := ih h
        refine ⟨k, by omega, hx, hl, ?_⟩
        intro i hki hin
        rcases Nat.eq_or_lt_of_le (Nat.le_of_lt_succ hin) with rfl | hlt
        · exact hlast
        · exact hnil i hki hlt
      · have hys : ys = [] := by
          have hlen := hone (a + n)
          rw [hlast, List.length_cons] at hlen
          exact List.eq_nil_of_length_eq_zero (by omega)
        subst hys
        rw [hlast] at h
        obtain ⟨hl, hx⟩ := List.append_inj' h rfl
        rw [List.cons.injEq] at hx
        refine ⟨n, by omega, by rw [hlast, hx.1], hl, ?_⟩
        intro i hni hin
        omega

/-- Where at most one thing happens in a cycle, the cycles are those in which it does and those in which
it does not. -/
theorem length_collect_add_countP (hone : ∀ t, (event t).length ≤ 1) (n : Nat) :
    (collect event a n).length + (List.range n).countP (fun k => (event (a + k)).isEmpty) = n := by
  induction n with
  | zero =>
      rfl
  | succ n ih =>
      have hlen := hone (a + n)
      rw [collect_succ, List.length_append, List.range_succ, List.countP_append, List.countP_singleton]
      cases hlast : event (a + n) with
      | nil =>
          simp only [List.length_nil, List.isEmpty_nil, if_true]
          omega
      | cons x xs =>
          rw [hlast] at hlen
          simp only [List.length_cons, List.isEmpty_cons, Bool.false_eq_true, if_false] at hlen ⊢
          omega

theorem map_collect {β : Type} (f : α → β) (n : Nat) :
    (collect event a n).map f = collect (fun t => (event t).map f) a n := by
  induction n with
  | zero =>
      rfl
  | succ n ih =>
      rw [collect_succ, collect_succ, List.map_append, ih]

/-- Something that keeps items: if in every cycle what leaves and what stays is what was there and what
comes in, then so it is over an interval. -/
theorem collect_balance (kept : Nat → List α) {leaves enters : Nat → List α}
    (hstep : ∀ t, leaves t ++ kept (t + 1) = kept t ++ enters t) (a n : Nat) :
    collect leaves a n ++ kept (a + n) = kept a ++ collect enters a n := by
  induction n with
  | zero =>
      simp
  | succ n ih =>
      calc
        collect leaves a (n + 1) ++ kept (a + (n + 1))
            = collect leaves a n ++ (leaves (a + n) ++ kept (a + n + 1)) := by
              rw [collect_succ, List.append_assoc, Nat.add_assoc]
        _ = collect leaves a n ++ (kept (a + n) ++ enters (a + n)) := by
              rw [hstep]
        _ = kept a ++ collect enters a (n + 1) := by
              rw [← List.append_assoc, ih, List.append_assoc, collect_succ]

end Collect

end Clocked
end PcieBench
