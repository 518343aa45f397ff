import PcieBench.Clocked.Trace
import Mathlib.Logic.Function.Iterate

/-!
# Machines that wait

A machine that depends on its environment waits in some cycles and goes on in the others.  What it
sends is independent of the waiting if every state stands for a state of a generator without inputs,
such that a cycle either leaves that state alone and sends nothing or makes one step of the generator
and sends its output.  Two runs over the same generator then differ only in how far they have come.
-/

namespace PcieBench
namespace Clocked

/-! ## Sequences with a rule -/

/-- The first members of a sequence. -/
theorem map_range_isPrefix {β : Type} (f : Nat → β) {m n : Nat} (h : m ≤ n) :
    (List.range m).map f <+: (List.range n).map f := by
  have htake := List.take_prefix m (List.range n)
  rw [List.take_range, Nat.min_eq_left h] at htake
  exact htake.map f

section Generators

variable {A B : Type} (next : A → A) (out : A → B)

/-- The first `n` outputs of a generator that starts in `a`. -/
def outputs (a : A) (n : Nat) : List B := (List.range n).map (fun k => out (next^[k] a))

theorem outputs_succ (a : A) (n : Nat) :
    outputs next out a (n + 1) = outputs next out a n ++ [out (next^[n] a)] := by
  rw [outputs, List.range_succ, List.map_append]
  rfl

/-! ## Stuttering -/

/-- Every cycle up to `stop` leaves the state of the generator alone and has no event, or makes one step
of the generator and has its output as event; `stands t a` says that cycle `t` stands for state `a`. -/
def Stutters (stands : Nat → A → Prop) (event : Nat → List B) (stop : Nat) : Prop :=
  ∀ t a, t < stop → stands t a →
    (stands (t + 1) a ∧ event t = []) ∨ (stands (t + 1) (next a) ∧ event t = [out a])

variable {next out} {stands stands' : Nat → A → Prop} {event event' : Nat → List B}
  {stop stop' : Nat} {a : A}

/-- A run over a generator has sent the generator's first outputs. -/
theorem Stutters.collect_eq (h : Stutters next out stands event stop) (hstart : stands 0 a) {t : Nat}
    (ht : t ≤ stop) :
    ∃ n, stands t (next^[n] a) ∧ collect event 0 t = outputs next out a n := by
  induction t with
  | zero =>
      exact ⟨0, hstart, rfl⟩
  | succ t ih =>
      obtain ⟨n, hstands, hcollect⟩ := ih (by omega)
      rw [collect_succ, Nat.zero_add, hcollect]
      rcases h t _ (by omega) hstands with ⟨hsame, hnone⟩ | ⟨hnext, hout⟩
      · refine ⟨n, hsame, ?_⟩
        rw [hnone, List.append_nil]
      · refine ⟨n + 1, ?_, ?_⟩
        · rw [Function.iterate_succ_apply']
          exact hnext
        · rw [hout, outputs_succ]

/-- Two runs over the same generator have sent the same, but for the one that has come further. -/
theorem Stutters.isPrefix_or_isPrefix (h : Stutters next out stands event stop) (hstart : stands 0 a)
    (h' : Stutters next out stands' event' stop') (hstart' : stands' 0 a) {t u : Nat} (ht : t ≤ stop)
    (hu : u ≤ stop') :
    collect event 0 t <+: collect event' 0 u ∨ collect event' 0 u <+: collect event 0 t := by
  obtain ⟨m, -, hm⟩ := h.collect_eq hstart ht
  obtain ⟨n, -, hn⟩ := h'.collect_eq hstart' hu
  rw [hm, hn]
  rcases Nat.le_total m n with hle | hle
  · exact .inl (map_range_isPrefix _ hle)
  · exact .inr (map_range_isPrefix _ hle)

end Generators

end Clocked
end PcieBench
