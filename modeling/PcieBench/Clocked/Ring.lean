import Mathlib.Data.List.Basic
import Mathlib.Logic.Function.Basic
import Mathlib.Data.Nat.ModEq

/-!
# Circular buffers

A memory of `n` slots used as a ring: item `k` of the sequence of everything ever written lies in
slot `k % n` until it is consumed.  `RingHolds` is the refinement relation between the memory and
that sequence; the lemmas say how writes and reads move it.
-/

namespace PcieBench
namespace Clocked

variable {α : Type} {n c : Nat} {slots : Nat → α} {q : List α}

/-- The items of `q` from position `c` on are in their slots. -/
def RingHolds (n : Nat) (slots : Nat → α) (q : List α) (c : Nat) : Prop :=
  ∀ k x, c ≤ k → q[k]? = some x → slots (k % n) = x

/-- Two positions less than a turn apart have different slots. -/
theorem mod_ne_of_lt_turn {k m : Nat} (hkm : k < m) (hm : m < k + n) : k % n ≠ m % n := by
  intro h
  have hdiv : n ∣ m - k := (Nat.modEq_iff_dvd' hkm.le).mp h
  have := Nat.le_of_dvd (by omega) hdiv
  omega

namespace RingHolds

/-- Nothing is stored in the empty sequence. -/
theorem nil (slots : Nat → α) (c : Nat) : RingHolds n slots [] c := by
  intro k x _ hx
  simp at hx

/-- Writing a slot past the end of the sequence, less than a turn after its first live item, keeps
what the ring holds. -/
theorem scribble (h : RingHolds n slots q c) {m : Nat} (hqm : q.length ≤ m) (hmc : m < c + n)
    (y : α) : RingHolds n (Function.update slots (m % n) y) q c := by
  intro k x hck hx
  have hkq : k < q.length := by
    obtain ⟨hk, -⟩ := List.getElem?_eq_some_iff.mp hx
    exact hk
  have hslot : k % n ≠ m % n := mod_ne_of_lt_turn (by omega) (by omega)
  rw [Function.update_of_ne hslot]
  exact h k x hck hx

/-- Writing the slot at the end of the sequence appends an item. -/
theorem push (h : RingHolds n slots q c) (hroom : q.length < c + n) (y : α) :
    RingHolds n (Function.update slots (q.length % n) y) (q ++ [y]) c := by
  intro k x hck hx
  rcases Nat.lt_trichotomy k q.length with hk | hk | hk
  · have hx' : q[k]? = some x := by
      rwa [List.getElem?_append_left hk] at hx
    exact h.scribble (Nat.le_refl _) hroom y k x hck hx'
  · subst hk
    have hxy : y = x := by
      simpa using hx
    rw [Function.update_self, hxy]
  · have : (q ++ [y])[k]? = none := by
      apply List.getElem?_eq_none
      simp
      omega
    rw [this] at hx
    cases hx

/-- Consuming items only forgets. -/
theorem consume (h : RingHolds n slots q c) {c' : Nat} (hc : c ≤ c') :
    RingHolds n slots q c' := by
  intro k x hck hx
  exact h k x (by omega) hx

/-- The slot of a live position holds its item. -/
theorem read (h : RingHolds n slots q c) {k : Nat} (hck : c ≤ k) (hk : k < q.length) :
    q[k]? = some (slots (k % n)) := by
  rw [h k q[k] hck (List.getElem?_eq_getElem hk)]
  exact List.getElem?_eq_getElem hk

end RingHolds

end Clocked
end PcieBench
