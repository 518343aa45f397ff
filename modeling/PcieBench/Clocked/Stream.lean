import PcieBench.Clocked.Trace

/-!
# Ready/valid streams

An output register with a ready/valid handshake keeps its value while the consumer is not ready and
takes a new one (or becomes empty) when it is.  Whatever the consumer does, the items it receives are
the items that were loaded, in the same order, delayed by the one item the register may still hold.
-/

namespace PcieBench
namespace Clocked

section RegisterSlice

variable {α : Type} (valid ready : Nat → Bool) (value : Nat → α)

/-- The item waiting in the register during cycle `t`, if there is one. -/
def held (t : Nat) : List α :=
  if valid t then [value t] else []

/-- The item handed over in cycle `t`. -/
def transferred (t : Nat) : List α :=
  if valid t && ready t then [value t] else []

/-- The item that cycle `t` puts into the register. -/
def loaded (t : Nat) : List α :=
  if ready t && valid (t + 1) then [value (t + 1)] else []

variable {valid ready value}

/-- One cycle: what is handed over and what stays is what was there and what came in. -/
theorem transferred_append_held (hold : ∀ t, ready t = false →
    valid (t + 1) = valid t ∧ value (t + 1) = value t) (t : Nat) :
    transferred valid ready value t ++ held valid value (t + 1) =
      held valid value t ++ loaded valid ready value t := by
  cases hr : ready t with
  | true =>
      simp [transferred, held, loaded, hr]
  | false =>
      obtain ⟨hvalid, hvalue⟩ := hold t hr
      simp [transferred, held, loaded, hr, hvalid, hvalue]

/-- The transfers of an interval, followed by the item still held, are the item held at its start
followed by the loads of the interval. -/
theorem collect_transferred_append_held (hold : ∀ t, ready t = false →
    valid (t + 1) = valid t ∧ value (t + 1) = value t) (a n : Nat) :
    collect (transferred valid ready value) a n ++ held valid value (a + n) =
      held valid value a ++ collect (loaded valid ready value) a n :=
  collect_balance (held valid value) (transferred_append_held hold) a n

end RegisterSlice

end Clocked
end PcieBench
