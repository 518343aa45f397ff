import PcieBench.Clocked.Stream

/-!
# FIFOs with ready/valid handshakes

A FIFO is a clocked machine with a handshake at both ends.  What a user of it relies on is `InOrder`: the
items that have come out are the first ones of those that have gone in, on every run.  A bounded queue is
such a FIFO.
-/

namespace PcieBench
namespace Clocked

/-- The signals that drive a FIFO in one cycle. -/
structure FifoInput (α : Type) where
  inValid : Bool
  inValue : α
  outReady : Bool

/-- A FIFO: its registers and the signals that it drives. -/
structure Fifo (α : Type) where
  State : Type
  machine : Machine State (FifoInput α)
  inReady : State → Bool
  outValid : State → Bool
  outValue : State → α

namespace Fifo

variable {α : Type} (F : Fifo α) (inp : Nat → FifoInput α)

/-- The registers in cycle `t`. -/
def st (t : Nat) : F.State := F.machine.trace inp t

/-- The item that goes in in cycle `t`. -/
def enters : Nat → List α :=
  transferred (fun t => (inp t).inValid) (fun t => F.inReady (F.st inp t)) (fun t => (inp t).inValue)

/-- The item that comes out in cycle `t`. -/
def leaves : Nat → List α :=
  transferred (fun t => F.outValid (F.st inp t)) (fun t => (inp t).outReady)
    (fun t => F.outValue (F.st inp t))

/-- What has come out is the first part of what has gone in. -/
def InOrder : Prop := ∀ inp n, collect (F.leaves inp) 0 n <+: collect (F.enters inp) 0 n

/-- A FIFO that is always offered an item shows one again and again. -/
def Live : Prop :=
  ∀ inp, (∀ t, (inp t).inValid = true) → ∀ t, ∃ u, t ≤ u ∧ F.outValid (F.st inp u) = true

/-- A queue of at most `depth` items; `idle` is on the output while it is empty. -/
def queue (depth : Nat) (idle : α) : Fifo α where
  State := List α
  machine :=
    { reset := []
      step := fun q i =>
        (if i.outReady then q.drop 1 else q) ++
          (if i.inValid && decide (q.length < depth) then [i.inValue] else []) }
  inReady q := decide (q.length < depth)
  outValid q := !q.isEmpty
  outValue q := q.headD idle

/-- The head of a queue goes if there is one. -/
theorem queue_leaves (q : List α) (idle : α) (ready : Bool) :
    (if !q.isEmpty && ready then [q.headD idle] else []) ++ (if ready then q.drop 1 else q) = q := by
  cases q with
  | nil =>
      cases ready <;> rfl
  | cons x q =>
      cases ready <;> rfl

/-- The items in the queue in cycle `t`. -/
def contents (depth : Nat) (idle : α) (t : Nat) : List α := (queue depth idle).st inp t

theorem contents_succ (depth : Nat) (idle : α) (t : Nat) :
    contents inp depth idle (t + 1) =
      (if (inp t).outReady then (contents inp depth idle t).drop 1 else contents inp depth idle t) ++
        (queue depth idle).enters inp t := rfl

theorem queue_inOrder (depth : Nat) (idle : α) : (queue depth idle).InOrder := by
  intro inp n
  have hstep : ∀ t, (queue depth idle).leaves inp t ++ contents inp depth idle (t + 1) =
      contents inp depth idle t ++ (queue depth idle).enters inp t := by
    intro t
    rw [contents_succ, ← List.append_assoc]
    congr 1
    exact queue_leaves _ idle _
  refine ⟨contents inp depth idle (0 + n), ?_⟩
  rw [collect_balance (contents inp depth idle) hstep]
  rfl

theorem queue_live {depth : Nat} (hdepth : 0 < depth) (idle : α) : (queue depth idle).Live := by
  intro inp hvalid t
  cases hempty : contents inp depth idle t with
  | nil =>
      -- an empty queue takes the item that it is offered
      refine ⟨t + 1, Nat.le_succ t, ?_⟩
      have hnext : contents inp depth idle (t + 1) = [(inp t).inValue] := by
        have hroom : (queue depth idle).inReady (contents inp depth idle t) = true := by
          rw [hempty]
          exact decide_eq_true hdepth
        have henters : (queue depth idle).enters inp t = [(inp t).inValue] := by
          rw [enters, transferred, hvalid t]
          exact if_pos hroom
        rw [contents_succ, henters, hempty]
        cases (inp t).outReady <;> rfl
      have hshown : (queue depth idle).outValid (contents inp depth idle (t + 1)) = true := by
        rw [hnext]
        rfl
      exact hshown
  | cons x xs =>
      refine ⟨t, Nat.le_refl t, ?_⟩
      have hshown : (queue depth idle).outValid (contents inp depth idle t) = true := by
        rw [hempty]
        rfl
      exact hshown

end Fifo

end Clocked
end PcieBench
