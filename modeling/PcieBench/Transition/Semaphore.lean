import Mathlib.Data.List.Nodup

/-!
# Counting semaphores

A semaphore with a count and a queue of sleeping processes, as operating systems have them: `down`
takes one from the count or puts the process to sleep at the end of the queue, `up` wakes the process
at the head of the queue and hands the semaphore over to it, or adds one to the count.  A sleeping
process may be taken out of the queue by a signal.

`Excludes` is what a semaphore that starts with count 1 guarantees as long as only its holder calls
`up`.
-/

namespace PcieBench
namespace Transition

/-- The count and the sleeping processes. -/
structure Semaphore (π : Type) where
  count : Nat
  waiters : List π

namespace Semaphore

variable {π : Type}

/-- `down` by `p`: the semaphore afterwards, and whether `p` has it. -/
def down (s : Semaphore π) (p : π) : Semaphore π × Bool :=
  if 0 < s.count then ({ s with count := s.count - 1 }, true)
  else ({ s with waiters := s.waiters ++ [p] }, false)

/-- `up`: the semaphore afterwards, and the process that was woken and has it now. -/
def up (s : Semaphore π) : Semaphore π × Option π :=
  match s.waiters with
  | [] => ({ s with count := s.count + 1 }, none)
  | p :: rest => ({ s with waiters := rest }, some p)

/-- A signal takes `p` out of the queue. -/
def interrupt [DecidableEq π] (s : Semaphore π) (p : π) : Semaphore π :=
  { s with waiters := s.waiters.erase p }

/-! ## The queue -/

section Queue

variable {s : Semaphore π} {p q : π}

theorem up_sublist (s : Semaphore π) : s.up.1.waiters.Sublist s.waiters := by
  unfold up
  split
  · rename_i h
    simp [h]
  · rename_i h
    rw [h]
    exact List.sublist_cons_self _ _

/-- The process that is woken was asleep. -/
theorem mem_of_up (h : s.up.2 = some q) : q ∈ s.waiters := by
  unfold up at h
  split at h
  · cases h
  · rename_i hwaiters
    cases h
    rw [hwaiters]
    exact List.mem_cons_self

/-- It is asleep no longer. -/
theorem not_mem_up (hnodup : s.waiters.Nodup) (h : s.up.2 = some q) : q ∉ s.up.1.waiters := by
  unfold up at h ⊢
  split at h
  · cases h
  · rename_i hwaiters
    cases h
    rw [hwaiters, List.nodup_cons] at hnodup
    simpa [hwaiters] using hnodup.1

/-- Who sleeps after a `down`. -/
theorem mem_down (h : q ∈ (s.down p).1.waiters) : q ∈ s.waiters ∨ ((s.down p).2 = false ∧ q = p) := by
  unfold down at h ⊢
  split
  · rename_i hpos
    rw [if_pos hpos] at h
    exact .inl h
  · rename_i hpos
    rw [if_neg hpos] at h
    simpa using h

theorem nodup_down (hnodup : s.waiters.Nodup) (hp : p ∉ s.waiters) :
    (s.down p).1.waiters.Nodup := by
  unfold down
  split
  · exact hnodup
  · exact List.nodup_append.mpr ⟨hnodup, List.nodup_singleton p, by
      intro q hq r hr hqr
      rw [List.mem_singleton.mp hr] at hqr
      exact hp (hqr ▸ hq)⟩

end Queue

/-! ## Exclusion -/

/-- The semaphore is free and nobody sleeps, or it has exactly one holder. -/
def Excludes (s : Semaphore π) (holder : π → Prop) : Prop :=
  (s.count = 1 ∧ s.waiters = [] ∧ ∀ p, ¬ holder p) ∨ (s.count = 0 ∧ ∃ p, ∀ q, holder q ↔ q = p)

section Excludes

variable {s : Semaphore π} {holder holder' : π → Prop}

theorem Excludes.unique (h : s.Excludes holder) {p q : π} (hp : holder p) (hq : holder q) :
    p = q := by
  rcases h with ⟨-, -, hnone⟩ | ⟨-, r, hr⟩
  · exact absurd hp (hnone p)
  · rw [(hr p).mp hp, (hr q).mp hq]

theorem Excludes.count_le (h : s.Excludes holder) : s.count ≤ 1 := by
  rcases h with ⟨hcount, -, -⟩ | ⟨hcount, -⟩ <;> omega

theorem Excludes.count_eq_one (h : s.Excludes holder) : s.count = 1 ↔ ∀ p, ¬ holder p := by
  rcases h with ⟨hcount, -, hnone⟩ | ⟨hcount, p, hp⟩
  · exact ⟨fun _ => hnone, fun _ => hcount⟩
  · constructor
    · intro hone
      omega
    · intro hnone
      exact absurd ((hp p).mpr rfl) (hnone p)

theorem Excludes.congr (h : s.Excludes holder) (heq : ∀ p, holder p ↔ holder' p) :
    s.Excludes holder' := by
  rcases h with ⟨hcount, hwaiters, hnone⟩ | ⟨hcount, p, hp⟩
  · exact .inl ⟨hcount, hwaiters, fun p hp => hnone p ((heq p).mpr hp)⟩
  · exact .inr ⟨hcount, p, fun q => (heq q).symm.trans (hp q)⟩

/-- A process that gets the semaphore is its only holder. -/
theorem Excludes.down (h : s.Excludes holder) {p : π}
    (hnew : ∀ q, holder' q ↔ holder q ∨ ((s.down p).2 = true ∧ q = p)) :
    (s.down p).1.Excludes holder' := by
  unfold Semaphore.down at hnew ⊢
  split
  · rename_i hpos
    rw [if_pos hpos] at hnew
    rcases h with ⟨hcount, -, hnone⟩ | ⟨hcount, -⟩
    · refine .inr ⟨by rw [hcount], p, fun q => ?_⟩
      rw [hnew q]
      constructor
      · rintro (hq | ⟨-, hq⟩)
        · exact absurd hq (hnone q)
        · exact hq
      · intro hq
        exact .inr ⟨rfl, hq⟩
    · omega
  · rename_i hpos
    rw [if_neg hpos] at hnew
    rcases h with ⟨hcount, -, -⟩ | ⟨hcount, r, hr⟩
    · omega
    · refine .inr ⟨hcount, r, fun q => ?_⟩
      rw [hnew q, ← hr q]
      simp

/-- The holder releases the semaphore: the process that is woken is the only holder, if there is one. -/
theorem Excludes.up (h : s.Excludes holder) {p : π} (hp : holder p)
    (hnew : ∀ q, holder' q ↔ s.up.2 = some q) : s.up.1.Excludes holder' := by
  obtain ⟨hcount, -⟩ : s.count = 0 ∧ ∃ p, ∀ q, holder q ↔ q = p := by
    rcases h with ⟨-, -, hnone⟩ | h
    · exact absurd hp (hnone p)
    · exact h
  unfold Semaphore.up at hnew ⊢
  cases hwaiters : s.waiters with
  | nil =>
      rw [hwaiters] at hnew
      refine .inl ⟨by simp [hcount], rfl, fun q hq => ?_⟩
      simpa using (hnew q).mp hq
  | cons r rest =>
      rw [hwaiters] at hnew
      refine .inr ⟨hcount, r, fun q => ?_⟩
      rw [hnew q, Option.some.injEq]
      exact eq_comm

end Excludes

end Semaphore

end Transition
end PcieBench
