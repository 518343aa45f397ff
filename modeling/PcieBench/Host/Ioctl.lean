import PcieBench.Transition.Reachable
import PcieBench.Transition.Semaphore
import Mathlib.Logic.Function.Basic

/-!
# The semaphore of nfp_ioctl

Every `ioctl` takes `card->sem_op` before it copies its argument and releases it on each of its ways
out.  Processes call it at any time; a process that waits for the semaphore can be interrupted by a
signal, `copy_from_user` can fail, and so can the registration of a buffer.  Two of the ways out
release the semaphore once too often: the one of an interrupted wait, which has not taken it, and the
one of a failed registration, which releases it in `reg_hugemem` and again in `nfp_ioctl`.
-/

namespace PcieBench
namespace Host

open Transition

/-! ## Processes -/

/-- The commands that pass the tests of type and number; the other ones return before the semaphore. -/
inductive Ioctl
  | windowSize
  | write32
  | read32
  | writeDmaDescriptor
  | readDmaDescriptor
  | registerBuffer
  | unregisterBuffer
  | unrecognized
  deriving DecidableEq, Repr

/-- The command has an argument that is copied from the user. -/
def Ioctl.copies : Ioctl → Bool
  | .unregisterBuffer | .unrecognized => false
  | _ => true

/-- Where a process is in `nfp_ioctl`: outside, before `down_interruptible`, asleep in it, behind it
with an error, or behind it with the semaphore. -/
inductive Place
  | outside
  | entering (cmd : Ioctl)
  | sleeping (cmd : Ioctl)
  | interrupted
  | copying (cmd : Ioctl)
  | operating (cmd : Ioctl)
  | leaving
  deriving DecidableEq, Repr

/-- Between its successful `down_interruptible` and the end of its operation. -/
def Place.inside : Place → Bool
  | .copying _ | .operating _ | .leaving => true
  | _ => false

/-- A sleeping process that is woken has the semaphore. -/
def Place.woken : Place → Place
  | .sleeping cmd => .copying cmd
  | place => place

/-- The steps of the processes `π`, with what comes from outside: the command, the signal, and the
outcomes of `copy_from_user` and of `getUserHugePages`. -/
inductive IoctlEvent (π : Type)
  | call (p : π) (cmd : Ioctl)
  | down (p : π)
  | signal (p : π)
  | giveUp (p : π)
  | copy (p : π) (copied : Bool)
  | operate (p : π) (pinned : Bool)
  | finish (p : π)

/-- The semaphore and the place of each process. -/
structure IoctlState (π : Type) where
  sem : Semaphore π
  place : π → Place

namespace IoctlState

variable {π : Type} [DecidableEq π]

/-- `sema_init (&card->sem_op, 1)`. -/
def start : IoctlState π where
  sem := { count := 1, waiters := [] }
  place _ := .outside

/-- A process is at another place. -/
def move (s : IoctlState π) (p : π) (place : Place) : IoctlState π :=
  { s with place := Function.update s.place p place }

/-- `up (&card->sem_op)`: the first waiter goes on. -/
def up (s : IoctlState π) : IoctlState π where
  sem := s.sem.up.1
  place :=
    match s.sem.up.2 with
    | none => s.place
    | some q => Function.update s.place q (s.place q).woken

/-- What a step does, if the process is at its place. -/
def apply (s : IoctlState π) : IoctlEvent π → Option (IoctlState π)
  | .call p cmd =>
      match s.place p with
      | .outside => some (s.move p (.entering cmd))
      | _ => none
  | .down p =>
      match s.place p with
      | .entering cmd =>
          some ({ s with sem := (s.sem.down p).1 }.move p
            (if (s.sem.down p).2 then .copying cmd else .sleeping cmd))
      | _ => none
  | .signal p =>
      match s.place p with
      | .sleeping _ => some ({ s with sem := s.sem.interrupt p }.move p .interrupted)
      | _ => none
  | .giveUp p =>
      match s.place p with
      -- releases what it has not got
      | .interrupted => some (s.up.move p .outside)
      | _ => none
  | .copy p copied =>
      match s.place p with
      | .copying cmd =>
          -- each copy that fails has its own `up`
          if cmd.copies && !copied then some (s.up.move p .outside)
          else some (s.move p (.operating cmd))
      | _ => none
  | .operate p pinned =>
      match s.place p with
      | .operating cmd =>
          -- a failed registration has its own `up`
          if cmd = .registerBuffer ∧ pinned = false then some (s.up.move p .leaving)
          else some (s.move p .leaving)
      | _ => none
  | .finish p =>
      match s.place p with
      | .leaving => some (s.up.move p .outside)
      | _ => none

/-- Every interleaving of the processes. -/
def system (π : Type) [DecidableEq π] : LabelledSystem (IoctlState π) (IoctlEvent π) where
  init s := s = start
  step s e s' := s.apply e = some s'

/-- At most one process is inside, and the count is 1 exactly when none is. -/
structure Exclusive (s : IoctlState π) : Prop where
  one : ∀ p q, (s.place p).inside = true → (s.place q).inside = true → p = q
  count_le : s.sem.count ≤ 1
  count_eq_one : s.sem.count = 1 ↔ ∀ p, (s.place p).inside = false

/-- No signal interrupts a wait, and no registration fails. -/
def Undisturbed (s : IoctlState π) : IoctlEvent π → Prop
  | .signal _ => False
  | .operate p pinned => s.place p = .operating .registerBuffer → pinned = true
  | _ => True

/-! ## Moves and releases -/

@[simp] theorem move_place_self (s : IoctlState π) (p : π) (place : Place) :
    (s.move p place).place p = place := by
  simp [move]

theorem move_place_of_ne (s : IoctlState π) {p q : π} (h : q ≠ p) (place : Place) :
    (s.move p place).place q = s.place q := by
  simp [move, Function.update_of_ne h]

theorem up_place (s : IoctlState π) (q : π) :
    s.up.place q = if s.sem.up.2 = some q then (s.place q).woken else s.place q := by
  cases hup : s.sem.up.2 with
  | none =>
      simp [up, hup]
  | some w =>
      by_cases hq : q = w
      · subst hq
        simp [up, hup]
      · simp [up, hup, Function.update_of_ne hq, Ne.symm hq]

/-! ## The invariant -/

/-- The semaphore excludes the processes inside, and its queue are sleeping processes. -/
structure Guarded (s : IoctlState π) : Prop where
  excludes : s.sem.Excludes (fun p => (s.place p).inside = true)
  asleep : ∀ p ∈ s.sem.waiters, ∃ cmd, s.place p = .sleeping cmd
  nodup : s.sem.waiters.Nodup
  uninterrupted : ∀ p, s.place p ≠ .interrupted

variable {s : IoctlState π}

omit [DecidableEq π] in
theorem Guarded.not_waiting (h : s.Guarded) {p : π} (hp : ∀ cmd, s.place p ≠ .sleeping cmd) :
    p ∉ s.sem.waiters := by
  intro hmem
  obtain ⟨cmd, hcmd⟩ := h.asleep p hmem
  exact hp cmd hcmd

/-- A move inside, or outside, that leaves the semaphore alone. -/
theorem Guarded.move (h : s.Guarded) {p : π} {place : Place}
    (hinside : place.inside = (s.place p).inside) (hawake : p ∉ s.sem.waiters)
    (hplace : place ≠ .interrupted) : (s.move p place).Guarded := by
  refine ⟨h.excludes.congr ?_, ?_, h.nodup, ?_⟩
  · intro q
    by_cases hq : q = p
    · subst hq
      rw [move_place_self, hinside]
    · rw [move_place_of_ne s hq]
  · intro q hq
    have hne : q ≠ p := by
      rintro rfl
      exact hawake hq
    rw [move_place_of_ne s hne]
    exact h.asleep q hq
  · intro q
    by_cases hq : q = p
    · subst hq
      rwa [move_place_self]
    · rw [move_place_of_ne s hq]
      exact h.uninterrupted q

/-- A process calls `down_interruptible`. -/
theorem Guarded.down (h : s.Guarded) {p : π} {cmd : Ioctl} (hp : s.place p = .entering cmd) :
    ({ s with sem := (s.sem.down p).1 }.move p
      (if (s.sem.down p).2 then .copying cmd else .sleeping cmd)).Guarded := by
  have hawake : p ∉ s.sem.waiters := h.not_waiting (by simp [hp])
  refine ⟨h.excludes.down ?_, ?_, Semaphore.nodup_down h.nodup hawake, ?_⟩
  · intro q
    by_cases hq : q = p
    · subst hq
      rw [move_place_self, hp]
      cases (s.sem.down q).2 <;> simp [Place.inside]
    · rw [move_place_of_ne _ hq]
      simp [hq]
  · intro q hq
    rcases Semaphore.mem_down hq with hmem | ⟨hblocked, rfl⟩
    · have hne : q ≠ p := by
        rintro rfl
        exact hawake hmem
      rw [move_place_of_ne _ hne]
      exact h.asleep q hmem
    · rw [move_place_self, hblocked]
      exact ⟨cmd, rfl⟩
  · intro q
    by_cases hq : q = p
    · subst hq
      rw [move_place_self]
      split <;> simp
    · rw [move_place_of_ne _ hq]
      exact h.uninterrupted q

/-- The process inside calls `up` and leaves. -/
theorem Guarded.leave (h : s.Guarded) {p : π} (hp : (s.place p).inside = true) :
    (s.up.move p .outside).Guarded := by
  have hawake : p ∉ s.sem.waiters := by
    refine h.not_waiting ?_
    intro cmd hsleep
    rw [hsleep] at hp
    cases hp
  -- nobody else is inside, so the process that is woken is alone
  have halone : ∀ q, q ≠ p → (s.place q).inside = false := by
    intro q hq
    by_contra hin
    exact hq (h.excludes.unique (by simpa using hin) hp)
  refine ⟨h.excludes.up hp ?_, ?_, h.nodup.sublist s.sem.up_sublist, ?_⟩
  · intro q
    by_cases hq : q = p
    · subst hq
      rw [move_place_self]
      constructor
      · intro hfalse
        cases hfalse
      · intro hwoken
        exact absurd (Semaphore.mem_of_up hwoken) hawake
    · rw [move_place_of_ne _ hq, up_place]
      split
      · -- the process that is woken is inside now
        rename_i hwoken
        obtain ⟨cmd, hcmd⟩ := h.asleep q (Semaphore.mem_of_up hwoken)
        simp [hcmd, hwoken, Place.woken, Place.inside]
      · simp [halone q hq, *]
  · intro q hq
    have hmem : q ∈ s.sem.waiters := s.sem.up_sublist.subset hq
    have hne : q ≠ p := by
      rintro rfl
      exact hawake hmem
    have hstill : ¬ s.sem.up.2 = some q := fun hwoken => Semaphore.not_mem_up h.nodup hwoken hq
    rw [move_place_of_ne _ hne, up_place, if_neg hstill]
    exact h.asleep q hmem
  · intro q
    by_cases hq : q = p
    · subst hq
      simp
    · rw [move_place_of_ne _ hq, up_place]
      have hplace := h.uninterrupted q
      split
      · cases hc : s.place q <;> simp_all [Place.woken]
      · exact hplace

/-- Every undisturbed step keeps the exclusion. -/
theorem Guarded.apply (h : s.Guarded) {e : IoctlEvent π} (hok : Undisturbed s e)
    {s' : IoctlState π} (hs' : s.apply e = some s') : s'.Guarded := by
  cases e with
  | call p cmd =>
      cases hp : s.place p <;> simp only [IoctlState.apply, hp, Option.some.injEq, reduceCtorEq] at hs'
      subst hs'
      exact h.move (by simp [hp, Place.inside]) (h.not_waiting (by simp [hp])) (by simp)
  | down p =>
      cases hp : s.place p <;> simp only [IoctlState.apply, hp, Option.some.injEq, reduceCtorEq] at hs'
      subst hs'
      exact h.down hp
  | signal p =>
      exact absurd hok (by simp [Undisturbed])
  | giveUp p =>
      -- nobody has been interrupted
      cases hp : s.place p <;> simp only [IoctlState.apply, hp, reduceCtorEq] at hs'
      exact absurd hp (h.uninterrupted p)
  | copy p copied =>
      cases hp : s.place p <;> simp only [IoctlState.apply, hp, reduceCtorEq] at hs'
      split at hs'
      · -- the copy fails
        cases hs'
        exact h.leave (by simp [hp, Place.inside])
      · cases hs'
        exact h.move (by simp [hp, Place.inside]) (h.not_waiting (by simp [hp])) (by simp)
  | operate p pinned =>
      cases hp : s.place p <;> simp only [IoctlState.apply, hp, reduceCtorEq] at hs'
      rename_i cmd
      -- the branch with the second release is not taken
      have hno : ¬ (cmd = .registerBuffer ∧ pinned = false) := by
        rintro ⟨rfl, hfalse⟩
        rw [hok hp] at hfalse
        cases hfalse
      rw [if_neg hno] at hs'
      cases hs'
      exact h.move (by simp [hp, Place.inside]) (h.not_waiting (by simp [hp])) (by simp)
  | finish p =>
      cases hp : s.place p <;> simp only [IoctlState.apply, hp, Option.some.injEq, reduceCtorEq] at hs'
      subst hs'
      exact h.leave (by simp [hp, Place.inside])

/-- As long as no wait is interrupted and no registration fails, the processes exclude each other,
whatever their number, their commands and their interleaving. -/
theorem mutual_exclusion (h : (system π).Reachable Undisturbed s) : s.Exclusive := by
  have hguarded : s.Guarded := by
    refine h.invariant ?_ (fun _ _ _ hg hok hs => hg.apply hok hs)
    rintro s rfl
    refine ⟨.inl ⟨rfl, rfl, ?_⟩, ?_, List.nodup_nil, ?_⟩
    · intro p
      simp [start, Place.inside]
    · intro p hp
      cases hp
    · intro p
      simp [start]
  refine ⟨fun p q hp hq => hguarded.excludes.unique hp hq, hguarded.excludes.count_le, ?_⟩
  rw [hguarded.excludes.count_eq_one]
  simp

/-- Two processes, one after the other: the second one sleeps while the first one registers a buffer. -/
theorem mutual_exclusion_two : ∃ s : IoctlState Nat,
    (system Nat).Reachable Undisturbed s ∧ s.place 0 = .leaving ∧
      s.place 1 = .sleeping .writeDmaDescriptor ∧ s.Exclusive := by
  have hrun : (system Nat).Reachable Undisturbed _ :=
    .step (e := .operate 0 true) (.step (e := .copy 0 true) (.step (e := .down 1)
      (.step (e := .call 1 .writeDmaDescriptor) (.step (e := .down 0)
        (.step (e := .call 0 .registerBuffer) (.init rfl) trivial rfl) trivial rfl)
        trivial rfl) trivial rfl) trivial rfl) (fun _ => rfl) rfl
  exact ⟨_, hrun, rfl, rfl, mutual_exclusion hrun⟩

/-- A signal interrupts the wait of process 1, which then releases the semaphore of process 0: process 2
is inside together with process 0. -/
theorem interrupted_wait_releases : ∃ s : IoctlState Nat,
    (system Nat).Reachable anyStep s ∧ ¬ s.Exclusive := by
  have hrun : (system Nat).Reachable anyStep _ :=
    .step (e := .down 2) (.step (e := .call 2 .read32) (.step (e := .giveUp 1)
      (.step (e := .signal 1) (.step (e := .down 1) (.step (e := .call 1 .read32)
        (.step (e := .down 0) (.step (e := .call 0 .read32) (.init rfl) trivial rfl) trivial rfl)
        trivial rfl) trivial rfl) trivial rfl) trivial rfl) trivial rfl) trivial rfl
  refine ⟨_, hrun, ?_⟩
  intro hexclusive
  exact absurd (hexclusive.one 0 2 rfl rfl) (by decide)

end IoctlState

end Host
end PcieBench
