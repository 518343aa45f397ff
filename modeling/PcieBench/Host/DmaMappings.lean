import PcieBench.Host.Driver
import PcieBench.Memory.Ledger

/-!
# The mappings of the descriptors

`writeDMADescriptor` maps a buffer for each descriptor and keeps the address, the size and a valid bit in
three tables, at the index of the user; an enabled call releases what is in the tables.  The index is not
compared with the size of the tables, and a slot is filled without a look at what it holds, so the tables
know of every mapping as long as no index is used twice before an enabled call.
-/

namespace PcieBench
namespace Host

open Clocked Memory

/-! ## Calls with any index -/

/-- What `pci_map_single` returned, with the size it was given. -/
abbrev DmaMapping := BitVec 64 × BitVec 64

/-- A call of `writeDMADescriptor` with the address that `pci_map_single` returns.  The poll loop ends
with the engine or by the timeout, which makes no difference for the tables. -/
structure AnyCall where
  dd : DescriptorSw
  ioAddress : BitVec 64
  timedOut : Bool

/-- The driver with the calls of `pci_map_single` and `pci_unmap_single` so far; `drained` tells whether
the last call of `writeDMADescriptor` was an enabled one. -/
structure Bookkeeping where
  driver : Driver
  mappings : Ledger DmaMapping
  drained : Bool

/-- The pairs with a valid bit. -/
def Driver.recorded (d : Driver) : List DmaMapping :=
  entries d.phyAddrValid (fun k => (d.phyAddr k, d.phySize k))

namespace Bookkeeping

def loaded : Bookkeeping where
  driver := .loaded
  mappings := .empty
  drained := false

/-- One call with an index inside the tables. -/
def write (b : Bookkeeping) (c : Call) : Bookkeeping where
  driver := (writeDMADescriptor b.driver c).driver
  mappings :=
    { acquired := (c.ioAddress, c.dd.bufferSize) ::ₘ b.mappings.acquired
      released := b.mappings.released + (writeDMADescriptor b.driver c).unmapped }
  drained := c.dd.enable

/-- One call, or nothing if it accesses memory outside the tables. -/
def call (b : Bookkeeping) (c : AnyCall) : Option Bookkeeping :=
  if h : c.dd.index.toNat < 1024 then some (b.write ⟨c.dd, c.ioAddress, h⟩) else none

/-- The tables hold exactly the live mappings, each release was one of a mapping with its own size, and
behind an enabled call every mapping has been released. -/
structure Sound (b : Bookkeeping) : Prop where
  live : b.mappings.live = b.driver.recorded
  released : b.mappings.released ≤ b.mappings.acquired
  drained : b.drained = true → b.mappings.live = 0

/-- The index is one of the tables, and its slot is free. -/
def SlotFree (b : Bookkeeping) (c : AnyCall) : Prop :=
  ∃ h : c.dd.index.toNat < 1024, b.driver.phyAddrValid ⟨c.dd.index.toNat, h⟩ = false

/-- No access was outside the tables, and the books are kept. -/
def Kept : Option Bookkeeping → Prop
  | none => False
  | some b => b.Sound

/-- The call finds a free slot. -/
def FindsFree : Option Bookkeeping → AnyCall → Prop
  | none, _ => False
  | some b, c => b.SlotFree c

end Bookkeeping

/-- A sequence of calls, from the loading of the module on; nothing is known behind an access outside the
tables. -/
def bookkeeper : Machine (Option Bookkeeping) AnyCall where
  reset := some .loaded
  step b c := b.bind (·.call c)

/-! ## The tables -/

namespace Driver

/-- The variables once the descriptor is in its slot. -/
def fill (d : Driver) (c : Call) : Driver where
  ldescriptor := (d.ldescriptor % 1024 + 1) % 1024
  phyAddr := Function.update d.phyAddr c.slot c.ioAddress
  phySize := Function.update d.phySize c.slot c.dd.bufferSize
  phyAddrValid := Function.update d.phyAddrValid c.slot true

/-- The pairs of the other slots. -/
def others (d : Driver) (i : Fin 1024) : Multiset DmaMapping :=
  otherEntries d.phyAddrValid (fun k => (d.phyAddr k, d.phySize k)) i

theorem recorded_split (d : Driver) (i : Fin 1024) :
    (d.recorded : Multiset DmaMapping) =
      (if d.phyAddrValid i then {(d.phyAddr i, d.phySize i)} else 0) + d.others i :=
  entries_split _ _ i

theorem recorded_fill (d : Driver) (c : Call) :
    ((d.fill c).recorded : Multiset DmaMapping) =
      {(c.ioAddress, c.dd.bufferSize)} + d.others c.slot := by
  have hpairs : (fun k => ((d.fill c).phyAddr k, (d.fill c).phySize k)) =
      Function.update (fun k => (d.phyAddr k, d.phySize k)) c.slot
        (c.ioAddress, c.dd.bufferSize) := by
    funext k
    by_cases hk : k = c.slot
    · subst hk
      simp [fill]
    · simp [fill, Function.update_of_ne hk]
  rw [recorded, hpairs, others]
  exact entries_fill _ _ _ _

/-- What a call leaves in the tables, and what it releases. -/
theorem writeDMADescriptor_tables (d : Driver) (c : Call) :
    (c.dd.enable = false ∧ (writeDMADescriptor d c).driver = d.fill c ∧
        (writeDMADescriptor d c).unmapped = []) ∨
      (c.dd.enable = true ∧ (writeDMADescriptor d c).driver.recorded = [] ∧
        (writeDMADescriptor d c).unmapped = (d.fill c).recorded) := by
  unfold writeDMADescriptor
  cases henable : c.dd.enable with
  | false =>
      exact .inl ⟨rfl, rfl, rfl⟩
  | true =>
      refine .inr ⟨rfl, ?_, ?_⟩
      · exact entries_false _
      · simp only [if_true, recorded, entries, fill]

end Driver

/-! ## One call -/

namespace Bookkeeping

variable {b : Bookkeeping}

/-- The mappings behind a call are the released ones and those of the tables exactly if the slot was
free: a mapping that was in it is lost. -/
theorem write_balanced_iff (h : b.mappings.Holds b.driver.recorded) (c : Call) :
    (b.write c).mappings.acquired = b.mappings.released + (b.driver.fill c).recorded ↔
      b.driver.phyAddrValid c.slot = false := by
  have hnew : (b.write c).mappings.acquired =
      {(c.ioAddress, c.dd.bufferSize)} + b.mappings.acquired := by
    rw [Multiset.singleton_add]
    rfl
  rw [hnew, h, b.driver.recorded_fill, b.driver.recorded_split c.slot]
  cases hvalid : b.driver.phyAddrValid c.slot with
  | false =>
      refine iff_of_true ?_ rfl
      rw [if_neg (by decide), zero_add]
      exact add_left_comm _ _ _
  | true =>
      -- one mapping more than the tables can account for
      refine iff_of_false ?_ (by decide)
      intro heq
      have hcard := congrArg Multiset.card heq
      rw [if_pos rfl] at hcard
      simp only [Multiset.card_add, Multiset.card_singleton] at hcard
      omega

/-- A call keeps the books exactly if its slot was free. -/
theorem sound_write_iff (h : b.Sound) (c : Call) :
    (b.write c).Sound ↔ b.driver.phyAddrValid c.slot = false := by
  have hbefore : b.mappings.Holds b.driver.recorded := Ledger.holds_iff.2 ⟨h.live, h.released⟩
  have hafter : (b.write c).mappings.Holds (b.write c).driver.recorded ↔
      b.driver.phyAddrValid c.slot = false := by
    rw [← write_balanced_iff hbefore c, Ledger.Holds]
    rcases b.driver.writeDMADescriptor_tables c with
      ⟨-, hdriver, hunmapped⟩ | ⟨-, hdriver, hunmapped⟩
    · -- nothing is released
      simp [write, hdriver, hunmapped]
    · -- the tables are empty behind the call, and all of them is released
      simp [write, hdriver, hunmapped]
  rw [← hafter, Ledger.holds_iff]
  constructor
  · intro hsound
    exact ⟨hsound.live, hsound.released⟩
  · rintro ⟨hlive, hreleased⟩
    refine ⟨hlive, hreleased, ?_⟩
    intro hdrained
    rcases b.driver.writeDMADescriptor_tables c with ⟨henable, -, -⟩ | ⟨-, hdriver, -⟩
    · rw [write, henable] at hdrained
      cases hdrained
    · have hempty : (b.write c).driver.recorded = [] := hdriver
      rw [hlive, hempty, Multiset.coe_nil]

theorem loaded_kept : Kept bookkeeper.reset := by
  show loaded.Sound
  have hempty : loaded.driver.recorded = [] := entries_false _
  obtain ⟨hlive, hreleased⟩ := Ledger.holds_iff.1 (Ledger.holds_empty (α := DmaMapping))
  refine ⟨?_, hreleased, fun _ => hlive⟩
  rw [hempty]
  exact hlive

theorem kept_step_iff {b : Option Bookkeeping} (h : Kept b) (c : AnyCall) :
    Kept (bookkeeper.step b c) ↔ FindsFree b c := by
  cases b with
  | none =>
      exact absurd h id
  | some b =>
      show Kept (b.call c) ↔ b.SlotFree c
      unfold call
      split
      · rename_i hindex
        rw [SlotFree, exists_prop_of_true hindex]
        exact sound_write_iff h ⟨c.dd, c.ioAddress, hindex⟩
      · rename_i hindex
        exact iff_of_false id (fun hfree => hindex hfree.1)

/-! ## Sequences of calls -/

/-- The books are kept in every sequence of calls exactly as long as each call finds its slot free. -/
theorem mappings_kept_iff (calls : Nat → AnyCall) (n : Nat) :
    (∀ t ≤ n, Kept (bookkeeper.trace calls t)) ↔
      ∀ t < n, FindsFree (bookkeeper.trace calls t) (calls t) := by
  refine bookkeeper.trace_good_iff calls (fun _ => True) (fun _ => trivial) loaded_kept ?_ n
  intro b c _ hkept
  exact kept_step_iff hkept c

/-- A program that writes slot 0 without an enable, again and again. -/
def slotZero : AnyCall where
  dd := { firstSlot.dd with enable := false }
  ioAddress := 0x100000
  timedOut := false

/-- The second call loses the mapping of the first one. -/
theorem slot_used_twice_loses : ¬ Kept (bookkeeper.trace (fun _ => slotZero) 2) := by
  have hone : Kept (bookkeeper.trace (fun _ => slotZero) 1) :=
    (kept_step_iff loaded_kept slotZero).2 ⟨by decide, rfl⟩
  intro htwo
  obtain ⟨hindex, hfree⟩ := (kept_step_iff hone slotZero).1 htwo
  cases hfree

end Bookkeeping

end Host
end PcieBench
