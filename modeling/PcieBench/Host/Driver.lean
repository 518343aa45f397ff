import Mathlib.Algebra.Group.Nat.Defs
import Mathlib.Logic.Function.Iterate
import PcieBench.Clocked.Trace
import PcieBench.Manager.Table

/-!
# The driver and the index registers

`writeDMADescriptor` copies a descriptor into the slot that the user names, moves the last index of
the hardware along with a counter of its own, and on request starts the engine and waits for it.
Three counters have to agree: the `index` of the user, `ldescriptor` in the driver and the active
index in the hardware.  They do exactly when the user counts like the driver.
-/

namespace PcieBench
namespace Host

open Clocked Manager

/-! ## writeDMADescriptor -/

/-- `struct dma_descriptor_sw`, the fields that `writeDMADescriptor` reads. -/
structure DescriptorSw where
  address : BitVec 64
  bufferSize : BitVec 64
  length : BitVec 64
  enable : Bool
  isC2sOp : Bool
  isS2cOp : Bool
  addressMode : BitVec 2
  numberOfTlps : BitVec 64
  addressOffset : BitVec 64
  addressInc : BitVec 64
  index : BitVec 64

/-- A call with an index inside the tables of the driver; `ioAddress` is the result of
`pci_map_single`. -/
structure Call where
  dd : DescriptorSw
  ioAddress : BitVec 64
  index_lt : dd.index.toNat < 1024

/-- The position of the call in the tables of the driver. -/
def Call.slot (c : Call) : Fin 1024 := ⟨c.dd.index.toNat, c.index_lt⟩

/-- The static variables of the driver. -/
structure Driver where
  ldescriptor : BitVec 32
  phyAddr : Fin 1024 → BitVec 64
  phySize : Fin 1024 → BitVec 64
  phyAddrValid : Fin 1024 → Bool

/-- The driver when the module is loaded. -/
def Driver.loaded : Driver where
  ldescriptor := 0
  phyAddr _ := 0
  phySize _ := 0
  phyAddrValid _ := false

/-- A write to 64-bit word `word` of `dma_engine[0]`. -/
def engineWrite (word : Nat) (we : BitVec 8) (din : BitVec 64) : HostAccess where
  en := true
  addr := BitVec.ofNat 16 (0x200 + word)
  din := din
  we := we

/-- The control word without the enable bit. -/
def control (dd : DescriptorSw) : BitVec 32 :=
  ((BitVec.ofBool dd.isC2sOp).setWidth 32 <<< 2) + (if dd.isS2cOp then 8 else 0) +
    (dd.addressMode.setWidth 32 <<< 4)

/-- The accesses that write a descriptor and the last index. -/
def descriptorAccesses (ldescriptor : BitVec 32) (c : Call) : List HostAccess :=
  -- `host_buffer_size`, `number_of_tlps`, `address_offset`, `address_inc`, the descriptor in its slot, the
  -- control word without the enable bit, and the two bytes of the last index
  [engineWrite 4 0xff c.dd.bufferSize,
    engineWrite 7 0xff c.dd.numberOfTlps,
    engineWrite 5 0xff c.dd.addressOffset,
    engineWrite 6 0xff c.dd.addressInc,
    engineWrite (8 + 8 * c.slot.val) 0xff c.ioAddress,
    engineWrite (9 + 8 * c.slot.val) 0xff c.dd.length,
    engineWrite 0 0x0f ((control c.dd).setWidth 64),
    engineWrite 1 0x03 (ldescriptor.setWidth 64)]

/-- What a call does: its accesses to the device, the mappings it releases and the variables
afterwards. -/
structure Outcome where
  accesses : List HostAccess
  unmapped : List (BitVec 64 × BitVec 64)
  driver : Driver

/-- An enabled call starts the engine, waits for its end and releases every mapping. -/
def writeDMADescriptor (d : Driver) (c : Call) : Outcome :=
  let written : Driver :=
    { ldescriptor := (d.ldescriptor % 1024 + 1) % 1024
      phyAddr := Function.update d.phyAddr c.slot c.ioAddress
      phySize := Function.update d.phySize c.slot c.dd.bufferSize
      phyAddrValid := Function.update d.phyAddrValid c.slot true }
  let accesses := descriptorAccesses (d.ldescriptor % 1024) c
  if c.dd.enable then
    { accesses := accesses ++ [engineWrite 0 0x0f ((control c.dd ||| 1).setWidth 64)]
      unmapped := ((List.finRange 1024).filter written.phyAddrValid).map
        (fun k => (written.phyAddr k, written.phySize k))
      driver := { written with phyAddrValid := fun _ => false } }
  else { accesses := accesses, unmapped := [], driver := written }

/-! ## The index registers of the hardware -/

/-- The two index registers of `dma_engine_manager`. -/
structure Card where
  active : Index
  last : Index
  deriving DecidableEq, Repr

namespace Card

/-- The index registers of a state of the manager. -/
def ofManager (s : Manager.State) : Card where
  active := s.progress.activeIndexDescriptor
  last := s.regs.lastIndexDescriptor

/-- An access of the host only moves the last index. -/
def access (c : Card) (h : HostAccess) : Card where
  active := c.active
  last := if h.writesRegister 1 && h.we.getLsbD 0 then h.din.setWidth 10 else c.last

/-- The end of an operation only moves the active index. -/
def finish (c : Card) : Card := { c with active := nextIndex c.active }

/-- The descriptors of an enabled engine, from the active one up to the last one. -/
def served (c : Card) : List Index := Manager.served c.last 1024 c.active

/-- The registers after all of them. -/
def serve (c : Card) : Card := { c with active := nextIndex c.last }

/-- One clock edge of the manager: the host access and, at the end of an operation, the next
descriptor. -/
theorem ofManager_step (s : Manager.State) (i : Manager.Input) :
    ofManager (Manager.step s i) =
      if i.isEndOfOperation then ((ofManager s).access i.host).finish
      else (ofManager s).access i.host := by
  cases h : i.isEndOfOperation <;>
    simp [ofManager, access, finish, nextRegisters, nextProgress, h]

/-- An engine that ends one operation after the other, until it ends the one of the last descriptor,
has served these descriptors. -/
theorem served_eq (c : Card) :
    c.served = (List.range ((c.last - c.active).toNat + 1)).map
      (fun i => c.active + BitVec.ofNat 10 i) :=
  Manager.served_eq (c.last - c.active).isLt

theorem finish_iterate (c : Card) (n : Nat) :
    finish^[n] c = { c with active := c.active + BitVec.ofNat 10 n } := by
  induction n with
  | zero =>
      simp
  | succ n ih =>
      rw [Function.iterate_succ_apply', ih, finish, nextIndex_eq, BitVec.ofNat_add n 1,
        ← BitVec.add_assoc]
      rfl

/-- One end of operation for each descriptor served leads behind the last one. -/
theorem serve_eq_iterate (c : Card) : c.serve = finish^[c.served.length] c := by
  have hlast : c.active + BitVec.ofNat 10 ((c.last - c.active).toNat + 1) = c.last + 1 := by
    rw [BitVec.ofNat_add, BitVec.ofNat_toNat, BitVec.setWidth_eq, ← BitVec.add_assoc,
      BitVec.add_comm c.active, BitVec.sub_add_cancel]
    rfl
  rw [finish_iterate, served_eq, List.length_map, List.length_range, hlast, serve, nextIndex_eq]

end Card

/-- The slots of the descriptor table that the accesses write an address to. -/
def writtenSlots (accesses : List HostAccess) : List Index :=
  (accesses.filter (fun h => h.inTable && h.we != 0 && decide (h.effectiveField = 0))).map
    (fun h => h.tableIndex 0)

/-! ## The accesses of a call -/

theorem engineWrite_addr {word : Nat} (hw : word < 2 ^ 15) (we : BitVec 8) (din : BitVec 64) :
    (engineWrite word we din).addr.toNat = 0x200 + word := by
  rw [engineWrite, BitVec.toNat_ofNat]
  omega

theorem engineWrite_writesLast {word : Nat} (hw : word < 2 ^ 15) (we : BitVec 8) (din : BitVec 64) :
    (engineWrite word we din).writesRegister 1 = (we != 0 && decide (word = 1)) := by
  have hlast : (0x201 : BitVec 16).toNat = 0x201 := rfl
  have haddr : (engineWrite word we din).addr = 0x201 ↔ word = 1 := by
    rw [← BitVec.toNat_inj, engineWrite_addr hw, hlast]
    omega
  have hiff := writesRegister_iff (engineWrite word we din) (k := 1) (a := 0x201) rfl
  rw [haddr] at hiff
  rw [Bool.eq_iff_iff, hiff, Bool.and_eq_true, bne_iff_ne, decide_eq_true_eq]
  exact ⟨fun h => h.2, fun h => ⟨rfl, h⟩⟩

/-- Which accesses write an address into the descriptor table. -/
theorem engineWrite_address_iff {word : Nat} (hw : word < 2 ^ 15) {we : BitVec 8} (hwe : we ≠ 0)
    (din : BitVec 64) :
    ((engineWrite word we din).inTable && (engineWrite word we din).we != 0 &&
        decide ((engineWrite word we din).effectiveField = 0)) =
      decide (8 ≤ word ∧ word ≤ 8200 ∧ word % 8 = 0) := by
  have haddr := engineWrite_addr hw we din
  have htable := inTable_iff (engineWrite word we din)
  have hfield : (engineWrite word we din).effectiveField = 0 ↔
      (engineWrite word we din).addr.toNat % 8 = 0 :=
    effectiveField_iff (engineWrite word we din) .address
  have hbytes : ((engineWrite word we din).we != 0) = true := by simpa [engineWrite] using hwe
  rw [haddr] at htable hfield
  rw [hbytes, Bool.and_true, Bool.eq_iff_iff, Bool.and_eq_true, decide_eq_true_eq,
    decide_eq_true_eq, htable, hfield]
  constructor
  · rintro ⟨⟨-, hlow, hhigh⟩, hmod⟩
    omega
  · intro hword
    exact ⟨⟨rfl, by omega⟩, by omega⟩

/-- The slot of an address word. -/
theorem engineWrite_tableIndex {k : Nat} (hk : k < 1024) (we : BitVec 8) (din : BitVec 64) :
    (engineWrite (8 + 8 * k) we din).tableIndex 0 = BitVec.ofNat 10 k := by
  have haddr := engineWrite_addr (show 8 + 8 * k < 2 ^ 15 by omega) we din
  have hoffset : TableField.address.offset.toNat = 0 := rfl
  have hindex := tableIndex_toNat (engineWrite (8 + 8 * k) we din) (f := .address)
    (by omega) (by omega) (by omega)
  apply BitVec.eq_of_toNat_eq
  refine hindex.trans ?_
  rw [haddr, BitVec.toNat_ofNat]
  omega

theorem writtenSlots_cons (h : HostAccess) (l : List HostAccess) :
    writtenSlots (h :: l) = writtenSlots [h] ++ writtenSlots l := by
  rw [writtenSlots, ← List.singleton_append, List.filter_append, List.map_append]
  rfl

/-- Accesses to other words than an address write no slot. -/
theorem writtenSlots_engineWrite {word : Nat} (hw : word < 2 ^ 15) {we : BitVec 8} (hwe : we ≠ 0)
    (din : BitVec 64) (hother : word < 8 ∨ word % 8 ≠ 0) :
    writtenSlots [engineWrite word we din] = [] := by
  have hno : ¬ (8 ≤ word ∧ word ≤ 8200 ∧ word % 8 = 0) := by omega
  simp only [writtenSlots, List.filter_cons, engineWrite_address_iff hw hwe, decide_eq_false hno]
  rfl

theorem writtenSlots_address {k : Nat} (hk : k < 1024) {we : BitVec 8} (hwe : we ≠ 0)
    (din : BitVec 64) :
    writtenSlots [engineWrite (8 + 8 * k) we din] = [BitVec.ofNat 10 k] := by
  have hyes : 8 ≤ 8 + 8 * k ∧ 8 + 8 * k ≤ 8200 ∧ (8 + 8 * k) % 8 = 0 := by omega
  have hw : 8 + 8 * k < 2 ^ 15 := by omega
  simp only [writtenSlots, List.filter_cons, List.filter_nil, engineWrite_address_iff hw hwe,
    decide_eq_true hyes, if_true, List.map_cons, List.map_nil, engineWrite_tableIndex hk]

/-- Accesses to other words than the last index leave it. -/
theorem access_engineWrite (word : Nat) (hw : word < 2 ^ 15) (we : BitVec 8) (din : BitVec 64)
    (hother : word ≠ 1) (card : Card) : card.access (engineWrite word we din) = card := by
  simp only [Card.access, engineWrite_writesLast hw, decide_eq_false hother, Bool.and_false,
    Bool.false_and, Bool.false_eq_true, if_false]

theorem access_last (ldescriptor : BitVec 32) (card : Card) :
    card.access (engineWrite 1 0x03 (ldescriptor.setWidth 64)) =
      { card with last := ldescriptor.setWidth 10 } := by
  have hdin : ((ldescriptor.setWidth 64).setWidth 10) = ldescriptor.setWidth 10 :=
    BitVec.setWidth_setWidth_of_le _ (by decide)
  have hwrites : (engineWrite 1 0x03 (ldescriptor.setWidth 64)).writesRegister 1 = true := by
    rw [engineWrite_writesLast (by decide)]
    rfl
  have hlow : (engineWrite 1 0x03 (ldescriptor.setWidth 64)).we.getLsbD 0 = true := by
    simp [engineWrite]
  rw [Card.access, hwrites, hlow, ← hdin]
  rfl

/-- The accesses of a call without its enable write the slot it names and set the last index. -/
theorem descriptorAccesses_spec (ldescriptor : BitVec 32) (c : Call) (card : Card) :
    writtenSlots (descriptorAccesses ldescriptor c) = [BitVec.ofNat 10 c.dd.index.toNat] ∧
      (descriptorAccesses ldescriptor c).foldl Card.access card =
        { card with last := ldescriptor.setWidth 10 } := by
  have hslot : c.slot.val < 1024 := c.slot.isLt
  have hindex : c.slot.val = c.dd.index.toNat := rfl
  generalize hk : c.slot.val = k at *
  have hff : (0xff : BitVec 8) ≠ 0 := by decide
  constructor
  · unfold descriptorAccesses
    rw [hk, writtenSlots_cons, writtenSlots_engineWrite (by decide) hff _ (.inl (by decide)),
      writtenSlots_cons, writtenSlots_engineWrite (by decide) hff _ (.inl (by decide)),
      writtenSlots_cons, writtenSlots_engineWrite (by decide) hff _ (.inl (by decide)),
      writtenSlots_cons, writtenSlots_engineWrite (by decide) hff _ (.inl (by decide)),
      writtenSlots_cons, writtenSlots_address hslot hff,
      writtenSlots_cons, writtenSlots_engineWrite (by omega) hff _ (.inr (by omega)),
      writtenSlots_cons, writtenSlots_engineWrite (by decide) (by decide) _ (.inl (by decide)),
      writtenSlots_engineWrite (by decide) (by decide) _ (.inl (by decide)), ← hindex]
    rfl
  · unfold descriptorAccesses
    simp only [hk, List.foldl_cons, List.foldl_nil]
    rw [access_engineWrite 4 (by decide) _ _ (by decide),
      access_engineWrite 7 (by decide) _ _ (by decide),
      access_engineWrite 5 (by decide) _ _ (by decide),
      access_engineWrite 6 (by decide) _ _ (by decide),
      access_engineWrite (8 + 8 * k) (by omega) _ _ (by omega),
      access_engineWrite (9 + 8 * k) (by omega) _ _ (by omega),
      access_engineWrite 0 (by decide) _ _ (by decide), access_last]

/-- A call writes the slot it names and leaves the last index at the counter of the driver. -/
theorem writeDMADescriptor_spec (d : Driver) (c : Call) (card : Card) :
    writtenSlots (writeDMADescriptor d c).accesses = [BitVec.ofNat 10 c.dd.index.toNat] ∧
      (writeDMADescriptor d c).accesses.foldl Card.access card =
        { card with last := (d.ldescriptor % 1024).setWidth 10 } ∧
      (writeDMADescriptor d c).driver.ldescriptor = (d.ldescriptor % 1024 + 1) % 1024 := by
  obtain ⟨hwritten, hlast⟩ := descriptorAccesses_spec (d.ldescriptor % 1024) c card
  unfold writeDMADescriptor
  cases c.dd.enable with
  | false =>
      exact ⟨hwritten, hlast, rfl⟩
  | true =>
      refine ⟨?_, ?_, rfl⟩
      · rw [writtenSlots, if_pos rfl, List.filter_append, List.map_append]
        refine (congrArg₂ (· ++ ·) hwritten ?_).trans (List.append_nil _)
        exact writtenSlots_engineWrite (by decide) (by decide) _ (.inl (by decide))
      · rw [if_pos rfl, List.foldl_append, hlast, List.foldl_cons, List.foldl_nil,
          access_engineWrite _ (by decide) _ _ (by decide)]

/-! ## Runs of the driver -/

/-- The driver and the index registers. -/
structure System where
  driver : Driver
  card : Card

/-- One call.  The engine is done when an enabled call returns: the poll loop has not timed out. -/
def System.call (s : System) (c : Call) : System where
  driver := (writeDMADescriptor s.driver c).driver
  card :=
    if c.dd.enable then ((writeDMADescriptor s.driver c).accesses.foldl Card.access s.card).serve
    else (writeDMADescriptor s.driver c).accesses.foldl Card.access s.card

/-- A freshly loaded driver and reset hardware. -/
def machine : Machine System Call where
  reset := { driver := Driver.loaded, card := { active := 0, last := 0 } }
  step := System.call

section Runs

variable (calls : Nat → Call)

/-- The state before call `n`. -/
def sys (n : Nat) : System := machine.trace calls n

theorem sys_succ (n : Nat) : sys calls (n + 1) = (sys calls n).call (calls n) := rfl

/-- The accesses of call `n`. -/
def accesses (n : Nat) : List HostAccess := (writeDMADescriptor (sys calls n).driver (calls n)).accesses

/-- The first call after the enabled one before call `n`. -/
def batchStart : Nat → Nat
  | 0 => 0
  | n + 1 => if (calls n).dd.enable then n + 1 else batchStart n

theorem batchStart_le (n : Nat) : batchStart calls n ≤ n := by
  induction n with
  | zero =>
      exact Nat.le_refl 0
  | succ n ih =>
      unfold batchStart
      split <;> omega

/-- The slots that the calls since the previous enabled one have written, in their order. -/
def slotsWritten (n : Nat) : List Index :=
  (List.range (n + 1 - batchStart calls n)).flatMap
    (fun k => writtenSlots (accesses calls (batchStart calls n + k)))

/-- The slots that the hardware goes through on call `n`. -/
def slotsServed (n : Nat) : List Index := ((accesses calls n).foldl Card.access (sys calls n).card).served

/-- The counter of the driver counts all calls, the active index the enabled ones. -/
theorem sys_counters (n : Nat) :
    (sys calls n).driver.ldescriptor = BitVec.ofNat 32 (n % 1024) ∧
      (sys calls n).card.active = BitVec.ofNat 10 (batchStart calls n) := by
  induction n with
  | zero =>
      exact ⟨rfl, rfl⟩
  | succ n ih =>
      obtain ⟨hld, hactive⟩ := ih
      obtain ⟨-, hcard, hnext⟩ :=
        writeDMADescriptor_spec (sys calls n).driver (calls n) (sys calls n).card
      have hmod : (BitVec.ofNat 32 (n % 1024) % 1024).toNat = n % 1024 := by
        have h1024 : (1024 : BitVec 32).toNat = 1024 := rfl
        rw [BitVec.toNat_umod, BitVec.toNat_ofNat, h1024]
        omega
      constructor
      · -- `ldescriptor` wraps at the end of the table
        rw [sys_succ, System.call, hnext, hld]
        apply BitVec.eq_of_toNat_eq
        have h1024 : (1024 : BitVec 32).toNat = 1024 := rfl
        have h1 : (1 : BitVec 32).toNat = 1 := rfl
        rw [BitVec.toNat_umod, BitVec.toNat_add, hmod, BitVec.toNat_ofNat, h1024, h1]
        omega
      · rw [sys_succ, System.call, hcard, batchStart]
        split
        · -- an enabled call leaves the active index behind the last one
          apply BitVec.eq_of_toNat_eq
          have h1 : (1 : Index).toNat = 1 := rfl
          rw [Card.serve, nextIndex_eq, hld, BitVec.toNat_add, BitVec.toNat_setWidth, hmod,
            BitVec.toNat_ofNat, h1]
          omega
        · exact hactive

/-- Call `n` of a batch writes the slot of its index and the hardware stops at the number of the
call. -/
theorem slots_eq (n : Nat) :
    slotsWritten calls n = (List.range (n + 1 - batchStart calls n)).map
        (fun k => BitVec.ofNat 10 (calls (batchStart calls n + k)).dd.index.toNat) ∧
      slotsServed calls n = (List.range ((n - batchStart calls n) % 1024 + 1)).map
        (fun k => BitVec.ofNat 10 (batchStart calls n + k)) := by
  have hle := batchStart_le calls n
  constructor
  · have hsingle : (fun k => writtenSlots (accesses calls (batchStart calls n + k))) =
        fun k => [BitVec.ofNat 10 (calls (batchStart calls n + k)).dd.index.toNat] := by
      funext k
      exact (writeDMADescriptor_spec _ _ (sys calls n).card).1
    rw [slotsWritten, hsingle, List.map_eq_flatMap]
  · obtain ⟨hld, hactive⟩ := sys_counters calls n
    obtain ⟨-, hcard, -⟩ :=
      writeDMADescriptor_spec (sys calls n).driver (calls n) (sys calls n).card
    have h1024 : (1024 : BitVec 32).toNat = 1024 := rfl
    have hlast : (BitVec.ofNat 32 (n % 1024) % 1024).setWidth 10 = BitVec.ofNat 10 n := by
      apply BitVec.eq_of_toNat_eq
      rw [BitVec.toNat_setWidth, BitVec.toNat_umod, BitVec.toNat_ofNat, BitVec.toNat_ofNat, h1024]
      omega
    have hdist : (BitVec.ofNat 10 n - BitVec.ofNat 10 (batchStart calls n)).toNat =
        (n - batchStart calls n) % 1024 := by
      rw [BitVec.toNat_sub, BitVec.toNat_ofNat, BitVec.toNat_ofNat]
      omega
    rw [slotsServed, accesses, hcard, Card.served_eq, hld, hlast, hactive, hdist]
    refine List.map_congr_left ?_
    intro k _
    rw [BitVec.ofNat_add]

/-- The hardware goes through exactly the slots that were written, in their order. -/
def SlotsAgree : Prop :=
  ∀ n, (calls n).dd.enable = true → slotsServed calls n = slotsWritten calls n

/-- The user counts like the driver: a batch has at most 1024 calls, and the index of each of them is
its number. -/
def InStep : Prop :=
  ∀ n, (calls n).dd.enable = true → n - batchStart calls n < 1024 ∧
    ∀ k, batchStart calls n ≤ k → k ≤ n → (calls k).dd.index.toNat = k % 1024

/-- The hardware serves the written slots exactly for users that count like the driver. -/
theorem slotsAgree_iff : SlotsAgree calls ↔ InStep calls := by
  refine forall₂_congr ?_
  intro n _
  have hle := batchStart_le calls n
  obtain ⟨hwritten, hserved⟩ := slots_eq calls n
  rw [hwritten, hserved]
  constructor
  · intro heq
    -- the hardware serves at most 1024 descriptors, the batch may have written more
    have hlen := congrArg List.length heq
    simp only [List.length_map, List.length_range] at hlen
    have hlt : n - batchStart calls n < 1024 := by
      have := Nat.mod_lt (n - batchStart calls n) (show 0 < 1024 by decide)
      omega
    refine ⟨hlt, ?_⟩
    intro k hbk hkn
    have hget := congrArg (fun l => l[k - batchStart calls n]?) heq
    have hk : batchStart calls n + (k - batchStart calls n) = k := by omega
    have hlow : k - batchStart calls n < (n - batchStart calls n) % 1024 + 1 := by
      rw [Nat.mod_eq_of_lt hlt]
      omega
    have hup : k - batchStart calls n < n + 1 - batchStart calls n := by omega
    simp only [List.getElem?_map, List.getElem?_range hlow, List.getElem?_range hup,
      Option.map_some, Option.some.injEq, hk] at hget
    have hval := congrArg BitVec.toNat hget
    simp only [BitVec.toNat_ofNat] at hval
    have hindex := (calls k).index_lt
    omega
  · rintro ⟨hlt, hindex⟩
    have hlen : (n - batchStart calls n) % 1024 + 1 = n + 1 - batchStart calls n := by omega
    rw [hlen]
    refine List.map_congr_left ?_
    intro k hk
    rw [List.mem_range] at hk
    apply BitVec.eq_of_toNat_eq
    rw [hindex _ (by omega) (by omega), BitVec.toNat_ofNat, BitVec.toNat_ofNat]
    omega

end Runs

/-- A benchmark of one iteration: it writes slot 0 and enables the engine. -/
def firstSlot : Call where
  dd :=
    { address := 0
      bufferSize := 0x200000
      length := 64
      enable := true
      isC2sOp := true
      isS2cOp := false
      addressMode := 0
      numberOfTlps := 1
      addressOffset := 0
      addressInc := 0
      index := 0 }
  ioAddress := 0x100000
  index_lt := by decide

/-- The second run of that benchmark writes slot 0 again, but the hardware goes on with slot 1. -/
theorem second_run_stale : ¬ SlotsAgree (fun _ => firstSlot) := by
  intro h
  have hslots : slotsServed (fun _ => firstSlot) 1 = [1] := by decide +kernel
  have hwritten : slotsWritten (fun _ => firstSlot) 1 = [0] := by decide +kernel
  have heq := h 1 rfl
  rw [hslots, hwritten] at heq
  cases heq

end Host
end PcieBench
