import PcieBench.Host.Ioctl
import PcieBench.Host.Translation

/-!
# What fails in the driver

A registration that fails has already overwritten most of what the card knew of the buffer before, and
an `ioctl` returns 0 for whatever goes wrong behind the copy of its argument.  This module says for
which calls a failed registration leaves no trace, and for which the result of an `ioctl` is true.
-/

namespace PcieBench
namespace Host

open Transition

/-! ## A failed registration -/

namespace MemoryState

/-- The address of a transfer, whatever is known of its page. -/
def DmaAddress.value : DmaAddress → Option (BitVec 64)
  | .mmap address => some address
  | .hugePage _ address => some address
  | .refused => none

/-- `card->buffer` and the two statics hold the same. -/
structure SameFields (s s' : MemoryState) : Prop where
  virtual : s'.buffer.virtual = s.buffer.virtual
  length : s'.buffer.length = s.buffer.length
  pageSize : s'.buffer.pageSize = s.buffer.pageSize
  npages : s'.buffer.npages = s.buffer.npages
  pageAddress : ∀ i, (s'.buffer.pageAddress i).address = (s.buffer.pageAddress i).address
  pages : s'.pages = s.pages
  numPages : s'.numPages = s.numPages

/-- As if the call that leads from `s` to `s'` had not happened: nothing is changed, every descriptor is
translated as before, and an unregistration releases the same pages. -/
structure Untouched (s s' : MemoryState) : Prop where
  fields : SameFields s s'
  descriptors : ∀ dd, (s'.dmaAddress dd).map DmaAddress.value = (s.dmaAddress dd).map DmaAddress.value
  unregister : SameFields s.unregHugemem s'.unregHugemem
  released : s'.unregHugemem.released = s.unregHugemem.released

/-- The call has nothing to overwrite: the length is 0 and `num_pages` is the error already; if the
array was allocated, the card already has the buffer that is refused. -/
structure NothingLost (s : MemoryState) (db : DmaBuffer) (p : Pinning) : Prop where
  length : s.buffer.length = 0
  numPages : s.numPages = p.ret
  virtual : p.allocated = true → s.buffer.virtual = db.data
  npages : p.allocated = true → s.buffer.npages = db.hugePages
  pageAddress : p.allocated = true → ∀ i : Fin 16, i.val < db.hugePages.toNat →
    (s.buffer.pageAddress i).address = p.address (db.firstPage (BitVec.ofNat 64 i))
  pages : p.allocated = true → s.pages = some s.registrations.length

variable {s s' : MemoryState} {db : DmaBuffer} {p : Pinning}

/-- What a failed registration changes. -/
theorem regHugemem_failed (hneg : p.ret < 0) (h : s.regHugemem db p = some s') :
    s'.buffer.length = 0 ∧ s'.numPages = p.ret ∧ s'.buffer.pageSize = s.buffer.pageSize ∧
      s'.mmapInfo = s.mmapInfo ∧ s'.pageList = s.pageList ∧ s'.released = s.released ∧
      if p.allocated then
        s'.buffer.virtual = db.data ∧ s'.buffer.npages = db.hugePages ∧
          s'.pages = some s.registrations.length ∧
          ∀ i : Fin 16, (s'.buffer.pageAddress i).address =
            if i.val < db.hugePages.toNat then p.address (db.firstPage (BitVec.ofNat 64 i))
            else (s.buffer.pageAddress i).address
      else
        s'.buffer.virtual = s.buffer.virtual ∧ s'.buffer.npages = s.buffer.npages ∧
          s'.pages = s.pages ∧ s'.buffer.pageAddress = s.buffer.pageAddress := by
  obtain ⟨t, ht, rfl⟩ := Option.map_eq_some_iff.1 h
  rw [if_pos hneg]
  unfold getUserHugePages at ht
  split at ht
  · rename_i halloc
    cases ht
    rw [if_neg (by rw [halloc]; decide)]
    exact ⟨rfl, rfl, rfl, rfl, rfl, rfl, rfl, rfl, rfl, rfl⟩
  · rename_i halloc
    split at ht
    · cases ht
    · cases ht
      rw [if_pos (by simpa using halloc)]
      refine ⟨rfl, rfl, rfl, rfl, rfl, rfl, rfl, rfl, rfl, fun i => ?_⟩
      dsimp only
      split <;> rfl

/-- The translation of a descriptor depends on the fields, the mapped memory and nothing else. -/
theorem SameFields.dmaAddress (h : SameFields s s') (hmmap : s'.mmapInfo = s.mmapInfo)
    (hlist : s'.pageList = s.pageList) (dd : Descriptor) :
    (s'.dmaAddress dd).map DmaAddress.value = (s.dmaAddress dd).map DmaAddress.value := by
  have hsame : s'.SamePage dd ↔ s.SamePage dd := by
    rw [SamePage, SamePage, h.pageSize]
  unfold MemoryState.dmaAddress
  simp only [h.virtual, h.pageSize, hmmap, hlist, hsame]
  split
  · rfl
  · split
    · rfl
    · split
      · split
        · simp only [Option.map_some, DmaAddress.value, h.pageAddress]
        · rfl
      · rfl

theorem SameFields.unregHugemem (h : SameFields s s') : SameFields s.unregHugemem s'.unregHugemem := by
  unfold MemoryState.unregHugemem
  rw [h.length]
  split
  · exact ⟨h.virtual, rfl, h.pageSize, h.npages, h.pageAddress, h.pages, rfl⟩
  · exact ⟨h.virtual, h.length, h.pageSize, h.npages, h.pageAddress, h.pages, h.numPages⟩

theorem SameFields.released (h : SameFields s s') (hreleased : s'.released = s.released) :
    s'.unregHugemem.released = s.unregHugemem.released := by
  unfold MemoryState.unregHugemem
  rw [h.length]
  split
  · simp only [forgetUserHugePages, h.pages, h.numPages, hreleased]
  · exact hreleased

/-- A failed registration leaves no trace exactly if there is nothing to overwrite. -/
theorem failed_registration_iff (h : s.regHugemem db p = some s') (hneg : p.ret < 0) :
    Untouched s s' ↔ NothingLost s db p := by
  obtain ⟨hlength, hnum, hsize, hmmap, hlist, hreleased, hrest⟩ := regHugemem_failed hneg h
  constructor
  · rintro ⟨hfields, -, -, -⟩
    -- what the failure has written is compared with what was there
    cases halloc : p.allocated with
    | false =>
        refine ⟨hfields.length ▸ hlength, hfields.numPages ▸ hnum, ?_, ?_, ?_, ?_⟩ <;>
          intro hfalse <;> rw [halloc] at hfalse <;> cases hfalse
    | true =>
        rw [if_pos halloc] at hrest
        obtain ⟨hvirtual, hnpages, hpages, hentries⟩ := hrest
        refine ⟨hfields.length ▸ hlength, hfields.numPages ▸ hnum, fun _ => ?_, fun _ => ?_,
          fun _ i hi => ?_, fun _ => ?_⟩
        · rw [← hfields.virtual, hvirtual]
        · rw [← hfields.npages, hnpages]
        · rw [← hfields.pageAddress, hentries, if_pos hi]
        · rw [← hfields.pages, hpages]
  · intro hnothing
    have hfields : SameFields s s' := by
      cases halloc : p.allocated with
      | false =>
          rw [if_neg (by rw [halloc]; decide)] at hrest
          obtain ⟨hvirtual, hnpages, hpages, hentries⟩ := hrest
          exact
            { virtual := hvirtual
              length := by rw [hlength, hnothing.length]
              pageSize := hsize
              npages := hnpages
              pageAddress := fun i => by rw [hentries]
              pages := hpages
              numPages := by rw [hnum, hnothing.numPages] }
      | true =>
          rw [if_pos halloc] at hrest
          obtain ⟨hvirtual, hnpages, hpages, hentries⟩ := hrest
          refine
            { virtual := by rw [hvirtual, hnothing.virtual halloc]
              length := by rw [hlength, hnothing.length]
              pageSize := hsize
              npages := by rw [hnpages, hnothing.npages halloc]
              pageAddress := fun i => ?_
              pages := by rw [hpages, hnothing.pages halloc]
              numPages := by rw [hnum, hnothing.numPages] }
          rw [hentries]
          split
          · rename_i hi
            exact (hnothing.pageAddress halloc i hi).symm
          · rfl
    exact ⟨hfields, hfields.dmaAddress hmmap hlist, hfields.unregHugemem, hfields.released hreleased⟩

/-- `vmalloc` fails. -/
def noArray : Pinning where
  allocated := false
  got := 0
  address _ := 0

/-- The second of two failed registrations changes nothing. -/
theorem failed_registration_twice :
    ∃ s s', probed.regHugemem twoHugePages.db noArray = some s ∧
      s.regHugemem twoHugePages.db noArray = some s' ∧ noArray.ret < 0 ∧ Untouched s s' := by
  have hneg : noArray.ret < 0 := by decide
  obtain ⟨s, hs⟩ : ∃ s, probed.regHugemem twoHugePages.db noArray = some s := ⟨_, rfl⟩
  obtain ⟨s', hs'⟩ : ∃ s', s.regHugemem twoHugePages.db noArray = some s' := ⟨_, rfl⟩
  obtain ⟨hlength, hnum, -⟩ := regHugemem_failed hneg hs
  refine ⟨s, s', hs, hs', hneg, (failed_registration_iff hs' hneg).2 ⟨hlength, hnum, ?_, ?_, ?_, ?_⟩⟩ <;>
    intro hfalse <;> cases hfalse

/-- A failed registration while a buffer is registered: its length is lost, and its pages are never
released. -/
theorem failed_registration_loses :
    ∃ s', registered.regHugemem twoHugePages.db noArray = some s' ∧ noArray.ret < 0 ∧
      ¬ Untouched registered s' := by
  refine ⟨_, rfl, by decide, fun h => ?_⟩
  exact absurd h.fields.numPages (by decide)

end MemoryState

/-! ## The result of an ioctl -/

/-- What the argument points to, by the command. -/
structure IoctlArgument where
  bar : BitVec 32
  timeout : BitVec 64
  dd : Descriptor
  db : DmaBuffer

/-- What the kernel answers: a signal in `down_interruptible`, the two copies, and the registration. -/
structure IoctlAnswers where
  interrupted : Bool
  copiedIn : Bool
  copiedOut : Bool
  pinning : Pinning

/-- The card: the buffer, and which BARs are mapped. -/
structure IoctlCard where
  memory : MemoryState
  mapped : Fin 3 → Bool

/-- What a call has done besides the buffer of the card. -/
inductive IoctlEffect
  | windowSize (size : BitVec 64)
  | iowrite32 (bar : Fin 3)
  | ioread32 (bar : Fin 3)
  | descriptor (call : DescriptorCall)
  | copiedOut
  deriving DecidableEq, Repr

namespace IoctlCard

/-- The BAR that `WriteReg32` and `ReadReg32` access, if they do. -/
def accessedBar (card : IoctlCard) (bar : BitVec 32) : Option (Fin 3) :=
  if h : bar.toNat < 3 then
    if card.mapped ⟨bar.toNat, h⟩ then some ⟨bar.toNat, h⟩ else none
  else none

/-- What the descriptor commands do, with `copy_to_user` behind a read. -/
def operateDescriptor (card : IoctlCard) (cmd : DescriptorIoctl) (dd : Descriptor)
    (out : List IoctlEffect) : Option (List IoctlEffect) :=
  (card.memory.descriptorCall cmd dd).map fun
    | none => []
    | some call => .descriptor call :: out

/-- The `switch` of `nfp_ioctl`: what it does and the buffer that it leaves, or nothing where it divides
by zero or leaves a table.  The results of `copy_to_user` and `reg_hugemem` are dropped. -/
def operate (card : IoctlCard) (arg : IoctlArgument) (k : IoctlAnswers) :
    Ioctl → Option (List IoctlEffect × MemoryState)
  | .windowSize => some ([.windowSize arg.timeout], card.memory)
  | .write32 => some ((card.accessedBar arg.bar).toList.map .iowrite32, card.memory)
  | .read32 =>
      some ((card.accessedBar arg.bar).toList.map .ioread32 ++
        if k.copiedOut then [.copiedOut] else [], card.memory)
  | .writeDmaDescriptor =>
      (card.operateDescriptor .writeDmaDescriptor arg.dd []).map fun effects => (effects, card.memory)
  | .readDmaDescriptor =>
      (card.operateDescriptor .readDmaDescriptor arg.dd
        (if k.copiedOut then [.copiedOut] else [])).map fun effects => (effects, card.memory)
  | .registerBuffer => (card.memory.regHugemem arg.db k.pinning).map fun memory => ([], memory)
  | .unregisterBuffer => some ([], card.memory.unregHugemem)
  | .unrecognized => some ([], card.memory)

end IoctlCard

namespace IoctlCard

/-- The buffer is not empty and has room in `page_address`. -/
def Fits (db : DmaBuffer) : Prop := db.length ≠ 0 ∧ db.hpSize ≠ 0 ∧ db.hugePages ≤ 16

variable {card : IoctlCard} {arg : IoctlArgument} {k : IoctlAnswers}

end IoctlCard

end Host
end PcieBench
