import PcieBench.Host.Mmap

/-!
# The pages of a registered buffer

`NFPIOC_REGISTER_BUFFER` pins the pages of a user buffer and stores the address of each of its huge
pages in `card->buffer.page_address`; `NFPIOC_WRITE_DMA_DESCRIPTOR` takes the address of a transfer
from there, and `NFPIOC_UNREGISTER_BUFFER` releases the pages.  Only `buffer.length` says whether a
buffer is registered, and the descriptor does not look at it: after a failed registration or an
unregistration `virtual` and `page_address` stay as they were.
-/

namespace PcieBench
namespace Host

open Transition

/-! ## The functions of the driver -/

/-- The fields of `struct dma_buffer` that the driver reads. -/
structure DmaBuffer where
  data : BitVec 64
  length : BitVec 64
  hpSize : BitVec 64
  deriving DecidableEq, Repr

/-- The pages that `getUserHugePages` asks for. -/
def DmaBuffer.npages (db : DmaBuffer) : BitVec 64 :=
  let firstPage := db.data >>> 12
  let lastPage := (db.data + db.length - 1) >>> 12
  lastPage - firstPage + 1

/-- `num_huge_pages`: the quotient, rounded up. -/
def DmaBuffer.hugePages (db : DmaBuffer) : BitVec 64 :=
  let n := db.length / db.hpSize
  if db.hpSize * n ≠ db.length then n + 1 else n

/-- The page of the buffer that its `k`-th huge page starts with. -/
def DmaBuffer.firstPage (db : DmaBuffer) (k : BitVec 64) : Nat := (db.hpSize / 4096 * k).toNat

/-- What the kernel answers to a registration: `vmalloc` gives an array or not, `get_user_pages`
returns a number of pinned pages or an error, and the pages in the array have an address.  Behind the
pinned ones the array holds what the memory held. -/
structure Pinning where
  allocated : Bool
  got : Int
  address : Nat → BitVec 64

/-- `vmalloc` of nothing fails, and `get_user_pages` pins at most the pages it is asked for. -/
def Pinning.Possible (p : Pinning) (db : DmaBuffer) : Prop :=
  p.allocated = true → db.npages ≠ 0 ∧ p.got ≤ db.npages.toNat

/-- What `getUserHugePages` returns: the result of `get_user_pages` is cut to an `int`. -/
def Pinning.ret (p : Pinning) : Int :=
  if p.allocated then p.got.bmod (2 ^ 32) else -14

/-- An entry of `page_address`, with the registration that stored it and the page it is about. -/
structure PageEntry where
  address : BitVec 64
  storedBy : Option Nat
  page : Nat
  deriving DecidableEq, Repr

/-- `struct mem`. -/
structure Mem where
  virtual : BitVec 64
  length : BitVec 64
  pageSize : BitVec 64
  npages : BitVec 64
  pageAddress : Fin 16 → PageEntry

/-- A registration, with what the kernel answered. -/
structure Registration where
  db : DmaBuffer
  pinning : Pinning

/-- `reg_hugemem` returns 0. -/
def Registration.Succeeds (r : Registration) : Prop := 0 ≤ r.pinning.ret

/-- The fields of `struct dma_descriptor_sw` that decide about the address. -/
structure Descriptor where
  address : BitVec 64
  length : BitVec 64
  deriving DecidableEq, Repr

/-- The part of the card that the ioctls use and the two statics of the driver, then the history: the
registrations so far, the one that is in force, and how often each page of each registration has been
released.  The array `pages` is known by the registration that allocated it. -/
structure MemoryState where
  buffer : Mem
  mmapInfo : MmapInfo
  pageList : BitVec 64
  pages : Option Nat
  numPages : Int
  registrations : List Registration
  inForce : Option Nat
  released : Nat → Nat → Nat

namespace MemoryState

/-- `getUserHugePages`, or nothing if it divides by zero or writes behind `page_address`.  The entries
are stored whatever `get_user_pages` has returned. -/
def getUserHugePages (s : MemoryState) (db : DmaBuffer) (p : Pinning) : Option MemoryState :=
  if p.allocated = false then some s
  else if db.hpSize = 0 ∨ 16 < db.hugePages then none
  else
    some { s with
      pages := some s.registrations.length
      buffer :=
        { s.buffer with
          pageAddress := fun i =>
            if i.val < db.hugePages.toNat then
              let page := db.firstPage (BitVec.ofNat 64 i)
              { address := p.address page, storedBy := some s.registrations.length, page := page }
            else s.buffer.pageAddress i
          npages := db.hugePages
          virtual := db.data
          length := db.length } }

/-- `reg_hugemem`. -/
def regHugemem (s : MemoryState) (db : DmaBuffer) (p : Pinning) : Option MemoryState :=
  (s.getUserHugePages db p).map fun t =>
    -- `virtual` and `page_address` keep what `getUserHugePages` has stored
    if p.ret < 0 then
      { t with
        numPages := p.ret
        buffer := { t.buffer with length := 0 }
        registrations := s.registrations ++ [⟨db, p⟩]
        inForce := none }
    else
      { t with
        numPages := p.ret
        buffer := { t.buffer with virtual := db.data, length := db.length, pageSize := db.hpSize }
        registrations := s.registrations ++ [⟨db, p⟩]
        inForce := some s.registrations.length }

/-- `forgetUserHugePages (pages, num_pages)` puts each page of the array. -/
def forgetUserHugePages (s : MemoryState) : MemoryState :=
  { s with
    released := fun r j =>
      if s.pages = some r ∧ (j : Int) < s.numPages then s.released r j + 1 else s.released r j }

/-- `unreg_hugemem`. -/
def unregHugemem (s : MemoryState) : MemoryState :=
  -- `virtual`, `page_size` and `page_address` stay
  if s.buffer.length ≠ 0 then
    { s.forgetUserHugePages with
      buffer := { s.buffer with length := 0 }
      numPages := 0
      inForce := none }
  else { s with inForce := none }

/-- Where the address of a transfer comes from. -/
inductive DmaAddress
  | mmap (address : BitVec 64)
  | hugePage (entry : PageEntry) (address : BitVec 64)
  | refused
  deriving DecidableEq, Repr

/-- The transfer does not leave the huge page. -/
def SamePage (s : MemoryState) (dd : Descriptor) : Prop :=
  (dd.address + dd.length) / s.buffer.pageSize = dd.address / s.buffer.pageSize

instance (s : MemoryState) (dd : Descriptor) : Decidable (s.SamePage dd) :=
  inferInstanceAs (Decidable (_ = _))

/-- The address with which `nfp_ioctl` calls `writeDMADescriptor`, or nothing if it divides by zero or
reads behind `page_address`. -/
def dmaAddress (s : MemoryState) (dd : Descriptor) : Option DmaAddress :=
  if s.buffer.virtual = 0 then
    some (.mmap (s.pageList + (s.mmapInfo.first.signExtend 64 + dd.address)))
  else if s.buffer.pageSize = 0 then none
  else if s.SamePage dd then
    if h : (dd.address / s.buffer.pageSize).toNat < 16 then
      let entry := s.buffer.pageAddress ⟨_, h⟩
      some (.hugePage entry (entry.address + dd.address % s.buffer.pageSize))
    else none
  else some .refused

end MemoryState

/-! ## Histories -/

/-- The ioctls of a history, with the answers of the kernel. -/
inductive MemoryEvent
  | register (db : DmaBuffer) (p : Pinning)
  | unregister
  | writeDescriptor (dd : Descriptor)

namespace MemoryState

/-- What an ioctl does. -/
def apply (s : MemoryState) : MemoryEvent → Option MemoryState
  | .register db p => s.regHugemem db p
  | .unregister => some s.unregHugemem
  | .writeDescriptor dd => (s.dmaAddress dd).map (fun _ => s)

/-- After `nfp_probe`, which clears the card. -/
def Initial (s : MemoryState) : Prop :=
  s.buffer = { virtual := 0, length := 0, pageSize := 0, npages := 0
               pageAddress := fun _ => { address := 0, storedBy := none, page := 0 } } ∧
  s.pages = none ∧ s.numPages = 0 ∧ s.registrations = [] ∧ s.inForce = none ∧
  s.released = fun _ _ => 0

end MemoryState

def MemoryEvent.Possible : MemoryEvent → Prop
  | .register db p => p.Possible db
  | _ => True

def memorySystem : LabelledSystem MemoryState MemoryEvent where
  init := MemoryState.Initial
  step s e s' := e.Possible ∧ s.apply e = some s'

namespace MemoryState

/-- The entry was stored by the most recent registration, which has succeeded and is still in force, and
it is about one of the pages that the driver holds. -/
def Held (s : MemoryState) (entry : PageEntry) : Prop :=
  ∃ r reg, s.inForce = some r ∧ s.registrations[r]? = some reg ∧ r + 1 = s.registrations.length ∧
    reg.Succeeds ∧ entry.storedBy = some r ∧ s.pages = some r ∧ (entry.page : Int) < s.numPages ∧
    s.released r entry.page = 0

/-- A transfer with an address of `page_address` goes to a page that is held. -/
def DmaHeld (s : MemoryState) : MemoryEvent → Prop
  | .writeDescriptor dd => ∀ entry address, s.dmaAddress dd = some (.hugePage entry address) →
      s.Held entry
  | _ => True

/-- The pages of the registration in force have not been released, and those of every other successful
registration exactly once. -/
def ReleasedOnce (s : MemoryState) : Prop :=
  ∀ r reg, s.registrations[r]? = some reg → reg.Succeeds → ∀ j : Nat, (j : Int) < reg.pinning.got →
    s.released r j = if s.inForce = some r then 0 else 1

/-- The condition on the ioctls.  A buffer is registered only when none is in force, it has at most 16
huge pages and it is not empty if pages of it get pinned; a descriptor is refused, or belongs to the
mapped memory, or lies in a huge page of the buffer in force whose first page has been pinned. -/
def Orderly (s : MemoryState) : MemoryEvent → Prop
  | .register db p => s.inForce = none ∧ (p.allocated = true →
      db.hpSize ≠ 0 ∧ db.hugePages ≤ 16 ∧ -2 ^ 31 ≤ p.got ∧ p.got < 2 ^ 31 ∧
      (0 < p.got → db.length ≠ 0))
  | .unregister => True
  | .writeDescriptor dd => s.buffer.virtual = 0 ∨ (s.buffer.pageSize ≠ 0 ∧ ¬ s.SamePage dd) ∨
      ∃ r reg, s.inForce = some r ∧ s.registrations[r]? = some reg ∧
        dd.address / reg.db.hpSize < reg.db.hugePages ∧
        (reg.db.firstPage (dd.address / reg.db.hpSize) : Int) < reg.pinning.got

/-! ## The registration in force -/

/-- What the driver holds of the registration `r` that is in force. -/
structure Holds (s : MemoryState) (r : Nat) (reg : Registration) : Prop where
  found : s.registrations[r]? = some reg
  latest : r + 1 = s.registrations.length
  succeeds : reg.Succeeds
  pages : s.pages = some r
  numPages : s.numPages = reg.pinning.got
  length : 0 < reg.pinning.got → s.buffer.length ≠ 0
  pageSize : s.buffer.pageSize = reg.db.hpSize
  pageSize_ne : reg.db.hpSize ≠ 0
  fits : reg.db.hugePages ≤ 16
  entries : ∀ i : Fin 16, i.val < reg.db.hugePages.toNat →
    (s.buffer.pageAddress i).storedBy = some r ∧
      (s.buffer.pageAddress i).page = reg.db.firstPage (BitVec.ofNat 64 i)
  unreleased : ∀ j, s.released r j = 0

/-- `buffer.length` tells whether a registration is in force, and all the others are released. -/
structure Tracked (s : MemoryState) : Prop where
  closed : s.inForce = none → s.buffer.length = 0
  opened : ∀ r, s.inForce = some r → ∃ reg, s.Holds r reg
  released : ∀ r reg, s.registrations[r]? = some reg → reg.Succeeds → s.inForce ≠ some r →
    ∀ j : Nat, (j : Int) < reg.pinning.got → s.released r j = 1
  fresh : ∀ r, s.registrations.length ≤ r → ∀ j, s.released r j = 0

variable {s s' : MemoryState}

theorem Holds.eq_of_found {r : Nat} {reg reg' : Registration} (h : s.Holds r reg)
    (hreg' : s.registrations[r]? = some reg') : reg = reg' := by
  have hfound := h.found
  rw [hreg'] at hfound
  exact (Option.some.inj hfound).symm

theorem Initial.tracked (h : s.Initial) : s.Tracked := by
  obtain ⟨hbuffer, -, -, hregs, hforce, hreleased⟩ := h
  refine ⟨?_, ?_, ?_, ?_⟩
  · intro _
    rw [hbuffer]
  · intro r hr
    rw [hforce] at hr
    cases hr
  · intro r reg hreg
    rw [hregs] at hreg
    cases hreg
  · intro r _ j
    rw [hreleased]

/-- The number of pages that fits an `int` is returned as it is. -/
theorem ret_eq_got {p : Pinning} (halloc : p.allocated = true) (hlow : -2 ^ 31 ≤ p.got)
    (hhigh : p.got < 2 ^ 31) : p.ret = p.got := by
  rw [Pinning.ret, if_pos halloc]
  exact Int.bmod_eq_of_le (by omega) (by omega)

/-- A successful registration of a buffer with room in the table: the entries that it stores. -/
theorem regHugemem_entries {db : DmaBuffer} {p : Pinning} (halloc : ¬ p.allocated = false)
    (hsize : db.hpSize ≠ 0) (hfits : db.hugePages.toNat ≤ 16) (hret : 0 ≤ p.ret) :
    ∃ s', s.regHugemem db p = some s' ∧ s'.inForce = some s.registrations.length ∧
      ∀ i : Fin 16, i.val < db.hugePages.toNat →
        (s'.buffer.pageAddress i).address = p.address (db.firstPage (BitVec.ofNat 64 i)) := by
  have hroom : ¬ (db.hpSize = 0 ∨ 16 < db.hugePages) :=
    not_or.mpr ⟨hsize, BitVec.not_lt.mpr hfits⟩
  unfold regHugemem getUserHugePages
  simp only [if_neg halloc, if_neg hroom, Option.map_some, if_neg (Int.not_lt.mpr hret)]
  refine ⟨_, rfl, rfl, ?_⟩
  intro i hi
  simp [hi]

/-- Without room in the table, or with a division by zero, the kernel does not come back. -/
theorem regHugemem_eq_none {db : DmaBuffer} {p : Pinning} (halloc : ¬ p.allocated = false)
    (hroom : db.hpSize = 0 ∨ 16 < db.hugePages) : s.regHugemem db p = none := by
  unfold regHugemem getUserHugePages
  rw [if_neg halloc, if_pos hroom]
  rfl

/-- What a registration can do: it fails, or its buffer is in force. -/
theorem regHugemem_cases {db : DmaBuffer} {p : Pinning} (hok : s.Orderly (.register db p))
    (hfresh : ∀ j, s.released s.registrations.length j = 0)
    (hs' : s.regHugemem db p = some s') :
    s'.registrations = s.registrations ++ [⟨db, p⟩] ∧ s'.released = s.released ∧
      ((p.ret < 0 ∧ s'.inForce = none ∧ s'.buffer.length = 0) ∨
        (s'.inForce = some s.registrations.length ∧ s'.Holds s.registrations.length ⟨db, p⟩)) := by
  obtain ⟨-, hwell⟩ := hok
  obtain ⟨t, ht, hst⟩ := Option.map_eq_some_iff.mp hs'
  unfold getUserHugePages at ht
  cases halloc : p.allocated with
  | false =>
      -- `vmalloc` has failed: only `buffer.length` and `num_pages` change
      rw [if_pos halloc] at ht
      cases ht
      have hret : p.ret < 0 := by simp [Pinning.ret, halloc]
      rw [if_pos hret] at hst
      subst hst
      exact ⟨rfl, rfl, .inl ⟨hret, rfl, rfl⟩⟩
  | true =>
      obtain ⟨hsize, hfits, hlow, hhigh, hlength⟩ := hwell halloc
      have hret := ret_eq_got halloc hlow hhigh
      rw [if_neg (by simp [halloc]), if_neg (not_or.mpr ⟨hsize, BitVec.not_lt.mpr hfits⟩)] at ht
      cases ht
      by_cases hneg : p.ret < 0
      · -- `get_user_pages` has failed: the entries are stored all the same
        rw [if_pos hneg] at hst
        subst hst
        exact ⟨rfl, rfl, .inl ⟨hneg, rfl, rfl⟩⟩
      · rw [if_neg hneg] at hst
        subst hst
        refine ⟨rfl, rfl, .inr ⟨rfl, ?_⟩⟩
        refine ⟨by simp, by simp, by simpa [Registration.Succeeds] using hneg, rfl, hret, hlength, rfl,
          hsize, hfits, ?_, hfresh⟩
        intro i hi
        simp only at hi
        simp [hi]

/-- The registrations before the new one. -/
theorem getElem?_snoc_cases {regs : List Registration} {reg reg' : Registration} {r : Nat}
    (h : (regs ++ [reg'])[r]? = some reg) :
    regs[r]? = some reg ∨ (r = regs.length ∧ reg = reg') := by
  rcases Nat.lt_trichotomy r regs.length with hlt | heq | hgt
  · rw [List.getElem?_append_left hlt] at h
    exact .inl h
  · subst heq
    simp at h
    exact .inr ⟨rfl, h.symm⟩
  · rw [List.getElem?_append_right (by omega)] at h
    have hnone : ([reg'] : List Registration)[r - regs.length]? = none := by
      rw [List.getElem?_eq_none_iff]
      simp
      omega
    rw [hnone] at h
    cases h

theorem Tracked.register (h : s.Tracked) {db : DmaBuffer} {p : Pinning}
    (hok : s.Orderly (.register db p)) (hs' : s.regHugemem db p = some s') : s'.Tracked := by
  have hnone := hok.1
  obtain ⟨hregs, hreleased, hcases⟩ := regHugemem_cases hok (h.fresh _ le_rfl) hs'
  -- an older registration is not in force, before and after
  have hold : ∀ r reg, s.registrations[r]? = some reg → reg.Succeeds →
      ∀ j : Nat, (j : Int) < reg.pinning.got → s'.released r j = 1 := by
    intro r reg hreg hsucc j hj
    rw [hreleased]
    exact h.released r reg hreg hsucc (by simp [hnone]) j hj
  have hfresh : ∀ r, s'.registrations.length ≤ r → ∀ j, s'.released r j = 0 := by
    intro r hr j
    rw [hregs, List.length_append, List.length_singleton] at hr
    rw [hreleased]
    exact h.fresh r (by omega) j
  rcases hcases with ⟨hret, hforce, hlength⟩ | ⟨hforce, hholds⟩
  · -- the registration fails
    refine ⟨fun _ => hlength, ?_, ?_, hfresh⟩
    · intro r hr
      rw [hforce] at hr
      cases hr
    · intro r reg hreg hsucc _
      rw [hregs] at hreg
      rcases getElem?_snoc_cases hreg with hreg | ⟨-, rfl⟩
      · exact hold r reg hreg hsucc
      · exact absurd hret (not_lt.mpr hsucc)
  · -- the new registration is in force
    refine ⟨?_, ?_, ?_, hfresh⟩
    · intro hfalse
      rw [hforce] at hfalse
      cases hfalse
    · intro r hr
      rw [hforce, Option.some.injEq] at hr
      subst hr
      exact ⟨_, hholds⟩
    · intro r reg hreg hsucc hother
      rw [hregs] at hreg
      rcases getElem?_snoc_cases hreg with hreg | ⟨rfl, -⟩
      · exact hold r reg hreg hsucc
      · exact absurd hforce hother

theorem Tracked.unregister (h : s.Tracked) : s.unregHugemem.Tracked := by
  unfold unregHugemem
  split
  · -- the registration in force is released
    rename_i hlength
    obtain ⟨r, hr⟩ : ∃ r, s.inForce = some r := by
      cases hforce : s.inForce with
      | none =>
          exact absurd (h.closed hforce) hlength
      | some r =>
          exact ⟨r, rfl⟩
    obtain ⟨reg, hheld⟩ := h.opened r hr
    refine ⟨fun _ => rfl, ?_, ?_, ?_⟩
    · intro r' hr'
      cases hr'
    · intro r' reg' hreg' hsucc _ j hj
      show (if s.pages = some r' ∧ (j : Int) < s.numPages then _ else _) = 1
      rw [hheld.pages, hheld.numPages]
      by_cases hsame : r = r'
      · -- its pages have not been released before
        subst hsame
        obtain rfl : reg = reg' := hheld.eq_of_found hreg'
        rw [if_pos ⟨rfl, hj⟩, hheld.unreleased]
      · rw [if_neg (by simp [hsame])]
        exact h.released r' reg' hreg' hsucc (by simp [hr, hsame]) j hj
    · intro r' hr' j
      show (if s.pages = some r' ∧ (j : Int) < s.numPages then _ else _) = 0
      have hlatest := hheld.latest
      have hother : r ≠ r' := by
        have : s.registrations.length ≤ r' := hr'
        omega
      rw [hheld.pages, if_neg (by simp [hother])]
      exact h.fresh r' hr' j
  · -- nothing is in force, or nothing is pinned
    rename_i hlength
    rw [not_not] at hlength
    refine ⟨fun _ => hlength, ?_, ?_, h.fresh⟩
    · intro r hr
      cases hr
    · intro r reg hreg hsucc _ j hj
      by_cases hforce : s.inForce = some r
      · obtain ⟨reg', hheld⟩ := h.opened r hforce
        obtain rfl : reg' = reg := hheld.eq_of_found hreg
        exact absurd hlength (hheld.length (by omega))
      · exact h.released r reg hreg hsucc hforce j hj

/-- Every ioctl that meets the condition keeps the registration in force. -/
theorem Tracked.apply (h : s.Tracked) {e : MemoryEvent} (hok : s.Orderly e)
    (hs' : s.apply e = some s') : s'.Tracked := by
  cases e with
  | register db p =>
      exact h.register hok hs'
  | unregister =>
      cases hs'
      exact h.unregister
  | writeDescriptor dd =>
      obtain ⟨-, -, rfl⟩ := Option.map_eq_some_iff.mp hs'
      exact h

theorem Tracked.releasedOnce (h : s.Tracked) : s.ReleasedOnce := by
  intro r reg hreg hsucc j hj
  split
  · rename_i hforce
    obtain ⟨_, hheld⟩ := h.opened r hforce
    exact hheld.unreleased j
  · rename_i hforce
    exact h.released r reg hreg hsucc hforce j hj

/-- A descriptor that meets the condition takes its address from a page that is held. -/
theorem Tracked.dmaHeld (h : s.Tracked) {e : MemoryEvent} (hok : s.Orderly e) : s.DmaHeld e := by
  cases e with
  | register db p =>
      trivial
  | unregister =>
      trivial
  | writeDescriptor dd =>
      intro entry address hdma
      unfold dmaAddress at hdma
      split at hdma
      · cases hdma
      rename_i hvirtual
      split at hdma
      · cases hdma
      split at hdma
      · rename_i hsame
        split at hdma
        · rename_i hbound
          cases hdma
          rcases hok with hnull | ⟨-, hcross⟩ | ⟨r, reg, hforce, hreg, hpage, hpinned⟩
          · exact absurd hnull hvirtual
          · exact absurd hsame hcross
          · -- the entry is one of those that the registration in force has stored
            obtain ⟨reg', hheld⟩ := h.opened r hforce
            obtain rfl : reg' = reg := hheld.eq_of_found hreg
            have hindex : (dd.address / s.buffer.pageSize).toNat < reg'.db.hugePages.toNat := by
              rw [hheld.pageSize]
              exact hpage
            obtain ⟨hstored, hentry⟩ := hheld.entries ⟨_, hbound⟩ hindex
            refine ⟨r, reg', hforce, hreg, hheld.latest, hheld.succeeds, hstored, hheld.pages, ?_,
              hheld.unreleased _⟩
            rw [hentry, hheld.numPages, BitVec.ofNat_toNat, BitVec.setWidth_eq, hheld.pageSize]
            exact hpinned
        · cases hdma
      · cases hdma

/-- No ioctl that meets the condition divides by zero or leaves `page_address`. -/
theorem Tracked.apply_eq_some (h : s.Tracked) {e : MemoryEvent} (hok : s.Orderly e) :
    ∃ s', s.apply e = some s' := by
  cases e with
  | register db p =>
      suffices hpages : ∃ t, s.getUserHugePages db p = some t by
        obtain ⟨t, ht⟩ := hpages
        exact ⟨_, Option.map_eq_some_iff.mpr ⟨t, ht, rfl⟩⟩
      unfold getUserHugePages
      cases halloc : p.allocated with
      | false =>
          exact ⟨_, if_pos rfl⟩
      | true =>
          obtain ⟨hsize, hfits, -⟩ := hok.2 halloc
          rw [if_neg (by simp), if_neg (not_or.mpr ⟨hsize, BitVec.not_lt.mpr hfits⟩)]
          exact ⟨_, rfl⟩
  | unregister =>
      exact ⟨_, rfl⟩
  | writeDescriptor dd =>
      suffices hdma : ∃ a, s.dmaAddress dd = some a by
        obtain ⟨a, ha⟩ := hdma
        exact ⟨s, Option.map_eq_some_iff.mpr ⟨a, ha, rfl⟩⟩
      unfold dmaAddress
      rcases hok with hnull | ⟨hsize, hcross⟩ | ⟨r, reg, hforce, hreg, hpage, -⟩
      · exact ⟨_, if_pos hnull⟩
      · rw [if_neg hsize, if_neg hcross]
        split
        · exact ⟨_, rfl⟩
        · exact ⟨_, rfl⟩
      · obtain ⟨reg', hheld⟩ := h.opened r hforce
        obtain rfl : reg' = reg := hheld.eq_of_found hreg
        have hfits : reg'.db.hugePages.toNat ≤ 16 := hheld.fits
        have hindex : (dd.address / s.buffer.pageSize).toNat < 16 := by
          rw [hheld.pageSize]
          exact lt_of_lt_of_le hpage hfits
        have hsize : s.buffer.pageSize ≠ 0 := by
          rw [hheld.pageSize]
          exact hheld.pageSize_ne
        rw [if_neg hsize, dif_pos hindex]
        split
        · exact ⟨_, rfl⟩
        · split
          · exact ⟨_, rfl⟩
          · exact ⟨_, rfl⟩

/-! ## Buffers that are pinned as a whole -/

theorem toNat_pos_of_ne_zero {x : BitVec 64} (hx : x ≠ 0) : 0 < x.toNat := by
  rcases Nat.eq_zero_or_pos x.toNat with hzero | hpos
  · exact absurd (BitVec.eq_of_toNat_eq hzero) hx
  · exact hpos

theorem ne_zero_of_lt {x y : BitVec 64} (h : x < y) : y ≠ 0 := by
  rintro rfl
  exact BitVec.not_lt_zero h

/-- The number of huge pages is the least one that covers the buffer. -/
theorem hugePages_toNat {db : DmaBuffer} (hsize : db.hpSize ≠ 0) :
    db.hpSize.toNat * db.hugePages.toNat < db.length.toNat + db.hpSize.toNat ∧
      db.length.toNat ≤ db.hpSize.toNat * db.hugePages.toNat := by
  have hpos := toNat_pos_of_ne_zero hsize
  have hdiv := Nat.div_add_mod db.length.toNat db.hpSize.toNat
  have hmod := Nat.mod_lt db.length.toNat hpos
  have hlength := db.length.isLt
  have hquot : (db.length / db.hpSize).toNat = db.length.toNat / db.hpSize.toNat := BitVec.toNat_udiv
  have hmul : (db.hpSize * (db.length / db.hpSize)).toNat =
      db.hpSize.toNat * (db.length.toNat / db.hpSize.toNat) := by
    rw [BitVec.toNat_mul, hquot]
    exact Nat.mod_eq_of_lt (by omega)
  unfold DmaBuffer.hugePages
  simp only
  split
  · -- the rest of the division makes one more huge page
    rename_i hne
    have hrest : db.length.toNat % db.hpSize.toNat ≠ 0 := by
      intro hzero
      exact hne (BitVec.eq_of_toNat_eq (by rw [hmul]; omega))
    have hle := Nat.le_mul_of_pos_left (db.length.toNat / db.hpSize.toNat) hpos
    have hone : (1 : BitVec 64).toNat = 1 := rfl
    have hsucc : (db.length / db.hpSize + 1).toNat = db.length.toNat / db.hpSize.toNat + 1 := by
      rw [BitVec.toNat_add, hquot, hone]
      exact Nat.mod_eq_of_lt (by omega)
    rw [hsucc, Nat.mul_add, Nat.mul_one]
    omega
  · -- the division is exact
    rename_i heq
    have hexact := congrArg BitVec.toNat (not_not.mp heq)
    rw [hquot]
    omega

/-- Every byte of a buffer is in one of its huge pages. -/
theorem div_lt_hugePages {db : DmaBuffer} (hsize : db.hpSize ≠ 0) {x : BitVec 64}
    (hx : x < db.length) : (x / db.hpSize).toNat < db.hugePages.toNat := by
  rw [BitVec.toNat_udiv, Nat.div_lt_iff_lt_mul (toNat_pos_of_ne_zero hsize), Nat.mul_comm]
  exact lt_of_lt_of_le hx (hugePages_toNat hsize).2

/-- A buffer that does not wrap around has as many pages as its bytes need. -/
theorem length_le_npages {db : DmaBuffer} (hlength : db.length ≠ 0)
    (hwithin : db.data.toNat + db.length.toNat ≤ 2 ^ 64) :
    db.length.toNat ≤ db.npages.toNat * 4096 := by
  have hpos := toNat_pos_of_ne_zero hlength
  have hone : (1 : BitVec 64).toNat = 1 := rfl
  have hlast : (db.data + db.length - 1).toNat = db.data.toNat + db.length.toNat - 1 := by
    rw [BitVec.toNat_sub, BitVec.toNat_add, hone]
    omega
  unfold DmaBuffer.npages
  simp only
  rw [BitVec.toNat_add, BitVec.toNat_sub, BitVec.toNat_ushiftRight, BitVec.toNat_ushiftRight,
    Nat.shiftRight_eq_div_pow, Nat.shiftRight_eq_div_pow, hlast, hone]
  omega

/-- Every huge page of a buffer starts with one of its pages. -/
theorem firstPage_lt_npages {db : DmaBuffer} (hsize : db.hpSize ≠ 0) (hlength : db.length ≠ 0)
    (hwithin : db.data.toNat + db.length.toNat ≤ 2 ^ 64) {k : BitVec 64} (hk : k < db.hugePages) :
    db.firstPage k < db.npages.toNat := by
  have hcover := length_le_npages hlength hwithin
  have hpage : db.firstPage k ≤ db.hpSize.toNat / 4096 * k.toNat := by
    unfold DmaBuffer.firstPage
    rw [BitVec.toNat_mul, BitVec.toNat_udiv]
    exact Nat.mod_le _ _
  have hstart : db.hpSize.toNat * k.toNat < db.length.toNat := by
    have hk' : k.toNat + 1 ≤ db.hugePages.toNat := hk
    have hle := Nat.mul_le_mul_left db.hpSize.toNat hk'
    rw [Nat.mul_add, Nat.mul_one] at hle
    have hleast := (hugePages_toNat hsize).1
    omega
  have hbytes : 4096 * db.firstPage k < db.length.toNat := by
    calc 4096 * db.firstPage k
        ≤ 4096 * (db.hpSize.toNat / 4096 * k.toNat) := Nat.mul_le_mul_left _ hpage
      _ = 4096 * (db.hpSize.toNat / 4096) * k.toNat := by rw [Nat.mul_assoc]
      _ ≤ db.hpSize.toNat * k.toNat := Nat.mul_le_mul_right _ (Nat.mul_div_le _ _)
      _ < db.length.toNat := hstart
  omega

/-- An address inside a buffer whose pages have all been pinned meets the condition. -/
theorem orderly_of_pinned {r : Nat} {reg : Registration} {dd : Descriptor}
    (hforce : s.inForce = some r) (hreg : s.registrations[r]? = some reg)
    (hpinned : reg.pinning.got = reg.db.npages.toNat) (hsize : reg.db.hpSize ≠ 0)
    (hwithin : reg.db.data.toNat + reg.db.length.toNat ≤ 2 ^ 64)
    (haddress : dd.address < reg.db.length) : s.Orderly (.writeDescriptor dd) := by
  have hlength := ne_zero_of_lt haddress
  have hpage : dd.address / reg.db.hpSize < reg.db.hugePages := div_lt_hugePages hsize haddress
  refine .inr (.inr ⟨r, reg, hforce, hreg, hpage, ?_⟩)
  have hfirst := firstPage_lt_npages hsize hlength hwithin hpage
  omega

/-! ## Runs -/

/-- As long as buffers are registered one after the other and descriptors stay inside the buffer in
force, transfers go to pages that are held, and the pages of every buffer are released once. -/
theorem dma_only_to_pinned (h : memorySystem.Reachable Orderly s) :
    (∀ e, s.Orderly e → s.DmaHeld e) ∧ s.ReleasedOnce := by
  have htracked : s.Tracked := by
    refine h.invariant ?_ ?_
    · intro s hinit
      exact Initial.tracked hinit
    · rintro s e s' htracked hok ⟨-, hs'⟩
      exact htracked.apply hok hs'
  exact ⟨fun _ hok => htracked.dmaHeld hok, htracked.releasedOnce⟩

/-- The card after `nfp_probe`. -/
def probed : MemoryState where
  buffer := { virtual := 0, length := 0, pageSize := 0, npages := 0
              pageAddress := fun _ => { address := 0, storedBy := none, page := 0 } }
  mmapInfo := { last := 0, first := 0, active := 0 }
  pageList := 0xffff888000000000
  pages := none
  numPages := 0
  registrations := []
  inForce := none
  released _ _ := 0

/-- Two huge pages of 2 MB, with all their pages pinned. -/
def twoHugePages : Registration where
  db := { data := 0x7f0000000000, length := 4194304, hpSize := 2097152 }
  pinning := { allocated := true, got := 1024
               address := fun k => 0xffff888100000000 + BitVec.ofNat 64 (4096 * k) }

def registered : MemoryState :=
  (probed.regHugemem twoHugePages.db twoHugePages.pinning).getD probed

theorem registered_reachable {ok : MemoryState → MemoryEvent → Prop}
    (hok : ok probed (.register twoHugePages.db twoHugePages.pinning)) :
    memorySystem.Reachable ok registered := by
  have hpossible : twoHugePages.pinning.Possible twoHugePages.db := by
    intro _
    exact ⟨by decide +kernel, by decide +kernel⟩
  refine .step (.init ⟨rfl, rfl, rfl, rfl, rfl, rfl⟩) hok ⟨hpossible, ?_⟩
  rfl

/-- A transfer to the second huge page. -/
theorem dma_only_to_pinned_two :
    memorySystem.Reachable Orderly registered ∧ registered.Orderly (.writeDescriptor ⟨2097152, 64⟩) ∧
      registered.DmaHeld (.writeDescriptor ⟨2097152, 64⟩) ∧ registered.ReleasedOnce := by
  have hrun : memorySystem.Reachable Orderly registered := by
    refine registered_reachable ⟨rfl, fun _ => ⟨?_, ?_, ?_, ?_, fun _ => ?_⟩⟩ <;> decide +kernel
  have hok : registered.Orderly (.writeDescriptor ⟨2097152, 64⟩) := by
    have hreg : registered.registrations[0]? = some twoHugePages := rfl
    refine orderly_of_pinned rfl hreg ?_ ?_ ?_ ?_ <;> decide +kernel
  have hsound := dma_only_to_pinned hrun
  exact ⟨hrun, hok, hsound.1 _ hok, hsound.2⟩

/-- After the buffer has been unregistered, the descriptor still takes its address from `page_address`:
the transfer goes to a page that has been released. -/
theorem dma_after_unregister :
    memorySystem.Reachable anyStep registered.unregHugemem ∧
      ¬ registered.unregHugemem.DmaHeld (.writeDescriptor ⟨2097152, 64⟩) := by
  have hrun : memorySystem.Reachable anyStep registered := registered_reachable trivial
  refine ⟨.step (e := .unregister) hrun trivial ⟨trivial, rfl⟩, ?_⟩
  intro hheld
  obtain ⟨r, -, hforce, -⟩ := hheld _ _ (by rfl)
  cases hforce

end MemoryState
end Host
end PcieBench
