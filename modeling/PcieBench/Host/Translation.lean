import PcieBench.Host.Memory

/-!
# The address of a descriptor

For a registered buffer `nfp_ioctl` looks up the huge page of the address and refuses a transfer that
leaves it.  Its test compares the page of the first byte with the page of the byte behind the last one,
whose address may wrap around, and nothing compares the page with the number of registered ones.
-/

namespace PcieBench
namespace Host

open Transition

/-! ## Commands with a descriptor -/

/-- The commands that translate an address. -/
inductive DescriptorIoctl
  | writeDmaDescriptor
  | readDmaDescriptor
  deriving DecidableEq, Repr

/-- A call of the driver with a translated address. -/
inductive DescriptorCall
  | writeDMADescriptor (address : BitVec 64)
  | readDMADescriptor (address : BitVec 64)
  deriving DecidableEq, Repr

def DescriptorIoctl.call : DescriptorIoctl → BitVec 64 → DescriptorCall
  | .writeDmaDescriptor, address => .writeDMADescriptor address
  | .readDmaDescriptor, address => .readDMADescriptor address

namespace MemoryState

/-- What `nfp_ioctl` calls, if it does not only print an error; both commands translate the address in
the same way.  Without a result it divides by zero or reads behind `page_address`. -/
def descriptorCall (s : MemoryState) (cmd : DescriptorIoctl) (dd : Descriptor) :
    Option (Option DescriptorCall) :=
  (s.dmaAddress dd).map fun
    | .refused => none
    | .mmap address => some (cmd.call address)
    | .hugePage _ address => some (cmd.call address)

/-- The transfer is not refused. -/
def Accepts (s : MemoryState) (cmd : DescriptorIoctl) (dd : Descriptor) : Prop :=
  s.descriptorCall cmd dd ≠ some none

/-- All bytes of the transfer are in huge page `i` of the buffer. -/
def InHugePage (s : MemoryState) (dd : Descriptor) (i : Nat) : Prop :=
  i < s.buffer.npages.toNat ∧ i * s.buffer.pageSize.toNat ≤ dd.address.toNat ∧
    dd.address.toNat + dd.length.toNat ≤ i * s.buffer.pageSize.toNat + s.buffer.pageSize.toNat

/-- What a translation is for: it accepts the transfers inside one huge page and adds the offset in
this page to its address. -/
structure Translates (s : MemoryState) (cmd : DescriptorIoctl) (dd : Descriptor) : Prop where
  accepts : s.Accepts cmd dd ↔ ∃ i, s.InHugePage dd i
  address : s.Accepts cmd dd → ∃ i : Fin 16, i.val = dd.address.toNat / s.buffer.pageSize.toNat ∧
    i.val < s.buffer.npages.toNat ∧ s.buffer.npages.toNat ≤ 16 ∧
    s.descriptorCall cmd dd = some (some (cmd.call
      ((s.buffer.pageAddress i).address + (dd.address - BitVec.ofNat 64 i * s.buffer.pageSize))))

/-- Where the huge page of the address starts. -/
def pageStart (s : MemoryState) (dd : Descriptor) : Nat :=
  dd.address.toNat / s.buffer.pageSize.toNat * s.buffer.pageSize.toNat

/-- The huge page of the address is one of the buffer. -/
def Registered (s : MemoryState) (dd : Descriptor) : Prop :=
  dd.address.toNat / s.buffer.pageSize.toNat < s.buffer.npages.toNat

/-- The transfer ends with a huge page of the buffer, or behind the last address of 64 bits, if this
page goes so far. -/
def EndsPage (s : MemoryState) (dd : Descriptor) : Prop :=
  s.Registered dd ∧
    dd.address.toNat + dd.length.toNat ≤ s.pageStart dd + s.buffer.pageSize.toNat ∧
    (dd.address.toNat + dd.length.toNat = s.pageStart dd + s.buffer.pageSize.toNat ∨
      2 ^ 64 ≤ dd.address.toNat + dd.length.toNat)

/-- The transfer lies in a page behind the buffer, and not at its end. -/
def BehindBuffer (s : MemoryState) (dd : Descriptor) : Prop :=
  ¬ s.Registered dd ∧
    dd.address.toNat + dd.length.toNat < s.pageStart dd + s.buffer.pageSize.toNat ∧
    dd.address.toNat + dd.length.toNat < 2 ^ 64

/-- The transfer is so long that its end wraps around to its own page. -/
def WrapsAround (s : MemoryState) (dd : Descriptor) : Prop :=
  2 ^ 64 + s.pageStart dd ≤ dd.address.toNat + dd.length.toNat

/-! ## The buffer in force -/

/-- What a successful registration leaves in the card, until the next one or the unregistration. -/
structure Keeps (s : MemoryState) (db : DmaBuffer) : Prop where
  virtual : s.buffer.virtual = db.data
  pageSize : s.buffer.pageSize = db.hpSize
  npages : s.buffer.npages = db.hugePages
  pageSize_ne : db.hpSize ≠ 0
  npages_le : db.hugePages.toNat ≤ 16

variable {s s' : MemoryState}

/-- The buffer of a registration that is in force. -/
def Kept (s : MemoryState) : Prop :=
  ∀ r reg, s.inForce = some r → s.registrations[r]? = some reg → s.Keeps reg.db

theorem kept_register {db : DmaBuffer} {p : Pinning} (hs' : s.regHugemem db p = some s') :
    s'.Kept := by
  intro r reg hforce hreg
  obtain ⟨t, ht, hst⟩ := Option.map_eq_some_iff.mp hs'
  by_cases hneg : p.ret < 0
  · -- nothing is in force behind a failure
    rw [if_pos hneg] at hst
    subst hst
    cases hforce
  · rw [if_neg hneg] at hst
    subst hst
    cases hforce
    have hdb : reg = ⟨db, p⟩ := by simpa using hreg.symm
    subst hdb
    -- a success has allocated the array, so the entries have been stored
    have halloc : ¬ p.allocated = false := by
      intro hfalse
      exact hneg (by simp [Pinning.ret, hfalse])
    unfold getUserHugePages at ht
    rw [if_neg halloc] at ht
    split at ht
    · cases ht
    · rename_i hok
      rw [not_or, BitVec.not_lt] at hok
      cases ht
      exact ⟨rfl, rfl, rfl, hok.1, hok.2⟩

/-- In every history a registration that is in force has its buffer in the card. -/
theorem kept_of_reachable (h : memorySystem.Reachable anyStep s) : s.Kept := by
  refine h.invariant ?_ ?_
  · intro s hinit r reg hforce
    rw [hinit.2.2.2.2.1] at hforce
    cases hforce
  · rintro s e s' hkept - ⟨-, hs'⟩
    cases e with
    | register db p =>
        exact kept_register hs'
    | unregister =>
        -- `virtual` and `page_size` stay, but nothing is in force
        cases hs'
        intro r reg hforce
        unfold unregHugemem at hforce
        split at hforce
        · cases hforce
        · cases hforce
    | writeDescriptor dd =>
        obtain ⟨-, -, rfl⟩ := Option.map_eq_some_iff.mp hs'
        exact hkept

/-! ## The test -/

variable {cmd : DescriptorIoctl} {dd : Descriptor}

/-- The page of the address starts at most a page before it. -/
theorem pageStart_bounds (hsize : s.buffer.pageSize ≠ 0) (dd : Descriptor) :
    s.pageStart dd ≤ dd.address.toNat ∧
      dd.address.toNat < s.pageStart dd + s.buffer.pageSize.toNat := by
  have hpos := toNat_pos_of_ne_zero hsize
  have hdiv := Nat.div_add_mod' dd.address.toNat s.buffer.pageSize.toNat
  have hmod := Nat.mod_lt dd.address.toNat hpos
  unfold pageStart
  omega

/-- A number has the quotient of the address if it is in its page. -/
theorem div_eq_page_iff (hsize : s.buffer.pageSize ≠ 0) (x : Nat) :
    x / s.buffer.pageSize.toNat = dd.address.toNat / s.buffer.pageSize.toNat ↔
      s.pageStart dd ≤ x ∧ x < s.pageStart dd + s.buffer.pageSize.toNat := by
  rw [Nat.div_eq_iff (toNat_pos_of_ne_zero hsize), pageStart]
  have hpos := toNat_pos_of_ne_zero hsize
  omega

/-- What the test says: the end is in the page of the address, or wraps around to it. -/
theorem samePage_iff (hsize : s.buffer.pageSize ≠ 0) :
    s.SamePage dd ↔
      (dd.address.toNat + dd.length.toNat < s.pageStart dd + s.buffer.pageSize.toNat ∧
          dd.address.toNat + dd.length.toNat < 2 ^ 64) ∨ s.WrapsAround dd := by
  have hbounds := pageStart_bounds hsize dd
  have haddress := dd.address.isLt
  have hlength := dd.length.isLt
  have hsame : s.SamePage dd ↔ (dd.address.toNat + dd.length.toNat) % 2 ^ 64 /
      s.buffer.pageSize.toNat = dd.address.toNat / s.buffer.pageSize.toNat := by
    rw [SamePage, ← BitVec.toNat_inj, BitVec.toNat_udiv, BitVec.toNat_udiv, BitVec.toNat_add]
  rw [hsame, div_eq_page_iff hsize, WrapsAround]
  omega

/-- A transfer of at least one byte can only be in the huge page of its address. -/
theorem inHugePage_iff (hsize : s.buffer.pageSize ≠ 0) (hlength : dd.length ≠ 0) :
    (∃ i, s.InHugePage dd i) ↔ s.Registered dd ∧
      dd.address.toNat + dd.length.toNat ≤ s.pageStart dd + s.buffer.pageSize.toNat := by
  have hpos := toNat_pos_of_ne_zero hlength
  constructor
  · rintro ⟨i, hi, hstart, hend⟩
    have hpage : dd.address.toNat / s.buffer.pageSize.toNat = i := by
      rw [Nat.div_eq_iff (toNat_pos_of_ne_zero hsize)]
      omega
    rw [Registered, pageStart, hpage]
    exact ⟨hi, hend⟩
  · rintro ⟨hi, hend⟩
    exact ⟨_, hi, (pageStart_bounds hsize dd).1, hend⟩

/-! ## The translation -/

/-- The start of a piece does not wrap around. -/
theorem toNat_udiv_mul (x size : BitVec 64) :
    (x / size * size).toNat = x.toNat / size.toNat * size.toNat := by
  have hle := Nat.div_mul_le_self x.toNat size.toNat
  have hx := x.isLt
  rw [BitVec.toNat_mul, BitVec.toNat_udiv]
  exact Nat.mod_eq_of_lt (by omega)

/-- The remainder is the distance from the start of the piece. -/
theorem umod_eq_sub (x size : BitVec 64) : x % size = x - x / size * size := by
  have hdiv := Nat.div_add_mod' x.toNat size.toNat
  have hx := x.isLt
  apply BitVec.eq_of_toNat_eq
  rw [BitVec.toNat_umod, BitVec.toNat_sub, toNat_udiv_mul]
  omega

/-- With a registered buffer exactly the transfers that fail the test are refused. -/
theorem accepts_iff (hvirtual : s.buffer.virtual ≠ 0) (hsize : s.buffer.pageSize ≠ 0) :
    s.Accepts cmd dd ↔ s.SamePage dd := by
  unfold Accepts descriptorCall dmaAddress
  rw [if_neg hvirtual, if_neg hsize]
  by_cases hsame : s.SamePage dd
  · rw [if_pos hsame]
    split
    · simp [hsame]
    · simp [hsame]
  · rw [if_neg hsame]
    simp [hsame]

/-- An accepted address in a registered huge page. -/
theorem descriptorCall_eq (hvirtual : s.buffer.virtual ≠ 0) (hsize : s.buffer.pageSize ≠ 0)
    (hsame : s.SamePage dd) {i : Fin 16}
    (hi : i.val = dd.address.toNat / s.buffer.pageSize.toNat) :
    s.descriptorCall cmd dd = some (some (cmd.call
      ((s.buffer.pageAddress i).address + (dd.address - BitVec.ofNat 64 i * s.buffer.pageSize)))) := by
  have hquot : (dd.address / s.buffer.pageSize).toNat = i.val := by
    rw [BitVec.toNat_udiv, hi]
  have hindex : (dd.address / s.buffer.pageSize).toNat < 16 := by
    rw [hquot]
    exact i.isLt
  have hoffset : dd.address % s.buffer.pageSize =
      dd.address - BitVec.ofNat 64 i * s.buffer.pageSize := by
    rw [umod_eq_sub, ← hquot, BitVec.ofNat_toNat, BitVec.setWidth_eq]
  have hentry : (⟨_, hindex⟩ : Fin 16) = i := Fin.ext hquot
  unfold descriptorCall dmaAddress
  rw [if_neg hvirtual, if_neg hsize, if_pos hsame, dif_pos hindex, hentry, hoffset]
  rfl

/-- The translation is right exactly for these transfers: not up to the end of a huge page, not behind
the buffer, and not so long that their end wraps around. -/
theorem translation_iff (h : memorySystem.Reachable anyStep s) {r : Nat} {reg : Registration}
    (hforce : s.inForce = some r) (hreg : s.registrations[r]? = some reg) (hdata : reg.db.data ≠ 0)
    (cmd : DescriptorIoctl) (dd : Descriptor) (hlength : dd.length ≠ 0) :
    s.Translates cmd dd ↔ ¬ s.EndsPage dd ∧ ¬ s.BehindBuffer dd ∧ ¬ s.WrapsAround dd := by
  have hkeeps := kept_of_reachable h r reg hforce hreg
  have hvirtual : s.buffer.virtual ≠ 0 := by
    rw [hkeeps.virtual]
    exact hdata
  have hsize : s.buffer.pageSize ≠ 0 := by
    rw [hkeeps.pageSize]
    exact hkeeps.pageSize_ne
  have hnpages : s.buffer.npages.toNat ≤ 16 := by
    rw [hkeeps.npages]
    exact hkeeps.npages_le
  -- the address is right whenever the answer is
  have htranslates : s.Translates cmd dd ↔ (s.SamePage dd ↔ s.Registered dd ∧
      dd.address.toNat + dd.length.toNat ≤ s.pageStart dd + s.buffer.pageSize.toNat) := by
    have haccepts : s.Accepts cmd dd ↔ s.SamePage dd := accepts_iff hvirtual hsize
    rw [← haccepts, ← inHugePage_iff hsize hlength]
    constructor
    · intro htr
      exact htr.accepts
    · intro hiff
      refine ⟨hiff, ?_⟩
      intro haccepted
      obtain ⟨hregistered, -⟩ := (inHugePage_iff hsize hlength).mp (hiff.mp haccepted)
      refine ⟨⟨_, Nat.lt_of_lt_of_le hregistered hnpages⟩, rfl, hregistered, hnpages, ?_⟩
      exact descriptorCall_eq hvirtual hsize (haccepts.mp haccepted) rfl
  have hbounds := pageStart_bounds hsize dd
  have hpage := s.buffer.pageSize.isLt
  have hend := dd.length.isLt
  rw [htranslates, samePage_iff hsize, EndsPage, BehindBuffer, WrapsAround]
  by_cases hregistered : s.Registered dd
  · simp only [hregistered, true_and, not_true_eq_false, false_and, not_false_eq_true]
    omega
  · simp only [hregistered, true_and, not_false_eq_true, false_and, iff_false]
    omega

/-- A transfer inside the second of two huge pages. -/
theorem translation_second_page :
    registered.Translates .readDmaDescriptor ⟨2097152, 64⟩ ∧
      registered.descriptorCall .readDmaDescriptor ⟨2097152, 64⟩ =
        some (some (.readDMADescriptor 0xffff888100200000)) := by
  have hrun : memorySystem.Reachable anyStep registered := registered_reachable trivial
  have hreg : registered.registrations[0]? = some twoHugePages := rfl
  refine ⟨(translation_iff hrun rfl hreg (by decide) _ _ (by decide)).mpr ⟨?_, ?_, ?_⟩,
    by decide +kernel⟩
  · rintro ⟨-, -, hend | hend⟩
    · revert hend
      decide +kernel
    · revert hend
      decide +kernel
  · rintro ⟨hbehind, -⟩
    unfold Registered at hbehind
    revert hbehind
    decide +kernel
  · unfold WrapsAround
    decide +kernel

/-- The whole first huge page is refused; 64 bytes behind the two huge pages are accepted, and so is a
transfer of almost 2 ^ 64 bytes. -/
theorem whole_page_refused :
    memorySystem.Reachable anyStep registered ∧
      registered.InHugePage ⟨0, 2097152⟩ 0 ∧
      registered.descriptorCall .writeDmaDescriptor ⟨0, 2097152⟩ = some none ∧
      registered.descriptorCall .writeDmaDescriptor ⟨4194304, 64⟩ =
        some (some (.writeDMADescriptor 0)) ∧
      registered.descriptorCall .writeDmaDescriptor ⟨64, 0xffffffffffffffe0⟩ =
        some (some (.writeDMADescriptor 0xffff888100000040)) ∧
      ¬ registered.Translates .writeDmaDescriptor ⟨0, 2097152⟩ := by
  have hpage : registered.InHugePage ⟨0, 2097152⟩ 0 := by
    refine ⟨?_, ?_, ?_⟩ <;> decide +kernel
  have hrefused : registered.descriptorCall .writeDmaDescriptor ⟨0, 2097152⟩ = some none := by
    decide +kernel
  refine ⟨registered_reachable trivial, hpage, hrefused, by decide +kernel, by decide +kernel, ?_⟩
  intro htranslates
  exact htranslates.accepts.mpr ⟨0, hpage⟩ hrefused

end MemoryState
end Host
end PcieBench
