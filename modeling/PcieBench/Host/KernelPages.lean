import PcieBench.Host.Translation

/-!
# The address of a descriptor in the kernel pages

Without a registered buffer the address of a descriptor counts from the oldest mapping of the kernel
pages.  `mmap_kmem` and `mmap_close` count `first` in pages, `nfp_ioctl` adds it to a byte pointer, and
it compares the transfer with no mapping: the translation is right as long as the ring is at its start.
-/

namespace PcieBench
namespace Host

open Transition

/-! ## What the translation is for -/

/-- The transfer, counted from the start of the mapping, lies inside it. -/
def Mapping.Contains (m : Mapping) (dd : Descriptor) : Prop :=
  dd.address.toNat + dd.length.toNat ≤ m.length.toNat

instance (m : Mapping) (dd : Descriptor) : Decidable (m.Contains dd) :=
  inferInstanceAs (Decidable (_ ≤ _))

/-- The kernel address of a byte of the mapping. -/
def Mapping.kernelAddress (m : Mapping) (pageList offset : BitVec 64) : BitVec 64 :=
  pageList + BitVec.ofInt 64 (4096 * m.start) + offset

theorem DescriptorIoctl.call_inj (cmd : DescriptorIoctl) {a b : BitVec 64} :
    cmd.call a = cmd.call b ↔ a = b := by
  cases cmd <;> simp [DescriptorIoctl.call]

namespace MmapState

/-- The transfer lies inside the oldest live mapping. -/
def InOldest (s : MmapState) (dd : Descriptor) : Prop :=
  ∃ m, s.live.head? = some m ∧ m.Contains dd

/-- The transfer, counted from the oldest live mapping, lies inside a live mapping. -/
def InLive (s : MmapState) (dd : Descriptor) : Prop :=
  ∃ oldest, s.live.head? = some oldest ∧ ∃ m ∈ s.live,
    4096 * m.start ≤ 4096 * oldest.start + dd.address.toNat ∧
      4096 * oldest.start + dd.address.toNat + dd.length.toNat ≤ 4096 * m.start + m.length.toNat

/-- A transfer inside the oldest live mapping goes to the byte of this mapping, a number of pages behind
`page_list`, and one outside of every live mapping is rejected. -/
structure Translates (s : MmapState) (card : MemoryState) (cmd : DescriptorIoctl) (dd : Descriptor) :
    Prop where
  address : ∀ m, s.live.head? = some m → m.Contains dd →
    card.descriptorCall cmd dd = some (some (cmd.call (m.kernelAddress card.pageList dd.address))) ∧
      m.kernelAddress card.pageList dd.address =
        card.pageList + 4096 * s.info.first.signExtend 64 + dd.address
  rejected : ¬ s.InLive dd → card.descriptorCall cmd dd = some none

/-- The ring is at the start of `page_list`, and so is the oldest live mapping. -/
def AtStart (s : MmapState) : Prop :=
  s.info.first = 0 ∧ ∀ m, s.live.head? = some m → m.start = 0

theorem InOldest.inLive {s : MmapState} {dd : Descriptor} (h : s.InOldest dd) : s.InLive dd := by
  obtain ⟨m, hm, hin⟩ := h
  unfold Mapping.Contains at hin
  exact ⟨m, hm, m, List.mem_of_mem_head? hm, by omega, by omega⟩

/-! ## The positions of the ring -/

/-- The end of the ring and the starts of the mappings are remainders. -/
structure Bounded (s : MmapState) : Prop where
  last : s.info.last.toInt.natAbs < 1024
  start : ∀ m ∈ s.live, m.start.natAbs < 1024

theorem srem_natAbs_lt (x : BitVec 32) : (x.srem maxPagesInt).toInt.natAbs < 1024 := by
  have hmax : maxPagesInt.toInt = 1024 := by decide
  rw [BitVec.toInt_srem, hmax, Int.natAbs_tmod]
  exact Nat.mod_lt _ (by decide)

theorem Bounded.mmap {s : MmapState} (h : s.Bounded) (length : BitVec 64) (remaps : Bool) :
    (s.apply (.mmap length remaps)).Bounded := by
  simp only [apply, mmapKmem]
  split
  · exact ⟨h.last, by simpa using h.start⟩
  · split
    · refine ⟨srem_natAbs_lt _, ?_⟩
      intro m hm
      rcases List.mem_append.1 hm with hold | hnew
      · exact h.start m hold
      · -- the new mapping starts where the ring ended
        obtain rfl : m = { length := length, start := s.info.last.toInt } := by simpa using hnew
        exact h.last
    · exact ⟨h.last, by simpa using h.start⟩

theorem Bounded.close {s : MmapState} (h : s.Bounded) (k : Nat) : (s.apply (.close k)).Bounded := by
  simp only [apply]
  split
  · exact h
  · refine ⟨?_, fun m hm => h.start m (List.mem_of_mem_eraseIdx hm)⟩
    simp only [mmapClose]
    split <;> exact h.last

/-- In every history the positions stay in the ring. -/
theorem bounded_of_reachable {s : MmapState} (h : mmapSystem.Reachable anyStep s) : s.Bounded := by
  refine h.invariant ?_ ?_
  · rintro s rfl
    exact ⟨by decide, by simp [start]⟩
  · rintro s e s' hbounded - rfl
    cases e with
    | mmap length remaps =>
        exact hbounded.mmap length remaps
    | close k =>
        exact hbounded.close k

/-! ## Pages and bytes -/

/-- A number of pages is the same number of bytes only if it is 0. -/
theorem pages_eq_bytes_iff (x : BitVec 32) : 4096 * x.signExtend 64 = x.signExtend 64 ↔ x = 0 := by
  constructor
  · intro h
    -- the product of a page number and 4096 does not wrap in 64 bits
    have hint := congrArg BitVec.toInt h
    have hpage : (4096 : BitVec 64).toInt = 4096 := by decide
    have hlow := BitVec.le_toInt x
    have hhigh := BitVec.toInt_lt (x := x)
    rw [BitVec.toInt_mul, BitVec.toInt_signExtend_of_le (by decide), hpage,
      Int.bmod_eq_of_le (by omega) (by omega)] at hint
    have hzero : (0 : BitVec 32).toInt = 0 := rfl
    apply BitVec.eq_of_toInt_eq
    rw [hzero]
    omega
  · rintro rfl
    rfl

/-- A page of the ring starts at byte 0 only if it is the first one. -/
theorem page_eq_zero_iff {start : Int} (h : start.natAbs < 1024) :
    BitVec.ofInt 64 (4096 * start) = 0 ↔ start = 0 := by
  constructor
  · intro hzero
    have hint := congrArg BitVec.toInt hzero
    have hint0 : (0 : BitVec 64).toInt = 0 := rfl
    rw [BitVec.toInt_ofInt_eq_self (by decide) (by omega) (by omega), hint0] at hint
    omega
  · rintro rfl
    rfl

/-! ## The translation -/

variable {s : MmapState} {card : MemoryState}

/-- Without a registered buffer every transfer is translated, in bytes. -/
theorem descriptorCall_mmap (hvirtual : card.buffer.virtual = 0) (hinfo : card.mmapInfo = s.info)
    (cmd : DescriptorIoctl) (dd : Descriptor) :
    card.descriptorCall cmd dd =
      some (some (cmd.call (card.pageList + (s.info.first.signExtend 64 + dd.address)))) := by
  unfold MemoryState.descriptorCall MemoryState.dmaAddress
  rw [if_pos hvirtual, hinfo]
  rfl

/-- The two ways to count agree in the oldest mapping exactly if the ring is at its start. -/
theorem address_agrees_iff {m : Mapping} (hm : m.start.natAbs < 1024) (first : BitVec 32)
    (pageList offset : BitVec 64) :
    (pageList + (first.signExtend 64 + offset) = m.kernelAddress pageList offset ∧
        m.kernelAddress pageList offset = pageList + 4096 * first.signExtend 64 + offset) ↔
      first = 0 ∧ m.start = 0 := by
  unfold Mapping.kernelAddress
  -- the page list and the offset are the same on both sides
  rw [← BitVec.add_assoc, BitVec.add_left_inj, BitVec.add_right_inj, BitVec.add_left_inj,
    BitVec.add_right_inj]
  constructor
  · rintro ⟨hbytes, hpages⟩
    have hfirst : first = 0 := (pages_eq_bytes_iff first).1 (hpages.symm.trans hbytes.symm)
    subst hfirst
    exact ⟨rfl, (page_eq_zero_iff hm).1 hbytes.symm⟩
  · rintro ⟨rfl, hstart⟩
    rw [hstart]
    exact ⟨rfl, rfl⟩

/-- In every history of mappings, a descriptor is treated as it should be exactly if it lies in a live
mapping, and if this is the oldest one, the ring is at its start. -/
theorem kernel_address_iff (h : mmapSystem.Reachable anyStep s) (hvirtual : card.buffer.virtual = 0)
    (hinfo : card.mmapInfo = s.info) (cmd : DescriptorIoctl) (dd : Descriptor) :
    s.Translates card cmd dd ↔ s.InLive dd ∧ (s.InOldest dd → s.AtStart) := by
  have hcall := descriptorCall_mmap hvirtual hinfo cmd dd
  have hbounded := bounded_of_reachable h
  have hagrees : ∀ m, s.live.head? = some m → _ := fun m hm =>
    address_agrees_iff (hbounded.start m (List.mem_of_mem_head? hm)) s.info.first card.pageList
      dd.address
  constructor
  · rintro ⟨haddress, hrejected⟩
    constructor
    · -- nothing is rejected
      by_contra hout
      have hnone := hrejected hout
      rw [hcall] at hnone
      cases hnone
    · rintro ⟨m, hm, hin⟩
      obtain ⟨hsame, hformula⟩ := haddress m hm hin
      rw [hcall, Option.some.injEq, Option.some.injEq, DescriptorIoctl.call_inj] at hsame
      obtain ⟨hfirst, hstart⟩ := (hagrees m hm).1 ⟨hsame, hformula⟩
      refine ⟨hfirst, ?_⟩
      intro m' hm'
      rw [hm] at hm'
      cases hm'
      exact hstart
  · rintro ⟨hlive, hoffset⟩
    refine ⟨?_, fun hout => absurd hlive hout⟩
    intro m hm hin
    obtain ⟨hfirst, hstart⟩ := hoffset ⟨m, hm, hin⟩
    obtain ⟨hsame, hformula⟩ := (hagrees m hm).2 ⟨hfirst, hstart m hm⟩
    exact ⟨by rw [hcall, hsame], hformula⟩

/-- A mapping of four pages has been closed, and one of a page is live. -/
def secondMapping : MmapState :=
  ((start.apply (.mmap 16384 true)).apply (.close 0)).apply (.mmap 4096 true)

/-- The card behind these calls. -/
def secondCard : MemoryState := { MemoryState.probed with mmapInfo := secondMapping.info }

/-- The first mapping of a page. -/
def firstMapping : MmapState := start.apply (.mmap 4096 true)

/-- A transfer of 64 bytes at the end of the page. -/
def endOfPage : Descriptor := { address := 4032, length := 64 }

/-- In the first mapping the transfer goes to the end of its page. -/
theorem kernel_address_first :
    let card : MemoryState := { MemoryState.probed with mmapInfo := firstMapping.info }
    mmapSystem.Reachable anyStep firstMapping ∧ card.buffer.virtual = 0 ∧
      firstMapping.InOldest endOfPage ∧
      firstMapping.Translates card .writeDmaDescriptor endOfPage := by
  have hrun : mmapSystem.Reachable anyStep firstMapping := .step (.init rfl) trivial rfl
  have hlive : firstMapping.live = [⟨4096, 0⟩] := by decide +kernel
  have hfirst : firstMapping.info.first = 0 := by decide +kernel
  have hin : firstMapping.InOldest endOfPage :=
    ⟨⟨4096, 0⟩, by rw [hlive]; rfl, by decide⟩
  refine ⟨hrun, rfl, hin, (kernel_address_iff hrun rfl rfl _ _).2 ⟨hin.inLive, fun _ => ⟨hfirst, ?_⟩⟩⟩
  intro m hm
  rw [hlive] at hm
  cases hm
  rfl

/-- In the second mapping it goes to byte 4036 of the list, in the page of the closed mapping, and not to
byte 20416. -/
theorem second_mapping_wrong_page :
    mmapSystem.Reachable anyStep secondMapping ∧ secondMapping.InOldest endOfPage ∧
      ¬ secondMapping.Translates secondCard .writeDmaDescriptor endOfPage := by
  have hlive : secondMapping.live = [⟨4096, 4⟩] := by decide +kernel
  have hin : (⟨4096, 4⟩ : Mapping).Contains endOfPage := by decide
  refine ⟨.step (.step (.step (.init rfl) trivial rfl) trivial rfl) trivial rfl,
    ⟨⟨4096, 4⟩, by rw [hlive]; rfl, hin⟩, ?_⟩
  intro h
  obtain ⟨haddress, -⟩ := h.address ⟨4096, 4⟩ (by rw [hlive]; rfl) hin
  revert haddress
  decide +kernel

end MmapState

end Host
end PcieBench
