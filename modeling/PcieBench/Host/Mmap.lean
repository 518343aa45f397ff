import PcieBench.Memory.Ranges
import PcieBench.Transition.Reachable
import Mathlib.Data.BitVec

/-!
# The kernel pages that the driver maps

`mmap_kmem` hands out pages of `page_list` from the `last` end of a ring, and `mmap_close` gives them
back at the `first` end.  The test in `mmap_kmem` looks for free pages around the end of the list, but
a mapping is one range of physical memory and does not wrap; and `mmap_close` does not look at which
mapping is closed.  The numbers are C `int`s, here 32-bit vectors.
-/

namespace PcieBench
namespace Host

open Memory Transition

/-! ## The functions of the driver -/

/-- `MAX_PAGES`, as a number and as the `int` of the code. -/
def maxPages : Nat := 1024

def maxPagesInt : BitVec 32 := 1024

/-- The fields of `struct mmap_info` that the two functions use. -/
structure MmapInfo where
  last : BitVec 32
  first : BitVec 32
  active : BitVec 32
  deriving DecidableEq, Repr

/-- `npages`: the quotient is cut to an `int` before it is compared with the length. -/
def npages (length : BitVec 64) : BitVec 32 :=
  let n : BitVec 32 := (length / 4096).setWidth 32
  if n.signExtend 64 * 4096 ≠ length then n + 1 else n

/-- The loop of `mmap_kmem`: one of the next pages is the first one in use. -/
def noFreeElements (m : MmapInfo) (npages : BitVec 32) : Bool :=
  (List.range npages.toInt.toNat).any
    (fun i => (m.last + BitVec.ofNat 32 i + 1).srem maxPagesInt == m.first)

/-- The pages that `remap_pfn_range` maps for a length, which it rounds up. -/
def pageCount (length : BitVec 64) : Nat := (length.toNat + 4095) / 4096

/-- A mapping: the length of its `vm_area_struct` and the page of `page_list` it starts with. -/
structure Mapping where
  length : BitVec 64
  start : Int
  deriving DecidableEq, Repr

/-- The pages of a mapping. -/
def Mapping.range (m : Mapping) : Range where
  start := m.start
  size := pageCount m.length

/-- `mmap_kmem`: the mapping it grants, or `-EAGAIN`; `remaps` is the outcome of `remap_pfn_range`. -/
def mmapKmem (m : MmapInfo) (length : BitVec 64) (remaps : Bool) : MmapInfo × Option Mapping :=
  if noFreeElements m (npages length) then (m, none)
  else if remaps then
    ({ m with last := (m.last + npages length).srem maxPagesInt, active := 1 },
      some { length := length, start := m.last.toInt })
  else (m, none)

/-- `mmap_close` of a mapping of this length. -/
def mmapClose (m : MmapInfo) (length : BitVec 64) : MmapInfo :=
  if m.first = m.last then { m with active := 0 }
  else { m with first := (m.first + npages length).srem maxPagesInt }

/-! ## Histories -/

/-- The calls of a history: a request with the outcome of `remap_pfn_range`, or the end of the `k`-th
oldest live mapping. -/
inductive MmapEvent
  | mmap (length : BitVec 64) (remaps : Bool)
  | close (k : Nat)
  deriving DecidableEq, Repr

/-- The driver's numbers and the live mappings, oldest first. -/
structure MmapState where
  info : MmapInfo
  live : List Mapping
  deriving DecidableEq, Repr

/-- What a call does. -/
def MmapState.apply (s : MmapState) : MmapEvent → MmapState
  | .mmap length remaps =>
      { info := (mmapKmem s.info length remaps).1
        live := s.live ++ (mmapKmem s.info length remaps).2.toList }
  | .close k =>
      match s.live[k]? with
      | none => s
      | some m =>
          { info := mmapClose s.info m.length
            live := s.live.eraseIdx k }

/-- Before the first call. -/
def MmapState.start : MmapState where
  info := { last := 0, first := 0, active := 0 }
  live := []

def mmapSystem : LabelledSystem MmapState MmapEvent where
  init s := s = .start
  step s e s' := s' = s.apply e

/-- What the allocator promises. -/
structure MmapState.Sound (s : MmapState) : Prop where
  inside : ∀ m ∈ s.live, m.range.Inside maxPages
  disjoint : (s.live.map Mapping.range).Pairwise Range.Disjoint
  restored : s.live = [] → s.info.first = s.info.last

/-- The request ends at the latest at the end of `page_list`, unless it is refused, and the oldest
mapping is closed first. -/
def InOrder (s : MmapState) : MmapEvent → Prop
  | .mmap length remaps => remaps = true → noFreeElements s.info (npages length) = false →
      s.info.last.toNat + pageCount length ≤ maxPages
  | .close k => k = 0

/-! ## The arithmetic of the code -/

/-- The remainder of an `int` that is not negative. -/
theorem srem_maxPages {x : BitVec 32} (hx : x.toNat < 2 ^ 31) :
    (x.srem maxPagesInt).toNat = x.toNat % 1024 := by
  have hmsb : x.msb = false := by
    rw [BitVec.msb_eq_decide]
    simp
    omega
  have hmax : maxPagesInt.msb = false := by decide
  rw [BitVec.srem_eq, hmsb, hmax]
  rfl

/-- The number of pages of a length that is not absurd. -/
theorem npages_toNat {length : BitVec 64} (h : pageCount length < 2 ^ 31) :
    (npages length).toNat = pageCount length := by
  unfold pageCount at h ⊢
  have hq : length.toNat / 4096 < 2 ^ 31 := by omega
  have hn : ((length / 4096).setWidth 32).toNat = length.toNat / 4096 := by
    rw [BitVec.toNat_setWidth, BitVec.toNat_udiv]
    have hval : (4096 : BitVec 64).toNat = 4096 := rfl
    rw [hval]
    omega
  have hext : (((length / 4096).setWidth 32).signExtend 64 * 4096 : BitVec 64).toNat =
      length.toNat / 4096 * 4096 := by
    rw [BitVec.signExtend_eq_setWidth_of_msb_false, BitVec.toNat_mul, BitVec.toNat_setWidth, hn]
    · have hval : (4096 : BitVec 64).toNat = 4096 := rfl
      rw [hval]
      omega
    · rw [BitVec.msb_eq_decide, hn]
      simp
      omega
  unfold npages
  simp only
  split
  · -- the length is not a multiple of the page
    rename_i hne
    have hrest : length.toNat / 4096 * 4096 ≠ length.toNat := by
      intro heq
      exact hne (BitVec.eq_of_toNat_eq (by rw [hext, heq]))
    rw [BitVec.toNat_add, hn]
    have hone : (1 : BitVec 32).toNat = 1 := rfl
    rw [hone]
    omega
  · rename_i heq
    have hrest := congrArg BitVec.toNat (not_not.mp heq)
    rw [hext] at hrest
    rw [hn]
    omega

theorem toInt_toNat {x : BitVec 32} (hx : x.toNat < 2 ^ 31) : x.toInt = x.toNat := by
  rw [BitVec.toInt_eq_toNat_cond, if_pos (by omega)]

/-- The ring positions of the two ends, counted without wrapping. -/
structure MmapInfo.Ends (m : MmapInfo) (f l : Nat) : Prop where
  first : m.first.toNat = f % 1024
  last : m.last.toNat = l % 1024
  room : l < f + 1024

/-- A request that passes the loop leaves a page free. -/
theorem MmapInfo.Ends.room_of_free {m : MmapInfo} {first last : Nat} (h : m.Ends first last)
    (hle : first ≤ last) {n : BitVec 32} (hn : n.toNat ≤ 1024)
    (hfree : noFreeElements m n = false) : last + n.toNat < first + 1024 := by
  by_contra hfull
  -- the iteration that reaches the first page in use
  have hroom := h.room
  have hlast := h.last
  have hbound : 1023 - (last - first) < n.toInt.toNat := by
    rw [toInt_toNat (by omega), Int.toNat_natCast]
    omega
  have hhit : (m.last + BitVec.ofNat 32 (1023 - (last - first)) + 1).srem maxPagesInt = m.first := by
    apply BitVec.eq_of_toNat_eq
    have hone : (1 : BitVec 32).toNat = 1 := rfl
    have hsum : (m.last + BitVec.ofNat 32 (1023 - (last - first)) + 1).toNat =
        last % 1024 + (1024 - (last - first)) := by
      rw [BitVec.toNat_add, BitVec.toNat_add, BitVec.toNat_ofNat, hone, hlast]
      omega
    rw [srem_maxPages (by omega), hsum, h.first]
    omega
  rw [noFreeElements, List.any_eq_false] at hfree
  exact hfree _ (List.mem_range.mpr hbound) (beq_iff_eq.mpr hhit)

/-! ## The invariant -/

/-- The live mappings lie one behind the other, from the first page in use to the last one. -/
def MmapState.Ring (s : MmapState) : Prop :=
  ∃ first last, s.info.Ends first last ∧ Chain 1024 first (s.live.map Mapping.range) last

theorem MmapState.Ring.mmap {s : MmapState} (h : s.Ring) {length : BitVec 64} {remaps : Bool}
    (hok : InOrder s (.mmap length remaps)) : (s.apply (.mmap length remaps)).Ring := by
  obtain ⟨first, last, hends, hchain⟩ := h
  simp only [MmapState.apply, mmapKmem]
  cases hfree : noFreeElements s.info (npages length) with
  | true =>
      exact ⟨first, last, hends, by simpa using hchain⟩
  | false =>
      cases remaps with
      | false =>
          exact ⟨first, last, hends, by simpa using hchain⟩
      | true =>
          -- the new mapping follows the last one without wrapping
          have hfit : s.info.last.toNat + pageCount length ≤ 1024 := hok rfl hfree
          have hlast := hends.last
          have hpages : (npages length).toNat = pageCount length := npages_toNat (by omega)
          have hroom := hends.room_of_free hchain.le (by omega) hfree
          refine ⟨first, last + pageCount length, ⟨hends.first, ?_, by omega⟩, ?_⟩
          · have hsum : (s.info.last + npages length).toNat =
                last % 1024 + pageCount length := by
              rw [BitVec.toNat_add, hlast, hpages]
              omega
            show ((s.info.last + npages length).srem maxPagesInt).toNat = _
            rw [srem_maxPages (by omega), hsum]
            omega
          · have hstart : s.info.last.toInt = (last % 1024 : Nat) := by
              rw [toInt_toNat (by omega), hlast]
            have hsnoc := hchain.snoc (r := Mapping.range ⟨length, s.info.last.toInt⟩) hstart
              (show last % 1024 + pageCount length ≤ 1024 by omega)
            rw [List.map_append]
            exact hsnoc

theorem MmapState.Ring.close {s : MmapState} (h : s.Ring) : (s.apply (.close 0)).Ring := by
  obtain ⟨first, last, hends, hchain⟩ := h
  cases hlive : s.live with
  | nil =>
      simp only [MmapState.apply, hlive, List.getElem?_nil]
      exact ⟨first, last, hends, hchain⟩
  | cons m live =>
      rw [hlive] at hchain
      obtain ⟨-, hfit, hrest⟩ := hchain
      have hfit' : first % 1024 + pageCount m.length ≤ 1024 := hfit
      have hrest' : Chain 1024 (first + pageCount m.length) (live.map Mapping.range) last := hrest
      have hle := hrest'.le
      have hroom := hends.room
      have hfirst := hends.first
      have hlast := hends.last
      simp only [MmapState.apply, hlive, List.getElem?_cons_zero, List.eraseIdx_cons_zero, mmapClose]
      split
      · -- an empty ring: the mapping had no page
        rename_i heq
        have hsame : first % 1024 = last % 1024 := by rw [← hfirst, ← hlast, heq]
        refine ⟨first + pageCount m.length, last, ⟨?_, hlast, by omega⟩, hrest'⟩
        show s.info.first.toNat = _
        rw [hfirst]
        omega
      · -- the oldest mapping is the one at `first`
        refine ⟨first + pageCount m.length, last, ⟨?_, hlast, by omega⟩, hrest'⟩
        have hpages : (npages m.length).toNat = pageCount m.length := npages_toNat (by omega)
        have hsum : (s.info.first + npages m.length).toNat = first % 1024 + pageCount m.length := by
          rw [BitVec.toNat_add, hfirst, hpages]
          omega
        show ((s.info.first + npages m.length).srem maxPagesInt).toNat = _
        rw [srem_maxPages (by omega), hsum]
        omega

/-- The ring keeps the promise. -/
theorem MmapState.Ring.sound {s : MmapState} (h : s.Ring) : s.Sound := by
  obtain ⟨first, last, hends, hchain⟩ := h
  have hroom := hends.room
  refine ⟨?_, hchain.pairwise_disjoint (by omega), ?_⟩
  · intro m hm
    exact hchain.inside _ (List.mem_map_of_mem hm)
  · intro hnone
    rw [hnone] at hchain
    have hsame : first = last := hchain
    apply BitVec.eq_of_toNat_eq
    rw [hends.first, hends.last, hsame]

/-- Requests that do not pass the end of the page list and mappings that are closed in the order of
their requests keep every mapping inside the list and apart from the others, and leave no page behind. -/
theorem mmap_sound {s : MmapState} (h : mmapSystem.Reachable InOrder s) : s.Sound := by
  refine MmapState.Ring.sound (h.invariant ?_ ?_)
  · rintro s rfl
    exact ⟨0, 0, ⟨rfl, rfl, by decide⟩, rfl⟩
  · rintro s e s' hring hok rfl
    cases e with
    | mmap length remaps =>
        exact hring.mmap hok
    | close k =>
        obtain rfl : k = 0 := hok
        exact hring.close

/-- Two mappings of four and of one page, with the first one closed. -/
theorem mmap_sound_two :
    MmapState.Sound (((MmapState.start.apply (.mmap 16384 true)).apply (.mmap 100 true)).apply
      (.close 0)) := by
  refine mmap_sound (.step (.step (.step (.init rfl) ?_ rfl) ?_ rfl) ?_ rfl)
  · intro _ _
    decide
  · intro _ _
    decide
  · rfl

/-- The state after a mapping of 1023 pages that has been closed again and one of two pages. -/
def mmapPastEnd : MmapState :=
  ((MmapState.start.apply (.mmap (1023 * 4096) true)).apply (.close 0)).apply (.mmap 8192 true)

/-- The second mapping starts with the last page of the list and goes one page behind it. -/
theorem mmap_past_end :
    mmapSystem.Reachable anyStep mmapPastEnd ∧ ¬ mmapPastEnd.Sound := by
  refine ⟨.step (.step (.step (.init rfl) trivial rfl) trivial rfl) trivial rfl, ?_⟩
  intro hsound
  have hinside := hsound.inside ⟨8192, 1023⟩ (by decide +kernel)
  revert hinside
  decide +kernel

end Host
end PcieBench
