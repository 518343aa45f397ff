import PcieBench.Host.Accounting
import PcieBench.Host.Translation

/-!
# The table of huge pages

`getUserHugePages` stores one address for every `hp_size` bytes of a buffer: the one of the page number
`hp_size / PAGE_SIZE * i` that `get_user_pages` has returned.  Byte `x` is looked up there as
`page_address[x / hp_size] + x % hp_size`.  This module says for which buffers the table has room and
its addresses are those of the bytes, whatever the kernel has placed the pages of the user at.
-/

namespace PcieBench
namespace Host

/-! ## What the table is for -/

/-- Where the kernel sees the memory of the user: the memory of each real huge page, of `2 ^ e` bytes, is
contiguous. -/
def Contiguous (e : Nat) (kernel : BitVec 64 → BitVec 64) : Prop :=
  ∀ u v : BitVec 64, u >>> e = v >>> e → kernel u - kernel v = u - v

/-- The user address of page `k` of the buffer. -/
def DmaBuffer.pageAt (db : DmaBuffer) (k : Nat) : BitVec 64 :=
  BitVec.ofNat 64 (db.data.toNat / 4096 * 4096 + 4096 * k)

/-- `get_user_pages` has returned pages of the buffer in their order. -/
structure Pinning.InOrder (p : Pinning) (db : DmaBuffer) (kernel : BitVec 64 → BitVec 64) : Prop where
  allocated : p.allocated = true
  address : ∀ k : Nat, (k : Int) < p.got → p.address k = kernel (db.pageAt k)

namespace MemoryState

/-- The table has an entry for each byte of the buffer and leads to the address of this byte. -/
def Locates (s : MemoryState) (db : DmaBuffer) (kernel : BitVec 64 → BitVec 64) : Prop :=
  ∀ x, x < db.length → ∃ h : (x / db.hpSize).toNat < 16,
    (s.buffer.pageAddress ⟨_, h⟩).address + x % db.hpSize = kernel (db.data + x)

/-- The registration neither divides by zero nor leaves the table, and the table is right. -/
def Registers (s : MemoryState) (db : DmaBuffer) (p : Pinning) (kernel : BitVec 64 → BitVec 64) :
    Prop :=
  ∃ s', s.regHugemem db p = some s' ∧ s'.inForce = some s.registrations.length ∧
    s'.Locates db kernel

end MemoryState

/-- The buffers for which the table is right: at most 16 pieces of `hp_size` bytes, from the start of a
page on, of whole pages if there is more than one, each in one real huge page and with its first page
among those that `get_user_pages` has returned. -/
structure DmaBuffer.Fits (db : DmaBuffer) (got : Int) (e : Nat) : Prop where
  hpSize_ne : db.hpSize ≠ 0
  hugePages_le : db.hugePages.toNat ≤ 16
  aligned : db.length ≠ 0 → db.data.toNat % 4096 = 0
  pages : db.hpSize < db.length → db.hpSize.toNat % 4096 = 0
  returned : ∀ x, x < db.length → (db.firstPage (x / db.hpSize) : Int) < got
  pieces : ∀ x, x < db.length → (db.data + x) >>> e = (db.data + x / db.hpSize * db.hpSize) >>> e

/-! ## The entries -/

section Entries

variable {db : DmaBuffer} {p : Pinning} {s : MemoryState} {kernel : BitVec 64 → BitVec 64}

/-- What is looked up in the entries of the pieces. -/
theorem locates_iff (hsize : db.hpSize ≠ 0) (hle : db.hugePages.toNat ≤ 16)
    (hentry : ∀ i : Fin 16, i.val < db.hugePages.toNat →
      (s.buffer.pageAddress i).address = p.address (db.firstPage (BitVec.ofNat 64 i))) :
    s.Locates db kernel ↔ ∀ x, x < db.length →
      p.address (db.firstPage (x / db.hpSize)) + x % db.hpSize = kernel (db.data + x) := by
  refine forall₂_congr fun x hx => ?_
  have hlt := MemoryState.div_lt_hugePages hsize hx
  have hsame := hentry ⟨(x / db.hpSize).toNat, by omega⟩ hlt
  rw [BitVec.ofNat_toNat, BitVec.setWidth_eq] at hsame
  constructor
  · rintro ⟨_, haddress⟩
    rw [← haddress, hsame]
  · intro haddress
    refine ⟨by omega, ?_⟩
    rw [hsame, haddress]

/-- The registration, as far as the table is concerned. -/
theorem registers_iff (horder : p.InOrder db kernel) (hret : 0 ≤ p.ret) :
    s.Registers db p kernel ↔ db.hpSize ≠ 0 ∧ db.hugePages.toNat ≤ 16 ∧
      ∀ x, x < db.length →
        p.address (db.firstPage (x / db.hpSize)) + x % db.hpSize = kernel (db.data + x) := by
  have halloc : ¬ p.allocated = false := by
    rw [horder.allocated]
    simp
  constructor
  · rintro ⟨s', hs', -, hlocates⟩
    have hroom : ¬ (db.hpSize = 0 ∨ 16 < db.hugePages) := by
      intro hnone
      rw [MemoryState.regHugemem_eq_none halloc hnone] at hs'
      cases hs'
    obtain ⟨hsize, hle⟩ := not_or.mp hroom
    rw [BitVec.not_lt] at hle
    obtain ⟨t, ht, -, hentry⟩ := MemoryState.regHugemem_entries (s := s) halloc hsize hle hret
    rw [hs'] at ht
    cases ht
    exact ⟨hsize, hle, (locates_iff hsize hle hentry).mp hlocates⟩
  · rintro ⟨hsize, hle, haddress⟩
    obtain ⟨s', hs', hforce, hentry⟩ := MemoryState.regHugemem_entries (s := s) halloc hsize hle hret
    exact ⟨s', hs', hforce, (locates_iff hsize hle hentry).mpr haddress⟩

end Entries

/-! ## Addresses in one page -/

section Pages

variable {e : Nat}

/-- Real huge pages consist of pages. -/
theorem ushiftRight_eq_of_page (hlow : 12 ≤ e) {u v : BitVec 64}
    (h : u.toNat / 4096 = v.toNat / 4096) : u >>> e = v >>> e := by
  have hsplit : 2 ^ e = 4096 * 2 ^ (e - 12) := by
    rw [show (4096 : Nat) = 2 ^ 12 by decide, ← Nat.pow_add, Nat.add_sub_cancel' hlow]
  apply BitVec.eq_of_toNat_eq
  rw [BitVec.toNat_ushiftRight, BitVec.toNat_ushiftRight, Nat.shiftRight_eq_div_pow,
    Nat.shiftRight_eq_div_pow, hsplit, ← Nat.div_div_eq_div_mul, ← Nat.div_div_eq_div_mul, h]

/-- A memory in which no two huge pages are next to each other. -/
def scattered (e : Nat) (u : BitVec 64) : BitVec 64 := u + (u >>> e) <<< 12

theorem scattered_contiguous : Contiguous e (scattered e) := by
  intro u v h
  unfold scattered
  rw [h]
  bv_omega

/-- The distance of two bytes in it is their own only in one huge page. -/
theorem eq_of_scattered_sub (hlow : 12 ≤ e) {u v : BitVec 64}
    (h : scattered e u - scattered e v = u - v) : u >>> e = v >>> e := by
  have hshift : (u >>> e) <<< 12 = (v >>> e) <<< 12 := by
    unfold scattered at h
    bv_omega
  have hbound : ∀ w : BitVec 64, (w >>> e).toNat * 4096 < 2 ^ 64 := by
    intro w
    rw [BitVec.toNat_ushiftRight, Nat.shiftRight_eq_div_pow]
    have hw := w.isLt
    have hle := Nat.div_le_div_left (Nat.pow_le_pow_right (show 0 < 2 by decide) hlow)
      (by decide) (a := w.toNat)
    omega
  have hu := hbound u
  have hv := hbound v
  have hnat := congrArg BitVec.toNat hshift
  rw [BitVec.toNat_shiftLeft, BitVec.toNat_shiftLeft, Nat.shiftLeft_eq, Nat.shiftLeft_eq] at hnat
  apply BitVec.eq_of_toNat_eq
  omega

/-- Two bytes of one page have the same address only if they are the same. -/
theorem eq_of_scattered_eq (hlow : 12 ≤ e) {u v : BitVec 64}
    (hpage : u.toNat / 4096 = v.toNat / 4096) (h : scattered e u = scattered e v) : u = v := by
  have hsub := scattered_contiguous u v (ushiftRight_eq_of_page hlow hpage)
  rw [h] at hsub
  bv_omega

end Pages

/-! ## The pieces of a buffer -/

section Pieces

variable {db : DmaBuffer}

/-- The number of the first page of a piece does not wrap around. -/
theorem firstPage_div (x : BitVec 64) :
    db.firstPage (x / db.hpSize) = db.hpSize.toNat / 4096 * (x.toNat / db.hpSize.toNat) := by
  have hx := x.isLt
  have hle : db.hpSize.toNat / 4096 * (x.toNat / db.hpSize.toNat) ≤ x.toNat :=
    calc
      _ ≤ db.hpSize.toNat * (x.toNat / db.hpSize.toNat) :=
        Nat.mul_le_mul_right _ (Nat.div_le_self _ _)
      _ ≤ x.toNat := Nat.mul_div_le _ _
  rw [DmaBuffer.firstPage, BitVec.toNat_mul, BitVec.toNat_udiv, BitVec.toNat_udiv]
  exact Nat.mod_eq_of_lt (Nat.lt_of_le_of_lt hle hx)

/-- In a buffer of whole pages the first page of a piece is where the piece starts. -/
theorem pageAt_firstPage {x : BitVec 64} (hdata : db.data.toNat % 4096 = 0)
    (hpages : db.hpSize ≤ x → db.hpSize.toNat % 4096 = 0) :
    db.pageAt (db.firstPage (x / db.hpSize)) = db.data + x / db.hpSize * db.hpSize := by
  have hbytes : 4096 * (db.hpSize.toNat / 4096 * (x.toNat / db.hpSize.toNat)) =
      x.toNat / db.hpSize.toNat * db.hpSize.toNat := by
    by_cases hle : db.hpSize ≤ x
    · have hwhole : 4096 * (db.hpSize.toNat / 4096) = db.hpSize.toNat := by
        have := hpages hle
        omega
      rw [← Nat.mul_assoc, hwhole, Nat.mul_comm]
    · -- the first piece
      rw [BitVec.not_le] at hle
      rw [Nat.div_eq_of_lt hle, Nat.mul_zero, Nat.mul_zero, Nat.zero_mul]
  have hstart : db.data.toNat / 4096 * 4096 = db.data.toNat := by omega
  apply BitVec.eq_of_toNat_eq
  rw [DmaBuffer.pageAt, firstPage_div, hbytes, hstart, BitVec.toNat_ofNat, BitVec.toNat_add,
    MemoryState.toNat_udiv_mul]

end Pieces

/-! ## The buffers of the middleware -/

/-- `hugepage_number`: what the file `free_hugepages` of the directory for pages of so many KB says, if
there is one. -/
def hugepageNumber (sys : HugePages) (free : Nat → Option (BitVec 64)) : BitVec 64 :=
  (free ((hugepageSize sys).toNat / 1024)).getD 0

/-- The number of huge pages that `getFreeHugePages` asks for. -/
def requestedPages (sys : HugePages) (free : Nat → Option (BitVec 64)) (npages : BitVec 32) :
    BitVec 32 :=
  if npages = 0 then (hugepageNumber sys free).setWidth 32 else npages

/-- The buffer that `getFreeHugePages` registers; `data` is the result of `mmap`. -/
def getFreeHugePages (sys : HugePages) (free : Nat → Option (BitVec 64)) (npages : BitVec 32)
    (data : BitVec 64) : DmaBuffer where
  data := data
  length := (requestedPages sys free npages).setWidth 64 * hugepageSize sys
  hpSize := hugepageSize sys

/-- The size of the real huge pages, as a logarithm. -/
def HugePages.log2 (sys : HugePages) : Nat := if sys.gigabyte then 30 else 21

section Middleware

variable {sys : HugePages} {free : Nat → Option (BitVec 64)} {npages : BitVec 32} {data : BitVec 64}

/-- There are two sizes. -/
theorem hugepageSize_cases (hsize : hugepageSize sys ≠ 0) :
    (sys.gigabyte = true ∧ hugepageSize sys = 1073741824) ∨
      (sys.gigabyte = false ∧ hugepageSize sys = 2048) := by
  unfold hugepageSize at hsize ⊢
  split at hsize
  · rename_i hdir
    rw [if_pos hdir]
    cases hgb : sys.gigabyte with
    | true => exact .inl ⟨rfl, rfl⟩
    | false =>
        rw [hgb] at hsize
        split at hsize
        · contradiction
        · split at hsize
          · rename_i hmb
            exact .inr ⟨rfl, by rw [if_neg (by decide), if_pos hmb]⟩
          · exact absurd rfl hsize
  · exact absurd rfl hsize

/-- A buffer in mapped huge pages, with pieces that a huge page consists of, has its pieces at the
right places. -/
theorem DmaBuffer.fits_of_dvd {db : DmaBuffer} {e : Nat} (hlow : 12 ≤ e) (hsize : db.hpSize ≠ 0)
    (hdvd : db.hpSize.toNat ∣ 2 ^ e) (hdata : db.data.toNat % 2 ^ e = 0)
    (hwithin : db.data.toNat + db.length.toNat ≤ 2 ^ 64)
    (hpages : db.hpSize < db.length → db.hpSize.toNat % 4096 = 0)
    (hle : db.hugePages.toNat ≤ 16) : db.Fits db.npages.toNat e := by
  have hpage : 4096 ∣ 2 ^ e := pow_dvd_pow 2 hlow
  refine ⟨hsize, hle, ?_, hpages, ?_, ?_⟩
  · intro _
    exact Nat.mod_eq_zero_of_dvd (hpage.trans (Nat.dvd_of_mod_eq_zero hdata))
  · intro x hx
    have hlength := MemoryState.ne_zero_of_lt hx
    have hfirst := MemoryState.firstPage_lt_npages hsize hlength hwithin
      (MemoryState.div_lt_hugePages hsize hx)
    omega
  · intro x hx
    have hx' : x.toNat < db.length.toNat := hx
    obtain ⟨m, hm⟩ := hdvd
    obtain ⟨d, hd⟩ := Nat.dvd_of_mod_eq_zero hdata
    have hle := Nat.div_mul_le_self x.toNat db.hpSize.toNat
    -- the quotient of the byte and of the start of its piece
    have hquot : x.toNat / db.hpSize.toNat * db.hpSize.toNat / 2 ^ e = x.toNat / 2 ^ e := by
      rw [hm, Nat.mul_comm (x.toNat / db.hpSize.toNat),
        Nat.mul_div_mul_left _ _ (MemoryState.toNat_pos_of_ne_zero hsize), Nat.div_div_eq_div_mul]
    apply BitVec.eq_of_toNat_eq
    rw [BitVec.toNat_ushiftRight, BitVec.toNat_ushiftRight, Nat.shiftRight_eq_div_pow,
      Nat.shiftRight_eq_div_pow, BitVec.toNat_add, BitVec.toNat_add, MemoryState.toNat_udiv_mul,
      Nat.mod_eq_of_lt (by omega), Nat.mod_eq_of_lt (by omega), hd, Nat.mul_add_div (by positivity),
      Nat.mul_add_div (by positivity), hquot]

/-- The length of the buffer does not wrap around. -/
theorem getFreeHugePages_length :
    (getFreeHugePages sys free npages data).length.toNat =
      (requestedPages sys free npages).toNat * (hugepageSize sys).toNat := by
  have hrequested := (requestedPages sys free npages).isLt
  have hle : (hugepageSize sys).toNat ≤ 2 ^ 30 := by
    have htotal : totalSize sys = hugepageSize sys := BitVec.one_mul _
    rw [← htotal]
    exact totalSize_le sys
  have hmul := Nat.mul_le_mul (Nat.le_of_lt hrequested) hle
  have hwide : ((requestedPages sys free npages).setWidth 64).toNat =
      (requestedPages sys free npages).toNat := by
    rw [BitVec.toNat_setWidth]
    exact Nat.mod_eq_of_lt (by omega)
  rw [getFreeHugePages, BitVec.toNat_mul, hwide]
  exact Nat.mod_eq_of_lt (by omega)

/-- It has as many pieces as huge pages were asked for. -/
theorem getFreeHugePages_hugePages (hsize : hugepageSize sys ≠ 0) :
    (getFreeHugePages sys free npages data).hugePages.toNat =
      (requestedPages sys free npages).toNat := by
  have hsize' : (getFreeHugePages sys free npages data).hpSize ≠ 0 := hsize
  have hpos : 0 < (getFreeHugePages sys free npages data).hpSize.toNat :=
    MemoryState.toNat_pos_of_ne_zero hsize'
  obtain ⟨hleast, hcover⟩ := MemoryState.hugePages_toNat hsize'
  have hlength : (getFreeHugePages sys free npages data).length.toNat =
      (getFreeHugePages sys free npages data).hpSize.toNat *
        (requestedPages sys free npages).toNat := by
    rw [getFreeHugePages_length, Nat.mul_comm]
    rfl
  rw [hlength] at hcover
  rw [hlength, ← Nat.mul_succ] at hleast
  have hupper := Nat.lt_of_mul_lt_mul_left hleast
  have hlower := Nat.le_of_mul_le_mul_left hcover hpos
  omega

/-- A buffer of the middleware in mapped huge pages fits if it has at most 16 of 1 GB.  Of huge pages of
2 MB it must not have two: they are reported with the wrong size. -/
theorem getFreeHugePages_fits_iff (hsize : hugepageSize sys ≠ 0)
    (hdata : data.toNat % 2 ^ sys.log2 = 0)
    (hwithin : data.toNat + (getFreeHugePages sys free npages data).length.toNat ≤ 2 ^ 64) :
    (getFreeHugePages sys free npages data).Fits
        (getFreeHugePages sys free npages data).npages.toNat sys.log2 ↔
      (requestedPages sys free npages).toNat ≤ if sys.gigabyte then 16 else 1 := by
  have hlength : (getFreeHugePages sys free npages data).length.toNat = _ := getFreeHugePages_length
  have hcount : (getFreeHugePages sys free npages data).hugePages.toNat = _ :=
    getFreeHugePages_hugePages hsize
  have hreported : (getFreeHugePages sys free npages data).hpSize = hugepageSize sys := rfl
  rcases hugepageSize_cases hsize with ⟨hgb, hvalue⟩ | ⟨hgb, hvalue⟩
  · have hnat : (hugepageSize sys).toNat = 2 ^ 30 := by rw [hvalue]; rfl
    have hlog : sys.log2 = 30 := by simp [HugePages.log2, hgb]
    rw [hlog] at hdata ⊢
    rw [if_pos hgb, ← hcount]
    refine ⟨fun hfits => hfits.hugePages_le, ?_⟩
    intro hle
    refine DmaBuffer.fits_of_dvd (by decide) hsize ?_ hdata hwithin ?_ hle
    · rw [hreported, hnat]
    · intro _
      rw [hreported, hnat]
      decide
  · have hnat : (hugepageSize sys).toNat = 2048 := by rw [hvalue]; rfl
    have hlog : sys.log2 = 21 := by simp [HugePages.log2, hgb]
    have hmore : (getFreeHugePages sys free npages data).hpSize <
        (getFreeHugePages sys free npages data).length ↔
          1 < (requestedPages sys free npages).toNat := by
      rw [BitVec.lt_def, hlength, hreported, hnat]
      omega
    rw [hlog] at hdata ⊢
    rw [if_neg (by simp [hgb])]
    constructor
    · intro hfits
      -- two pieces of half a page
      by_contra hmany
      have hpages := hfits.pages (hmore.mpr (by omega))
      rw [hreported, hnat] at hpages
      omega
    · intro hle
      refine DmaBuffer.fits_of_dvd (by decide) hsize ?_ hdata hwithin ?_ (by omega)
      · rw [hreported, hnat]
        decide
      · intro hlt
        exact absurd (hmore.mp hlt) (by omega)

end Middleware

/-! ## Registrations -/

section Registrations

variable {db : DmaBuffer} {got : Int} {e : Nat}

/-- In a buffer that fits, every byte is at the address of its entry. -/
theorem DmaBuffer.Fits.address {p : Pinning} {kernel : BitVec 64 → BitVec 64} (h : db.Fits p.got e)
    (hcontiguous : Contiguous e kernel) (horder : p.InOrder db kernel) {x : BitVec 64}
    (hx : x < db.length) :
    p.address (db.firstPage (x / db.hpSize)) + x % db.hpSize = kernel (db.data + x) := by
  have hlength := MemoryState.ne_zero_of_lt hx
  have hstart := pageAt_firstPage (h.aligned hlength)
    (fun hle => h.pages (Nat.lt_of_le_of_lt hle hx))
  have hdistance := hcontiguous _ _ (h.pieces x hx)
  generalize hpiece : x / db.hpSize * db.hpSize = start at hstart hdistance
  calc
    p.address (db.firstPage (x / db.hpSize)) + x % db.hpSize
        = kernel (db.pageAt (db.firstPage (x / db.hpSize))) + x % db.hpSize := by
          rw [horder.address _ (h.returned x hx)]
    _ = kernel (db.data + start) + (x - start) := by
          rw [hstart, MemoryState.umod_eq_sub, hpiece]
    _ = kernel (db.data + x) := by
          bv_omega

/-- An answer of the kernel: `got` pages in their order, and `rest` behind them. -/
def returning (db : DmaBuffer) (got : Int) (kernel : BitVec 64 → BitVec 64) (rest : BitVec 64) :
    Pinning where
  allocated := true
  got := got
  address k := if (k : Int) < got then kernel (db.pageAt k) else rest

theorem returning_address (kernel : BitVec 64 → BitVec 64) (rest : BitVec 64) (k : Nat) :
    (returning db got kernel rest).address k =
      if (k : Int) < got then kernel (db.pageAt k) else rest := rfl

theorem returning_inOrder (kernel : BitVec 64 → BitVec 64) (rest : BitVec 64) :
    (returning db got kernel rest).InOrder db kernel :=
  ⟨rfl, fun _ hk => if_pos hk⟩

/-- What the registration does with the answers of the scattered memory. -/
structure Places (db : DmaBuffer) (got : Int) (e : Nat) : Prop where
  hpSize_ne : db.hpSize ≠ 0
  hugePages_le : db.hugePages.toNat ≤ 16
  address : ∀ (rest x : BitVec 64), x < db.length →
    (returning db got (scattered e) rest).address (db.firstPage (x / db.hpSize)) + x % db.hpSize =
      scattered e (db.data + x)

/-- Behind the returned pages there is anything, so no byte may depend on it. -/
theorem Places.returned (h : Places db got e) {x : BitVec 64} (hx : x < db.length) :
    (db.firstPage (x / db.hpSize) : Int) < got := by
  by_contra hbehind
  have haddress := h.address (scattered e (db.data + x) - x % db.hpSize + 1) x hx
  rw [returning_address, if_neg hbehind] at haddress
  generalize scattered e (db.data + x) = target at haddress
  generalize x % db.hpSize = offset at haddress
  bv_omega

theorem Places.page (h : Places db got e) {x : BitVec 64} (hx : x < db.length) :
    scattered e (db.pageAt (db.firstPage (x / db.hpSize))) + x % db.hpSize =
      scattered e (db.data + x) := by
  have haddress := h.address 0 x hx
  rw [returning_address, if_pos (h.returned hx)] at haddress
  exact haddress

/-- The first byte of a piece is the first one of its page. -/
theorem Places.pageAt_eq (h : Places db got e) (hlow : 12 ≤ e) {x : BitVec 64} (hx : x < db.length)
    (hfirst : x % db.hpSize = 0)
    (hpage : (db.pageAt (db.firstPage (x / db.hpSize))).toNat / 4096 =
      (db.data + x).toNat / 4096) :
    db.pageAt (db.firstPage (x / db.hpSize)) = db.data + x := by
  have haddress := h.page hx
  rw [hfirst] at haddress
  exact eq_of_scattered_eq hlow hpage ((BitVec.add_zero _).symm.trans haddress)

/-- The buffer starts at the start of a page. -/
theorem Places.aligned (h : Places db got e) (hlow : 12 ≤ e) (hlength : db.length ≠ 0) :
    db.data.toNat % 4096 = 0 := by
  have hdata := db.data.isLt
  have hstart : (db.pageAt (db.firstPage (0#64 / db.hpSize))).toNat =
      db.data.toNat / 4096 * 4096 := by
    have hzero : (0#64).toNat = 0 := rfl
    rw [firstPage_div, DmaBuffer.pageAt, BitVec.toNat_ofNat, hzero, Nat.zero_div, Nat.mul_zero]
    omega
  have hsum : db.data + 0#64 = db.data := BitVec.add_zero _
  have heq := h.pageAt_eq hlow (MemoryState.toNat_pos_of_ne_zero hlength : 0#64 < db.length)
    BitVec.zero_umod (by rw [hstart, hsum]; omega)
  rw [hsum] at heq
  have hnat := congrArg BitVec.toNat heq
  omega

/-- And so does its second piece. -/
theorem Places.pages (h : Places db got e) (hlow : 12 ≤ e) (hmore : db.hpSize < db.length) :
    db.hpSize.toNat % 4096 = 0 := by
  have hpos := MemoryState.toNat_pos_of_ne_zero h.hpSize_ne
  have hlength := MemoryState.ne_zero_of_lt hmore
  have haligned := h.aligned hlow hlength
  have hstart : (db.pageAt (db.firstPage (db.hpSize / db.hpSize))).toNat =
      (db.data.toNat + 4096 * (db.hpSize.toNat / 4096)) % 2 ^ 64 := by
    rw [firstPage_div, DmaBuffer.pageAt, BitVec.toNat_ofNat, Nat.div_self hpos, Nat.mul_one]
    omega
  have heq := h.pageAt_eq hlow hmore BitVec.umod_self (by rw [hstart, BitVec.toNat_add]; omega)
  have hnat := congrArg BitVec.toNat heq
  rw [hstart, BitVec.toNat_add] at hnat
  omega

theorem Places.fits (h : Places db got e) (hlow : 12 ≤ e) : db.Fits got e := by
  refine ⟨h.hpSize_ne, h.hugePages_le, h.aligned hlow, h.pages hlow, fun x hx => h.returned hx, ?_⟩
  intro x hx
  have hlength := MemoryState.ne_zero_of_lt hx
  have hpage := h.page hx
  rw [pageAt_firstPage (h.aligned hlow hlength)
    (fun hle => h.pages hlow (Nat.lt_of_le_of_lt hle hx)), MemoryState.umod_eq_sub] at hpage
  apply eq_of_scattered_sub hlow
  generalize x / db.hpSize * db.hpSize = start at hpage ⊢
  bv_omega

/-- The table of a registration is right, wherever the kernel has placed the huge pages of the user, if
and only if the buffer fits. -/
theorem registration_table (s : MemoryState) (db : DmaBuffer) (got : Int) (e : Nat) (hlow : 12 ≤ e)
    (hret : 0 ≤ got.bmod (2 ^ 32)) :
    (∀ kernel p, Contiguous e kernel → p.InOrder db kernel → p.got = got →
      s.Registers db p kernel) ↔ db.Fits got e := by
  have hsucceeds : ∀ kernel (p : Pinning), p.InOrder db kernel → p.got = got → 0 ≤ p.ret := by
    intro kernel p horder hgot
    rw [Pinning.ret, if_pos horder.allocated, hgot]
    exact hret
  constructor
  · intro hall
    -- one memory is enough: the one without neighbours, with anything behind the returned pages
    have hscattered : ∀ rest, db.hpSize ≠ 0 ∧ db.hugePages.toNat ≤ 16 ∧ ∀ x, x < db.length →
        (returning db got (scattered e) rest).address (db.firstPage (x / db.hpSize)) +
          x % db.hpSize = scattered e (db.data + x) := by
      intro rest
      have horder : (returning db got (scattered e) rest).InOrder db (scattered e) :=
        returning_inOrder _ _
      exact (registers_iff horder (hsucceeds _ _ horder rfl)).mp
        (hall _ _ scattered_contiguous horder rfl)
    obtain ⟨hne, hle, -⟩ := hscattered 0
    exact Places.fits ⟨hne, hle, fun rest => (hscattered rest).2.2⟩ hlow
  · intro hfits kernel p hcontiguous horder hgot
    subst hgot
    refine (registers_iff horder (hsucceeds _ _ horder rfl)).mpr
      ⟨hfits.hpSize_ne, hfits.hugePages_le, ?_⟩
    intro x hx
    exact hfits.address hcontiguous horder hx

end Registrations

/-! ### Two huge pages -/

/-- A system with huge pages of 2 MB only. -/
def megabytePages : HugePages where
  isDir := true
  gigabyte := false
  megabytes := true

/-- The buffer of the middleware with so many huge pages. -/
def mappedPages (sys : HugePages) (npages : BitVec 32) : DmaBuffer :=
  getFreeHugePages sys (fun _ => none) npages 0x7f0000000000

/-- Two huge pages of 1 GB, which the kernel has not placed next to each other. -/
theorem registration_table_gigabytes :
    MemoryState.probed.Registers (mappedPages gigabytePages 2)
      (returning (mappedPages gigabytePages 2) 524288 (scattered 30) 0) (scattered 30) := by
  have hfits : (mappedPages gigabytePages 2).Fits (mappedPages gigabytePages 2).npages.toNat
      gigabytePages.log2 :=
    (getFreeHugePages_fits_iff (by decide) (by decide) (by decide +kernel)).mpr (by decide)
  have hpages : (mappedPages gigabytePages 2).npages.toNat = 524288 := by decide +kernel
  rw [hpages] at hfits
  exact (registration_table _ _ 524288 30 (by decide) (by decide)).mpr hfits _ _
    scattered_contiguous (returning_inOrder _ _) rfl

/-- Two huge pages of 2 MB are registered as two pieces of 2 KB, and the second one gets the address of
the first one.  There is no room for 17 huge pages, and a `hp_size` of zero is a division by zero. -/
theorem second_piece_misplaced :
    (returning (mappedPages megabytePages 2) 1 (scattered 21) 0).Possible (mappedPages megabytePages 2) ∧
      (returning (mappedPages megabytePages 2) 1 (scattered 21) 0).InOrder
        (mappedPages megabytePages 2) (scattered 21) ∧
      Contiguous 21 (scattered 21) ∧
      ¬ MemoryState.probed.Registers (mappedPages megabytePages 2)
        (returning (mappedPages megabytePages 2) 1 (scattered 21) 0) (scattered 21) ∧
      ¬ MemoryState.probed.Registers (mappedPages gigabytePages 17)
        (returning (mappedPages gigabytePages 17) 4456448 (scattered 30) 0) (scattered 30) ∧
      ¬ MemoryState.probed.Registers ⟨0x7f0000000000, 4096, 0⟩
        (returning ⟨0x7f0000000000, 4096, 0⟩ 1 (scattered 21) 0) (scattered 21) := by
  refine ⟨fun _ => ⟨by decide +kernel, by decide +kernel⟩, returning_inOrder _ _, scattered_contiguous,
    ?_, ?_, ?_⟩
  · rw [registers_iff (returning_inOrder _ _) (by decide)]
    rintro ⟨-, -, haddress⟩
    have hsecond := haddress 2048 (by decide)
    revert hsecond
    decide +kernel
  · rw [registers_iff (returning_inOrder _ _) (by decide)]
    rintro ⟨-, hle, -⟩
    revert hle
    decide +kernel
  · rw [registers_iff (returning_inOrder _ _) (by decide)]
    rintro ⟨hne, -⟩
    exact hne rfl

end Host
end PcieBench
