import PcieBench.Rq.BlockOrder
import PcieBench.Rq.Pages
import PcieBench.Rq.RandomAddress

/-!
# The random pattern

A random offset is a multiple of the block size rounded up to a power of two and lies in the host
buffer, so the blocks lie in the buffer and in one page each.  The generator is also meant to change the
page with every block.  For that it compares a candidate with the address in use, three cycles before the
candidate becomes an address and without the start of the buffer in it.
-/

namespace PcieBench
namespace Rq

open Clocked Tlp

/-! ## The rounded block size -/

/-- One row of `CLOG2`. -/
theorem clog2_row {x bound : BitVec 64} {c rest : BitVec 5} {k : Nat} (hc : c.toNat = k + 1)
    (hbound : bound.toNat = 2 ^ (k + 1)) (hlow : 2 ^ k < x.toNat)
    (hrest : 2 ^ (k + 1) < x.toNat → 2 ^ (rest.toNat - 1) < x.toNat ∧ x.toNat ≤ 2 ^ rest.toNat) :
    2 ^ ((if x ≤ bound then c else rest).toNat - 1) < x.toNat ∧
      x.toNat ≤ 2 ^ (if x ≤ bound then c else rest).toNat := by
  by_cases hx : x ≤ bound
  · rw [if_pos hx, hc]
    rw [BitVec.le_def, hbound] at hx
    exact ⟨hlow, hx⟩
  · rw [if_neg hx]
    rw [BitVec.le_def, hbound] at hx
    exact hrest (by omega)

/-- For sizes up to a page the macro is the rounded-up logarithm. -/
theorem clog2_spec {x : BitVec 64} (hlow : 1 < x.toNat) (hhigh : x.toNat ≤ 4096) :
    2 ^ ((clog2 x).toNat - 1) < x.toNat ∧ x.toNat ≤ 2 ^ (clog2 x).toNat := by
  unfold clog2
  refine clog2_row (k := 0) rfl rfl hlow fun h => ?_
  refine clog2_row (k := 1) rfl rfl h fun h => ?_
  refine clog2_row (k := 2) rfl rfl h fun h => ?_
  refine clog2_row (k := 3) rfl rfl h fun h => ?_
  refine clog2_row (k := 4) rfl rfl h fun h => ?_
  refine clog2_row (k := 5) rfl rfl h fun h => ?_
  refine clog2_row (k := 6) rfl rfl h fun h => ?_
  refine clog2_row (k := 7) rfl rfl h fun h => ?_
  refine clog2_row (k := 8) rfl rfl h fun h => ?_
  refine clog2_row (k := 9) rfl rfl h fun h => ?_
  refine clog2_row (k := 10) rfl rfl h fun h => ?_
  exact ⟨h, hhigh⟩

/-! ## Containment -/

/-- A block at address `a` lies in the buffer at the host and in one page. -/
structure Contained (cfg : Config) (a : BitVec 64) : Prop where
  from_start : cfg.addrAtDescriptor.toNat ≤ a.toNat
  to_end : a.toNat + cfg.sizeAtDescriptor.toNat ≤ cfg.addrAtDescriptor.toNat + cfg.sizeAtHost.toNat
  page : a.toNat % 4096 + cfg.sizeAtDescriptor.toNat ≤ 4096

/-- The configurations of the random pattern: a buffer of a power of two bytes at the start of a page,
and a block of dwords that fits into it and into a page. -/
structure Config.RandomBuffer (cfg : Config) : Prop where
  mode : cfg.addressMode ≠ 0 ∧ cfg.addressMode ≠ 1
  power : ∃ h, cfg.sizeAtHost.toNat = 2 ^ h
  dwords : cfg.sizeAtDescriptor.toNat % 4 = 0
  size_pos : 0 < cfg.sizeAtDescriptor.toNat
  size_le : cfg.sizeAtDescriptor.toNat ≤ 4096
  size_le_host : cfg.sizeAtDescriptor.toNat ≤ cfg.sizeAtHost.toNat
  start : cfg.addrAtDescriptor.toNat % 4096 = 0
  fits : cfg.addrAtDescriptor.toNat + cfg.sizeAtHost.toNat ≤ 2 ^ 64

/-- A multiple of one power of two below another one leaves room for a piece of the first size. -/
theorem aligned_add_le {c h r : Nat} (hch : c ≤ h) (hr : r % 2 ^ c = 0) (hlt : r < 2 ^ h) :
    r + 2 ^ c ≤ 2 ^ h := by
  obtain ⟨d, hd⟩ : 2 ^ c ∣ 2 ^ h := pow_dvd_pow 2 hch
  obtain ⟨a, rfl⟩ := Nat.dvd_of_mod_eq_zero hr
  have ha : a < d := by
    rw [hd] at hlt
    exact Nat.lt_of_mul_lt_mul_left hlt
  calc
    2 ^ c * a + 2 ^ c = 2 ^ c * (a + 1) := by rw [Nat.mul_add, Nat.mul_one]
    _ ≤ 2 ^ c * d := Nat.mul_le_mul_left _ ha
    _ = 2 ^ h := hd.symm

theorem IsRandomOffset.contained {cfg : Config} {r : BitVec 64} (hr : IsRandomOffset cfg r)
    (hcfg : cfg.RandomBuffer) : Contained cfg (cfg.addrAtDescriptor + r) := by
  obtain ⟨h, hpower⟩ := hcfg.power
  have hdwords := hcfg.dwords
  have hpos := hcfg.size_pos
  have hstart := hcfg.start
  have hfits := hcfg.fits
  obtain ⟨hlow, hhigh⟩ := clog2_spec (x := cfg.sizeAtDescriptor) (by omega) hcfg.size_le
  have hinside : r.toNat < cfg.sizeAtHost.toNat := by
    refine hr.inside ?_
    intro hzero
    have hle := hcfg.size_le_host
    have hnat : (0 : BitVec 64).toNat = 0 := rfl
    rw [hzero, hnat] at hle
    omega
  -- the rounded size is not above the size of the buffer
  have hexp : (clog2 cfg.sizeAtDescriptor).toNat ≤ h := by
    have hle := hcfg.size_le_host
    rw [hpower] at hle
    have hpow := (Nat.pow_lt_pow_iff_right (show 1 < 2 by decide)).mp (Nat.lt_of_lt_of_le hlow hle)
    omega
  have hend := aligned_add_le hexp hr.aligned (by rw [← hpower]; exact hinside)
  have hpage := aligned_in_page (clog2_le cfg.sizeAtDescriptor) hr.aligned
  rw [← hpower] at hend
  have hnat : (cfg.addrAtDescriptor + r).toNat = cfg.addrAtDescriptor.toNat + r.toNat := by
    rw [BitVec.toNat_add, Nat.mod_eq_of_lt (by omega)]
  refine ⟨?_, ?_, ?_⟩
  · rw [hnat]
    omega
  · rw [hnat]
    omega
  · rw [hnat]
    omega

/-- The random addresses of an operation: what the registers hold while it runs, and where its blocks
start from the second one on. -/
structure RandomContained {P : Params} (inp : Run P) (cfg : Config) (start t : Nat) : Prop where
  registers : (st inp t).wrState ≠ .idle →
    Contained cfg (st inp t).wrBlock.txRand ∧ Contained cfg (st inp t).rdBlock.txRand
  writes : ∀ q x, 0 < q →
    (writeHeaders (Operation.beats inp start t))[q * cfg.perBlock P]? = some x →
      Contained cfg x.beat.addr
  reads : ∀ q x, 0 < q →
    (readHeaders (Operation.beats inp start t))[q * cfg.perBlock P]? = some x →
      Contained cfg x.beat.addr

section Contained

variable {P : Params} {cfg : Config}

/-- A later block of the random pattern starts at an offset of the generator. -/
theorem blockBase_contained {hs : List Sent} (hcfg : cfg.RandomBuffer)
    (h : (rdBlocks P cfg (BlockBase cfg (IsRandomOffset cfg))).Tiles hs) {q : Nat} {x : Sent}
    (hq : 0 < q) (hx : hs[q * cfg.perBlock P]? = some x) : Contained cfg x.beat.addr := by
  obtain ⟨base, hfrom⟩ := h
  obtain ⟨hbase, htile⟩ := hfrom _ x hx
  have hcount : (rdBlocks P cfg (BlockBase cfg (IsRandomOffset cfg))).count = cfg.perBlock P := rfl
  rw [hcount, Nat.mul_div_cancel _ (cfg.perBlock_pos P)] at hbase htile
  rw [Nat.mul_mod_left, Nat.zero_mul, BitVec.add_zero] at htile
  change BlockBase cfg (IsRandomOffset cfg) q (base q) at hbase
  rw [BlockBase, if_neg (by omega), IsBase, if_neg hcfg.mode.1, if_neg hcfg.mode.2] at hbase
  obtain ⟨r, hr, hbase⟩ := hbase
  have hin := hr.contained hcfg
  -- the address is a multiple of four, so the header carries it unchanged
  have haddr : alignDword (base q) = base q := by
    have hpos := hcfg.size_pos
    have hdwords := hcfg.dwords
    have hfrom := hin.from_start
    have hstart := hcfg.start
    obtain ⟨hlow, hhigh⟩ := clog2_spec (x := cfg.sizeAtDescriptor) (by omega) hcfg.size_le
    have hfour : 4 ∣ 2 ^ (clog2 cfg.sizeAtDescriptor).toNat := by
      refine pow_dvd_pow 2 (m := 2) ?_
      by_contra hsmall
      have hle := Nat.pow_le_pow_right (show 0 < 2 by decide)
        (show (clog2 cfg.sizeAtDescriptor).toNat ≤ 1 by omega)
      omega
    have hr4 : r.toNat % 4 = 0 :=
      Nat.mod_eq_zero_of_dvd (hfour.trans (Nat.dvd_of_mod_eq_zero hr.aligned))
    apply BitVec.eq_of_toNat_eq
    rw [alignDword_toNat, hbase, BitVec.toNat_add]
    omega
  rw [htile.addr, haddr, hbase]
  exact hin

end Contained

/-- In the random pattern all blocks of an operation from the second one on lie in the buffer and in one
page each, if its configuration has been there for the pipeline. -/
theorem random_containment {P : Params} {inp : Run P} {cfg : Config} {start stop : Nat}
    (op : Operation inp cfg start stop) (hp : Presented inp cfg start) (hcfg : cfg.RandomBuffer)
    (t : Nat) (hat : start < t) (htb : t ≤ stop) : RandomContained inp cfg start t := by
  -- the six cycles before the start are enough for the pipeline of the generator
  have hrandom := op.randomOk hp
  obtain ⟨hwrites, hreads⟩ := op.builtFrom hrandom hat htb
  have hmost := op.sentAtMost hat htb
  refine ⟨?_, ?_, fun q x hq hx => blockBase_contained hcfg hreads hq hx⟩
  · intro hs
    obtain ⟨hwr, hrd⟩ := op.blockAddr_inv hrandom t hat htb hs
    obtain ⟨r, hr, hwrRand⟩ := hwr.random
    obtain ⟨r', hr', hrdRand⟩ := hrd.random
    rw [hwrRand, hrdRand]
    exact ⟨hr.contained hcfg, hr'.contained hcfg⟩
  · intro q x hq hx
    have hcap := hmost.writes_cap (by
      intro hnil
      rw [hnil] at hx
      simp at hx)
    rw [wrBlocks_eq_rdBlocks hcap] at hwrites
    exact blockBase_contained hcfg hwrites hq hx

/-! ### A run -/

/-- The steady environment with the engine valid from cycle `first` on. -/
def presenting (first : Nat) (cfg : Config) : Run pcieController := fun t =>
  { steady cfg t with engineValid := decide (first ≤ t) }

/-- Blocks of four bytes anywhere in the two pages from `addr` on. -/
def randomConfig (addr : BitVec 64) : Config :=
  { writeConfig 4 with addressMode := 3, sizeAtHost := 8192, addrAtDescriptor := addr }

theorem presenting_operation {cfg : Config} {first stop : Nat} (hstop : first < stop)
    (hidle : (st (presenting first cfg) first).wrState = .idle)
    (hleaves : (st (presenting first cfg) (first + 1)).wrState ≠ .idle)
    (hbusy : ∀ t, t < stop → first < t → (st (presenting first cfg) t).wrState ≠ .idle) :
    Operation (presenting first cfg) cfg first stop where
  start_lt := hstop
  idle := hidle
  leaves := hleaves
  once t hat htb hs := absurd hs (hbusy t htb hat)
  stable _ _ _ _ := rfl

theorem randomConfig_operation :
    Operation (presenting 8 (randomConfig 0x100000)) (randomConfig 0x100000) 8 11 :=
  presenting_operation (by decide) (by decide +kernel) (by decide +kernel) (by decide +kernel)

/-- The second block of the run is in the buffer. -/
theorem random_containment_second :
    (writeHeaders (Operation.beats (presenting 8 (randomConfig 0x100000)) 8 11)).map
        (fun x => x.beat.addr) = [0x100000, 0x100020] ∧
      RandomContained (presenting 8 (randomConfig 0x100000)) (randomConfig 0x100000) 8 11 :=
  ⟨by decide +kernel,
    random_containment randomConfig_operation ⟨by decide, fun _ _ _ => rfl, fun _ _ _ => rfl⟩
      ⟨by decide, ⟨13, by decide⟩, by decide, by decide, by decide, by decide, by decide, by decide⟩
      11 (by decide) (by decide)⟩

/-! ## Two blocks and their pages -/

/-- The page of an address. -/
def pageOf (a : BitVec 64) : Nat := a.toNat / 4096

/-- The two directions of an operation, each with registers of its own. -/
inductive Channel
  | write
  | read
  deriving DecidableEq, Repr

section Pages

variable {P : Params}

namespace Channel

def block (c : Channel) (s : State P) : BlockAddr :=
  match c with
  | .write => s.wrBlock
  | .read => s.rdBlock

/-- The offset that comes out of the generator. -/
def offset (c : Channel) (g : RandomGen) : BitVec 64 :=
  match c with
  | .write => g.addressWr
  | .read => g.addressRd

/-- The last request of a block: the generated address is used for the next block and replaced. -/
def BlockEnds (c : Channel) (s : State P) (i : Input P) : Prop :=
  match c with
  | .write => EndsWrite s i ∧ s.bounds.wrNumberEven = s.wrCount.modulus
  | .read => IssuesRead s i ∧ s.bounds.rdNumberEven = s.rdCount.modulus

/-- The address in `tx_rand_wr_addr_r` or `tx_rand_rd_addr_r`. -/
def generated (c : Channel) (inp : Run P) (t : Nat) : BitVec 64 := (c.block (st inp t)).txRand

/-- What has to be the case at the end of a block in cycle `t` for the generator to stay in the page:
the candidate of three cycles before lies in it and was compared with another page, or the page behind
the candidate is this page.  In the first cycles after reset the pipeline is empty. -/
def Misses (c : Channel) (inp : Run P) (cfg : Config) (t : Nat) : Prop :=
  t < 4 ∨
    (pageOf (st inp (t - 3)).random.candidate ≠ pageOf (c.generated inp (t - 3)) ∧
      pageOf (st inp (t - 3)).random.candidate % (cfg.sizeAtHost.toNat / 4096) =
        pageOf (c.generated inp t - cfg.addrAtDescriptor)) ∨
    (pageOf (st inp (t - 3)).random.candidate = pageOf (c.generated inp (t - 3)) ∧
      (pageOf (st inp (t - 3)).random.candidate + 1) % (cfg.sizeAtHost.toNat / 4096) =
        pageOf (c.generated inp t - cfg.addrAtDescriptor))

instance (c : Channel) (inp : Run P) (cfg : Config) (t : Nat) : Decidable (c.Misses inp cfg t) :=
  inferInstanceAs (Decidable (_ ∨ _))

end Channel

/-- The buffers in which the random pattern can change the page. -/
structure Config.RandomWindow (cfg : Config) : Prop where
  mode : cfg.addressMode ≠ 0 ∧ cfg.addressMode ≠ 1
  power : ∃ h, 13 ≤ h ∧ cfg.sizeAtHost.toNat = 2 ^ h
  start : cfg.addrAtDescriptor.toNat % 4096 = 0

/-- Every block end of the operation replaces the generated address by one in another page. -/
def PagesChange (inp : Run P) (start stop : Nat) : Prop :=
  ∀ (c : Channel) t, start < t → t < stop → c.BlockEnds (st inp t) (inp t) →
    pageOf (c.generated inp t) ≠ pageOf (c.generated inp (t + 1))

/-! ### Pages in the pipeline -/

theorem extract_page_eq_iff (x y : BitVec 64) :
    x.extractLsb' 12 52 = y.extractLsb' 12 52 ↔ pageOf x = pageOf y := by
  have hx := x.isLt
  have hy := y.isLt
  rw [← BitVec.toNat_inj, BitVec.extractLsb'_toNat, BitVec.extractLsb'_toNat,
    Nat.shiftRight_eq_div_pow, Nat.shiftRight_eq_div_pow, pageOf, pageOf]
  omega

theorem pageOf_append (x : BitVec 64) (offset : BitVec 12) :
    pageOf (x.extractLsb' 12 52 ++ offset) = pageOf x := by
  have hoffset := offset.isLt
  rw [pageOf, page_append_toNat, pageOf]
  omega

theorem pageOf_otherPage (candidate candidatePlus1 last : BitVec 64) :
    pageOf (otherPage candidate candidatePlus1 last) =
      if pageOf candidate = pageOf last then pageOf candidatePlus1 else pageOf candidate := by
  unfold otherPage
  by_cases heq : pageOf candidate = pageOf last
  · rw [if_neg (by rw [not_not, extract_page_eq_iff]; exact heq), if_pos heq, pageOf_append]
  · rw [if_pos (by rw [Ne, extract_page_eq_iff]; exact heq), if_neg heq, pageOf_append]

/-- The mask keeps the page inside the buffer. -/
theorem pageOf_mask {size : BitVec 64} {h : Nat} (hh : 12 ≤ h) (hsize : size.toNat = 2 ^ h)
    (x : BitVec 64) : pageOf (x &&& (size - 1)) = pageOf x % (size.toNat / 4096) := by
  have hpos : 0 < 2 ^ h := Nat.two_pow_pos h
  have hone : (1 : BitVec 64).toNat = 1 := rfl
  have hlt := size.isLt
  have hmask : (size - 1).toNat = 2 ^ h - 1 := by
    rw [BitVec.toNat_sub, hone]
    omega
  have hsplit : 2 ^ h = 4096 * 2 ^ (h - 12) := by
    rw [show (4096 : Nat) = 2 ^ 12 by decide, ← Nat.pow_add, Nat.add_sub_cancel' hh]
  rw [pageOf, pageOf, BitVec.toNat_and, hmask, Nat.and_two_pow_sub_one_eq_mod, hsize, hsplit,
    Nat.mod_mul_right_div_self, Nat.mul_div_cancel_left _ (by decide)]

/-- Two offsets of a page-aligned buffer lie in the same page of memory if they do in the buffer. -/
theorem pageOf_add_eq_iff {base : BitVec 64} (hbase : base.toNat % 4096 = 0) (r r' : BitVec 64) :
    pageOf (base + r) = pageOf (base + r') ↔ pageOf r = pageOf r' := by
  have h1 := base.isLt
  have h2 := r.isLt
  have h3 := r'.isLt
  rw [pageOf, pageOf, pageOf, pageOf, BitVec.toNat_add, BitVec.toNat_add]
  omega

/-- The second candidate is a page further. -/
theorem pageOf_candidatePlus1 (inp : Run P) (t : Nat) :
    pageOf (st inp (t + 1)).random.candidatePlus1 =
      pageOf (st inp (t + 1)).random.candidate + 1 := by
  have hsmall := (random_small inp t).modulus
  have hpage : (4096 : BitVec 64).toNat = 4096 := rfl
  have hplus : (st inp (t + 1)).random.candidatePlus1 =
      (st inp (t + 1)).random.candidate + 4096 := rfl
  have hcandidate : (st inp (t + 1)).random.candidate = (st inp t).random.randomNumberModulus := rfl
  rw [hplus, hcandidate, pageOf, pageOf, BitVec.toNat_add, hpage]
  omega

/-- Three cycles after the comparison its page is in the offset. -/
theorem Channel.pageOf_offset (c : Channel) (inp : Run P) {size : BitVec 64} {h : Nat}
    (hh : 12 ≤ h) (hsize : size.toNat = 2 ^ h) {t : Nat}
    (hcfg : (inp (t + 2)).cfg.sizeAtHost = size) :
    pageOf (c.offset (st inp (t + 3)).random) =
      (if pageOf (st inp t).random.candidate = pageOf (c.generated inp t) then
        pageOf (st inp t).random.candidatePlus1
      else pageOf (st inp t).random.candidate) % (size.toNat / 4096) := by
  -- masked, put together with the offset in the page, compared
  cases c with
  | write =>
      have hoffset : Channel.write.offset (st inp (t + 3)).random =
          ((otherPage (st inp t).random.candidate (st inp t).random.candidatePlus1
            (Channel.write.generated inp t)).extractLsb' 12 52 ++ (st inp (t + 1)).random.offsetWr) &&&
            ((inp (t + 2)).cfg.sizeAtHost - 1) := rfl
      rw [hoffset, hcfg, pageOf_mask hh hsize, pageOf_append, pageOf_otherPage]
  | read =>
      have hoffset : Channel.read.offset (st inp (t + 3)).random =
          ((otherPage (st inp t).random.candidate (st inp t).random.candidatePlus1
            (Channel.read.generated inp t)).extractLsb' 12 52 ++ (st inp (t + 1)).random.offsetRd) &&&
            ((inp (t + 2)).cfg.sizeAtHost - 1) := rfl
      rw [hoffset, hcfg, pageOf_mask hh hsize, pageOf_append, pageOf_otherPage]

/-! ### The end of a block -/

theorem Channel.BlockEnds.busy {c : Channel} {s : State P} {i : Input P} (h : c.BlockEnds s i) :
    s.wrState ≠ .idle := by
  cases c with
  | write =>
      intro hidle
      rcases h.1.ends with ⟨hs, -⟩ | ⟨hs, -⟩
      · rw [hs] at hidle
        cases hidle
      · rw [hs] at hidle
        cases hidle
  | read =>
      intro hidle
      rw [h.1.initRead] at hidle
      cases hidle

/-- The end of a block loads the offset of the generator. -/
theorem Channel.BlockEnds.generated_succ {c : Channel} {inp : Run P} {t : Nat}
    (h : c.BlockEnds (st inp t) (inp t)) :
    c.generated inp (t + 1) = (inp t).cfg.addrAtDescriptor + c.offset (st inp t).random := by
  cases c with
  | write =>
      change (st inp (t + 1)).wrBlock.txRand = _
      rw [st_succ, h.1.wrBlock, if_pos h.2]
      rfl
  | read =>
      change (st inp (t + 1)).rdBlock.txRand = _
      rw [st_succ, h.1.rdBlock, if_pos h.2]
      rfl

/-- While the FSM is busy, only the end of a block changes the generated address. -/
theorem Channel.generated_keeps {c : Channel} {inp : Run P} {t : Nat}
    (hs : (st inp t).wrState ≠ .idle) (h : ¬ c.BlockEnds (st inp t) (inp t)) :
    c.generated inp (t + 1) = c.generated inp t := by
  have hblock : c.block (step (st inp t) (inp t)) = c.block (st inp t) := by
    cases c with
    | write =>
        change (step (st inp t) (inp t)).wrBlock = (st inp t).wrBlock
        rcases busy_cases (inp t) hs with hm | hm | hm | hm | hm | hm
        · exact hm.wrBlock
        · exact hm.wrBlock
        · exact hm.wrBlock
        · rw [hm.wrBlock, if_neg fun heven => h ⟨hm, heven⟩]
        · exact hm.wrBlock
        · exact hm.wrBlock
    | read =>
        change (step (st inp t) (inp t)).rdBlock = (st inp t).rdBlock
        rcases busy_cases (inp t) hs with hm | hm | hm | hm | hm | hm
        · exact hm.rdBlock
        · exact hm.rdBlock
        · exact hm.rdBlock
        · exact hm.rdBlock
        · rw [hm.rdBlock, if_neg fun heven => h ⟨hm, heven⟩]
        · exact hm.rdBlock
  rw [Channel.generated, Channel.generated, st_succ, hblock]

variable {inp : Run P} {cfg : Config} {start stop : Nat}

/-- While an operation runs, the generated address is an offset behind the start of the buffer. -/
theorem Operation.generated_offset (op : Operation inp cfg start stop)
    {random : BitVec 64 → Prop} (hrandom : RandomOk inp start stop random) (c : Channel) {t : Nat}
    (hat : start < t) (htb : t ≤ stop) (hs : (st inp t).wrState ≠ .idle) :
    ∃ r, random r ∧ c.generated inp t = cfg.addrAtDescriptor + r := by
  obtain ⟨hwr, hrd⟩ := op.blockAddr_inv hrandom t hat htb hs
  cases c with
  | write => exact hwr.random
  | read => exact hrd.random

/-- The new address is in another page if and only if the offset of the generator is. -/
theorem Operation.page_changes_iff (op : Operation inp cfg start stop) (hcfg : cfg.RandomWindow)
    {c : Channel} {t : Nat} (hat : start < t) (htb : t < stop)
    (hends : c.BlockEnds (st inp t) (inp t)) :
    pageOf (c.generated inp t) ≠ pageOf (c.generated inp (t + 1)) ↔
      pageOf (c.offset (st inp t).random) ≠ pageOf (c.generated inp t - cfg.addrAtDescriptor) := by
  have hs := hends.busy
  have hrandom : RandomOk inp start stop (fun _ => True) := fun _ _ _ _ => ⟨trivial, trivial⟩
  obtain ⟨r, -, hr⟩ := op.generated_offset hrandom c hat (by omega) hs
  have hsub : c.generated inp t - cfg.addrAtDescriptor = r := by
    rw [hr]
    bv_omega
  rw [hends.generated_succ, op.stable t (by omega) htb (.inr hs), hsub, hr, Ne,
    pageOf_add_eq_iff hcfg.start, Ne, eq_comm]

/-- In the first cycles after reset all offsets lie in the first page. -/
theorem Channel.pageOf_offset_early (c : Channel) (inp : Run P) {t : Nat} (ht : t < 4) :
    pageOf (c.offset (st inp t).random) = 0 := by
  have hmasked : ∀ x mask : BitVec 64, pageOf x = 0 → pageOf (x &&& mask) = 0 := by
    intro x mask hx
    rw [pageOf] at hx ⊢
    have hlt := and_lt (x := x) (b := 4096) (by omega) mask
    omega
  -- the registers of the pipeline are zero after reset
  have hzero : pageOf 0 = 0 := by decide
  have hpage : ∀ last : BitVec 64, pageOf (otherPage 0 0 last) = 0 := by
    intro last
    rw [pageOf_otherPage]
    split
    · exact hzero
    · exact hzero
  match t with
  | 0 =>
      cases c with
      | write => exact hzero
      | read => exact hzero
  | 1 =>
      cases c with
      | write => exact hmasked _ _ hzero
      | read => exact hmasked _ _ hzero
  | 2 =>
      cases c with
      | write => exact hmasked _ _ ((pageOf_append _ _).trans hzero)
      | read => exact hmasked _ _ ((pageOf_append _ _).trans hzero)
  | 3 =>
      cases c with
      | write => exact hmasked _ _ ((pageOf_append _ _).trans (hpage _))
      | read => exact hmasked _ _ ((pageOf_append _ _).trans (hpage _))
  | t + 4 => omega

/-- The offset of the generator lies in the page in use if and only if the candidate missed it. -/
theorem Operation.misses_iff (op : Operation inp cfg start stop) (hcfg : cfg.RandomWindow)
    {c : Channel} {t : Nat} (hat : start < t) (htb : t < stop)
    (hends : c.BlockEnds (st inp t) (inp t)) :
    pageOf (c.offset (st inp t).random) = pageOf (c.generated inp t - cfg.addrAtDescriptor) ↔
      c.Misses inp cfg t := by
  have hs := hends.busy
  by_cases hearly : t < 4
  · -- the generated address itself comes from one of the first cycles
    have hrandom : RandomOk inp start t (fun r => pageOf r = 0) := by
      intro u _ hu _
      exact ⟨Channel.write.pageOf_offset_early inp (by omega),
        Channel.read.pageOf_offset_early inp (by omega)⟩
    obtain ⟨r, hzero, hr⟩ :=
      (op.shorten hat (by omega)).generated_offset hrandom c hat (Nat.le_refl t) hs
    have hsub : c.generated inp t - cfg.addrAtDescriptor = r := by
      rw [hr]
      bv_omega
    rw [c.pageOf_offset_early inp hearly, hsub, hzero]
    exact ⟨fun _ => .inl hearly, fun _ => rfl⟩
  · obtain ⟨h, hh, hsize⟩ := hcfg.power
    obtain ⟨u, rfl⟩ : ∃ u, t = u + 1 + 3 := ⟨t - 4, by omega⟩
    have hbefore : (inp (u + 1 + 2)).cfg.sizeAtHost = cfg.sizeAtHost := by
      rw [op.cfg_before (t := u + 1 + 2) (by omega) (by omega) hs]
    -- the page of the offset was chosen three cycles ago, by comparing absolute pages
    rw [c.pageOf_offset inp (by omega) hsize hbefore, pageOf_candidatePlus1, Channel.Misses,
      Nat.add_sub_cancel]
    by_cases heq : pageOf (st inp (u + 1)).random.candidate = pageOf (c.generated inp (u + 1))
    · rw [if_pos heq]
      exact ⟨fun hmiss => .inr (.inr ⟨heq, hmiss⟩), by
        rintro (hlt | ⟨hne, -⟩ | ⟨-, hmiss⟩)
        · omega
        · exact absurd heq hne
        · exact hmiss⟩
    · rw [if_neg heq]
      exact ⟨fun hmiss => .inr (.inl ⟨heq, hmiss⟩), by
        rintro (hlt | ⟨-, hmiss⟩ | ⟨heq', -⟩)
        · omega
        · exact hmiss
        · exact absurd heq' heq⟩

/-- Between two ends of a block of one direction there is time for the pipeline, as there is before the
first one. -/
def Spaced (inp : Run P) (start stop : Nat) : Prop :=
  ∀ (c : Channel) t, start < t → t < stop → c.BlockEnds (st inp t) (inp t) →
    start + 3 < t ∧ ∀ u, t ≤ u + 3 → u < t → ¬ c.BlockEnds (st inp u) (inp u)

/-- With time between the blocks the generated address of the comparison is the one in use. -/
theorem Operation.generated_same (op : Operation inp cfg start stop)
    (hspaced : Spaced inp start stop) {c : Channel} {t : Nat} (hat : start < t) (htb : t < stop)
    (hends : c.BlockEnds (st inp t) (inp t)) : c.generated inp (t - 3) = c.generated inp t := by
  obtain ⟨hlate, hnone⟩ := hspaced c t hat htb hends
  have hsame : ∀ u, t - 3 ≤ u → u ≤ t → c.generated inp u = c.generated inp (t - 3) := by
    refine interval_induction rfl ?_
    intro u hu hut ih
    have hbusy : (st inp u).wrState ≠ .idle :=
      op.busy_before (by omega) hut (by omega) hends.busy
    rw [Channel.generated_keeps hbusy (hnone u (by omega) hut), ih]
  exact (hsame t (by omega) (Nat.le_refl t)).symm

/-- With the buffer at address zero and time between the blocks the comparison does what it is for. -/
theorem Operation.not_misses (op : Operation inp cfg start stop) (hcfg : cfg.RandomWindow)
    (hp : Presented inp cfg start) (hzero : cfg.addrAtDescriptor = 0)
    (hspaced : Spaced inp start stop) {c : Channel} {t : Nat} (hat : start < t) (htb : t < stop)
    (hends : c.BlockEnds (st inp t) (inp t)) : ¬ c.Misses inp cfg t := by
  have hlate := hp.late
  obtain ⟨h, hh, hsize⟩ := hcfg.power
  -- the buffer has at least two pages, and the candidate is in one of them
  obtain ⟨u, rfl⟩ : ∃ u, t = u + 5 := ⟨t - 5, by omega⟩
  have hsince : (inp u).cfg.sizeAtHost = cfg.sizeAtHost :=
    op.cfg_since (f := Config.sizeAtHost) hp.host htb (.inr hends.busy) (by omega) (by omega)
  have hpages : 2 ≤ cfg.sizeAtHost.toNat / 4096 := by
    have hle := Nat.pow_le_pow_right (show 0 < 2 by decide) hh
    rw [hsize]
    omega
  have hcandidate : pageOf (st inp (u + 2)).random.candidate < cfg.sizeAtHost.toNat / 4096 := by
    have hmask : (st inp (u + 2)).random.candidate =
        (st inp u).random.randomNumber.setWidth 64 &&& ((inp u).cfg.sizeAtHost - 1) := rfl
    rw [hmask, hsince, pageOf_mask (by omega) hsize]
    exact Nat.mod_lt _ (by omega)
  have hsub : u + 5 - 3 = u + 2 := by omega
  have hsame := op.generated_same hspaced hat htb hends
  rw [hsub] at hsame
  have hrelative : c.generated inp (u + 5) - cfg.addrAtDescriptor = c.generated inp (u + 2) := by
    rw [hsame, hzero]
    exact BitVec.sub_zero _
  rw [Channel.Misses, hsub, hrelative]
  rintro (hlt | ⟨hne, hmod⟩ | ⟨heq, hmod⟩)
  · omega
  · rw [Nat.mod_eq_of_lt hcandidate] at hmod
    exact hne hmod
  · rw [← heq] at hmod
    by_cases hlast : pageOf (st inp (u + 2)).random.candidate + 1 = cfg.sizeAtHost.toNat / 4096
    · rw [hlast, Nat.mod_self] at hmod
      omega
    · rw [Nat.mod_eq_of_lt (by omega)] at hmod
      omega

end Pages

/-- The random pattern changes the page with every block if and only if the comparison never misses.
It does not miss in a buffer at address zero with time between the blocks. -/
theorem random_pages {P : Params} {inp : Run P} {cfg : Config} {start stop : Nat}
    (op : Operation inp cfg start stop) (hcfg : cfg.RandomWindow) :
    (PagesChange inp start stop ↔
      ∀ (c : Channel) t, start < t → t < stop → c.BlockEnds (st inp t) (inp t) →
        ¬ c.Misses inp cfg t) ∧
    (Presented inp cfg start → cfg.addrAtDescriptor = 0 → Spaced inp start stop →
      PagesChange inp start stop) := by
  have hiff : PagesChange inp start stop ↔
      ∀ (c : Channel) t, start < t → t < stop → c.BlockEnds (st inp t) (inp t) →
        ¬ c.Misses inp cfg t := by
    constructor
    · intro hchange c t hat htb hends hmiss
      exact (op.page_changes_iff hcfg hat htb hends).mp (hchange c t hat htb hends)
        ((op.misses_iff hcfg hat htb hends).mpr hmiss)
    · intro hnone c t hat htb hends
      refine (op.page_changes_iff hcfg hat htb hends).mpr fun heq => ?_
      exact hnone c t hat htb hends ((op.misses_iff hcfg hat htb hends).mp heq)
  refine ⟨hiff, ?_⟩
  intro hp hzero hspaced
  refine hiff.mpr ?_
  intro c t hat htb hends
  exact op.not_misses hcfg hp hzero hspaced hat htb hends

/-- At the first block end of this run the candidate is in the other page. -/
theorem random_pages_first :
    Channel.write.generated (presenting 7 (randomConfig 0)) 8 = 0x1010 ∧
      Channel.write.generated (presenting 7 (randomConfig 0)) 9 = 0x20 ∧
      PagesChange (presenting 7 (randomConfig 0)) 7 9 := by
  have op : Operation (presenting 7 (randomConfig 0)) (randomConfig 0) 7 9 :=
    presenting_operation (by decide) (by decide +kernel) (by decide +kernel) (by decide +kernel)
  refine ⟨by decide +kernel, by decide +kernel, ?_⟩
  refine (random_pages op ⟨by decide, ⟨13, by decide, by decide⟩, by decide⟩).1.mpr ?_
  intro c t hat htb _
  obtain rfl : t = 8 := by omega
  cases c with
  | write => decide +kernel
  | read => decide +kernel

/-- Two generated addresses, one after the other, in the same page. -/
theorem blocks_in_one_page :
    Operation (presenting 8 (randomConfig 0x100000)) (randomConfig 0x100000) 8 11 ∧
      Presented (presenting 8 (randomConfig 0x100000)) (randomConfig 0x100000) 8 ∧
      (randomConfig 0x100000).RandomWindow ∧
      Channel.write.generated (presenting 8 (randomConfig 0x100000)) 9 = 0x100020 ∧
      Channel.write.generated (presenting 8 (randomConfig 0x100000)) 10 = 0x100040 ∧
      ¬ PagesChange (presenting 8 (randomConfig 0x100000)) 8 11 := by
  have hfirst : Channel.write.generated (presenting 8 (randomConfig 0x100000)) 9 = 0x100020 := by
    decide +kernel
  have hsecond : Channel.write.generated (presenting 8 (randomConfig 0x100000)) 10 = 0x100040 := by
    decide +kernel
  refine ⟨randomConfig_operation, ⟨by decide, fun _ _ _ => rfl, fun _ _ _ => rfl⟩,
    ⟨by decide, ⟨13, by decide, by decide⟩, by decide⟩, hfirst, hsecond, ?_⟩
  intro hchange
  -- the generated address changes only at the end of a block
  have hends : Channel.write.BlockEnds (st (presenting 8 (randomConfig 0x100000)) 9)
      (presenting 8 (randomConfig 0x100000) 9) := by
    by_contra hnot
    have hkeeps := Channel.generated_keeps (by decide +kernel) hnot
    rw [hfirst, hsecond] at hkeeps
    cases hkeeps
  refine hchange .write 9 (by decide) (by decide) hends ?_
  rw [hfirst, hsecond]
  decide

end Rq
end PcieBench
