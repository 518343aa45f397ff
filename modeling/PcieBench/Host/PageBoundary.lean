import PcieBench.Host.Benchmark
import PcieBench.Rq.Pages

/-!
# The descriptors of the benchmark and the pages of the buffer

No TLP may cross a page of 4096 bytes.  The benchmark compares the pages of a fixed offset, the random
generator aligns its offsets to the rounded block size, and the sequential generator returns to the
initial page; for the second block of the sequential pattern there is no test on either side.  This
module says which accepted descriptors keep the rule because of that.
-/

namespace PcieBench
namespace Host

open Rq (Config Run pcieController)

/-! ## The checks of the patterns -/

/-- What the benchmark has checked of a fixed offset. -/
structure FixChecked (totalSize : BitVec 64) (dd : DescriptorSw) : Prop where
  bufferSize : dd.bufferSize = totalSize
  page : dd.addressOffset = 0 ∨
    dd.addressOffset / 4096 = (dd.addressOffset + dd.length) / 4096

theorem iteration_fix {args : Arguments} {totalSize : BitVec 64} {i : Nat} {dd : DescriptorSw}
    (h : iteration args totalSize i = .writes dd) (hpat : args.pat = .fix) :
    FixChecked totalSize dd := by
  unfold iteration at h
  cases htlps : numberOfTlps args with
  | none =>
      rw [htlps] at h
      cases h
  | some tlps =>
      simp only [htlps, applyPattern, hpat] at h
      split at h
      · cases h
      · split at h
        · rename_i hok
          simp only [Bool.and_eq_true, Bool.not_eq_true', Bool.and_eq_false_iff,
            decide_eq_false_iff_not, not_not] at hok
          cases h
          exact ⟨rfl, hok.1.2.symm⟩
        · cases h

/-- The block of a checked offset lies in one page. -/
theorem FixChecked.inPages {args : Arguments} {totalSize base : BitVec 64} {dd : DescriptorSw}
    (h : FixChecked totalSize dd) (hreach : Reaches args totalSize dd) :
    (dd.config base).InPages pcieController dd.addressOffset.toNat := by
  rcases h.page with h0 | hpage
  · left
    rw [h0]
    exact Nat.zero_mod _
  · right
    show dd.addressOffset.toNat % 4096 + dd.length.toNat ≤ 4096
    -- the buffer is a power of two of 64 bits, so the sum in the test has not wrapped into the page
    have hlt := hreach.lt
    obtain ⟨k, hk, hpow⟩ := hreach.power
    rw [h.bufferSize] at hpow
    have hle := Nat.pow_le_pow_right (show 0 < 2 by decide) (show k ≤ 63 by omega)
    have hnat := congrArg BitVec.toNat hpage
    rw [BitVec.toNat_udiv, BitVec.toNat_udiv, BitVec.toNat_add] at hnat
    have hval : (4096 : BitVec 64).toNat = 4096 := rfl
    have := dd.addressOffset.isLt
    rw [hval] at hnat
    omega

/-- A row of `CLOG2` whose exponent covers its bound. -/
theorem le_two_pow_ite {x bound : BitVec 64} {c rest : BitVec 5} (hc : bound.toNat ≤ 2 ^ c.toNat)
    (hrest : x.toNat ≤ 2 ^ rest.toNat ∨ rest.toNat = 12) :
    x.toNat ≤ 2 ^ (if x ≤ bound then c else rest).toNat ∨
      (if x ≤ bound then c else rest).toNat = 12 := by
  by_cases hx : x ≤ bound
  · rw [if_pos hx]
    exact .inl (Nat.le_trans hx hc)
  · rw [if_neg hx]
    exact hrest

/-- The exponent of the random generator covers the size, up to a page. -/
theorem le_two_pow_clog2 (x : BitVec 64) :
    x.toNat ≤ 2 ^ (Rq.clog2 x).toNat ∨ (Rq.clog2 x).toNat = 12 := by
  unfold Rq.clog2
  -- one row of the macro after the other
  iterate 11 refine le_two_pow_ite (by decide) ?_
  exact .inr rfl

/-- A block at a random offset lies in one page, or starts one. -/
theorem randomOffset_inPages {cfg : Config} {r : BitVec 64} (hr : Rq.IsRandomOffset cfg r) :
    cfg.InPages pcieController r.toNat := by
  have haligned := hr.aligned
  rcases le_two_pow_clog2 cfg.sizeAtDescriptor with hle | hpage
  · right
    have := Rq.aligned_in_page (Rq.clog2_le cfg.sizeAtDescriptor) haligned
    omega
  · left
    rw [hpage] at haligned
    have hdvd : 2 ^ cfg.readLog2 pcieController ∣ 2 ^ 12 := pow_dvd_pow 2 (cfg.readLog2_le _)
    exact Nat.mod_eq_zero_of_dvd (hdvd.trans (Nat.dvd_of_mod_eq_zero haligned))

/-! ## The sequential pattern -/

/-- The test that is missing: a second block must lie in the page of the first one, or a full TLP must
divide the size. -/
def SecondBlockClear (cfg : Config) : Prop :=
  cfg.addressMode = 1 → cfg.OneBlock pcieController ∨ cfg.sizeAtDescriptor.toNat ≤ 2048 ∨
    cfg.sizeAtDescriptor.toNat % 2 ^ cfg.readLog2 pcieController = 0

/-- Then every sequential block lies well. -/
theorem seqBlock_inPages {cfg : Config} (hpage : cfg.addrAtDescriptor.toNat % 4096 = 0)
    (hclear : cfg.sizeAtDescriptor.toNat ≤ 2048 ∨
      cfg.sizeAtDescriptor.toNat % 2 ^ cfg.readLog2 pcieController = 0) {k : Nat}
    (hk : cfg.InPage k) :
    cfg.InPages pcieController (BitVec.ofNat 64 k * cfg.sizeAtDescriptor).toNat := by
  rw [Rq.seqOffset_toNat]
  rcases hclear with hsmall | hdvd
  · match k, hk with
    | 0, _ =>
        left
        rw [Nat.zero_mul]
        exact Nat.zero_mod _
    | 1, _ =>
        right
        omega
    | k + 2, hk =>
        right
        have hend := hk.lt_page (by omega)
        have hsucc : (k + 3) * cfg.sizeAtDescriptor.toNat =
            (k + 2) * cfg.sizeAtDescriptor.toNat + cfg.sizeAtDescriptor.toNat := Nat.succ_mul _ _
        omega
  · left
    have hpow : 2 ^ cfg.readLog2 pcieController ∣ 2 ^ 64 :=
      pow_dvd_pow 2 (Nat.le_trans (cfg.readLog2_le _) (by decide))
    rw [Nat.mod_mod_of_dvd _ hpow]
    exact Nat.mod_eq_zero_of_dvd (Dvd.dvd.mul_left (Nat.dvd_of_mod_eq_zero hdvd) k)

/-! ## From the arguments to the TLPs -/

/-- The benchmark accepts its arguments and hands the descriptor `dd`, of at least one byte, to the
driver for a page-aligned buffer at DMA address `base`; the hardware performs its operation from cycle
`start` on.  In random mode its sizes are there before, for the pipeline of the generator. -/
structure PageTransfer (junk : Nat → Nat → BitVec 64) (argv : List String) (args : Arguments)
    (totalSize base : BitVec 64) (dd : DescriptorSw) (inp : Run pcieController) (start stop : Nat) :
    Prop where
  accepted : readArguments junk argv = .accepted args
  written : dd ∈ descriptors args totalSize
  nonempty : 0 < dd.length.toNat
  aligned : base.toNat % 4096 = 0
  operation : Rq.Operation inp (dd.config base) start stop
  presented : dd.addressMode = 3 → Rq.Presented inp (dd.config base) start

/-- No memory write and no memory read request of the operation crosses a page boundary. -/
def RespectsPages (inp : Run pcieController) (start stop : Nat) : Prop :=
  ∀ t, start < t → t ≤ stop →
    ∀ x ∈ Rq.writeHeaders (Rq.Operation.beats inp start t) ++
        Rq.readHeaders (Rq.Operation.beats inp start t), Rq.SamePage x

section Transfers

variable {junk : Nat → Nat → BitVec 64} {argv : List String} {args : Arguments}
  {totalSize base : BitVec 64} {dd : DescriptorSw} {inp : Run pcieController} {start stop : Nat}

theorem PageTransfer.size (h : PageTransfer junk argv args totalSize base dd inp start stop) :
    (dd.config base).sizeAtDescriptor.toNat % 4 = 0 := by
  show dd.length.toNat % 4 = 0
  rw [(reaches_of_mem h.written).length]
  exact nbytes_of_accepted h.accepted

/-- With the missing test every pattern keeps the rule. -/
theorem PageTransfer.respectsPages
    (h : PageTransfer junk argv args totalSize base dd inp start stop)
    (hclear : SecondBlockClear (dd.config base)) : RespectsPages inp start stop := by
  have hreach := reaches_of_mem h.written
  have hany : Rq.RandomOk inp start stop (fun _ => True) := fun _ _ _ _ => ⟨trivial, trivial⟩
  intro t hat htb
  rcases hreach.pattern with ⟨hpat, hmode⟩ | ⟨-, hmode, -, -⟩ | ⟨-, hmode⟩
  · refine h.operation.samePage hany h.size h.nonempty h.aligned ?_ hat htb
    intro _ b hb
    have hcfg : (dd.config base).addressMode = 0 := hmode
    rw [Rq.IsBase, if_pos hcfg] at hb
    obtain ⟨i, hit⟩ := exists_iteration_of_mem h.written
    exact ⟨_, hb, (iteration_fix hit hpat).inPages hreach⟩
  · refine h.operation.samePage hany h.size h.nonempty h.aligned ?_ hat htb
    intro hmany b hb
    have hcfg : (dd.config base).addressMode = 1 := hmode
    rw [Rq.IsBase, if_neg (by rw [hcfg]; decide), if_pos hcfg] at hb
    obtain ⟨k, rfl, hk⟩ := hb
    exact ⟨_, rfl, seqBlock_inPages h.aligned ((hclear hcfg).resolve_left hmany) hk⟩
  · refine h.operation.samePage (h.operation.randomOk (h.presented hmode)) h.size h.nonempty h.aligned
      ?_ hat htb
    intro _ b hb
    have hcfg : (dd.config base).addressMode = 3 := hmode
    rw [Rq.IsBase, if_neg (by rw [hcfg]; decide), if_neg (by rw [hcfg]; decide)] at hb
    obtain ⟨r, hr, rfl⟩ := hb
    exact ⟨r, rfl, randomOffset_inPages hr⟩

/-- The check of the sequential pattern bounds the size: the second block is complete. -/
theorem Reaches.second_complete (h : Reaches args totalSize dd) (htotal : totalSize.toNat ≤ 2 ^ 44)
    (hmode : dd.addressMode = 1) (hmany : ¬ (dd.config base).OneBlock pcieController) :
    (dd.config base).total = 262144 ∧ 2 * (dd.config base).blockLength pcieController ≤
      if (dd.config base).capWrite then 2 ^ 20 else 262144 := by
  have hlt := h.lt
  obtain ⟨htlps, hcheck⟩ := h.seq_checked (by omega) hmode hmany
  have hval : (512 * 512 : BitVec 64).toNat = 262144 := rfl
  constructor
  · show max 1 (dd.numberOfTlps.toNat % 2 ^ 32) = 262144
    rw [htlps, hval]
    rfl
  · -- the product in the check has not wrapped
    have hnat : dd.length.toNat * 262144 < totalSize.toNat := by
      rw [htlps, BitVec.lt_def, BitVec.toNat_mul, hval, Nat.mod_eq_of_lt (by omega)] at hcheck
      exact hcheck
    show 2 * ((dd.length.toNat + 2 ^ (dd.config base).readLog2 pcieController - 1) /
      2 ^ (dd.config base).readLog2 pcieController) ≤ _
    unfold Config.readLog2
    split
    · show 2 * ((dd.length.toNat + 2 ^ 8 - 1) / 2 ^ 8) ≤ _
      omega
    · show 2 * ((dd.length.toNat + 2 ^ 9 - 1) / 2 ^ 9) ≤ _
      omega

/-- No TLP of an accepted descriptor crosses a page boundary if the second block of the sequential
pattern passes the missing test; and only then, when the operation runs to its end in a buffer of at
most 16 TiB. -/
theorem page_rule (h : PageTransfer junk argv args totalSize base dd inp start stop) :
    (SecondBlockClear (dd.config base) → RespectsPages inp start stop) ∧
      (totalSize.toNat ≤ 2 ^ 44 → (Rq.st inp stop).wrState = .idle →
        RespectsPages inp start stop → SecondBlockClear (dd.config base)) := by
  refine ⟨h.respectsPages, ?_⟩
  intro htotal hend hrespects hmode
  by_contra hclear
  push Not at hclear
  obtain ⟨hmany, hbig, hodd⟩ := hclear
  have hreach := reaches_of_mem h.written
  obtain ⟨hcount, htwo⟩ := hreach.second_complete htotal hmode hmany
  obtain ⟨x, hx, hcross⟩ := h.operation.crosses hmode h.size h.aligned hbig hodd hmany (by
    split at htwo <;> omega) (by
    split at htwo
    · exact .inl (by assumption)
    · exact .inr (by omega)) hend
  exact hcross (hrespects stop h.operation.start_lt (Nat.le_refl _) x hx)

end Transfers

/-! ### Two sequential sizes -/

/-- The arguments of a bandwidth test with sequential memory reads. -/
def seqArgv (nbytes : String) : List String :=
  ["benchmark", "-t", "bw", "-d", "W", "-p", "SEQ", "-n", nbytes, "-l", "1"]

/-- What the benchmark makes of them. -/
def seqArguments (nbytes : BitVec 64) : Arguments :=
  { Arguments.default with
    niters := 1
    nbytes := nbytes
    test := .bandwidth
    pat := .seq
    dir := .h2d }

/-- The descriptor for a buffer of one huge page. -/
def seqDescriptor (nbytes : BitVec 64) : DescriptorSw :=
  { fixDescriptor 0 with length := nbytes, addressMode := 1 }

/-- The transfer of such arguments, as soon as its parts have been computed. -/
theorem seq_transfer (value : String) {nbytes : BitVec 64}
    (haccepted : readArguments (fun _ _ => 0) (seqArgv value) = .accepted (seqArguments nbytes))
    (hwritten : descriptors (seqArguments nbytes) 0x40000000 = [seqDescriptor nbytes])
    (hnonempty : 0 < nbytes.toNat)
    (hstates : ∀ t, t < 17 → ((Rq.st (lateRun ((seqDescriptor nbytes).config 0x80000000)) t).wrState =
      .idle ↔ t ≤ 6)) :
    PageTransfer (fun _ _ => 0) (seqArgv value) (seqArguments nbytes) 0x40000000 0x80000000
      (seqDescriptor nbytes) (lateRun ((seqDescriptor nbytes).config 0x80000000)) 6 17 where
  accepted := haccepted
  written := by
    rw [hwritten]
    exact List.mem_singleton_self _
  nonempty := hnonempty
  aligned := by decide
  operation :=
    { start_lt := by decide
      idle := (hstates 6 (by decide)).mpr (by decide)
      leaves := fun hidle => absurd ((hstates 7 (by decide)).mp hidle) (by decide)
      once := fun t hat htb hidle => absurd ((hstates t htb).mp hidle) (by omega)
      stable := fun _ _ _ _ => rfl }
  presented hmode := by cases hmode

/-- Blocks of six full memory reads: the second block lies over a page boundary, its reads do not. -/
theorem page_rule_full_reads :
    (Rq.readHeaders (Rq.Operation.beats (lateRun ((seqDescriptor 3072).config 0x80000000)) 6
      17)).length = 10 ∧
      RespectsPages (lateRun ((seqDescriptor 3072).config 0x80000000)) 6 17 := by
  refine ⟨by decide +kernel, (page_rule (seq_transfer "3072" (by decide +kernel) rfl (by decide)
    (by decide +kernel))).1 ?_⟩
  intro _
  exact .inr (.inr (by decide))

/-- Blocks of 3000 bytes: the benchmark accepts them, and the third memory read of the second block
crosses a page boundary. -/
theorem second_block_crosses :
    ∃ argv args inp, PageTransfer (fun _ _ => 0) argv args 0x40000000 0x80000000
        (seqDescriptor 3000) inp 6 17 ∧ ¬ RespectsPages inp 6 17 := by
  refine ⟨seqArgv "3000", seqArguments 3000, lateRun ((seqDescriptor 3000).config 0x80000000),
    seq_transfer "3000" (by decide +kernel) rfl (by decide) (by decide +kernel), ?_⟩
  intro hrespects
  have hall := hrespects 17 (by decide) (by decide)
  revert hall
  decide +kernel

end Host
end PcieBench
