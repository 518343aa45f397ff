import PcieBench.Rq.Extent

/-!
# TLPs and pages

A memory request must not cross a boundary of 4096 bytes.  A block at the start of a page never makes
one that does, since a full TLP divides the page; neither does a block that lies inside one page.  The
sequential generator keeps the blocks from the third one on inside the initial page, but the second
block follows the first one without a test.  If it starts in the middle of a TLP and reaches the next
page, one of its TLPs crosses the boundary.
-/

namespace PcieBench
namespace Rq

open Clocked Tlp

/-! ## One TLP -/

/-- The first and the last byte of a TLP lie in the same page. -/
def SamePage (x : Sent) : Prop :=
  x.beat.addr.toNat / 4096 = (x.beat.addr.toNat + 4 * x.beat.dwords.toNat - 1) / 4096

instance (x : Sent) : Decidable (SamePage x) := inferInstanceAs (Decidable (_ = _))

/-- The offset in the page and the bytes of a TLP decide. -/
theorem IsTile.samePage_iff {x : Sent} {base r : BitVec 64} {words : BitVec 32} {k d : Nat}
    (hx : IsTile x (base + r + BitVec.ofNat 64 k) words) (hd : words.toNat = d) (hpos : 0 < d)
    (hsmall : d < 2 ^ 11) (hbase : base.toNat % 4096 = 0) :
    SamePage x ↔ (r.toNat + k) % 4096 / 4 * 4 + 4 * d ≤ 4096 := by
  have haddr : x.beat.addr.toNat % 4096 = (r.toNat + k) % 4096 / 4 * 4 := by
    rw [hx.addr, alignDword_toNat, BitVec.toNat_add, BitVec.toNat_add, BitVec.toNat_ofNat]
    omega
  have hdwords : x.beat.dwords.toNat = d := by
    rw [hx.dwords, BitVec.toNat_setWidth, hd, Nat.mod_eq_of_lt hsmall]
  rw [SamePage, hdwords]
  omega

/-- An aligned piece of at most a page lies in one page. -/
theorem aligned_in_page {c r : Nat} (hc : c ≤ 12) (hr : r % 2 ^ c = 0) :
    r % 4096 + 2 ^ c ≤ 4096 := by
  obtain ⟨d, hd⟩ : 2 ^ c ∣ 4096 := pow_dvd_pow 2 hc
  obtain ⟨a, ha⟩ := Nat.dvd_of_mod_eq_zero hr
  have hpos : 0 < d := by
    rcases Nat.eq_zero_or_pos d with h0 | h0
    · rw [h0] at hd
      cases hd
    · exact h0
  calc
    r % 4096 + 2 ^ c = 2 ^ c * (a % d + 1) := by
      rw [ha, hd, Nat.mul_mod_mul_left, Nat.mul_add, Nat.mul_one]
    _ ≤ 2 ^ c * d := Nat.mul_le_mul_left _ (Nat.mod_lt _ hpos)
    _ = 4096 := hd.symm

/-- A TLP at a multiple of the full size stays in its page. -/
theorem page_of_aligned {log2 r i d : Nat} (hhi : log2 ≤ 12) (hr : r % 2 ^ log2 = 0)
    (hd : d ≤ 2 ^ log2) : (r + i * 2 ^ log2) % 4096 / 4 * 4 + d ≤ 4096 := by
  have hplace := aligned_in_page (r := r + i * 2 ^ log2) hhi (by rw [Nat.add_mul_mod_self_right, hr])
  omega

/-- A TLP of a block that lies in one page. -/
theorem page_of_inside {r k d S : Nat} (hr : r % 4096 + S ≤ 4096) (hk : k + d ≤ S) :
    (r + k) % 4096 / 4 * 4 + d ≤ 4096 := by
  omega

/-- The TLP that crosses: the boundary behind `S` is reached by a block of `S` bytes, and a full TLP
does not divide `S`. -/
theorem exists_crossing {log2 S n : Nat} (hlo : 3 ≤ log2) (hhi : log2 ≤ 12) (hS : S % 4 = 0)
    (hbig : 2048 < S) (hodd : S % 2 ^ log2 ≠ 0) (hn : n = blockCount (2 ^ log2) S) :
    ∃ i, i < n ∧
      4096 < (S + i * 2 ^ log2) % 4096 / 4 * 4 + 4 * tileDwords (2 ^ log2) S n i := by
  obtain ⟨hmod8, hge8, hle⟩ := two_pow_tlp hlo hhi
  obtain ⟨c, hc⟩ : 2 ^ log2 ∣ 4096 := pow_dvd_pow 2 hhi
  rw [blockCount, if_neg hodd] at hn
  have hSdm := Nat.div_add_mod S (2 ^ log2)
  have hSlt := Nat.mod_lt S (Nat.two_pow_pos log2)
  -- the boundary, as a distance from the start of the block
  obtain ⟨dist, hdist⟩ : ∃ dist, dist = 4096 - S % 4096 := ⟨_, rfl⟩
  have hboundary : (S + dist) % 2 ^ log2 = 0 := by
    have hpage : (S + dist) % 4096 = 0 := by omega
    exact Nat.mod_eq_zero_of_dvd ((Dvd.intro c hc.symm).trans (Nat.dvd_of_mod_eq_zero hpage))
  have hne : S % 4096 ≠ 0 := by
    intro h0
    exact hodd (Nat.mod_eq_zero_of_dvd ((Dvd.intro c hc.symm).trans (Nat.dvd_of_mod_eq_zero h0)))
  have hreach : dist < S := by omega
  have hddm := Nat.div_add_mod dist (2 ^ log2)
  have hdlt := Nat.mod_lt dist (Nat.two_pow_pos log2)
  have hinside : dist % 2 ^ log2 ≠ 0 := by
    intro h0
    have hdvd := (Nat.dvd_add_left (Nat.dvd_of_mod_eq_zero h0)).mp
      (Nat.dvd_of_mod_eq_zero hboundary)
    exact hodd (Nat.mod_eq_zero_of_dvd hdvd)
  have hquot : dist / 2 ^ log2 ≤ S / 2 ^ log2 := Nat.div_le_div_right (by omega)
  have hrem4 : dist % 2 ^ log2 % 4 = 0 := by
    rw [Nat.mod_mod_of_dvd _ (by omega)]
    omega
  have hplace : (S + dist / 2 ^ log2 * 2 ^ log2) % 4096 = 4096 - dist % 2 ^ log2 := by
    rw [Nat.mul_comm (dist / 2 ^ log2)]
    omega
  refine ⟨dist / 2 ^ log2, by omega, ?_⟩
  rw [hplace]
  unfold tileDwords
  split
  · -- the last TLP ends with the block, which lies behind the boundary
    have hlast : dist / 2 ^ log2 = S / 2 ^ log2 := by omega
    rw [hlast] at hddm
    have hodd4 : S % 2 ^ log2 % 4 = 0 := by
      rw [Nat.mod_mod_of_dvd _ (by omega)]
      exact hS
    omega
  · omega

/-! ## The blocks of an operation -/

section Pages

variable {P : Params} {cfg : Config}

/-- A block at offset `r` of a page-aligned buffer whose TLPs all stay in their pages. -/
def Config.InPages (P : Params) (cfg : Config) (r : Nat) : Prop :=
  r % 2 ^ cfg.readLog2 P = 0 ∨ r % 4096 + cfg.sizeAtDescriptor.toNat ≤ 4096

/-- One TLP of a block: its place, and how many dwords it has. -/
theorem tile_of_getElem {B : Nat → BitVec 64 → Prop} {base : Nat → BitVec 64} {hs : List Sent}
    (hfrom : (rdBlocks P cfg B).TilesFrom base hs) {k : Nat} {x : Sent} (hx : hs[k]? = some x) :
    B (k / cfg.perBlock P) (base (k / cfg.perBlock P)) ∧
      ∃ words, IsTile x (base (k / cfg.perBlock P) +
          BitVec.ofNat 64 (k % cfg.perBlock P * 2 ^ cfg.readLog2 P)) words ∧
        words.toNat = tileDwords (2 ^ cfg.readLog2 P) cfg.sizeAtDescriptor.toNat (cfg.perBlock P)
          (k % cfg.perBlock P) := by
  obtain ⟨hblock, htile⟩ := hfrom k x hx
  refine ⟨hblock, _, htile, ?_⟩
  exact tlpWords_toNat (cfg.three_le_readLog2 P) (cfg.readLog2_le P) cfg.sizeAtDescriptor
    (Nat.mod_lt k (cfg.perBlock_pos P))

/-- Whether the TLPs of a block stay in their pages. -/
theorem tile_samePage_iff {B : Nat → BitVec 64 → Prop} {base : Nat → BitVec 64} {hs : List Sent}
    (hfrom : (rdBlocks P cfg B).TilesFrom base hs) (hsize : cfg.sizeAtDescriptor.toNat % 4 = 0)
    (hpage : cfg.addrAtDescriptor.toNat % 4096 = 0) {k : Nat} {x : Sent} (hx : hs[k]? = some x)
    {r : BitVec 64} (hr : base (k / cfg.perBlock P) = cfg.addrAtDescriptor + r) :
    SamePage x ↔ (r.toNat + k % cfg.perBlock P * 2 ^ cfg.readLog2 P) % 4096 / 4 * 4 +
      4 * tileDwords (2 ^ cfg.readLog2 P) cfg.sizeAtDescriptor.toNat (cfg.perBlock P)
        (k % cfg.perBlock P) ≤ 4096 := by
  have hlo := cfg.three_le_readLog2 P
  have hhi := cfg.readLog2_le P
  obtain ⟨-, -, hle⟩ := two_pow_tlp hlo hhi
  obtain ⟨-, words, htile, hwords⟩ := tile_of_getElem hfrom hx
  rw [hr] at htile
  exact htile.samePage_iff hwords (tileDwords_pos hlo hhi hsize)
    (Nat.lt_of_le_of_lt (tileDwords_le hlo hhi) (by omega)) hpage

/-- The TLPs of one direction stay in their pages, if the later blocks do. -/
theorem tiles_samePage {random : BitVec 64 → Prop} {hs : List Sent}
    (h : (rdBlocks P cfg (BlockBase cfg random)).Tiles hs)
    (hsize : cfg.sizeAtDescriptor.toNat % 4 = 0) (hpos : 0 < cfg.sizeAtDescriptor.toNat)
    (hpage : cfg.addrAtDescriptor.toNat % 4096 = 0)
    (hone : cfg.OneBlock P → hs.length ≤ cfg.perBlock P)
    (hlater : ¬ cfg.OneBlock P → ∀ b, IsBase cfg random b →
      ∃ r, b = cfg.addrAtDescriptor + r ∧ cfg.InPages P r.toNat) :
    ∀ x ∈ hs, SamePage x := by
  intro x hx
  obtain ⟨k, hk, hget⟩ := List.mem_iff_getElem.mp hx
  have hkx : hs[k]? = some x := by
    rw [List.getElem?_eq_getElem hk, hget]
  obtain ⟨base, hfrom⟩ := h
  have hlo := cfg.three_le_readLog2 P
  have hhi := cfg.readLog2_le P
  have hmod : k % cfg.perBlock P < cfg.perBlock P := Nat.mod_lt k (cfg.perBlock_pos P)
  have hblock : BlockBase cfg random (k / cfg.perBlock P) (base (k / cfg.perBlock P)) :=
    (tile_of_getElem hfrom hkx).1
  obtain ⟨r, hr, hin⟩ : ∃ r, base (k / cfg.perBlock P) = cfg.addrAtDescriptor + r ∧
      cfg.InPages P r.toNat := by
    rw [BlockBase] at hblock
    split at hblock
    · refine ⟨0, by rw [hblock]; exact (BitVec.add_zero _).symm, .inl ?_⟩
      exact Nat.zero_mod _
    · rename_i hne
      refine hlater ?_ _ hblock
      intro hob
      have hlen := hone hob
      exact hne (Nat.div_eq_of_lt (by omega))
  rw [tile_samePage_iff hfrom hsize hpage hkx hr]
  have hcovered := cfg.tile_le_covered P hmod (m := k % cfg.perBlock P + 1) (by omega)
  have hfits := cfg.covered_le_size P hpos (k % cfg.perBlock P + 1)
  have hpart := tileDwords_le (S := cfg.sizeAtDescriptor.toNat) (n := cfg.perBlock P)
    (i := k % cfg.perBlock P) hlo hhi
  rcases hin with hin | hin
  · exact page_of_aligned hhi hin (by omega)
  · exact page_of_inside hin (by omega)

/-- An operation in a page-aligned buffer sends no TLP over a page boundary, if its later blocks lie
well. -/
theorem Operation.samePage {inp : Run P} {start stop : Nat} (op : Operation inp cfg start stop)
    {random : BitVec 64 → Prop} (hrandom : RandomOk inp start stop random)
    (hsize : cfg.sizeAtDescriptor.toNat % 4 = 0) (hpos : 0 < cfg.sizeAtDescriptor.toNat)
    (hpage : cfg.addrAtDescriptor.toNat % 4096 = 0)
    (hlater : ¬ cfg.OneBlock P → ∀ b, IsBase cfg random b →
      ∃ r, b = cfg.addrAtDescriptor + r ∧ cfg.InPages P r.toNat)
    {t : Nat} (hat : start < t) (htb : t ≤ stop) :
    ∀ x ∈ writeHeaders (beats inp start t) ++ readHeaders (beats inp start t), SamePage x := by
  obtain ⟨hwrites, hreads⟩ := op.builtFrom hrandom hat htb
  have hmost := op.sentAtMost hat htb
  intro x hx
  rcases List.mem_append.mp hx with hx | hx
  · have hcap := hmost.writes_cap (List.ne_nil_of_mem hx)
    rw [wrBlocks_eq_rdBlocks hcap] at hwrites
    exact tiles_samePage hwrites hsize hpos hpage hmost.writes hlater x hx
  · have hcap := hmost.reads_cap (List.ne_nil_of_mem hx)
    refine tiles_samePage hreads hsize hpos hpage ?_ hlater x hx
    intro hob
    rw [Config.OneBlock, hcap, if_pos rfl] at hob
    exact hmost.reads.trans hob

/-! ## The second block -/

/-- During the first block the sequential generators hold the address of the second one. -/
def NextIsSecond (cfg : Config) (s : State P) (l : List Sent) : Prop :=
  ∃ f g, Sending cfg s l f g ∧
    (cfg.capWrite = true → f < cfg.perBlock P → s.wrBlock.txSeq = cfg.seqAddr 1) ∧
    (cfg.capRead = true → g < cfg.perBlock P → s.rdBlock.txSeq = cfg.seqAddr 1)

theorem NextIsSecond.step {s : State P} {i : Input P} {l : List Sent} (h : NextIsSecond cfg s l)
    (hb : s.bounds = nextBounds P cfg) (hcfg : i.cfg = cfg) (hs : s.wrState ≠ .idle) :
    NextIsSecond cfg (step s i) (l ++ load s i) := by
  obtain ⟨f, g, hsend, hwr, hrd⟩ := h
  have hkeeps : (Stalls s i ∨ OpensWrite s i ∨ ContinuesWrite s i ∨ Finishes s i) →
      (Rq.step s i).wrBlock = s.wrBlock → (Rq.step s i).rdBlock = s.rdBlock →
        NextIsSecond cfg (Rq.step s i) (l ++ load s i) := by
    intro hm hwb hrb
    rw [NextIsSecond, hwb, hrb]
    exact ⟨f, g, hsend.keeps hm, hwr, hrd⟩
  rcases busy_cases i hs with hm | hm | hm | hm | hm | hm
  · exact hkeeps (.inl hm) hm.wrBlock hm.rdBlock
  · exact hkeeps (.inr (.inl hm)) hm.wrBlock hm.rdBlock
  · exact hkeeps (.inr (.inr (.inl hm))) hm.wrBlock hm.rdBlock
  · -- the last beat of a memory write
    refine ⟨f + 1, g, hsend.ends hm hb hcfg, ?_, by rw [hm.rdBlock]; exact hrd⟩
    intro hcap hlt
    -- only the last write of the block moves the generator
    have heven := hsend.wrEven_iff hm.origin hb
    rw [Nat.mod_eq_of_lt (by omega)] at heven
    rw [hm.wrBlock, if_neg (by rw [heven]; omega)]
    exact hwr hcap (by omega)
  · -- a memory read request
    refine ⟨f, g + 1, hsend.issues hm hb hcfg, by rw [hm.wrBlock]; exact hwr, ?_⟩
    intro hcap hlt
    have heven := hsend.rdEven_iff hb
    rw [Nat.mod_eq_of_lt (by omega)] at heven
    rw [hm.rdBlock, if_neg (by rw [heven]; omega)]
    exact hrd hcap (by omega)
  · exact hkeeps (.inr (.inr (.inr hm))) hm.wrBlock hm.rdBlock

/-- Where the first two blocks of a sequential operation are. -/
def SecondBase (cfg : Config) (q : Nat) (x : BitVec 64) : Prop :=
  (q = 0 → x = cfg.addrAtDescriptor) ∧ (q = 1 → x = cfg.seqAddr 1)

namespace Operation

variable {inp : Run P} {start stop : Nat}

/-- A starting operation prepares the second block. -/
theorem nextIsSecond_first (op : Operation inp cfg start stop) :
    NextIsSecond cfg (st inp (start + 1)) [] := by
  have hcfg := op.stable start (Nat.le_refl _) op.start_lt (.inl rfl)
  have hstarts : ∀ cap, cap = true → startsWith (st inp start) (inp start) cap = true := by
    rintro cap rfl
    by_contra hno
    have hnone : ∀ cap, startsWith (st inp start) (inp start) cap = false := by
      intro cap
      cases cap with
      | false =>
          simp [startsWith]
      | true =>
          simpa using hno
    have hleaves := op.leaves
    simp only [st_succ, step_wrState, nextWrState, op.idle, hnone] at hleaves
    exact hleaves rfl
  refine ⟨0, 0, op.sending_first, ?_, ?_⟩
  · intro hcap _
    rw [Config.seqAddr_one]
    simp [st_succ, nextWrBlock, op.idle, BlockAddr.prepare, hcfg, hstarts _ hcap]
  · intro hcap _
    rw [Config.seqAddr_one]
    simp [st_succ, nextRdBlock, op.idle, BlockAddr.prepare, hcfg, hstarts _ hcap]

theorem nextIsSecond (op : Operation inp cfg start stop) {t : Nat} (hat : start < t)
    (htb : t ≤ stop) (hs : (st inp t).wrState ≠ .idle) :
    NextIsSecond cfg (st inp t) (beats inp start t) :=
  (op.beats_induction (NextIsSecond cfg) (fun _ _ => True) op.nextIsSecond_first
    (fun _ _ _ hs hcfg hb h => h.step hb hcfg hs) (fun _ _ _ => trivial) t hat htb).1 hs

/-- The second block of memory writes follows the first one. -/
theorem writes_second (op : Operation inp cfg start stop) (hmode : cfg.addressMode = 1)
    (hcap : cfg.capWrite = true) {t : Nat} (hat : start < t) (htb : t ≤ stop) :
    (rdBlocks P cfg (SecondBase cfg)).Tiles (writeHeaders (beats inp start t)) := by
  rw [← wrBlocks_eq_rdBlocks hcap]
  refine op.writes_tile _ ⟨fun _ => rfl, fun h => absurd h (by decide)⟩ ?_ hat htb
  intro u hau hub hs k hlen
  refine ⟨fun h => absurd h (Nat.succ_ne_zero _), fun hq => ?_⟩
  obtain ⟨f, g, hsend, hwr, -⟩ := op.nextIsSecond hau (by omega) hs
  have hfk : k = f := by
    have hwrites := hlen.symm.trans hsend.writes
    split at hwrites <;> omega
  have hcount : (wrBlocks P cfg (SecondBase cfg)).count = cfg.perBlock P := by
    rw [wrBlocks_eq_rdBlocks hcap]
    rfl
  rw [hcount] at hq
  rw [State.txWrAddr, hmode, if_neg (by decide), if_pos rfl]
  refine hwr hcap ?_
  rw [← hfk]
  exact (Nat.div_eq_zero_iff_lt (cfg.perBlock_pos P)).mp (by omega)

/-- The second block of memory reads follows the first one. -/
theorem reads_second (op : Operation inp cfg start stop) (hmode : cfg.addressMode = 1)
    (hcap : cfg.capRead = true) {t : Nat} (hat : start < t) (htb : t ≤ stop) :
    (rdBlocks P cfg (SecondBase cfg)).Tiles (readHeaders (beats inp start t)) := by
  refine op.reads_tile _ ⟨fun _ => rfl, fun h => absurd h (by decide)⟩ ?_ hat htb
  intro u hau hub hs
  refine ⟨fun h => absurd h (Nat.succ_ne_zero _), fun hq => ?_⟩
  obtain ⟨f, g, hsend, -, hrd⟩ := op.nextIsSecond hau (by omega) hs
  rw [hsend.reads] at hq
  rw [State.txRdAddr, hmode, if_neg (by decide), if_pos rfl]
  refine hrd hcap ?_
  exact (Nat.div_eq_zero_iff_lt (cfg.perBlock_pos P)).mp (Nat.succ.inj hq)

end Operation

/-- A second block that is complete and does not lie well has a TLP that crosses. -/
theorem second_crosses {hs : List Sent} (h : (rdBlocks P cfg (SecondBase cfg)).Tiles hs)
    (hsize : cfg.sizeAtDescriptor.toNat % 4 = 0) (hpage : cfg.addrAtDescriptor.toNat % 4096 = 0)
    (hbig : 2048 < cfg.sizeAtDescriptor.toNat)
    (hodd : cfg.sizeAtDescriptor.toNat % 2 ^ cfg.readLog2 P ≠ 0)
    (hcount : cfg.perBlock P = blockCount (2 ^ cfg.readLog2 P) cfg.sizeAtDescriptor.toNat)
    (hlen : 2 * cfg.perBlock P ≤ hs.length) : ∃ x ∈ hs, ¬ SamePage x := by
  obtain ⟨base, hfrom⟩ := h
  obtain ⟨i, hi, hcross⟩ := exists_crossing (cfg.three_le_readLog2 P) (cfg.readLog2_le P) hsize hbig
    hodd hcount
  have hk : cfg.perBlock P + i < hs.length := by omega
  have hdiv : (cfg.perBlock P + i) / cfg.perBlock P = 1 := by
    rw [Nat.add_div_left _ (cfg.perBlock_pos P), Nat.div_eq_of_lt hi]
  have hmod : (cfg.perBlock P + i) % cfg.perBlock P = i := by
    rw [Nat.add_mod_left, Nat.mod_eq_of_lt hi]
  have hx : hs[cfg.perBlock P + i]? = some hs[cfg.perBlock P + i] := List.getElem?_eq_getElem hk
  have hbase : base ((cfg.perBlock P + i) / cfg.perBlock P) =
      cfg.addrAtDescriptor + cfg.sizeAtDescriptor := by
    rw [← Config.seqAddr_one]
    exact (tile_of_getElem hfrom hx).1.2 hdiv
  refine ⟨_, List.getElem_mem hk, ?_⟩
  rw [tile_samePage_iff hfrom hsize hpage hx hbase, hmod]
  omega

/-- A sequential operation with a second block sends a TLP over a page boundary before it ends, if the
size is more than half a page and no multiple of a full TLP. -/
theorem Operation.crosses {inp : Run P} {start stop : Nat} (op : Operation inp cfg start stop)
    (hmode : cfg.addressMode = 1) (hsize : cfg.sizeAtDescriptor.toNat % 4 = 0)
    (hpage : cfg.addrAtDescriptor.toNat % 4096 = 0) (hbig : 2048 < cfg.sizeAtDescriptor.toNat)
    (hodd : cfg.sizeAtDescriptor.toNat % 2 ^ cfg.readLog2 P ≠ 0) (hmany : ¬ cfg.OneBlock P)
    (hfit : cfg.total + cfg.blockLength P < 2 ^ 32)
    (hfull : cfg.capWrite = true ∨ 2 * cfg.blockLength P ≤ cfg.total)
    (hend : (st inp stop).wrState = .idle) :
    ∃ x ∈ writeHeaders (beats inp start stop) ++ readHeaders (beats inp start stop),
      ¬ SamePage x := by
  have hpos : 0 < cfg.sizeAtDescriptor.toNat := by omega
  obtain ⟨-, hcounts⟩ := op.countInv hpos hfit op.start_lt (Nat.le_refl stop)
  have hblock : cfg.perBlock P = cfg.blockLength P := by
    rw [Config.perBlock, blockLength_eq, blockTlps_numberEvenTlp hpos]
    rw [← blockLength_eq]
    omega
  have hcount := hblock.trans (blockLength_eq P cfg)
  have hn := cfg.perBlock_pos P
  -- there is a second block
  have hsecond : cfg.perBlock P < cfg.total := by
    rw [Config.OneBlock] at hmany
    split at hmany
    · omega
    · rw [Nat.mod_eq_of_lt (show cfg.perBlock P < 2 ^ 32 by omega)] at hmany
      have := Nat.le_max_right 1 (cfg.numberTlps.toNat % 2 ^ 32)
      unfold Config.total
      omega
  cases hcap : cfg.capWrite with
  | true =>
      have hlen := hcounts.writes_eq hend
      rw [hcap, if_pos rfl, ← hblock] at hlen
      have htwo : 2 * cfg.perBlock P ≤ (writeHeaders (beats inp start stop)).length := by
        rw [hlen]
        exact block_le_ceil (q := 1) hn (by omega)
      obtain ⟨x, hx, hcross⟩ := second_crosses (op.writes_second hmode hcap op.start_lt (Nat.le_refl _))
        hsize hpage hbig hodd hcount htwo
      exact ⟨x, List.mem_append_left _ hx, hcross⟩
  | false =>
      have hread : cfg.capRead = true := by
        rcases op.begins.2 with ⟨hwrite, -⟩ | ⟨-, hread, -⟩
        · rw [hcap] at hwrite
          cases hwrite
        · exact hread
      have hlen := hcounts.reads_eq hend
      rw [hread, if_pos rfl] at hlen
      have htwo : 2 * cfg.perBlock P ≤ (readHeaders (beats inp start stop)).length := by
        rw [hcap] at hfull
        have := hfull.resolve_left (by simp)
        omega
      obtain ⟨x, hx, hcross⟩ := second_crosses (op.reads_second hmode hread op.start_lt (Nat.le_refl _))
        hsize hpage hbig hodd hcount htwo
      exact ⟨x, List.mem_append_right _ hx, hcross⟩

end Pages

end Rq
end PcieBench
