import PcieBench.Rq.Addresses
import PcieBench.Rq.Tiling

/-!
# Where the TLPs of an operation go

How many bytes behind the base addresses of its blocks an operation reaches.  The first block is the
only one if `NUMBER_TLPS` is reached in it; otherwise the later ones start where the address
generators put them.  Memory reads stop in the middle of a block, memory writes at the end of one.
The counters are taken as they are, with 32 bits: a block whose number of TLPs is 0 in the registers
has `2 ^ 32` of them.
-/

namespace PcieBench
namespace Rq

open Clocked Tlp

section Extent

variable {P : Params}

/-! ## How many TLPs -/

/-- The TLPs of a block as the registers count them. -/
def Config.perBlock (P : Params) (cfg : Config) : Nat :=
  blockTlps (numberEvenTlp (cfg.readLog2 P) cfg.sizeAtDescriptor)

/-- The operation ends in its first block. -/
def Config.OneBlock (P : Params) (cfg : Config) : Prop :=
  if cfg.capRead then cfg.total ≤ cfg.perBlock P
  else cfg.numberTlps.toNat % 2 ^ 32 ≤ cfg.perBlock P % 2 ^ 32

instance (P : Params) (cfg : Config) : Decidable (cfg.OneBlock P) :=
  inferInstanceAs (Decidable (if cfg.capRead then cfg.total ≤ cfg.perBlock P
    else cfg.numberTlps.toNat % 2 ^ 32 ≤ cfg.perBlock P % 2 ^ 32))

theorem Config.perBlock_pos (P : Params) (cfg : Config) : 0 < cfg.perBlock P := blockTlps_pos _

/-- The counters of an operation after `f` memory writes and `g` memory reads. -/
structure Sending (cfg : Config) (s : State P) (l : List Sent) (f g : Nat) : Prop where
  wrCount : cfg.capWrite = true → s.wrCount.At (cfg.perBlock P) f
  rdCount : s.rdCount.At (cfg.perBlock P) g
  writes : (writeHeaders l).length = if s.wrState = .write then f + 1 else f
  reads : (readHeaders l).length = g
  writing : s.wrState = .initWrite ∨ s.wrState = .write → cfg.capWrite = true ∧ g < cfg.total ∧
    (cfg.OneBlock P → f < cfg.perBlock P)
  reading : s.wrState = .initRead → cfg.capRead = true ∧ g < cfg.total
  writes_le : cfg.OneBlock P → f ≤ cfg.perBlock P
  writes_cap : 0 < f → cfg.capWrite = true
  reads_le : g ≤ cfg.total
  reads_cap : 0 < g → cfg.capRead = true

/-- What the counters say about the headers loaded so far. -/
structure SentAtMost (P : Params) (cfg : Config) (l : List Sent) : Prop where
  writes : cfg.OneBlock P → (writeHeaders l).length ≤ cfg.perBlock P
  writes_cap : writeHeaders l ≠ [] → cfg.capWrite = true
  reads : (readHeaders l).length ≤ cfg.total
  reads_cap : readHeaders l ≠ [] → cfg.capRead = true

variable {cfg : Config} {f g : Nat} {s : State P} {i : Input P} {l : List Sent}

theorem Sending.sentAtMost (h : Sending cfg s l f g) : SentAtMost P cfg l := by
  have hwrites := h.writes
  refine ⟨?_, ?_, by rw [h.reads]; exact h.reads_le, ?_⟩
  · intro hone
    split at hwrites
    · rename_i hs
      have := (h.writing (.inr hs)).2.2 hone
      omega
    · have := h.writes_le hone
      omega
  · intro hne
    split at hwrites
    · rename_i hs
      exact (h.writing (.inr hs)).1
    · refine h.writes_cap ?_
      rw [← hwrites]
      exact List.length_pos_of_ne_nil hne
  · intro hne
    refine h.reads_cap ?_
    rw [← h.reads]
    exact List.length_pos_of_ne_nil hne

theorem wrNumberEven_eq (hb : s.bounds = nextBounds P cfg) (hcap : cfg.capWrite = true) :
    s.bounds.wrNumberEven = numberEvenTlp (cfg.readLog2 P) cfg.sizeAtDescriptor := by
  rw [hb, Config.readLog2, if_pos hcap]
  rfl

/-- The memory write that ends a block. -/
theorem Sending.wrEven_iff (h : Sending cfg s l f g)
    (hs : s.wrState = .initWrite ∨ s.wrState = .write) (hb : s.bounds = nextBounds P cfg) :
    s.bounds.wrNumberEven = s.wrCount.modulus ↔ f % cfg.perBlock P + 1 = cfg.perBlock P := by
  have hcap := (h.writing hs).1
  rw [wrNumberEven_eq hb hcap]
  exact (h.wrCount hcap).even_iff

/-- The memory read that ends a block. -/
theorem Sending.rdEven_iff (h : Sending cfg s l f g) (hb : s.bounds = nextBounds P cfg) :
    s.bounds.rdNumberEven = s.rdCount.modulus ↔ g % cfg.perBlock P + 1 = cfg.perBlock P := by
  rw [hb, (rdBounds_eq P cfg).1]
  exact h.rdCount.even_iff

/-- The end of a memory write: in the only block the last one hands over to the reads or ends the
operation. -/
theorem Sending.ends (h : Sending cfg s l f g) (hm : EndsWrite s i)
    (hb : s.bounds = nextBounds P cfg) (hcfg : i.cfg = cfg) :
    Sending cfg (step s i) (l ++ load s i) (f + 1) g := by
  have hs : s.wrState = .initWrite ∨ s.wrState = .write := hm.origin
  obtain ⟨hcap, hg, hone⟩ := h.writing hs
  have hat := h.wrCount hcap
  have heven := wrNumberEven_eq hb hcap
  have hiff := h.wrEven_iff hs hb
  obtain ⟨hwrites, hreads⟩ := Tally.ends ⟨h.writes, h.reads⟩ hm
  refine ⟨?_, ?_, hwrites, hreads, ?_, ?_, ?_, fun _ => hcap, h.reads_le, h.reads_cap⟩
  · intro _
    rw [hm.wrCount, heven]
    exact hat.next
  · rw [hm.rdCount]
    exact h.rdCount
  · intro hnext
    refine ⟨hcap, hg, ?_⟩
    intro hob
    have hlt := hone hob
    -- a new block after the last memory write of the only one would need more TLPs
    by_contra hge
    have hlast : f % cfg.perBlock P + 1 = cfg.perBlock P := by
      rw [Nat.mod_eq_of_lt hlt]
      omega
    have hfull : f + 1 = cfg.perBlock P := by omega
    rw [hm.state, afterWrite, if_pos (hiff.mpr hlast), hcfg] at hnext
    cases hread : cfg.capRead with
    | true =>
        rw [hread, if_pos rfl] at hnext
        rcases hnext with hx | hx <;> cases hx
    | false =>
        rw [Config.OneBlock, hread, if_neg (by simp)] at hob
        have htotal : s.bounds.wrTotal ≤ s.wrCount.current := by
          rw [hb, hat.current, hfull]
          show cfg.numberTlps.setWidth 32 ≤ _
          rw [BitVec.le_def, BitVec.toNat_setWidth, BitVec.toNat_ofNat]
          exact hob
        rw [hread, if_neg (by simp), if_pos htotal] at hnext
        rcases hnext with hx | hx <;> cases hx
  · intro hread
    rw [hm.state, afterWrite, hcfg] at hread
    refine ⟨?_, hg⟩
    by_contra hno
    rw [if_neg hno] at hread
    split at hread
    · split at hread <;> cases hread
    · cases hread
  · intro hob
    have := hone hob
    omega

/-- The next memory read is the last one of the operation. -/
theorem Sending.rdTotal_iff (h : Sending cfg s l f g) (hs : s.wrState = .initRead)
    (hb : s.bounds = nextBounds P cfg) :
    s.bounds.rdTotal ≤ s.rdCount.current ↔ cfg.total ≤ g + 1 := by
  have hg := (h.reading hs).2
  have hlt : cfg.total ≤ 2 ^ 32 - 1 := by
    unfold Config.total
    omega
  -- the counter wraps only behind the total
  rcases Nat.lt_or_ge (g + 1) (2 ^ 32) with hwrap | hwrap
  · rw [hb, h.rdCount.current]
    exact total_le_iff cfg hwrap
  · omega

/-- A memory read: the last one of the only block ends the operation. -/
theorem Sending.issues (h : Sending cfg s l f g) (hm : IssuesRead s i)
    (hb : s.bounds = nextBounds P cfg) (hcfg : i.cfg = cfg) :
    Sending cfg (step s i) (l ++ load s i) f (g + 1) := by
  obtain ⟨hcap, hg⟩ := h.reading hm.initRead
  have hat := h.rdCount
  have heven : s.bounds.rdNumberEven = numberEvenTlp (cfg.readLog2 P) cfg.sizeAtDescriptor := by
    rw [hb]
    exact (rdBounds_eq P cfg).1
  have hiff := h.rdEven_iff hb
  have htotal := h.rdTotal_iff hm.initRead hb
  have hstate : (Rq.step s i).wrState = if cfg.total ≤ g + 1 then .waitRead
      else if cfg.capWrite = true ∧ g % cfg.perBlock P + 1 = cfg.perBlock P then .initWrite
      else .initRead := by
    rw [hm.state]
    simp only [hiff, htotal, hcfg]
  obtain ⟨hwrites, hreads⟩ := Tally.issues ⟨h.writes, h.reads⟩ hm
  refine ⟨?_, ?_, hwrites, hreads, ?_, ?_, h.writes_le, h.writes_cap, by omega, fun _ => hcap⟩
  · rw [hm.wrCount]
    exact h.wrCount
  · rw [hm.rdCount, heven]
    exact hat.next
  · intro hnext
    rw [hstate] at hnext
    by_cases hle : cfg.total ≤ g + 1
    · -- the last request leads into the wait
      rw [if_pos hle] at hnext
      rcases hnext with hx | hx <;> cases hx
    · rw [if_neg hle] at hnext
      by_cases hblock : cfg.capWrite = true ∧ g % cfg.perBlock P + 1 = cfg.perBlock P
      · refine ⟨hblock.1, by omega, ?_⟩
        -- the only block does not end before the last memory read
        intro hob
        rw [Config.OneBlock, hcap, if_pos rfl] at hob
        have hlast := hblock.2
        rw [Nat.mod_eq_of_lt (by omega)] at hlast
        omega
      · rw [if_neg hblock] at hnext
        rcases hnext with hx | hx <;> cases hx
  · intro hread
    refine ⟨hcap, ?_⟩
    by_contra hge
    rw [hstate, if_pos (by omega)] at hread
    cases hread

/-- A move that neither ends a memory write nor issues a read. -/
theorem Sending.of_same (h : Sending cfg s l f g) {s' : State P} {l' : List Sent}
    (hwr : s'.wrCount = s.wrCount) (hrd : s'.rdCount = s.rdCount)
    (hstate : s'.wrState = .idle ∨ s'.wrState = s.wrState ∨
      (s'.wrState = .write ∧ s.wrState = .initWrite))
    (htally : Tally s'.wrState l' f g) : Sending cfg s' l' f g := by
  refine ⟨by rw [hwr]; exact h.wrCount, by rw [hrd]; exact h.rdCount, htally.writes, htally.reads,
    ?_, ?_, h.writes_le, h.writes_cap, h.reads_le, h.reads_cap⟩
  · intro hs
    rcases hstate with hidle | hsame | ⟨-, hinit⟩
    · rw [hidle] at hs
      rcases hs with hx | hx <;> cases hx
    · rw [hsame] at hs
      exact h.writing hs
    · exact h.writing (.inl hinit)
  · intro hs
    rcases hstate with hidle | hsame | ⟨hwrite, -⟩
    · rw [hidle] at hs
      cases hs
    · rw [hsame] at hs
      exact h.reading hs
    · rw [hwrite] at hs
      cases hs

/-- The moves that do not end a TLP keep the counts. -/
theorem Sending.keeps (h : Sending cfg s l f g)
    (hm : Stalls s i ∨ OpensWrite s i ∨ ContinuesWrite s i ∨ Finishes s i) :
    Sending cfg (step s i) (l ++ load s i) f g := by
  have htally : Tally s.wrState l f g := ⟨h.writes, h.reads⟩
  rcases hm with hm | hm | hm | hm
  · exact h.of_same hm.wrCount hm.rdCount (.inr (.inl hm.state)) (htally.stalls hm)
  · -- the header is loaded now, and its TLP ends later
    exact h.of_same hm.wrCount hm.rdCount (.inr (.inr ⟨hm.state, hm.initWrite⟩)) (htally.opens hm)
  · exact h.of_same hm.wrCount hm.rdCount (.inr (.inl (hm.state.trans hm.write.symm)))
      (htally.continues hm)
  · exact h.of_same hm.wrCount hm.rdCount (.inl hm.state) (htally.finishes hm)

theorem Sending.step (h : Sending cfg s l f g) (hb : s.bounds = nextBounds P cfg)
    (hcfg : i.cfg = cfg) (hs : s.wrState ≠ .idle) :
    ∃ f' g', Sending cfg (step s i) (l ++ load s i) f' g' := by
  rcases busy_cases i hs with hm | hm | hm | hm | hm | hm
  · exact ⟨f, g, h.keeps (.inl hm)⟩
  · exact ⟨f, g, h.keeps (.inr (.inl hm))⟩
  · exact ⟨f, g, h.keeps (.inr (.inr (.inl hm)))⟩
  · exact ⟨f + 1, g, h.ends hm hb hcfg⟩
  · exact ⟨f, g + 1, h.issues hm hb hcfg⟩
  · exact ⟨f, g, h.keeps (.inr (.inr (.inr hm)))⟩

/-- Before its first beat an operation has sent nothing. -/
theorem Operation.sending_first {inp : Run P} {start stop : Nat}
    (op : Operation inp cfg start stop) : Sending cfg (st inp (start + 1)) [] 0 0 := by
  have htotal := cfg.total_pos
  have hpos := cfg.perBlock_pos P
  obtain ⟨hwr, hrd, -, -, -⟩ := op.first_registers
  refine ⟨fun _ => by rw [hwr]; exact .first _, by rw [hrd]; exact .first _, ?_, rfl, ?_, ?_,
    fun _ => by omega, by omega, by omega, by omega⟩
  · rcases op.begins.2 with ⟨-, hs⟩ | ⟨-, -, hs⟩ <;> simp [hs, writeHeaders]
  · intro hs
    rcases op.begins.2 with ⟨hcap, -⟩ | ⟨-, -, hs'⟩
    · exact ⟨hcap, by omega, fun _ => hpos⟩
    · rw [hs'] at hs
      rcases hs with hx | hx <;> cases hx
  · intro hs
    rcases op.begins.2 with ⟨-, hs'⟩ | ⟨-, hcap, -⟩
    · rw [hs'] at hs
      cases hs
    · exact ⟨hcap, by omega⟩

/-- What every operation sends at most. -/
theorem Operation.sentAtMost {inp : Run P} {start stop : Nat} (op : Operation inp cfg start stop)
    {t : Nat} (hat : start < t) (htb : t ≤ stop) : SentAtMost P cfg (beats inp start t) := by
  refine (op.beats_induction (fun s l => ∃ f g, Sending cfg s l f g)
    (fun _ l => SentAtMost P cfg l) ⟨0, 0, op.sending_first⟩ ?_ ?_ t hat htb).2
  · rintro t hat htb hs hcfg hb ⟨f, g, h⟩
    exact h.step hb hcfg hs
  · rintro s l ⟨f, g, h⟩
    exact h.sentAtMost

/-! ## How many bytes -/

/-- The bytes that the first `m` TLPs of a block reach behind its base address. -/
def Config.covered (P : Params) (cfg : Config) (m : Nat) : Nat :=
  if m < cfg.perBlock P then m * 2 ^ cfg.readLog2 P
  else (cfg.perBlock P - 1) * 2 ^ cfg.readLog2 P +
    if cfg.sizeAtDescriptor.toNat % 2 ^ cfg.readLog2 P = 0 then 2 ^ cfg.readLog2 P
    else cfg.sizeAtDescriptor.toNat % 2 ^ cfg.readLog2 P

/-- The bytes of the first block. -/
def Config.firstBytes (P : Params) (cfg : Config) : Nat :=
  cfg.covered P (if cfg.capWrite then cfg.perBlock P else cfg.total)

/-- The bytes of the longest block after the first one. -/
def Config.laterBytes (P : Params) (cfg : Config) : Nat :=
  cfg.covered P (if cfg.capWrite then cfg.perBlock P else cfg.total - cfg.perBlock P)

/-- A TLP lies in what its block covers up to it. -/
theorem Config.tile_le_covered (P : Params) (cfg : Config) {i m : Nat} (hi : i < cfg.perBlock P)
    (him : i < m) :
    i * 2 ^ cfg.readLog2 P + 4 * tileDwords (2 ^ cfg.readLog2 P) cfg.sizeAtDescriptor.toNat
      (cfg.perBlock P) i ≤ cfg.covered P m := by
  have hmul : ∀ {a b : Nat}, a < b → a * 2 ^ cfg.readLog2 P + 2 ^ cfg.readLog2 P ≤
      b * 2 ^ cfg.readLog2 P := by
    intro a b hab
    rw [← Nat.succ_mul]
    exact Nat.mul_le_mul_right _ hab
  unfold Config.covered tileDwords
  by_cases hlast : i + 1 = cfg.perBlock P
  · -- the last TLP of a block may be a short one
    rw [if_neg (show ¬ m < cfg.perBlock P by omega), if_pos hlast,
      show cfg.perBlock P - 1 = i by omega]
    split <;> omega
  · rw [if_neg hlast]
    split
    · have := hmul him
      omega
    · have := hmul (show i < cfg.perBlock P - 1 by omega)
      omega

/-- A block covers no more than the size in the descriptor, if that is not 0. -/
theorem Config.covered_le_size (P : Params) (cfg : Config) (hpos : 0 < cfg.sizeAtDescriptor.toNat)
    (m : Nat) : cfg.covered P m ≤ cfg.sizeAtDescriptor.toNat := by
  have hcount : cfg.perBlock P ≤ blockCount (2 ^ cfg.readLog2 P) cfg.sizeAtDescriptor.toNat := by
    have hnat := numberEvenTlp_toNat (cfg.readLog2 P) cfg.sizeAtDescriptor
    have hbpos := blockCount_pos (2 ^ cfg.readLog2 P) hpos
    unfold Config.perBlock blockTlps
    split
    · rename_i h0
      rw [h0] at hnat
      have hzero : (0 : BitVec 32).toNat = 0 := rfl
      omega
    · rw [hnat]
      exact Nat.mod_le _ _
  have hbpos := cfg.perBlock_pos P
  have hdm := Nat.div_add_mod cfg.sizeAtDescriptor.toNat (2 ^ cfg.readLog2 P)
  have hmod := Nat.mod_lt cfg.sizeAtDescriptor.toNat (Nat.two_pow_pos (cfg.readLog2 P))
  unfold Config.covered
  unfold blockCount at hcount
  generalize cfg.perBlock P = n at *
  generalize cfg.sizeAtDescriptor.toNat = S at *
  generalize 2 ^ cfg.readLog2 P = M at *
  have hle : ∀ {a b : Nat}, a ≤ b → a * M ≤ M * b := by
    intro a b hab
    rw [Nat.mul_comm]
    exact Nat.mul_le_mul_left M hab
  split
  · rename_i hm
    by_cases h0 : S % M = 0
    · rw [if_pos h0] at hcount
      have := hle (show m ≤ S / M by omega)
      omega
    · rw [if_neg h0] at hcount
      have := hle (show m ≤ S / M by omega)
      omega
  · by_cases h0 : S % M = 0
    · rw [if_pos h0] at hcount ⊢
      have := hle (show n - 1 + 1 ≤ S / M by omega)
      rw [Nat.succ_mul] at this
      omega
    · rw [if_neg h0] at hcount ⊢
      have := hle (show n - 1 ≤ S / M by omega)
      omega

/-- More TLPs of a block cover at least as much. -/
theorem Config.covered_mono (P : Params) (cfg : Config) {m m' : Nat} (h : m ≤ m') :
    cfg.covered P m ≤ cfg.covered P m' := by
  unfold Config.covered
  by_cases hm : m < cfg.perBlock P
  · rw [if_pos hm]
    split
    · exact Nat.mul_le_mul_right _ h
    · have := Nat.mul_le_mul_right (2 ^ cfg.readLog2 P) (show m ≤ cfg.perBlock P - 1 by omega)
      omega
  · rw [if_neg hm, if_neg (show ¬ m' < cfg.perBlock P by omega)]

/-- The first block is the longest one. -/
theorem Config.laterBytes_le (P : Params) (cfg : Config) : cfg.laterBytes P ≤ cfg.firstBytes P := by
  refine cfg.covered_mono P ?_
  split <;> omega

/-- Every TLP of a size in whole dwords has a dword. -/
theorem tileDwords_pos {log2 S n i : Nat} (hlo : 3 ≤ log2) (hhi : log2 ≤ 12) (hS : S % 4 = 0) :
    0 < tileDwords (2 ^ log2) S n i := by
  obtain ⟨hdvd, hge, -⟩ := two_pow_tlp hlo hhi
  have hrem : S % 2 ^ log2 % 4 = 0 := by
    rw [Nat.mod_mod_of_dvd _ (by omega)]
    exact hS
  unfold tileDwords
  split
  · split <;> omega
  · omega

/-- No TLP is longer than a full one. -/
theorem tileDwords_le {log2 S n i : Nat} (hlo : 3 ≤ log2) (hhi : log2 ≤ 12) :
    tileDwords (2 ^ log2) S n i ≤ 2 ^ log2 / 4 := by
  obtain ⟨-, -, hle⟩ := two_pow_tlp hlo hhi
  have := Nat.mod_lt S (Nat.two_pow_pos log2)
  unfold tileDwords
  split
  · split <;> omega
  · omega

/-- A number of TLPs that is the quotient of the size, rounded down, is reached in the first block. -/
theorem Config.oneBlock_of_quotient {cfg : Config} (hcap : cfg.capRead = true)
    (h : cfg.numberTlps.toNat = cfg.sizeAtDescriptor.toNat / 2 ^ cfg.readLog2 P) :
    cfg.OneBlock P := by
  have hnat := numberEvenTlp_toNat (cfg.readLog2 P) cfg.sizeAtDescriptor
  have hpos := cfg.perBlock_pos P
  rw [Config.OneBlock, hcap, if_pos rfl, Config.total, h]
  unfold Config.perBlock blockTlps at *
  generalize numberEvenTlp (cfg.readLog2 P) cfg.sizeAtDescriptor = even at *
  unfold blockCount at hnat
  generalize cfg.sizeAtDescriptor.toNat / 2 ^ cfg.readLog2 P = quotient at *
  split
  · omega
  · rename_i hne
    have hne' : even.toNat ≠ 0 := by
      intro h0
      exact hne (BitVec.eq_of_toNat_eq h0)
    split at hnat <;> omega

/-- No block is longer than its counter allows. -/
theorem Config.covered_le (P : Params) (cfg : Config) (m : Nat) : cfg.covered P m ≤ 2 ^ 44 := by
  have hn : cfg.perBlock P ≤ 2 ^ 32 := blockTlps_le _
  obtain ⟨-, -, hle⟩ := two_pow_tlp (cfg.three_le_readLog2 P) (cfg.readLog2_le P)
  have hpos := cfg.perBlock_pos P
  have hmod := Nat.mod_lt cfg.sizeAtDescriptor.toNat (Nat.two_pow_pos (cfg.readLog2 P))
  unfold Config.covered
  generalize cfg.perBlock P = n at *
  generalize 2 ^ cfg.readLog2 P = M at *
  have hmul : ∀ {a : Nat}, a < n → a * M + M ≤ 2 ^ 44 := by
    intro a ha
    calc
      a * M + M = (a + 1) * M := (Nat.succ_mul a M).symm
      _ ≤ 2 ^ 32 * 4096 := Nat.mul_le_mul (by omega) hle
      _ = 2 ^ 44 := by norm_num
  split
  · rename_i hm
    have := hmul hm
    omega
  · have := hmul (show n - 1 < n by omega)
    split <;> omega

/-! ## The sequential addresses -/

/-- An offset that leaves the page where it is. -/
theorem lt_page_of_eq {a x : BitVec 64} (h : (a + x) >>> 12 = a >>> 12) :
    (a.toNat % 4096 + x.toNat) % 2 ^ 64 < 4096 := by
  have hnat := congrArg BitVec.toNat h
  simp only [BitVec.toNat_ushiftRight, BitVec.toNat_add, Nat.shiftRight_eq_div_pow] at hnat
  have ha := a.isLt
  have hx := x.isLt
  omega

theorem seqOffset_toNat (k : Nat) (size : BitVec 64) :
    (BitVec.ofNat 64 k * size).toNat = k * size.toNat % 2 ^ 64 := by
  rw [BitVec.toNat_mul, BitVec.toNat_ofNat, Nat.mod_mul_mod]

/-- From the third one on the sequential blocks end in the page of the first one, if the size is not
so large that the addresses wrap. -/
theorem Config.InPage.lt_page (hsize : cfg.sizeAtDescriptor.toNat < 2 ^ 61) {k : Nat}
    (h : cfg.InPage (k + 2)) :
    cfg.addrAtDescriptor.toNat % 4096 + (k + 3) * cfg.sizeAtDescriptor.toNat < 4096 := by
  have hpage : ∀ j, j ≤ k → (cfg.addrAtDescriptor.toNat % 4096 +
      (j + 3) * cfg.sizeAtDescriptor.toNat % 2 ^ 64) % 2 ^ 64 < 4096 := by
    intro j hj
    have hj' := lt_page_of_eq (h (j + 2) (by omega) (by omega))
    rwa [seqOffset_toNat] at hj'
  have hoffset := Nat.mod_lt cfg.addrAtDescriptor.toNat (show 0 < 4096 by decide)
  -- each block is one size behind the one before, so nothing wraps
  have hall : ∀ j, j ≤ k → cfg.addrAtDescriptor.toNat % 4096 +
      (j + 3) * cfg.sizeAtDescriptor.toNat < 4096 := by
    intro j
    induction j with
    | zero =>
        intro hj
        have := hpage 0 hj
        omega
    | succ j ih =>
        intro hj
        have hbefore := ih (by omega)
        have hnow := hpage (j + 1) hj
        have hsucc : (j + 1 + 3) * cfg.sizeAtDescriptor.toNat =
            (j + 3) * cfg.sizeAtDescriptor.toNat + cfg.sizeAtDescriptor.toNat := by
          rw [show j + 1 + 3 = j + 3 + 1 by omega, Nat.succ_mul]
        rw [hsucc] at hnow ⊢
        omega
  exact hall k (Nat.le_refl k)

/-! ## The limit of an operation -/

/-- The bytes of a TLP lie in the `limit` bytes from `base` on. -/
structure Within (base : BitVec 64) (limit : Nat) (x : Sent) : Prop where
  low : base.toNat ≤ x.beat.addr.toNat
  high : x.beat.addr.toNat + 4 * x.beat.dwords.toNat ≤ base.toNat + limit

instance (base : BitVec 64) (limit : Nat) (x : Sent) : Decidable (Within base limit x) :=
  decidable_of_iff (base.toNat ≤ x.beat.addr.toNat ∧
    x.beat.addr.toNat + 4 * x.beat.dwords.toNat ≤ base.toNat + limit)
    ⟨fun h => ⟨h.1, h.2⟩, fun h => ⟨h.low, h.high⟩⟩

/-- A TLP in a block at offset `r` from the buffer. -/
theorem IsTile.within {x : Sent} {base r : BitVec 64} {words : BitVec 32} {k d limit : Nat}
    (hx : IsTile x (base + r + BitVec.ofNat 64 k) words) (hd : words.toNat = d) (hpos : 0 < d)
    (hsmall : d < 2 ^ 11) (hk : k % 4 = 0) (hbase : base.toNat % 4 = 0)
    (hfit : r.toNat / 4 * 4 + (k + 4 * d) ≤ limit) (hlimit : base.toNat + limit ≤ 2 ^ 64) :
    Within base limit x := by
  have haddr : x.beat.addr.toNat = base.toNat + r.toNat / 4 * 4 + k := by
    rw [hx.addr, alignDword_toNat, BitVec.toNat_add, BitVec.toNat_add, BitVec.toNat_ofNat]
    omega
  have hdwords : x.beat.dwords.toNat = d := by
    rw [hx.dwords, BitVec.toNat_setWidth, hd, Nat.mod_eq_of_lt hsmall]
  constructor <;> omega

/-- What is left for the blocks after the first one. -/
def Config.LaterFit (P : Params) (cfg : Config) (random : BitVec 64 → Prop) (limit : Nat) : Prop :=
  ¬ cfg.OneBlock P → ∀ x, IsBase cfg random x →
    ∃ r, x = cfg.addrAtDescriptor + r ∧ r.toNat / 4 * 4 + cfg.laterBytes P ≤ limit

/-- With writes both directions are cut into the same blocks. -/
theorem wrBlocks_eq_rdBlocks (hcap : cfg.capWrite = true) (base : Nat → BitVec 64 → Prop) :
    wrBlocks P cfg base = rdBlocks P cfg base := by
  simp only [wrBlocks, rdBlocks, Config.readLog2, hcap, if_true]

/-- The block of TLP `k` is at an offset behind which the TLPs of the block up to this one fit. -/
theorem BlockBase.place {random : BitVec 64 → Prop} {limit k : Nat} {base : BitVec 64}
    (h : BlockBase cfg random (k / cfg.perBlock P) base) (hfirst : cfg.firstBytes P ≤ limit)
    (hlater : cfg.LaterFit P random limit) (hcount : cfg.capWrite = true ∨ k < cfg.total)
    (hone : cfg.OneBlock P → k < cfg.perBlock P) :
    ∃ r : BitVec 64, base = cfg.addrAtDescriptor + r ∧
      ∃ m, k % cfg.perBlock P < m ∧ r.toNat / 4 * 4 + cfg.covered P m ≤ limit := by
  have hn := cfg.perBlock_pos P
  have hmod : k % cfg.perBlock P < cfg.perBlock P := Nat.mod_lt k hn
  rcases Nat.lt_or_ge k (cfg.perBlock P) with hlt | hge
  · -- the first block is at the address of the descriptor
    have hzero : k / cfg.perBlock P = 0 := Nat.div_eq_of_lt hlt
    rw [hzero, BlockBase, if_pos rfl] at h
    refine ⟨0, by rw [h]; exact (BitVec.add_zero _).symm,
      if cfg.capWrite then cfg.perBlock P else cfg.total, ?_, ?_⟩
    · rw [Nat.mod_eq_of_lt hlt]
      rcases hcount with hcap | hcap
      · rw [if_pos hcap]
        exact hlt
      · split <;> omega
    · have hz : (0 : BitVec 64).toNat = 0 := rfl
      rw [hz, Nat.zero_div, Nat.zero_mul, Nat.zero_add]
      exact hfirst
  · have hmany : ¬ cfg.OneBlock P := fun hob => absurd (hone hob) (by omega)
    have hpos : k / cfg.perBlock P ≠ 0 := (Nat.div_pos hge hn).ne'
    rw [BlockBase, if_neg hpos] at h
    obtain ⟨r, hr, hfit⟩ := hlater hmany _ h
    refine ⟨r, hr, if cfg.capWrite then cfg.perBlock P else cfg.total - cfg.perBlock P, ?_, hfit⟩
    rcases hcount with hcap | hcap
    · rw [if_pos hcap]
      exact hmod
    · split
      · exact hmod
      · have hsub : k % cfg.perBlock P ≤ k - cfg.perBlock P := by
          rw [Nat.mod_eq_sub_mod hge]
          exact Nat.mod_le _ _
        omega

/-- The headers of one direction stay within the limit, if they are as many as the operation sends. -/
theorem tiles_within {random : BitVec 64 → Prop} {hs : List Sent} {limit : Nat}
    (h : (rdBlocks P cfg (BlockBase cfg random)).Tiles hs)
    (hsize : cfg.sizeAtDescriptor.toNat % 4 = 0) (hbase : cfg.addrAtDescriptor.toNat % 4 = 0)
    (hlimit : cfg.addrAtDescriptor.toNat + limit ≤ 2 ^ 64) (hfirst : cfg.firstBytes P ≤ limit)
    (hlater : cfg.LaterFit P random limit)
    (hcount : cfg.capWrite = true ∨ hs.length ≤ cfg.total)
    (hone : cfg.OneBlock P → hs.length ≤ cfg.perBlock P) :
    ∀ x ∈ hs, Within cfg.addrAtDescriptor limit x := by
  intro x hx
  obtain ⟨k, hk, hget⟩ := List.mem_iff_getElem.mp hx
  have hkx : hs[k]? = some x := by
    rw [List.getElem?_eq_getElem hk, hget]
  obtain ⟨base, hfrom⟩ := h
  obtain ⟨hblock, htile⟩ := hfrom k x hkx
  have hn := cfg.perBlock_pos P
  have hlo := cfg.three_le_readLog2 P
  have hhi := cfg.readLog2_le P
  obtain ⟨hdvd, -, hle⟩ := two_pow_tlp hlo hhi
  have hmod : k % cfg.perBlock P < cfg.perBlock P := Nat.mod_lt k hn
  have hstride : k % cfg.perBlock P * 2 ^ cfg.readLog2 P % 4 = 0 := by
    rw [Nat.mul_mod, show 2 ^ cfg.readLog2 P % 4 = 0 by omega]
    simp
  have hwords : (tlpWords (cfg.readLog2 P) cfg.sizeAtDescriptor
      (BitVec.ofNat 32 (k % cfg.perBlock P + 1))).toNat = tileDwords (2 ^ cfg.readLog2 P)
        cfg.sizeAtDescriptor.toNat (cfg.perBlock P) (k % cfg.perBlock P) :=
    tlpWords_toNat hlo hhi cfg.sizeAtDescriptor hmod
  have hb : BlockBase cfg random (k / cfg.perBlock P) (base (k / cfg.perBlock P)) := hblock
  have hnumber : cfg.capWrite = true ∨ k < cfg.total := hcount.imp id (fun h => by omega)
  have hmany : cfg.OneBlock P → k < cfg.perBlock P := fun h => Nat.lt_of_lt_of_le hk (hone h)
  obtain ⟨r, hr, m, hm, hfit⟩ := hb.place hfirst hlater hnumber hmany
  have hcov := cfg.tile_le_covered P hmod hm
  have htile' : IsTile x (cfg.addrAtDescriptor + r +
      BitVec.ofNat 64 (k % cfg.perBlock P * 2 ^ cfg.readLog2 P))
      (tlpWords (cfg.readLog2 P) cfg.sizeAtDescriptor
        (BitVec.ofNat 32 (k % cfg.perBlock P + 1))) := by
    rw [← hr]
    exact htile
  exact htile'.within hwords (tileDwords_pos hlo hhi hsize)
    (Nat.lt_of_le_of_lt (tileDwords_le hlo hhi) (by omega)) hstride hbase (by omega) hlimit

/-- An operation stays within the limit of its buffer, if its first block and the later ones do. -/
theorem Operation.within {inp : Run P} {start stop : Nat} (op : Operation inp cfg start stop)
    {random : BitVec 64 → Prop} (hrandom : RandomOk inp start stop random) {limit : Nat}
    (hsize : cfg.sizeAtDescriptor.toNat % 4 = 0) (hbase : cfg.addrAtDescriptor.toNat % 4 = 0)
    (hlimit : cfg.addrAtDescriptor.toNat + limit ≤ 2 ^ 64) (hfirst : cfg.firstBytes P ≤ limit)
    (hlater : cfg.LaterFit P random limit) {t : Nat} (hat : start < t) (htb : t ≤ stop) :
    ∀ x ∈ writeHeaders (beats inp start t) ++ readHeaders (beats inp start t),
      Within cfg.addrAtDescriptor limit x := by
  obtain ⟨hwrites, hreads⟩ := op.builtFrom hrandom hat htb
  have hmost := op.sentAtMost hat htb
  intro x hx
  rcases List.mem_append.mp hx with hx | hx
  · have hcap := hmost.writes_cap (List.ne_nil_of_mem hx)
    rw [wrBlocks_eq_rdBlocks hcap] at hwrites
    exact tiles_within hwrites hsize hbase hlimit hfirst hlater (.inl hcap) hmost.writes x hx
  · have hcap := hmost.reads_cap (List.ne_nil_of_mem hx)
    refine tiles_within hreads hsize hbase hlimit hfirst hlater (.inr hmost.reads) ?_ x hx
    intro hob
    rw [Config.OneBlock, hcap, if_pos rfl] at hob
    exact hmost.reads.trans hob

end Extent

end Rq
end PcieBench
