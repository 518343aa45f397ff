import PcieBench.Rq.Pairing

/-!
# The order of the blocks

Each direction of an operation goes through its blocks with registers of its own.  In a fixed or a
sequential pattern the address of block `q` does not depend on the direction, on the other direction or
on the timing: it is what `q` turns of the generator leave.  The fixed pattern is settled here.
-/

namespace PcieBench
namespace Rq

open Clocked Tlp

section BlockOrder

variable {P : Params}

/-! ## The generators of an operation -/

/-- The generators of an operation that has ended `f` memory writes and issued `g` memory reads. -/
structure Generating (cfg : Config) (s : State P) (l : List Sent) (f g : Nat) : Prop where
  sending : Sending cfg s l f g
  wrBlock : cfg.capWrite = true → s.wrBlock.Agrees (cfg.blockRegisters (f / cfg.perBlock P))
  rdBlock : cfg.capRead = true → s.rdBlock.Agrees (cfg.blockRegisters (g / cfg.perBlock P))

variable {cfg : Config} {f g : Nat} {s : State P} {i : Input P} {l : List Sent}

theorem Generating.keeps (h : Generating cfg s l f g)
    (hm : Stalls s i ∨ OpensWrite s i ∨ ContinuesWrite s i ∨ Finishes s i) :
    Generating cfg (step s i) (l ++ load s i) f g := by
  have hblocks : (step s i).wrBlock = s.wrBlock ∧ (step s i).rdBlock = s.rdBlock := by
    rcases hm with hm | hm | hm | hm
    · exact ⟨hm.wrBlock, hm.rdBlock⟩
    · exact ⟨hm.wrBlock, hm.rdBlock⟩
    · exact ⟨hm.wrBlock, hm.rdBlock⟩
    · exact ⟨hm.wrBlock, hm.rdBlock⟩
  refine ⟨h.sending.keeps hm, ?_, ?_⟩
  · rw [hblocks.1]
    exact h.wrBlock
  · rw [hblocks.2]
    exact h.rdBlock

theorem Generating.ends (h : Generating cfg s l f g) (hm : EndsWrite s i)
    (hb : s.bounds = nextBounds P cfg) (hcfg : i.cfg = cfg) :
    Generating cfg (step s i) (l ++ load s i) (f + 1) g := by
  refine ⟨h.sending.ends hm hb hcfg, ?_, ?_⟩
  · intro hw
    rw [hm.wrBlock, hcfg]
    exact (h.wrBlock hw).succ (cfg.perBlock_pos P) (h.sending.wrEven_iff hm.origin hb) _
  · rw [hm.rdBlock]
    exact h.rdBlock

theorem Generating.issues (h : Generating cfg s l f g) (hm : IssuesRead s i)
    (hb : s.bounds = nextBounds P cfg) (hcfg : i.cfg = cfg) :
    Generating cfg (step s i) (l ++ load s i) f (g + 1) := by
  refine ⟨h.sending.issues hm hb hcfg, ?_, ?_⟩
  · rw [hm.wrBlock]
    exact h.wrBlock
  · intro hr
    rw [hm.rdBlock, hcfg]
    exact (h.rdBlock hr).succ (cfg.perBlock_pos P) (h.sending.rdEven_iff hb) _

theorem Generating.step (h : Generating cfg s l f g) (hb : s.bounds = nextBounds P cfg)
    (hcfg : i.cfg = cfg) (hs : s.wrState ≠ .idle) :
    ∃ f' g', Generating cfg (step s i) (l ++ load s i) f' g' := by
  rcases busy_cases i hs with hm | hm | hm | hm | hm | hm
  · exact ⟨f, g, h.keeps (.inl hm)⟩
  · exact ⟨f, g, h.keeps (.inr (.inl hm))⟩
  · exact ⟨f, g, h.keeps (.inr (.inr (.inl hm)))⟩
  · exact ⟨f + 1, g, h.ends hm hb hcfg⟩
  · exact ⟨f, g + 1, h.issues hm hb hcfg⟩
  · exact ⟨f, g, h.keeps (.inr (.inr (.inr hm)))⟩

/-! ## The first request of each block -/

/-- Block `q` of the headers starts at `address q`. -/
def BlocksStartAt (count : Nat) (address : Nat → BitVec 64) (hs : List Sent) : Prop :=
  ∀ q x, hs[q * count]? = some x → x.beat.addr = alignDword (address q)

/-- The first header of a block is at its base. -/
theorem Blocks.Tiles.startAt {B : Blocks} {address : Nat → BitVec 64}
    (hbase : ∀ q b, B.base q b → b = address q) {hs : List Sent} (h : B.Tiles hs) :
    BlocksStartAt B.count address hs := by
  intro q x hx
  obtain ⟨base, hfrom⟩ := h
  obtain ⟨hb, htile⟩ := hfrom _ x hx
  rw [Nat.mul_div_cancel _ B.count_pos] at hb htile
  rw [Nat.mul_mod_left, Nat.zero_mul, BitVec.add_zero] at htile
  rw [htile.addr, hbase _ _ hb]

namespace Operation

variable {inp : Run P} {start stop : Nat}

theorem generating_first (op : Operation inp cfg start stop) :
    Generating cfg (st inp (start + 1)) [] 0 0 := by
  have hcfg := op.stable start (Nat.le_refl _) op.start_lt (.inl rfl)
  have hstarts := startsWith_of_leaves op.idle op.leaves
  refine ⟨op.sending_first, ?_, ?_⟩
  · intro hw
    rw [st_succ, step_wrBlock, nextWrBlock, op.idle, hcfg, hw, hstarts, Nat.zero_div]
    exact BlockAddr.prepare_agrees _ _ _ _
  · intro hr
    rw [st_succ, step_rdBlock, nextRdBlock, op.idle, hcfg, hr, hstarts, Nat.zero_div]
    exact BlockAddr.prepare_agrees _ _ _ _

theorem generating (op : Operation inp cfg start stop) {t : Nat} (hat : start < t) (htb : t ≤ stop)
    (hs : (st inp t).wrState ≠ .idle) :
    ∃ f g, Generating cfg (st inp t) (beats inp start t) f g := by
  refine (op.beats_induction (fun s l => ∃ f g, Generating cfg s l f g) (fun _ _ => True)
    ⟨0, 0, op.generating_first⟩ ?_ (fun _ _ _ => trivial) t hat htb).1 hs
  rintro t hat htb hs hcfg hb ⟨f, g, h⟩
  exact h.step hb hcfg hs

/-- In a fixed or sequential pattern every block of either direction starts where its number says. -/
theorem blocksStartAt (op : Operation inp cfg start stop)
    (hmode : cfg.addressMode = 0 ∨ cfg.addressMode = 1) {t : Nat} (hat : start < t) (htb : t ≤ stop) :
    BlocksStartAt (cfg.perBlock P) cfg.blockAddress (writeHeaders (beats inp start t)) ∧
      BlocksStartAt (cfg.perBlock P) cfg.blockAddress (readHeaders (beats inp start t)) := by
  let base : Nat → BitVec 64 → Prop := fun q b => b = cfg.blockAddress q
  have hmost := op.sentAtMost hat htb
  constructor
  · by_cases hnil : writeHeaders (beats inp start t) = []
    · intro q x hx
      rw [hnil] at hx
      simp at hx
    have hw := hmost.writes_cap hnil
    have hcount : (wrBlocks P cfg base).count = cfg.perBlock P := by
      rw [wrBlocks_eq_rdBlocks hw]
      rfl
    have htiles : (wrBlocks P cfg base).Tiles (writeHeaders (beats inp start t)) := by
      refine op.writes_tile base rfl ?_ hat htb
      intro u hau hub hs k hk
      obtain ⟨f, g, h⟩ := op.generating hau (by omega) hs
      -- the count of the headers is the count of the invariant
      have hfk : f = k := by
        rw [h.sending.writes] at hk
        split at hk <;> omega
      rw [hcount, ← hfk]
      exact (h.wrBlock hw).nextBase hmode (op.txFix_eq hau (by omega) hs).1
    rw [← hcount]
    exact htiles.startAt (fun _ _ h => h)
  · by_cases hnil : readHeaders (beats inp start t) = []
    · intro q x hx
      rw [hnil] at hx
      simp at hx
    have hr := hmost.reads_cap hnil
    have htiles : (rdBlocks P cfg base).Tiles (readHeaders (beats inp start t)) := by
      refine op.reads_tile base rfl ?_ hat htb
      intro u hau hub hs
      obtain ⟨f, g, h⟩ := op.generating hau (by omega) hs
      rw [h.sending.reads]
      exact (h.rdBlock hr).nextBase hmode (op.txFix_eq hau (by omega) hs).2
    exact htiles.startAt (fun _ _ h => h)

end Operation

/-! ## The fixed pattern -/

/-- All blocks of both directions start at `ADDR_AT_DESCRIPTOR + ADDRESS_GEN_OFFSET`. -/
def FixedLaw (P : Params) (cfg : Config) (l : List Sent) : Prop :=
  BlocksStartAt (cfg.perBlock P) (fun _ => cfg.addrAtDescriptor + cfg.addressGenOffset)
      (writeHeaders l) ∧
    BlocksStartAt (cfg.perBlock P) (fun _ => cfg.addrAtDescriptor + cfg.addressGenOffset)
      (readHeaders l)

/-- The fixed pattern leaves the offset out in the first block. -/
theorem Config.blockAddress_fixed (hmode : cfg.addressMode = 0) (q : Nat) :
    cfg.blockAddress q = if q = 0 then cfg.addrAtDescriptor
      else cfg.addrAtDescriptor + cfg.addressGenOffset := by
  cases q with
  | zero =>
      rfl
  | succ q =>
      rw [if_neg (Nat.succ_ne_zero q), Config.blockAddress, Config.nextBase, if_pos hmode]

/-- Blocks that start at the addresses of the fixed pattern obey the law if the first one does. -/
theorem BlocksStartAt.fixed_iff {hs : List Sent} (hmode : cfg.addressMode = 0)
    (h : BlocksStartAt (cfg.perBlock P) cfg.blockAddress hs) :
    BlocksStartAt (cfg.perBlock P) (fun _ => cfg.addrAtDescriptor + cfg.addressGenOffset) hs ↔
      hs = [] ∨ alignDword cfg.addrAtDescriptor =
        alignDword (cfg.addrAtDescriptor + cfg.addressGenOffset) := by
  constructor
  · intro hlaw
    cases hs with
    | nil =>
        exact .inl rfl
    | cons x hs =>
        right
        have hfirst : (x :: hs)[0 * cfg.perBlock P]? = some x := by simp
        rw [← hlaw 0 x hfirst, h 0 x hfirst]
        rfl
  · rintro (rfl | heq) q x hx
    · simp at hx
    · rw [h q x hx, Config.blockAddress_fixed hmode]
      split
      · exact heq
      · rfl

end BlockOrder

/-- In the fixed pattern all blocks start at the address with the offset exactly if the offset does not
change the dword, or nothing has been sent. -/
theorem fixed_pattern {P : Params} {inp : Run P} {cfg : Config} {start stop : Nat}
    (op : Operation inp cfg start stop) (hmode : cfg.addressMode = 0) (t : Nat) (hat : start < t)
    (htb : t ≤ stop) :
    FixedLaw P cfg (Operation.beats inp start t) ↔
      alignDword cfg.addrAtDescriptor = alignDword (cfg.addrAtDescriptor + cfg.addressGenOffset) ∨
        (writeHeaders (Operation.beats inp start t) = [] ∧
          readHeaders (Operation.beats inp start t) = []) := by
  obtain ⟨hwrites, hreads⟩ := op.blocksStartAt (.inl hmode) hat htb
  rw [FixedLaw, hwrites.fixed_iff hmode, hreads.fixed_iff hmode]
  by_cases heq : alignDword cfg.addrAtDescriptor =
      alignDword (cfg.addrAtDescriptor + cfg.addressGenOffset)
  · simp [heq]
  · simp [heq]

/-- Memory writes of one dword at an offset. -/
def fixedConfig (offset : BitVec 64) : Config := { writeConfig 4 with addressGenOffset := offset }

theorem fixedConfig_operation (offset : BitVec 64)
    (hidle : (st (steady (fixedConfig offset)) 4).wrState = .idle)
    (hbusy : ∀ t, t < 8 → 4 < t → (st (steady (fixedConfig offset)) t).wrState ≠ .idle) :
    Operation (steady (fixedConfig offset)) (fixedConfig offset) 4 8 :=
  steady_operation (by decide) hidle hbusy (hbusy 5 (by decide) (by decide))

theorem fixed_pattern_zero :
    FixedLaw pcieController (fixedConfig 0) (Operation.beats (steady (fixedConfig 0)) 4 8) :=
  (fixed_pattern (fixedConfig_operation 0 (by decide +kernel) (by decide +kernel)) rfl 8 (by decide)
    (by decide)).mpr (.inl rfl)

/-- The first block is written without the offset, the later ones with it. -/
theorem first_block_without_offset :
    Operation (steady (fixedConfig 64)) (fixedConfig 64) 4 8 ∧
      (writeHeaders (Operation.beats (steady (fixedConfig 64)) 4 8)).map (fun x => x.beat.addr) =
        [0x100000, 0x100040, 0x100040] ∧
      ¬ FixedLaw pcieController (fixedConfig 64) (Operation.beats (steady (fixedConfig 64)) 4 8) := by
  have haddrs : (writeHeaders (Operation.beats (steady (fixedConfig 64)) 4 8)).map
      (fun x => x.beat.addr) = [0x100000, 0x100040, 0x100040] := by decide +kernel
  refine ⟨fixedConfig_operation 64 (by decide +kernel) (by decide +kernel), haddrs, ?_⟩
  intro hlaw
  cases hl : writeHeaders (Operation.beats (steady (fixedConfig 64)) 4 8) with
  | nil =>
      rw [hl] at haddrs
      cases haddrs
  | cons x hs =>
      have hfirst := hlaw.1 0 x (by rw [hl]; rfl)
      rw [hl, List.map_cons, List.cons.injEq] at haddrs
      rw [haddrs.1] at hfirst
      revert hfirst
      decide

end Rq
end PcieBench
