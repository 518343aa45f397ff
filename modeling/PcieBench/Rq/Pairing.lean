import PcieBench.Clocked.Stutter
import PcieBench.Rq.Extent

/-!
# Memory reads that follow memory writes

With both capabilities an operation reads every block that it has written.  The two directions have
their own counters, pointers and address generators, which move in different states.  This module puts
them side by side: in a fixed or sequential pattern request `k` of one direction is request `k` of the
other, and a block is read when all its writes have ended.
-/

namespace PcieBench
namespace Rq

open Clocked Tlp

section Pairing

variable {P : Params}

/-! ## The blocks of both directions -/

/-- The block registers of a direction that has ended `q` blocks, but for the random generator. -/
def Config.blockRegisters (cfg : Config) : Nat → BlockAddr
  | 0 => BlockAddr.prepare true cfg 0
  | q + 1 => (cfg.blockRegisters q).advance cfg 0

/-- The address of block `q` in a fixed or sequential pattern. -/
def Config.blockAddress (cfg : Config) : Nat → BitVec 64
  | 0 => cfg.addrAtDescriptor
  | q + 1 => cfg.nextBase (cfg.blockRegisters q)

/-- The address and the dwords that a header asks for. -/
def Sent.request (x : Sent) : BitVec 64 × BitVec 11 := (x.beat.addr, x.beat.dwords)

/-- The last beats of the memory writes. -/
def lastBeats (l : List Sent) : List Sent :=
  l.filter (fun x => decide (x.origin ≠ .initRead) && x.beat.tlast)

theorem lastBeats_snoc (l : List Sent) (x : Sent) : lastBeats (l ++ [x]) =
    lastBeats l ++ if x.origin ≠ .initRead ∧ x.beat.tlast = true then [x] else [] := by
  by_cases h : x.origin ≠ .initRead ∧ x.beat.tlast = true <;> simp_all [lastBeats]

/-- The request at place `k` of blocks at the addresses `address`. -/
def Blocks.requestAt (B : Blocks) (address : Nat → BitVec 64) (k : Nat) : BitVec 64 × BitVec 11 :=
  (alignDword (address (k / B.count) + BitVec.ofNat 64 (k % B.count * B.stride)),
    (B.words (k % B.count)).setWidth 11)

/-- Where the addresses of the blocks are known, so are the requests. -/
theorem Blocks.Tiles.request_eq {B : Blocks} {address : Nat → BitVec 64}
    (hbase : ∀ q b, B.base q b → b = address q) {hs : List Sent} (h : B.Tiles hs) :
    hs.map Sent.request = (List.range hs.length).map (B.requestAt address) := by
  obtain ⟨base, hfrom⟩ := h
  apply List.ext_getElem
  · simp
  · intro k hk _
    rw [List.length_map] at hk
    obtain ⟨hb, htile⟩ := hfrom k _ (List.getElem?_eq_getElem hk)
    rw [hbase _ _ hb] at htile
    rw [List.getElem_map, List.getElem_map, List.getElem_range]
    exact Prod.ext htile.addr htile.dwords

/-! ## The two directions side by side -/

/-- Both directions of an operation that has ended `f` memory writes and issued `g` memory reads. -/
structure Paired (cfg : Config) (s : State P) (l : List Sent) (f g : Nat) : Prop where
  sending : Sending cfg s l f g
  wrBlock : s.wrBlock.Agrees (cfg.blockRegisters (f / cfg.perBlock P))
  rdBlock : s.rdBlock.Agrees (cfg.blockRegisters (g / cfg.perBlock P))
  ends : (lastBeats l).length = f
  writing : s.wrState = .initWrite ∨ s.wrState = .write → g = f / cfg.perBlock P * cfg.perBlock P
  reading : s.wrState = .initRead → f = (g / cfg.perBlock P + 1) * cfg.perBlock P
  le : g ≤ f

variable {cfg : Config} {f g : Nat} {s : State P} {i : Input P} {l : List Sent}

/-- The beat that ends a memory write has `TLAST`. -/
theorem EndsWrite.tlast (hm : EndsWrite s i) : (step s i).beat.tlast = true := by
  rcases hm.ends with ⟨hs, hone, hlast⟩ | ⟨hs, hends⟩
  · simp [State.beat, nextCtl, hs, hm.tready, hone, hlast]
  · have htwo : s.lastTwoWordsAtTlp = true := by
      simp only [State.writeEnds, Bool.or_eq_true, Bool.and_eq_true] at hends
      rcases hends with ⟨-, htwo⟩ | ⟨-, hone⟩
      · exact htwo
      · rw [lastWordAtTlp_eq, decide_eq_true_eq] at hone
        rw [lastTwoWordsAtTlp_eq, decide_eq_true_eq]
        omega
    simp [State.beat, nextCtl, hs, hm.tready, hends, htwo]

/-- The moves that neither end a memory write nor issue a read leave both directions where they are. -/
theorem Paired.keeps (h : Paired cfg s l f g) (hp : PointerInv s)
    (hm : Stalls s i ∨ OpensWrite s i ∨ ContinuesWrite s i ∨ Finishes s i) :
    Paired cfg (step s i) (l ++ load s i) f g := by
  have hsending := h.sending.keeps hm
  rcases hm with hm | hm | hm | hm
  · exact ⟨hsending, by rw [hm.wrBlock]; exact h.wrBlock, by rw [hm.rdBlock]; exact h.rdBlock,
      by rw [hm.load, List.append_nil]; exact h.ends, by rw [hm.state]; exact h.writing,
      by rw [hm.state]; exact h.reading, h.le⟩
  · -- the header of a TLP with more beats
    have hlast : (step s i).beat.tlast = false := by
      simp [State.beat, nextCtl, hm.initWrite, hm.tready, hm.word, hm.more]
    refine ⟨hsending, by rw [hm.wrBlock]; exact h.wrBlock, by rw [hm.rdBlock]; exact h.rdBlock, ?_,
      fun _ => h.writing (.inl hm.initWrite), ?_, h.le⟩
    · rw [hm.load, lastBeats_snoc, if_neg (by simp [hlast]), List.append_nil]
      exact h.ends
    · rw [hm.state]
      intro hs
      cases hs
  · -- a payload beat in the middle of a TLP
    have hlast : (step s i).beat.tlast = false := by
      simp [State.beat, nextCtl, hm.write, hm.tready, hm.more, hp.last hm.write]
    refine ⟨hsending, by rw [hm.wrBlock]; exact h.wrBlock, by rw [hm.rdBlock]; exact h.rdBlock, ?_,
      fun _ => h.writing (.inr hm.write), ?_, h.le⟩
    · rw [hm.load, lastBeats_snoc, if_neg (by simp [hlast]), List.append_nil]
      exact h.ends
    · rw [hm.state]
      intro hs
      cases hs
  · -- the end of the operation
    refine ⟨hsending, by rw [hm.wrBlock]; exact h.wrBlock, by rw [hm.rdBlock]; exact h.rdBlock,
      by rw [hm.load, List.append_nil]; exact h.ends, ?_, ?_, h.le⟩
    · rw [hm.state]
      rintro (hs | hs) <;> cases hs
    · rw [hm.state]
      intro hs
      cases hs

/-- The registers of a direction that advance with the last TLP of a block. -/
theorem BlockAddr.Agrees.succ {b : BlockAddr} {n k : Nat} {ends : Prop} [Decidable ends]
    (h : b.Agrees (cfg.blockRegisters (k / n))) (hn : 0 < n) (hends : ends ↔ k % n + 1 = n) (r : BitVec 64) :
    (if ends then b.advance cfg r else b).Agrees (cfg.blockRegisters ((k + 1) / n)) := by
  rcases succ_div_mod hn k with ⟨hend, hdiv, -⟩ | ⟨hin, hdiv, -⟩
  · rw [if_pos (hends.mpr hend), hdiv]
    exact h.advance cfg r 0
  · rw [if_neg (by rw [hends]; omega), hdiv]
    exact h

/-- The end of a memory write: the reads of the block follow its last one. -/
theorem Paired.ends_write (h : Paired cfg s l f g) (hm : EndsWrite s i)
    (hb : s.bounds = nextBounds P cfg) (hcfg : i.cfg = cfg) (hr : cfg.capRead = true) :
    Paired cfg (step s i) (l ++ load s i) (f + 1) g := by
  have hn := cfg.perBlock_pos P
  have hiff := h.sending.wrEven_iff hm.origin hb
  have hg := h.writing hm.origin
  have hstate : (step s i).wrState =
      if f % cfg.perBlock P + 1 = cfg.perBlock P then .initRead else .initWrite := by
    rw [hm.state, afterWrite]
    simp only [hiff, hcfg, hr, if_true]
  have horigin : s.wrState ≠ .initRead := by
    rcases hm.origin with hs | hs <;> simp [hs]
  refine ⟨h.sending.ends hm hb hcfg, ?_, by rw [hm.rdBlock]; exact h.rdBlock, ?_, ?_, ?_,
    Nat.le_succ_of_le h.le⟩
  · rw [hm.wrBlock, hcfg]
    exact h.wrBlock.succ hn hiff _
  · rw [hm.load, lastBeats_snoc, if_pos ⟨horigin, hm.tlast⟩, List.length_append, h.ends]
    rfl
  · -- inside the block the reads do not move
    rw [hstate]
    intro hs
    rcases succ_div_mod hn f with ⟨hend, -, -⟩ | ⟨-, hdiv, -⟩
    · rw [if_pos hend] at hs
      rcases hs with hs | hs <;> cases hs
    · rw [hdiv]
      exact hg
  · rw [hstate]
    intro hs
    rcases succ_div_mod hn f with ⟨hend, -, -⟩ | ⟨hin, -, -⟩
    · have hdm := Nat.div_add_mod f (cfg.perBlock P)
      rw [hg, Nat.mul_div_cancel _ hn, Nat.add_mul, Nat.one_mul, Nat.mul_comm]
      omega
    · rw [if_neg (by omega)] at hs
      cases hs

/-- A memory read: the block that is read has been written. -/
theorem Paired.issues_read (h : Paired cfg s l f g) (hm : IssuesRead s i)
    (hb : s.bounds = nextBounds P cfg) (hcfg : i.cfg = cfg) (hw : cfg.capWrite = true) :
    Paired cfg (step s i) (l ++ load s i) f (g + 1) := by
  have hn := cfg.perBlock_pos P
  have hiff := h.sending.rdEven_iff hb
  have hf := h.reading hm.initRead
  have hdm := Nat.div_add_mod g (cfg.perBlock P)
  have hmod := Nat.mod_lt g hn
  have hbound : f = cfg.perBlock P * (g / cfg.perBlock P) + cfg.perBlock P := by
    rw [hf, Nat.add_mul, Nat.one_mul, Nat.mul_comm]
  have hstate := hm.state
  simp only [hiff, hcfg, hw, true_and] at hstate
  refine ⟨h.sending.issues hm hb hcfg, by rw [hm.wrBlock]; exact h.wrBlock, ?_, ?_, ?_, ?_, by omega⟩
  · rw [hm.rdBlock, hcfg]
    exact h.rdBlock.succ hn hiff _
  · rw [hm.load, lastBeats_snoc, if_neg (by simp), List.append_nil]
    exact h.ends
  · -- back to the writes: the reads have reached the end of their block
    rw [hstate]
    intro hs
    rcases succ_div_mod hn g with ⟨hend, -, -⟩ | ⟨hin, -, -⟩
    · rw [hf, Nat.mul_div_cancel _ hn, Nat.add_mul, Nat.one_mul, Nat.mul_comm]
      omega
    · rw [if_neg (show ¬ g % cfg.perBlock P + 1 = cfg.perBlock P by omega)] at hs
      split at hs <;> rcases hs with hs | hs <;> cases hs
  · rw [hstate]
    intro hs
    rcases succ_div_mod hn g with ⟨hend, -, -⟩ | ⟨-, hdiv, -⟩
    · rw [if_pos hend] at hs
      split at hs <;> cases hs
    · rw [hdiv]
      exact hf

theorem Paired.step (h : Paired cfg s l f g) (hp : PointerInv s) (hb : s.bounds = nextBounds P cfg)
    (hcfg : i.cfg = cfg) (hw : cfg.capWrite = true) (hr : cfg.capRead = true)
    (hs : s.wrState ≠ .idle) : ∃ f' g', Paired cfg (step s i) (l ++ load s i) f' g' := by
  rcases busy_cases i hs with hm | hm | hm | hm | hm | hm
  · exact ⟨f, g, h.keeps hp (.inl hm)⟩
  · exact ⟨f, g, h.keeps hp (.inr (.inl hm))⟩
  · exact ⟨f, g, h.keeps hp (.inr (.inr (.inl hm)))⟩
  · exact ⟨f + 1, g, h.ends_write hm hb hcfg hr⟩
  · exact ⟨f, g + 1, h.issues_read hm hb hcfg hw⟩
  · exact ⟨f, g, h.keeps hp (.inr (.inr (.inr hm)))⟩

/-! ## Every operation with both capabilities -/

namespace Operation

variable {inp : Run P} {start stop : Nat}

theorem paired_first (op : Operation inp cfg start stop) (hw : cfg.capWrite = true)
    (hr : cfg.capRead = true) : Paired cfg (st inp (start + 1)) [] 0 0 := by
  have hcfg := op.stable start (Nat.le_refl _) op.start_lt (.inl rfl)
  have hstarts := startsWith_of_leaves op.idle op.leaves
  have hinit : (st inp (start + 1)).wrState = .initWrite := by
    rcases op.begins.2 with ⟨-, hs⟩ | ⟨hcap, -, -⟩
    · exact hs
    · rw [hw] at hcap
      cases hcap
  refine ⟨op.sending_first, ?_, ?_, rfl, ?_, ?_, Nat.le_refl 0⟩
  · rw [st_succ, step_wrBlock, nextWrBlock, op.idle, hcfg, hw, hstarts, Nat.zero_div]
    exact BlockAddr.prepare_agrees _ _ _ _
  · rw [st_succ, step_rdBlock, nextRdBlock, op.idle, hcfg, hr, hstarts, Nat.zero_div]
    exact BlockAddr.prepare_agrees _ _ _ _
  · rw [Nat.zero_div, Nat.zero_mul]
    exact fun _ => rfl
  · rw [hinit]
    intro hs
    cases hs

theorem paired (op : Operation inp cfg start stop) (hw : cfg.capWrite = true)
    (hr : cfg.capRead = true) {t : Nat} (hat : start < t) (htb : t ≤ stop) :
    ((st inp t).wrState ≠ .idle → ∃ f g, Paired cfg (st inp t) (beats inp start t) f g) ∧
      (readHeaders (beats inp start t)).length ≤ (lastBeats (beats inp start t)).length ∧
      (lastBeats (beats inp start t)).length ≤ (writeHeaders (beats inp start t)).length := by
  refine op.beats_induction (fun s l => ∃ f g, Paired cfg s l f g)
    (fun _ l => (readHeaders l).length ≤ (lastBeats l).length ∧
      (lastBeats l).length ≤ (writeHeaders l).length) ⟨0, 0, op.paired_first hw hr⟩ ?_ ?_ t hat htb
  · rintro t hat htb hs hcfg hb ⟨f, g, h⟩
    exact h.step (pointerInv inp t) hb hcfg hw hr hs
  · rintro s l ⟨f, g, h⟩
    rw [h.sending.reads, h.ends, h.sending.writes]
    refine ⟨h.le, ?_⟩
    split <;> omega

/-- The next block of each direction is the one of its count. -/
theorem nextBase_eq (op : Operation inp cfg start stop) (hmode : cfg.addressMode = 0 ∨ cfg.addressMode = 1)
    {t f g : Nat} (hat : start < t) (htb : t ≤ stop) (hs : (st inp t).wrState ≠ .idle)
    (h : Paired cfg (st inp t) (beats inp start t) f g) :
    (st inp t).txWrAddr cfg = cfg.blockAddress (f / cfg.perBlock P + 1) ∧
      (st inp t).txRdAddr cfg = cfg.blockAddress (g / cfg.perBlock P + 1) := by
  obtain ⟨hfixwr, hfixrd⟩ := op.txFix_eq hat htb hs
  exact ⟨h.wrBlock.nextBase hmode hfixwr, h.rdBlock.nextBase hmode hfixrd⟩

/-- The requests of both directions are the first ones of the same sequence. -/
theorem requests_eq (op : Operation inp cfg start stop) (hw : cfg.capWrite = true)
    (hr : cfg.capRead = true) (hmode : cfg.addressMode = 0 ∨ cfg.addressMode = 1) {t : Nat}
    (hat : start < t) (htb : t ≤ stop) :
    ∃ request : Nat → BitVec 64 × BitVec 11,
      (writeHeaders (beats inp start t)).map Sent.request =
        (List.range (writeHeaders (beats inp start t)).length).map request ∧
      (readHeaders (beats inp start t)).map Sent.request =
        (List.range (readHeaders (beats inp start t)).length).map request := by
  let base : Nat → BitVec 64 → Prop := fun q b => b = cfg.blockAddress q
  have hblocks := wrBlocks_eq_rdBlocks (P := P) hw base
  have hcount : (wrBlocks P cfg base).count = cfg.perBlock P := by rw [hblocks]; rfl
  have hwrites : (wrBlocks P cfg base).Tiles (writeHeaders (beats inp start t)) := by
    refine op.writes_tile base rfl ?_ hat htb
    intro u hau hub hs k hk
    obtain ⟨f, g, h⟩ := (op.paired hw hr hau (by omega)).1 hs
    -- the count of the headers is the count of the invariant
    have hfk : f = k := by
      rw [h.sending.writes] at hk
      split at hk <;> omega
    rw [hcount, ← hfk]
    exact (op.nextBase_eq hmode hau (by omega) hs h).1
  have hreads : (wrBlocks P cfg base).Tiles (readHeaders (beats inp start t)) := by
    rw [hblocks]
    refine op.reads_tile base rfl ?_ hat htb
    intro u hau hub hs
    obtain ⟨f, g, h⟩ := (op.paired hw hr hau (by omega)).1 hs
    rw [h.sending.reads]
    exact (op.nextBase_eq hmode hau (by omega) hs h).2
  exact ⟨(wrBlocks P cfg base).requestAt cfg.blockAddress, hwrites.request_eq (fun _ _ h => h),
    hreads.request_eq (fun _ _ h => h)⟩

end Operation

/-- In a fixed or sequential pattern the memory reads of an operation with both capabilities repeat its
memory writes, and a read is loaded only when the write it repeats has ended. -/
theorem read_write_pairing {inp : Run P} {start stop : Nat} (op : Operation inp cfg start stop)
    (hw : cfg.capWrite = true) (hr : cfg.capRead = true)
    (hmode : cfg.addressMode = 0 ∨ cfg.addressMode = 1) (t : Nat) (hat : start < t) (htb : t ≤ stop) :
    (readHeaders (Operation.beats inp start t)).map Sent.request <+:
        (writeHeaders (Operation.beats inp start t)).map Sent.request ∧
      ∀ x ∈ load (st inp t) (inp t), x.origin = .initRead →
        (readHeaders (Operation.beats inp start t)).length <
          (lastBeats (Operation.beats inp start t)).length := by
  obtain ⟨hpaired, hreads, hends⟩ := op.paired hw hr hat htb
  constructor
  · obtain ⟨request, hwr, hrd⟩ := op.requests_eq hw hr hmode hat htb
    rw [hwr, hrd]
    exact map_range_isPrefix request (hreads.trans hends)
  · intro x hx horigin
    have hs : (st inp t).wrState = .initRead := by
      unfold load at hx
      split at hx
      · rw [← horigin, List.mem_singleton.mp hx]
      · cases hx
    obtain ⟨f, g, h⟩ := hpaired (by rw [hs]; simp)
    have hf := h.reading hs
    have hn := cfg.perBlock_pos P
    have hdm := Nat.div_add_mod g (cfg.perBlock P)
    have hmod := Nat.mod_lt g hn
    rw [h.sending.reads, h.ends, hf, Nat.add_mul, Nat.one_mul, Nat.mul_comm]
    omega

/-- Memory writes of one dword, each followed by the memory read of the same dword. -/
def bothConfig (size : BitVec 64) : Config := { writeConfig size with capRead := true }

/-- The first three of them. -/
theorem read_write_pairing_three :
    (readHeaders (Operation.beats (steady (bothConfig 4)) 4 11)).length = 3 ∧
      (readHeaders (Operation.beats (steady (bothConfig 4)) 4 11)).map Sent.request <+:
        (writeHeaders (Operation.beats (steady (bothConfig 4)) 4 11)).map Sent.request := by
  have op : Operation (steady (bothConfig 4)) (bothConfig 4) 4 11 :=
    steady_operation (by decide) (by decide +kernel) (by decide +kernel) (by decide +kernel)
  exact ⟨by decide +kernel,
    (read_write_pairing op rfl rfl (.inl rfl) 11 (by decide) (by decide)).1⟩

end Pairing

end Rq
end PcieBench
