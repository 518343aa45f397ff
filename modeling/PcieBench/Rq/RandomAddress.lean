import PcieBench.Rq.Addresses

/-!
# The random address generator

The offsets of the random mode come out of a pipeline of six registers.  Whatever the configuration
was, the pages in it are below `2 ^ 31 + 4096`, because they come from a 31-bit number and at most one
page is added.  The size of the descriptor aligns the offset inside the page and the size of the host
buffer masks the result, so both have to be there long enough before the offset is used.
-/

namespace PcieBench
namespace Rq

section RandomAddress

variable {P : Params}

/-! ## Pages -/

/-- The bound of everything in the pipeline. -/
def randomBound : Nat := 2 ^ 31 + 4096

/-- The pages on their way through the generator are small. -/
structure RandomGen.Small (g : RandomGen) : Prop where
  modulus : g.randomNumberModulus.toNat < 2 ^ 31
  candidate : g.candidate.toNat < 2 ^ 31
  candidatePlus1 : g.candidatePlus1.toNat < randomBound
  pageWr : g.pageWr.toNat < randomBound
  pageRd : g.pageRd.toNat < randomBound
  nonTruncatedWr : g.addressWrNonTruncated.toNat < randomBound
  nonTruncatedRd : g.addressRdNonTruncated.toNat < randomBound
  addressWr : g.addressWr.toNat < randomBound
  addressRd : g.addressRd.toNat < randomBound

/-- The page of an address, with an offset inside it. -/
theorem page_append_toNat (x : BitVec 64) (offset : BitVec 12) :
    (x.extractLsb' 12 52 ++ offset).toNat = x.toNat / 4096 * 4096 + offset.toNat := by
  have hx := x.isLt
  have hoff := offset.isLt
  rw [BitVec.toNat_append, BitVec.extractLsb'_toNat, Nat.shiftRight_eq_div_pow,
    ← Nat.shiftLeft_add_eq_or_of_lt hoff, Nat.shiftLeft_eq]
  omega

theorem page_append_lt {x : BitVec 64} (h : x.toNat < randomBound) (offset : BitVec 12) :
    (x.extractLsb' 12 52 ++ offset).toNat < randomBound := by
  have hoff := offset.isLt
  rw [page_append_toNat]
  unfold randomBound at *
  omega

theorem otherPage_lt {candidate candidatePlus1 : BitVec 64} (h : candidate.toNat < 2 ^ 31)
    (h' : candidatePlus1.toNat < randomBound) (last : BitVec 64) :
    (otherPage candidate candidatePlus1 last).toNat < randomBound := by
  unfold otherPage
  split
  · refine page_append_lt ?_ _
    unfold randomBound
    omega
  · exact page_append_lt h' _

theorem and_lt {x : BitVec 64} {b : Nat} (h : x.toNat < b) (mask : BitVec 64) :
    (x &&& mask).toNat < b := by
  rw [BitVec.toNat_and]
  exact Nat.lt_of_le_of_lt Nat.and_le_left h

theorem RandomGen.Small.next {s : State P} (h : s.random.Small) (i : Input P) :
    (nextRandom s i).Small := by
  have hmod := h.modulus
  refine ⟨?_, h.modulus, ?_, otherPage_lt h.candidate h.candidatePlus1 _,
    otherPage_lt h.candidate h.candidatePlus1 _, page_append_lt h.pageWr _,
    page_append_lt h.pageRd _, and_lt h.nonTruncatedWr _, and_lt h.nonTruncatedRd _⟩
  · refine and_lt ?_ _
    rw [BitVec.toNat_setWidth]
    have := s.random.randomNumber.isLt
    omega
  · have hpage : (4096 : BitVec 64).toNat = 4096 := rfl
    simp only [nextRandom, randomBound, BitVec.toNat_add, hpage]
    omega

theorem random_small (inp : Run P) (t : Nat) : (st inp t).random.Small := by
  refine st_invariant (fun s => s.random.Small) ?_ (fun s i h => h.next i) inp t
  constructor <;> exact Nat.zero_lt_succ _

/-! ## Alignment -/

theorem ite_toNat_le {p : Prop} [Decidable p] {x y : BitVec 5} (hx : x.toNat ≤ 12)
    (hy : y.toNat ≤ 12) : (if p then x else y).toNat ≤ 12 := by
  by_cases hp : p
  · rw [if_pos hp]
    exact hx
  · rw [if_neg hp]
    exact hy

theorem clog2_le (x : BitVec 64) : (clog2 x).toNat ≤ 12 := by
  unfold clog2
  iterate 11 refine ite_toNat_le (by decide) ?_
  decide

/-- The low `c` bits are zero. -/
def LowZero (c : Nat) {w : Nat} (x : BitVec w) : Prop := ∀ j, j < c → x.getLsbD j = false

theorem LowZero.mod {c w : Nat} {x : BitVec w} (h : LowZero c x) : x.toNat % 2 ^ c = 0 := by
  apply Nat.eq_of_testBit_eq
  intro j
  rw [Nat.testBit_mod_two_pow, Nat.zero_testBit, BitVec.testBit_toNat]
  by_cases hj : j < c
  · rw [h j hj, Bool.and_false]
  · rw [decide_eq_false hj, Bool.false_and]

theorem LowZero.and {c : Nat} {x : BitVec 64} (h : LowZero c x) (mask : BitVec 64) :
    LowZero c (x &&& mask) := by
  intro j hj
  rw [BitVec.getLsbD_and, h j hj, Bool.false_and]

/-- A page does not change the low bits of the offset in it. -/
theorem LowZero.append {c : Nat} (hc : c ≤ 12) {offset : BitVec 12} (h : LowZero c offset)
    (page : BitVec 52) : LowZero c (page ++ offset) := by
  intro j hj
  rw [BitVec.getLsbD_append, if_pos (by omega), h j hj]

/-- The offset inside the page is a multiple of the rounded block size. -/
theorem offsetInWindow_lowZero {c : Nat} (size : BitVec 64) (number : BitVec 31) :
    LowZero c (offsetInWindow size number (BitVec.ofNat 12 (2 ^ c - 1))) := by
  intro j hj
  unfold offsetInWindow
  split
  · rw [BitVec.getLsbD_and, BitVec.getLsbD_not, BitVec.getLsbD_ofNat, Nat.testBit_two_pow_sub_one,
      decide_eq_true hj]
    cases h : decide (j < 12) <;> simp
  · exact BitVec.getLsbD_zero

/-! ## The offset of an operation -/

/-- What is known of a random offset: aligned to the rounded block size, inside the host buffer and
not above the bound of the generator. -/
structure IsRandomOffset (cfg : Config) (r : BitVec 64) : Prop where
  aligned : r.toNat % 2 ^ (clog2 cfg.sizeAtDescriptor).toNat = 0
  small : r.toNat < randomBound
  inside : cfg.sizeAtHost ≠ 0 → r.toNat < cfg.sizeAtHost.toNat

theorem and_sub_one_lt (x : BitVec 64) {size : BitVec 64} (hsize : size ≠ 0) :
    (x &&& (size - 1)).toNat < size.toNat := by
  rw [BitVec.toNat_and]
  have hle : x.toNat &&& (size - 1).toNat ≤ (size - 1).toNat := Nat.and_le_right
  have hsub : (size - 1).toNat < size.toNat := by bv_omega
  omega

/-- Six cycles after the size of the descriptor the offsets are aligned to it; the last cycle masks
them with the size of the buffer. -/
theorem random_isOffset (inp : Run P) {cfg : Config} {t : Nat}
    (hsize : (inp t).cfg.sizeAtDescriptor = cfg.sizeAtDescriptor)
    (hhost : (inp (t + 5)).cfg.sizeAtHost = cfg.sizeAtHost) :
    IsRandomOffset cfg (st inp (t + 6)).random.addressWr ∧
      IsRandomOffset cfg (st inp (t + 6)).random.addressRd := by
  have hc := clog2_le cfg.sizeAtDescriptor
  have hsmall := random_small inp (t + 6)
  have hblock : (st inp (t + 3)).random.blockMinus1 =
      BitVec.ofNat 12 (2 ^ (clog2 cfg.sizeAtDescriptor).toNat - 1) := by
    rw [← hsize]
    rfl
  have hwr : LowZero (clog2 cfg.sizeAtDescriptor).toNat (st inp (t + 4)).random.offsetWr := by
    rw [st_succ, step_random, nextRandom, hblock]
    exact offsetInWindow_lowZero _ _
  have hrd : LowZero (clog2 cfg.sizeAtDescriptor).toNat (st inp (t + 4)).random.offsetRd := by
    rw [st_succ, step_random, nextRandom, hblock]
    exact offsetInWindow_lowZero _ _
  constructor
  · refine ⟨?_, hsmall.addressWr, ?_⟩
    · exact ((hwr.append hc _).and _).mod
    · intro hne
      rw [st_succ, step_random, nextRandom, hhost]
      exact and_sub_one_lt _ hne
  · refine ⟨?_, hsmall.addressRd, ?_⟩
    · exact ((hrd.append hc _).and _).mod
    · intro hne
      rw [st_succ, step_random, nextRandom, hhost]
      exact and_sub_one_lt _ hne

/-- What the pipeline of the generator takes from a configuration is there before the operation starts: the
size of the blocks for six cycles, that of the buffer for four. -/
structure Presented (inp : Run P) (cfg : Config) (start : Nat) : Prop where
  late : 6 ≤ start
  size : ∀ t, start ≤ t + 6 → t < start → (inp t).cfg.sizeAtDescriptor = cfg.sizeAtDescriptor
  host : ∀ t, start ≤ t + 4 → t < start → (inp t).cfg.sizeAtHost = cfg.sizeAtHost

/-- What is there before the start is there until a cycle of the operation. -/
theorem Operation.cfg_since {inp : Run P} {cfg : Config} {start stop : Nat}
    (op : Operation inp cfg start stop) {f : Config → BitVec 64} {k : Nat}
    (hf : ∀ t, start ≤ t + k → t < start → f (inp t).cfg = f cfg) {t : Nat} (hts : t < stop)
    (hbusy : t = start ∨ (st inp t).wrState ≠ .idle) {u : Nat} (hu : start ≤ u + k) (hut : u < t) :
    f (inp u).cfg = f cfg := by
  rcases Nat.lt_trichotomy u start with hlt | rfl | hgt
  · exact hf u hu hlt
  · rw [op.stable u (Nat.le_refl _) op.start_lt (.inl rfl)]
  · rw [op.stable u (by omega) (by omega) (.inr ?_)]
    rcases hbusy with rfl | hbusy
    · omega
    · exact op.busy_before hgt hut (by omega) hbusy

/-- The offsets that an operation uses are those of its own configuration. -/
theorem Operation.randomOk {inp : Run P} {cfg : Config} {start stop : Nat}
    (op : Operation inp cfg start stop) (hp : Presented inp cfg start) :
    RandomOk inp start stop (IsRandomOffset cfg) := by
  intro t hst hts hbusy
  have hlate := hp.late
  obtain ⟨u, rfl⟩ : ∃ u, t = u + 6 := ⟨t - 6, by omega⟩
  have hsize := op.cfg_since (f := Config.sizeAtDescriptor) hp.size hts hbusy (u := u) (by omega)
    (by omega)
  have hhost := op.cfg_since (f := Config.sizeAtHost) hp.host hts hbusy (u := u + 5) (by omega) (by omega)
  exact random_isOffset inp hsize hhost

end RandomAddress

end Rq
end PcieBench
