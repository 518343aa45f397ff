import PcieBench.Rq.Blocks

/-!
# How many TLPs an operation sends, and in which order

A write-only operation sends whole blocks until `NUMBER_TLPS` is reached, a read-only one stops at
`NUMBER_TLPS` itself, and an operation with both capabilities alternates a block of writes with a
block of reads.  Together with the tiling of the blocks and the byte enables this describes
everything the headers of an operation say.
-/

namespace PcieBench
namespace Rq

open Clocked Tlp

section Tiling

variable {P : Params}

/-! ## Progress of an operation -/

/-- The number of TLPs to send: `NUMBER_TLPS` as the 32-bit registers hold it, and at least one. -/
def Config.total (cfg : Config) : Nat := max 1 (cfg.numberTlps.toNat % 2 ^ 32)

/-- The TLPs of a block, `⌈S / M⌉` where `M` is a full TLP. -/
def Config.blockLength (P : Params) (cfg : Config) : Nat :=
  (cfg.sizeAtDescriptor.toNat + 2 ^ cfg.readLog2 P - 1) / 2 ^ cfg.readLog2 P

/-- The TLPs whose headers have been loaded. -/
def headers (l : List Sent) : List Sent := l.filter (fun x => decide (x.origin ≠ .write))

/-- How far an operation has come when `f` memory writes have ended and `g` memory reads have been
issued, in blocks of `n`. -/
structure Progress (cfg : Config) (n f g : Nat) (state : WrState) : Prop where
  writing : state = .initWrite ∨ state = .write → cfg.capWrite = true ∧ f / n * n < cfg.total ∧
    g = if cfg.capRead then f / n * n else 0
  reading : state = .initRead → cfg.capRead = true ∧ g < cfg.total ∧
    f = if cfg.capWrite then (g / n + 1) * n else 0
  waiting : state = .waitRead → cfg.capRead = true ∧ g = cfg.total ∧
    f = if cfg.capWrite then ((cfg.total + n - 1) / n) * n else 0
  finished : state = .idle → g = (if cfg.capRead then cfg.total else 0) ∧
    f = if cfg.capWrite then ((cfg.total + n - 1) / n) * n else 0

/-- A multiple of `n` that reaches `t` from less than a block below is the first one to do so. -/
theorem mul_eq_ceil {n t q : Nat} (hn : 0 < n) (hlt : q * n < t) (hle : t ≤ (q + 1) * n) :
    (q + 1) * n = (t + n - 1) / n * n := by
  have hdiv : (t + n - 1) / n = q + 1 := by
    apply Nat.div_eq_of_lt_le
    · rw [Nat.add_mul, Nat.one_mul] at *
      omega
    · rw [Nat.add_mul, Nat.add_mul, Nat.one_mul] at *
      omega
  rw [hdiv]

theorem Config.total_pos (cfg : Config) : 1 ≤ cfg.total := Nat.le_max_left _ _

/-- The registers compare the number of TLPs with a counter that has not wrapped. -/
theorem total_le_iff (cfg : Config) {k : Nat} (hk : k + 1 < 2 ^ 32) :
    cfg.numberTlps.setWidth 32 ≤ BitVec.ofNat 32 (k + 1) ↔ cfg.total ≤ k + 1 := by
  rw [BitVec.le_def, BitVec.toNat_setWidth, BitVec.toNat_ofNat, Nat.mod_eq_of_lt hk, Config.total]
  omega

/-- The end of a memory write: the next one, the reads of the block, or the end. -/
theorem Progress.endWrite {cfg : Config} {n f g : Nat} {state state' : WrState} (hn : 0 < n)
    (h : Progress cfg n f g state) (hstate : state = .initWrite ∨ state = .write)
    (hstate' : state' = if f % n + 1 = n then
      if cfg.capRead then .initRead else if cfg.total ≤ f + 1 then .idle else .initWrite
      else .initWrite) : Progress cfg n (f + 1) g state' := by
  obtain ⟨hcap, hlt, hg⟩ := h.writing hstate
  rcases succ_div_mod hn f with ⟨hend, hdiv, hmod⟩ | ⟨hin, hdiv, hmod⟩
  · have hf : f + 1 = (f / n + 1) * n := by
      have := Nat.div_add_mod (f + 1) n
      rw [hmod, hdiv, Nat.mul_comm] at this
      omega
    rw [if_pos hend] at hstate'
    cases hread : cfg.capRead with
    | true =>
        -- the reads of the block follow
        simp only [hread, if_true] at hstate' hg
        have hgn : g / n = f / n := by rw [hg, Nat.mul_div_cancel _ hn]
        subst hstate'
        constructor <;> intro hs <;> simp at hs
        refine ⟨hread, by omega, ?_⟩
        rw [hcap, if_pos rfl, hgn]
        exact hf
    | false =>
        simp only [hread, Bool.false_eq_true, if_false] at hstate' hg
        by_cases hle : cfg.total ≤ f + 1
        · rw [if_pos hle] at hstate'
          subst hstate'
          constructor <;> intro hs <;> simp at hs
          rw [hread, hcap, hg]
          refine ⟨rfl, ?_⟩
          rw [if_pos rfl, ← mul_eq_ceil hn hlt (by omega)]
          exact hf
        · rw [if_neg hle] at hstate'
          subst hstate'
          constructor <;> intro hs <;> simp at hs
          refine ⟨hcap, ?_, by simp [hread, hg]⟩
          rw [hdiv]
          omega
  · rw [if_neg (by omega)] at hstate'
    subst hstate'
    constructor <;> intro hs <;> simp at hs
    rw [hdiv]
    exact ⟨hcap, hlt, hg⟩

/-- A memory read: the next one, the writes of the next block, or the wait for completions. -/
theorem Progress.issueRead {cfg : Config} {n f g : Nat} {state' : WrState} (hn : 0 < n)
    (h : Progress cfg n f g .initRead)
    (hstate' : state' = if cfg.total ≤ g + 1 then .waitRead
      else if cfg.capWrite = true ∧ g % n + 1 = n then .initWrite else .initRead) :
    Progress cfg n f (g + 1) state' := by
  obtain ⟨hcap, hlt, hf⟩ := h.reading rfl
  by_cases hle : cfg.total ≤ g + 1
  · -- it was the last request
    have htotal : cfg.total = g + 1 := by omega
    rw [if_pos hle] at hstate'
    subst hstate'
    constructor <;> intro hs <;> simp at hs
    refine ⟨hcap, htotal.symm, ?_⟩
    rw [hf]
    cases cfg.capWrite with
    | true =>
        have hdm := Nat.div_add_mod g n
        have hmod := Nat.mod_lt g hn
        rw [if_pos rfl, if_pos rfl, mul_eq_ceil hn (t := cfg.total)]
        · rw [Nat.mul_comm]
          omega
        · rw [Nat.add_mul, Nat.mul_comm, Nat.one_mul]
          omega
    | false =>
        rfl
  · rw [if_neg hle] at hstate'
    by_cases hblock : cfg.capWrite = true ∧ g % n + 1 = n
    · -- the writes of the next block follow
      rw [if_pos hblock] at hstate'
      obtain ⟨hwrite, hend⟩ := hblock
      rw [hwrite, if_pos rfl] at hf
      have hfn : f / n = g / n + 1 := by rw [hf, Nat.mul_div_cancel _ hn]
      have hg : g + 1 = (g / n + 1) * n := by
        have hdm := Nat.div_add_mod g n
        rw [Nat.add_mul, Nat.mul_comm, Nat.one_mul]
        omega
      subst hstate'
      constructor <;> intro hs <;> simp at hs
      refine ⟨hwrite, ?_, ?_⟩
      · rw [hfn, ← hg]
        omega
      · rw [hcap, if_pos rfl, hfn]
        exact hg
    · -- the block of reads goes on
      rw [if_neg hblock] at hstate'
      subst hstate'
      constructor <;> intro hs <;> simp at hs
      refine ⟨hcap, by omega, ?_⟩
      rw [hf]
      cases hwrite : cfg.capWrite with
      | true =>
          rcases succ_div_mod hn g with ⟨hend, -, -⟩ | ⟨-, hdiv, -⟩
          · exact absurd ⟨hwrite, hend⟩ hblock
          · rw [hdiv]
      | false =>
          rfl

/-- The end of an operation with reads. -/
theorem Progress.finish {cfg : Config} {n f g : Nat} (h : Progress cfg n f g .waitRead) :
    Progress cfg n f g .idle := by
  obtain ⟨hcap, hg, hf⟩ := h.waiting rfl
  constructor <;> intro hs <;> simp at hs
  exact ⟨by rw [hcap, if_pos rfl, hg], hf⟩

/-! ## The headers follow the progress -/

/-- Headers in blocks of `n`, a block of writes first. -/
def Alternates (n : Nat) (hs : List Sent) : Prop :=
  ∀ k x, hs[k]? = some x → x.origin = if k / n % 2 = 0 then .initWrite else .initRead

/-- The counters and the headers `l` of an operation in blocks of `n` agree on its progress. -/
structure CountInv (cfg : Config) (n : Nat) (s : State P) (l : List Sent) (f g : Nat) : Prop where
  progress : Progress cfg n f g s.wrState
  wrCount : cfg.capWrite = true → s.wrCount.At n f
  rdCount : s.rdCount.At n g
  writes : (writeHeaders l).length = if s.wrState = .write then f + 1 else f
  reads : (readHeaders l).length = g
  both : (headers l).length = (writeHeaders l).length + (readHeaders l).length
  alternates : cfg.capWrite = true → cfg.capRead = true → Alternates n (headers l)

section Loads

variable (l : List Sent) (x : Sent)

theorem writeHeaders_snoc : writeHeaders (l ++ [x]) =
    writeHeaders l ++ if x.origin = .initWrite then [x] else [] := by
  by_cases h : x.origin = .initWrite <;> simp [writeHeaders, h]

theorem readHeaders_snoc : readHeaders (l ++ [x]) =
    readHeaders l ++ if x.origin = .initRead then [x] else [] := by
  by_cases h : x.origin = .initRead <;> simp [readHeaders, h]

theorem headers_snoc : headers (l ++ [x]) =
    headers l ++ if x.origin = .write then [] else [x] := by
  by_cases h : x.origin = .write <;> simp [headers, h]

variable {l x}

/-- A header belongs to one of the two directions. -/
theorem length_headers_snoc (hx : x.origin = .initWrite ∨ x.origin = .write ∨ x.origin = .initRead)
    (h : (headers l).length = (writeHeaders l).length + (readHeaders l).length) :
    (headers (l ++ [x])).length = (writeHeaders (l ++ [x])).length + (readHeaders (l ++ [x])).length := by
  rw [headers_snoc, writeHeaders_snoc, readHeaders_snoc]
  rcases hx with hx | hx | hx <;> simp [hx, h] <;> omega

end Loads

/-! ### Counting headers -/

/-- The headers loaded when `f` memory writes have ended and `g` memory reads have been issued; inside a
memory write its own header is there already. -/
structure Tally (state : WrState) (l : List Sent) (f g : Nat) : Prop where
  writes : (writeHeaders l).length = if state = .write then f + 1 else f
  reads : (readHeaders l).length = g

section Tallies

variable {s : State P} {i : Input P} {l : List Sent} {f g : Nat} (h : Tally s.wrState l f g)

include h

theorem Tally.stalls (hm : Stalls s i) : Tally (step s i).wrState (l ++ load s i) f g := by
  rw [hm.load, List.append_nil, hm.state]
  exact h

theorem Tally.opens (hm : OpensWrite s i) : Tally (step s i).wrState (l ++ load s i) f g := by
  have hwrites := h.writes
  rw [hm.initWrite, if_neg (by simp)] at hwrites
  rw [hm.load, hm.state]
  constructor
  · rw [writeHeaders_snoc, if_pos rfl, if_pos rfl, List.length_append, hwrites]
    rfl
  · rw [readHeaders_snoc, if_neg (by simp), List.append_nil]
    exact h.reads

theorem Tally.continues (hm : ContinuesWrite s i) : Tally (step s i).wrState (l ++ load s i) f g := by
  have hwrites := h.writes
  rw [hm.write] at hwrites
  rw [hm.load, hm.state]
  constructor
  · rw [writeHeaders_snoc, if_neg (by simp), List.append_nil]
    exact hwrites
  · rw [readHeaders_snoc, if_neg (by simp), List.append_nil]
    exact h.reads

theorem Tally.ends (hm : EndsWrite s i) : Tally (step s i).wrState (l ++ load s i) (f + 1) g := by
  have hwrites := h.writes
  have horigin := hm.origin
  rw [hm.load]
  constructor
  · rw [writeHeaders_snoc, if_neg hm.ne_write]
    rcases horigin with hinit | hwrite
    · -- a TLP of one beat: its header is counted in this cycle
      rw [hinit, if_neg (by simp)] at hwrites
      rw [hinit, if_pos rfl, List.length_append, hwrites]
      rfl
    · -- a payload beat: the header has been counted before
      rw [hwrite, if_pos rfl] at hwrites
      rw [hwrite, if_neg (by simp), List.append_nil]
      exact hwrites
  · rw [readHeaders_snoc, if_neg (by rcases horigin with ho | ho <;> simp [ho]), List.append_nil]
    exact h.reads

theorem Tally.issues (hm : IssuesRead s i) : Tally (step s i).wrState (l ++ load s i) f (g + 1) := by
  have hwrites := h.writes
  rw [hm.initRead, if_neg (by simp)] at hwrites
  rw [hm.load]
  constructor
  · rw [writeHeaders_snoc, if_neg (by simp), if_neg hm.ne_write, List.append_nil]
    exact hwrites
  · rw [readHeaders_snoc, if_pos rfl, List.length_append, h.reads]
    rfl

theorem Tally.finishes (hm : Finishes s i) : Tally (step s i).wrState (l ++ load s i) f g := by
  have hwrites := h.writes
  rw [hm.waitRead] at hwrites
  rw [hm.load, List.append_nil, hm.state]
  exact ⟨hwrites, h.reads⟩

end Tallies

/-! ### Their order -/

/-- The header of a memory write stands in an even block. -/
theorem div_even {n f : Nat} (hn : 0 < n) : (f + f / n * n) / n % 2 = 0 := by
  rw [Nat.add_mul_div_right _ _ hn]
  omega

/-- A memory read request stands in an odd block. -/
theorem div_odd {n g : Nat} (hn : 0 < n) : ((g / n + 1) * n + g) / n % 2 = 1 := by
  rw [Nat.add_comm, Nat.add_mul_div_right _ _ hn]
  omega

variable {cfg : Config} {n f g : Nat} {s : State P} {i : Input P} {l : List Sent}

/-- The header of a memory write takes its place in the sequence. -/
theorem CountInv.alternates_write (h : CountInv cfg n s l f g) (hn : 0 < n)
    (hs : s.wrState = .initWrite) {x : Sent} (hx : x.origin = .initWrite)
    (hw : cfg.capWrite = true) (hr : cfg.capRead = true) : Alternates n (headers l ++ [x]) := by
  refine forall_getElem?_snoc (h.alternates hw hr) ?_
  obtain ⟨-, -, hg⟩ := h.progress.writing (.inl hs)
  have hwrites := h.writes
  rw [hr, if_pos rfl] at hg
  rw [hs, if_neg (by simp)] at hwrites
  rw [h.both, hwrites, h.reads, hg, if_pos (div_even hn), hx]

theorem CountInv.alternates_read (h : CountInv cfg n s l f g) (hn : 0 < n)
    (hs : s.wrState = .initRead) {x : Sent} (hx : x.origin = .initRead)
    (hw : cfg.capWrite = true) (hr : cfg.capRead = true) : Alternates n (headers l ++ [x]) := by
  refine forall_getElem?_snoc (h.alternates hw hr) ?_
  obtain ⟨-, -, hf⟩ := h.progress.reading hs
  have hwrites := h.writes
  rw [hw, if_pos rfl] at hf
  rw [hs, if_neg (by simp)] at hwrites
  have hodd := div_odd (n := n) (g := g) hn
  rw [h.both, hwrites, h.reads, hf, if_neg (by omega), hx]

/-- The next state after a memory write, in terms of the progress. -/
theorem CountInv.afterWrite_eq (h : CountInv cfg n s l f g) (hb : s.bounds = nextBounds P cfg)
    (hcfg : i.cfg = cfg) (hcount : blockTlps (numberEvenTlp P.log2MaxPayload cfg.sizeAtDescriptor) = n)
    (hfit : cfg.total + n < 2 ^ 32) (hs : s.wrState = .initWrite ∨ s.wrState = .write) :
    afterWrite s i = if f % n + 1 = n then
      if cfg.capRead then .initRead else if cfg.total ≤ f + 1 then .idle else .initWrite
      else .initWrite := by
  obtain ⟨hcap, hlt, -⟩ := h.progress.writing hs
  have hat := h.wrCount hcap
  have hn : 0 < n := by
    rw [← hcount]
    exact blockTlps_pos _
  have hiff : s.bounds.wrNumberEven = s.wrCount.modulus ↔ f % n + 1 = n := by
    subst hcount
    rw [hb]
    exact hat.even_iff
  -- the 32-bit counter does not wrap inside the last block
  have hwrap : f + 1 < 2 ^ 32 := by
    have hdm := Nat.div_add_mod f n
    have hmod := Nat.mod_lt f hn
    rw [Nat.mul_comm] at hdm
    omega
  have htotal : s.bounds.wrTotal ≤ s.wrCount.current ↔ cfg.total ≤ f + 1 := by
    rw [hb, hat.current]
    exact total_le_iff cfg hwrap
  simp only [afterWrite, hiff, htotal, hcfg]

/-- The end of a memory write with its header already counted or counted now. -/
theorem CountInv.ends (h : CountInv cfg n s l f g) (hm : EndsWrite s i)
    (hb : s.bounds = nextBounds P cfg) (hcfg : i.cfg = cfg)
    (hcount : blockTlps (numberEvenTlp P.log2MaxPayload cfg.sizeAtDescriptor) = n)
    (hfit : cfg.total + n < 2 ^ 32) :
    CountInv cfg n (step s i) (l ++ load s i) (f + 1) g := by
  have hn : 0 < n := by
    rw [← hcount]
    exact blockTlps_pos _
  have hs : s.wrState = .initWrite ∨ s.wrState = .write := hm.origin
  have hafter := h.afterWrite_eq hb hcfg hcount hfit hs
  have hprogress : Progress cfg n (f + 1) g (Rq.step s i).wrState := by
    rw [hm.state]
    exact h.progress.endWrite hn hs hafter
  have hwr : cfg.capWrite = true → (Rq.step s i).wrCount.At n (f + 1) := by
    intro hcap
    have hat := h.wrCount hcap
    subst hcount
    rw [hm.wrCount, hb]
    exact hat.next
  have hrd : (Rq.step s i).rdCount.At n g := by
    rw [hm.rdCount]
    exact h.rdCount
  obtain ⟨hwrites, hreads⟩ := Tally.ends ⟨h.writes, h.reads⟩ hm
  rw [hm.load] at hwrites hreads ⊢
  refine ⟨hprogress, hwr, hrd, hwrites, hreads, length_headers_snoc (by tauto) h.both, ?_⟩
  intro hw hr
  rw [headers_snoc]
  rcases hs with hinit | hwrite
  · rw [if_neg (by simp [hinit])]
    exact h.alternates_write hn hinit hinit hw hr
  · rw [if_pos (by simp [hwrite]), List.append_nil]
    exact h.alternates hw hr

/-- A memory read request. -/
theorem CountInv.issues (h : CountInv cfg n s l f g) (hm : IssuesRead s i)
    (hb : s.bounds = nextBounds P cfg) (hcfg : i.cfg = cfg)
    (hcount : blockTlps (numberEvenTlp (cfg.readLog2 P) cfg.sizeAtDescriptor) = n)
    (hfit : cfg.total + n < 2 ^ 32) :
    CountInv cfg n (step s i) (l ++ load s i) f (g + 1) := by
  have hn : 0 < n := by
    rw [← hcount]
    exact blockTlps_pos _
  obtain ⟨hcap, hlt, -⟩ := h.progress.reading hm.initRead
  have hat := h.rdCount
  have heven := (rdBounds_eq P cfg).1
  have hiff : s.bounds.rdNumberEven = s.rdCount.modulus ↔ g % n + 1 = n := by
    subst hcount
    rw [hb, heven]
    exact hat.even_iff
  have htotal : s.bounds.rdTotal ≤ s.rdCount.current ↔ cfg.total ≤ g + 1 := by
    rw [hb, hat.current]
    exact total_le_iff cfg (by omega)
  have hstate : (Rq.step s i).wrState = if cfg.total ≤ g + 1 then .waitRead
      else if cfg.capWrite = true ∧ g % n + 1 = n then .initWrite else .initRead := by
    rw [hm.state]
    simp only [hiff, htotal, hcfg]
  have hprogress := h.progress
  rw [hm.initRead] at hprogress
  obtain ⟨hwrites, hreads⟩ := Tally.issues ⟨h.writes, h.reads⟩ hm
  rw [hm.load] at hwrites hreads ⊢
  refine ⟨hprogress.issueRead hn hstate, ?_, ?_, hwrites, hreads,
    length_headers_snoc (.inr (.inr rfl)) h.both, ?_⟩
  · rw [hm.wrCount]
    exact h.wrCount
  · subst hcount
    rw [hm.rdCount, hb, heven]
    exact hat.next
  · intro hw hr
    rw [headers_snoc, if_neg (by simp)]
    exact h.alternates_read hn hm.initRead rfl hw hr

theorem CountInv.step (h : CountInv cfg n s l f g) (hb : s.bounds = nextBounds P cfg)
    (hcfg : i.cfg = cfg) (hs : s.wrState ≠ .idle)
    (hcount : blockTlps (numberEvenTlp (cfg.readLog2 P) cfg.sizeAtDescriptor) = n)
    (hfit : cfg.total + n < 2 ^ 32) :
    ∃ f' g', CountInv cfg n (step s i) (l ++ load s i) f' g' := by
  have hn : 0 < n := by
    rw [← hcount]
    exact blockTlps_pos _
  -- in the write states both directions have blocks of `n`
  have hwrcount : s.wrState = .initWrite ∨ s.wrState = .write →
      blockTlps (numberEvenTlp P.log2MaxPayload cfg.sizeAtDescriptor) = n := by
    intro hw
    obtain ⟨hcap, -, -⟩ := h.progress.writing hw
    rw [← hcount, Config.readLog2, if_pos hcap]
  have htally : Tally s.wrState l f g := ⟨h.writes, h.reads⟩
  rcases busy_cases i hs with hm | hm | hm | hm | hm | hm
  · -- a stall leaves the registers alone
    obtain ⟨hwrites, hreads⟩ := htally.stalls hm
    rw [hm.load, List.append_nil] at hwrites hreads ⊢
    exact ⟨f, g, by rw [hm.state]; exact h.progress, by rw [hm.wrCount]; exact h.wrCount,
      by rw [hm.rdCount]; exact h.rdCount, hwrites, hreads, h.both, h.alternates⟩
  · -- a header that opens its TLP is counted before the TLP has ended
    have hprogress := h.progress.writing (.inl hm.initWrite)
    obtain ⟨hwrites, hreads⟩ := htally.opens hm
    rw [hm.load] at hwrites hreads ⊢
    refine ⟨f, g, ?_, by rw [hm.wrCount]; exact h.wrCount, by rw [hm.rdCount]; exact h.rdCount,
      hwrites, hreads, length_headers_snoc (.inl rfl) h.both, ?_⟩
    · rw [hm.state]
      constructor <;> intro hs <;> simp at hs
      exact hprogress
    · intro hw hr
      rw [headers_snoc, if_neg (by simp)]
      exact h.alternates_write hn hm.initWrite rfl hw hr
  · -- a payload beat in the middle of a TLP
    obtain ⟨hwrites, hreads⟩ := htally.continues hm
    rw [hm.load] at hwrites hreads ⊢
    refine ⟨f, g, ?_, by rw [hm.wrCount]; exact h.wrCount, by rw [hm.rdCount]; exact h.rdCount,
      hwrites, hreads, length_headers_snoc (.inr (.inl rfl)) h.both, ?_⟩
    · rw [hm.state, ← hm.write]
      exact h.progress
    · intro hw hr
      rw [headers_snoc, if_pos rfl, List.append_nil]
      exact h.alternates hw hr
  · exact ⟨f + 1, g, h.ends hm hb hcfg (hwrcount hm.origin) hfit⟩
  · exact ⟨f, g + 1, h.issues hm hb hcfg hcount hfit⟩
  · -- the end of the operation
    have hprogress := h.progress
    rw [hm.waitRead] at hprogress
    obtain ⟨hwrites, hreads⟩ := htally.finishes hm
    rw [hm.load, List.append_nil] at hwrites hreads ⊢
    exact ⟨f, g, by rw [hm.state]; exact hprogress.finish, by rw [hm.wrCount]; exact h.wrCount,
      by rw [hm.rdCount]; exact h.rdCount, hwrites, hreads, h.both, h.alternates⟩

/-- What the counts say about the headers loaded so far. -/
structure HeaderCounts (cfg : Config) (n : Nat) (state : WrState) (l : List Sent) : Prop where
  writes_le : (writeHeaders l).length ≤
    if cfg.capWrite then (cfg.total + n - 1) / n * n else 0
  reads_le : (readHeaders l).length ≤ if cfg.capRead then cfg.total else 0
  writes_eq : state = .idle →
    (writeHeaders l).length = if cfg.capWrite then (cfg.total + n - 1) / n * n else 0
  reads_eq : state = .idle → (readHeaders l).length = if cfg.capRead then cfg.total else 0
  alternates : cfg.capWrite = true → cfg.capRead = true → Alternates n (headers l)

/-- A block that starts below `t` lies below `t` rounded up to blocks. -/
theorem block_le_ceil {n t q : Nat} (hn : 0 < n) (hlt : q * n < t) :
    (q + 1) * n ≤ (t + n - 1) / n * n := by
  refine Nat.mul_le_mul_right n ?_
  rw [Nat.le_div_iff_mul_le hn, Nat.add_mul, Nat.one_mul]
  omega

/-- Every TLP of such a block counts. -/
theorem succ_le_ceil {n t k : Nat} (hn : 0 < n) (hlt : k / n * n < t) :
    k + 1 ≤ (t + n - 1) / n * n := by
  refine le_trans ?_ (block_le_ceil hn hlt)
  have hdm := Nat.div_add_mod k n
  have hmod := Nat.mod_lt k hn
  rw [Nat.add_mul, Nat.one_mul, Nat.mul_comm]
  omega

theorem CountInv.headerCounts (h : CountInv cfg n s l f g) (hn : 0 < n) :
    HeaderCounts cfg n s.wrState l := by
  refine ⟨?_, ?_, ?_, ?_, h.alternates⟩
  · -- writes: only whole blocks, of which the last one may reach beyond the total
    have hwrites := h.writes
    cases hs : s.wrState with
    | idle =>
        rw [hs, if_neg (by simp)] at hwrites
        rw [hwrites, (h.progress.finished hs).2]
    | initWrite =>
        obtain ⟨hcap, hlt, -⟩ := h.progress.writing (.inl hs)
        rw [hs, if_neg (by simp)] at hwrites
        rw [hwrites, if_pos hcap]
        exact le_trans (Nat.le_succ f) (succ_le_ceil hn hlt)
    | write =>
        obtain ⟨hcap, hlt, -⟩ := h.progress.writing (.inr hs)
        rw [hs, if_pos rfl] at hwrites
        rw [hwrites, if_pos hcap]
        exact succ_le_ceil hn hlt
    | initRead =>
        obtain ⟨-, hlt, hf⟩ := h.progress.reading hs
        rw [hs, if_neg (by simp)] at hwrites
        rw [hwrites, hf]
        split
        · refine block_le_ceil hn ?_
          have := Nat.div_mul_le_self g n
          omega
        · exact Nat.le_refl _
    | waitRead =>
        rw [hs, if_neg (by simp)] at hwrites
        rw [hwrites, (h.progress.waiting hs).2.2]
  · -- reads: never more than the total
    rw [h.reads]
    cases hs : s.wrState with
    | idle =>
        rw [(h.progress.finished hs).1]
    | initWrite =>
        obtain ⟨-, hlt, hg⟩ := h.progress.writing (.inl hs)
        rw [hg]
        split <;> omega
    | write =>
        obtain ⟨-, hlt, hg⟩ := h.progress.writing (.inr hs)
        rw [hg]
        split <;> omega
    | initRead =>
        obtain ⟨hcap, hlt, -⟩ := h.progress.reading hs
        rw [if_pos hcap]
        omega
    | waitRead =>
        obtain ⟨hcap, hg, -⟩ := h.progress.waiting hs
        rw [if_pos hcap, hg]
  · intro hs
    rw [h.writes, hs, if_neg (by simp)]
    exact (h.progress.finished hs).2
  · intro hs
    rw [h.reads]
    exact (h.progress.finished hs).1

/-! ## Byte enables -/

/-- The byte enables of a request: all bytes of the first dword, and of the last one if there is
another. -/
def ByteEnables (x : Sent) : Prop :=
  x.beat.firstBe = 0xf ∧ x.beat.lastBe = if x.beat.dwords.toNat = 1 then 0 else 0xf

/-- What the registers of the reads know about the next request: the remaining counter need not be
its dword count, but is 1 exactly when that is. -/
structure ReadBe (cfg : Config) (s : State P) : Prop where
  single : numberEvenTlp (cfg.readLog2 P) cfg.sizeAtDescriptor = 1 → s.rdCount.modulus = 1
  le : s.rdPtr.remaining.toNat ≤ 1024
  iff : s.rdPtr.remaining.toNat ≤ 1 ↔
    (tlpWords (cfg.readLog2 P) cfg.sizeAtDescriptor s.rdCount.modulus).toNat = 1

/-- Every TLP of a positive multiple of four bytes has between 1 and 1024 dwords. -/
theorem tlpWords_bounds {log2 : Nat} (hlo : 3 ≤ log2) (hhi : log2 ≤ 12) {size : BitVec 64}
    (hdvd : size.toNat % 4 = 0) (modulus : BitVec 32) :
    1 ≤ (tlpWords log2 size modulus).toNat ∧ (tlpWords log2 size modulus).toNat ≤ 1024 := by
  obtain ⟨hmod, hle, hge⟩ := two_pow_tlp hlo hhi
  have hodd := oddTlpWords_toNat (by omega) hhi size
  have hlt : size.toNat % 2 ^ log2 < 2 ^ log2 := Nat.mod_lt _ (by omega)
  have htail : size.toNat % 2 ^ log2 % 4 = 0 := by
    rw [Nat.mod_mod_of_dvd _ (by omega : 4 ∣ 2 ^ log2)]
    exact hdvd
  unfold tlpWords
  split
  · rw [hodd]
    split <;> omega
  · rw [BitVec.toNat_setWidth, BitVec.toNat_ofNat, two_pow_sub_two (by omega)]
    generalize 2 ^ log2 = max at *
    omega

/-- The remaining counter of the first request. -/
theorem readBe_first (hpos : 0 < cfg.sizeAtDescriptor.toNat)
    (hdvd : cfg.sizeAtDescriptor.toNat % 4 = 0)
    (hfit : blockCount (2 ^ cfg.readLog2 P) cfg.sizeAtDescriptor.toNat < 2 ^ 32)
    (hs : s.wrState = .idle) (hr : i.axisRqTready = true) (hcfg : i.cfg = cfg) :
    ReadBe cfg (step s i) := by
  have hlo := Config.three_le_readLog2 P cfg
  have hhi := Config.readLog2_le P cfg
  obtain ⟨hmod, hle, hge⟩ := two_pow_tlp hlo hhi
  obtain ⟨hmod', hle', hge'⟩ := two_pow_tlp P.three_le_readRequest P.readRequest_le
  have hmaxr := maxWordsReadRequest_toNat P
  have hwords := cfg.sizeWords_toNat
  have hmax : (if cfg.capWrite then maxWordsTlp P else maxWordsReadRequest P).toNat =
      2 ^ cfg.readLog2 P / 4 := by
    rw [(rdBounds_eq P cfg).2.2, BitVec.toNat_ofNat, two_pow_sub_two (by omega)]
    omega
  have hremaining : (Rq.step s i).rdPtr.remaining =
      if cfg.sizeWords ≤ maxWordsReadRequest P then cfg.sizeWords
      else if cfg.capWrite then maxWordsTlp P else maxWordsReadRequest P := by
    simp [nextRdPtr, hs, hr, hcfg]
  have hmodulus : (Rq.step s i).rdCount.modulus = 1 := by
    simp [nextRdCount, hs, hr, TlpCount.first]
  have hfirst := tlpWords_toNat (i := 0) hlo hhi cfg.sizeAtDescriptor (blockTlps_pos _)
  rw [blockTlps_numberEvenTlp hpos hfit] at hfirst
  refine ⟨fun _ => hmodulus, ?_, ?_⟩
  · rw [hremaining]
    split
    · rename_i h
      rw [BitVec.le_def, hwords, hmaxr] at h
      omega
    · rw [hmax]
      omega
  · -- one dword in all, or at least two in the first request
    rw [hremaining, hmodulus]
    change _ ↔ (tlpWords _ _ (BitVec.ofNat 32 (0 + 1))).toNat = 1
    rw [hfirst, tileDwords, blockCount]
    generalize 2 ^ cfg.readLog2 P = max at *
    generalize cfg.sizeAtDescriptor.toNat = size at *
    rcases Nat.lt_or_ge size max with hsmall | hlarge
    · -- a single request for everything
      rw [Nat.div_eq_of_lt hsmall, Nat.mod_eq_of_lt hsmall, if_neg (by omega : ¬ size = 0),
        if_pos rfl, if_neg (by omega : ¬ size = 0)]
      split
      · rw [hwords]
        omega
      · rename_i h
        rw [BitVec.le_def, hwords, hmaxr] at h
        rw [hmax]
        omega
    · -- the first of several requests is a full one
      have hwide : ¬ (if 0 + 1 = size / max + (if size % max = 0 then 0 else 1) then
          if size % max = 0 then max / 4 else size % max / 4 else max / 4) = 1 := by
        have hdiv : 1 ≤ size / max := Nat.div_pos hlarge (by omega)
        by_cases htail : size % max = 0
        · simp only [htail, if_true, ite_self]
          omega
        · rw [if_neg htail, if_neg (by omega)]
          omega
      simp only [hwide, iff_false]
      split
      · rw [hwords]
        omega
      · rw [hmax]
        omega

theorem ReadBe.step (h : ReadBe cfg s) (hdvd : cfg.sizeAtDescriptor.toNat % 4 = 0)
    (hb : s.bounds = nextBounds P cfg) (hcfg : i.cfg = cfg) (hs : s.wrState ≠ .idle) :
    ReadBe cfg (step s i) := by
  have hlo := Config.three_le_readLog2 P cfg
  have hhi := Config.readLog2_le P cfg
  have hsame : (Rq.step s i).rdPtr = s.rdPtr → (Rq.step s i).rdCount = s.rdCount →
      ReadBe cfg (Rq.step s i) := by
    intro hptr hcount
    exact ⟨by rw [hcount]; exact h.single, by rw [hptr]; exact h.le,
      by rw [hptr, hcount]; exact h.iff⟩
  rcases busy_cases i hs with hm | hm | hm | hm | hm | hm
  · exact hsame hm.rdPtr hm.rdCount
  · exact hsame hm.rdPtr hm.rdCount
  · exact hsame hm.rdPtr hm.rdCount
  · exact hsame hm.rdPtr hm.rdCount
  · -- after the first request the counter is the dword count of the next one
    obtain ⟨heven, hodd, hmax⟩ := rdBounds_eq P cfg
    have hnext := tlpWords_next hlo hhi h.single
    have hcount : (Rq.step s i).rdCount.modulus =
        if numberEvenTlp (cfg.readLog2 P) cfg.sizeAtDescriptor = s.rdCount.modulus then 1
        else s.rdCount.modulus + 1 := by
      rw [hm.rdCount, hb, heven, TlpCount.next]
    rw [← hcount] at hnext
    have hremaining : (Rq.step s i).rdPtr.remaining =
        (tlpWords (cfg.readLog2 P) cfg.sizeAtDescriptor (Rq.step s i).rdCount.modulus).setWidth
          64 := by
      rw [hm.rdRemaining, hb, heven, hodd, hcfg, hmax]
      exact hnext
    obtain ⟨hge, hle⟩ := tlpWords_bounds hlo hhi hdvd (Rq.step s i).rdCount.modulus
    refine ⟨?_, ?_, ?_⟩
    · intro hone
      rw [hcount, h.single hone, if_pos hone]
    · rw [hremaining, BitVec.toNat_setWidth]
      omega
    · rw [hremaining, BitVec.toNat_setWidth]
      omega
  · exact hsame hm.rdPtr hm.rdCount

/-- The byte enables of a memory read request. -/
theorem issuesRead_byteEnables (h : ReadBe cfg s) (hm : IssuesRead s i)
    (hdvd : cfg.sizeAtDescriptor.toNat % 4 = 0) (hb : s.bounds = nextBounds P cfg)
    (hcfg : i.cfg = cfg) : ByteEnables ⟨.initRead, (step s i).beat⟩ := by
  obtain ⟨hge, hle⟩ := tlpWords_bounds (Config.three_le_readLog2 P cfg) (Config.readLog2_le P cfg)
    hdvd s.rdCount.modulus
  have hdwords : (step s i).beat.dwords.toNat =
      (tlpWords (cfg.readLog2 P) cfg.sizeAtDescriptor s.rdCount.modulus).toNat := by
    have hx := (issuesRead_isTile hm).dwords
    rw [hcfg, currentRdTlpWords_eq hb] at hx
    rw [hx, BitVec.toNat_setWidth]
    omega
  have hbits : s.rdPtr.remaining.extractLsb' 1 10 = 0 ↔ s.rdPtr.remaining.toNat ≤ 1 := by
    have := h.le
    have hzero : (0 : BitVec 10).toNat = 0 := rfl
    rw [← BitVec.toNat_inj, BitVec.extractLsb'_toNat, Nat.shiftRight_eq_div_pow, hzero]
    omega
  refine ⟨?_, ?_⟩
  · simp [State.beat, nextCtl, hm.initRead, hm.tready]
  · have hlast : (step s i).beat.lastBe =
        if s.rdPtr.remaining.extractLsb' 1 10 = 0 then 0 else 0xf := by
      simp [State.beat, nextCtl, hm.initRead, hm.tready]
    simp only [hlast, hbits, h.iff, hdwords]

/-- The byte enables of the header of a memory write. -/
theorem initWrite_byteEnables (hs : s.wrState = .initWrite) (hr : i.axisRqTready = true)
    (hle : s.currentWrTlpWords.toNat ≤ 1024) (hge : 1 ≤ s.currentWrTlpWords.toNat)
    (hwords : s.wrPtr.remaining = s.currentWrTlpWords.setWidth 64) :
    ByteEnables ⟨.initWrite, (step s i).beat⟩ := by
  have hdwords := (header_dwords hs hr hle).1
  have hremaining : s.wrPtr.remaining.toNat = s.currentWrTlpWords.toNat := by
    rw [hwords, BitVec.toNat_setWidth]
    omega
  have hlast : (step s i).beat.lastBe = if s.wrPtr.remaining ≤ 1 then 0 else 0xf := by
    simp [State.beat, nextCtl, hs, hr]
  refine ⟨?_, ?_⟩
  · simp [State.beat, nextCtl, hs, hr]
  · have hiff : s.wrPtr.remaining ≤ 1 ↔ s.currentWrTlpWords.toNat = 1 := by
      have hone : (1 : BitVec 64).toNat = 1 := rfl
      rw [BitVec.le_def, hremaining, hone]
      omega
    simp only [hlast, hiff, hdwords]

/-! ## Every operation -/

/-- Two ways to round a quotient up. -/
theorem ceil_eq_blockCount {max size : Nat} (hpos : 0 < max) :
    (size + max - 1) / max = blockCount max size := by
  unfold blockCount
  have hdm := Nat.div_add_mod size max
  have hlt := Nat.mod_lt size hpos
  rw [Nat.mul_comm] at hdm
  apply Nat.div_eq_of_lt_le
  · split
    · rw [Nat.add_zero]
      omega
    · rw [Nat.add_mul, Nat.one_mul]
      omega
  · split
    · rw [Nat.add_zero, Nat.add_mul, Nat.one_mul]
      omega
    · rw [Nat.add_mul, Nat.add_mul, Nat.one_mul]
      omega

theorem blockLength_eq (P : Params) (cfg : Config) :
    cfg.blockLength P = blockCount (2 ^ cfg.readLog2 P) cfg.sizeAtDescriptor.toNat :=
  ceil_eq_blockCount (Nat.two_pow_pos _)

/-- Fewer than `2 ^ 32` TLPs: the count of the writes does not wrap. -/
theorem writeSizeOk_of_blockLength (hcap : cfg.capWrite = true)
    (hfit : cfg.blockLength P < 2 ^ 32) : cfg.WriteSizeOk P := by
  left
  rw [blockLength_eq, Config.readLog2, if_pos hcap, blockCount] at hfit
  have hpos : 0 < 2 ^ P.log2MaxPayload := Nat.two_pow_pos _
  have hdiv : cfg.sizeAtDescriptor.toNat / 2 ^ P.log2MaxPayload < 2 ^ 32 := by omega
  rw [pow_add, Nat.mul_comm]
  exact (Nat.div_lt_iff_lt_mul hpos).mp hdiv

namespace Operation

variable {inp : Run P} {start stop : Nat}

theorem countInv (op : Operation inp cfg start stop) (hpos : 0 < cfg.sizeAtDescriptor.toNat)
    (hfit : cfg.total + cfg.blockLength P < 2 ^ 32) {t : Nat} (hat : start < t) (htb : t ≤ stop) :
    ((st inp t).wrState ≠ .idle →
      ∃ f g, CountInv cfg (cfg.blockLength P) (st inp t) (beats inp start t) f g) ∧
      HeaderCounts cfg (cfg.blockLength P) (st inp t).wrState (beats inp start t) := by
  have hcount : blockTlps (numberEvenTlp (cfg.readLog2 P) cfg.sizeAtDescriptor) =
      cfg.blockLength P := by
    rw [blockLength_eq, blockTlps_numberEvenTlp hpos]
    rw [← blockLength_eq]
    omega
  have hn : 0 < cfg.blockLength P := by
    rw [blockLength_eq]
    exact blockCount_pos _ hpos
  have htotal := cfg.total_pos
  refine op.beats_induction (fun s l => ∃ f g, CountInv cfg (cfg.blockLength P) s l f g)
    (HeaderCounts cfg (cfg.blockLength P)) ?_ ?_ ?_ t hat htb
  · obtain ⟨hwr, hrd, -, -, -⟩ := op.first_registers
    refine ⟨0, 0, ?_, fun _ => by rw [hwr]; exact .first _, by rw [hrd]; exact .first _, ?_, rfl, rfl,
      ?_⟩
    · rcases op.begins.2 with ⟨hcap, hs⟩ | ⟨hcap, hread, hs⟩
      · rw [hs]
        constructor <;> intro h <;> simp at h
        exact ⟨hcap, by rw [Nat.zero_div, Nat.zero_mul]; omega, by simp⟩
      · rw [hs]
        constructor <;> intro h <;> simp at h
        exact ⟨hread, by omega, by simp [hcap]⟩
    · rcases op.begins.2 with ⟨-, hs⟩ | ⟨-, -, hs⟩ <;> simp [hs, writeHeaders]
    · intro _ _ k x hx
      simp [headers] at hx
  · rintro t hat htb hs hcfg hb ⟨f, g, h⟩
    exact h.step hb hcfg hs hcount hfit
  · rintro s l ⟨f, g, h⟩
    exact h.headerCounts hn

theorem byteEnables (op : Operation inp cfg start stop) (hpos : 0 < cfg.sizeAtDescriptor.toNat)
    (hdvd : cfg.sizeAtDescriptor.toNat % 4 = 0) (hfit : cfg.total + cfg.blockLength P < 2 ^ 32) :
    ∀ t, start < t → t ≤ stop → ((st inp t).wrState ≠ .idle → ReadBe cfg (st inp t)) ∧
      ∀ x ∈ beats inp start t, x.origin ≠ .write → ByteEnables x := by
  have hlength : cfg.blockLength P < 2 ^ 32 := by omega
  refine op.induction ?_ ?_ ?_
  · have hcfg := op.stable start (Nat.le_refl _) op.start_lt (.inl rfl)
    rw [beats_first, st_succ]
    rw [blockLength_eq] at hlength
    exact ⟨fun _ => readBe_first hpos hdvd hlength op.idle op.begins.1 hcfg, by simp⟩
  · rintro t hat htb hs hcfg ⟨hread, hbeats⟩
    have hb := op.bounds_eq hat (by omega) hs
    refine ⟨fun _ => by rw [st_succ]; exact (hread hs).step hdvd hb hcfg hs, ?_⟩
    intro x hx horigin
    rw [beats_succ inp hat, List.mem_append] at hx
    rcases hx with hx | hx
    · exact hbeats x hx horigin
    · -- a header loaded in state `INIT_WRITE` or `INIT_READ`
      have hinit : (st inp t).wrState = .initWrite → (inp t).axisRqTready = true →
          ByteEnables ⟨.initWrite, (step (st inp t) (inp t)).beat⟩ := by
        intro hstate hready
        obtain ⟨f, g, hcount⟩ := (op.countInv hpos hfit hat (by omega)).1 hs
        obtain ⟨hcap, -, -⟩ := hcount.progress.writing (.inl hstate)
        have hok := writeSizeOk_of_blockLength hcap hlength
        have hsize : cfg.SizeFits P := .of_dvd hpos hdvd
        have hwords := (op.writeInv hsize hok t hat (by omega)).words hs (by simp [hstate])
        obtain ⟨hge, hle⟩ := wrTlpWords_bounds hsize (st inp t).wrCount.modulus
        rw [← currentWrTlpWords_eq hb] at hwords hge hle
        exact initWrite_byteEnables hstate hready hle hge hwords
      rcases busy_cases (inp t) hs with hm | hm | hm | hm | hm | hm <;> rw [hm.load] at hx
      · simp at hx
      · rw [List.mem_singleton.mp hx]
        exact hinit hm.initWrite hm.tready
      · rw [List.mem_singleton.mp hx] at horigin
        exact absurd rfl horigin
      · rw [List.mem_singleton.mp hx] at horigin ⊢
        rcases hm.ends with ⟨hstate, -, -⟩ | ⟨hstate, -⟩
        · rw [hstate]
          exact hinit hstate hm.tready
        · exact absurd hstate horigin
      · rw [List.mem_singleton.mp hx]
        exact issuesRead_byteEnables (hread hs) hm hdvd hb hcfg
      · simp at hx
  · rintro t hat htb hs hs' ⟨_, hbeats⟩
    rw [beats_idle inp hat hs]
    exact ⟨fun h => absurd hs' h, hbeats⟩

end Operation

/-! ## Block tiling -/

theorem alignDword_toNat (a : BitVec 64) : (alignDword a).toNat = a.toNat / 4 * 4 := by
  rw [alignDword, BitVec.toNat_append, BitVec.extractLsb'_toNat]
  simp [Nat.shiftRight_eq_div_pow, Nat.shiftLeft_eq]
  omega

/-- A multiple of four bytes leaves the low bits of an address alone. -/
theorem alignDword_add (a : BitVec 64) {k : Nat} (hk : k % 4 = 0) :
    alignDword (a + BitVec.ofNat 64 k) = alignDword a + BitVec.ofNat 64 k := by
  apply BitVec.eq_of_toNat_eq
  simp only [alignDword_toNat, BitVec.toNat_add, BitVec.toNat_ofNat]
  omega

/-- The dwords of the last TLP of a block. -/
theorem tileDwords_eq {M S i : Nat} (hS : 0 < S) (hM : 0 < M) (hi : i < blockCount M S) :
    tileDwords M S (blockCount M S) i =
      if i < blockCount M S - 1 then M / 4 else (S - (blockCount M S - 1) * M) / 4 := by
  have hdm := Nat.div_add_mod S M
  have hlt := Nat.mod_lt S hM
  unfold tileDwords
  rcases Nat.lt_or_ge i (blockCount M S - 1) with hin | hlast
  · rw [if_pos hin, if_neg (by omega)]
  · rw [if_pos (by omega : i + 1 = blockCount M S), if_neg (by omega : ¬ i < blockCount M S - 1)]
    unfold blockCount at *
    by_cases htail : S % M = 0
    · rw [if_pos htail, if_pos htail, Nat.add_zero, Nat.sub_mul, Nat.one_mul, Nat.mul_comm]
      have hle : M ≤ M * (S / M) := by
        rcases Nat.eq_zero_or_pos (S / M) with h0 | h0
        · rw [h0, htail] at hdm
          omega
        · exact Nat.le_mul_of_pos_right M h0
      congr 1
      omega
    · rw [if_neg htail, if_neg htail, Nat.add_sub_cancel, Nat.mul_comm]
      congr 1
      omega

end Tiling

end Rq
end PcieBench
