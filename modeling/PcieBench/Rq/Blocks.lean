import PcieBench.Rq.WriteTlp
import Mathlib.Tactic.IntervalCases

/-!
# Blocks of TLPs

In each direction an operation sends blocks of TLPs: the first TLP of a block is at the block's base
address, each following one a stride further, and the dwords of a TLP depend on its place in the
block.  `Blocks` is that geometry with a predicate on the base addresses; `TilesTo` says that a
sequence of headers follows it and which address register comes next.  The two directions share the
results of the first part, the rest of the module establishes them for both.
-/

namespace PcieBench
namespace Rq

open Clocked Tlp

/-! ## Headers as tiles -/

/-- An address without its two low bits, as headers carry it. -/
def alignDword (a : BitVec 64) : BitVec 64 := a.extractLsb' 2 62 ++ 0#2

/-- A header for `words` dwords at the address of register `addr`. -/
structure IsTile (x : Sent) (addr : BitVec 64) (words : BitVec 32) : Prop where
  addr : x.beat.addr = alignDword addr
  dwords : x.beat.dwords = words.setWidth 11

/-- The geometry of the blocks of one direction: TLPs in a block, bytes between two of them, dwords
of each, and what is known about the base address of block `q`. -/
structure Blocks where
  count : Nat
  stride : Nat
  words : Nat → BitVec 32
  base : Nat → BitVec 64 → Prop
  count_pos : 0 < count

/-- The place of the next TLP: the start of a new block or one further in the same block. -/
theorem succ_div_mod {n : Nat} (hn : 0 < n) (k : Nat) :
    (k % n + 1 = n ∧ (k + 1) / n = k / n + 1 ∧ (k + 1) % n = 0) ∨
      (k % n + 1 < n ∧ (k + 1) / n = k / n ∧ (k + 1) % n = k % n + 1) := by
  have hlt := Nat.mod_lt k hn
  have hdm := Nat.div_add_mod k n
  rcases Nat.lt_or_ge (k % n + 1) n with h | h
  · right
    have hk : k + 1 = n * (k / n) + (k % n + 1) := by omega
    refine ⟨h, ?_, ?_⟩
    · rw [hk, Nat.mul_add_div hn, Nat.div_eq_of_lt h, Nat.add_zero]
    · rw [hk, Nat.mul_add_mod, Nat.mod_eq_of_lt h]
  · left
    have hk : k + 1 = n * (k / n + 1) := by
      rw [Nat.mul_add, Nat.mul_one]
      omega
    refine ⟨by omega, ?_, ?_⟩
    · rw [hk, Nat.mul_div_cancel_left _ hn]
    · rw [hk, Nat.mul_mod_right]

/-- A property of every item of a list and of one more. -/
theorem forall_getElem?_snoc {α : Type} {l : List α} {a : α} {p : Nat → α → Prop}
    (h : ∀ k x, l[k]? = some x → p k x) (ha : p l.length a) :
    ∀ k x, (l ++ [a])[k]? = some x → p k x := by
  intro k x hx
  obtain ⟨hk, -⟩ := List.getElem?_eq_some_iff.mp hx
  rw [List.length_append, List.length_singleton] at hk
  rcases Nat.lt_or_ge k l.length with hlt | hge
  · rw [List.getElem?_append_left hlt] at hx
    exact h k x hx
  · have hlast : k = l.length := by omega
    subst hlast
    have hax : a = x := by simpa using hx
    subst hax
    exact ha

namespace Blocks

variable (B : Blocks)

/-- The headers `hs` form consecutive blocks at the addresses `base`. -/
def TilesFrom (base : Nat → BitVec 64) (hs : List Sent) : Prop :=
  ∀ k x, hs[k]? = some x → B.base (k / B.count) (base (k / B.count)) ∧
    IsTile x (base (k / B.count) + BitVec.ofNat 64 (k % B.count * B.stride))
      (B.words (k % B.count))

/-- The headers form consecutive blocks. -/
def Tiles (hs : List Sent) : Prop := ∃ base, B.TilesFrom base hs

/-- The headers form consecutive blocks, and the next one belongs at address `next`. -/
def TilesTo (hs : List Sent) (next : BitVec 64) : Prop :=
  ∃ base, B.TilesFrom base hs ∧ B.base (hs.length / B.count) (base (hs.length / B.count)) ∧
    next = base (hs.length / B.count) + BitVec.ofNat 64 (hs.length % B.count * B.stride)

variable {B} {hs : List Sent} {next : BitVec 64}

/-- One more header at the address that is due. -/
theorem TilesFrom.snoc {base : Nat → BitVec 64} (h : B.TilesFrom base hs) {x : Sent}
    (hbase : B.base (hs.length / B.count) (base (hs.length / B.count)))
    (hx : IsTile x (base (hs.length / B.count) +
      BitVec.ofNat 64 (hs.length % B.count * B.stride)) (B.words (hs.length % B.count))) :
    B.TilesFrom base (hs ++ [x]) :=
  forall_getElem?_snoc h ⟨hbase, hx⟩

/-- The base of a block that has no header yet is free. -/
theorem TilesFrom.update {base : Nat → BitVec 64} (h : B.TilesFrom base hs) {q : Nat}
    (hq : ∀ k, k < hs.length → k / B.count ≠ q) (b : BitVec 64) :
    B.TilesFrom (Function.update base q b) hs := by
  intro k x hx
  obtain ⟨hk, -⟩ := List.getElem?_eq_some_iff.mp hx
  rw [Function.update_of_ne (hq k hk)]
  exact h k x hx

theorem TilesTo.nil (h : B.base 0 next) : B.TilesTo [] next := by
  refine ⟨fun _ => next, ?_, ?_, ?_⟩
  · intro k x hx
    simp at hx
  · simpa using h
  · simp

theorem TilesTo.tiles (h : B.TilesTo hs next) : B.Tiles hs := by
  obtain ⟨base, hfrom, -⟩ := h
  exact ⟨base, hfrom⟩

/-- The header that was due extends the blocks. -/
theorem TilesTo.append (h : B.TilesTo hs next) {x : Sent}
    (hx : IsTile x next (B.words (hs.length % B.count))) : B.Tiles (hs ++ [x]) := by
  obtain ⟨base, hfrom, hbase, rfl⟩ := h
  exact ⟨base, hfrom.snoc hbase hx⟩

/-- After the header that was due the next one is a stride further, or starts a new block. -/
theorem TilesTo.push (h : B.TilesTo hs next) {x : Sent} {next' : BitVec 64}
    (hx : IsTile x next (B.words (hs.length % B.count)))
    (hnew : hs.length % B.count + 1 = B.count → B.base (hs.length / B.count + 1) next')
    (hsame : hs.length % B.count + 1 < B.count → next' = next + BitVec.ofNat 64 B.stride) :
    B.TilesTo (hs ++ [x]) next' := by
  obtain ⟨base, hfrom, hbase, rfl⟩ := h
  have hlen : (hs ++ [x]).length = hs.length + 1 := by simp
  have hsnoc := hfrom.snoc hbase hx
  rcases succ_div_mod B.count_pos hs.length with ⟨hend, hdiv, hmod⟩ | ⟨hin, hdiv, hmod⟩
  · -- a new block: its base is the address that comes next
    refine ⟨Function.update base (hs.length / B.count + 1) next', hsnoc.update ?_ next', ?_, ?_⟩
    · intro k hk
      have := Nat.div_le_div_right (c := B.count) (show k ≤ hs.length by omega)
      omega
    · rw [hlen, hdiv, Function.update_self]
      exact hnew hend
    · rw [hlen, hdiv, hmod, Function.update_self]
      simp
  · -- the same block
    refine ⟨base, hsnoc, ?_, ?_⟩
    · rw [hlen, hdiv]
      exact hbase
    · rw [hlen, hdiv, hmod, hsame hin, BitVec.add_assoc, Nat.add_mul, Nat.one_mul,
        BitVec.ofNat_add]

end Blocks

/-! ## The counters of a direction -/

/-- The counters when `k` TLPs have been sent in blocks of `count`. -/
structure TlpCount.At (c : TlpCount) (count k : Nat) : Prop where
  current : c.current = BitVec.ofNat 32 (k + 1)
  modulus : c.modulus = BitVec.ofNat 32 (k % count + 1)

theorem TlpCount.At.first (count : Nat) : TlpCount.first.At count 0 := by
  constructor <;> simp [TlpCount.first]

/-- The modulus meets the number of TLPs exactly at the last one of a block. -/
theorem TlpCount.At.even_iff {c : TlpCount} {even : BitVec 32} {k : Nat}
    (h : c.At (blockTlps even) k) : even = c.modulus ↔ k % blockTlps even + 1 = blockTlps even := by
  rw [h.modulus, even_eq_iff even (Nat.mod_lt k (blockTlps_pos even))]

theorem TlpCount.At.next {c : TlpCount} {even : BitVec 32} {k : Nat}
    (h : c.At (blockTlps even) k) : (c.next even).At (blockTlps even) (k + 1) := by
  constructor
  · rw [TlpCount.next, h.current, BitVec.ofNat_add (k + 1) 1]
    rfl
  · simp only [TlpCount.next, h.even_iff]
    rcases succ_div_mod (blockTlps_pos even) k with ⟨hend, -, hmod⟩ | ⟨hin, -, hmod⟩
    · rw [if_pos hend, hmod]
      rfl
    · rw [if_neg (by omega), hmod, h.modulus, BitVec.ofNat_add (k % _ + 1) 1]
      rfl

/-- The stride of a direction is the size of a full TLP. -/
theorem stride_eq {log2 : Nat} (hlo : 3 ≤ log2) (hhi : log2 ≤ 12) :
    (((BitVec.ofNat 64 (2 ^ (log2 - 2))).setWidth 32).setWidth 11).setWidth 64 <<< 2 =
      BitVec.ofNat 64 (2 ^ log2) := by
  interval_cases log2 <;> decide

/-! ## Memory writes -/

section Directions

variable {P : Params}

/-- The headers of the memory writes among the beats of an operation. -/
def writeHeaders (l : List Sent) : List Sent := l.filter (fun x => decide (x.origin = .initWrite))

/-- The memory read requests among the beats of an operation. -/
def readHeaders (l : List Sent) : List Sent := l.filter (fun x => decide (x.origin = .initRead))

theorem readHeaders_append (l l' : List Sent) : readHeaders (l ++ l') = readHeaders l ++ readHeaders l' :=
  List.filter_append l l'

/-- The blocks of memory writes of a configuration. -/
def wrBlocks (P : Params) (cfg : Config) (base : Nat → BitVec 64 → Prop) : Blocks where
  count := blockTlps (numberEvenTlp P.log2MaxPayload cfg.sizeAtDescriptor)
  stride := 2 ^ P.log2MaxPayload
  words i := tlpWords P.log2MaxPayload cfg.sizeAtDescriptor (BitVec.ofNat 32 (i + 1))
  base := base
  count_pos := blockTlps_pos _

/-- The header loaded in state `INIT_WRITE`. -/
theorem initWrite_isTile {s : State P} {i : Input P} (hs : s.wrState = .initWrite)
    (hr : i.axisRqTready = true) :
    IsTile ⟨.initWrite, (step s i).beat⟩ s.wrPtr.addr s.currentWrTlpWords := by
  have hbeat : (step s i).beat.tdataLo = packDescriptor s.c2sRqTag memoryWrite
      (s.currentWrTlpWords.setWidth 11) s.wrPtr.addr := by
    simp [State.beat, nextOut, hs, hr]
  constructor
  · rw [Beat.addr, hbeat, packDescriptor_addr, alignDword]
  · rw [Beat.dwords, hbeat, packDescriptor_dwords]

/-- The headers of the memory writes `hs` loaded so far form blocks.  Inside a TLP, its own header
has been loaded but the registers still describe it. -/
def WriteTiles (cfg : Config) (base : Nat → BitVec 64 → Prop) (s : State P) (hs : List Sent) :
    Prop :=
  ∃ done, (wrBlocks P cfg base).TilesTo done s.wrPtr.addr ∧
    s.wrCount.At (wrBlocks P cfg base).count done.length ∧
    (s.wrState ≠ .write → hs = done) ∧
    (s.wrState = .write → ∃ x, hs = done ++ [x] ∧
      IsTile x s.wrPtr.addr ((wrBlocks P cfg base).words (done.length % (wrBlocks P cfg base).count)))

variable {cfg : Config} {base : Nat → BitVec 64 → Prop} {s : State P} {i : Input P} {l : List Sent}

theorem WriteTiles.tiles {hs : List Sent} (h : WriteTiles cfg base s hs) :
    (wrBlocks P cfg base).Tiles hs := by
  obtain ⟨done, hto, -, hout, hin⟩ := h
  by_cases hw : s.wrState = .write
  · obtain ⟨x, rfl, hx⟩ := hin hw
    exact hto.append hx
  · rw [hout hw]
    exact hto.tiles

/-- The words in the header are those of its place in the block. -/
theorem currentWrTlpWords_at {k : Nat} (hb : s.bounds = nextBounds P cfg)
    (hk : s.wrCount.At (wrBlocks P cfg base).count k) :
    s.currentWrTlpWords = (wrBlocks P cfg base).words (k % (wrBlocks P cfg base).count) := by
  rw [currentWrTlpWords_eq hb, wrTlpWords_eq, hk.modulus]
  rfl

/-- The end of a TLP moves the address register to the place of the next one. -/
theorem endsWrite_tilesTo {done : List Sent} {x : Sent} (hm : EndsWrite s i)
    (hb : s.bounds = nextBounds P cfg) (hcfg : i.cfg = cfg)
    (hto : (wrBlocks P cfg base).TilesTo done s.wrPtr.addr)
    (hk : s.wrCount.At (wrBlocks P cfg base).count done.length)
    (hx : IsTile x s.wrPtr.addr
      ((wrBlocks P cfg base).words (done.length % (wrBlocks P cfg base).count)))
    (hbase : base (done.length / (wrBlocks P cfg base).count + 1) (s.txWrAddr cfg)) :
    (wrBlocks P cfg base).TilesTo (done ++ [x]) (step s i).wrPtr.addr ∧
      (step s i).wrCount.At (wrBlocks P cfg base).count (done ++ [x]).length := by
  have heven : s.bounds.wrNumberEven = numberEvenTlp P.log2MaxPayload cfg.sizeAtDescriptor := by
    rw [hb]
    rfl
  have hiff : s.bounds.wrNumberEven = s.wrCount.modulus ↔
      done.length % (wrBlocks P cfg base).count + 1 = (wrBlocks P cfg base).count := by
    rw [heven]
    exact hk.even_iff
  constructor
  · rw [hm.wrPtr]
    refine hto.push hx ?_ ?_
    · -- behind the last TLP of a block the address generator has the next base
      intro hend
      simp only [WrPointer.next, hiff.mpr hend, if_true, hcfg]
      exact hbase
    · -- inside a block every TLP but the last is a full one
      intro hin
      have hne : ¬ s.bounds.wrNumberEven = s.wrCount.modulus := by
        rw [hiff]
        omega
      simp only [WrPointer.next, hne, if_false, State.currentWrTlpWords, maxWordsTlp]
      rw [stride_eq P.three_le_payload P.payload_le]
      rfl
  · rw [hm.wrCount, heven, List.length_append]
    exact hk.next

theorem WriteTiles.step (h : WriteTiles cfg base s (writeHeaders l))
    (hb : s.bounds = nextBounds P cfg) (hcfg : i.cfg = cfg) (hs : s.wrState ≠ .idle)
    (hbase : ∀ k, (writeHeaders l).length = (if s.wrState = .write then k + 1 else k) →
      base (k / (wrBlocks P cfg base).count + 1) (s.txWrAddr cfg)) :
    WriteTiles cfg base (step s i) (writeHeaders (l ++ load s i)) := by
  obtain ⟨done, hto, hk, hout, hin⟩ := h
  have happend : writeHeaders (l ++ load s i) = writeHeaders l ++ writeHeaders (load s i) := by
    simp [writeHeaders]
  -- the cycles between two TLPs that send no header
  have hquiet : (Rq.step s i).wrPtr = s.wrPtr → (Rq.step s i).wrCount = s.wrCount →
      writeHeaders (load s i) = [] → s.wrState ≠ .write → (Rq.step s i).wrState ≠ .write →
        WriteTiles cfg base (Rq.step s i) (writeHeaders (l ++ load s i)) := by
    intro hptr hcount hnone hbefore hafter
    rw [happend, hnone, List.append_nil, hout hbefore]
    exact ⟨done, by rwa [hptr], by rwa [hcount], fun _ => rfl, fun hw => absurd hw hafter⟩
  rcases busy_cases i hs with hm | hm | hm | hm | hm | hm
  · -- a stall leaves the registers alone
    have hnone : writeHeaders (load s i) = [] := by simp [hm.load, writeHeaders]
    rw [happend, hnone, List.append_nil]
    refine ⟨done, ?_, ?_, ?_, ?_⟩
    · rwa [hm.wrPtr]
    · rwa [hm.wrCount]
    · rwa [hm.state]
    · rwa [hm.state, hm.wrPtr]
  · -- the header is there, the registers wait for the end of its TLP
    have hload : writeHeaders (load s i) = [⟨.initWrite, (Rq.step s i).beat⟩] := by
      simp [hm.load, writeHeaders]
    have hx := initWrite_isTile hm.initWrite hm.tready
    rw [currentWrTlpWords_at hb hk] at hx
    rw [happend, hload, hout (by simp [hm.initWrite])]
    refine ⟨done, ?_, ?_, fun hne => absurd hm.state hne, fun _ => ⟨_, rfl, ?_⟩⟩
    · rwa [hm.wrPtr]
    · rwa [hm.wrCount]
    · rwa [hm.wrPtr]
  · -- a payload beat in the middle of a TLP
    have hnone : writeHeaders (load s i) = [] := by simp [hm.load, writeHeaders]
    obtain ⟨x, heq, hx⟩ := hin hm.write
    rw [happend, hnone, List.append_nil]
    refine ⟨done, ?_, ?_, fun hne => absurd hm.state hne, fun _ => ⟨x, heq, ?_⟩⟩
    · rwa [hm.wrPtr]
    · rwa [hm.wrCount]
    · rwa [hm.wrPtr]
  · -- the last beat of a memory write
    rcases hm.ends with ⟨hinit, -, -⟩ | ⟨hwrite, -⟩
    · -- the header is the whole TLP
      have hload : writeHeaders (load s i) = [⟨.initWrite, (Rq.step s i).beat⟩] := by
        simp [hm.load, writeHeaders, hinit]
      have hx := initWrite_isTile hinit hm.tready
      rw [currentWrTlpWords_at hb hk] at hx
      have hlen : (writeHeaders l).length = if s.wrState = .write then done.length + 1
          else done.length := by
        rw [hout (by simp [hinit]), hinit, if_neg (by simp)]
      obtain ⟨hto', hk'⟩ := endsWrite_tilesTo hm hb hcfg hto hk hx (hbase _ hlen)
      rw [happend, hload, hout (by simp [hinit])]
      exact ⟨_, hto', hk', fun _ => rfl, fun hw => absurd hw hm.ne_write⟩
    · have hnone : writeHeaders (load s i) = [] := by simp [hm.load, writeHeaders, hwrite]
      obtain ⟨x, heq, hx⟩ := hin hwrite
      have hlen : (writeHeaders l).length = if s.wrState = .write then done.length + 1
          else done.length := by
        rw [heq, hwrite, if_pos rfl, List.length_append, List.length_singleton]
      obtain ⟨hto', hk'⟩ := endsWrite_tilesTo hm hb hcfg hto hk hx (hbase _ hlen)
      rw [happend, hnone, List.append_nil, heq]
      exact ⟨_, hto', hk', fun _ => rfl, fun hw => absurd hw hm.ne_write⟩
  · -- a memory read request
    exact hquiet hm.wrPtr hm.wrCount (by simp [hm.load, writeHeaders]) (by simp [hm.initRead])
      hm.ne_write
  · -- the end of the operation
    have hidle : (Rq.step s i).wrState ≠ .write := by
      rw [hm.state]
      decide
    exact hquiet hm.wrPtr hm.wrCount (by simp [hm.load, writeHeaders]) (by simp [hm.waitRead]) hidle

/-! ## Memory reads -/

/-- The size of a full memory read: together with writes it is the one of a write. -/
def Config.readLog2 (P : Params) (cfg : Config) : Nat :=
  if cfg.capWrite then P.log2MaxPayload else P.log2MaxReadRequest

theorem Config.three_le_readLog2 (P : Params) (cfg : Config) : 3 ≤ cfg.readLog2 P := by
  unfold Config.readLog2
  split
  · exact P.three_le_payload
  · exact P.three_le_readRequest

theorem Config.readLog2_le (P : Params) (cfg : Config) : cfg.readLog2 P ≤ 12 := by
  unfold Config.readLog2
  split
  · exact P.payload_le
  · exact P.readRequest_le

/-- The blocks of memory reads of a configuration. -/
def rdBlocks (P : Params) (cfg : Config) (base : Nat → BitVec 64 → Prop) : Blocks where
  count := blockTlps (numberEvenTlp (cfg.readLog2 P) cfg.sizeAtDescriptor)
  stride := 2 ^ cfg.readLog2 P
  words i := tlpWords (cfg.readLog2 P) cfg.sizeAtDescriptor (BitVec.ofNat 32 (i + 1))
  base := base
  count_pos := blockTlps_pos _

/-- The registers of both kinds of read operations in terms of the size of a full read. -/
theorem rdBounds_eq (P : Params) (cfg : Config) :
    (nextBounds P cfg).rdNumberEven = numberEvenTlp (cfg.readLog2 P) cfg.sizeAtDescriptor ∧
      (nextBounds P cfg).rdOddWords = oddTlpWords (cfg.readLog2 P)
        (BitVec.ofNat 64 (2 ^ (cfg.readLog2 P - 2))) cfg.sizeAtDescriptor ∧
      (if cfg.capWrite then maxWordsTlp P else maxWordsReadRequest P) =
        BitVec.ofNat 64 (2 ^ (cfg.readLog2 P - 2)) := by
  cases h : cfg.capWrite <;>
    simp [nextBounds, Config.readLog2, maxWordsTlp, maxWordsReadRequest, h]

theorem currentRdTlpWords_eq (hb : s.bounds = nextBounds P cfg) :
    s.currentRdTlpWords cfg =
      tlpWords (cfg.readLog2 P) cfg.sizeAtDescriptor s.rdCount.modulus := by
  obtain ⟨heven, hodd, hmax⟩ := rdBounds_eq P cfg
  unfold State.currentRdTlpWords tlpWords
  rw [hb, heven, hodd, ← hmax]
  cases cfg.capWrite <;> rfl

/-- The request loaded in state `INIT_READ`. -/
theorem issuesRead_isTile (hm : IssuesRead s i) :
    IsTile ⟨.initRead, (step s i).beat⟩ s.rdPtr.addr (s.currentRdTlpWords i.cfg) := by
  have hbeat : (step s i).beat.tdataLo = packDescriptor s.s2cRqTag memoryRead
      ((s.currentRdTlpWords i.cfg).setWidth 11) s.rdPtr.addr := by
    simp [State.beat, nextOut, hm.initRead, hm.tready]
  constructor
  · rw [Beat.addr, hbeat, packDescriptor_addr, alignDword]
  · rw [Beat.dwords, hbeat, packDescriptor_dwords]

/-- The read requests `hs` loaded so far form blocks. -/
structure ReadTiles (cfg : Config) (base : Nat → BitVec 64 → Prop) (s : State P)
    (hs : List Sent) : Prop where
  tilesTo : (rdBlocks P cfg base).TilesTo hs s.rdPtr.addr
  count : s.rdCount.At (rdBlocks P cfg base).count hs.length

theorem readHeaders_load_of_ne (hs : s.wrState ≠ .initRead) : readHeaders (load s i) = [] := by
  unfold load
  split <;> simp [readHeaders, hs]

theorem ReadTiles.step (h : ReadTiles cfg base s (readHeaders l))
    (hb : s.bounds = nextBounds P cfg) (hcfg : i.cfg = cfg) (hs : s.wrState ≠ .idle)
    (hbase : base ((readHeaders l).length / (rdBlocks P cfg base).count + 1) (s.txRdAddr cfg)) :
    ReadTiles cfg base (step s i) (readHeaders (l ++ load s i)) := by
  have happend : readHeaders (l ++ load s i) = readHeaders l ++ readHeaders (load s i) := by
    simp [readHeaders]
  -- the cycles that send no read request
  have hsame : (Rq.step s i).rdPtr = s.rdPtr → (Rq.step s i).rdCount = s.rdCount →
      readHeaders (load s i) = [] →
        ReadTiles cfg base (Rq.step s i) (readHeaders (l ++ load s i)) := by
    intro hptr hcount hnone
    rw [happend, hnone, List.append_nil]
    exact ⟨by rw [hptr]; exact h.tilesTo, by rw [hcount]; exact h.count⟩
  rcases busy_cases i hs with hm | hm | hm | hm | hm | hm
  · exact hsame hm.rdPtr hm.rdCount (by simp [hm.load, readHeaders])
  · exact hsame hm.rdPtr hm.rdCount (by simp [hm.load, readHeaders])
  · exact hsame hm.rdPtr hm.rdCount (by simp [hm.load, readHeaders])
  · -- the last beat of a memory write
    refine hsame hm.rdPtr hm.rdCount (readHeaders_load_of_ne ?_)
    rcases hm.origin with hinit | hwrite
    · simp [hinit]
    · simp [hwrite]
  · -- only `INIT_READ` moves the registers of the reads
    obtain ⟨heven, -, hmax⟩ := rdBounds_eq P cfg
    have hload : readHeaders (load s i) = [⟨.initRead, (Rq.step s i).beat⟩] := by
      simp [hm.load, readHeaders]
    have hwords : s.currentRdTlpWords cfg = (rdBlocks P cfg base).words
        ((readHeaders l).length % (rdBlocks P cfg base).count) := by
      rw [currentRdTlpWords_eq hb, h.count.modulus]
      rfl
    have hx := issuesRead_isTile hm
    rw [hcfg, hwords] at hx
    have hiff : s.bounds.rdNumberEven = s.rdCount.modulus ↔
        (readHeaders l).length % (rdBlocks P cfg base).count + 1 =
          (rdBlocks P cfg base).count := by
      rw [hb, heven]
      exact h.count.even_iff
    rw [happend, hload]
    constructor
    · refine h.tilesTo.push hx ?_ ?_
      · intro hend
        rw [hm.rdAddr, if_pos (hiff.mpr hend), hcfg]
        exact hbase
      · intro hin
        have hne : ¬ s.bounds.rdNumberEven = s.rdCount.modulus := by
          rw [hiff]
          omega
        have hfull : s.currentRdTlpWords cfg =
            (BitVec.ofNat 64 (2 ^ (cfg.readLog2 P - 2))).setWidth 32 := by
          rw [State.currentRdTlpWords, if_neg hne, ← hmax]
          cases cfg.capWrite <;> rfl
        rw [hm.rdAddr, if_neg hne, hcfg, hfull,
          stride_eq (Config.three_le_readLog2 P cfg) (Config.readLog2_le P cfg)]
        rfl
    · rw [hm.rdCount, hb, heven, List.length_append]
      exact h.count.next
  · exact hsame hm.rdPtr hm.rdCount (by simp [hm.load, readHeaders])

/-! ## Every operation -/

namespace Operation

variable {inp : Run P} {start stop : Nat}

/-- What holds of the beats of an operation while it runs, and what follows from it in every cycle:
`post` survives the idle cycles after the operation. -/
theorem beats_induction (op : Operation inp cfg start stop) (inv : State P → List Sent → Prop)
    (post : WrState → List Sent → Prop) (hfirst : inv (st inp (start + 1)) [])
    (hstep : ∀ t, start < t → t < stop → (st inp t).wrState ≠ .idle → (inp t).cfg = cfg →
      (st inp t).bounds = nextBounds P cfg → inv (st inp t) (beats inp start t) →
        inv (st inp (t + 1)) (beats inp start t ++ load (st inp t) (inp t)))
    (hpost : ∀ s l, inv s l → post s.wrState l) :
    ∀ t, start < t → t ≤ stop →
      ((st inp t).wrState ≠ .idle → inv (st inp t) (beats inp start t)) ∧
        post (st inp t).wrState (beats inp start t) := by
  refine op.induction ?_ ?_ ?_
  · rw [beats_first]
    exact ⟨fun _ => hfirst, hpost _ _ hfirst⟩
  · intro t hat htb hs hcfg ht
    have hnext := hstep t hat htb hs hcfg (op.bounds_eq hat (by omega) hs) (ht.1 hs)
    rw [← beats_succ inp hat] at hnext
    exact ⟨fun _ => hnext, hpost _ _ hnext⟩
  · intro t hat htb hs hs' ht
    rw [beats_idle inp hat hs]
    have hpost := ht.2
    rw [hs] at hpost
    rw [hs']
    exact ⟨fun h => absurd rfl h, hpost⟩

/-- The headers of the memory writes form blocks at the given base addresses. -/
theorem writes_tile (op : Operation inp cfg start stop) (base : Nat → BitVec 64 → Prop)
    (hfirst : base 0 cfg.addrAtDescriptor)
    (hnext : ∀ t, start < t → t < stop → (st inp t).wrState ≠ .idle → ∀ k,
      (writeHeaders (beats inp start t)).length =
        (if (st inp t).wrState = .write then k + 1 else k) →
      base (k / (wrBlocks P cfg base).count + 1) ((st inp t).txWrAddr cfg)) {t : Nat} (hat : start < t) (htb : t ≤ stop) :
    (wrBlocks P cfg base).Tiles (writeHeaders (beats inp start t)) := by
  obtain ⟨hcount, -, -, haddr, -⟩ := op.first_registers
  refine (op.beats_induction (fun s l => WriteTiles cfg base s (writeHeaders l))
    (fun _ l => (wrBlocks P cfg base).Tiles (writeHeaders l)) ?_ ?_ (fun _ _ h => h.tiles) t hat htb).2
  · refine ⟨[], ?_, ?_, fun _ => rfl, ?_⟩
    · rw [haddr]
      exact .nil hfirst
    · rw [hcount]
      exact .first _
    · intro hw
      rcases op.begins.2 with ⟨-, h⟩ | ⟨-, -, h⟩ <;> rw [h] at hw <;> cases hw
  · intro t hat htb hs hcfg hb h
    exact h.step hb hcfg hs (hnext t hat htb hs)

/-- The memory read requests form blocks at the given base addresses. -/
theorem reads_tile (op : Operation inp cfg start stop) (base : Nat → BitVec 64 → Prop)
    (hfirst : base 0 cfg.addrAtDescriptor)
    (hnext : ∀ t, start < t → t < stop → (st inp t).wrState ≠ .idle →
      base ((readHeaders (beats inp start t)).length / (rdBlocks P cfg base).count + 1)
        ((st inp t).txRdAddr cfg)) {t : Nat} (hat : start < t) (htb : t ≤ stop) :
    (rdBlocks P cfg base).Tiles (readHeaders (beats inp start t)) := by
  obtain ⟨-, hcount, -, -, haddr⟩ := op.first_registers
  refine (op.beats_induction (fun s l => ReadTiles cfg base s (readHeaders l))
    (fun _ l => (rdBlocks P cfg base).Tiles (readHeaders l)) ?_ ?_ (fun _ _ h => h.tilesTo.tiles) t hat htb).2
  · constructor
    · rw [haddr]
      exact .nil hfirst
    · rw [hcount]
      exact .first _
  · intro t hat htb hs hcfg hb h
    exact h.step hb hcfg hs (hnext t hat htb hs)

end Operation

end Directions

end Rq
end PcieBench
