import PcieBench.Manager.Logic

/-!
# What the accesses of the host write

`dma_engine_manager` on its own, with arbitrary accesses and arbitrary events of the engine.  The engine
registers are compared with a memory of bytes, and the three memories of the descriptors with the
addresses of the table.  Three things do not fit: the last index has one byte enable for both of its
bytes, the guard of the table admits one word too many, and an update of the statistics takes the place
of the access of the host.
-/

namespace PcieBench
namespace Manager

open Clocked

/-! ## Runs -/

/-- The inputs of a run, one for each cycle after reset. -/
abbrev Run := Nat → Input

/-- `dma_engine_manager` as a clocked machine. -/
def machine (defaultWindowSize : Nat) (memories : Memories) : Machine State Input where
  reset := reset defaultWindowSize memories
  step := step

/-- The registers in cycle `t` of a run. -/
def st (defaultWindowSize : Nat) (memories : Memories) (inp : Run) (t : Nat) : State :=
  (machine defaultWindowSize memories).trace inp t

/-! ## The engine registers -/

/-- The engine registers of more than one byte. -/
inductive WideRegister
  | lastIndexDescriptor
  | windowSize
  | bufferAtHost
  | addressGenOffset
  | addressGenIncr
  | numberTlps
  deriving DecidableEq, Repr

namespace WideRegister

/-- The address of a register. -/
def word : WideRegister → BitVec 16
  | .lastIndexDescriptor => 0x201
  | .windowSize => 0x203
  | .bufferAtHost => 0x204
  | .addressGenOffset => 0x205
  | .addressGenIncr => 0x206
  | .numberTlps => 0x207

/-- The bits that a register has. -/
def width : WideRegister → Nat
  | .lastIndexDescriptor => 10
  | _ => 64

/-- What a register holds, in 64 bits. -/
def value (r : WideRegister) (regs : Registers) : BitVec 64 :=
  match r with
  | .lastIndexDescriptor => regs.lastIndexDescriptor.setWidth 64
  | .windowSize => regs.windowSize
  | .bufferAtHost => regs.bufferAtHost
  | .addressGenOffset => regs.addressGenOffset
  | .addressGenIncr => regs.addressGenIncr
  | .numberTlps => regs.numberTlps

/-- The bits of a register are those of its bytes in a memory. -/
def Agrees (r : WideRegister) (regs : Registers) (m : ByteMemory (BitVec 16)) : Prop :=
  ∀ i, i < r.width → (r.value regs).getLsbD i = (m r.word (i / 8)).getLsbD (i % 8)

end WideRegister

/-- A memory of bytes that takes the accesses of the host. -/
def HostAccess.storeBytes (h : HostAccess) (m : ByteMemory (BitVec 16)) : ByteMemory (BitVec 16) :=
  if h.en then m.store h.addr h.we h.din else m

/-- The memory of bytes after reset, with the default window at its place. -/
def resetBytes (defaultWindowSize : Nat) : ByteMemory (BitVec 16) := fun a b =>
  if a = WideRegister.windowSize.word then byte (BitVec.ofNat 64 defaultWindowSize) b else 0

/-- The memory of bytes along a run. -/
def bytes (defaultWindowSize : Nat) (inp : Run) : Nat → ByteMemory (BitVec 16)
  | 0 => resetBytes defaultWindowSize
  | t + 1 => (inp t).host.storeBytes (bytes defaultWindowSize inp t)

/-- Both bytes of the last index are enabled or none, or the two bits of the second one stay as they
are. -/
def IndexLanes (regs : Registers) (h : HostAccess) : Prop :=
  h.writesRegister 1 = true → h.we.getLsbD 0 ≠ h.we.getLsbD 1 →
    h.din.extractLsb' 8 2 = regs.lastIndexDescriptor.extractLsb' 8 2

/-! ### One access -/

theorem ne_zero_of_getLsbD {w b : Nat} {x : BitVec w} (h : x.getLsbD b = true) : x ≠ 0 := by
  rintro rfl
  simp at h

section Access

variable (h : HostAccess)

/-- An access finds the register of its address. -/
theorem word_eq_iff {k : BitVec 32} {a : BitVec 16} (hk : engineTableOffset + k = a.setWidth 32) :
    h.word = engineTableOffset + k ↔ h.addr = a := by
  rw [hk, HostAccess.word]
  constructor
  · intro heq
    have hnat := congrArg BitVec.toNat heq
    rw [BitVec.toNat_setWidth, BitVec.toNat_setWidth] at hnat
    apply BitVec.eq_of_toNat_eq
    have h1 := h.addr.isLt
    have h2 := a.isLt
    omega
  · intro heq
    rw [heq]

/-- The access writes the register of its address, if it has a byte enable at all. -/
theorem writesRegister_iff {k : BitVec 32} {a : BitVec 16}
    (hk : engineTableOffset + k = a.setWidth 32) :
    h.writesRegister k = true ↔ h.en = true ∧ h.we ≠ 0 ∧ h.addr = a := by
  rw [HostAccess.writesRegister, Bool.and_eq_true, Bool.and_eq_true, bne_iff_ne, decide_eq_true_eq,
    word_eq_iff h hk, and_assoc]

/-- A register of 64 bits takes the enabled bytes. -/
theorem getLsbD_store {k : BitVec 32} {a : BitVec 16} (hk : engineTableOffset + k = a.setWidth 32)
    (old : BitVec 64) {i : Nat} (hi : i < 64) :
    (h.store k old).getLsbD i =
      if h.en = true ∧ h.addr = a ∧ h.we.getLsbD (i / 8) = true then h.din.getLsbD i
      else old.getLsbD i := by
  rw [HostAccess.store]
  by_cases hwrites : h.writesRegister k = true
  · obtain ⟨hen, -, haddr⟩ := (writesRegister_iff h hk).mp hwrites
    rw [if_pos hwrites, getLsbD_writeBytes _ _ _ hi]
    simp [hen, haddr]
  · rw [if_neg hwrites, if_neg]
    -- an enabled byte makes the byte enables different from zero
    rintro ⟨hen, haddr, hbit⟩
    exact hwrites ((writesRegister_iff h hk).mpr ⟨hen, ne_zero_of_getLsbD hbit, haddr⟩)

theorem getLsbD_storeBytes (m : ByteMemory (BitVec 16)) (a : BitVec 16) (i : Nat) :
    (h.storeBytes m a (i / 8)).getLsbD (i % 8) =
      if h.en = true ∧ h.addr = a ∧ h.we.getLsbD (i / 8) = true then h.din.getLsbD i
      else (m a (i / 8)).getLsbD (i % 8) := by
  have hi : 8 * (i / 8) + i % 8 = i := Nat.div_add_mod i 8
  have hlt : i % 8 < 8 := Nat.mod_lt i (by decide)
  rw [HostAccess.storeBytes]
  cases h.en with
  | false =>
      simp
  | true =>
      rw [if_pos rfl, ByteMemory.store]
      by_cases hwrite : h.addr = a ∧ h.we.getLsbD (i / 8) = true
      · rw [if_pos hwrite, if_pos ⟨rfl, hwrite⟩]
        simp [byte, hi, hlt]
      · rw [if_neg hwrite, if_neg (fun hall => hwrite hall.2)]

end Access

/-! ### One cycle -/

section Registers

variable (s : State) (i : Input)

/-- The registers of 64 bits. -/
theorem WideRegister.value_step {r : WideRegister} (hr : r ≠ .lastIndexDescriptor) {k : Nat}
    (hk : k < 64) :
    (r.value (step s i).regs).getLsbD k =
      if i.host.en = true ∧ i.host.addr = r.word ∧ i.host.we.getLsbD (k / 8) = true then
        i.host.din.getLsbD k
      else (r.value s.regs).getLsbD k := by
  cases r with
  | lastIndexDescriptor =>
      exact absurd rfl hr
  | windowSize =>
      exact getLsbD_store i.host rfl s.regs.windowSize hk
  | bufferAtHost =>
      exact getLsbD_store i.host rfl s.regs.bufferAtHost hk
  | addressGenOffset =>
      exact getLsbD_store i.host rfl s.regs.addressGenOffset hk
  | addressGenIncr =>
      exact getLsbD_store i.host rfl s.regs.addressGenIncr hk
  | numberTlps =>
      exact getLsbD_store i.host rfl s.regs.numberTlps hk

/-- All bits of the last index depend on the first byte enable. -/
theorem lastIndexDescriptor_step {k : Nat} (hk : k < 10) :
    (WideRegister.lastIndexDescriptor.value (step s i).regs).getLsbD k =
      if i.host.en = true ∧ i.host.addr = WideRegister.lastIndexDescriptor.word ∧
          i.host.we.getLsbD 0 = true then i.host.din.getLsbD k
      else (WideRegister.lastIndexDescriptor.value s.regs).getLsbD k := by
  have hwrites : (i.host.writesRegister 1 && i.host.we.getLsbD 0) = true ↔
      i.host.en = true ∧ i.host.addr = WideRegister.lastIndexDescriptor.word ∧
        i.host.we.getLsbD 0 = true := by
    rw [Bool.and_eq_true,
      writesRegister_iff i.host (k := 1) (a := WideRegister.lastIndexDescriptor.word) rfl]
    constructor
    · rintro ⟨⟨hen, -, haddr⟩, hbit⟩
      exact ⟨hen, haddr, hbit⟩
    · rintro ⟨hen, haddr, hbit⟩
      exact ⟨⟨hen, ne_zero_of_getLsbD hbit, haddr⟩, hbit⟩
  have hvalue : WideRegister.lastIndexDescriptor.value (step s i).regs =
      (if (i.host.writesRegister 1 && i.host.we.getLsbD 0) = true then i.host.din.setWidth 10
        else s.regs.lastIndexDescriptor).setWidth 64 := rfl
  rw [hvalue]
  simp only [hwrites]
  split
  · simp [show k < 64 by omega, hk]
  · rfl

variable {s i}

/-- A register of 64 bits follows the bytes. -/
theorem WideRegister.Agrees.step {r : WideRegister} (hr : r ≠ .lastIndexDescriptor)
    {m : ByteMemory (BitVec 16)} (h : r.Agrees s.regs m) :
    r.Agrees (Manager.step s i).regs (i.host.storeBytes m) := by
  have hwidth : r.width = 64 := by cases r <;> first | rfl | exact absurd rfl hr
  intro k hk
  rw [r.value_step s i hr (by omega), getLsbD_storeBytes, h k hk]

/-- Equal values of the second byte of the last index, bit by bit. -/
theorem upperBits_eq_iff {d : BitVec 64} {x : BitVec 10} :
    d.extractLsb' 8 2 = x.extractLsb' 8 2 ↔ ∀ k, 8 ≤ k → k < 10 → d.getLsbD k = x.getLsbD k := by
  constructor
  · intro heq k h8 h10
    have hbit := congrArg (fun y : BitVec 2 => y.getLsbD (k - 8)) heq
    simpa [show k - 8 < 2 by omega, show 8 + (k - 8) = k by omega] using hbit
  · intro hall
    apply BitVec.eq_of_getLsbD_eq
    intro k hk
    simpa [hk] using hall (8 + k) (by omega) (by omega)

/-- The last index follows its two bytes exactly in the accesses that leave nothing to the second byte
enable. -/
theorem lastIndexDescriptor_agrees_iff {m : ByteMemory (BitVec 16)}
    (h : WideRegister.lastIndexDescriptor.Agrees s.regs m) :
    WideRegister.lastIndexDescriptor.Agrees (step s i).regs (i.host.storeBytes m) ↔
      IndexLanes s.regs i.host := by
  have hiff := writesRegister_iff i.host (k := 1) (a := WideRegister.lastIndexDescriptor.word) rfl
  have hold : ∀ k, k < 10 → (WideRegister.lastIndexDescriptor.value s.regs).getLsbD k =
      s.regs.lastIndexDescriptor.getLsbD k := by
    intro k hk
    simp [WideRegister.value, show k < 64 by omega]
  constructor
  · -- the register took the second byte with the enable of the first one
    intro hnext hwrites hne
    rw [upperBits_eq_iff]
    intro k h8 h10
    have hlane : k / 8 = 1 := by omega
    have hk := hnext k h10
    rw [lastIndexDescriptor_step s i h10, getLsbD_storeBytes, ← h k h10, hlane, hold k h10] at hk
    obtain ⟨hen, -, haddr⟩ := hiff.mp hwrites
    cases h0 : i.host.we.getLsbD 0 <;> cases h1 : i.host.we.getLsbD 1 <;>
      simp_all
  · intro hlanes k h10
    have h10 : k < 10 := h10
    rw [lastIndexDescriptor_step s i h10, getLsbD_storeBytes, ← h k h10, hold k h10]
    by_cases hfirst : k / 8 = 0
    · rw [hfirst]
    · -- only the two bits of the second byte can differ
      have hlane : k / 8 = 1 := by omega
      rw [hlane]
      by_cases hsame : i.host.we.getLsbD 0 = i.host.we.getLsbD 1
      · rw [hsame]
      · by_cases hsel : i.host.en = true ∧ i.host.addr = WideRegister.lastIndexDescriptor.word
        · have hwe : i.host.we ≠ 0 := by
            intro hzero
            rw [hzero] at hsame
            exact hsame rfl
          have hwrites := hiff.mpr ⟨hsel.1, hwe, hsel.2⟩
          have hstay := upperBits_eq_iff.mp (hlanes hwrites hsame) k (by omega) h10
          rw [hstay, ite_self, ite_self]
        · rw [if_neg (fun hall => hsel ⟨hall.1, hall.2.1⟩),
            if_neg (fun hall => hsel ⟨hall.1, hall.2.1⟩)]

end Registers

/-! ### Every run -/

/-- The registers hold what a memory of bytes would hold. -/
def ByteLaw (defaultWindowSize : Nat) (memories : Memories) (inp : Run) : Prop :=
  ∀ t (r : WideRegister),
    r.Agrees (st defaultWindowSize memories inp t).regs (bytes defaultWindowSize inp t)

/-- A write of a whole word, and the two halves of it as the completer passes them on. -/
def wholeWrite (addr : BitVec 16) (d : BitVec 64) : HostAccess where
  en := true
  addr := addr
  din := d
  we := 0xff

def lowerWrite (addr : BitVec 16) (d : BitVec 64) : HostAccess where
  en := true
  addr := addr
  din := 0#32 ++ d.extractLsb' 0 32
  we := 0x0f

def upperWrite (addr : BitVec 16) (d : BitVec 64) : HostAccess where
  en := true
  addr := addr
  din := d.extractLsb' 32 32 ++ 0#32
  we := 0xf0

/-- The cycle `i` with another access of the host. -/
def Input.access (i : Input) (h : HostAccess) : Input := { i with host := h }

/-- A write of a word and its two halves, in either order, leave the same registers. -/
def HalvesAgree : Prop :=
  ∀ (s : State) (i j k : Input) (addr : BitVec 16) (d : BitVec 64) (r : WideRegister),
    r.value (step (step s (i.access (lowerWrite addr d))) (j.access (upperWrite addr d))).regs =
        r.value (step s (k.access (wholeWrite addr d))).regs ∧
      r.value (step (step s (i.access (upperWrite addr d))) (j.access (lowerWrite addr d))).regs =
        r.value (step s (k.access (wholeWrite addr d))).regs

section Runs

variable {defaultWindowSize : Nat} {memories : Memories} {inp : Run}

theorem st_succ (t : Nat) : st defaultWindowSize memories inp (t + 1) =
    step (st defaultWindowSize memories inp t) (inp t) := rfl

/-- After reset all registers agree. -/
theorem agrees_reset (r : WideRegister) :
    r.Agrees (st defaultWindowSize memories inp 0).regs (bytes defaultWindowSize inp 0) := by
  intro k hk
  have hmod : 8 * (k / 8) + k % 8 = k := Nat.div_add_mod k 8
  have hlt : k % 8 < 8 := Nat.mod_lt k (by decide)
  have hregs : (st defaultWindowSize memories inp 0).regs = (reset defaultWindowSize memories).regs :=
    rfl
  have hbytes : bytes defaultWindowSize inp 0 = resetBytes defaultWindowSize := rfl
  rw [hregs, hbytes]
  cases r with
  | windowSize =>
      rw [resetBytes, if_pos rfl, byte, BitVec.getLsbD_extractLsb', hmod, decide_eq_true hlt,
        Bool.true_and]
      rfl
  | _ =>
      rw [resetBytes, if_neg (by decide)]
      simp [WideRegister.value, reset]

end Runs

/-- The byte enables of the three writes. -/
theorem lanes (b : Nat) (hb : b < 64) :
    (0x0f#8).getLsbD (b / 8) = decide (b < 32) ∧ (0xf0#8).getLsbD (b / 8) = decide (32 ≤ b) ∧
      (0xff#8).getLsbD (b / 8) = true := by
  have hall : ∀ c : Fin 8, (0x0f#8).getLsbD c.val = decide (c.val < 4) ∧
      (0xf0#8).getLsbD c.val = decide (4 ≤ c.val) ∧ (0xff#8).getLsbD c.val = true := by decide
  obtain ⟨h1, h2, h3⟩ := hall ⟨b / 8, by omega⟩
  have hlow : b / 8 < 4 ↔ b < 32 := by omega
  have hhigh : 4 ≤ b / 8 ↔ 32 ≤ b := by omega
  exact ⟨h1.trans (decide_eq_decide.mpr hlow), h2.trans (decide_eq_decide.mpr hhigh), h3⟩

theorem lowerWrite_din (addr : BitVec 16) (d : BitVec 64) {b : Nat} (hb : b < 32) :
    (lowerWrite addr d).din.getLsbD b = d.getLsbD b := by
  have hdin : (lowerWrite addr d).din = 0#32 ++ d.extractLsb' 0 32 := rfl
  rw [hdin, BitVec.getLsbD_append, if_pos hb]
  simp [hb]

theorem upperWrite_din (addr : BitVec 16) (d : BitVec 64) {b : Nat} (hb : b < 64) (h : 32 ≤ b) :
    (upperWrite addr d).din.getLsbD b = d.getLsbD b := by
  have hdin : (upperWrite addr d).din = d.extractLsb' 32 32 ++ 0#32 := rfl
  rw [hdin, BitVec.getLsbD_append, if_neg (by omega)]
  simp [show b - 32 < 32 by omega, show 32 + (b - 32) = b by omega]

/-- A register of 64 bits takes each half from the write that enables it. -/
theorem halves_value (s : State) (i j k : Input) (addr : BitVec 16) (d : BitVec 64)
    {r : WideRegister} (hr : r ≠ .lastIndexDescriptor) {b : Nat} (hb : b < 64) :
    (r.value (step (step s (i.access (lowerWrite addr d)))
        (j.access (upperWrite addr d))).regs).getLsbD b =
        (r.value (step s (k.access (wholeWrite addr d))).regs).getLsbD b ∧
      (r.value (step (step s (i.access (upperWrite addr d)))
        (j.access (lowerWrite addr d))).regs).getLsbD b =
        (r.value (step s (k.access (wholeWrite addr d))).regs).getLsbD b := by
  obtain ⟨hlow, hhigh, hfull⟩ := lanes b hb
  -- three guards that differ only in the byte enable of the bit
  simp only [r.value_step _ _ hr hb, Input.access]
  have hl : (lowerWrite addr d).we = 0x0f#8 := rfl
  have hu : (upperWrite addr d).we = 0xf0#8 := rfl
  have hw : (wholeWrite addr d).we = 0xff#8 := rfl
  have hea : (lowerWrite addr d).en = true ∧ (upperWrite addr d).en = true ∧
      (wholeWrite addr d).en = true := ⟨rfl, rfl, rfl⟩
  have haddr : (lowerWrite addr d).addr = addr ∧ (upperWrite addr d).addr = addr ∧
      (wholeWrite addr d).addr = addr := ⟨rfl, rfl, rfl⟩
  have hdin : (wholeWrite addr d).din = d := rfl
  rw [hl, hu, hw, hlow, hhigh, hfull, hdin]
  simp only [hea, haddr]
  by_cases hword : addr = r.word
  · by_cases hb32 : b < 32
    · simp [hword, hb32, show ¬ 32 ≤ b by omega]
      rw [← hword, lowerWrite_din addr d hb32]
    · simp [hword, hb32, show 32 ≤ b by omega]
      rw [← hword, upperWrite_din addr d hb (by omega)]
  · simp [hword]

/-- Both bytes of the last index lie in the lower half. -/
theorem halves_lastIndex (s : State) (i j k : Input) (addr : BitVec 16) (d : BitVec 64) {b : Nat}
    (hb : b < 10) :
    (WideRegister.lastIndexDescriptor.value (step (step s (i.access (lowerWrite addr d)))
        (j.access (upperWrite addr d))).regs).getLsbD b =
        (WideRegister.lastIndexDescriptor.value
          (step s (k.access (wholeWrite addr d))).regs).getLsbD b ∧
      (WideRegister.lastIndexDescriptor.value (step (step s (i.access (upperWrite addr d)))
        (j.access (lowerWrite addr d))).regs).getLsbD b =
        (WideRegister.lastIndexDescriptor.value
          (step s (k.access (wholeWrite addr d))).regs).getLsbD b := by
  have hdin := lowerWrite_din addr d (show b < 32 by omega)
  have hl : (lowerWrite addr d).we.getLsbD 0 = true := show (0x0f#8).getLsbD 0 = true by decide
  have hu : (upperWrite addr d).we.getLsbD 0 = false := show (0xf0#8).getLsbD 0 = false by decide
  have hw : (wholeWrite addr d).we.getLsbD 0 = true := show (0xff#8).getLsbD 0 = true by decide
  -- the upper half has no enable for the register and leaves it alone
  simp only [lastIndexDescriptor_step _ _ hb, Input.access, hl, hu, hw, hdin]
  simp [lowerWrite, wholeWrite]

/-- The bits that a register has decide about its value. -/
theorem WideRegister.value_ext {r : WideRegister} {regs regs' : Registers}
    (h : ∀ b, b < r.width → (r.value regs).getLsbD b = (r.value regs').getLsbD b) :
    r.value regs = r.value regs' := by
  apply BitVec.eq_of_getLsbD_eq
  intro b hb
  by_cases hlt : b < r.width
  · exact h b hlt
  · cases r with
    | lastIndexDescriptor =>
        have hge : 10 ≤ b := Nat.le_of_not_lt hlt
        simp only [WideRegister.value, BitVec.getLsbD_setWidth, BitVec.getLsbD_of_ge _ _ hge]
    | _ =>
        exact absurd hb hlt

theorem halvesAgree : HalvesAgree := by
  intro s i j k addr d r
  by_cases hr : r = .lastIndexDescriptor
  · subst hr
    exact ⟨WideRegister.value_ext fun _ hb => (halves_lastIndex s i j k addr d hb).1,
      WideRegister.value_ext fun _ hb => (halves_lastIndex s i j k addr d hb).2⟩
  · exact ⟨BitVec.eq_of_getLsbD_eq fun _ hb => (halves_value s i j k addr d hr hb).1,
      BitVec.eq_of_getLsbD_eq fun _ hb => (halves_value s i j k addr d hr hb).2⟩

/-- The engine registers follow a memory of bytes in exactly the runs that never write one byte of the
last index and change the other one.  Words and halves of words always agree. -/
theorem byte_enable_law (defaultWindowSize : Nat) (memories : Memories) (inp : Run) :
    (ByteLaw defaultWindowSize memories inp ↔
      ∀ t, IndexLanes (st defaultWindowSize memories inp t).regs (inp t).host) ∧ HalvesAgree := by
  refine ⟨⟨?_, ?_⟩, halvesAgree⟩
  · intro hlaw t
    exact (lastIndexDescriptor_agrees_iff (hlaw t _)).mp (hlaw (t + 1) _)
  · intro hlanes t
    induction t with
    | zero =>
        exact agrees_reset
    | succ t ih =>
        intro r
        by_cases hr : r = .lastIndexDescriptor
        · subst hr
          exact (lastIndexDescriptor_agrees_iff (ih _)).mpr (hlanes t)
        · exact (ih r).step hr

/-- A cycle in which nothing happens. -/
def silent : Input where
  host := { en := false, addr := 0, din := 0, we := 0 }
  isEndOfOperation := false
  operationError := false
  byteCount := 0
  updateLatency := false
  current := { time := 0, reqTime := 0, compTime := 0, reqBytes := 0, compBytes := 0 }
  collisions :=
    { size := 0
      address := 0
      control := 0
      statistics := { time := 0, reqTime := 0, compTime := 0, reqBytes := 0, compBytes := 0 } }

/-- A single access of the host, in the first cycle. -/
def oneAccess (h : HostAccess) : Run := fun t => if t = 0 then silent.access h else silent

/-- Memories full of zeros. -/
def Memories.zero : Memories :=
  let bram : Bram Index := { mem := fun _ => 0, douta := 0, latchb := 0, doutb := 0 }
  { size := bram
    address := bram
    control := bram
    time := bram
    reqTime := bram
    compTime := bram
    reqBytes := bram
    compBytes := bram }

/-- The second byte of the last index, written alone, is lost. -/
theorem index_byte_lost :
    ¬ ByteLaw 24 .zero (oneAccess { en := true, addr := 0x201, din := 0x300, we := 0x02 }) := by
  intro hlaw
  have hbit := hlaw 1 .lastIndexDescriptor 8 (by decide)
  revert hbit
  decide

end Manager
end PcieBench
