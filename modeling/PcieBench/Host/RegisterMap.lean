import PcieBench.Host.DmaCore
import PcieBench.Manager.ReadBack
import PcieBench.Manager.Statistics

/-!
# struct dma_core and the registers of BAR 0

What an access to a field of the struct writes and what a read of it returns, for every data and byte
enables.  The two sides agree on the place of every field in front of the common block.  They do not
agree on everything else: the last index has one byte enable, the word of `total_bytes` is written as
the window, and most of what the host sets is read as something else.
-/

namespace PcieBench
namespace Host
namespace RegisterMap

open Clocked Tlp
open Bar0 (StatField wordAddr forwarded commonBlock)
open Manager (HostAccess Index Memories Registers TableField WideRegister selects)
open Rq (Params)

/-! ## What the core has for a field -/

/-- The engine registers that the host writes. -/
inductive Register
  | enable
  | reset
  | capabilityC2s
  | capabilityS2c
  | addressMode
  | wide (r : WideRegister)
  deriving DecidableEq, Repr

namespace Register

/-- The address of a register; the first five share the control word. -/
def word : Register → BitVec 16
  | .wide r => r.word
  | _ => 0x200

def width : Register → Nat
  | .wide r => r.width
  | .addressMode => 2
  | _ => 1

/-- What a register holds, in 64 bits. -/
def value (r : Register) (regs : Registers) : BitVec 64 :=
  match r with
  | .enable => (BitVec.ofBool regs.enable).setWidth 64
  | .reset => (BitVec.ofBool regs.reset).setWidth 64
  | .capabilityC2s => (regs.capabilities.extractLsb' 0 1).setWidth 64
  | .capabilityS2c => (regs.capabilities.extractLsb' 1 1).setWidth 64
  | .addressMode => regs.addressMode.setWidth 64
  | .wide r => r.value regs

end Register

/-- The register or memory slot behind a field. -/
inductive Target
  | register (r : Register)
  | time
  | byteCount
  | slot (f : TableField) (j : Index)
  | statistic (f : StatField) (j : Index)
  | maxPayload
  | maxReadRequest
  | userReset
  deriving DecidableEq, Repr

/-- The fields that the core implements. -/
def Field.target : Field → Option Target
  | .engine .enable => some (.register .enable)
  | .engine .reset => some (.register .reset)
  | .engine .isC2s => some (.register .capabilityC2s)
  | .engine .isS2c => some (.register .capabilityS2c)
  | .engine .addressMode => some (.register .addressMode)
  | .engine .completeUntilDescriptor => some (.register (.wide .lastIndexDescriptor))
  | .engine .totalTime => some .time
  | .engine .totalBytes => some .byteCount
  | .engine .hostBufferSize => some (.register (.wide .bufferAtHost))
  | .engine .addressOffset => some (.register (.wide .addressGenOffset))
  | .engine .addressInc => some (.register (.wide .addressGenIncr))
  | .engine .numberOfTlps => some (.register (.wide .numberTlps))
  | .descriptor j .address => some (.slot .address j)
  | .descriptor j .size => some (.slot .size j)
  | .descriptor j .latency => some (.statistic .latency j)
  | .descriptor j .timeAtReq => some (.statistic .timeAtReq j)
  | .descriptor j .timeAtComp => some (.statistic .timeAtComp j)
  | .descriptor j .bytesAtReq => some (.statistic .bytesAtReq j)
  | .descriptor j .bytesAtComp => some (.statistic .bytesAtComp j)
  | .common .maxPayload => some .maxPayload
  | .common .maxReadRequest => some .maxReadRequest
  | .common .userReset => some .userReset
  -- padding, interrupts and `engine_finished` have no register
  | _ => none

/-! ## What an access selects -/

/-- The same inputs without the access of the host. -/
def silenced (i : Manager.Input) : Manager.Input := { i with host := { i.host with en := false } }

/-- The access leaves an engine register alone. -/
def Spares (r : Register) (h : HostAccess) : Prop :=
  ∀ (s : Manager.State) (i : Manager.Input), i.host = h →
    r.value (Manager.step s i).regs = r.value (Manager.step s (silenced i)).regs

/-- The bits of a register in the enabled bytes take the data from bit `bit` on, the others are as they
would be without the access. -/
def Stores (r : Register) (bit : Nat) (h : HostAccess) : Prop :=
  ∀ (s : Manager.State) (i : Manager.Input), i.host = h → ∀ k, k < r.width →
    (r.value (Manager.step s i).regs).getLsbD k =
      if h.we.getLsbD ((bit + k) / 8) then h.din.getLsbD (bit + k)
      else (r.value (Manager.step s (silenced i)).regs).getLsbD k

/-- The enabled bytes of a slot take the data two cycles later, unless the statistics are updated in the
cycle of the access. -/
def Fills (f : TableField) (j : Index) (h : HostAccess) : Prop :=
  ∀ (defaultWindowSize : Nat) (memories : Memories) (inp : Manager.Run) (t : Nat),
    (inp t).host = h → (inp t).updateLatency = false →
      f.mem defaultWindowSize memories inp (t + 2) j =
        writeBytes h.we (f.mem defaultWindowSize memories inp (t + 1) j) h.din

/-- An access to the word of `t` stores its enabled bytes there and nothing anywhere else.  The field has
`width` bits from bit `bit` of the word on. -/
def WritesTo (t : Target) (bit width : Nat) (h : HostAccess) : Prop :=
  match t with
  | .register r =>
      r.width ≤ width ∧ Stores r bit h ∧ (∀ r', r'.word ≠ r.word → Spares r' h) ∧
        (∀ f k, ¬ selects h f k) ∧ h.word ≠ commonBlock
  | .slot f j =>
      bit = 0 ∧ width = 64 ∧ Fills f j h ∧ (∀ r, Spares r h) ∧
        (∀ f' k, selects h f' k ↔ f' = f ∧ k = j) ∧ h.word ≠ commonBlock
  -- what the core measures takes no data
  | .time | .byteCount | .statistic _ _ =>
      (∀ r, Spares r h) ∧ (∀ f k, ¬ selects h f k) ∧ h.word ≠ commonBlock
  | .maxPayload | .maxReadRequest => h.word = commonBlock
  | .userReset => ∀ s : Bar0.System, s.access = h →
      s.userReset = (h.we.getLsbD (bit / 8) && h.din.getLsbD bit)

/-- A read of a word from cycle `r` on.  The completer keeps the address until the acknowledgement and
starts no other access; the statistics are not updated in the cycle of the access. -/
structure WordRead (inp : Manager.Run) (r : Nat) (a : BitVec 32) : Prop where
  en : (inp r).host.en = true
  we : (inp r).host.we = 0
  word : ∀ v, r ≤ v → v ≤ r + 3 → (inp v).host.word = a
  alone : ∀ v, r < v → v ≤ r + 3 → (inp v).host.en = false
  noUpdate : (inp r).updateLatency = false

/-- The content of a register or slot along the runs of the manager. -/
abbrev Content := Nat → Memories → Manager.Run → Nat → BitVec 64

/-- A read of the word is acknowledged with the content in the bits of the field. -/
def Shows (x : Content) (bit width : Nat) (a : BitVec 32) : Prop :=
  ∀ (defaultWindowSize : Nat) (memories : Memories) (inp : Manager.Run) (r : Nat),
    WordRead inp r a →
      (Manager.st defaultWindowSize memories inp (r + 4)).read.ack = true ∧
        ∀ k, k < width →
          (Manager.st defaultWindowSize memories inp (r + 4)).dout.getLsbD (bit + k) =
            (x defaultWindowSize memories inp r).getLsbD k

/-- The common block answers an access in the next cycle, with `x` in bits of the field. -/
def Answers (bit : Nat) {w : Nat} (x : Params → BitVec w) (a : BitVec 32) : Prop :=
  ∀ (P : Params) (s : Bar0.System), s.access.en = true → s.access.word = a →
    (Bar0.nextCtrl P s).ack = true ∧ (Bar0.nextCtrl P s).dout.extractLsb' bit w = x P

/-- A read of the word of `t` returns what `t` holds: a register in the cycle of the access, a slot in
the next one, when its memory is read. -/
def ReadsFrom (t : Target) (bit width : Nat) (a : BitVec 32) : Prop :=
  match t with
  | .register r => Shows (fun w m inp c => r.value (Manager.st w m inp c).regs) bit width a
  | .time => Shows (fun w m inp c => (Manager.st w m inp c).progress.time) bit width a
  | .byteCount => Shows (fun w m inp c => (Manager.st w m inp c).progress.byteCount) bit width a
  | .slot f j => Shows (fun w m inp c => f.mem w m inp (c + 1) j) bit width a
  | .statistic f j =>
      Shows (fun w m inp c => f.content (Manager.st w m inp (c + 1)) (inp (c + 1)) j) bit width a
  | .maxPayload => Answers bit (fun P => BitVec.ofInt 3 (P.log2MaxPayload - 7)) a
  | .maxReadRequest => Answers bit (fun P => BitVec.ofInt 3 (P.log2MaxReadRequest - 7)) a
  -- the register resets itself and is never seen
  | .userReset => Answers bit (fun _ => 0#1) a

/-- Every access to the word of the field, with any data and byte enables, writes what the core has for
it and nothing else. -/
def Field.WritesAgree (f : Field) : Prop :=
  ∀ t, f.target = some t → ∀ b, f.Addressed b →
    forwarded b = true ∧
      ∀ h : HostAccess, h.en = true → h.word = wordAddr b → WritesTo t f.bit f.width h

/-- Every read of the word of the field returns what the core has for it. -/
def Field.ReadsAgree (f : Field) : Prop :=
  ∀ t, f.target = some t → ∀ b, f.Addressed b →
    forwarded b = true ∧ ReadsFrom t f.bit f.width (wordAddr b)

/-- The struct and the core agree on a field. -/
def Field.Agrees (f : Field) : Prop := f.WritesAgree ∧ f.ReadsAgree

/-- The fields whose writes go where the struct has them.  The last index has one byte enable for its
ten bits, a write of `total_bytes` sets the window, and the common block is eight words off. -/
def Field.keepsWrites : Field → Bool
  | .engine .completeUntilDescriptor => false
  | .engine .totalBytes => false
  | .common _ => false
  | _ => true

/-- The fields that the host reads back as the struct has them.  Of the control word it reads the first
two bits, of the next registers the two counters, and of what it writes to a descriptor the size. -/
def Field.keepsReads : Field → Bool
  | .engine .enable => true
  | .engine .reset => true
  | .engine .totalTime => true
  | .engine .totalBytes => true
  | .descriptor _ .address => false
  | .descriptor _ _ => true
  | _ => false

/-! ## The decoders -/

section Decoders

variable {h : HostAccess}

/-- Without an access nothing is written. -/
theorem silenced_writesRegister (i : Manager.Input) (k : BitVec 32) :
    (silenced i).host.writesRegister k = false := by
  simp [silenced, HostAccess.writesRegister]

/-- An access to another word does not write the register at offset `k`. -/
theorem not_writesRegister {k : BitVec 32} {a : BitVec 16}
    (hk : Manager.engineTableOffset + k = a.setWidth 32) (hne : h.addr ≠ a) :
    h.writesRegister k = false := by
  rw [Bool.eq_false_iff]
  intro hwrites
  exact hne ((Manager.writesRegister_iff h hk).mp hwrites).2.2

/-- An access that misses the word of a register spares it. -/
theorem spares_of_ne {r : Register} (hne : h.addr ≠ r.word) : Spares r h := by
  rintro s i rfl
  have hstore : ∀ (k : BitVec 32) (a : BitVec 16) (old : BitVec 64),
      Manager.engineTableOffset + k = a.setWidth 32 → i.host.addr ≠ a →
        i.host.store k old = (silenced i).host.store k old := by
    intro k a old hk ha
    rw [HostAccess.store, HostAccess.store, not_writesRegister hk ha, silenced_writesRegister,
      if_neg Bool.false_ne_true, if_neg Bool.false_ne_true]
  have hcontrol : i.host.addr ≠ 0x200 →
      i.host.writesControl = false ∧ (silenced i).host.writesControl = false := by
    intro ha
    rw [HostAccess.writesControl, HostAccess.writesControl, not_writesRegister (by rfl) ha,
      silenced_writesRegister]
    exact ⟨rfl, rfl⟩
  cases r with
  | wide r =>
      cases r with
      | lastIndexDescriptor =>
          have hno := not_writesRegister (k := 1) (by rfl) hne
          have hsilent := silenced_writesRegister i 1
          simp only [Register.value, WideRegister.value, Manager.step_regs, Manager.nextRegisters,
            hno, hsilent, Bool.false_and]
          rfl
      | windowSize =>
          exact hstore 3 _ _ (by rfl) hne
      | bufferAtHost =>
          exact hstore 4 _ _ (by rfl) hne
      | addressGenOffset =>
          exact hstore 5 _ _ (by rfl) hne
      | addressGenIncr =>
          exact hstore 6 _ _ (by rfl) hne
      | numberTlps =>
          exact hstore 7 _ _ (by rfl) hne
  | _ =>
      obtain ⟨hno, hsilent⟩ := hcontrol hne
      simp [Register.value, Manager.nextRegisters, hno, hsilent]

/-- The first bit of a register in its word. -/
def Register.bit : Register → Nat
  | .enable => 0
  | .reset => 1
  | .capabilityC2s => 2
  | .capabilityS2c => 3
  | .addressMode => 4
  | .wide _ => 0

theorem silenced_writesControl (i : Manager.Input) : (silenced i).host.writesControl = false := by
  rw [HostAccess.writesControl, silenced_writesRegister]
  rfl

/-- The control word is written by its first byte enable. -/
theorem writesControl_eq (hen : h.en = true) (haddr : h.addr = 0x200) :
    h.writesControl = h.we.getLsbD 0 := by
  rw [HostAccess.writesControl]
  cases hwe : h.we.getLsbD 0 with
  | false =>
      rw [Bool.and_false]
  | true =>
      rw [Bool.and_true]
      exact (Manager.writesRegister_iff h (a := 0x200) (by rfl)).mpr
        ⟨hen, Manager.ne_zero_of_getLsbD hwe, haddr⟩

/-- The registers store the enabled bytes of an access to their word.  The last index takes its second
byte with the first one. -/
theorem stores {r : Register} (hr : r ≠ .wide .lastIndexDescriptor) (hen : h.en = true)
    (haddr : h.addr = r.word) : Stores r r.bit h := by
  rintro s i rfl k hk
  have hcontrol : r.word = 0x200 → i.host.writesControl = i.host.we.getLsbD 0 :=
    fun hword => writesControl_eq hen (haddr.trans hword)
  have hsilent := silenced_writesControl i
  cases r with
  | wide r =>
      have hne : r ≠ .lastIndexDescriptor := fun heq => hr (by rw [heq])
      have hk64 : k < 64 := by
        cases r <;> first | exact hk | exact absurd rfl hne
      have haddr : i.host.addr = r.word := haddr
      simp only [Register.value, Register.bit, r.value_step _ _ hne hk64, hen, haddr, silenced,
        Nat.zero_add, true_and, Bool.false_eq_true, false_and, if_false]
  | enable | reset | capabilityC2s | capabilityS2c =>
      obtain rfl : k = 0 := Nat.lt_one_iff.mp hk
      have hwrites := hcontrol rfl
      simp only [Register.value, Register.bit, Manager.step_regs, Manager.nextRegisters, hwrites, hsilent]
      cases i.host.we.getLsbD 0 <;> simp
  | addressMode =>
      have hwrites := hcontrol rfl
      have hk2 : k < 2 := hk
      have hlane : (4 + k) / 8 = 0 := by omega
      simp only [Register.value, Register.bit, Manager.step_regs, Manager.nextRegisters, hwrites,
        hsilent, hlane]
      cases i.host.we.getLsbD 0 <;> simp [hk2, show k < 64 by omega]

/-- The engine registers lie in front of the table. -/
theorem Register.word_lt (r : Register) : r.word.toNat < 0x208 := by
  cases r with
  | wide r =>
      cases r <;> decide
  | _ =>
      decide

/-- Only one word of BAR 0 is the common block. -/
theorem word_ne_commonBlock (hne : h.addr.toNat ≠ 0x8200) : h.word ≠ commonBlock := by
  intro heq
  have hnat := congrArg BitVec.toNat heq
  rw [word_toNat] at hnat
  exact hne hnat

theorem not_selects (hlow : h.addr.toNat < 0x208) (f : TableField) (k : Index) :
    ¬ selects h f k := by
  rintro ⟨htable, -⟩
  have hrange := (Manager.inTable_iff h).mp htable
  omega

variable {f : Field} {b : CqBeat}

/-- An access to one of the first words touches nothing behind them. -/
theorem confined (hlow : h.addr.toNat < 0x208) :
    (∀ f k, ¬ selects h f k) ∧ h.word ≠ commonBlock :=
  ⟨not_selects hlow, word_ne_commonBlock (by omega)⟩

/-- An access to the word of a register writes it. -/
theorem Field.Addressed.writes_register (hb : f.Addressed b) {r : Register}
    (hr : r ≠ .wide .lastIndexDescriptor) (hfield : f.word = r.word.toNat) (hbit : f.bit = r.bit)
    (hwidth : r.width ≤ f.width) (hen : h.en = true) (hword : h.word = wordAddr b) :
    WritesTo (.register r) f.bit f.width h := by
  have haddr : h.addr = r.word := by
    apply BitVec.eq_of_toNat_eq
    rw [hb.addr_toNat hword, hfield]
  have hlow : h.addr.toNat < 0x208 := by
    rw [haddr]
    exact r.word_lt
  refine ⟨hwidth, ?_, ?_, confined hlow⟩
  · rw [hbit]
    exact stores hr hen haddr
  · intro r' hne
    refine spares_of_ne ?_
    rw [haddr]
    exact hne.symm

/-- An access behind the engine registers spares them. -/
theorem spares_of_le (hhigh : 0x208 ≤ h.addr.toNat) (r : Register) : Spares r h := by
  refine spares_of_ne ?_
  intro heq
  have hlow := r.word_lt
  rw [heq] at hhigh
  omega

/-- An access to a word of the table selects its slot. -/
theorem selects_word {g : TableField} {j : Index} (hen : h.en = true) (haddr : h.addr.toNat = g.word j)
    (g' : TableField) (k : Index) : selects h g' k ↔ g' = g ∧ k = j := by
  have hk := k.isLt
  have hj := j.isLt
  have hplace := haddr
  rw [TableField.word] at hplace
  have hoffset : g.offset.toNat < 3 := by cases g <;> decide
  have hoffset' : g'.offset.toNat < 3 := by cases g' <;> decide
  -- the word behind the table still counts as part of it
  have hend : h.addr ≠ 0x2208 := by
    intro heq
    rw [heq] at hplace
    have hval : (0x2208 : BitVec 16).toNat = 0x2208 := rfl
    omega
  rw [Manager.selects_iff h hend, haddr]
  constructor
  · rintro ⟨-, heq⟩
    rw [TableField.word, TableField.word] at heq
    have hg : g'.offset.toNat = g.offset.toNat := by omega
    refine ⟨?_, BitVec.eq_of_toNat_eq (by omega)⟩
    cases g <;> cases g' <;> first | rfl | cases hg
  · rintro ⟨rfl, rfl⟩
    exact ⟨hen, rfl⟩

/-- An access to a word of the table writes its slot. -/
theorem Field.Addressed.writes_slot (hb : f.Addressed b) {g : TableField} {j : Index}
    (hfield : f.word = g.word j) (hbit : f.bit = 0) (hwidth : f.width = 64) (hen : h.en = true)
    (hword : h.word = wordAddr b) : WritesTo (.slot g j) f.bit f.width h := by
  have haddr : h.addr.toNat = g.word j := by rw [hb.addr_toNat hword, hfield]
  have hrange := g.word_range j
  have hselects := selects_word hen haddr
  refine ⟨hbit, hwidth, ?_, spares_of_le (by omega), hselects, word_ne_commonBlock (by omega)⟩
  rintro defaultWindowSize memories inp t rfl hupdate
  rw [Manager.mem_after, if_pos ⟨hupdate, (hselects g j).mpr ⟨rfl, rfl⟩⟩]

/-- An access to a statistics word writes nothing. -/
theorem Field.Addressed.writes_statistic (hb : f.Addressed b) {g : StatField} {j : Index}
    (hfield : f.word = (g.word j).toNat) (hword : h.word = wordAddr b) :
    WritesTo (.statistic g j) f.bit f.width h := by
  have hj := j.isLt
  have haddr : h.addr.toNat = (g.word j).toNat := by rw [hb.addr_toNat hword, hfield]
  have hplace := (g.word_toNat j).1
  have hoffset := (g.word_toNat j).2
  refine ⟨spares_of_le (by omega), ?_, word_ne_commonBlock (by omega)⟩
  intro g' k hselects
  have hoffset' : g'.offset.toNat < 3 := by cases g' <;> decide
  have hfield' := (Manager.effectiveField_iff h g').mp hselects.2.1
  omega

end Decoders

/-! ## The read path -/

section Reads

variable {defaultWindowSize : Nat} {memories : Memories} {inp : Manager.Run} {r : Nat} {a : BitVec 32}

theorem WordRead.addr (h : WordRead inp r a) {v : Nat} (hrv : r ≤ v) (hvr : v ≤ r + 3) :
    (inp v).host.addr.toNat = a.toNat := by
  rw [← word_toNat, h.word v hrv hvr]

/-- The acknowledgement takes four cycles. -/
theorem WordRead.ack (h : WordRead inp r a) :
    (Manager.st defaultWindowSize memories inp (r + 4)).read.ack = true := by
  simp [Manager.st_succ, Manager.nextRead, h.en]

/-- One of the first engine registers is taken in the cycle of the access and stays, as no other access
comes before the acknowledgement. -/
theorem WordRead.dout_engine (h : WordRead inp r a) {x : BitVec 64}
    (hread : Manager.engineRead (Manager.st defaultWindowSize memories inp r) (inp r) = some x) :
    (Manager.st defaultWindowSize memories inp (r + 4)).dout = x := by
  have h1 := h.alone (r + 1) (by omega) (by omega)
  have h2 := h.alone (r + 2) (by omega) (by omega)
  have h3 := h.alone (r + 3) (by omega) (by omega)
  simp [Manager.State.dout, Manager.st_succ, Manager.nextRead, h.en, h1, h2, h3, hread]

theorem shows_of_engineRead {x : Content} {bit width : Nat}
    (hshows : ∀ (defaultWindowSize : Nat) (memories : Memories) (inp : Manager.Run) (r : Nat),
      (inp r).host.word = a → ∃ y,
        Manager.engineRead (Manager.st defaultWindowSize memories inp r) (inp r) = some y ∧
          ∀ k, k < width → y.getLsbD (bit + k) = (x defaultWindowSize memories inp r).getLsbD k) :
    Shows x bit width a := by
  intro defaultWindowSize memories inp r hr
  obtain ⟨y, hread, hbits⟩ :=
    hshows defaultWindowSize memories inp r (hr.word r (Nat.le_refl r) (by omega))
  refine ⟨hr.ack, ?_⟩
  intro k hk
  rw [hr.dout_engine hread]
  exact hbits k hk

/-- A read of a size goes through the port that the host writes it with. -/
theorem shows_size {j : Index} (ha : a.toNat = TableField.size.word j) :
    Shows (fun w m inp c => TableField.size.mem w m inp (c + 1) j) 0 64 a := by
  intro defaultWindowSize memories inp r hr
  have hread : Manager.HostRead inp r .size j := by
    refine ⟨hr.en, ?_, ?_⟩
    · intro v hrv hvr
      rw [hr.addr hrv hvr, ha]
    · intro v hrv hvr hen
      obtain rfl | hlt := Nat.eq_or_lt_of_le hrv
      · exact hr.we
      · rw [hr.alone v hlt hvr] at hen
        cases hen
  obtain ⟨hack, hdout⟩ := hread.returns defaultWindowSize memories
  refine ⟨hack, ?_⟩
  intro k _
  have hport : (Manager.st defaultWindowSize memories inp (r + 3)).memories.size.douta =
      TableField.size.mem defaultWindowSize memories inp (r + 1) j := by
    refine hread.douta.trans ?_
    rw [if_pos (.inl hr.noUpdate)]
  rw [hdout, TableField.size.descriptorRead_eq (hread.decodes (by omega) (Nat.le_refl _)).1,
    Nat.zero_add]
  exact congrArg (fun y : BitVec 64 => y.getLsbD k) hport

theorem shows_statistic {g : StatField} {j : Index} (ha : a = g.word j) :
    Shows (fun w m inp c => g.content (Manager.st w m inp (c + 1)) (inp (c + 1)) j) 0 64 a := by
  intro defaultWindowSize memories inp r hr
  obtain ⟨hack, hdout⟩ :=
    g.read_returns (m := Manager.st defaultWindowSize memories inp) (fun v => Manager.st_succ v)
      hr.en (fun v hrv hvr => (hr.word v hrv hvr).trans ha)
  refine ⟨hack, ?_⟩
  intro k _
  rw [hdout, Nat.zero_add]

/-- The first two bits of the control word are those of the struct. -/
theorem shows_control (r' : Register) (hr : r' = .enable ∨ r' = .reset) :
    Shows (fun w m inp c => r'.value (Manager.st w m inp c).regs) r'.bit r'.width 0x200 := by
  refine shows_of_engineRead ?_
  intro defaultWindowSize memories inp r hword
  refine ⟨_, if_pos hword, ?_⟩
  intro k hk
  rcases hr with rfl | rfl
  all_goals
    obtain rfl : k = 0 := Nat.lt_one_iff.mp hk
    simp only [Register.value, Register.bit, BitVec.getLsbD_setWidth, BitVec.getLsbD_append,
      BitVec.getLsbD_ofBool]
    simp

/-- A counter is read as a whole word. -/
theorem shows_of_word {x : Content}
    (hread : ∀ (defaultWindowSize : Nat) (memories : Memories) (inp : Manager.Run) (r : Nat),
      (inp r).host.word = a →
        Manager.engineRead (Manager.st defaultWindowSize memories inp r) (inp r) =
          some (x defaultWindowSize memories inp r)) :
    Shows x 0 64 a := by
  refine shows_of_engineRead ?_
  intro defaultWindowSize memories inp r hword
  refine ⟨_, hread defaultWindowSize memories inp r hword, ?_⟩
  intro k _
  rw [Nat.zero_add]

theorem shows_time :
    Shows (fun w m inp c => (Manager.st w m inp c).progress.time) 0 64 0x202 := by
  refine shows_of_word ?_
  intro defaultWindowSize memories inp r hword
  rw [Manager.engineRead, hword]
  rfl

theorem shows_byteCount :
    Shows (fun w m inp c => (Manager.st w m inp c).progress.byteCount) 0 64 0x203 := by
  refine shows_of_word ?_
  intro defaultWindowSize memories inp r hword
  rw [Manager.engineRead, hword]
  rfl

/-! ### Reads that return something else -/

/-- An input and then a read, from cycle 1 on. -/
def thenRead (i : Manager.Input) (a : BitVec 16) : Manager.Run := fun t =>
  if t = 0 then i
  else Manager.silent.access { en := decide (t = 1), addr := a, din := 0, we := 0 }

theorem thenRead_wordRead (i : Manager.Input) (a : BitVec 16) :
    WordRead (thenRead i a) 1 (a.setWidth 32) where
  en := rfl
  we := rfl
  word v hv _ := by
    rw [thenRead, if_neg (by omega)]
    rfl
  alone v hv _ := by
    have hne : v ≠ 1 := by omega
    rw [thenRead, if_neg (by omega)]
    simp [Manager.Input.access, hne]
  noUpdate := rfl

/-- The end of an operation, which moves on to the next descriptor. -/
def ends : Manager.Input := { Manager.silent with isEndOfOperation := true }

/-- A field is not shown if a read behind some input returns another bit. -/
theorem not_shows {x : Content} {bit width k : Nat} {a : BitVec 16} (m : Memories) (i : Manager.Input)
    (hk : k < width)
    (hne : (Manager.st 24 m (thenRead i a) 5).dout.getLsbD (bit + k) ≠
      (x 24 m (thenRead i a) 1).getLsbD k) :
    ¬ Shows x bit width (a.setWidth 32) := by
  intro hshows
  exact hne ((hshows 24 m (thenRead i a) 1 (thenRead_wordRead i a)).2 k hk)

/-- The word `d` is written and read again. -/
def written (a : BitVec 16) (d : BitVec 64) : Manager.Input :=
  Manager.silent.access (Manager.wholeWrite a d)

/-- Behind the first two bits the control word shows the state of the engine. -/
theorem not_shows_control (r' : Register)
    (hr : r' ∈ [.capabilityC2s, .capabilityS2c, .addressMode]) :
    ¬ Shows (fun w m inp c => r'.value (Manager.st w m inp c).regs) r'.bit r'.width 0x200 := by
  refine not_shows (k := 0) (a := 0x200) .zero (written 0x200 0x3c) ?_ ?_
  · revert r'
    decide
  · revert r'
    decide +kernel

/-- The active index follows the last one in the word. -/
theorem not_shows_lastIndex :
    ¬ Shows (fun w m inp c => WideRegister.lastIndexDescriptor.value (Manager.st w m inp c).regs) 0 16
      0x201 := by
  refine not_shows (k := 10) (a := 0x201) .zero ends (by decide) ?_
  decide +kernel

/-- The registers behind the counters are not read at all; the memories answer. -/
theorem not_shows_wide (r' : WideRegister)
    (hr : r' ∈ [.bufferAtHost, .addressGenOffset, .addressGenIncr, .numberTlps]) :
    ¬ Shows (fun w m inp c => r'.value (Manager.st w m inp c).regs) 0 64 (r'.word.setWidth 32) := by
  refine not_shows (k := 0) .zero (written r'.word 1) (by decide) ?_
  revert r'
  decide +kernel

/-- Only slot `j` of the addresses holds a word. -/
def oneAddress (j : Index) : Memories :=
  { Memories.zero with
    address := { Memories.zero.address with mem := fun k => if k = j then 1 else 0 } }

theorem oneAddress_kept (j : Index) {i : Manager.Input} (hi : i.host.en = false) (a : BitVec 16)
    (k : Index) : TableField.address.mem 24 (oneAddress j) (thenRead i a) 2 k = if k = j then 1 else 0 := by
  have hno : ¬ selects (thenRead i a 0).host .address k := by
    rintro ⟨htable, -⟩
    have hen := ((Manager.inTable_iff _).mp htable).1
    rw [thenRead, if_pos rfl, hi] at hen
    cases hen
  rw [Manager.mem_after, if_neg (fun hall => hno hall.2)]
  rfl

/-- Of the addresses a read shows that of the active descriptor.  For slot 0 the operation before the
read moves on to slot 1, for the others the active descriptor stays 0. -/
theorem not_shows_address {j : Index} {a : BitVec 16} (ha : a.toNat = TableField.address.word j) :
    ¬ Shows (fun w m inp c => TableField.address.mem w m inp (c + 1) j) 0 64 (a.setWidth 32) := by
  have hother : ∃ i : Manager.Input, i.host.en = false ∧
      Manager.activeAt 24 (oneAddress j) (thenRead i a) 2 ≠ j := by
    by_cases hj : j = 0
    · refine ⟨ends, rfl, ?_⟩
      have hnext : Manager.activeAt 24 (oneAddress j) (thenRead ends a) 2 = 1 := rfl
      rw [hnext, hj]
      decide
    · refine ⟨Manager.silent, rfl, ?_⟩
      exact fun heq => hj heq.symm
  obtain ⟨i, hi, hactive⟩ := hother
  have hread : Manager.HostRead (thenRead i a) 1 .address j := by
    refine ⟨rfl, ?_, ?_⟩
    · intro v hrv _
      rw [thenRead, if_neg (by omega)]
      exact ha
    · intro v hrv _ _
      rw [thenRead, if_neg (by omega)]
      rfl
  refine not_shows (k := 0) (oneAddress j) i (by decide) ?_
  have hdout : (Manager.st 24 (oneAddress j) (thenRead i a) 5).dout = 0 := by
    rw [(hread.returns 24 (oneAddress j)).2,
      TableField.address.descriptorRead_eq (hread.decodes (by omega) (Nat.le_refl _)).1]
    refine hread.doutb.trans ?_
    rw [oneAddress_kept j hi, if_neg hactive]
  simp only [hdout, oneAddress_kept j hi, if_true]
  decide

end Reads

/-- What the writes and the reads of a field at address `a` come to. -/
theorem Field.WritesAgree.at {f : Field} (hf : f.WritesAgree) {t : Target} (ht : f.target = some t)
    {h : HostAccess} (hen : h.en = true) (ha : h.addr.toNat = f.word) :
    WritesTo t f.bit f.width h :=
  (hf t ht f.request f.request_addressed).2 h hen (f.wordAddr_request ha).symm

theorem Field.ReadsAgree.at {f : Field} (hf : f.ReadsAgree) {t : Target} (ht : f.target = some t)
    {a : BitVec 16} (ha : a.toNat = f.word) : ReadsFrom t f.bit f.width (a.setWidth 32) := by
  rw [← Field.wordAddr_request ha]
  exact (hf t ht f.request f.request_addressed).2

/-! ## The common block -/

/-- A write of `user_reset` through the struct: one dword at its address, with bit 7 set. -/
def resetBeat : CqBeat :=
  { requestBeat memWrReq 0 7 1 (0x8208#61 ++ 0#1) 0x0f with
    tdata := (requestBeat memWrReq 0 7 1 (0x8208#61 ++ 0#1) 0x0f).tdata ||| (0x80#256 <<< 128) }

/-- The core in the cycle of the access for `resetBeat`. -/
def resetAccess : Bar0.System :=
  Bar0.st Bar0.cleared (Bar0.requests (fun t => if t = 1 then resetBeat else noRequest)) 2

theorem word_common (m : CommonMember) : (Field.common m).word = 0x8208 := by
  cases m <;> rfl

theorem resetBeat_addressed (m : CommonMember) : (Field.common m).Addressed resetBeat := by
  refine ⟨0, by decide, ?_⟩
  rw [word_common]
  decide

/-- It is a write of bit 7 to the word that the struct has for the common block; it neither resets the core
nor is it acknowledged. -/
theorem resetAccess_run :
    resetAccess.access.en = true ∧ resetAccess.access.addr.toNat = 0x8208 ∧
      (resetAccess.access.we.getLsbD 0 && resetAccess.access.din.getLsbD 7) = true ∧
      resetAccess.userReset = false ∧
      (Bar0.nextCtrl Bar0.cleared.params resetAccess).ack = false := by
  decide +kernel

/-- The writes to the common block do not reach it. -/
theorem not_writesAgree_common {m : CommonMember} {t : Target}
    (ht : (Field.common m).target = some t) : ¬ (Field.common m).WritesAgree := by
  intro hf
  obtain ⟨hen, haddr, hdata, hno, -⟩ := resetAccess_run
  have hwrites := hf.at ht hen (haddr.trans (word_common m).symm)
  have hword : resetAccess.access.word ≠ commonBlock := word_ne_commonBlock (by omega)
  cases m with
  | maxPayload | maxReadRequest =>
      obtain rfl := Option.some.inj ht
      exact hword hwrites
  | userReset =>
      obtain rfl := Option.some.inj ht
      have hreset : resetAccess.userReset =
          (resetAccess.access.we.getLsbD 0 && resetAccess.access.din.getLsbD 7) := hwrites resetAccess rfl
      rw [hno, hdata] at hreset
      cases hreset
  | irqEnable | engineFinished | u0 =>
      cases ht

/-- Nor does it answer the reads. -/
theorem not_answers {bit w : Nat} {x : Params → BitVec w} :
    ¬ Answers bit x (resetAccess.access.word) := by
  intro hanswers
  have hack := (hanswers Bar0.cleared.params resetAccess resetAccess_run.1 rfl).1
  rw [resetAccess_run.2.2.2.2] at hack
  cases hack

theorem not_readsAgree_common {m : CommonMember} {t : Target}
    (ht : (Field.common m).target = some t) : ¬ (Field.common m).ReadsAgree := by
  intro hf
  have hreads := hf.at ht (resetAccess_run.2.1.trans (word_common m).symm)
  cases m with
  | maxPayload | maxReadRequest | userReset =>
      obtain rfl := Option.some.inj ht
      exact not_answers hreads
  | irqEnable | engineFinished | u0 =>
      cases ht

/-! ## Agreement -/

section Agreement

variable {f : Field}

/-- The writes of the registers of engine 0. -/
theorem writesAgree_engine {m : EngineMember} (hm : (Field.engine m).keepsWrites = true) :
    (Field.engine m).WritesAgree := by
  intro t ht b hb
  refine ⟨hb.forwarded, ?_⟩
  intro h hen hword
  have haddr := hb.addr_toNat hword
  have hregister : ∀ r : Register, r ≠ .wide .lastIndexDescriptor →
      (Field.engine m).word = r.word.toNat → (Field.engine m).bit = r.bit →
        r.width ≤ (Field.engine m).width → t = .register r →
          WritesTo t (Field.engine m).bit (Field.engine m).width h := by
    rintro r hr hfield hbit hwidth rfl
    exact hb.writes_register hr hfield hbit hwidth hen hword
  cases m with
  | totalTime =>
      obtain rfl := Option.some.inj ht
      have haddr : h.addr.toNat = 0x202 := haddr.trans (by decide)
      refine ⟨?_, confined (by omega)⟩
      intro r
      refine spares_of_ne ?_
      intro heq
      rw [heq] at haddr
      cases r with
      | wide r =>
          cases r <;> exact absurd haddr (by decide)
      | _ =>
          exact absurd haddr (by decide)
  | completeUntilDescriptor | totalBytes =>
      cases hm
  | enable | reset | isC2s | isS2c | addressMode | hostBufferSize | addressOffset | addressInc
  | numberOfTlps =>
      exact hregister _ (by decide) (by decide) (by decide) (by decide) (Option.some.inj ht).symm
  | u0 | u1 | u2 | dmaDescriptor | u4 =>
      cases ht

/-- The writes of the descriptors. -/
theorem writesAgree_descriptor (j : Index) (m : DescriptorMember) :
    (Field.descriptor j m).WritesAgree := by
  intro t ht b hb
  refine ⟨hb.forwarded, ?_⟩
  intro h hen hword
  have hbit := bit_descriptor j m
  have hplace := word_descriptor j m
  have hslot : ∀ g : TableField, dmaDescriptor.offset m = 64 * g.offset.toNat →
      dmaDescriptor.width m = 64 → t = .slot g j →
        WritesTo t (Field.descriptor j m).bit (Field.descriptor j m).width h := by
    rintro g hoffset hwidth rfl
    refine hb.writes_slot ?_ (by omega) hwidth hen hword
    rw [hplace, TableField.word, hoffset]
    omega
  have hstatistic : ∀ g : StatField, dmaDescriptor.offset m = 64 * g.offset.toNat →
      t = .statistic g j → WritesTo t (Field.descriptor j m).bit (Field.descriptor j m).width h := by
    rintro g hoffset rfl
    refine hb.writes_statistic ?_ hword
    rw [hplace, (g.word_toNat j).1, hoffset]
    omega
  cases m with
  | address | size =>
      exact hslot _ (by decide) (by decide) (Option.some.inj ht).symm
  | latency | timeAtReq | timeAtComp | bytesAtReq | bytesAtComp =>
      exact hstatistic _ (by decide) (Option.some.inj ht).symm
  | generateIrq | u0 =>
      cases ht

/-- A write of the second byte of the last index alone is lost. -/
theorem not_writesAgree_lastIndex : ¬ (Field.engine .completeUntilDescriptor).WritesAgree := by
  intro hf
  let h : HostAccess := { en := true, addr := 0x201, din := 0x300, we := 0x02 }
  have hstores : Stores (.wide .lastIndexDescriptor) 0 h :=
    (hf.at rfl (h := h) rfl (by decide)).2.1
  have hbit := hstores (Manager.reset 24 .zero) (Manager.silent.access h) rfl 8 (by decide)
  revert hbit
  decide

/-- A write of `total_bytes` sets the window. -/
theorem not_writesAgree_totalBytes : ¬ (Field.engine .totalBytes).WritesAgree := by
  intro hf
  let h := Manager.wholeWrite 0x203 1
  have hspares : Spares (.wide .windowSize) h :=
    (hf.at rfl (h := h) rfl (by decide)).1 _
  have hvalue := hspares (Manager.reset 24 .zero) (Manager.silent.access h) rfl
  revert hvalue
  decide

/-- The writes go where the struct has them exactly for the listed fields. -/
theorem writesAgree_iff (f : Field) : f.WritesAgree ↔ f.target = none ∨ f.keepsWrites = true := by
  constructor
  · intro hf
    rw [or_iff_not_imp_left]
    intro hsome
    obtain ⟨t, ht⟩ := Option.ne_none_iff_exists'.mp hsome
    cases f with
    | engine m =>
        cases m with
        | completeUntilDescriptor =>
            exact absurd hf not_writesAgree_lastIndex
        | totalBytes =>
            exact absurd hf not_writesAgree_totalBytes
        | _ =>
            rfl
    | descriptor j m =>
        rfl
    | common m =>
        exact absurd hf (not_writesAgree_common ht)
  · rintro (hnone | hkeeps)
    · intro t ht
      rw [hnone] at ht
      cases ht
    · cases f with
      | engine m =>
          exact writesAgree_engine hkeeps
      | descriptor j m =>
          exact writesAgree_descriptor j m
      | common m =>
          cases hkeeps

/-- The reads of the listed fields. -/
theorem readsAgree_of_keeps (hf : f.keepsReads = true) : f.ReadsAgree := by
  intro t ht b hb
  refine ⟨hb.forwarded, ?_⟩
  have haddr : ∀ a : BitVec 32, f.word = a.toNat → wordAddr b = a := by
    intro a ha
    apply BitVec.eq_of_toNat_eq
    rw [hb.wordAddr_toNat, ha]
  cases f with
  | engine m =>
      cases m with
      | enable =>
          obtain rfl := Option.some.inj ht
          rw [haddr 0x200 (by decide)]
          exact shows_control .enable (.inl rfl)
      | reset =>
          obtain rfl := Option.some.inj ht
          rw [haddr 0x200 (by decide)]
          exact shows_control .reset (.inr rfl)
      | totalTime =>
          obtain rfl := Option.some.inj ht
          rw [haddr 0x202 (by decide)]
          exact shows_time
      | totalBytes =>
          obtain rfl := Option.some.inj ht
          rw [haddr 0x203 (by decide)]
          exact shows_byteCount
      | _ =>
          cases hf
  | descriptor j m =>
      have hplace := word_descriptor j m
      have hbit := bit_descriptor j m
      have hstatistic : ∀ g : StatField, dmaDescriptor.offset m = 64 * g.offset.toNat →
          dmaDescriptor.width m = 64 → t = .statistic g j →
            ReadsFrom t (Field.descriptor j m).bit (Field.descriptor j m).width (wordAddr b) := by
        rintro g hoffset hwidth rfl
        have hzero : (Field.descriptor j m).bit = 0 := by omega
        have hfield : wordAddr b = g.word j := by
          refine haddr _ ?_
          rw [hplace, (g.word_toNat j).1, hoffset]
          omega
        rw [hzero, show (Field.descriptor j m).width = 64 from hwidth]
        exact shows_statistic hfield
      cases m with
      | address =>
          cases hf
      | size =>
          obtain rfl := Option.some.inj ht
          have hoffset : dmaDescriptor.offset .size = 64 := by decide
          have hzero : (Field.descriptor j .size).bit = 0 := by rw [hbit, hoffset]
          have hfield : (wordAddr b).toNat = TableField.size.word j := by
            rw [hb.wordAddr_toNat, hplace, hoffset]
            rfl
          rw [hzero, show (Field.descriptor j .size).width = 64 from rfl]
          exact shows_size hfield
      | latency | timeAtReq | timeAtComp | bytesAtReq | bytesAtComp =>
          exact hstatistic _ (by decide) (by decide) (Option.some.inj ht).symm
      | generateIrq | u0 =>
          cases ht
  | common m =>
      cases hf

/-- The other fields are read as something else. -/
theorem not_readsAgree {t : Target} (ht : f.target = some t) (hf : f.keepsReads = false) :
    ¬ f.ReadsAgree := by
  intro hreads
  cases f with
  | engine m =>
      cases m with
      | enable | reset | totalTime | totalBytes =>
          cases hf
      | isC2s =>
          exact not_shows_control .capabilityC2s (by decide) (hreads.at rfl (a := 0x200) (by decide))
      | isS2c =>
          exact not_shows_control .capabilityS2c (by decide) (hreads.at rfl (a := 0x200) (by decide))
      | addressMode =>
          exact not_shows_control .addressMode (by decide) (hreads.at rfl (a := 0x200) (by decide))
      | completeUntilDescriptor =>
          exact not_shows_lastIndex (hreads.at rfl (a := 0x201) (by decide))
      | hostBufferSize =>
          exact not_shows_wide .bufferAtHost (by decide)
            (hreads.at rfl (a := 0x204) (by decide))
      | addressOffset =>
          exact not_shows_wide .addressGenOffset (by decide)
            (hreads.at rfl (a := 0x205) (by decide))
      | addressInc =>
          exact not_shows_wide .addressGenIncr (by decide)
            (hreads.at rfl (a := 0x206) (by decide))
      | numberOfTlps =>
          exact not_shows_wide .numberTlps (by decide)
            (hreads.at rfl (a := 0x207) (by decide))
      | u0 | u1 | u2 | dmaDescriptor | u4 =>
          cases ht
  | descriptor j m =>
      cases m with
      | address =>
          have hj := j.isLt
          have hoffset : dmaDescriptor.offset .address = 0 := by decide
          have ha : (BitVec.ofNat 16 (TableField.address.word j)).toNat =
              (Field.descriptor j .address).word := by
            rw [word_descriptor, hoffset, BitVec.toNat_ofNat, TableField.word]
            have hzero : TableField.address.offset.toNat = 0 := rfl
            omega
          have hshows := hreads.at rfl ha
          refine not_shows_address (j := j) (a := BitVec.ofNat 16 (TableField.address.word j)) ?_ ?_
          · rw [ha, word_descriptor, hoffset]
            rfl
          · have hbit : (Field.descriptor j .address).bit = 0 := by rw [bit_descriptor, hoffset]
            rw [hbit] at hshows
            exact hshows
      | generateIrq | u0 =>
          cases ht
      | _ =>
          cases hf
  | common m =>
      exact not_readsAgree_common ht hreads

theorem readsAgree_iff (f : Field) : f.ReadsAgree ↔ f.target = none ∨ f.keepsReads = true := by
  constructor
  · intro hf
    rw [or_iff_not_imp_left]
    intro hsome
    obtain ⟨t, ht⟩ := Option.ne_none_iff_exists'.mp hsome
    by_contra hkeeps
    exact not_readsAgree ht (by simpa using hkeeps) hf
  · rintro (hnone | hkeeps)
    · intro t ht
      rw [hnone] at ht
      cases ht
    · exact readsAgree_of_keeps hkeeps

/-- The fields that the core implements and that the struct and the core agree on, in the writes, in the
reads and in both. -/
theorem struct_agrees (f : Field) :
    (f.WritesAgree ↔ f.target = none ∨ f.keepsWrites = true) ∧
      (f.ReadsAgree ↔ f.target = none ∨ f.keepsReads = true) ∧
      (f.Agrees ↔ f.target = none ∨ (f.keepsWrites = true ∧ f.keepsReads = true)) := by
  refine ⟨writesAgree_iff f, readsAgree_iff f, ?_⟩
  rw [Field.Agrees, writesAgree_iff, readsAgree_iff, or_and_left]

end Agreement

/-- The struct finds `user_reset` at word `0x8208`, the core has it at `0x8200`: the write that should
reset the core reaches nothing. -/
theorem user_reset_missed :
    (Field.common .userReset).word = 0x8208 ∧ commonBlock.toNat = 0x8200 ∧
      (Field.common .userReset).Addressed resetBeat ∧ resetAccess.userReset = false ∧
      ¬ (Field.common .userReset).Agrees := by
  refine ⟨word_common _, by decide, resetBeat_addressed _, resetAccess_run.2.2.2.1, ?_⟩
  exact fun hf => not_writesAgree_common rfl hf.1

end RegisterMap
end Host
end PcieBench
