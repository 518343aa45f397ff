import PcieBench.Manager.Access

/-!
# The descriptor table and the accesses of the host

An access of the host reaches the memories of the descriptors through one register stage: in the next
cycle the port of a memory shows it, and the edge after that writes the word.  This module says which
word that is for every address, and what becomes of an access in the cycle of `UPDATE_LATENCY`.
-/

namespace PcieBench
namespace Manager

open Clocked

/-! ## The three memories -/

/-- The memories that the host writes. -/
inductive TableField
  | address
  | size
  | control
  deriving DecidableEq, Repr

namespace TableField

/-- The place of the word in a descriptor. -/
def offset : TableField → BitVec 32
  | .address => 0
  | .size => 1
  | .control => 2

def memory (f : TableField) (m : Memories) : Bram Index :=
  match f with
  | .address => m.address
  | .size => m.size
  | .control => m.control

def port (f : TableField) (s : State) : PortA Index :=
  match f with
  | .address => s.addressPort
  | .size => s.sizePort
  | .control => s.controlPort

/-- The word address of a field of descriptor `j`. -/
def word (f : TableField) (j : Index) : Nat := 0x208 + 8 * j.toNat + f.offset.toNat

theorem port_step (f : TableField) (s : State) (i : Input) :
    f.port (step s i) = nextPort i (f.port s) f.offset := by
  cases f <;> rfl

/-- What an edge does to the words of a memory. -/
theorem mem_step (f : TableField) (s : State) (i : Input) (k : Index) :
    (f.memory (step s i).memories).mem k =
      if (f.port s).en = true ∧ (f.port s).addr = k then
        writeBytes (f.port s).we ((f.memory s.memories).mem k) (f.port s).din
      else (f.memory s.memories).mem k := by
  have hmem : (f.memory (step s i).memories).mem =
      if (f.port s).en then
        Function.update (f.memory s.memories).mem (f.port s).addr
          (writeBytes (f.port s).we ((f.memory s.memories).mem (f.port s).addr) (f.port s).din)
      else (f.memory s.memories).mem := by
    cases f <;> rfl
  rw [hmem]
  cases (f.port s).en with
  | false =>
      simp
  | true =>
      by_cases hk : (f.port s).addr = k
      · subst hk
        simp
      · simp [Function.update_of_ne (Ne.symm hk), hk]

end TableField

/-! ## Decoding -/

section Decoding

variable (h : HostAccess)

theorem effectiveAddress_toNat :
    h.effectiveAddress.toNat = (h.addr.toNat + (2 ^ 32 - 0x208)) % 2 ^ 32 := by
  have h1 : engineTableOffset.toNat = 0x200 := rfl
  have h2 : offsetEnginesConfig.toNat = 8 := rfl
  have hlt := h.addr.isLt
  rw [HostAccess.effectiveAddress, HostAccess.word, BitVec.toNat_sub, BitVec.toNat_sub,
    BitVec.toNat_setWidth, h1, h2]
  omega

/-- The guard admits the table and the word behind it. -/
theorem inTable_iff :
    h.inTable = true ↔ h.en = true ∧ 0x208 ≤ h.addr.toNat ∧ h.addr.toNat ≤ 0x2208 := by
  have hbound : (offsetBetweenDescriptors * 1024).toNat = 8192 := rfl
  have hlt := h.addr.isLt
  -- below the table the subtraction wraps to a large value
  have hrange : (h.addr.toNat + (2 ^ 32 - 0x208)) % 2 ^ 32 ≤ 8192 ↔
      0x208 ≤ h.addr.toNat ∧ h.addr.toNat ≤ 0x2208 := by omega
  rw [HostAccess.inTable, Bool.and_eq_true, decide_eq_true_eq, BitVec.le_def, hbound,
    effectiveAddress_toNat, hrange]

/-- The field is the place in the group of eight words. -/
theorem effectiveField_iff (f : TableField) :
    h.effectiveField = f.offset.setWidth 3 ↔ h.addr.toNat % 8 = f.offset.toNat := by
  have hlt := h.addr.isLt
  have hoffset : f.offset.toNat < 8 := by cases f <;> decide
  rw [HostAccess.effectiveField, ← BitVec.toNat_inj, BitVec.toNat_setWidth, BitVec.toNat_setWidth,
    effectiveAddress_toNat]
  omega

/-- The index is the number of the group, in ten bits. -/
theorem tableIndex_toNat {f : TableField} (hlow : 0x208 ≤ h.addr.toNat)
    (hhigh : h.addr.toNat ≤ 0x2208) (hfield : h.addr.toNat % 8 = f.offset.toNat) :
    (h.tableIndex f.offset).toNat = (h.addr.toNat - 0x208) / 8 % 1024 := by
  have heff := effectiveAddress_toNat h
  have hoffset : f.offset.toNat < 8 := by cases f <;> decide
  have hsize : offsetBetweenDescriptors.toNat = 8 := rfl
  have hsub : (h.word - engineTableOffset - offsetEnginesConfig - f.offset).toNat =
      h.addr.toNat - 0x208 - f.offset.toNat := by
    rw [BitVec.toNat_sub]
    have heff' : (h.word - engineTableOffset - offsetEnginesConfig).toNat =
        h.addr.toNat - 0x208 := by
      rw [HostAccess.effectiveAddress] at heff
      omega
    rw [heff']
    omega
  rw [HostAccess.tableIndex, BitVec.toNat_setWidth, BitVec.toNat_udiv, hsub, hsize]
  omega

/-- The access selects the word of field `f` at index `k`. -/
def selects (f : TableField) (k : Index) : Prop :=
  h.inTable = true ∧ h.effectiveField = f.offset.setWidth 3 ∧ h.tableIndex f.offset = k

instance (f : TableField) (k : Index) : Decidable (selects h f k) :=
  inferInstanceAs (Decidable (_ ∧ _))

/-- Inside the table this is the word with the address of the access. -/
theorem selects_iff {f : TableField} {k : Index} (hend : h.addr ≠ 0x2208) :
    selects h f k ↔ h.en = true ∧ h.addr.toNat = f.word k := by
  have hk := k.isLt
  have hoffset : f.offset.toNat < 3 := by cases f <;> decide
  have hne : h.addr.toNat ≠ 0x2208 := by
    intro heq
    exact hend (BitVec.eq_of_toNat_eq heq)
  rw [selects, inTable_iff, effectiveField_iff, TableField.word]
  constructor
  · rintro ⟨⟨hen, hlow, hhigh⟩, hfield, hindex⟩
    have hnat := tableIndex_toNat h hlow hhigh hfield
    rw [hindex] at hnat
    exact ⟨hen, by omega⟩
  · rintro ⟨hen, haddr⟩
    have hlow : 0x208 ≤ h.addr.toNat := by omega
    have hhigh : h.addr.toNat ≤ 0x2208 := by omega
    have hfield : h.addr.toNat % 8 = f.offset.toNat := by omega
    refine ⟨⟨hen, hlow, hhigh⟩, hfield, ?_⟩
    apply BitVec.eq_of_toNat_eq
    rw [tableIndex_toNat h hlow hhigh hfield]
    omega

end Decoding

/-! ## Reads of the descriptors -/

/-- Behind the engine registers a read goes to the memories. -/
theorem engineRead_none_of_le {s : State} {i : Input} (h : 0x204 ≤ i.host.addr.toNat) :
    engineRead s i = none := by
  have hlt := i.host.addr.isLt
  have hne : ∀ w : BitVec 32, w.toNat < 0x204 → i.host.word ≠ w := by
    rintro w hw rfl
    rw [HostAccess.word, BitVec.toNat_setWidth] at hw
    omega
  rw [engineRead, if_neg (hne _ (by decide)), if_neg (hne _ (by decide)),
    if_neg (hne _ (by decide)), if_neg (hne _ (by decide))]

/-- A read that keeps off the engine registers leaves `DOUT` to the memories. -/
theorem isEngineRead_of_none {m : Nat → State} {inp : Nat → Input}
    (hstep : ∀ v, m (v + 1) = step (m v) (inp v)) {r n : Nat} (hen : (inp r).host.en = true)
    (hnone : ∀ v, r ≤ v → v ≤ r + n → engineRead (m v) (inp v) = none) :
    (m (r + n + 1)).read.isEngineRead = false := by
  induction n with
  | zero =>
      rw [hstep, step_read, nextRead, hnone r (Nat.le_refl r) (by omega)]
      simp [hen]
  | succ n ih =>
      have hprev := ih (fun v hrv hvr => hnone v hrv (by omega))
      rw [hstep, step_read, nextRead, hnone (r + (n + 1)) (by omega) (by omega)]
      cases (inp (r + (n + 1))).host.en with
      | true =>
          rfl
      | false =>
          exact hprev

/-! ## Two cycles later -/

section Runs

variable {defaultWindowSize : Nat} {memories : Memories} {inp : Run}

/-- The words of a memory in cycle `t` of a run. -/
def TableField.mem (f : TableField) (defaultWindowSize : Nat) (memories : Memories) (inp : Run)
    (t : Nat) (k : Index) : BitVec 64 :=
  (f.memory (st defaultWindowSize memories inp t).memories).mem k

/-- The access of a cycle is in the memory two cycles later, unless the statistics are updated in that
cycle. -/
theorem mem_after (f : TableField) (t : Nat) (k : Index) :
    f.mem defaultWindowSize memories inp (t + 2) k =
      if (inp t).updateLatency = false ∧ selects (inp t).host f k then
        writeBytes (inp t).host.we (f.mem defaultWindowSize memories inp (t + 1) k) (inp t).host.din
      else f.mem defaultWindowSize memories inp (t + 1) k := by
  have hport : f.port (st defaultWindowSize memories inp (t + 1)) =
      nextPort (inp t) (f.port (st defaultWindowSize memories inp t)) f.offset :=
    f.port_step _ _
  rw [TableField.mem, st_succ, TableField.mem_step, hport]
  cases hupdate : (inp t).updateLatency with
  | true =>
      -- the branch of the update clears the enable of the port
      simp [nextPort, hupdate, TableField.mem]
  | false =>
      cases htable : (inp t).host.inTable with
      | false =>
          simp [nextPort, hupdate, htable, selects, TableField.mem]
      | true =>
          simp [nextPort, hupdate, htable, selects, TableField.mem]

/-! ## The frame of an access -/

/-- A byte of the table changes two cycles after the access only if it is an enabled byte of the word
with the address of the access. -/
def FrameAt (defaultWindowSize : Nat) (memories : Memories) (inp : Run) (t : Nat) : Prop :=
  ∀ (f : TableField) (k : Index) (b : Nat), b < 8 →
    byte (f.mem defaultWindowSize memories inp (t + 2) k) b ≠
      byte (f.mem defaultWindowSize memories inp (t + 1) k) b →
    (inp t).host.en = true ∧ (inp t).host.addr.toNat = f.word k ∧ (inp t).host.we.getLsbD b = true

theorem frameAt (t : Nat) (hend : (inp t).host.addr ≠ 0x2208) :
    FrameAt defaultWindowSize memories inp t := by
  intro f k b hb hne
  rw [mem_after] at hne
  split at hne
  · rename_i hwrite
    obtain ⟨hen, haddr⟩ := (selects_iff (inp t).host hend).mp hwrite.2
    refine ⟨hen, haddr, ?_⟩
    by_contra hwe
    rw [byte_writeBytes _ _ _ hb, if_neg hwe] at hne
    exact hne rfl
  · exact absurd rfl hne

end Runs

/-- The word behind the table is the only one whose accesses leave the frame: they write the address of
descriptor 0. -/
theorem table_frame (a : BitVec 16) :
    (∀ (defaultWindowSize : Nat) (memories : Memories) (inp : Run) (t : Nat),
      (inp t).host.addr = a → FrameAt defaultWindowSize memories inp t) ↔ a ≠ 0x2208 := by
  constructor
  · rintro hframe rfl
    have hout := hframe 24 .zero (oneAccess (wholeWrite 0x2208 1)) 0 rfl .address 0 0 (by decide)
      (by decide +kernel)
    exact absurd hout.2.1 (by decide)
  · intro hne defaultWindowSize memories inp t haddr
    exact frameAt t (by rw [haddr]; exact hne)

/-- A write of the word behind the table reaches slot 0 of the addresses. -/
theorem write_behind_table :
    TableField.address.mem 24 .zero (oneAccess (wholeWrite 0x2208 0xabcd)) 2 0 = 0xabcd ∧
      ¬ FrameAt 24 .zero (oneAccess (wholeWrite 0x2208 0xabcd)) 0 := by
  refine ⟨by decide +kernel, ?_⟩
  intro hframe
  have hout := hframe .address 0 0 (by decide) (by decide +kernel)
  exact absurd hout.2.1 (by decide)

/-! ## Every write arrives -/

/-- The enabled bytes of a word are those of the access. -/
def Holds (h : HostAccess) (x : BitVec 64) : Prop :=
  ∀ b, b < 8 → h.we.getLsbD b = true → byte x b = byte h.din b

/-- A write to a descriptor is in its word two cycles later exactly if the statistics are not updated
in the cycle of the write, or the word held the data before. -/
theorem host_write_arrives (defaultWindowSize : Nat) (memories : Memories) (inp : Run) (t : Nat)
    (f : TableField) (j : Index) (hen : (inp t).host.en = true)
    (haddr : (inp t).host.addr.toNat = f.word j) :
    Holds (inp t).host (f.mem defaultWindowSize memories inp (t + 2) j) ↔
      (inp t).updateLatency = false ∨
        Holds (inp t).host (f.mem defaultWindowSize memories inp (t + 1) j) := by
  have hj := j.isLt
  have hoffset : f.offset.toNat < 3 := by cases f <;> decide
  have hend : (inp t).host.addr ≠ 0x2208 := by
    intro heq
    have hnat : (inp t).host.addr.toNat = 0x2208 := by rw [heq]; rfl
    rw [TableField.word] at haddr
    omega
  have hselects := (selects_iff (inp t).host hend).mpr ⟨hen, haddr⟩
  rw [mem_after]
  cases hupdate : (inp t).updateLatency with
  | true =>
      simp
  | false =>
      rw [if_pos ⟨rfl, hselects⟩]
      simp only [true_or, iff_true]
      intro b hb hwe
      rw [byte_writeBytes _ _ _ hb, if_pos hwe]

theorem host_write_arrives_size :
    Holds (wholeWrite 0x209 5)
      (TableField.size.mem 24 .zero (oneAccess (wholeWrite 0x209 5)) 2 0) :=
  (host_write_arrives 24 .zero (oneAccess (wholeWrite 0x209 5)) 0 .size 0 rfl (by decide)).mpr
    (.inl rfl)

end Manager
end PcieBench
