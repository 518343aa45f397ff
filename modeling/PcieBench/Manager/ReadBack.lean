import PcieBench.Manager.Table

/-!
# Reading descriptors back

The host writes the descriptors through port A of their memories.  Of what it reads, only the size comes
from that port; the address and the control word come from port B, which follows the active descriptor.
-/

namespace PcieBench
namespace Manager

open Clocked

/-! ## Reads of the host -/

/-- A read of a field of descriptor `j` from cycle `r` on: the address stays until the acknowledgement,
and the host writes nothing meanwhile. -/
structure HostRead (inp : Run) (r : Nat) (f : TableField) (j : Index) : Prop where
  en : (inp r).host.en = true
  addr : ∀ v, r ≤ v → v ≤ r + 3 → (inp v).host.addr.toNat = f.word j
  reads : ∀ v, r ≤ v → v ≤ r + 3 → (inp v).host.en = true → (inp v).host.we = 0

section ReadBack

variable (defaultWindowSize : Nat) (memories : Memories) (inp : Run)

/-- The descriptor that the engine works on in cycle `t`. -/
def activeAt (t : Nat) : Index := (st defaultWindowSize memories inp t).progress.activeIndexDescriptor

/-- The output register of port A in cycle `t`. -/
def TableField.douta (f : TableField) (t : Nat) : BitVec 64 :=
  (f.memory (st defaultWindowSize memories inp t).memories).douta

/-- The interface shows what slot `j` holds when it acknowledges the read. -/
structure ReadsBack (r : Nat) (f : TableField) (j : Index) : Prop where
  ack : (st defaultWindowSize memories inp (r + 4)).read.ack = true
  dout : (st defaultWindowSize memories inp (r + 4)).dout =
    f.mem defaultWindowSize memories inp (r + 4) j

/-- What has to hold one cycle after the start of a read.  The slot of the active descriptor is read in
place of slot `j`, and an update of the statistics keeps port A of the sizes from reading at all. -/
def Exposed (r : Nat) (f : TableField) (j : Index) : Prop :=
  match f with
  | .size =>
      (inp r).updateLatency = false ∨
        ((inp (r + 1)).host.en = true ∧ (inp (r + 1)).updateLatency = false) ∨
        TableField.size.douta defaultWindowSize memories inp (r + 1) =
          TableField.size.mem defaultWindowSize memories inp (r + 1) j
  | f =>
      f.mem defaultWindowSize memories inp (r + 1)
          (activeAt defaultWindowSize memories inp (r + 1)) =
        f.mem defaultWindowSize memories inp (r + 1) j

/-! ## The two ports -/

variable {defaultWindowSize memories inp} {r : Nat} {f : TableField} {j : Index}

/-- What port A reads is the word that the access leaves behind. -/
theorem TableField.douta_step (f : TableField) (t : Nat) :
    f.douta defaultWindowSize memories inp (t + 1) =
      if (f.port (st defaultWindowSize memories inp t)).en then
        f.mem defaultWindowSize memories inp (t + 1)
          (f.port (st defaultWindowSize memories inp t)).addr
      else f.douta defaultWindowSize memories inp t := by
  have hdouta : f.douta defaultWindowSize memories inp (t + 1) =
      if (f.port (st defaultWindowSize memories inp t)).en then
        writeBytes (f.port (st defaultWindowSize memories inp t)).we
          (f.mem defaultWindowSize memories inp t
            (f.port (st defaultWindowSize memories inp t)).addr)
          (f.port (st defaultWindowSize memories inp t)).din
      else f.douta defaultWindowSize memories inp t := by
    cases f <;> rfl
  rw [hdouta]
  split
  · rename_i hen
    have hmem := f.mem_step (st defaultWindowSize memories inp t) (inp t)
      (f.port (st defaultWindowSize memories inp t)).addr
    rw [if_pos ⟨hen, rfl⟩] at hmem
    exact hmem.symm
  · rfl

/-- Port B reads the slot of the active descriptor, unless port A writes it. -/
theorem TableField.doutb_after (f : TableField) (t : Nat)
    (hno : (f.port (st defaultWindowSize memories inp t)).writes
      (activeAt defaultWindowSize memories inp t) = false) :
    (f.memory (st defaultWindowSize memories inp (t + 2)).memories).doutb =
      f.mem defaultWindowSize memories inp t (activeAt defaultWindowSize memories inp t) := by
  cases f <;> exact Bram.step_latchb_of_not_writes _ _ _ _ hno

/-- The port that `rdata_descriptor_r` takes a field from. -/
def TableField.readPort (f : TableField) (b : Bram Index) : BitVec 64 :=
  match f with
  | .size => b.douta
  | .address => b.doutb
  | .control => b.doutb

theorem TableField.descriptorRead_eq (f : TableField) {s : State} {i : Input}
    (hfield : i.host.effectiveField = f.offset.setWidth 3) :
    descriptorRead s i = f.readPort (f.memory s.memories) := by
  rw [descriptorRead, hfield]
  cases f <;> rfl

/-! ## What a read keeps -/

theorem TableField.word_range (f : TableField) (j : Index) : 0x208 ≤ f.word j ∧ f.word j < 0x2208 := by
  have hj := j.isLt
  have hoffset : f.offset.toNat < 3 := by cases f <;> decide
  rw [TableField.word]
  omega

namespace HostRead

variable (defaultWindowSize memories) (h : HostRead inp r f j)

include h

/-- Every access of the read selects its word. -/
theorem selects_word {v : Nat} (hrv : r ≤ v) (hvr : v ≤ r + 3) (hen : (inp v).host.en = true) :
    selects (inp v).host f j := by
  have haddr := h.addr v hrv hvr
  have hrange := f.word_range j
  refine (selects_iff _ ?_).mpr ⟨hen, haddr⟩
  intro heq
  have hnat : (inp v).host.addr.toNat = 0x2208 := by rw [heq]; rfl
  omega

/-- The decoder finds the field and the index also while the access is over. -/
theorem decodes {v : Nat} (hrv : r ≤ v) (hvr : v ≤ r + 3) :
    (inp v).host.effectiveField = f.offset.setWidth 3 ∧ (inp v).host.tableIndex f.offset = j := by
  have haddr := h.addr v hrv hvr
  have hrange := f.word_range j
  have hj := j.isLt
  have hoffset : f.offset.toNat < 3 := by cases f <;> decide
  have hfield : (inp v).host.addr.toNat % 8 = f.offset.toNat := by
    rw [haddr, TableField.word]
    omega
  refine ⟨(effectiveField_iff _ f).mpr hfield, ?_⟩
  apply BitVec.eq_of_toNat_eq
  rw [tableIndex_toNat _ (by omega) (by omega) hfield, haddr, TableField.word]
  omega

/-- In the cycle after an access of the read, port A is enabled unless the statistics were updated. -/
theorem port_en {v : Nat} (hrv : r ≤ v) (hvr : v ≤ r + 3) :
    (f.port (st defaultWindowSize memories inp (v + 1))).en =
      (!(inp v).updateLatency && (inp v).host.en) := by
  rw [st_succ, TableField.port_step]
  simp only [nextPort, (h.decodes hrv hvr).1, decide_true, Bool.and_true]
  cases hen : (inp v).host.en with
  | true =>
      rw [(h.selects_word hrv hvr hen).1]
  | false =>
      simp [HostAccess.inTable, hen]

theorem port_addr {v : Nat} (hrv : r ≤ v) (hvr : v ≤ r + 3) :
    (f.port (st defaultWindowSize memories inp (v + 1))).addr = j := by
  rw [st_succ, TableField.port_step]
  exact (h.decodes hrv hvr).2

/-- It writes nothing. -/
theorem port_not_writes {v : Nat} (hrv : r ≤ v) (hvr : v ≤ r + 3) (k : Index) :
    (f.port (st defaultWindowSize memories inp (v + 1))).writes k = false := by
  cases hen : (f.port (st defaultWindowSize memories inp (v + 1))).en with
  | false =>
      rw [PortA.writes, hen]
      rfl
  | true =>
      have henabled := h.port_en defaultWindowSize memories hrv hvr
      rw [hen, eq_comm, Bool.and_eq_true, Bool.not_eq_true'] at henabled
      have htable := (h.selects_word hrv hvr henabled.2).1
      have hwe : (f.port (st defaultWindowSize memories inp (v + 1))).we = 0 := by
        rw [st_succ, TableField.port_step]
        simp only [nextPort, henabled.1, htable]
        exact h.reads v hrv hvr henabled.2
      rw [PortA.writes, hwe]
      simp

/-- From the first cycle of the read to its acknowledgement the memory stays as it is. -/
theorem mem_kept {v : Nat} (hrv : r + 1 ≤ v) (hvr : v ≤ r + 4) (k : Index) :
    f.mem defaultWindowSize memories inp v k = f.mem defaultWindowSize memories inp (r + 1) k := by
  induction v, hrv using Nat.le_induction with
  | base =>
      rfl
  | succ v hrv ih =>
      rw [← ih (by omega)]
      obtain ⟨u, rfl⟩ : ∃ u, v = u + 1 := ⟨v - 1, by omega⟩
      have hno := h.port_not_writes defaultWindowSize memories
        (show r ≤ u by omega) (by omega) k
      cases f <;> exact Bram.step_mem_of_not_writes _ _ _ _ hno

/-- The acknowledgement comes with the word that `rdata_descriptor_r` took. -/
theorem returns :
    (st defaultWindowSize memories inp (r + 4)).read.ack = true ∧
      (st defaultWindowSize memories inp (r + 4)).dout =
        descriptorRead (st defaultWindowSize memories inp (r + 3)) (inp (r + 3)) := by
  have hnone : ∀ v, r ≤ v → v ≤ r + 3 →
      engineRead (st defaultWindowSize memories inp v) (inp v) = none := by
    intro v hrv hvr
    refine engineRead_none_of_le ?_
    have hrange := f.word_range j
    rw [h.addr v hrv hvr]
    omega
  refine ⟨?_, ?_⟩
  · simp [st_succ, nextRead, h.en]
  · rw [State.dout, isEngineRead_of_none (fun v => st_succ v) h.en hnone]
    rfl

end HostRead

/-! ## The condition -/

/-- A read of the address or of the control word finds the slot of the active descriptor. -/
theorem HostRead.doutb (h : HostRead inp r f j) :
    (f.memory (st defaultWindowSize memories inp (r + 3)).memories).doutb =
      f.mem defaultWindowSize memories inp (r + 1)
        (activeAt defaultWindowSize memories inp (r + 1)) :=
  f.doutb_after (r + 1) (h.port_not_writes defaultWindowSize memories (Nat.le_refl r) (by omega) _)

/-- A read of the size finds its slot, or what port A showed before if the updates of the statistics take
both of its chances. -/
theorem HostRead.douta (h : HostRead inp r f j) :
    f.douta defaultWindowSize memories inp (r + 3) =
      if (inp r).updateLatency = false ∨
          ((inp (r + 1)).host.en = true ∧ (inp (r + 1)).updateLatency = false) then
        f.mem defaultWindowSize memories inp (r + 1) j
      else f.douta defaultWindowSize memories inp (r + 1) := by
  rw [f.douta_step (r + 2), f.douta_step (r + 1), h.port_en _ _ (Nat.le_refl r) (by omega),
    h.port_en _ _ (show r ≤ r + 1 by omega) (by omega), h.port_addr _ _ (Nat.le_refl r) (by omega),
    h.port_addr _ _ (show r ≤ r + 1 by omega) (by omega),
    h.mem_kept _ _ (v := r + 2 + 1) (by omega) (by omega),
    h.mem_kept _ _ (v := r + 1 + 1) (by omega) (by omega), h.en]
  cases (inp r).updateLatency <;> cases (inp (r + 1)).updateLatency <;>
    cases (inp (r + 1)).host.en <;> simp

/-- A read returns the word of its slot exactly if the read logic looks at a port that shows it. -/
theorem read_back_iff (defaultWindowSize : Nat) (memories : Memories) (inp : Run) (r : Nat)
    (f : TableField) (j : Index) (h : HostRead inp r f j) :
    ReadsBack defaultWindowSize memories inp r f j ↔
      Exposed defaultWindowSize memories inp r f j := by
  obtain ⟨hack, hdout⟩ := h.returns defaultWindowSize memories
  rw [f.descriptorRead_eq (h.decodes (by omega) (Nat.le_refl _)).1] at hdout
  have hkept := h.mem_kept defaultWindowSize memories
    (show r + 1 ≤ r + 4 by omega) (Nat.le_refl _) j
  have hreads : ReadsBack defaultWindowSize memories inp r f j ↔
      (st defaultWindowSize memories inp (r + 4)).dout =
        f.mem defaultWindowSize memories inp (r + 1) j := by
    rw [← hkept]
    exact ⟨fun h => h.dout, fun h => ⟨hack, h⟩⟩
  rw [hreads, hdout]
  cases f with
  | size =>
      -- the only field that is read through the port of the host
      have hdouta : TableField.size.douta defaultWindowSize memories inp (r + 3) = _ := h.douta
      rw [TableField.douta] at hdouta
      simp only [TableField.readPort, hdouta, Exposed]
      split
      · rename_i hport
        simp only [← or_assoc, hport, true_or]
      · rename_i hport
        simp only [← or_assoc, hport, false_or]
  | address =>
      simp only [TableField.readPort, h.doutb, Exposed]
  | control =>
      simp only [TableField.readPort, h.doutb, Exposed]

end ReadBack

/-! ## A word that is written and read again -/

/-- The host writes a word in cycle 0 and reads it from cycle 2 on. -/
def writeThenRead (a : BitVec 16) (d : BitVec 64) : Run := fun t =>
  if t = 0 then silent.access (wholeWrite a d)
  else silent.access { en := decide (t = 2), addr := a, din := 0, we := 0 }

theorem writeThenRead_reads {a : BitVec 16} (d : BitVec 64) {f : TableField} {j : Index}
    (ha : a.toNat = f.word j) : HostRead (writeThenRead a d) 2 f j where
  en := rfl
  addr v hv _ := by
    rw [writeThenRead, if_neg (by omega)]
    exact ha
  reads v hv _ _ := by
    rw [writeThenRead, if_neg (by omega)]
    rfl

theorem read_back_size : ReadsBack 24 .zero (writeThenRead 0x211 64) 2 .size 1 :=
  (read_back_iff 24 .zero (writeThenRead 0x211 64) 2 .size 1
    (writeThenRead_reads 64 (by decide))).mpr (.inl rfl)

/-- A read of the address of descriptor 1 returns that of descriptor 0, the active one. -/
theorem read_of_inactive_address :
    HostRead (writeThenRead 0x210 0xabcd) 2 .address 1 ∧
      TableField.address.mem 24 .zero (writeThenRead 0x210 0xabcd) 6 1 = 0xabcd ∧
      (st 24 .zero (writeThenRead 0x210 0xabcd) 6).dout = 0 ∧
      ¬ ReadsBack 24 .zero (writeThenRead 0x210 0xabcd) 2 .address 1 := by
  have hmem : TableField.address.mem 24 .zero (writeThenRead 0x210 0xabcd) 6 1 = 0xabcd := by
    decide +kernel
  have hdout : (st 24 .zero (writeThenRead 0x210 0xabcd) 6).dout = 0 := by decide +kernel
  refine ⟨writeThenRead_reads 0xabcd (by decide), hmem, hdout, ?_⟩
  intro hback
  have heq := hback.dout
  rw [hdout, hmem] at heq
  exact absurd heq (by decide)

end Manager
end PcieBench
