import PcieBench.Completer.Registers
import PcieBench.Manager.Table

/-!
# What a register read returns

The completer waits for any acknowledgement and then sends what the memory interface shows.  A read of
a statistics word takes a register, the two cycles of port B and another register on its way, which is
just the time until its own acknowledgement; the acknowledgement of a write that was taken shortly
before comes too early for it.
-/

namespace PcieBench
namespace Bar0

open Clocked Tlp
open Completer (Request decodedReq selectData)
open Manager (HostAccess Index Memories engineTableOffset offsetEnginesConfig
  offsetBetweenDescriptors)
open Rq (Params pcieController)

/-! ## The statistics words -/

/-- The statistics of a descriptor. -/
inductive StatField
  | latency
  | timeAtReq
  | timeAtComp
  | bytesAtReq
  | bytesAtComp
  deriving DecidableEq, Repr

/-- The word of the descriptor. -/
def StatField.offset : StatField → BitVec 32
  | .latency => 3
  | .timeAtReq => 4
  | .timeAtComp => 5
  | .bytesAtReq => 6
  | .bytesAtComp => 7

/-- The memory of a statistics word. -/
def StatField.memory (f : StatField) (m : Memories) : Bram Index :=
  match f with
  | .latency => m.time
  | .timeAtReq => m.reqTime
  | .timeAtComp => m.compTime
  | .bytesAtReq => m.reqBytes
  | .bytesAtComp => m.compBytes

/-- The word address of a statistics word of descriptor `j`. -/
def StatField.word (f : StatField) (j : Index) : BitVec 32 :=
  engineTableOffset + offsetEnginesConfig + j.setWidth 32 * offsetBetweenDescriptors + f.offset

/-- The engine writes the statistics of descriptor `j` at the next edge. -/
def statisticsWrites (m : Manager.State) (j : Index) : Bool :=
  (Manager.statisticsAccess m 0).writes j

/-- What the memory gives when the engine writes the word that is read. -/
def StatField.collision (f : StatField) (c : Manager.Collisions) : BitVec 64 :=
  match f with
  | .latency => c.statistics.time
  | .timeAtReq => c.statistics.reqTime
  | .timeAtComp => c.statistics.compTime
  | .bytesAtReq => c.statistics.reqBytes
  | .bytesAtComp => c.statistics.compBytes

/-- What port B finds at index `j`: the content of the memory, unless the engine writes it in the same
cycle. -/
def StatField.content (f : StatField) (m : Manager.State) (i : Manager.Input) (j : Index) :
    BitVec 64 :=
  if statisticsWrites m j then f.collision i.collisions else (f.memory m.memories).mem j

/-! ## Reads and acknowledgements -/

section Runs

variable (p : Instance) (inp : Run)

/-- In cycle `u` the completer still waits for the read taken in cycle `a`. -/
structure Waiting (a u : Nat) : Prop where
  le : a + 2 ≤ u
  read : taken p inp a = .validRdReq
  state : ∀ v, a + 2 ≤ v → v ≤ u → (st p inp v).completer.state = .waitForRdCpl

/-- In cycle `w` the completer offers the completion of the read taken in cycle `a`. -/
def Offering (a w : Nat) : Prop :=
  ∃ u, Waiting p inp a u ∧ (st p inp u).ack = true ∧ u < w ∧
    ∀ v, u < v → v ≤ w → (st p inp v).completer.state = .sendRdCpl

/-- The cycle of the access that the acknowledgement in cycle `u` is for: the last one if `dma_logic`
gives it itself, the one four cycles before if the manager does. -/
def ackedAccess (u : Nat) : Option Nat :=
  if (st p inp u).ctrl.ack then some (u - 1)
  else if (st p inp u).manager.read.ack then some (u - 4)
  else none

/-- Every read ends with its own acknowledgement, and a read of a statistics word returns the content
of its memory in the cycle in which port B reads it. -/
structure ReadsReturnWord : Prop where
  ownAck : ∀ a u, Waiting p inp a u → (st p inp u).ack = true →
    ackedAccess p inp u = some (a + 1)
  statistics : ∀ a w, Offering p inp a w → ∀ (f : StatField) (j : Index),
    wordAddr (inp a).cq = f.word j →
      (st p inp w).completer.ccBeat.data =
        selectData (.ofBeat (inp a).cq)
          (f.content (st p inp (a + 2)).manager (inp (a + 2)).engine j)

/-- No read is taken two or three cycles after a write; a read of the common block may be. -/
def Spaced : Prop :=
  ∀ a, taken p inp a = .validRdReq → wordAddr (inp a).cq ≠ commonBlock → ¬ WriteBehind p inp a

end Runs

section Reads

variable {p : Instance} {inp : Run} {a u : Nat}

theorem Waiting.first (h : taken p inp a = .validRdReq) : Waiting p inp a (a + 2) := by
  refine ⟨Nat.le_refl _, h, ?_⟩
  intro v hav hvu
  obtain rfl : v = a + 2 := by omega
  exact waits_of_read h

/-- Without an acknowledgement the wait goes on. -/
theorem Waiting.next (h : Waiting p inp a u) (hack : (st p inp u).ack = false) :
    Waiting p inp a (u + 1) := by
  refine ⟨by have := h.le; omega, h.read, ?_⟩
  intro v hav hvu
  rcases Nat.lt_or_ge u v with hlt | hge
  · obtain rfl : v = u + 1 := by omega
    rw [state_succ, Completer.nextState, h.state u h.le (Nat.le_refl u)]
    simp [System.completerInput, hack]
  · exact h.state v hav hge

/-- A wait that goes on has not been acknowledged. -/
theorem Waiting.not_ack (h : Waiting p inp a u) {v : Nat} (hav : a + 2 ≤ v) (hvu : v < u) :
    (st p inp v).ack = false := by
  by_contra hack
  rw [Bool.not_eq_false] at hack
  have hs := h.state (v + 1) (by omega) hvu
  rw [state_succ, Completer.nextState, h.state v hav hvu.le] at hs
  simp [System.completerInput, hack] at hs

/-- No other request is taken meanwhile. -/
theorem Waiting.not_sent (h : Waiting p inp a u) {v : Nat} (hav : a < v) (hvu : v ≤ u) :
    sent p inp v = false := by
  have hbusy : (st p inp v).completer.state ≠ .waitForReq := by
    rcases Nat.lt_or_ge v (a + 2) with hlt | hge
    · obtain rfl : v = a + 1 := by omega
      simp [state_of_read h.read]
    · simp [h.state v hge hvu]
  simp [sent, taken, hbusy]

/-- The request stays in the registers. -/
theorem Waiting.req (h : Waiting p inp a u) {v : Nat} (hav : a + 1 ≤ v) (hvu : v ≤ u) :
    (st p inp v).completer.req = .ofBeat (inp a).cq := by
  induction v, hav using Nat.le_induction with
  | base =>
      exact req_of_taken h.read (by simp)
  | succ v hav ih =>
      have hbusy : (st p inp v).completer.state ≠ .waitForReq := by
        rcases Nat.lt_or_ge v (a + 2) with hlt | hge
        · obtain rfl : v = a + 1 := by omega
          simp [state_of_read h.read]
        · simp [h.state v hge (by omega)]
      rw [completer_succ, Completer.step_req, Completer.nextReq, if_neg (by simp [hbusy])]
      exact ih (by omega)

theorem Waiting.word (h : Waiting p inp a u) {v : Nat} (hav : a + 1 ≤ v) (hvu : v ≤ u) :
    (st p inp v).access.word = wordAddr (inp a).cq := by
  rw [HostAccess.word, System.access, Completer.State.addr, h.req hav hvu]
  rfl

/-! ## Which acknowledgement ends a wait -/

variable (hreset : NoUserReset p inp)

include hreset

/-- After the first cycle of the wait only the manager acknowledges. -/
theorem Waiting.not_ctrlAck (h : Waiting p inp a u) (hlt : a + 2 < u) :
    (st p inp u).ctrl.ack = false := by
  obtain ⟨v, rfl⟩ : ∃ v, u = v + 2 := ⟨u - 2, by omega⟩
  exact ctrlAck_of_not_sent hreset (h.not_sent (by omega) (by omega))

/-- The acknowledgements of the manager in the cycles of a wait. -/
theorem Waiting.managerAck (h : Waiting p inp a u) :
    (st p inp u).manager.read.ack = true ↔
      (∃ v, v + 5 = u ∧ v + 2 ≤ a ∧ sent p inp v = true) ∨
        (u = a + 5 ∧ sent p inp a = true) := by
  have hle := h.le
  rcases Nat.lt_or_ge u 5 with hearly | hlate
  · rw [(early_acks hreset).1 u hearly]
    simp only [Bool.false_eq_true, false_iff, not_or, not_exists, not_and]
    exact ⟨fun v hv => by omega, fun hu => by omega⟩
  obtain ⟨v, rfl⟩ : ∃ v, u = v + 5 := ⟨u - 5, by omega⟩
  rw [managerAck_eq hreset v]
  constructor
  · intro hsent
    rcases Nat.lt_trichotomy v a with hlt | heq | hgt
    · -- in the cycle before the read nothing is taken
      refine .inl ⟨v, rfl, ?_, hsent⟩
      by_contra hgt
      obtain rfl : a = v + 1 := by omega
      rw [not_sent_before (state_of_taken h.read (by simp)).1] at hsent
      cases hsent
    · subst heq
      exact .inr ⟨rfl, hsent⟩
    · rw [h.not_sent hgt (by omega)] at hsent
      cases hsent
  · rintro (⟨w, hw, -, hsent⟩ | ⟨hu, hsent⟩)
    · obtain rfl : v = w := by omega
      exact hsent
    · obtain rfl : v = a := by omega
      exact hsent

/-- A read of the common block is acknowledged by `dma_logic` at once. -/
theorem Waiting.common (h : Waiting p inp a u) (hcommon : wordAddr (inp a).cq = commonBlock) :
    u = a + 2 ∧ (st p inp u).ctrl.ack = true := by
  have hctrl : (st p inp (a + 2)).ctrl.ack = true := by
    rw [ctrlAck_of_read hreset h.read, forwarded, hcommon]
    decide
  have hack : (st p inp (a + 2)).ack = true := by
    rw [System.ack, hctrl]
    rfl
  have hu : u = a + 2 := by
    by_contra hne
    have hle := h.le
    rw [h.not_ack (Nat.le_refl _) (by omega)] at hack
    cases hack
  rw [hu]
  exact ⟨rfl, hctrl⟩

/-- Any other read is acknowledged by the manager. -/
theorem Waiting.not_common (h : Waiting p inp a u) (hother : wordAddr (inp a).cq ≠ commonBlock) :
    (st p inp u).ctrl.ack = false := by
  have hle := h.le
  rcases Nat.lt_or_ge (a + 2) u with hlt | hge
  · exact h.not_ctrlAck hreset hlt
  · obtain rfl : u = a + 2 := by omega
    rw [ctrlAck_of_read hreset h.read]
    simp [hother]

/-- Without a write behind it a read is acknowledged four cycles after its own access. -/
theorem Waiting.own (h : Waiting p inp a u) (hother : wordAddr (inp a).cq ≠ commonBlock)
    (hspaced : ¬ WriteBehind p inp a) (hack : (st p inp u).ack = true) :
    u = a + 5 ∧ (st p inp u).ctrl.ack = false ∧ (st p inp u).manager.read.ack = true := by
  have hctrl := h.not_common hreset hother
  have hmanager : (st p inp u).manager.read.ack = true := by
    simpa [System.ack, hctrl] using hack
  refine ⟨?_, hctrl, hmanager⟩
  rcases (h.managerAck hreset).mp hmanager with ⟨v, hv, hva, hsent⟩ | ⟨hu, -⟩
  · -- the acknowledgement of an earlier access would be the one of a write behind the read
    exfalso
    have hle := h.le
    refine hspaced ((writeBehind_iff (state_of_taken h.read (by simp)).1).mpr ⟨v, ?_, hsent⟩)
    omega
  · exact hu

/-- A write behind a read ends its wait. -/
theorem spaced_of_ownAck (hown : ∀ a u, Waiting p inp a u → (st p inp u).ack = true →
    ackedAccess p inp u = some (a + 1)) : Spaced p inp := by
  intro a hread hother hbehind
  obtain ⟨v, hv, hsent⟩ := (writeBehind_iff (state_of_taken hread (by simp)).1).mp hbehind
  -- the wait goes on until the acknowledgement of the write, or until an earlier one, and neither of
  -- them is for the access of the read
  have hfirst := Waiting.first hread
  have hearly : ∀ u, Waiting p inp a u → u ≤ a + 3 → (st p inp u).ack = true → False := by
    intro u hu hle hack
    have hctrl := hu.not_common hreset hother
    have hmanager : (st p inp u).manager.read.ack = true := by
      simpa [System.ack, hctrl] using hack
    have hacked := hown a u hu hack
    rw [ackedAccess, if_neg (by simp [hctrl]), if_pos hmanager, Option.some.injEq] at hacked
    omega
  by_cases hack : (st p inp (a + 2)).ack = true
  · exact hearly (a + 2) hfirst (by omega) hack
  · rw [Bool.not_eq_true] at hack
    have hnext := hfirst.next hack
    rcases hv with rfl | rfl
    · -- a write two cycles before is acknowledged in the second cycle of the wait
      refine hearly (v + 2 + 3) hnext (by omega) ?_
      have hctrl := hnext.not_common hreset hother
      rw [System.ack, if_neg (by simp [hctrl])]
      exact (hnext.managerAck hreset).mpr (.inl ⟨v, by omega, by omega, hsent⟩)
    · -- and one three cycles before already in the first
      have hctrl := hfirst.not_common hreset hother
      rw [System.ack, if_neg (by simp [hctrl]),
        (hfirst.managerAck hreset).mpr (.inl ⟨v, by omega, by omega, hsent⟩)] at hack
      cases hack

omit hreset

/-! ## The way of the data -/

/-- The statistics words lie between the engine registers and the common block. -/
theorem StatField.word_toNat (f : StatField) (j : Index) :
    (f.word j).toNat = 0x208 + 8 * j.toNat + f.offset.toNat ∧
      3 ≤ f.offset.toNat ∧ f.offset.toNat ≤ 7 := by
  have hj := j.isLt
  have hoffset : 3 ≤ f.offset.toNat ∧ f.offset.toNat ≤ 7 := by
    cases f <;> decide
  refine ⟨?_, hoffset⟩
  have hstart : (engineTableOffset + offsetEnginesConfig).toNat = 0x208 := by decide
  have hsize : offsetBetweenDescriptors.toNat = 8 := by decide
  rw [StatField.word, BitVec.toNat_add, BitVec.toNat_add, BitVec.toNat_mul, BitVec.toNat_setWidth,
    hstart, hsize]
  omega

/-- The statistics words are neither engine registers nor the common block. -/
theorem StatField.word_ne (f : StatField) (j : Index) :
    f.word j ≠ commonBlock ∧ f.word j ≠ engineTableOffset ∧ f.word j ≠ engineTableOffset + 1 ∧
      f.word j ≠ engineTableOffset + 2 ∧ f.word j ≠ engineTableOffset + 3 := by
  have hj := j.isLt
  obtain ⟨hword, hlow, hhigh⟩ := f.word_toNat j
  -- the statistics words lie in `[0x20b, 0x2207]`
  have hne : ∀ w : BitVec 32, w.toNat < 0x20b ∨ 0x2207 < w.toNat → f.word j ≠ w := by
    rintro w hw rfl
    omega
  exact ⟨hne _ (by decide), hne _ (by decide), hne _ (by decide), hne _ (by decide),
    hne _ (by decide)⟩

/-- The decoders find the index and the field of a statistics word. -/
theorem StatField.decode {h : HostAccess} {f : StatField} {j : Index} (hword : h.word = f.word j) :
    h.tableIndex f.offset = j ∧ h.effectiveField = f.offset.setWidth 3 := by
  have hj := j.isLt
  rw [HostAccess.tableIndex, HostAccess.effectiveField, HostAccess.effectiveAddress, hword]
  have hsub : f.word j - engineTableOffset - offsetEnginesConfig - f.offset =
      j.setWidth 32 * offsetBetweenDescriptors := by
    cases f <;>
      simp only [StatField.word, StatField.offset, engineTableOffset, offsetEnginesConfig,
        offsetBetweenDescriptors] <;>
      bv_omega
  have hmul : (j.setWidth 32 * offsetBetweenDescriptors).toNat = 8 * j.toNat := by
    rw [BitVec.toNat_mul, BitVec.toNat_setWidth]
    have : offsetBetweenDescriptors.toNat = 8 := rfl
    rw [this]
    omega
  constructor
  · -- `effective_address / C_OFFSET_BETWEEN_DESCRIPTORS`
    rw [hsub]
    apply BitVec.eq_of_toNat_eq
    rw [BitVec.toNat_setWidth, BitVec.toNat_udiv, hmul]
    have : offsetBetweenDescriptors.toNat = 8 := rfl
    rw [this]
    omega
  · have hadd : f.word j - engineTableOffset - offsetEnginesConfig =
        j.setWidth 32 * offsetBetweenDescriptors + f.offset := by
      rw [← hsub, BitVec.sub_add_cancel]
    rw [hadd]
    apply BitVec.eq_of_toNat_eq
    rw [BitVec.toNat_setWidth, BitVec.toNat_add, hmul, BitVec.toNat_setWidth]
    omega

/-- Port B of a statistics memory. -/
def StatField.portAddr (f : StatField) (s : Manager.StatisticsPort) : Index :=
  match f with
  | .latency => s.addraTime
  | .timeAtReq => s.addraReqTime
  | .timeAtComp => s.addraCompTime
  | .bytesAtReq => s.addraReqBytes
  | .bytesAtComp => s.addraCompBytes

theorem StatField.portAddr_step (f : StatField) (s : Manager.State) (i : Manager.Input) :
    f.portAddr (Manager.step s i).statisticsPort = i.host.tableIndex f.offset := by
  cases f <;> rfl

/-- Port B reads the word of its address. -/
theorem StatField.latchb_step (f : StatField) {s : Manager.State} {j : Index} (i : Manager.Input)
    (haddr : f.portAddr s.statisticsPort = j) :
    (f.memory (Manager.step s i).memories).latchb = f.content s i j := by
  subst haddr
  cases f <;> rfl

theorem StatField.doutb_step (f : StatField) (s : Manager.State) (i : Manager.Input) :
    (f.memory (Manager.step s i).memories).doutb = (f.memory s.memories).latchb := by
  cases f <;> rfl

/-- The word that the manager selects. -/
theorem StatField.descriptorRead_eq (f : StatField) {s : Manager.State} {i : Manager.Input}
    (hfield : i.host.effectiveField = f.offset.setWidth 3) :
    Manager.descriptorRead s i = (f.memory s.memories).doutb := by
  rw [Manager.descriptorRead, hfield]
  cases f <;> rfl

theorem engineRead_none {s : Manager.State} {i : Manager.Input} {f : StatField} {j : Index}
    (hword : i.host.word = f.word j) : Manager.engineRead s i = none := by
  obtain ⟨-, h0, h1, h2, h3⟩ := f.word_ne j
  rw [Manager.engineRead, hword, if_neg h0, if_neg h1, if_neg h2, if_neg h3]

/-- A read of the host that keeps its address for the four cycles of the memory returns what port B
found, together with its acknowledgement. -/
theorem StatField.read_returns (f : StatField) {j : Index} {m : Nat → Manager.State}
    {inp : Nat → Manager.Input} (hstep : ∀ v, m (v + 1) = Manager.step (m v) (inp v)) {r : Nat}
    (hen : (inp r).host.en = true)
    (hword : ∀ v, r ≤ v → v ≤ r + 3 → (inp v).host.word = f.word j) :
    (m (r + 4)).read.ack = true ∧ (m (r + 4)).dout = f.content (m (r + 1)) (inp (r + 1)) j := by
  -- the address is not that of an engine register, so the descriptors drive `DOUT`
  have hread : (m (r + 4)).read.isEngineRead = false :=
    Manager.isEngineRead_of_none hstep hen (fun v hrv hvr => engineRead_none (hword v hrv hvr))
  have haddr : f.portAddr (m (r + 1)).statisticsPort = j := by
    rw [hstep, StatField.portAddr_step]
    exact (StatField.decode (hword r (by omega) (by omega))).1
  -- the word passes the latch of port B, its output register and `rdata_descriptor_r`
  have hlatch : (f.memory (m (r + 2)).memories).latchb = f.content (m (r + 1)) (inp (r + 1)) j := by
    rw [hstep (r + 1)]
    exact f.latchb_step _ haddr
  have hdout : (f.memory (m (r + 3)).memories).doutb = f.content (m (r + 1)) (inp (r + 1)) j := by
    rw [hstep (r + 2), StatField.doutb_step, hlatch]
  have hrdata : (m (r + 4)).read.rdataDescriptor = f.content (m (r + 1)) (inp (r + 1)) j := by
    rw [hstep (r + 3), ← hdout]
    exact f.descriptorRead_eq (StatField.decode (hword (r + 3) (by omega) (by omega))).2
  refine ⟨?_, ?_⟩
  · simp [hstep, Manager.nextRead, hen]
  · rw [Manager.State.dout, hread, ← hrdata]
    rfl

include hreset

/-- In the cycle of its own acknowledgement the interface shows the statistics word. -/
theorem Waiting.dout (h : Waiting p inp a (a + 5)) {f : StatField} {j : Index}
    (hword : wordAddr (inp a).cq = f.word j) (hsent : sent p inp a = true) :
    (st p inp (a + 5)).manager.dout = f.content (st p inp (a + 2)).manager (inp (a + 2)).engine j := by
  have hen : ((st p inp (a + 1)).managerInput (inp (a + 1))).host.en = true := by
    simp [System.managerInput, access_en_succ, hsent]
  have hhost : ∀ v, a + 1 ≤ v → v ≤ a + 1 + 3 →
      ((st p inp v).managerInput (inp v)).host.word = f.word j := by
    intro v hav hvu
    rw [← hword]
    exact h.word hav (by omega)
  exact (f.read_returns (m := fun v => (st p inp v).manager) (fun v => manager_succ hreset v) hen
    hhost).2

omit hreset

/-- The completion that is offered holds what the interface showed in the cycle of the
acknowledgement. -/
theorem Waiting.offered {w : Nat} (h : Waiting p inp a u) (huw : u < w)
    (hsend : ∀ v, u < v → v ≤ w → (st p inp v).completer.state = .sendRdCpl) :
    (st p inp w).completer.ccBeat.data =
      selectData (.ofBeat (inp a).cq) (st p inp u).dout := by
  rw [CcBeat.data, Completer.State.ccBeat, packCompletion_data]
  induction w, huw using Nat.le_induction with
  | base =>
      rw [completer_succ, Completer.step_cpl, Completer.nextCpl,
        if_pos (h.state u h.le (Nat.le_refl u)), h.req (by have := h.le; omega) (Nat.le_refl u)]
      rfl
  | succ w huw ih =>
      rw [completer_succ, Completer.step_cpl, Completer.nextCpl,
        if_neg (by simp [hsend w huw (by omega)])]
      exact ih (fun v huv hvw => hsend v huv (by omega))

/-- Every register read is ended by its own acknowledgement, and a read of a statistics word returns
the content of its memory, if and only if the reads are spaced from the writes before them. -/
theorem reads_return_word (hreset : NoUserReset p inp) :
    ReadsReturnWord p inp ↔ Spaced p inp := by
  constructor
  · intro hreads
    exact spaced_of_ownAck hreset hreads.ownAck
  · intro hspaced
    refine ⟨?_, ?_⟩
    · intro a u h hack
      by_cases hcommon : wordAddr (inp a).cq = commonBlock
      · -- `dma_logic` itself answers
        obtain ⟨rfl, hctrl⟩ := h.common hreset hcommon
        rw [ackedAccess, if_pos hctrl]
        rfl
      · obtain ⟨rfl, hctrl, hmanager⟩ := h.own hreset hcommon (hspaced a h.read hcommon) hack
        rw [ackedAccess, if_neg (by simp [hctrl]), if_pos hmanager]
        rfl
    · rintro a w ⟨u, h, hack, huw, hsend⟩ f j hword
      have hother : wordAddr (inp a).cq ≠ commonBlock := by
        rw [hword]
        exact (f.word_ne j).1
      obtain ⟨rfl, hctrl, hmanager⟩ := h.own hreset hother (hspaced a h.read hother) hack
      have hsent : sent p inp a = true := by
        rwa [managerAck_eq hreset a] at hmanager
      rw [h.offered huw hsend, System.dout, if_neg (by simp [hctrl]),
        h.dout hreset hword hsent]

end Reads

/-- A read of the latency of the first descriptor is acknowledged in cycle 6, and by its own
acknowledgement. -/
theorem reads_return_word_latency :
    (st cleared (requests (readWord 0x20b)) 6).ack = true ∧
      ReadsReturnWord cleared (requests (readWord 0x20b)) := by
  refine ⟨by decide, (reads_return_word (readWord_noUserReset 0x20b (by decide))).mpr ?_⟩
  -- the only request of the run is the read itself
  rintro a - - ⟨v, -, hwrite, -⟩
  by_cases hv : v = 1
  · subst hv
    revert hwrite
    decide
  · have hnone : decodedReq 0 (requests (readWord 0x20b) v).cq = .noReq := by
      rw [requests, readWord, if_neg hv]
      decide
    rw [taken, hnone, ite_self] at hwrite
    cases hwrite

/-- A write of the first engine register in cycle 1 and a read of the latency of the first descriptor
in cycle 3. -/
def writeThenRead : Nat → CqBeat := fun t =>
  if t = 1 then requestBeat memWrReq 0 7 1 (0x200#61 ++ 0#1) 0x0f
  else if t = 3 then requestBeat memRdReq 0 8 2 (0x20b#61 ++ 0#1) 0xff
  else noRequest

theorem writeThenRead_noUserReset : NoUserReset cleared (requests writeThenRead) := by
  refine noUserReset_of_writes ?_
  intro t hwrite
  by_cases ht : t = 1
  · subst ht
    decide
  · by_cases hread : t = 3
    · subst hread
      revert hwrite
      decide
    · have hnone : decodedReq 0 (requests writeThenRead t).cq = .noReq := by
        rw [requests, writeThenRead, if_neg ht, if_neg hread]
        decide
      rw [hnone] at hwrite
      cases hwrite

/-- The acknowledgement of the write in cycle 1 ends the read of cycle 3. -/
theorem write_ends_read :
    NoUserReset cleared (requests writeThenRead) ∧
      ¬ ReadsReturnWord cleared (requests writeThenRead) := by
  refine ⟨writeThenRead_noUserReset, ?_⟩
  intro hreads
  have hwaiting : Waiting cleared (requests writeThenRead) 3 6 := by
    refine ⟨by omega, by decide, ?_⟩
    intro v hv hv'
    obtain rfl | rfl : v = 5 ∨ v = 6 := by omega
    · decide
    · decide
  have hacked := hreads.ownAck 3 6 hwaiting (by decide)
  revert hacked
  decide

end Bar0
end PcieBench
