import PcieBench.Clocked.Bram
import PcieBench.Completer.Requests

/-!
# The byte lanes of the memory interface

A request names dwords, the memory behind `pcie_completer_to_bram` has words of two dwords.  A request
of one dword goes to the half of the word that its address selects.  A request of two dwords goes to one
word as it is, which is right at an even dword address only.
-/

namespace PcieBench
namespace Completer

open Clocked Tlp

/-! ## Byte addresses -/

/-- The word and the lane of byte address `x` of the BAR; the interface has 24 address bits. -/
def place (x : Nat) : BitVec 24 × Nat := (BitVec.ofNat 24 (x / 8), x % 8)

/-- The dword at dword address `x`. -/
def dwordAt (mem : BitVec 24 → BitVec 64) (x : Nat) : BitVec 32 :=
  (mem (BitVec.ofNat 24 (x / 2))).extractLsb' (32 * (x % 2)) 32

namespace Request

variable (r : Request)

/-- The number of bytes of a request. -/
def size : Nat := 4 * r.dwordCnt.toNat

/-- Where byte `i` of the payload belongs. -/
def byteAddr (i : Nat) : Nat := 4 * r.addr.toNat + i

/-- The byte enable of byte `i` of the payload. -/
def enabled (i : Nat) : Bool := if i < 4 then r.firstBe.getLsbD i else r.lastBe.getLsbD (i - 4)

/-- The update of the enabled bytes of the request leads from `m` to `m'`. -/
structure Updates (m m' : ByteMemory (BitVec 24)) : Prop where
  written : ∀ i, i < r.size → r.enabled i = true →
    m' (place (r.byteAddr i)).1 (place (r.byteAddr i)).2 = byte r.data i
  kept : ∀ a b, b < 8 → (∀ i, i < r.size → r.enabled i = true → (a, b) ≠ place (r.byteAddr i)) →
    m' a b = m a b

/-- The request stays inside one word of the memory. -/
def InWord : Prop := r.dwordCnt = 1 ∨ r.addr.getLsbD 0 = false

end Request

/-! ## What the interface shows -/

section Interface

variable (p : Instance) (inp : Run)

/-- A write accepted in cycle `a` is presented in the next cycle as the update of its bytes. -/
structure WritePresented (a : Nat) : Prop where
  en : (st p inp (a + 1)).en = true
  updates : ∀ m : ByteMemory (BitVec 24), (Request.ofBeat (inp a).cq).Updates m
    (m.store (st p inp (a + 1)).addr (st p inp (a + 1)).we (st p inp (a + 1)).din)

/-- In cycle `w` the completion of the request accepted in cycle `a` holds the dwords of the memory. -/
def ReadPresented (mem : BitVec 24 → BitVec 64) (a w : Nat) : Prop :=
  ∀ d, d < (inp a).cq.dwordCnt.toNat →
    (st p inp w).ccBeat.data.extractLsb' (32 * d) 32 = dwordAt mem ((inp a).cq.addr.toNat + d)

/-- A memory with the contents `mem u` in cycle `u` answers the reads: with the acknowledgement it shows
the word of the address. -/
def AnsweredFrom (mem : Nat → BitVec 24 → BitVec 64) : Prop :=
  ∀ u, (st p inp u).state = .waitForRdCpl → (inp u).ack = true →
    (inp u).dout = mem u (st p inp u).addr

end Interface

/-! ## Places -/

section Places

variable (r : Request)

theorem wordAddr_toNat : (r.addr.extractLsb' 1 24).toNat = r.addr.toNat / 2 % 2 ^ 24 := by
  simp [BitVec.extractLsb'_toNat, Nat.shiftRight_eq_div_pow]

theorem addr_odd_iff : r.addr.getLsbD 0 = true ↔ r.addr.toNat % 2 = 1 := by
  rw [BitVec.getLsbD, Nat.testBit_zero, decide_eq_true_eq]

theorem addr_even_iff : r.addr.getLsbD 0 = false ↔ r.addr.toNat % 2 = 0 := by
  rw [← Bool.not_eq_true, addr_odd_iff]
  omega

theorem ofNat_wordAddr {n : Nat} (h : n = r.addr.toNat / 2) :
    BitVec.ofNat 24 n = r.addr.extractLsb' 1 24 := by
  apply BitVec.eq_of_toNat_eq
  rw [wordAddr_toNat, BitVec.toNat_ofNat, h]

/-- At an even dword address the bytes lie on their own lanes. -/
theorem place_even (h : r.addr.getLsbD 0 = false) {i : Nat} (hi : i < 8) :
    place (r.byteAddr i) = (r.addr.extractLsb' 1 24, i) := by
  rw [addr_even_iff] at h
  simp only [place, Request.byteAddr, Prod.mk.injEq]
  exact ⟨ofNat_wordAddr r (by omega), by omega⟩

/-- At an odd one the first four bytes lie in the upper half of the word. -/
theorem place_odd (h : r.addr.getLsbD 0 = true) {i : Nat} (hi : i < 4) :
    place (r.byteAddr i) = (r.addr.extractLsb' 1 24, 4 + i) := by
  rw [addr_odd_iff] at h
  simp only [place, Request.byteAddr, Prod.mk.injEq]
  exact ⟨ofNat_wordAddr r (by omega), by omega⟩

/-- The other four lie in the next word. -/
theorem place_next (h : r.addr.getLsbD 0 = true) {i : Nat} (hi : 4 ≤ i) (hi8 : i < 8) :
    place (r.byteAddr i) = (r.addr.extractLsb' 1 24 + 1, i - 4) := by
  rw [addr_odd_iff] at h
  simp only [place, Request.byteAddr, Prod.mk.injEq]
  refine ⟨?_, by omega⟩
  rw [← ofNat_wordAddr r rfl]
  apply BitVec.eq_of_toNat_eq
  have hone : BitVec.toNat (1 : BitVec 24) = 1 := rfl
  rw [BitVec.toNat_add, BitVec.toNat_ofNat, BitVec.toNat_ofNat, hone]
  omega

end Places

/-! ## Writes -/

section Writes

variable (r : Request)

/-- A store updates the bytes of the request if it puts byte `i` on lane `o + i` of their word. -/
theorem updates_of_lanes {a : BitVec 24} {we : BitVec 8} {din : BitVec 64} {o : Nat}
    (hplace : ∀ i, i < r.size → place (r.byteAddr i) = (a, o + i))
    (hwe : ∀ b, b < 8 →
      (we.getLsbD b = true ↔ ∃ i, i < r.size ∧ b = o + i ∧ r.enabled i = true))
    (hdin : ∀ i, i < r.size → byte din (o + i) = byte r.data i) (m : ByteMemory (BitVec 24))
    (hlane : o + r.size ≤ 8) : r.Updates m (m.store a we din) where
  written i hi hen := by
    have hbyte := (hwe (o + i) (by omega)).mpr ⟨i, hi, rfl, hen⟩
    rw [hplace i hi, ByteMemory.store, if_pos ⟨rfl, hbyte⟩, hdin i hi]
  kept k b hb hother := by
    rw [ByteMemory.store, if_neg]
    rintro ⟨rfl, hbyte⟩
    obtain ⟨i, hi, rfl, hen⟩ := (hwe b hb).mp hbyte
    exact hother i hi hen (hplace i hi).symm

theorem getLsbD_upper (be : BitVec 4) (b : Nat) :
    (be ++ 0#4).getLsbD b = (decide (4 ≤ b) && be.getLsbD (b - 4)) := by
  rw [BitVec.getLsbD_append]
  by_cases hb : b < 4
  · simp [hb]
  · simp [hb, show 4 ≤ b by omega]

theorem getLsbD_lower (be : BitVec 4) (b : Nat) :
    (0#4 ++ be).getLsbD b = (decide (b < 4) && be.getLsbD b) := by
  rw [BitVec.getLsbD_append]
  by_cases hb : b < 4
  · simp [hb]
  · simp [hb]

theorem byte_upper (x : BitVec 64) {i : Nat} (hi : i < 4) :
    byte (x.extractLsb' 0 32 ++ 0#32) (4 + i) = byte x i := by
  apply BitVec.eq_of_getLsbD_eq
  intro k hk
  simp only [byte, BitVec.getLsbD_extractLsb', BitVec.getLsbD_append, hk]
  rw [if_neg (by omega), show 8 * (4 + i) + k - 32 = 8 * i + k by omega]
  simp [show 8 * i + k < 32 by omega]

theorem byte_lower (x : BitVec 64) {i : Nat} (hi : i < 4) :
    byte (0#32 ++ x.extractLsb' 0 32) i = byte x i := by
  apply BitVec.eq_of_getLsbD_eq
  intro k hk
  simp only [byte, BitVec.getLsbD_extractLsb', BitVec.getLsbD_append, hk]
  rw [if_pos (by omega)]
  simp [show 8 * i + k < 32 by omega]

theorem getLsbD_both (r : Request) (b : Nat) :
    (r.lastBe ++ r.firstBe).getLsbD b = r.enabled b := by
  rw [BitVec.getLsbD_append, Request.enabled]

/-- One dword at an odd address is written to the upper lanes. -/
theorem updates_of_upper {s : State} (hs : s.state = .storeWrReq) (hone : s.req.dwordCnt = 1)
    (hodd : s.req.addr.getLsbD 0 = true) (m : ByteMemory (BitVec 24)) :
    s.req.Updates m (m.store s.addr s.we s.din) := by
  have hsize : s.req.size = 4 := by rw [Request.size, hone]; rfl
  have hwe : s.we = s.req.firstBe ++ 0#4 := by
    rw [State.we, if_pos hs, if_pos hone, if_pos hodd]
  have hdin : s.din = s.req.data.extractLsb' 0 32 ++ 0#32 := by
    rw [State.din, if_pos hs, if_pos hone, if_pos hodd]
  rw [hwe, hdin]
  refine updates_of_lanes s.req (o := 4) ?_ ?_ ?_ m (by omega)
  · intro i hi
    exact place_odd s.req hodd (by omega)
  · intro b hb
    rw [getLsbD_upper, Bool.and_eq_true, decide_eq_true_eq]
    constructor
    · rintro ⟨hb4, hen⟩
      refine ⟨b - 4, by omega, by omega, ?_⟩
      rw [Request.enabled, if_pos (by omega)]
      exact hen
    · rintro ⟨i, hi, rfl, hen⟩
      rw [Request.enabled, if_pos (by omega)] at hen
      rw [Nat.add_sub_cancel_left]
      exact ⟨by omega, hen⟩
  · intro i hi
    exact byte_upper _ (by omega)

/-- One dword at an even address is written to the lower lanes. -/
theorem updates_of_lower {s : State} (hs : s.state = .storeWrReq) (hone : s.req.dwordCnt = 1)
    (heven : s.req.addr.getLsbD 0 = false) (m : ByteMemory (BitVec 24)) :
    s.req.Updates m (m.store s.addr s.we s.din) := by
  have hsize : s.req.size = 4 := by rw [Request.size, hone]; rfl
  have hwe : s.we = 0#4 ++ s.req.firstBe := by
    rw [State.we, if_pos hs, if_pos hone, heven, if_neg (by simp)]
  have hdin : s.din = 0#32 ++ s.req.data.extractLsb' 0 32 := by
    rw [State.din, if_pos hs, if_pos hone, heven, if_neg (by simp)]
  rw [hwe, hdin]
  refine updates_of_lanes s.req (o := 0) ?_ ?_ ?_ m (by omega)
  · intro i hi
    rw [Nat.zero_add]
    exact place_even s.req heven (by omega)
  · intro b hb
    rw [getLsbD_lower, Bool.and_eq_true, decide_eq_true_eq]
    constructor
    · rintro ⟨hb4, hen⟩
      refine ⟨b, by omega, by omega, ?_⟩
      rw [Request.enabled, if_pos hb4]
      exact hen
    · rintro ⟨i, hi, rfl, hen⟩
      rw [Request.enabled, if_pos (by omega)] at hen
      rw [Nat.zero_add]
      exact ⟨by omega, hen⟩
  · intro i hi
    rw [Nat.zero_add]
    exact byte_lower _ (by omega)

/-- Two dwords at an even address fill the word. -/
theorem updates_of_both {s : State} (hs : s.state = .storeWrReq) (htwo : s.req.dwordCnt = 2)
    (heven : s.req.addr.getLsbD 0 = false) (m : ByteMemory (BitVec 24)) :
    s.req.Updates m (m.store s.addr s.we s.din) := by
  have hsize : s.req.size = 8 := by rw [Request.size, htwo]; rfl
  have hwe : s.we = s.req.lastBe ++ s.req.firstBe := by simp [State.we, hs, htwo]
  have hdin : s.din = s.req.data := by simp [State.din, hs, htwo]
  rw [hwe, hdin]
  refine updates_of_lanes s.req (o := 0) ?_ ?_ ?_ m (by omega)
  · intro i hi
    rw [Nat.zero_add]
    exact place_even s.req heven (by omega)
  · intro b hb
    rw [getLsbD_both]
    constructor
    · intro hen
      exact ⟨b, by omega, by omega, hen⟩
    · rintro ⟨i, -, rfl, hen⟩
      rw [Nat.zero_add]
      exact hen
  · intro i _
    rw [Nat.zero_add]

/-- Inside one word every byte finds its lane. -/
theorem updates_of_inWord {s : State} (hs : s.state = .storeWrReq)
    (hcnt : s.req.dwordCnt = 1 ∨ s.req.dwordCnt = 2) (hword : s.req.InWord)
    (m : ByteMemory (BitVec 24)) : s.req.Updates m (m.store s.addr s.we s.din) := by
  rcases hcnt with hone | htwo
  · cases hodd : s.req.addr.getLsbD 0 with
    | true =>
        exact updates_of_upper hs hone hodd m
    | false =>
        exact updates_of_lower hs hone hodd m
  · refine updates_of_both hs htwo ?_ m
    rcases hword with hone | heven
    · rw [htwo] at hone
      cases hone
    · exact heven

/-- Across two words some memory shows that an enabled byte goes to the wrong place. -/
theorem not_enabled_of_updates {s : State} (hs : s.state = .storeWrReq)
    (htwo : s.req.dwordCnt = 2) (hodd : s.req.addr.getLsbD 0 = true)
    (h : ∀ m : ByteMemory (BitVec 24), s.req.Updates m (m.store s.addr s.we s.din)) {i : Nat}
    (hi : i < 8) : s.req.enabled i = false := by
  by_contra hen
  rw [Bool.not_eq_false] at hen
  have hsize : s.req.size = 8 := by rw [Request.size, htwo]; rfl
  have hwe : s.we = s.req.lastBe ++ s.req.firstBe := by simp [State.we, hs, htwo]
  have hdin : s.din = s.req.data := by simp [State.din, hs, htwo]
  have hne : ~~~ byte s.req.data i ≠ byte s.req.data i := by
    intro heq
    have hbit := congrArg (fun x : BitVec 8 => x.getLsbD 0) heq
    simp at hbit
  have hnext : s.addr ≠ s.addr + 1 := by
    intro heq
    simp at heq
  -- a memory that holds another byte everywhere
  have hupdates := h (fun _ _ => ~~~ byte s.req.data i)
  rcases Nat.lt_or_ge i 4 with hlow | hhigh
  · -- lane `i` of the word is written and should be kept
    have hkept := hupdates.kept s.addr i (by omega) (by
      intro k hk _ heq
      rcases Nat.lt_or_ge k 4 with hk4 | hk4
      · rw [place_odd s.req hodd hk4, Prod.mk.injEq] at heq
        omega
      · rw [place_next s.req hodd hk4 (by omega), Prod.mk.injEq] at heq
        exact hnext heq.1)
    rw [ByteMemory.store, hwe, getLsbD_both, if_pos ⟨rfl, hen⟩, hdin] at hkept
    exact hne hkept.symm
  · -- the next word is not written
    have hwritten := hupdates.written i (by omega) hen
    rw [place_next s.req hodd hhigh hi, ByteMemory.store, if_neg (fun hc => hnext hc.1)] at hwritten
    exact hne hwritten

theorem enabled_eq_zero_iff {r : Request} :
    (∀ i, i < 8 → r.enabled i = false) ↔ r.firstBe = 0 ∧ r.lastBe = 0 := by
  constructor
  · intro h
    constructor
    · apply BitVec.eq_of_getLsbD_eq
      intro k hk
      have hlow := h k (by omega)
      rw [Request.enabled, if_pos hk] at hlow
      rw [hlow]
      simp
    · apply BitVec.eq_of_getLsbD_eq
      intro k hk
      have hhigh := h (4 + k) (by omega)
      rw [Request.enabled, if_neg (by omega), Nat.add_sub_cancel_left] at hhigh
      rw [hhigh]
      simp
  · rintro ⟨hfirst, hlast⟩ i _
    rw [Request.enabled, hfirst, hlast]
    simp

/-- The store of a write in progress is the update of its bytes if they lie in one word, or if none is
enabled. -/
theorem updates_iff {s : State} (hs : s.state = .storeWrReq)
    (hcnt : s.req.dwordCnt = 1 ∨ s.req.dwordCnt = 2) :
    (∀ m : ByteMemory (BitVec 24), s.req.Updates m (m.store s.addr s.we s.din)) ↔
      s.req.InWord ∨ (s.req.firstBe = 0 ∧ s.req.lastBe = 0) := by
  constructor
  · intro h
    by_cases hword : s.req.InWord
    · exact .inl hword
    · -- two dwords at an odd address: any enabled byte would be misplaced in some memory
      simp only [Request.InWord, not_or, Bool.not_eq_false] at hword
      obtain ⟨hone, hodd⟩ := hword
      have htwo := hcnt.resolve_left hone
      exact .inr (enabled_eq_zero_iff.mp fun i hi => not_enabled_of_updates hs htwo hodd h hi)
  · rintro (hword | hnone) m
    · exact updates_of_inWord hs hcnt hword m
    · -- without byte enables nothing is written, wherever it would go
      have hoff := enabled_eq_zero_iff.mpr hnone
      have hsize : s.req.size ≤ 8 := by
        rcases hcnt with hc | hc <;> rw [Request.size, hc] <;> decide
      have hwe : s.we = 0#8 := by
        rw [State.we, hnone.1, hnone.2]
        simp
      refine ⟨?_, ?_⟩
      · intro i hi hen
        rw [hoff i (by omega)] at hen
        cases hen
      · intro a b _ _
        rw [ByteMemory.store, hwe, if_neg (by simp)]

end Writes

/-! ## Reads -/

section Reads

variable (r : Request) (mem : BitVec 24 → BitVec 64)

/-- The dwords of the word that a request addresses. -/
theorem dwordAt_word {x : Nat} (h : x / 2 = r.addr.toNat / 2) :
    dwordAt mem x = (mem (r.addr.extractLsb' 1 24)).extractLsb' (32 * (x % 2)) 32 := by
  rw [dwordAt, ofNat_wordAddr r h]

theorem extract_append_low (x : BitVec 32) : (0#32 ++ x).extractLsb' 0 32 = x := by
  apply BitVec.eq_of_getLsbD_eq
  intro k hk
  rw [BitVec.getLsbD_extractLsb', Nat.zero_add, BitVec.getLsbD_append, if_pos hk]
  simp [hk]

/-- A read of one dword. -/
theorem selectData_one (hone : r.dwordCnt = 1) :
    (selectData r (mem (r.addr.extractLsb' 1 24))).extractLsb' 0 32 = dwordAt mem r.addr.toNat := by
  rw [dwordAt_word r mem rfl, selectData, if_pos hone]
  cases hodd : r.addr.getLsbD 0 with
  | true =>
      rw [(addr_odd_iff r).mp hodd, if_pos rfl, extract_append_low]
  | false =>
      rw [(addr_even_iff r).mp hodd, if_neg (by simp), extract_append_low]

/-- A read of two dwords gets the two dwords of the word. -/
theorem selectData_two (htwo : r.dwordCnt = 2) {d : Nat} (hd : d < 2) :
    (selectData r (mem (r.addr.extractLsb' 1 24))).extractLsb' (32 * d) 32 =
      dwordAt mem (r.addr.toNat / 2 * 2 + d) := by
  have hne : r.dwordCnt ≠ 1 := by
    rw [htwo]
    decide
  rw [dwordAt_word r mem (by omega), selectData, if_neg hne,
    show (r.addr.toNat / 2 * 2 + d) % 2 = d by omega]

/-- The dwords at an odd address and on both sides of it are equal. -/
def Level (x : Nat) : Prop :=
  dwordAt mem (x - 1) = dwordAt mem x ∧ dwordAt mem x = dwordAt mem (x + 1)

/-- The dwords of a read are those of the memory if they lie in one word, or by coincidence. -/
theorem selectData_iff (hcnt : r.dwordCnt = 1 ∨ r.dwordCnt = 2) :
    (∀ d, d < r.dwordCnt.toNat →
        (selectData r (mem (r.addr.extractLsb' 1 24))).extractLsb' (32 * d) 32 =
          dwordAt mem (r.addr.toNat + d)) ↔
      r.InWord ∨ Level mem r.addr.toNat := by
  rcases hcnt with hone | htwo
  · have hn : r.dwordCnt.toNat = 1 := by rw [hone]; rfl
    refine ⟨fun _ => .inl (.inl hone), ?_⟩
    rintro - d hd
    obtain rfl : d = 0 := by omega
    exact selectData_one r mem hone
  · have hn : r.dwordCnt.toNat = 2 := by rw [htwo]; rfl
    have hne : r.dwordCnt ≠ 1 := by
      rw [htwo]
      decide
    have hread := fun {d : Nat} (hd : d < 2) => selectData_two r mem htwo hd
    cases hodd : r.addr.getLsbD 0 with
    | false =>
        -- the two dwords are the word
        have heven := (addr_even_iff r).mp hodd
        refine ⟨fun _ => .inl (.inr hodd), ?_⟩
        rintro - d hd
        rw [hread (by omega), show r.addr.toNat / 2 * 2 = r.addr.toNat by omega]
    | true =>
        -- the word starts one dword before the request, so each dword comes from the one before it
        have hrest := (addr_odd_iff r).mp hodd
        constructor
        · intro h
          have hfirst := h 0 (by omega)
          have hsecond := h 1 (by omega)
          rw [hread (by omega), show r.addr.toNat / 2 * 2 + 0 = r.addr.toNat - 1 by omega] at hfirst
          rw [hread (by omega), show r.addr.toNat / 2 * 2 + 1 = r.addr.toNat by omega] at hsecond
          exact .inr ⟨hfirst, hsecond⟩
        · rintro (hword | hlevel)
          · rcases hword with hone | heven
            · exact absurd hone hne
            · rw [hodd] at heven
              cases heven
          · intro d hd
            rw [hread (by omega)]
            obtain rfl | rfl : d = 0 ∨ d = 1 := by omega
            · rw [show r.addr.toNat / 2 * 2 + 0 = r.addr.toNat - 1 by omega]
              exact hlevel.1
            · rw [show r.addr.toNat / 2 * 2 + 1 = r.addr.toNat by omega]
              exact hlevel.2

end Reads

/-! ## Requests of a run -/

section Runs

variable {p : Instance} {inp : Run} {a : Nat}

theorem dwordCnt_cases {b : CqBeat} (h : validDwordCnt b = true) :
    b.dwordCnt = 1 ∨ b.dwordCnt = 2 := by
  simpa [validDwordCnt] using h

theorem validDwordCnt_of_validWrReq {bar : BitVec 3} {b : CqBeat}
    (h : decodedReq bar b = .validWrReq) : validDwordCnt b = true := by
  by_contra hno
  rw [Bool.not_eq_true] at hno
  simp only [decodedReq, hno] at h
  split at h
  · split at h
    · cases h
    · split at h <;> cases h
  · cases h

/-- A valid write is on the interface in the next cycle. -/
theorem write_stored (hs : (st p inp a).state = .waitForReq)
    (hwrite : decodedReq p.bar (inp a).cq = .validWrReq) :
    (st p inp (a + 1)).state = .storeWrReq ∧ (st p inp (a + 1)).req = .ofBeat (inp a).cq := by
  constructor
  · rw [st_succ, step_state, nextState, hs]
    simp [hwrite]
  · rw [st_succ, step_req, nextReq, if_pos ⟨hs, by simp [hwrite]⟩]

end Runs

/-- Every valid request is right on the lanes exactly if it does not cross from one word into the next,
if it is a write without an enabled byte, or if the dwords around a read are equal. -/
theorem byte_lanes (p : Instance) (inp : Run) (mem : Nat → BitVec 24 → BitVec 64)
    (hmem : AnsweredFrom p inp mem) (a : Nat) :
    ((st p inp a).state = .waitForReq → decodedReq p.bar (inp a).cq = .validWrReq →
        (WritePresented p inp a ↔
          (Request.ofBeat (inp a).cq).InWord ∨
            ((inp a).cq.firstBe = 0 ∧ (inp a).cq.lastBe = 0))) ∧
      ∀ u w, Fetches p inp a u → Offers p inp a w →
        (ReadPresented p inp (mem u) a w ↔
          (Request.ofBeat (inp a).cq).InWord ∨ Level (mem u) (inp a).cq.addr.toNat) := by
  constructor
  · intro hs hwrite
    obtain ⟨hstore, hreq⟩ := write_stored hs hwrite
    have hcnt := dwordCnt_cases (validDwordCnt_of_validWrReq hwrite)
    have hiff := updates_iff hstore (by rw [hreq]; exact hcnt)
    rw [hreq] at hiff
    exact ⟨fun h => hiff.mp h.updates, fun h => ⟨by simp [State.en, hstore], hiff.mpr h⟩⟩
  · intro u w hu hw
    obtain ⟨v, hv, hcpl⟩ := hw.fetched
    obtain rfl := hu.unique hv
    -- the word that came with the acknowledgement, reduced to the dwords of the request
    have hdata : (st p inp w).ccBeat.data =
        selectData (.ofBeat (inp a).cq)
          (mem u ((Request.ofBeat (inp a).cq).addr.extractLsb' 1 24)) := by
      rw [CcBeat.data, State.ccBeat, packCompletion_data, hcpl, nextCpl, if_pos hu.state,
        hmem u hu.state hu.ack, State.addr, hu.serving.req]
    rw [ReadPresented, hdata]
    exact selectData_iff (.ofBeat (inp a).cq) (mem u) (dwordCnt_cases hu.serving.valid)

/-! ## Two dwords at an odd address -/

/-- A memory that holds the same word everywhere. -/
def striped : BitVec 24 → BitVec 64 := fun _ => 0x2222222211111111

/-- A request in cycle 1, acknowledged and accepted without delay by that memory. -/
def once (b : CqBeat) : Run := fun t =>
  { cq := if t = 1 then b else noRequest
    ccTready := true
    dout := 0x2222222211111111
    ack := true }

theorem once_answered (b : CqBeat) : AnsweredFrom bar0 (once b) (fun _ => striped) :=
  fun _ _ _ => rfl

theorem once_serving {b : CqBeat} (hread : isRead 0 b = true) (hcnt : validDwordCnt b = true) :
    Serving bar0 (once b) 1 2 := by
  refine Serving.start ?_ hcnt
  rw [acceptsRead, Bool.and_eq_true]
  exact ⟨rfl, hread⟩

/-- The cycles of a read by `once`: acknowledged in cycle 3, completed in cycle 4. -/
theorem once_read {b : CqBeat} (hread : isRead 0 b = true) (hcnt : validDwordCnt b = true) :
    Fetches bar0 (once b) 1 3 ∧ Offers bar0 (once b) 1 4 := by
  have hstart := once_serving hread hcnt
  have hdecoded : decodedReq bar0.bar b = .validRdReq := by
    rw [bar0, decodedReq_of_isRead hread, if_pos hcnt]
  have hstore : (st bar0 (once b) 2).state = .storeRdReq := by
    rw [st_succ, step_state, nextState]
    simp [once, hdecoded, show (st bar0 (once b) 1).state = .waitForReq from rfl]
  have hwait : (st bar0 (once b) 3).state = .waitForRdCpl := by
    rw [st_succ, step_state, nextState, hstore]
  have hserving : Serving bar0 (once b) 1 3 := by
    rcases hstart.step with ⟨hc, -⟩ | ⟨-, hgoes⟩
    · rw [completes, State.ccTvalid, hstore] at hc
      cases hc
    · exact hgoes
  have hfetches : Fetches bar0 (once b) 1 3 := ⟨hserving, hwait, rfl⟩
  exact ⟨hfetches, hfetches.next⟩

/-- A read of the upper half of a word. -/
theorem byte_lanes_upper :
    ReadPresented bar0 (once (requestBeat memRdReq 0 7 1 0x401 0x0f)) striped 1 4 := by
  obtain ⟨hu, hw⟩ := once_read (b := requestBeat memRdReq 0 7 1 0x401 0x0f) (by decide) (by decide)
  exact ((byte_lanes bar0 _ (fun _ => striped) (once_answered _) 1).2 3 4 hu hw).mpr
    (.inl (.inl (by decide)))

/-- Two dwords from dword address `0x401` on: a read returns those from `0x400` on, and a write goes
there. -/
theorem two_dwords_at_odd_address :
    (AnsweredFrom bar0 (once (requestBeat memRdReq 0 7 2 0x401 0xff)) (fun _ => striped) ∧
        Fetches bar0 (once (requestBeat memRdReq 0 7 2 0x401 0xff)) 1 3 ∧
        Offers bar0 (once (requestBeat memRdReq 0 7 2 0x401 0xff)) 1 4 ∧
        ¬ ReadPresented bar0 (once (requestBeat memRdReq 0 7 2 0x401 0xff)) striped 1 4) ∧
      ¬ WritePresented bar0 (once (requestBeat memWrReq 0 7 2 0x401 0xff)) 1 := by
  obtain ⟨hu, hw⟩ := once_read (b := requestBeat memRdReq 0 7 2 0x401 0xff) (by decide) (by decide)
  refine ⟨⟨once_answered _, hu, hw, ?_⟩, ?_⟩
  · intro h
    have hfirst := h 0 (by decide)
    revert hfirst
    decide +kernel
  · intro h
    have hreq : (st bar0 (once (requestBeat memWrReq 0 7 2 0x401 0xff)) 2).req =
        .ofBeat (requestBeat memWrReq 0 7 2 0x401 0xff) := by decide +kernel
    have hoff := not_enabled_of_updates (i := 0)
      (s := st bar0 (once (requestBeat memWrReq 0 7 2 0x401 0xff)) 2) (by decide +kernel)
      (by decide +kernel) (by decide +kernel) (by rw [hreq]; exact h.updates) (by decide)
    rw [hreq] at hoff
    revert hoff
    decide

end Completer
end PcieBench
