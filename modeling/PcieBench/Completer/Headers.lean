import PcieBench.Completer.Lanes

/-!
# The headers of the completions

Byte count and lower address of a completion are assigned by a `casex` over the byte enables.  Its rows
cover every read that asks for a byte; a zero-length read matches none of them and keeps what the
completion before it had.
-/

namespace PcieBench
namespace Completer

open Clocked Tlp

/-! ## The header of a read -/

/-- The bytes that a request asks for. -/
def Request.enabledBytes (r : Request) : List Nat := (List.range r.size).filter r.enabled

/-- The bytes from the first to the last one of a list, and one for a zero-length read. -/
def byteSpan (l : List Nat) : Nat := l.getLastD 0 - l.headD 0 + 1

/-- The header that the completion of a read should have. -/
def expectedHeader (r : Request) : CplHeader where
  lowerAddr := r.addr.extractLsb' 0 5 ++ BitVec.ofNat 2 (r.enabledBytes.headD 0)
  addressType := r.addressType
  byteCnt := BitVec.ofNat 13 (byteSpan r.enabledBytes)
  dwordCnt := r.dwordCnt
  reqrId := r.reqrId
  tag := r.tag
  tc := r.tc
  attr := r.attr

/-- Two dwords are read with a byte enabled in each of them. -/
def Request.WellFormed (r : Request) : Prop := r.dwordCnt = 2 → r.firstBe ≠ 0 ∧ r.lastBe ≠ 0

/-- A read of one dword without a byte enabled. -/
def Request.ZeroLength (r : Request) : Prop := r.dwordCnt = 1 ∧ r.firstBe = 0

/-- The registers of the previous completion happen to suit a zero-length read. -/
def Completion.Suits (c : Completion) (r : Request) : Prop :=
  c.byteCnt = 1 ∧ c.lowerAddr = r.addr.extractLsb' 0 5 ++ 0#2

/-! ## The rows -/

/-- The row that a list of enabled bytes should have. -/
def rowOf (l : List Nat) : BitVec 13 × BitVec 2 := (BitVec.ofNat 13 (byteSpan l), BitVec.ofNat 2 (l.headD 0))

theorem oneDwordRows_eq : ∀ be : BitVec 4,
    matchRow oneDwordRows be =
      if be = 0 then none else some (rowOf ((List.range 4).filter be.getLsbD)) := by
  decide +kernel

theorem twoDwordRows_eq : ∀ be : BitVec 8, be.extractLsb' 0 4 ≠ 0 → be.extractLsb' 4 4 ≠ 0 →
    matchRow twoDwordRows be = some (rowOf ((List.range 8).filter be.getLsbD)) := by
  decide +kernel

section Rows

variable {r : Request}

/-- A zero-length read has no row. -/
theorem byteRow_of_zeroLength (h : r.ZeroLength) : byteRow r = none := by
  rw [byteRow, if_pos h.1, oneDwordRows_eq, if_pos h.2]

theorem enabledBytes_one (h : r.dwordCnt = 1) :
    r.enabledBytes = (List.range 4).filter r.firstBe.getLsbD := by
  have hsize : r.size = 4 := by rw [Request.size, h]; rfl
  rw [Request.enabledBytes, hsize]
  apply List.filter_congr
  intro i hi
  rw [Request.enabled, if_pos (List.mem_range.mp hi)]

theorem enabledBytes_two (h : r.dwordCnt = 2) :
    r.enabledBytes = (List.range 8).filter (r.lastBe ++ r.firstBe).getLsbD := by
  have hsize : r.size = 8 := by rw [Request.size, h]; rfl
  rw [Request.enabledBytes, hsize]
  apply List.filter_congr
  intro i _
  rw [getLsbD_both]

/-- Any other read has the row of its bytes. -/
theorem byteRow_eq (hcnt : r.dwordCnt = 1 ∨ r.dwordCnt = 2) (hwf : r.WellFormed)
    (h : ¬ r.ZeroLength) : byteRow r = some (rowOf r.enabledBytes) := by
  rcases hcnt with hone | htwo
  · have hbe : r.firstBe ≠ 0 := fun hbe => h ⟨hone, hbe⟩
    rw [byteRow, if_pos hone, oneDwordRows_eq, if_neg hbe, enabledBytes_one hone]
  · obtain ⟨hfirst, hlast⟩ := hwf htwo
    have hne : r.dwordCnt ≠ 1 := by
      rw [htwo]
      decide
    rw [byteRow, if_neg hne, enabledBytes_two htwo]
    refine twoDwordRows_eq _ ?_ ?_
    · rw [BitVec.extractLsb'_append_eq_right]
      exact hfirst
    · rw [BitVec.extractLsb'_append_eq_left]
      exact hlast

end Rows

/-! ## Completions of a run -/

section Runs

variable {p : Instance} {inp : Run} {a u w : Nat}

/-- A read without a row leaves the registers as the read before left them. -/
theorem Serving.cpl_kept (h : Serving p inp a u)
    (hrow : byteRow (.ofBeat (inp a).cq) = none) :
    (st p inp u).cpl.byteCnt = (st p inp a).cpl.byteCnt ∧
      (st p inp u).cpl.lowerAddr = (st p inp a).cpl.lowerAddr := by
  have hlt := h.lt
  induction u, hlt using Nat.le_induction with
  | base =>
      have hread := h.read
      simp only [acceptsRead, State.cqTready, Bool.and_eq_true, beq_iff_eq] at hread
      rw [st_succ, step_cpl, nextCpl, if_neg (by simp [hread.1])]
      exact ⟨rfl, rfl⟩
  | succ u hau ih =>
      have hback := h.back (v := u) (by omega) (by omega)
      rw [st_succ, step_cpl, nextCpl]
      split
      · rw [hback.req, hrow]
        exact ih hback
      · exact ih hback

/-- The header on the CC stream, from the request and the registers of the completion. -/
theorem Offers.header (h : Offers p inp a w) :
    (st p inp w).ccBeat.header =
      { expectedHeader (.ofBeat (inp a).cq) with
        lowerAddr := (st p inp w).cpl.lowerAddr
        byteCnt := (st p inp w).cpl.byteCnt } := by
  rw [State.ccBeat, header_packCompletion, h.serving.req]
  rfl

theorem header_eq_iff {r : Request} {lowerAddr : BitVec 7} {byteCnt : BitVec 13} :
    { expectedHeader r with lowerAddr := lowerAddr, byteCnt := byteCnt } = expectedHeader r ↔
      byteCnt = BitVec.ofNat 13 (byteSpan r.enabledBytes) ∧
        lowerAddr = r.addr.extractLsb' 0 5 ++ BitVec.ofNat 2 (r.enabledBytes.headD 0) := by
  constructor
  · intro h
    exact ⟨congrArg CplHeader.byteCnt h, congrArg CplHeader.lowerAddr h⟩
  · rintro ⟨rfl, rfl⟩
    rfl

theorem enabledBytes_of_zeroLength {r : Request} (h : r.ZeroLength) : r.enabledBytes = [] := by
  rw [enabledBytes_one h.1, h.2]
  decide

/-- The header of one completion. -/
theorem Offers.header_iff (h : Offers p inp a w) (hwf : (Request.ofBeat (inp a).cq).WellFormed) :
    (st p inp w).ccBeat.header = expectedHeader (.ofBeat (inp a).cq) ↔
      ¬ (Request.ofBeat (inp a).cq).ZeroLength ∨
        (st p inp a).cpl.Suits (.ofBeat (inp a).cq) := by
  obtain ⟨u, hu, hcpl⟩ := h.fetched
  rw [h.header, header_eq_iff, hcpl, nextCpl, if_pos hu.state, hu.serving.req]
  by_cases hzero : (Request.ofBeat (inp a).cq).ZeroLength
  · -- no row: the registers of the completion before
    have hrow := byteRow_of_zeroLength hzero
    obtain ⟨hbyteCnt, hlowerAddr⟩ := hu.serving.cpl_kept hrow
    simp only [hrow, hbyteCnt, hlowerAddr, enabledBytes_of_zeroLength hzero, hzero, not_true_eq_false,
      false_or, Completion.Suits]
    rfl
  · have hrow := byteRow_eq (dwordCnt_cases hu.serving.valid) hwf hzero
    simp only [hrow, hzero, not_false_eq_true, true_or, iff_true]
    exact ⟨rfl, rfl⟩

end Runs

/-- Every completion answers a read, and its header is right unless the read has zero length and the
completion before it left other values. -/
theorem completion_header (p : Instance) (inp : Run) (w : Nat)
    (hc : (st p inp w).ccTvalid = true) :
    (∃ a, Offers p inp a w) ∧
      ∀ a, Offers p inp a w → (Request.ofBeat (inp a).cq).WellFormed →
        ((st p inp w).ccBeat.header = expectedHeader (.ofBeat (inp a).cq) ↔
          ¬ (Request.ofBeat (inp a).cq).ZeroLength ∨
            (st p inp a).cpl.Suits (.ofBeat (inp a).cq)) := by
  have hs : (st p inp w).state = .sendRdCpl := by
    simpa [State.ccTvalid] using hc
  obtain ⟨a, ha⟩ := serving p inp w (by rw [hs]; rfl)
  exact ⟨⟨a, ha, hs⟩, fun a h => h.header_iff⟩

/-! ## A zero-length read behind another read -/

theorem completion_header_upper :
    (st bar0 (once (requestBeat memRdReq 0 7 1 0x401 0x0e)) 4).ccBeat.header =
      expectedHeader (.ofBeat (requestBeat memRdReq 0 7 1 0x401 0x0e)) := by
  obtain ⟨-, hw⟩ := once_read (b := requestBeat memRdReq 0 7 1 0x401 0x0e) (by decide) (by decide)
  refine ((completion_header bar0 (once (requestBeat memRdReq 0 7 1 0x401 0x0e)) 4
    (by decide +kernel)).2 1 hw ?_).mpr (.inl ?_)
  · intro htwo
    exact absurd htwo (by decide)
  · rintro ⟨-, hbe⟩
    exact absurd hbe (by decide)

/-- Two dwords are read in cycle 1, and a request without byte enables follows in cycle 5. -/
def zeroLengthBehind : Run := fun t =>
  { once (requestBeat memRdReq 0 7 2 0x400 0xff) t with
    cq :=
      if t = 1 then requestBeat memRdReq 0 7 2 0x400 0xff
      else if t = 5 then requestBeat memRdReq 0 8 1 0x411 0x00
      else noRequest }

/-- The second completion repeats the byte count and the lower address of the first one. -/
theorem zeroLength_header :
    Offers bar0 zeroLengthBehind 5 8 ∧
      (Request.ofBeat (zeroLengthBehind 5).cq).WellFormed ∧
      (st bar0 zeroLengthBehind 8).ccBeat.header.byteCnt = 8 ∧
      (expectedHeader (.ofBeat (zeroLengthBehind 5).cq)).byteCnt = 1 ∧
      (st bar0 zeroLengthBehind 8).ccBeat.header ≠
        expectedHeader (.ofBeat (zeroLengthBehind 5).cq) := by
  have hserving : Serving bar0 zeroLengthBehind 5 8 := by
    refine ⟨by decide, by decide +kernel, by decide +kernel, by decide +kernel, ?_⟩
    intro v hv hv8
    obtain rfl | rfl | rfl : v = 6 ∨ v = 7 ∨ v = 8 := by omega
    all_goals decide +kernel
  have hcode : (st bar0 zeroLengthBehind 8).ccBeat.header.byteCnt = 8 := by decide +kernel
  have hspec : (expectedHeader (.ofBeat (zeroLengthBehind 5).cq)).byteCnt = 1 := by decide +kernel
  refine ⟨⟨hserving, by decide +kernel⟩, ?_, hcode, hspec, ?_⟩
  · intro htwo
    exact absurd htwo (by decide)
  · intro heq
    rw [heq, hspec] at hcode
    exact absurd hcode (by decide)

end Completer
end PcieBench
