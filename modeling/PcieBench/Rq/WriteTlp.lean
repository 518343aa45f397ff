import PcieBench.Rq.Framing
import PcieBench.Rq.Operation
import PcieBench.Rq.Bounds

/-!
# Memory write TLPs are well formed

The dword count in a header comes from `current_wr_tlp_words_s`, the beats that follow it from the
`mem_wr_remaining_words_r` counter, which is reloaded on its own when a TLP ends.  The two agree for
every descriptor size but those whose number of TLPs leaves 32 bits and wraps to 1.
-/

namespace PcieBench
namespace Rq

open Clocked Tlp

section WriteTlps

variable {P : Params}

/-! ## The dwords of a TLP -/

/-- The sizes whose number of TLPs does not wrap to a single short one. -/
def Config.WriteSizeOk (P : Params) (cfg : Config) : Prop :=
  cfg.sizeAtDescriptor.toNat < 2 ^ (P.log2MaxPayload + 32) ∨
    cfg.sizeAtDescriptor.toNat % 2 ^ (P.log2MaxPayload + 32) = 0 ∨
    2 ^ P.log2MaxPayload ≤ cfg.sizeAtDescriptor.toNat % 2 ^ (P.log2MaxPayload + 32)

/-- A size that leaves no TLP without a dword. -/
structure Config.SizeFits (P : Params) (cfg : Config) : Prop where
  pos : 0 < cfg.sizeAtDescriptor.toNat
  tail : cfg.sizeAtDescriptor.toNat % 2 ^ P.log2MaxPayload = 0 ∨
    4 ≤ cfg.sizeAtDescriptor.toNat % 2 ^ P.log2MaxPayload

/-- The design is made for sizes that are a positive multiple of four bytes. -/
theorem Config.SizeFits.of_dvd {cfg : Config} (hpos : 0 < cfg.sizeAtDescriptor.toNat)
    (hdvd : cfg.sizeAtDescriptor.toNat % 4 = 0) : cfg.SizeFits P := by
  obtain ⟨hmod, -, -⟩ := two_pow_tlp P.three_le_payload P.payload_le
  have htail : cfg.sizeAtDescriptor.toNat % 2 ^ P.log2MaxPayload % 4 = 0 := by
    rw [Nat.mod_mod_of_dvd _ (by omega : 4 ∣ 2 ^ P.log2MaxPayload)]
    exact hdvd
  exact ⟨hpos, by omega⟩

/-- The words of TLP number `modulus` of a block, as `current_wr_tlp_words_s` selects them. -/
def wrTlpWords (P : Params) (cfg : Config) (modulus : BitVec 32) : BitVec 32 :=
  if (nextBounds P cfg).wrNumberEven = modulus then (nextBounds P cfg).wrOddWords
  else (maxWordsTlp P).setWidth 32

theorem wrTlpWords_eq (P : Params) (cfg : Config) :
    wrTlpWords P cfg = tlpWords P.log2MaxPayload cfg.sizeAtDescriptor := rfl

theorem currentWrTlpWords_eq {s : State P} {cfg : Config} (h : s.bounds = nextBounds P cfg) :
    s.currentWrTlpWords = wrTlpWords P cfg s.wrCount.modulus := by
  simp [State.currentWrTlpWords, wrTlpWords, h]

theorem wrOddWords_toNat (P : Params) (cfg : Config) :
    (nextBounds P cfg).wrOddWords.toNat =
      if cfg.sizeAtDescriptor.toNat % 2 ^ P.log2MaxPayload = 0 then 2 ^ P.log2MaxPayload / 4
      else cfg.sizeAtDescriptor.toNat % 2 ^ P.log2MaxPayload / 4 :=
  oddTlpWords_toNat (by have := P.three_le_payload; omega) P.payload_le cfg.sizeAtDescriptor

/-- Every TLP of such a size has between 1 and 1024 dwords. -/
theorem wrTlpWords_bounds {cfg : Config} (hsize : cfg.SizeFits P) (modulus : BitVec 32) :
    1 ≤ (wrTlpWords P cfg modulus).toNat ∧ (wrTlpWords P cfg modulus).toNat ≤ 1024 := by
  obtain ⟨hmod, hlo, hhi⟩ := two_pow_tlp P.three_le_payload P.payload_le
  have hmax := maxWordsTlp_toNat P
  have hodd := wrOddWords_toNat P cfg
  have hlt : cfg.sizeAtDescriptor.toNat % 2 ^ P.log2MaxPayload < 2 ^ P.log2MaxPayload :=
    Nat.mod_lt _ (by omega)
  have htail := hsize.tail
  unfold wrTlpWords
  split
  · rw [hodd]
    split <;> omega
  · rw [BitVec.toNat_setWidth, hmax]
    omega

theorem blockCount_eq_one {max size : Nat} (hpos : 0 < size) (hle : size ≤ max) :
    blockCount max size = 1 := by
  unfold blockCount
  rcases Nat.lt_or_ge size max with h | h
  · rw [Nat.div_eq_of_lt h, Nat.mod_eq_of_lt h, if_neg (by omega)]
  · have heq : size = max := by omega
    rw [heq, Nat.div_self (by omega), Nat.mod_self, if_pos rfl]

/-- More than one TLP and yet a count of 1 in 32 bits: the size is a multiple of a full TLP, unless it
is one of the excluded ones. -/
theorem mod_eq_zero_of_count {max size : Nat} (hmax : 0 < max) (hle : max ≤ size)
    (hcount : blockCount max size % 2 ^ 32 = 1)
    (hok : size < max * 2 ^ 32 ∨ size % (max * 2 ^ 32) = 0 ∨ max ≤ size % (max * 2 ^ 32)) :
    size % max = 0 := by
  by_contra hne
  rw [blockCount, if_neg hne] at hcount
  have hzero : size / max % 2 ^ 32 = 0 := by omega
  have hone : 1 ≤ size / max := Nat.div_pos hle hmax
  have htail : size % (max * 2 ^ 32) = size % max := by
    rw [Nat.mod_mul, hzero, Nat.mul_zero, Nat.add_zero]
  have hbig : max * 2 ^ 32 ≤ size :=
    calc
      max * 2 ^ 32 ≤ max * (size / max) := Nat.mul_le_mul_left _ (by omega)
      _ ≤ size := Nat.mul_div_le size max
  have hlt : size % max < max := Nat.mod_lt _ hmax
  omega

/-- The remaining counter starts with the words of the first TLP. -/
theorem first_words {cfg : Config} (hsize : cfg.SizeFits P) (hok : cfg.WriteSizeOk P) :
    (if cfg.sizeWords ≤ maxWordsTlp P then cfg.sizeWords else maxWordsTlp P) =
      (wrTlpWords P cfg 1).setWidth 64 := by
  obtain ⟨hmod, hlo, hhi⟩ := two_pow_tlp P.three_le_payload P.payload_le
  have hmax := maxWordsTlp_toNat P
  have hodd := wrOddWords_toNat P cfg
  have htail := hsize.tail
  have hpos := hsize.pos
  have hwords := cfg.sizeWords_toNat
  have heven : (nextBounds P cfg).wrNumberEven.toNat =
      blockCount (2 ^ P.log2MaxPayload) cfg.sizeAtDescriptor.toNat % 2 ^ 32 :=
    numberEvenTlp_toNat _ _
  have hdm := Nat.div_add_mod cfg.sizeAtDescriptor.toNat (2 ^ P.log2MaxPayload)
  have hlt : cfg.sizeAtDescriptor.toNat % 2 ^ P.log2MaxPayload < 2 ^ P.log2MaxPayload :=
    Nat.mod_lt _ (by omega)
  have hiff : (nextBounds P cfg).wrNumberEven = 1 ↔
      blockCount (2 ^ P.log2MaxPayload) cfg.sizeAtDescriptor.toNat % 2 ^ 32 = 1 := by
    rw [← heven, ← BitVec.toNat_inj]
    rfl
  apply BitVec.eq_of_toNat_eq
  rw [BitVec.toNat_setWidth]
  unfold wrTlpWords
  generalize hM : 2 ^ P.log2MaxPayload = M at *
  generalize hS : cfg.sizeAtDescriptor.toNat = S at *
  by_cases hle : cfg.sizeWords ≤ maxWordsTlp P
  · -- a single TLP, which is the last one of its block
    rw [if_pos hle]
    rw [BitVec.le_def, hwords, hmax] at hle
    have hSM : S ≤ M := by
      by_contra hgt
      have hmodS : S % M = S - M := by
        rw [Nat.mod_eq_sub_mod (by omega), Nat.mod_eq_of_lt (by omega)]
      omega
    have hone : (nextBounds P cfg).wrNumberEven = 1 := by
      rw [hiff, blockCount_eq_one hpos hSM]
      rfl
    rw [if_pos hone, hodd, hwords]
    rcases Nat.lt_or_ge S M with h | h
    · rw [Nat.mod_eq_of_lt h, if_neg (by omega)]
      omega
    · have : S = M := by omega
      rw [this, Nat.mod_self, if_pos rfl]
      omega
  · rw [if_neg hle]
    rw [BitVec.le_def, hwords, hmax] at hle
    split
    case isTrue hone =>
      -- the number of TLPs has wrapped around to 1
      have hzero : S % M = 0 := by
        unfold Config.WriteSizeOk at hok
        rw [hS, pow_add, hM] at hok
        exact mod_eq_zero_of_count (by omega) (by omega) (hiff.mp hone) hok
      rw [hodd, if_pos hzero, hmax]
      omega
    case isFalse =>
      rw [BitVec.toNat_setWidth, hmax]
      omega

/-- The words reloaded at the end of a TLP are those of the next one. -/
theorem next_words {s : State P} {cfg : Config} (hb : s.bounds = nextBounds P cfg)
    (hone : s.bounds.wrNumberEven = 1 → s.wrCount.modulus = 1) (i : Input P) :
    (WrPointer.next s i s.wrPtr).remaining =
      (wrTlpWords P cfg (s.wrCount.next s.bounds.wrNumberEven).modulus).setWidth 64 := by
  rw [hb] at hone
  have h := tlpWords_next P.three_le_payload P.payload_le hone
  simp only [WrPointer.next, TlpCount.next, hb]
  exact h

/-! ## The beats of a TLP -/

/-- The header names the words of the current TLP. -/
theorem header_dwords {s : State P} {i : Input P} (hs : s.wrState = .initWrite)
    (hr : i.axisRqTready = true) (hle : s.currentWrTlpWords.toNat ≤ 1024) :
    (step s i).beat.dwords.toNat = s.currentWrTlpWords.toNat ∧
      (step s i).beat.reqType = memoryWrite := by
  have hbeat : (step s i).beat.tdataLo = packDescriptor s.c2sRqTag memoryWrite
      (s.currentWrTlpWords.setWidth 11) s.wrPtr.addr := by
    simp [State.beat, nextOut, hs, hr]
  refine ⟨?_, ?_⟩
  · rw [Beat.dwords, hbeat, packDescriptor_dwords, BitVec.toNat_setWidth]
    omega
  · rw [Beat.reqType, hbeat, packDescriptor_reqType]

theorem popcount_headerKeep :
    ∀ r : BitVec 4, r ≠ 0 → r ≤ 4 → popcount (headerKeep r) = r.toNat + 4 := by
  decide

/-- A header that ends its TLP enables the descriptor and the remaining dwords. -/
theorem popcount_headerKeep_remaining {s : State P} (h : PointerInv s)
    (hpos : 1 ≤ s.wrPtr.remaining.toNat) (hle : s.wrPtr.remaining.toNat ≤ 4) :
    popcount (headerKeep s.wrPtr.nextRemainder) = s.wrPtr.remaining.toNat + 4 := by
  have hnat : s.wrPtr.nextRemainder.toNat = s.wrPtr.remaining.toNat := by
    rw [h.remainder, BitVec.toNat_setWidth]
    omega
  rw [popcount_headerKeep, hnat]
  · intro h0
    rw [h0] at hnat
    simp at hnat
    omega
  · rw [BitVec.le_def, hnat]
    simpa using hle

/-- A memory read request is a TLP of one beat. -/
theorem IssuesRead.isReadTlp {s : State P} {i : Input P} (hm : IssuesRead s i) :
    IsReadTlp [⟨.initRead, (step s i).beat⟩] := by
  refine ⟨_, rfl, rfl, ?_, ?_⟩
  · have hbeat : (step s i).beat.tdataLo = packDescriptor s.s2cRqTag memoryRead
        ((s.currentRdTlpWords i.cfg).setWidth 11) s.rdPtr.addr := by
      simp [State.beat, nextOut, hm.initRead, hm.tready]
    rw [Beat.reqType, hbeat, packDescriptor_reqType]
  · simp [State.beat, nextCtl, hm.initRead, hm.tready]

/-! ## The invariant of an operation -/

/-- The beats `l` loaded so far form TLPs; inside a TLP the remaining counter knows the dwords that
are missing, between two of them it knows the dwords of the next one. -/
structure WriteInv (cfg : Config) (s : State P) (l : List Sent) : Prop where
  single : s.wrState ≠ .idle → (nextBounds P cfg).wrNumberEven = 1 → s.wrCount.modulus = 1
  words : s.wrState ≠ .idle → s.wrState ≠ .write →
    s.wrPtr.remaining = (wrTlpWords P cfg s.wrCount.modulus).setWidth 64
  parses : ∃ tlps pending, Parses l tlps pending ∧
    (s.wrState ≠ .write → pending = []) ∧
    (s.wrState = .write → IsOpenWrite pending ∧
      keptDwords pending + s.wrPtr.remaining.toNat = headerDwords pending + 4)

/-- The invariant when a TLP has just been completed. -/
theorem WriteInv.of_finished {cfg : Config} {s : State P} {l : List Sent}
    {tlps : List (List Sent)} (hparses : Parses l tlps []) (hs : s.wrState ≠ .write)
    (hsingle : (nextBounds P cfg).wrNumberEven = 1 → s.wrCount.modulus = 1)
    (hwords : s.wrPtr.remaining = (wrTlpWords P cfg s.wrCount.modulus).setWidth 64) :
    WriteInv cfg s l where
  single _ := hsingle
  words _ _ := hwords
  parses := ⟨tlps, [], hparses, fun _ => rfl, fun h => absurd h hs⟩

/-- The last beat of a memory write completes its TLP. -/
theorem endsWrite_completes {cfg : Config} {s : State P} {i : Input P} {l : List Sent}
    (hm : EndsWrite s i) (hsize : cfg.SizeFits P) (hb : s.bounds = nextBounds P cfg)
    (hp : PointerInv s) (h : WriteInv cfg s l) :
    ∃ tlps, Parses (l ++ load s i) tlps [] := by
  obtain ⟨tlps, pending, hparses, hclosed, hopen⟩ := h.parses
  obtain ⟨hlo, hhi⟩ := wrTlpWords_bounds hsize s.wrCount.modulus
  refine ⟨tlps ++ [pending ++ [⟨s.wrState, (step s i).beat⟩]], ?_⟩
  rw [hm.load]
  refine hparses.finish (.inl ?_)
  rcases hm.ends with ⟨hs, hword, hlast⟩ | ⟨hs, hends⟩
  · -- the header is the whole TLP
    have hrem := h.words (by simp [hs]) (by simp [hs])
    rw [← currentWrTlpWords_eq hb] at hrem hlo hhi
    have hnat : s.wrPtr.remaining.toNat = s.currentWrTlpWords.toNat := by
      rw [hrem, BitVec.toNat_setWidth]
      omega
    have hle : s.wrPtr.remaining.toNat ≤ 4 := by
      simpa [lastWordAtTlp_eq] using hlast
    obtain ⟨hdw, htype⟩ := header_dwords hs hm.tready hhi
    have hkeep : popcount (step s i).beat.tkeep = s.currentWrTlpWords.toNat + 4 := by
      simp only [State.beat, step_ctl, nextCtl, hs, hm.tready, hword, hlast, if_true]
      rw [popcount_headerKeep_remaining hp (by omega) hle, hnat]
    rw [hclosed (by simp [hs]), hs, List.nil_append]
    refine ⟨⟨rfl, htype, by simp⟩, ⟨[], _, rfl, by simp, ?_, ?_⟩, ?_, ?_⟩
    · simp [State.beat, nextCtl, hs, hm.tready, hword, hlast]
    · simp only [hkeep]
      omega
    · simp [keptDwords, headerDwords, hkeep, hdw]
    · simp only [headerDwords, hdw]
      exact hlo
  · -- a payload beat with all that is missing
    obtain ⟨hwrite, hcount⟩ := hopen hs
    have hle : s.wrPtr.remaining.toNat ≤ 8 := by
      simp only [State.writeEnds, lastWordAtTlp_eq, lastTwoWordsAtTlp_eq, Bool.or_eq_true,
        Bool.and_eq_true, decide_eq_true_eq] at hends
      omega
    have hkeep : popcount (step s i).beat.tkeep = s.wrPtr.remaining.toNat := by
      simp only [State.beat, step_ctl, nextCtl, hs, hm.tready, hends, if_true]
      exact popcount_payloadKeep_remaining hp hs hle
    refine hwrite.close hs ?_ ?_ ?_
    · simp [State.beat, nextCtl, hs, hm.tready, hends, lastTwoWordsAtTlp_eq, hle]
    · simp only [hkeep]
      exact hp.remaining_pos hs
    · rw [keptDwords_append]
      simp only [keptDwords, List.map_cons, List.map_nil, List.sum_cons, List.sum_nil, hkeep]
        at hcount ⊢
      omega

/-- The header of a memory write that needs more beats opens a TLP. -/
theorem opensWrite_grows {cfg : Config} {s : State P} {i : Input P} {l : List Sent}
    (hm : OpensWrite s i) (hsize : cfg.SizeFits P) (hb : s.bounds = nextBounds P cfg)
    (h : WriteInv cfg s l) :
    ∃ tlps pending, Parses (l ++ load s i) tlps pending ∧ IsOpenWrite pending ∧
      keptDwords pending + (step s i).wrPtr.remaining.toNat = headerDwords pending + 4 := by
  obtain ⟨tlps, pending, hparses, hclosed, -⟩ := h.parses
  obtain ⟨hlo, hhi⟩ := wrTlpWords_bounds hsize s.wrCount.modulus
  have hrem := h.words (by simp [hm.initWrite]) (by simp [hm.initWrite])
  rw [← currentWrTlpWords_eq hb] at hrem hlo hhi
  have hnat : s.wrPtr.remaining.toNat = s.currentWrTlpWords.toNat := by
    rw [hrem, BitVec.toNat_setWidth]
    omega
  have hgt : 4 < s.wrPtr.remaining.toNat := by
    simpa [lastWordAtTlp_eq] using hm.more
  obtain ⟨hdw, htype⟩ := header_dwords hm.initWrite hm.tready hhi
  have hkeep : (Rq.step s i).beat.tkeep = 0xff := by
    simp [State.beat, nextCtl, hm.initWrite, hm.tready, hm.word, hm.more]
  have hlast : (Rq.step s i).beat.tlast = false := by
    simp [State.beat, nextCtl, hm.initWrite, hm.tready, hm.word, hm.more]
  have hfull : popcount 0xff = 8 := by decide
  -- nothing was open before the header
  have hnil := hclosed (by simp [hm.initWrite])
  subst hnil
  have hopens : IsOpenWrite [⟨.initWrite, (Rq.step s i).beat⟩] := by
    refine ⟨⟨rfl, htype, by simp⟩, ?_, ?_⟩
    · simp [Sent.IsInner, hkeep, hlast]
    · simp only [keptDwords, headerDwords, List.map_cons, List.map_nil, List.sum_cons,
        List.sum_nil, hkeep, hdw, hfull]
      omega
  rw [hm.load]
  refine ⟨tlps, _, hparses.grow hopens, hopens, ?_⟩
  simp only [List.nil_append, keptDwords, headerDwords, List.map_cons, List.map_nil,
    List.sum_cons, List.sum_nil, hkeep, hdw, hfull, hm.wrPtr]
  bv_omega

/-- A full payload beat leaves the TLP open, with eight dwords less to come. -/
theorem continuesWrite_grows {cfg : Config} {s : State P} {i : Input P} {l : List Sent}
    (hm : ContinuesWrite s i) (hp : PointerInv s) (h : WriteInv cfg s l) :
    ∃ tlps pending, Parses (l ++ load s i) tlps pending ∧ IsOpenWrite pending ∧
      keptDwords pending + (step s i).wrPtr.remaining.toNat = headerDwords pending + 4 := by
  obtain ⟨tlps, pending, hparses, -, hopen⟩ := h.parses
  obtain ⟨hwrite, hcount⟩ := hopen hm.write
  have hgt := remaining_gt_eight hm.words hm.more
  have hkeep : (Rq.step s i).beat.tkeep = 0xff := by
    simp [State.beat, nextCtl, hm.write, hm.tready, hm.more, hp.keep hm.write]
  have hlast : (Rq.step s i).beat.tlast = false := by
    simp [State.beat, nextCtl, hm.write, hm.tready, hm.more, hp.last hm.write]
  have hkept : keptDwords (pending ++ [⟨.write, (Rq.step s i).beat⟩]) =
      keptDwords pending + 8 := by
    rw [keptDwords_append]
    simp only [keptDwords, List.map_cons, List.map_nil, List.sum_cons, List.sum_nil, hkeep]
    rfl
  have hgrown : IsOpenWrite (pending ++ [⟨.write, (Rq.step s i).beat⟩]) :=
    hwrite.continue rfl ⟨hlast, hkeep⟩ (by omega)
  rw [hm.load]
  refine ⟨tlps, _, hparses.grow hgrown, hgrown, ?_⟩
  rw [hkept, headerDwords_append hwrite.starts, hm.wrPtr]
  have hrest : (s.wrPtr.remaining - 8).toNat = s.wrPtr.remaining.toNat - 8 := by bv_omega
  simp only [hrest]
  omega

theorem WriteInv.step {cfg : Config} {s : State P} {i : Input P} {l : List Sent}
    (h : WriteInv cfg s l) (hsize : cfg.SizeFits P) (hp : PointerInv s)
    (hb : s.bounds = nextBounds P cfg) (hs : s.wrState ≠ .idle) :
    WriteInv cfg (step s i) (l ++ load s i) := by
  obtain ⟨tlps, pending, hparses, hclosed, hopen⟩ := h.parses
  rcases busy_cases i hs with hm | hm | hm | hm | hm | hm
  · -- a stall leaves the registers alone
    rw [hm.load, List.append_nil]
    refine ⟨fun _ => ?_, fun _ hw => ?_, tlps, pending, hparses, ?_, ?_⟩
    · rw [hm.wrCount]
      exact h.single hs
    · rw [hm.state] at hw
      rw [hm.wrPtr, hm.wrCount]
      exact h.words hs hw
    · rw [hm.state]
      exact hclosed
    · rw [hm.state, hm.wrPtr]
      exact hopen
  · -- the header of a memory write
    obtain ⟨tlps', pending', hparses', hwrite, hcount⟩ := opensWrite_grows hm hsize hb h
    refine ⟨fun _ => ?_, fun _ hw => absurd hm.state hw, tlps', pending', hparses',
      fun hw => absurd hm.state hw, fun _ => ⟨hwrite, hcount⟩⟩
    rw [hm.wrCount]
    exact h.single hs
  · -- a payload beat in the middle of a TLP
    obtain ⟨tlps', pending', hparses', hwrite, hcount⟩ := continuesWrite_grows hm hp h
    refine ⟨fun _ => ?_, fun _ hw => absurd hm.state hw, tlps', pending', hparses',
      fun hw => absurd hm.state hw, fun _ => ⟨hwrite, hcount⟩⟩
    rw [hm.wrCount]
    exact h.single hs
  · -- the last beat of a memory write
    obtain ⟨tlps', hdone⟩ := endsWrite_completes hm hsize hb hp h
    have hsingle := h.single hs
    refine WriteInv.of_finished hdone ?_ ?_ ?_
    · exact hm.ne_write
    · intro hone
      rw [hm.wrCount, TlpCount.next, hb, hone]
      simp [hsingle hone]
    · rw [hm.wrPtr, hm.wrCount]
      exact next_words hb (by rwa [hb]) i
  · -- a memory read request
    have hne : s.wrState ≠ .write := by simp [hm.initRead]
    have hnil := hclosed hne
    subst hnil
    rw [hm.load]
    refine WriteInv.of_finished (hparses.finish (.inr hm.isReadTlp)) ?_ ?_ ?_
    · exact hm.ne_write
    · rw [hm.wrCount]
      exact h.single hs
    · rw [hm.wrPtr, hm.wrCount]
      exact h.words hs hne
  · -- the end of the operation
    have hne : s.wrState ≠ .write := by simp [hm.waitRead]
    have hnil := hclosed hne
    subst hnil
    rw [hm.load, List.append_nil]
    refine ⟨fun hi => absurd hm.state hi, fun hi => absurd hm.state hi, tlps, [], hparses,
      fun _ => rfl, fun hw => ?_⟩
    rw [hm.state] at hw
    cases hw

/-! ## Every operation -/

namespace Operation

variable {inp : Run P} {cfg : Config} {start stop : Nat}

theorem writeInv (op : Operation inp cfg start stop) (hsize : cfg.SizeFits P)
    (hok : cfg.WriteSizeOk P) :
    ∀ t, start < t → t ≤ stop → WriteInv cfg (st inp t) (beats inp start t) := by
  refine op.induction ?_ ?_ ?_
  · -- the first busy cycle
    have hcfg := op.stable start (Nat.le_refl _) op.start_lt (.inl rfl)
    have hcount := op.first_registers.1
    have hne : (st inp (start + 1)).wrState ≠ .write := by
      rcases op.begins.2 with ⟨-, h⟩ | ⟨-, -, h⟩ <;> simp [h]
    rw [beats_first]
    refine WriteInv.of_finished Parses.nil hne ?_ ?_
    · rw [hcount]
      exact fun _ => rfl
    · rw [hcount, TlpCount.first, ← first_words hsize hok]
      simp [st_succ, nextWrPtr, op.idle, hcfg]
  · intro t hat htb hs hcfg ht
    rw [beats_succ inp hat, st_succ]
    exact ht.step hsize (pointerInv inp t) (op.bounds_eq hat (by omega) hs) hs
  · intro t hat htb hs hs' ht
    obtain ⟨tlps, pending, hparses, hclosed, -⟩ := ht.parses
    have hnil := hclosed (by simp [hs])
    subst hnil
    rw [beats_idle inp hat hs]
    exact ⟨fun h => absurd hs' h, fun h => absurd hs' h, tlps, [], hparses, fun _ => rfl,
      fun h => by rw [hs'] at h; cases h⟩

/-- The beats handed over parse as TLPs, and none is left incomplete once the operation has ended and
the output register is empty. -/
theorem emitted_parses (op : Operation inp cfg start stop) (hsize : cfg.SizeFits P)
    (hok : cfg.WriteSizeOk P) {t : Nat} (hat : start < t) (htb : t ≤ stop) :
    ∃ tlps pending, Parses (emitted inp start t) tlps pending ∧
      ((st inp t).wrState = .idle →
        (inp t).axisRqTready = true ∨ (st inp t).out.tvalid = false → pending = []) := by
  obtain ⟨tlps, pending, hparses, hclosed, -⟩ := (op.writeInv hsize hok t hat htb).parses
  have happend := op.emitted_append_waits hat
  by_cases hdrained : (inp t).axisRqTready = true ∨ (st inp t).out.tvalid = false
  · have hnone : (if (inp t).axisRqTready then [] else waits inp t) = [] := by
      rcases hdrained with h | h
      · rw [if_pos h]
      · simp [waits, held, h]
    rw [hnone, List.append_nil] at happend
    exact ⟨tlps, pending, by rwa [happend], fun hs _ => hclosed (by simp [hs])⟩
  · have hwaits : (if (inp t).axisRqTready then [] else waits inp t) =
        [⟨origin inp t, (st inp t).beat⟩] := by
      simp only [not_or] at hdrained
      simp [waits, held, hdrained]
    rw [hwaits] at happend
    rw [← happend] at hparses
    obtain ⟨tlps', pending', h⟩ := hparses.of_append_singleton
    exact ⟨tlps', pending', h, fun _ hd => absurd hd hdrained⟩

/-- The beats a write operation hands over parse as well-formed TLPs, whatever the pattern of
`TREADY` and of C2S data, if the number of TLPs of its size does not wrap to a single short one. -/
theorem write_tlps_wellFormed (op : Operation inp cfg start stop)
    (hpos : 0 < cfg.sizeAtDescriptor.toNat) (hdvd : cfg.sizeAtDescriptor.toNat % 4 = 0)
    (hok : cfg.WriteSizeOk P) (t : Nat) (hat : start < t) (htb : t ≤ stop) :
    ∃ tlps pending, Parses (emitted inp start t) tlps pending ∧
      ((st inp t).wrState = .idle →
        (inp t).axisRqTready = true ∨ (st inp t).out.tvalid = false → pending = []) :=
  op.emitted_parses (.of_dvd hpos hdvd) hok hat htb

end Operation

/-- Twenty bytes in the steady environment: two beats for each TLP. -/
theorem write_tlps_wellFormed_twenty :
    ∃ tlps pending, Parses (Operation.emitted (steady (writeConfig 20)) 4 12) tlps pending ∧
      ((st (steady (writeConfig 20)) 12).wrState = .idle →
        (steady (writeConfig 20) 12).axisRqTready = true ∨
          (st (steady (writeConfig 20)) 12).out.tvalid = false → pending = []) := by
  have op : Operation (steady (writeConfig 20)) (writeConfig 20) 4 12 :=
    steady_operation (by decide) (by decide +kernel) (by decide +kernel) (by decide +kernel)
  exact op.write_tlps_wellFormed (by decide) (by decide) (.inl (by decide)) 12 (by decide)
    (by decide)

/-- A size of `2 ^ 40 + 4` bytes wraps: the header of the first TLP announces one dword and 64
follow. -/
theorem write_tlps_wrap :
    Operation (steady (writeConfig (2 ^ 40 + 4))) (writeConfig (2 ^ 40 + 4)) 4 16 ∧
      (writeConfig (2 ^ 40 + 4)).capWrite = true ∧
      0 < (writeConfig (2 ^ 40 + 4)).sizeAtDescriptor.toNat ∧
      (writeConfig (2 ^ 40 + 4)).sizeAtDescriptor.toNat % 4 = 0 ∧
      ¬ ∃ tlps pending,
        Parses (Operation.emitted (steady (writeConfig (2 ^ 40 + 4))) 4 16) tlps pending := by
  refine ⟨steady_operation (by decide) (by decide +kernel) (by decide +kernel) (by decide +kernel),
    rfl, by decide, by decide, ?_⟩
  rintro ⟨tlps, pending, h⟩
  rcases h.first_tlp (by decide +kernel) with hw | ⟨x, hx, -⟩
  · have hdwords := hw.dwords
    revert hdwords
    decide +kernel
  · have hlen := congrArg List.length hx
    revert hlen
    rw [List.length_singleton]
    decide +kernel

/-! ## Payload words of a TLP -/

/-- The payload words of the beats handed over are accepted words, word for word and in order; the
buffer holds at most 14 words and never delivers one it does not have; and every TLP of an operation
with a supported size takes as many words as its dword count needs. -/
theorem c2s_data_integrity (inp : Run P) :
    (∀ t, (st inp t).c2sBufOccupancy.toNat ≤ 14 ∧
      (payload (collect (loads inp) 0 t)).length + (st inp t).c2sBufOccupancy.toNat =
        (acceptedWords inp t).length ∧
      payload (collect (emits inp) 0 t) <+: acceptedWords inp t) ∧
    ∀ cfg start stop, Operation inp cfg start stop → cfg.SizeFits P → cfg.WriteSizeOk P →
      ∀ t, start < t → t ≤ stop →
        ∃ tlps pending, Parses (Operation.emitted inp start t) tlps pending ∧
          ∀ tlp ∈ tlps, IsWriteTlp tlp → (payload tlp).length = (headerDwords tlp + 3) / 4 := by
  constructor
  · intro t
    have hq := queueInv inp t
    have hle := hq.carried_isPrefix.length_le
    have hocc := hq.occupancy
    have heq := hq.occupancy_eq
    exact ⟨by omega, by omega, payload_emits_isPrefix inp t⟩
  · intro cfg start stop op hsize hok t hat htb
    obtain ⟨tlps, pending, hparses, -⟩ := op.emitted_parses hsize hok hat htb
    exact ⟨tlps, pending, hparses, fun tlp _ htlp => htlp.payload_length⟩

theorem c2s_data_integrity_twenty :
    ∃ tlps pending, Parses (Operation.emitted (steady (writeConfig 20)) 4 12) tlps pending ∧
      ∀ tlp ∈ tlps, IsWriteTlp tlp → (payload tlp).length = (headerDwords tlp + 3) / 4 := by
  have op : Operation (steady (writeConfig 20)) (writeConfig 20) 4 12 :=
    steady_operation (by decide) (by decide +kernel) (by decide +kernel) (by decide +kernel)
  exact (c2s_data_integrity (steady (writeConfig 20))).2 _ 4 12 op (.of_dvd (by decide) (by decide))
    (.inl (by decide)) 12 (by decide) (by decide)

/-- A descriptor of size 0 sends a complete TLP that announces 64 dwords and takes one word. -/
theorem c2s_zero_size :
    Operation (steady (writeConfig 0)) (writeConfig 0) 4 9 ∧
      (firstTlp (Operation.emitted (steady (writeConfig 0)) 4 8)).map Sent.origin = [.initWrite] ∧
      (firstTlp (Operation.emitted (steady (writeConfig 0)) 4 8)).map (fun x => x.beat.tlast) =
        [true] ∧
      headerDwords (firstTlp (Operation.emitted (steady (writeConfig 0)) 4 8)) = 64 ∧
      (payload (firstTlp (Operation.emitted (steady (writeConfig 0)) 4 8))).length = 1 :=
  ⟨steady_operation (by decide) (by decide +kernel) (by decide +kernel) (by decide +kernel),
    by decide +kernel, by decide +kernel, by decide +kernel, by decide +kernel⟩

end WriteTlps

end Rq
end PcieBench
