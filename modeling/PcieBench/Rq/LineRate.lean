import PcieBench.Rq.ByteCount
import PcieBench.Rq.SequenceMemory

/-!
# What a write operation costs

The latency of a write operation is the number of its beats and of the cycles in which no beat was
loaded.  The number of beats follows from the descriptor alone.  A cycle without a beat is one in which
the core was not ready, or in which the C2S FIFO had not delivered a full beat one cycle before.  So with
a ready core and a full FIFO an operation runs at line rate, one beat a cycle, and no environment makes
it faster.
-/

namespace PcieBench
namespace Rq

open Clocked Tlp

/-! ## The beats of a TLP -/

/-- The beats of a memory write of `n` dwords, behind the four dwords of its descriptor. -/
def tlpBeats (n : Nat) : Nat := (n + 11) / 8

theorem IsWriteTlp.length_eq {l : List Sent} (h : IsWriteTlp l) : l.length = tlpBeats (headerDwords l) := by
  obtain ⟨front, final, rfl, hinner, -, hkeep⟩ := h.last
  have hdwords := h.dwords
  have hall : ∀ k : BitVec 8, popcount k ≤ 8 := by decide
  have hmost := hall final.beat.tkeep
  have hfinal : keptDwords [final] = popcount final.beat.tkeep := by simp [keptDwords]
  rw [keptDwords_append, keptDwords_inner hinner, hfinal] at hdwords
  rw [List.length_append, List.length_singleton, tlpBeats]
  omega

/-- The beats of a sequence of write requests. -/
def beatsFor (rs : List WriteRequest) : Nat := (rs.map fun r => tlpBeats r.dwords).sum

theorem beatsFor_append (rs rs' : List WriteRequest) : beatsFor (rs ++ rs') = beatsFor rs + beatsFor rs' := by
  rw [beatsFor, List.map_append, List.sum_append, beatsFor, beatsFor]

theorem IsWriteTlp.readHeaders_eq {l : List Sent} (h : IsWriteTlp l) : readHeaders l = [] := by
  cases l with
  | nil =>
      rfl
  | cons x body =>
      obtain ⟨horigin, -, hbody⟩ := h.starts
      rw [readHeaders, List.filter_eq_nil_iff]
      intro y hy
      rcases List.mem_cons.mp hy with rfl | hy
      · simp [horigin]
      · simp [hbody y hy]

/-- A memory read is one beat, and a memory write has the beats of its dwords. -/
theorem length_flatten_tlps {tlps : List (List Sent)}
    (hcomplete : ∀ l ∈ tlps, IsWriteTlp l ∨ IsReadTlp l) :
    tlps.flatten.length = beatsFor ((writeHeaders tlps.flatten).map Sent.writeRequest) +
      (readHeaders tlps.flatten).length := by
  induction tlps with
  | nil =>
      rfl
  | cons l tlps ih =>
      rw [List.flatten_cons, List.length_append, ih (fun l' hl' => hcomplete l' (List.mem_cons_of_mem _ hl')),
        writeHeaders_append, readHeaders_append, List.map_append, beatsFor_append, List.length_append]
      have hone : l.length = beatsFor ((writeHeaders l).map Sent.writeRequest) + (readHeaders l).length := by
        rcases hcomplete l List.mem_cons_self with hwrite | ⟨x, rfl, horigin, -, -⟩
        · cases l with
          | nil =>
              exact absurd hwrite.starts id
          | cons h body =>
              rw [hwrite.length_eq, hwrite.readHeaders_eq, hwrite.writeHeaders_eq]
              rfl
        · simp [writeHeaders, readHeaders, horigin, beatsFor]
      omega

theorem Streams.length {l : List Sent} {rs : List WriteRequest} (h : Streams l rs) :
    l.length = beatsFor rs + (readHeaders l).length := by
  obtain ⟨tlps, hp⟩ := h.parses
  have hsplit := hp.split
  rw [List.append_nil] at hsplit
  rw [← h.headers, hsplit]
  exact length_flatten_tlps hp.complete

/-! ## The beats of an operation -/

/-- The beats of a block of `size` bytes in `n` TLPs of `max` bytes, the last one with the rest. -/
def blockBeats (max size n : Nat) : Nat :=
  (n - 1) * tlpBeats (max / 4) + tlpBeats ((size - (n - 1) * max) / 4)

theorem beatsFor_blockRequests (max size n : Nat) (hn : 0 < n) (a : BitVec 64) :
    beatsFor (blockRequests max size n a) = blockBeats max size n := by
  obtain ⟨k, rfl⟩ : ∃ k, n = k + 1 := ⟨n - 1, by omega⟩
  have hfull : (List.range k).map (fun i => tlpBeats (tileSize max size (k + 1) i)) =
      (List.range k).map (fun _ => tlpBeats (max / 4)) := by
    refine List.map_congr_left ?_
    intro i hi
    rw [tileSize, if_pos (by simpa using hi)]
  have hlast : tileSize max size (k + 1) k = (size - k * max) / 4 := by
    rw [tileSize, if_neg (by omega), Nat.add_sub_cancel]
  rw [beatsFor, blockRequests, List.map_map, List.range_succ, List.map_append, List.sum_append,
    blockBeats, Nat.add_sub_cancel]
  simp only [Function.comp_def, List.map_singleton, List.sum_singleton]
  rw [hfull, hlast, List.map_const', List.sum_replicate, List.length_range, smul_eq_mul]

theorem beatsFor_requestsFor (max size n count : Nat) (hn : 0 < n) (base : Nat → BitVec 64) :
    beatsFor (requestsFor max size n count base) = count * blockBeats max size n := by
  induction count with
  | zero =>
      rw [Nat.zero_mul]
      rfl
  | succ count ih =>
      rw [requestsFor, List.range_succ, List.flatMap_append, ← requestsFor, beatsFor_append, ih,
        List.flatMap_singleton, beatsFor_blockRequests max size n hn, Nat.succ_mul]

section Operations

variable {P : Params} {cfg : Config} {inp : Run P} {start g l stop : Nat}

/-- The beats of an operation that only writes. -/
def Config.writeBeats (P : Params) (cfg : Config) : Nat :=
  cfg.writeBlocks P * blockBeats (2 ^ P.log2MaxPayload) cfg.sizeAtDescriptor.toNat (cfg.blockLength P)

/-- An operation that only writes has sent its beats when it is idle again. -/
theorem Operation.length_beats (op : Operation inp cfg start stop) (hok : cfg.Storable P)
    (hw : cfg.capWrite = true) (hr : cfg.capRead = false) (hidle : (st inp stop).wrState = .idle)
    (hbuilt : BuiltFrom P cfg (RandomOffset cfg) (Operation.beats inp start stop)) :
    (Operation.beats inp start stop).length = cfg.writeBeats P := by
  obtain ⟨o, ho, hstreams⟩ := op.streams hok hidle hbuilt
  have hreads := (op.countInv hok.pos hok.fit op.start_lt (Nat.le_refl _)).2.reads_eq hidle
  rw [hr, if_neg (by decide)] at hreads
  rw [hstreams.length, hreads, (Placed.of_write (o := o) (by rw [ho]; exact hw)).1, ho,
    Config.writeRequests, beatsFor_requestsFor _ _ _ _ hok.blockLength_pos, Config.writeBeats]
  rfl

/-! ## Cycles without a beat -/

variable (inp) in
/-- The number of cycles from `a` on and before `b` that load no beat. -/
def stallCount (a b : Nat) : Nat := (List.range (b - a)).countP (fun k => (loads inp (a + k)).isEmpty)

variable (inp) in
/-- The C2S FIFO offers a full beat. -/
def offersBeat (t : Nat) : Prop := (inp t).c2sTvalid = true ∧ (inp t).c2sTkeepHi = true

theorem length_loads (t : Nat) : (loads inp t).length ≤ 1 := by
  rw [loads, load]
  split <;> simp

/-- A cycle takes no more words out of the buffer than there are, and at most two. -/
theorem rdPtr_succ (s : State P) (i : Input P) : ∃ c : BitVec 5, c.toNat ≤ 2 ∧
    c.toNat ≤ s.c2sBufOccupancy.toNat ∧ (step s i).out.c2sRdPtr = s.out.c2sRdPtr + c := by
  have hone := oneWordAtBuffer_eq s
  have htwo := twoWordsAtBuffer_eq s
  have hzero : s.out.c2sRdPtr = s.out.c2sRdPtr + 0 := (BitVec.add_zero _).symm
  have hnone : (step s i).out.c2sRdPtr = s.out.c2sRdPtr → ∃ c : BitVec 5, c.toNat ≤ 2 ∧
      c.toNat ≤ s.c2sBufOccupancy.toNat ∧ (step s i).out.c2sRdPtr = s.out.c2sRdPtr + c :=
    fun h => ⟨0, Nat.zero_le _, Nat.zero_le _, h.trans hzero⟩
  cases hready : i.axisRqTready with
  | false =>
      refine hnone ?_
      simp [nextOut, hready]
  | true =>
      cases hs : s.wrState with
      | initWrite =>
          cases hw : s.oneWordAtBuffer with
          | false =>
              refine hnone ?_
              simp [nextOut, hready, hs, hw]
          | true =>
              rw [hone, decide_eq_true_eq] at hw
              exact ⟨1, by decide, hw, by simp [nextOut, hready, hs, hone, hw]⟩
      | write =>
          by_cases hlast : (s.oneWordAtBuffer && s.lastWordAtTlp) = true
          · have hw := (Bool.and_eq_true_iff.mp hlast).1
            rw [hone, decide_eq_true_eq] at hw
            exact ⟨1, by decide, hw, by simp [nextOut, hready, hs, hlast]⟩
          · cases hw : s.twoWordsAtBuffer with
            | false =>
                refine hnone ?_
                simp [nextOut, hready, hs, hlast, hw]
            | true =>
                rw [htwo, decide_eq_true_eq] at hw
                exact ⟨2, by decide, hw, by simp [nextOut, hready, hs, hlast, htwo, hw]⟩
      | idle =>
          refine hnone ?_
          simp [nextOut, hready, hs]
      | initRead =>
          refine hnone ?_
          simp [nextOut, hready, hs]
      | waitRead =>
          refine hnone ?_
          simp [nextOut, hready, hs]

/-- Behind a full beat of the FIFO there are two words in the buffer. -/
theorem two_words_after {s : State P} {i : Input P} (hvalid : i.c2sTvalid = true)
    (hkeep : i.c2sTkeepHi = true) (hmost : s.c2sBufOccupancy.toNat ≤ 14) :
    2 ≤ (step s i).c2sBufOccupancy.toNat := by
  obtain ⟨c, hc, hle, hptr⟩ := rdPtr_succ s i
  have htwo : BitVec.toNat (2 : BitVec 5) = 2 := rfl
  have htwelve : BitVec.toNat (12 : BitVec 5) = 12 := rfl
  rw [State.c2sBufOccupancy, hptr, step_c2s, nextC2s, hvalid, Bool.true_and]
  by_cases hroom : s.c2sFifoTready = true
  · rw [if_pos hroom, hkeep, if_pos rfl]
    rw [State.c2sFifoTready, decide_eq_true_eq, BitVec.le_def, htwelve] at hroom
    have hocc : s.c2s.wrPtr + 2 - (s.out.c2sRdPtr + c) = s.c2sBufOccupancy + 2 - c := by
      rw [State.c2sBufOccupancy]
      bv_omega
    rw [hocc, BitVec.toNat_sub, BitVec.toNat_add, htwo]
    omega
  · rw [if_neg hroom]
    rw [State.c2sFifoTready, decide_eq_true_eq, BitVec.le_def, htwelve] at hroom
    have hocc : s.c2s.wrPtr - (s.out.c2sRdPtr + c) = s.c2sBufOccupancy - c := by
      rw [State.c2sBufOccupancy]
      bv_omega
    rw [hocc, BitVec.toNat_sub]
    omega

/-- With two words in the buffer every cycle of a memory write in which the core is ready loads a
beat. -/
theorem load_of_two_words {s : State P} {i : Input P} (hs : s.wrState = .initWrite ∨ s.wrState = .write)
    (hready : i.axisRqTready = true) (hwords : 2 ≤ s.c2sBufOccupancy.toNat) : load s i ≠ [] := by
  have hone : s.oneWordAtBuffer = true := by
    rw [oneWordAtBuffer_eq, decide_eq_true_eq]
    omega
  have htwo : s.twoWordsAtBuffer = true := by
    rw [twoWordsAtBuffer_eq, decide_eq_true_eq]
    exact hwords
  rcases hs with hs | hs
  · simp [load_initWrite hs, hready, hone]
  · simp [load_write hs, hready, htwo]

theorem occupancy_le (inp : Run P) (t : Nat) : (st inp t).c2sBufOccupancy.toNat ≤ 14 := by
  have hq := queueInv inp t
  have hmost := hq.occupancy
  rw [hq.occupancy_eq]
  omega

/-! ## The latency of a write -/

/-- From the first busy cycle to its end an operation is busy. -/
theorem Spans.busy (h : Spans inp start g l) :
    ∀ u, start < u → u < l → (st inp u).wrState ≠ .idle := by
  intro u hu hul
  refine interval_induction (p := fun u => (st inp u).wrState ≠ .idle) (b := l - 1) h.leaves ?_ u hu
    (by omega)
  intro v hv hvl hbusy hidle
  -- the FSM would have announced the end before cycle `l`
  rcases endOfOperation_of_leaving hbusy (i := inp v) hidle with hend | ⟨-, hend⟩
  · rw [h.running v hv (by omega)] at hend
    cases hend
  · rw [← st_succ, h.running (v + 1) (by omega) (by omega)] at hend
    cases hend

section Writes

variable (op : Operation inp cfg start l) (hok : cfg.Storable P) (hw : cfg.capWrite = true)
  (hr : cfg.capRead = false)

include op hr in
/-- An operation without reads ends in the idle state. -/
theorem Spans.idle_at_end (h : Spans inp start g l) : (st inp l).wrState = .idle := by
  by_contra hs
  rcases op.writing hr h.start_lt_end (Nat.le_refl l) hs with hstate | hstate
  · exact (ne_header_of_endOfOperation h.ends).1 hstate
  · rcases idle_or_waitRead_of_end h.ends with hend | hend
    · exact hs hend
    · rw [hend] at hstate
      cases hstate

include op hok hw hr in
/-- From the free output register to its end an operation takes the cycles of its beats and those
without a beat. -/
theorem Spans.beats_add_stalls (h : Spans inp start g l)
    (hbuilt : BuiltFrom P cfg (RandomOffset cfg) (Operation.beats inp start l)) :
    cfg.writeBeats P + stallCount inp g l = l - g := by
  have hsg := h.start_lt
  have hgl := h.lt_end
  have hlength := op.length_beats hok hw hr (h.idle_at_end op hr) hbuilt
  -- nothing is loaded before the gate opens
  have hbefore : collect (loads inp) (start + 1) (g - (start + 1)) = [] := by
    refine collect_eq_nil _ _ _ ?_
    intro k hk
    rw [loads, load, if_neg]
    intro hload
    have hvalid := h.silent (u := start + 1 + k + 1) (by omega) (by omega)
    rw [st_succ] at hvalid
    rw [hvalid, Bool.and_false] at hload
    cases hload
  rw [Operation.beats, collect_split _ (start + 1) (show start + 1 ≤ g by omega) hgl.le, hbefore,
    List.nil_append] at hlength
  rw [← hlength]
  exact length_collect_add_countP _ _ length_loads (l - g)

include op hr in
/-- A cycle without a beat is the fault of the core or of the FIFO. -/
theorem Spans.stalls_of (h : Spans inp start g l) {u : Nat} (hgu : g ≤ u) (hul : u < l)
    (hnone : loads inp u = []) : (inp u).axisRqTready = false ∨ ¬ offersBeat inp (u - 1) := by
  have hsg := h.start_lt
  by_contra hfault
  push Not at hfault
  obtain ⟨hready, hvalid, hkeep⟩ := hfault
  obtain ⟨v, rfl⟩ : ∃ v, u = v + 1 := ⟨u - 1, by omega⟩
  have hs := op.writing hr (by omega) hul.le (h.busy (v + 1) (by omega) hul)
  have hwords := two_words_after (s := st inp v) hvalid hkeep (occupancy_le inp v)
  exact load_of_two_words hs (by simpa using hready) hwords hnone

include op hok hw hr in
/-- The latency of a write is its beats and its stalls; at line rate it is its beats. -/
theorem Spans.write_latency (h : Spans inp start g l)
    (hbuilt : BuiltFrom P cfg (RandomOffset cfg) (Operation.beats inp start l)) :
    (st inp (l + 1)).latency.current = BitVec.ofNat 64 (cfg.writeBeats P + stallCount inp g l) ∧
      (∀ u, g ≤ u → u < l → loads inp u = [] →
        (inp u).axisRqTready = false ∨ ¬ offersBeat inp (u - 1)) ∧
      ((∀ u, g ≤ u → u < l → (inp u).axisRqTready = true ∧ offersBeat inp (u - 1)) →
        stallCount inp g l = 0) := by
  have hmeasured : Measured inp start g l := by
    refine ⟨h, ?_⟩
    intro u hu hug
    have hgl := h.lt_end
    have hcfg : (inp u).cfg = cfg := by
      rcases Nat.eq_or_lt_of_le hu with rfl | hlt
      · exact op.stable _ (Nat.le_refl _) op.start_lt (.inl rfl)
      · exact op.stable u hu (by omega) (.inr (h.busy u hlt (by omega)))
    rw [hcfg, op.stable start (Nat.le_refl _) op.start_lt (.inl rfl)]
    exact ⟨rfl, rfl⟩
  refine ⟨?_, fun u hgu hul => h.stalls_of op hr hgu hul, ?_⟩
  · rw [hmeasured.current_eq, h.beats_add_stalls op hok hw hr hbuilt]
  · intro hfull
    rw [stallCount, List.countP_eq_zero]
    intro k hk hempty
    have hkl := List.mem_range.mp hk
    obtain ⟨hready, hoffer⟩ := hfull (g + k) (by omega) (by omega)
    rcases h.stalls_of op hr (u := g + k) (by omega) (by omega) (List.isEmpty_iff.mp hempty) with
      hstall | hstall
    · rw [hready] at hstall
      cases hstall
    · exact hstall hoffer

end Writes

end Operations

end Rq
end PcieBench
