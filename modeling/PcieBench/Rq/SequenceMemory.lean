import PcieBench.Manager.Queue
import PcieBench.Rq.HostMemory

/-!
# What a sequence of operations leaves in host memory

The receiver sees one stream of beats and knows nothing of the operations behind it.  Every operation
sends complete TLPs and takes the C2S words where the one before it has stopped.  So a sequence of
operations leaves the blocks of all its writes, each filled with the next slice of the accepted words,
and a read among them changes nothing.
-/

namespace PcieBench
namespace Rq

open Clocked Tlp Memory

/-! ## Complete TLPs -/

/-- Beats that are complete TLPs, with these write requests among them. -/
structure Streams (l : List Sent) (requests : List WriteRequest) : Prop where
  low : ∀ x ∈ l, IsLowKeep x.beat.tkeep
  full : ∀ x ∈ l, x.origin = .initWrite → FullEnables x.beat
  parses : ∃ tlps, Parses l tlps []
  headers : (writeHeaders l).map Sent.writeRequest = requests

namespace Streams

variable {l l' : List Sent} {rs rs' : List WriteRequest}

theorem nil : Streams [] [] where
  low _ hx := by cases hx
  full _ hx := by cases hx
  parses := ⟨[], .nil⟩
  headers := rfl

/-- Two streams, one after the other. -/
theorem append (h : Streams l rs) (h' : Streams l' rs') : Streams (l ++ l') (rs ++ rs') where
  low x hx := by
    rcases List.mem_append.mp hx with hx | hx
    · exact h.low x hx
    · exact h'.low x hx
  full x hx := by
    rcases List.mem_append.mp hx with hx | hx
    · exact h.full x hx
    · exact h'.full x hx
  parses := by
    obtain ⟨tlps, hp⟩ := h.parses
    obtain ⟨tlps', hp'⟩ := h'.parses
    refine ⟨tlps ++ tlps', ?_, ?_, .inl rfl⟩
    · rw [hp.split, hp'.split]
      simp
    · intro x hx
      rcases List.mem_append.mp hx with hx | hx
      · exact hp.complete x hx
      · exact hp'.complete x hx
  headers := by
    rw [writeHeaders_append, List.map_append, h.headers, h'.headers]

/-- The words of a stream are those that its requests ask for. -/
theorem words (h : Streams l rs) : (payload l).length = wordsOf rs := by
  obtain ⟨tlps, hp⟩ := h.parses
  have hsplit := hp.split
  rw [List.append_nil] at hsplit
  rw [← h.headers, hsplit, length_payload_flatten hp.complete]

/-- The receiver of a stream performs its requests. -/
theorem receive_mem (h : Streams l rs) (m : Image 64 (BitVec 8)) (rest : List (BitVec 128)) :
    (receive m (beatsOf l)).mem = storeAll m (writeStores rs (payload l ++ rest)) := by
  obtain ⟨tlps, hp⟩ := h.parses
  have hsplit := hp.split
  rw [List.append_nil] at hsplit
  have hmem : ∀ tlp ∈ tlps, ∀ x ∈ tlp, x ∈ l := by
    intro tlp htlp x hx
    rw [hsplit]
    exact List.mem_flatten.mpr ⟨tlp, htlp, hx⟩
  rw [hp.receive_mem, foldl_perform hp.complete (fun tlp htlp x hx => h.low x (hmem tlp htlp x hx))
    (fun tlp htlp x hx => h.full x (hmem tlp htlp x hx)) m rest, ← hsplit, h.headers]

end Streams

/-! ## Operations and their places -/

section Operations

variable {P : Params}

/-- The sizes for which every TLP of the operation is whole and no count wraps. -/
structure Config.Storable (P : Params) (cfg : Config) : Prop where
  pos : 0 < cfg.sizeAtDescriptor.toNat
  dvd : cfg.sizeAtDescriptor.toNat % 4 = 0
  fit : cfg.total + cfg.blockLength P < 2 ^ 32
  small : cfg.WriteSizeOk P

/-- Block `q` of an operation may be at `a`. -/
def Config.BlockAt (cfg : Config) (q : Nat) (a : BitVec 64) : Prop :=
  if cfg.addressMode = 0 ∨ cfg.addressMode = 1 then a = alignDword (cfg.blockAddress q)
  else if q = 0 then a = alignDword cfg.addrAtDescriptor
  else ∃ r, RandomOffset cfg r ∧ a = alignDword (cfg.addrAtDescriptor + r)

/-- An operation with the places of the blocks that it writes. -/
structure Placed (P : Params) where
  cfg : Config
  base : Nat → BitVec 64
  placed : cfg.capWrite = true → ∀ q, q < cfg.writeBlocks P → cfg.BlockAt q (base q)

/-- The write requests of an operation; there are none in a read. -/
def Placed.requests (o : Placed P) : List WriteRequest :=
  if o.cfg.capWrite then o.cfg.writeRequests P o.base else []

/-- The stores of an operation that finds `words` in the C2S FIFO. -/
def Placed.stores (o : Placed P) (words : List (BitVec 128)) : List (BitVec 64 × List (BitVec 8)) :=
  if o.cfg.capWrite then o.cfg.blockStores P o.base words else []

/-- The C2S words that an operation takes. -/
def Placed.taken (o : Placed P) : Nat :=
  if o.cfg.capWrite then o.cfg.writeBlocks P * blockWords o.cfg.sizeAtDescriptor.toNat else 0

/-- The stores of a sequence of operations: each one goes on with the words that the one before it has
left. -/
def placedStores : List (Placed P) → List (BitVec 128) → List (BitVec 64 × List (BitVec 8))
  | [], _ => []
  | o :: os, words => o.stores words ++ placedStores os (words.drop o.taken)

theorem Placed.of_read {o : Placed P} (h : o.cfg.capWrite = false) :
    o.requests = [] ∧ (∀ words, o.stores words = []) ∧ o.taken = 0 := by
  have hread : ¬ o.cfg.capWrite = true := by simp [h]
  exact ⟨if_neg hread, fun _ => if_neg hread, if_neg hread⟩

theorem Placed.of_write {o : Placed P} (h : o.cfg.capWrite = true) :
    o.requests = o.cfg.writeRequests P o.base ∧
      (∀ words, o.stores words = o.cfg.blockStores P o.base words) ∧
      o.taken = o.cfg.writeBlocks P * blockWords o.cfg.sizeAtDescriptor.toNat :=
  ⟨if_pos h, fun _ => if_pos h, if_pos h⟩

theorem Config.Storable.blockLength_pos {cfg : Config} (h : cfg.Storable P) : 0 < cfg.blockLength P := by
  rw [blockLength_eq]
  exact blockCount_pos _ h.pos

theorem Placed.wordsOf_requests (o : Placed P) (h : o.cfg.Storable P) (hlog : 4 ≤ P.log2MaxPayload) :
    wordsOf o.requests = o.taken := by
  cases hw : o.cfg.capWrite with
  | false =>
      obtain ⟨hrequests, -, htaken⟩ := Placed.of_read hw
      rw [hrequests, htaken]
      rfl
  | true =>
      obtain ⟨hrequests, -, htaken⟩ := Placed.of_write hw
      have hmax : 2 ^ P.log2MaxPayload % 16 = 0 := Nat.mod_eq_zero_of_dvd (pow_dvd_pow 2 hlog)
      rw [hrequests, htaken, Config.writeRequests,
        wordsOf_requestsFor hmax h.dvd h.blockLength_pos (blockLength_low hw h.pos)]

/-- The requests of a sequence ask for the words that its operations take. -/
theorem wordsOf_flatMap (hlog : 4 ≤ P.log2MaxPayload) {ops : List (Placed P)}
    (hok : ∀ o ∈ ops, o.cfg.Storable P) :
    wordsOf (ops.flatMap Placed.requests) = (ops.map Placed.taken).sum := by
  induction ops with
  | nil =>
      rfl
  | cons o ops ih =>
      rw [List.flatMap_cons, wordsOf, List.map_append, List.sum_append, ← wordsOf, ← wordsOf,
        o.wordsOf_requests (hok o List.mem_cons_self) hlog,
        ih (fun o' ho' => hok o' (List.mem_cons_of_mem _ ho')), List.map_cons, List.sum_cons]

/-- Where there are words enough, the requests of a sequence store its blocks. -/
theorem storeAll_requests (hlog : 4 ≤ P.log2MaxPayload) {ops : List (Placed P)}
    (hok : ∀ o ∈ ops, o.cfg.Storable P) {words : List (BitVec 128)}
    (hwords : wordsOf (ops.flatMap Placed.requests) ≤ words.length) (m : Image 64 (BitVec 8)) :
    storeAll m (writeStores (ops.flatMap Placed.requests) words) =
      storeAll m (placedStores ops words) := by
  induction ops generalizing m words with
  | nil =>
      rfl
  | cons o ops ih =>
      have ho := hok o List.mem_cons_self
      have htaken := o.wordsOf_requests ho hlog
      rw [List.flatMap_cons, wordsOf, List.map_append, List.sum_append, ← wordsOf, ← wordsOf] at hwords
      have hone : storeAll m (writeStores o.requests words) = storeAll m (o.stores words) := by
        cases hw : o.cfg.capWrite with
        | false =>
            obtain ⟨hrequests, hstores, -⟩ := Placed.of_read hw
            rw [hrequests, hstores]
            rfl
        | true =>
            obtain ⟨hrequests, hstores, -⟩ := Placed.of_write hw
            have hroom : wordsOf (o.cfg.writeRequests P o.base) ≤ words.length := by
              rw [hrequests] at hwords
              omega
            rw [hrequests, hstores,
              Operation.storeAll_writeRequests hw ho.pos ho.dvd hlog o.base hroom]
      rw [List.flatMap_cons, writeStores_append, storeAll_append, hone, htaken, placedStores,
        storeAll_append]
      -- the other operations find the words behind those of this one
      refine ih (fun o' ho' => hok o' (List.mem_cons_of_mem _ ho')) ?_ _
      rw [List.length_drop]
      omega

/-! ## The beats of an operation -/

/-- In a random pattern the blocks are at random offsets inside the buffer. -/
theorem BuiltFrom.places {cfg : Config} {l : List Sent} (h : BuiltFrom P cfg (RandomOffset cfg) l)
    (hmode : ¬ (cfg.addressMode = 0 ∨ cfg.addressMode = 1)) :
    ∃ (base : Nat → BitVec 64) (B : Nat → BitVec 64 → Prop),
      (wrBlocks P cfg B).TilesFrom base (writeHeaders l) ∧
        ∀ q, B q (base q) → cfg.BlockAt q (alignDword (base q)) := by
  obtain ⟨base, hfrom⟩ := h.writes
  refine ⟨base, _, hfrom, ?_⟩
  intro q hb
  have hfix : cfg.addressMode ≠ 0 := fun h => hmode (.inl h)
  have hseq : cfg.addressMode ≠ 1 := fun h => hmode (.inr h)
  simp only [BlockBase, IsBase, if_neg hfix, if_neg hseq] at hb
  rw [Config.BlockAt, if_neg hmode]
  split at hb
  · rename_i hq
    rw [if_pos hq, hb]
  · rename_i hq
    obtain ⟨r, hr, hbase⟩ := hb
    rw [if_neg hq, hbase]
    exact ⟨r, hr, rfl⟩

namespace Operation

variable {inp : Run P} {cfg : Config} {start stop : Nat}

/-- The memory writes of an operation tile blocks at the places of its address mode. -/
theorem places (op : Operation inp cfg start stop) (hw : cfg.capWrite = true)
    (hbuilt : BuiltFrom P cfg (RandomOffset cfg) (beats inp start stop)) :
    ∃ (base : Nat → BitVec 64) (B : Nat → BitVec 64 → Prop),
      (wrBlocks P cfg B).TilesFrom base (writeHeaders (beats inp start stop)) ∧
        ∀ q, B q (base q) → cfg.BlockAt q (alignDword (base q)) := by
  by_cases hmode : cfg.addressMode = 0 ∨ cfg.addressMode = 1
  · obtain ⟨base, -, hknown, B, hfrom⟩ := op.writeBases hw op.start_lt (Nat.le_refl stop)
    refine ⟨base, B, hfrom, ?_⟩
    intro q _
    rw [Config.BlockAt, if_pos hmode, hknown hmode]
  · exact hbuilt.places hmode

/-- The beats of an operation that has ended are complete TLPs. -/
theorem streams (op : Operation inp cfg start stop) (hok : cfg.Storable P)
    (hidle : (st inp stop).wrState = .idle)
    (hbuilt : BuiltFrom P cfg (RandomOffset cfg) (beats inp start stop)) :
    ∃ o : Placed P, o.cfg = cfg ∧ Streams (beats inp start stop) o.requests := by
  have hlt := op.start_lt
  have hlength : cfg.blockLength P < 2 ^ 32 := by
    have := hok.fit
    omega
  obtain ⟨tlps, pending, hparses, hclosed, -⟩ :=
    (op.writeInv (.of_dvd hok.pos hok.dvd) hok.small stop hlt (Nat.le_refl _)).parses
  have hnone : pending = [] := hclosed (by simp [hidle])
  rw [hnone] at hparses
  have hbe := (op.byteEnables hok.pos hok.dvd hok.fit stop hlt (Nat.le_refl _)).2
  have hcount := (op.countInv hok.pos hok.fit hlt (Nat.le_refl _)).2.writes_eq hidle
  have hlow : ∀ x ∈ beats inp start stop, IsLowKeep x.beat.tkeep := isLowKeep inp _ _
  have hfull : ∀ x ∈ beats inp start stop, x.origin = .initWrite → FullEnables x.beat :=
    fun x hx ho => (hbe x hx (by simp [ho])).full
  cases hw : cfg.capWrite with
  | false =>
      -- a read has no headers of memory writes
      rw [hw, if_neg (by decide)] at hcount
      let o : Placed P := ⟨cfg, fun _ => 0, fun hcap => by
        rw [hw] at hcap
        cases hcap⟩
      have hnil : o.requests = [] := (Placed.of_read hw).1
      refine ⟨o, rfl, hlow, hfull, ⟨tlps, hparses⟩, ?_⟩
      rw [hnil, List.eq_nil_of_length_eq_zero hcount]
      rfl
  | true =>
      rw [hw, if_pos rfl] at hcount
      obtain ⟨base, B, hfrom, hat⟩ := op.places hw hbuilt
      have hrequests := writeRequests_of_tiles hw hok.pos hlength hfrom (Nat.le_of_eq hcount)
      have hn := hok.blockLength_pos
      have hper : (wrBlocks P cfg B).count = cfg.blockLength P := by
        rw [blockLength_of_write hw] at hlength ⊢
        exact blockTlps_numberEvenTlp hok.pos hlength
      have hlen : (cfg.writeRequests P fun q => alignDword (base q)).length =
          (writeHeaders (beats inp start stop)).length := by
        rw [Config.writeRequests, requestsFor_eq hn, List.length_map, List.length_range, hcount]
        rfl
      let o : Placed P := ⟨cfg, fun q => alignDword (base q), fun _ q hq => by
        -- the first request of the block has a header
        have hfirst : q * cfg.blockLength P < (writeHeaders (beats inp start stop)).length := by
          rw [hcount]
          exact Nat.mul_lt_mul_of_pos_right hq hn
        have hbase := (hfrom _ _ (List.getElem?_eq_getElem hfirst)).1
        rw [hper, Nat.mul_div_cancel _ hn] at hbase
        exact hat q hbase⟩
      have hall : o.requests = cfg.writeRequests P fun q => alignDword (base q) :=
        (Placed.of_write hw).1
      refine ⟨o, rfl, hlow, hfull, ⟨tlps, hparses⟩, ?_⟩
      rw [hrequests, hall, List.take_of_length_le (Nat.le_of_eq hlen)]

end Operation

/-! ## A sequence of operations -/

variable {inp : Run P} {cfgs : List Config} {t u : Nat}

theorem collect_loads_idle {a n : Nat} (h : ∀ v, a ≤ v → v < a + n → (st inp v).wrState = .idle) :
    collect (loads inp) a n = [] :=
  collect_eq_nil _ _ n (fun k hk => load_idle (h (a + k) (by omega) (by omega)))

theorem Performs.le (h : Performs inp cfgs t u) : t ≤ u := by
  induction h with
  | done le idle =>
      exact le
  | next le idle operation busy ended built rest ih =>
      have hlt := operation.start_lt
      omega

/-- The beats of a sequence of operations are those of one operation after the other. -/
theorem Performs.streams (h : Performs inp cfgs t u) (hok : ∀ cfg ∈ cfgs, cfg.Storable P) :
    ∃ ops : List (Placed P), ops.map Placed.cfg = cfgs ∧
      Streams (collect (loads inp) t (u - t)) (ops.flatMap Placed.requests) := by
  induction h with
  | done le idle =>
      refine ⟨[], rfl, ?_⟩
      rw [collect_loads_idle (fun v hv hvu => idle v hv (by omega))]
      exact .nil
  | @next cfg cfgs t start stop u le idle operation busy ended built rest ih =>
      obtain ⟨o, ho, hone⟩ := operation.streams (hok _ List.mem_cons_self) ended built
      obtain ⟨ops, hops, hrest⟩ := ih (fun c hc => hok c (List.mem_cons_of_mem _ hc))
      have hlt := operation.start_lt
      have hle := rest.le
      refine ⟨o :: ops, by rw [List.map_cons, ho, hops], ?_⟩
      -- the idle cycles, the operation and the operations behind it
      have hsplit : collect (loads inp) t (u - t) =
          Operation.beats inp start stop ++ collect (loads inp) stop (u - stop) := by
        have hidle : collect (loads inp) t (start + 1 - t) = [] :=
          collect_loads_idle (fun v hv hvs => idle v hv (by omega))
        rw [collect_split _ t (show t ≤ start + 1 by omega) (show start + 1 ≤ u by omega), hidle,
          List.nil_append, collect_split _ (start + 1) (show start + 1 ≤ stop by omega) hle,
          Operation.beats]
      rw [hsplit, List.flatMap_cons]
      exact hone.append hrest

/-- When a sequence of operations has ended and its last beat is out, it has taken its words from the C2S
FIFO and the receiver has stored the blocks of its writes. -/
theorem Performs.stored (h : Performs inp cfgs 0 u) (hok : ∀ cfg ∈ cfgs, cfg.Storable P)
    (hlog : 4 ≤ P.log2MaxPayload) (hdrained : (st inp u).out.tvalid = false) :
    ∃ ops : List (Placed P), ops.map Placed.cfg = cfgs ∧
      (ops.map Placed.taken).sum ≤ (acceptedWords inp u).length ∧ ∀ m,
        (receive m (beatsOf (collect (emits inp) 0 u))).mem =
          storeAll m (placedStores ops (acceptedWords inp u)) := by
  obtain ⟨ops, hops, hstreams⟩ := h.streams hok
  have hout : collect (emits inp) 0 u = collect (loads inp) 0 u := by
    have hbalance := collect_emits_append_waits inp 0 u
    have hlast : waits inp (0 + u) = [] := by
      rw [Nat.zero_add]
      simp [waits, held, hdrained]
    have hfirst : waits inp 0 = [] := by simp [waits, held, Rq.reset]
    rw [hlast, hfirst, List.append_nil, List.nil_append] at hbalance
    exact hbalance
  rw [Nat.sub_zero] at hstreams
  obtain ⟨rest, hrest⟩ := (queueInv inp u).carried_isPrefix
  have hall : ∀ o ∈ ops, o.cfg.Storable P := by
    intro o ho
    refine hok _ ?_
    rw [← hops]
    exact List.mem_map_of_mem ho
  have hroom : wordsOf (ops.flatMap Placed.requests) ≤ (acceptedWords inp u).length := by
    rw [← hstreams.words, ← hrest, List.length_append]
    omega
  refine ⟨ops, hops, ?_, ?_⟩
  · rwa [← wordsOf_flatMap hlog hall]
  · intro m
    rw [hout, hstreams.receive_mem m rest, hrest, storeAll_requests hlog hall hroom]

theorem Performs.memory (h : Performs inp cfgs 0 u) (hok : ∀ cfg ∈ cfgs, cfg.Storable P)
    (hlog : 4 ≤ P.log2MaxPayload) (hdrained : (st inp u).out.tvalid = false) :
    ∃ ops : List (Placed P), ops.map Placed.cfg = cfgs ∧ ∀ m,
      (receive m (beatsOf (collect (emits inp) 0 u))).mem =
        storeAll m (placedStores ops (acceptedWords inp u)) := by
  obtain ⟨ops, hops, -, hmem⟩ := h.stored hok hlog hdrained
  exact ⟨ops, hops, hmem⟩

end Operations

end Rq
end PcieBench
