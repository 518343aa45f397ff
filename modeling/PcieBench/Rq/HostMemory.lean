import PcieBench.Rq.BlockOrder
import PcieBench.Tlp.WriteStream

/-!
# What a write operation leaves in host memory

The receiver of the request stream performs the TLPs of an operation on the memory of the host.  A memory
write stores the bytes of its payload words, the words of all memory writes together are what was accepted
from the C2S FIFO, and their headers tile the blocks of the descriptor.  So an operation stores one slice
of the accepted words after the other, each at the address of its block.
-/

namespace PcieBench
namespace Rq

open Clocked Tlp Memory

/-! ## The dwords of a memory write TLP -/

theorem headerKeep_isLow : ∀ r : BitVec 4, IsLowKeep (headerKeep r) := by
  decide

theorem payloadKeep_isLow : ∀ r : BitVec 4, IsLowKeep (payloadKeep r) := by
  decide

/-- Every beat enables its low dwords. -/
theorem load_isLowKeep {P : Params} {s : State P} (h : PointerInv s) (i : Input P) :
    ∀ x ∈ load s i, IsLowKeep x.beat.tkeep := by
  have hfull : IsLowKeep 0xff := by decide
  intro x hx
  cases hs : s.wrState with
  | idle =>
      simp [load_idle hs] at hx
  | initWrite =>
      rw [load_initWrite hs] at hx
      split at hx
      · rename_i hload
        obtain ⟨hready, hone⟩ := Bool.and_eq_true_iff.mp hload
        have hkeep : (step s i).beat.tkeep =
            if s.lastWordAtTlp then headerKeep s.wrPtr.nextRemainder else 0xff := by
          simp [State.beat, nextCtl, hs, hready, hone]
        rw [List.mem_singleton.mp hx, hkeep]
        split
        · exact headerKeep_isLow _
        · exact hfull
      · cases hx
  | write =>
      rw [load_write hs] at hx
      split at hx
      · rename_i hload
        obtain ⟨hready, -⟩ := Bool.and_eq_true_iff.mp hload
        have hkeep : (step s i).beat.tkeep =
            if s.writeEnds then payloadKeep s.wrPtr.nextRemainder else 0xff := by
          cases hends : s.writeEnds <;> simp [State.beat, nextCtl, hs, hready, hends, h.keep hs]
        rw [List.mem_singleton.mp hx, hkeep]
        split
        · exact payloadKeep_isLow _
        · exact hfull
      · cases hx
  | initRead =>
      rw [load_initRead hs] at hx
      split at hx
      · rename_i hload
        obtain ⟨hready, -⟩ := Bool.and_eq_true_iff.mp hload
        have hkeep : (step s i).beat.tkeep = 0x0f := by
          simp [State.beat, nextCtl, hs, hready]
        rw [List.mem_singleton.mp hx, hkeep]
        decide
      · cases hx
  | waitRead =>
      simp [load_waitRead hs] at hx

/-- The beats of a sequence. -/
def beatsOf (l : List Sent) : List Beat := l.map Sent.beat

/-- Full payload beats carry the dwords of their words. -/
theorem enabled_inner {l : List Sent} (hinner : ∀ x ∈ l, x.IsInner)
    (horigin : ∀ x ∈ l, x.origin = .write) :
    (beatsOf l).flatMap Beat.enabled = (payload l).flatMap laneDwords := by
  induction l with
  | nil =>
      rfl
  | cons x l ih =>
      have hkeep := (hinner x List.mem_cons_self).2
      have hlow : IsLowKeep x.beat.tkeep := by
        rw [hkeep]
        decide
      have hx : x.beat.enabled = (Sent.payload x).flatMap laneDwords := by
        rw [Beat.enabled_eq hlow, hkeep, Sent.payload, horigin x List.mem_cons_self]
        simp only [hkeep, if_neg (show ¬ popcount 0xff ≤ 4 by decide), List.flatMap_cons,
          List.flatMap_nil, List.append_nil]
        rfl
      rw [beatsOf, List.map_cons, List.flatMap_cons, payload, List.flatMap_cons, List.flatMap_append,
        hx]
      congr 1
      exact ih (fun y hy => hinner y (List.mem_cons_of_mem _ hy))
        (fun y hy => horigin y (List.mem_cons_of_mem _ hy))

/-- The last payload beat carries the first dwords of its words. -/
theorem enabled_final {x : Sent} (horigin : x.origin = .write) (hlow : IsLowKeep x.beat.tkeep) :
    x.beat.enabled = ((Sent.payload x).flatMap laneDwords).take (popcount x.beat.tkeep) := by
  rw [Beat.enabled_eq hlow, Sent.payload, horigin]
  dsimp only
  split
  · rename_i hle
    rw [List.flatMap_singleton, Beat.allDwords, List.take_append_of_le_length (by simpa using hle)]
  · rfl

/-- The payload of a memory write is the first dwords of its words. -/
theorem IsWriteTlp.payloadDwords_eq {l : List Sent} (h : IsWriteTlp l)
    (hlow : ∀ x ∈ l, IsLowKeep x.beat.tkeep) :
    payloadDwords (beatsOf l) = ((payload l).flatMap laneDwords).take (headerDwords l) := by
  obtain ⟨front, final, rfl, hinner, -, -⟩ := h.last
  have hdwords := h.dwords
  have hfinal := hlow final (by simp)
  rw [keptDwords_append, keptDwords_inner hinner] at hdwords
  have hkept : keptDwords [final] = popcount final.beat.tkeep := by simp [keptDwords]
  rw [hkept] at hdwords
  cases front with
  | nil =>
      -- the header is the whole TLP
      obtain ⟨horigin, -, -⟩ := h.starts
      simp only [List.nil_append, List.length_nil] at *
      have hpayload : payload [final] = [final.beat.tdataHi] := by
        simp [payload, Sent.payload, horigin]
      rw [hpayload, payloadDwords, beatsOf, List.map_singleton, List.flatMap_singleton,
        Beat.enabled_eq hfinal, List.flatMap_singleton, List.drop_take, Beat.allDwords]
      rw [show popcount final.beat.tkeep - 4 = headerDwords [final] by omega,
        List.drop_left' (length_laneDwords _)]
  | cons x front =>
      obtain ⟨horigin, -, hbody⟩ := h.starts
      have hwrites : ∀ y ∈ front, y.origin = .write :=
        fun y hy => hbody y (List.mem_append.mpr (.inl hy))
      have hrest := enabled_inner (fun y hy => hinner y (List.mem_cons_of_mem _ hy)) hwrites
      have hlast := enabled_final (hbody final (by simp)) hfinal
      have hhead : x.beat.enabled = laneDwords x.beat.tdataLo ++ laneDwords x.beat.tdataHi := by
        rw [Beat.enabled_eq (hlow x (by simp)), (hinner x List.mem_cons_self).2]
        rfl
      have hpayload : payload (x :: front ++ [final]) =
          x.beat.tdataHi :: (payload front ++ Sent.payload final) := by
        simp [payload, Sent.payload, horigin]
      have hlen : (laneDwords x.beat.tdataHi ++ (payload front).flatMap laneDwords).length =
          4 + 8 * front.length := by
        rw [List.length_append, length_laneDwords, length_flatMap_const length_laneDwords,
          payload_inner (fun y hy => hinner y (List.mem_cons_of_mem _ hy)) hwrites]
        omega
      rw [List.length_cons] at hdwords
      calc payloadDwords (beatsOf (x :: front ++ [final]))
          = (laneDwords x.beat.tdataLo ++ (laneDwords x.beat.tdataHi ++
              (beatsOf front).flatMap Beat.enabled ++ final.beat.enabled)).drop 4 := by
            simp [payloadDwords, beatsOf, hhead]
        _ = (laneDwords x.beat.tdataHi ++ (payload front).flatMap laneDwords) ++
              ((Sent.payload final).flatMap laneDwords).take (popcount final.beat.tkeep) := by
            rw [List.drop_left' (length_laneDwords _), hrest, hlast]
        _ = ((laneDwords x.beat.tdataHi ++ (payload front).flatMap laneDwords) ++
              (Sent.payload final).flatMap laneDwords).take
                (headerDwords (x :: front ++ [final])) := by
            rw [show headerDwords (x :: front ++ [final]) =
                (laneDwords x.beat.tdataHi ++ (payload front).flatMap laneDwords).length +
                  popcount final.beat.tkeep by omega, List.take_length_add_append]
        _ = ((payload (x :: front ++ [final])).flatMap laneDwords).take
              (headerDwords (x :: front ++ [final])) := by
            rw [hpayload, List.flatMap_cons, List.flatMap_append, List.append_assoc]

/-! ## TLPs as stores -/

/-- The write request in a header. -/
def Sent.writeRequest (x : Sent) : WriteRequest := ⟨x.beat.addr, x.beat.dwords.toNat⟩

theorem ByteEnables.full {x : Sent} (h : ByteEnables x) : FullEnables x.beat := by
  obtain ⟨hfirst, hlast⟩ := h
  refine ⟨hfirst, ?_⟩
  by_cases hone : x.beat.dwords.toNat = 1
  · exact .inl hone
  · rw [if_neg hone] at hlast
    exact .inr hlast

theorem IsWriteTlp.endsOnce {l : List Sent} (h : IsWriteTlp l) : EndsOnce (beatsOf l) := by
  obtain ⟨front, final, rfl, hinner, hlast, -⟩ := h.last
  refine ⟨beatsOf front, final.beat, by simp [beatsOf], ?_, hlast⟩
  intro b hb
  obtain ⟨x, hx, rfl⟩ := List.mem_map.mp hb
  exact (hinner x hx).1

/-- A memory write TLP has one header. -/
theorem IsWriteTlp.writeHeaders_eq {h : Sent} {body : List Sent} (htlp : IsWriteTlp (h :: body)) :
    writeHeaders (h :: body) = [h] := by
  obtain ⟨horigin, -, hbody⟩ := htlp.starts
  rw [writeHeaders, List.filter_cons_of_pos (by simp [horigin]), List.filter_eq_nil_iff.mpr]
  intro x hx
  simp [hbody x hx]

theorem IsReadTlp.endsOnce {l : List Sent} (h : IsReadTlp l) : EndsOnce (beatsOf l) := by
  obtain ⟨x, rfl, -, -, hlast⟩ := h
  exact ⟨[], x.beat, rfl, by simp, hlast⟩

/-- A memory write TLP stores the first bytes of its words. -/
theorem IsWriteTlp.perform_eq {h : Sent} {body : List Sent} (htlp : IsWriteTlp (h :: body))
    (hlow : ∀ x ∈ h :: body, IsLowKeep x.beat.tkeep) (hfull : FullEnables h.beat)
    (m : Image 64 (BitVec 8)) :
    perform m (beatsOf (h :: body)) = store m h.beat.addr
      ((streamBytes (payload (h :: body))).take (4 * h.beat.dwords.toNat)) := by
  obtain ⟨-, htype, -⟩ := htlp.starts
  have hdwords := htlp.payloadDwords_eq hlow
  have hlen := htlp.payload_length
  rw [headerDwords] at hdwords hlen
  have hcount : (payloadDwords (beatsOf (h :: body))).length = h.beat.dwords.toNat := by
    rw [hdwords, List.length_take, length_flatMap_const length_laneDwords, hlen]
    omega
  have hbytes : (payloadDwords (beatsOf (h :: body))).flatMap dwordBytes =
      (streamBytes (payload (h :: body))).take (4 * h.beat.dwords.toNat) := by
    rw [hdwords, flatMap_take length_dwordBytes, List.flatMap_assoc]
    rfl
  rw [beatsOf, List.map_cons, ← beatsOf] at hcount hbytes ⊢
  rw [perform_write m htype hfull hcount, hbytes]

theorem writeHeaders_append (l l' : List Sent) :
    writeHeaders (l ++ l') = writeHeaders l ++ writeHeaders l' := List.filter_append l l'

/-- Complete TLPs store the words of the stream in the order of their headers. -/
theorem foldl_perform {tlps : List (List Sent)}
    (hcomplete : ∀ l ∈ tlps, IsWriteTlp l ∨ IsReadTlp l)
    (hlow : ∀ l ∈ tlps, ∀ x ∈ l, IsLowKeep x.beat.tkeep)
    (hfull : ∀ l ∈ tlps, ∀ x ∈ l, x.origin = .initWrite → FullEnables x.beat)
    (m : Image 64 (BitVec 8)) (rest : List (BitVec 128)) :
    (tlps.map beatsOf).foldl perform m =
      storeAll m (writeStores ((writeHeaders tlps.flatten).map Sent.writeRequest)
        (payload tlps.flatten ++ rest)) := by
  induction tlps generalizing m with
  | nil =>
      rfl
  | cons l tlps ih =>
      have ih' := ih (fun l' hl' => hcomplete l' (List.mem_cons_of_mem _ hl'))
        (fun l' hl' => hlow l' (List.mem_cons_of_mem _ hl'))
        (fun l' hl' => hfull l' (List.mem_cons_of_mem _ hl'))
      have hlow' := hlow l List.mem_cons_self
      rw [List.map_cons, List.foldl_cons, ih', List.flatten_cons, payload_append, writeHeaders_append,
        List.map_append, List.append_assoc]
      rcases hcomplete l List.mem_cons_self with hwrite | ⟨x, rfl, horigin, htype, -⟩
      · cases l with
        | nil =>
            exact absurd hwrite.starts id
        | cons h body =>
            obtain ⟨horigin, -, -⟩ := hwrite.starts
            have hlen := hwrite.payload_length
            rw [headerDwords] at hlen
            have htaken : (Sent.writeRequest h).words = (payload (h :: body)).length := hlen.symm
            rw [hwrite.perform_eq hlow' (hfull _ List.mem_cons_self h List.mem_cons_self horigin),
              hwrite.writeHeaders_eq, List.map_singleton, List.singleton_append, writeStores,
              storeAll_cons, htaken, List.drop_left]
            -- the first bytes of the stream are those of the TLP
            rw [streamBytes, streamBytes, List.flatMap_append, List.take_append_of_le_length]
            · rfl
            · rw [length_flatMap_const length_laneBytes, hlen, Sent.writeRequest]
              dsimp only
              omega
      · have hheaders : writeHeaders [x] = [] := by simp [writeHeaders, horigin]
        have hpayload : payload [x] = [] := by simp [payload, Sent.payload, horigin]
        rw [hheaders, hpayload, List.map_nil, List.nil_append, List.nil_append, beatsOf,
          List.map_singleton, perform_read m [] htype]

/-- The words of complete TLPs are those that their headers ask for. -/
theorem length_payload_flatten {tlps : List (List Sent)}
    (hcomplete : ∀ l ∈ tlps, IsWriteTlp l ∨ IsReadTlp l) :
    (payload tlps.flatten).length = wordsOf ((writeHeaders tlps.flatten).map Sent.writeRequest) := by
  induction tlps with
  | nil =>
      rfl
  | cons l tlps ih =>
      rw [List.flatten_cons, payload_append, List.length_append, writeHeaders_append, List.map_append,
        wordsOf, List.map_append, List.sum_append, ← wordsOf, ← wordsOf,
        ih (fun l' hl' => hcomplete l' (List.mem_cons_of_mem _ hl'))]
      congr 1
      rcases hcomplete l List.mem_cons_self with hwrite | ⟨x, rfl, horigin, -, -⟩
      · cases l with
        | nil =>
            exact absurd hwrite.starts id
        | cons h body =>
            rw [hwrite.payload_length, hwrite.writeHeaders_eq]
            rfl
      · simp [writeHeaders, payload, Sent.payload, horigin, wordsOf]

/-- The receiver of beats that parse as TLPs. -/
theorem Parses.receive_mem {l : List Sent} {tlps : List (List Sent)} {pending : List Sent}
    (h : Parses l tlps pending) (m : Image 64 (BitVec 8)) :
    (receive m (beatsOf l)).mem = (tlps.map beatsOf).foldl perform m := by
  have htlps : ∀ l ∈ tlps.map beatsOf, EndsOnce l := by
    intro l' hl'
    obtain ⟨l, hl, rfl⟩ := List.mem_map.mp hl'
    rcases h.complete l hl with hw | hr
    · exact hw.endsOnce
    · exact hr.endsOnce
  have hpending : ∀ b ∈ beatsOf pending, b.tlast = false := by
    intro b hb
    obtain ⟨x, hx, rfl⟩ := List.mem_map.mp hb
    rcases h.incomplete with rfl | hopen
    · cases hx
    · exact (hopen.inner x hx).1
  have hsplit : beatsOf l = (tlps.map beatsOf).flatten ++ beatsOf pending := by
    rw [h.split, beatsOf, List.map_append, List.map_flatten]
    rfl
  rw [hsplit, receive_flatten m htlps hpending]

/-! ## The requests of an operation -/

section Operations

variable {P : Params} {cfg : Config}

/-- The blocks that a write operation sends: `NUMBER_TLPS` rounded up to whole ones. -/
def Config.writeBlocks (P : Params) (cfg : Config) : Nat :=
  (cfg.total + cfg.blockLength P - 1) / cfg.blockLength P

/-- The write requests of an operation with its blocks at `base`. -/
def Config.writeRequests (P : Params) (cfg : Config) (base : Nat → BitVec 64) : List WriteRequest :=
  requestsFor (2 ^ P.log2MaxPayload) cfg.sizeAtDescriptor.toNat (cfg.blockLength P) (cfg.writeBlocks P)
    base

/-- The stores of an operation: each block takes the next slice of the words. -/
def Config.blockStores (P : Params) (cfg : Config) (base : Nat → BitVec 64) (words : List (BitVec 128)) :
    List (BitVec 64 × List (BitVec 8)) :=
  (List.range (cfg.writeBlocks P)).map
    (fun q => (base q, blockData cfg.sizeAtDescriptor.toNat words q))

/-- The number of words carried by beats loaded before the operation that starts in cycle `start`. -/
def wordsBefore (inp : Run P) (start : Nat) : Nat :=
  (payload (collect (loads inp) 0 (start + 1))).length

/-- The words accepted from the C2S FIFO that are left for the operation. -/
def wordsFrom (inp : Run P) (start t : Nat) : List (BitVec 128) :=
  (acceptedWords inp t).drop (wordsBefore inp start)

theorem blockLength_of_write (hw : cfg.capWrite = true) :
    cfg.blockLength P = blockCount (2 ^ P.log2MaxPayload) cfg.sizeAtDescriptor.toNat := by
  rw [blockLength_eq, Config.readLog2, if_pos hw]

/-- All TLPs of a block but the last one are full. -/
theorem blockLength_low (hw : cfg.capWrite = true) (hpos : 0 < cfg.sizeAtDescriptor.toNat) :
    (cfg.blockLength P - 1) * 2 ^ P.log2MaxPayload < cfg.sizeAtDescriptor.toNat := by
  have hdm := Nat.div_add_mod cfg.sizeAtDescriptor.toNat (2 ^ P.log2MaxPayload)
  rw [blockLength_of_write hw, blockCount, Nat.sub_mul, Nat.one_mul, Nat.add_mul, Nat.mul_comm]
  have hmax : 0 < 2 ^ P.log2MaxPayload := Nat.two_pow_pos _
  split
  · omega
  · omega

/-- Headers that tile blocks are the first requests of the blocks. -/
theorem writeRequests_of_tiles (hw : cfg.capWrite = true) (hpos : 0 < cfg.sizeAtDescriptor.toNat)
    (hlength : cfg.blockLength P < 2 ^ 32) {B : Nat → BitVec 64 → Prop} {base : Nat → BitVec 64}
    {hs : List Sent} (htiles : (wrBlocks P cfg B).TilesFrom base hs)
    (hle : hs.length ≤ cfg.writeBlocks P * cfg.blockLength P) :
    hs.map Sent.writeRequest =
      (cfg.writeRequests P (fun q => alignDword (base q))).take hs.length := by
  obtain ⟨hmod, hge, hmax⟩ := two_pow_tlp P.three_le_payload P.payload_le
  rw [blockLength_of_write hw] at hlength hle
  have hn := blockTlps_numberEvenTlp hpos hlength
  have hnpos := blockCount_pos (2 ^ P.log2MaxPayload) hpos
  rw [Config.writeRequests, blockLength_of_write hw, requestsFor_eq hnpos, ← List.map_take,
    List.take_range, Nat.min_eq_left hle]
  apply List.ext_getElem
  · simp
  · intro k hk _
    rw [List.length_map] at hk
    obtain ⟨-, htile⟩ := htiles k _ (List.getElem?_eq_getElem hk)
    have hcount : (wrBlocks P cfg B).count =
        blockCount (2 ^ P.log2MaxPayload) cfg.sizeAtDescriptor.toNat := hn
    rw [hcount] at htile
    have hklt := Nat.mod_lt k hnpos
    have hwords : (tlpWords P.log2MaxPayload cfg.sizeAtDescriptor (BitVec.ofNat 32
        (k % blockCount (2 ^ P.log2MaxPayload) cfg.sizeAtDescriptor.toNat + 1))).toNat =
          tileSize (2 ^ P.log2MaxPayload) cfg.sizeAtDescriptor.toNat
            (blockCount (2 ^ P.log2MaxPayload) cfg.sizeAtDescriptor.toNat)
            (k % blockCount (2 ^ P.log2MaxPayload) cfg.sizeAtDescriptor.toNat) := by
      rw [tlpWords_toNat P.three_le_payload P.payload_le _ (by rw [hn]; exact hklt), hn,
        tileDwords_eq hpos (by omega) hklt, tileSize]
    have hbound := tileDwords_le (S := cfg.sizeAtDescriptor.toNat) (n := blockCount
      (2 ^ P.log2MaxPayload) cfg.sizeAtDescriptor.toNat) (i := k % blockCount
        (2 ^ P.log2MaxPayload) cfg.sizeAtDescriptor.toNat) P.three_le_payload P.payload_le
    rw [tileDwords_eq hpos (by omega) hklt, ← tileSize] at hbound
    have hstride : k % blockCount (2 ^ P.log2MaxPayload) cfg.sizeAtDescriptor.toNat *
        2 ^ P.log2MaxPayload % 4 = 0 := by
      rw [Nat.mul_mod, show 2 ^ P.log2MaxPayload % 4 = 0 by omega, Nat.mul_zero, Nat.zero_mod]
    rw [List.getElem_map, List.getElem_map, List.getElem_range, Sent.writeRequest]
    congr 1
    · rw [htile.addr]
      exact alignDword_add _ hstride
    · have hdwords := congrArg BitVec.toNat htile.dwords
      rw [BitVec.toNat_setWidth] at hdwords
      rw [hdwords]
      simp only [wrBlocks, hwords]
      omega

/-! ## Every write operation -/

namespace Operation

variable {inp : Run P} {start stop : Nat}

/-- The memory writes of an operation tile blocks; where the blocks are is known but for a random
pattern. -/
theorem writeBases (op : Operation inp cfg start stop) (hw : cfg.capWrite = true) {t : Nat}
    (hat : start < t) (htb : t ≤ stop) :
    ∃ base : Nat → BitVec 64, base 0 = cfg.addrAtDescriptor ∧
      (cfg.addressMode = 0 ∨ cfg.addressMode = 1 → base = cfg.blockAddress) ∧
      ∃ B, (wrBlocks P cfg B).TilesFrom base (writeHeaders (beats inp start t)) := by
  by_cases hmode : cfg.addressMode = 0 ∨ cfg.addressMode = 1
  · let B : Nat → BitVec 64 → Prop := fun q b => b = cfg.blockAddress q
    have hcount : (wrBlocks P cfg B).count = cfg.perBlock P := by
      rw [wrBlocks_eq_rdBlocks hw]
      rfl
    have htiles : (wrBlocks P cfg B).Tiles (writeHeaders (beats inp start t)) := by
      refine op.writes_tile B rfl ?_ hat htb
      intro u hau hub hs k hk
      obtain ⟨f, g, h⟩ := op.generating hau (by omega) hs
      have hfk : f = k := by
        rw [h.sending.writes] at hk
        split at hk <;> omega
      rw [hcount, ← hfk]
      exact (h.wrBlock hw).nextBase hmode (op.txFix_eq hau (by omega) hs).1
    obtain ⟨base, hfrom⟩ := htiles
    refine ⟨cfg.blockAddress, rfl, fun _ => rfl, B, ?_⟩
    intro k x hx
    obtain ⟨hb, htile⟩ := hfrom k x hx
    have heq : base (k / (wrBlocks P cfg B).count) = cfg.blockAddress (k / (wrBlocks P cfg B).count) :=
      hb
    rw [heq] at htile
    exact ⟨rfl, htile⟩
  · -- only the first block is known
    let B : Nat → BitVec 64 → Prop := fun q b => q = 0 → b = cfg.addrAtDescriptor
    obtain ⟨base, hfrom⟩ := op.writes_tile B (fun _ => rfl) (fun _ _ _ _ _ _ h => by cases h) hat htb
    refine ⟨fun q => if q = 0 then cfg.addrAtDescriptor else base q, if_pos rfl,
      fun h => absurd h hmode, B, ?_⟩
    intro k x hx
    obtain ⟨hb, htile⟩ := hfrom k x hx
    by_cases hq : k / (wrBlocks P cfg B).count = 0
    · have heq := hb hq
      rw [heq] at htile
      simp only [hq, if_true] at htile ⊢
      exact ⟨fun _ => rfl, htile⟩
    · simp only [hq, if_false]
      exact ⟨hb, htile⟩

/-- The words of the beats of an operation are the next accepted words. -/
theorem wordsFrom_eq (inp : Run P) {start t : Nat} (hat : start < t) :
    payload (beats inp start t) <+: wordsFrom inp start t := by
  have hprefix := (queueInv inp t).carried_isPrefix
  have hsplit : collect (loads inp) 0 t = collect (loads inp) 0 (start + 1) ++ beats inp start t := by
    have h := collect_add (loads inp) 0 (start + 1) (t - (start + 1))
    rw [show start + 1 + (t - (start + 1)) = t by omega, Nat.zero_add] at h
    exact h
  rw [hsplit, payload_append] at hprefix
  obtain ⟨rest, hrest⟩ := hprefix
  refine ⟨rest, ?_⟩
  rw [wordsFrom, wordsBefore, ← hrest, List.append_assoc, List.drop_left]

theorem isLowKeep (inp : Run P) (a n : Nat) :
    ∀ x ∈ collect (loads inp) a n, IsLowKeep x.beat.tkeep := by
  induction n with
  | zero =>
      intro x hx
      cases hx
  | succ n ih =>
      intro x hx
      rw [collect_succ, List.mem_append] at hx
      rcases hx with hx | hx
      · exact ih x hx
      · exact load_isLowKeep (pointerInv inp _) _ x hx

/-- The beats handed over are the first ones of those loaded. -/
theorem emitted_isPrefix (op : Operation inp cfg start stop) {t : Nat} (hat : start < t) :
    emitted inp start t <+: beats inp start t :=
  ⟨_, op.emitted_append_waits hat⟩

/-- At any time the receiver has performed the first write requests of the operation. -/
theorem receive_requests (op : Operation inp cfg start stop) (hw : cfg.capWrite = true)
    (hpos : 0 < cfg.sizeAtDescriptor.toNat) (hdvd : cfg.sizeAtDescriptor.toNat % 4 = 0)
    (hfit : cfg.total + cfg.blockLength P < 2 ^ 32) {t : Nat} (hat : start < t) (htb : t ≤ stop) :
    ∃ base : Nat → BitVec 64, base 0 = cfg.addrAtDescriptor ∧
      (cfg.addressMode = 0 ∨ cfg.addressMode = 1 → base = cfg.blockAddress) ∧
      ∃ k, (∀ m, (receive m (beatsOf (emitted inp start t))).mem =
          storeAll m (writeStores ((cfg.writeRequests P (fun q => alignDword (base q))).take k)
            (wordsFrom inp start t))) ∧
        ((st inp t).wrState = .idle →
          (inp t).axisRqTready = true ∨ (st inp t).out.tvalid = false →
          (cfg.writeRequests P (fun q => alignDword (base q))).length ≤ k ∧
            wordsOf (cfg.writeRequests P (fun q => alignDword (base q))) ≤
              (wordsFrom inp start t).length) := by
  have hlength : cfg.blockLength P < 2 ^ 32 := by omega
  have hn : 0 < cfg.blockLength P := by
    rw [blockLength_eq]
    exact blockCount_pos _ hpos
  obtain ⟨tlps, pending, hparses, hdone⟩ := op.emitted_parses (.of_dvd hpos hdvd)
    (writeSizeOk_of_blockLength hw hlength) hat htb
  obtain ⟨base, hzero, hmode, B, hfrom⟩ := op.writeBases hw hat htb
  have hbe := (op.byteEnables hpos hdvd hfit t hat htb).2
  have hcounts := (op.countInv hpos hfit hat htb).2
  have hle := hcounts.writes_le
  rw [if_pos hw] at hle
  have hrequests := writeRequests_of_tiles hw hpos hlength hfrom hle
  -- the beats of the complete TLPs are the first ones of the operation
  have hmem : ∀ l ∈ tlps, ∀ x ∈ l, x ∈ beats inp start t := by
    intro l hl x hx
    refine (op.emitted_isPrefix hat).subset ?_
    rw [hparses.split]
    exact List.mem_append_left _ (List.mem_flatten.mpr ⟨l, hl, hx⟩)
  obtain ⟨later, hlater⟩ : tlps.flatten <+: beats inp start t := by
    refine List.IsPrefix.trans ?_ (op.emitted_isPrefix hat)
    rw [hparses.split]
    exact List.prefix_append _ _
  obtain ⟨rest, hrest⟩ := wordsFrom_eq inp hat
  rw [← hlater, payload_append, List.append_assoc] at hrest
  have hheaders : (writeHeaders tlps.flatten).map Sent.writeRequest =
      (cfg.writeRequests P (fun q => alignDword (base q))).take (writeHeaders tlps.flatten).length := by
    rw [← hlater, writeHeaders_append, List.map_append, List.length_append] at hrequests
    have htake := congrArg (List.take (writeHeaders tlps.flatten).length) hrequests
    rw [List.take_left' (List.length_map _), List.take_take, Nat.min_eq_left (by omega)] at htake
    exact htake
  refine ⟨base, hzero, hmode, (writeHeaders tlps.flatten).length, ?_, ?_⟩
  · intro m
    rw [hparses.receive_mem, foldl_perform hparses.complete
      (fun l hl x hx => isLowKeep inp _ _ x (hmem l hl x hx))
      (fun l hl x hx ho => (hbe x (hmem l hl x hx) (by simp [ho])).full) m
      (payload later ++ rest), hheaders, hrest]
  · intro hidle hdrained
    have hnone := hdone hidle hdrained
    have hemitted := op.emitted_append_waits hat
    have hempty : (if (inp t).axisRqTready then [] else waits inp t) = [] := by
      rcases hdrained with h | h
      · rw [if_pos h]
      · simp [waits, held, h]
    have hsplit := hparses.split
    rw [hempty, List.append_nil] at hemitted
    rw [hnone, List.append_nil, hemitted] at hsplit
    have hall := hcounts.writes_eq hidle
    rw [if_pos hw, hsplit] at hall
    have hcount : (cfg.writeRequests P (fun q => alignDword (base q))).length =
        (writeHeaders tlps.flatten).length := by
      rw [Config.writeRequests, requestsFor_eq hn, List.length_map, List.length_range, hall]
      rfl
    refine ⟨Nat.le_of_eq hcount, ?_⟩
    have hwords := length_payload_flatten hparses.complete
    rw [hheaders, List.take_of_length_le (Nat.le_of_eq hcount)] at hwords
    rw [← hwords, ← hrest, List.length_append]
    exact Nat.le_add_right _ _

/-- All requests of an operation store its blocks. -/
theorem storeAll_writeRequests (hw : cfg.capWrite = true) (hpos : 0 < cfg.sizeAtDescriptor.toNat)
    (hdvd : cfg.sizeAtDescriptor.toNat % 4 = 0) (hlog : 4 ≤ P.log2MaxPayload)
    (base : Nat → BitVec 64) {words : List (BitVec 128)}
    (hwords : wordsOf (cfg.writeRequests P base) ≤ words.length) (m : Image 64 (BitVec 8)) :
    storeAll m (writeStores (cfg.writeRequests P base) words) =
      storeAll m (cfg.blockStores P base words) := by
  have hn : 0 < cfg.blockLength P := by
    rw [blockLength_eq]
    exact blockCount_pos _ hpos
  have hmax : 2 ^ P.log2MaxPayload % 16 = 0 := Nat.mod_eq_zero_of_dvd (pow_dvd_pow 2 hlog)
  have hlow := blockLength_low (P := P) hw hpos
  rw [Config.writeRequests, wordsOf_requestsFor hmax hdvd hn hlow] at hwords
  exact storeAll_requestsFor hmax hdvd hn hlow m base _ hwords

/-- When the operation has ended and its last beat is out, the receiver has all blocks. -/
theorem receive_blocks (op : Operation inp cfg start stop) (hw : cfg.capWrite = true)
    (hpos : 0 < cfg.sizeAtDescriptor.toNat) (hdvd : cfg.sizeAtDescriptor.toNat % 4 = 0)
    (hfit : cfg.total + cfg.blockLength P < 2 ^ 32) (hlog : 4 ≤ P.log2MaxPayload) {t : Nat}
    (hat : start < t) (htb : t ≤ stop) (hidle : (st inp t).wrState = .idle)
    (hdrained : (inp t).axisRqTready = true ∨ (st inp t).out.tvalid = false) :
    ∃ base : Nat → BitVec 64, base 0 = alignDword cfg.addrAtDescriptor ∧
      (cfg.addressMode = 0 ∨ cfg.addressMode = 1 →
        ∀ q, base q = alignDword (cfg.blockAddress q)) ∧
      cfg.writeBlocks P * blockWords cfg.sizeAtDescriptor.toNat ≤ (wordsFrom inp start t).length ∧
      ∀ m, (receive m (beatsOf (emitted inp start t))).mem =
        storeAll m (cfg.blockStores P base (wordsFrom inp start t)) := by
  obtain ⟨base, hzero, hmode, k, hmem, hall⟩ := op.receive_requests hw hpos hdvd hfit hat htb
  obtain ⟨hk, hwords⟩ := hall hidle hdrained
  have hn : 0 < cfg.blockLength P := by
    rw [blockLength_eq]
    exact blockCount_pos _ hpos
  refine ⟨fun q => alignDword (base q), congrArg alignDword hzero,
    fun h q => congrArg alignDword (congrFun (hmode h) q), ?_, ?_⟩
  · rwa [Config.writeRequests, wordsOf_requestsFor (Nat.mod_eq_zero_of_dvd (pow_dvd_pow 2 hlog)) hdvd hn
      (blockLength_low (P := P) hw hpos)] at hwords
  · intro m
    rw [hmem, List.take_of_length_le hk, storeAll_writeRequests hw hpos hdvd hlog _ hwords]

end Operation

/-- A write operation stores the accepted words block by block: at any time the host memory has the
first write requests, each with its slice of the words, and when the operation has ended and its last
beat is out it has all blocks and nothing else. -/
theorem host_memory {inp : Run P} {start stop : Nat} (op : Operation inp cfg start stop)
    (hw : cfg.capWrite = true) (hpos : 0 < cfg.sizeAtDescriptor.toNat)
    (hdvd : cfg.sizeAtDescriptor.toNat % 4 = 0) (hfit : cfg.total + cfg.blockLength P < 2 ^ 32)
    (hlog : 4 ≤ P.log2MaxPayload) (t : Nat) (hat : start < t) (htb : t ≤ stop) :
    ∃ base : Nat → BitVec 64, base 0 = alignDword cfg.addrAtDescriptor ∧
      (cfg.addressMode = 0 ∨ cfg.addressMode = 1 →
        ∀ q, base q = alignDword (cfg.blockAddress q)) ∧
      (∃ k, ∀ m, (receive m (beatsOf (Operation.emitted inp start t))).mem =
        storeAll m ((writeStores (cfg.writeRequests P base) (wordsFrom inp start t)).take k)) ∧
      ((st inp t).wrState = .idle → (inp t).axisRqTready = true ∨ (st inp t).out.tvalid = false →
        ∀ m, (receive m (beatsOf (Operation.emitted inp start t))).mem =
          storeAll m (cfg.blockStores P base (wordsFrom inp start t))) := by
  obtain ⟨base, hzero, hmode, k, hmem, hall⟩ := op.receive_requests hw hpos hdvd hfit hat htb
  refine ⟨fun q => alignDword (base q), congrArg alignDword hzero,
    fun h q => congrArg alignDword (congrFun (hmode h) q), ⟨k, ?_⟩, ?_⟩
  · intro m
    rw [hmem, writeStores_take]
  · intro hidle hdrained m
    obtain ⟨hk, hwords⟩ := hall hidle hdrained
    rw [hmem, List.take_of_length_le hk,
      Operation.storeAll_writeRequests hw hpos hdvd hlog _ hwords]

/-- Four writes of twenty bytes. -/
theorem host_memory_twenty : ∃ base : Nat → BitVec 64,
    (∀ q, base q = alignDword ((writeConfig 20).blockAddress q)) ∧
      ∀ m, (receive m (beatsOf (Operation.emitted (steady (writeConfig 20)) 4 13))).mem =
        storeAll m ((writeConfig 20).blockStores pcieController base
          (wordsFrom (steady (writeConfig 20)) 4 13)) := by
  have op : Operation (steady (writeConfig 20)) (writeConfig 20) 4 13 :=
    steady_operation (by decide) (by decide +kernel) (by decide +kernel) (by decide +kernel)
  have hidle : (st (steady (writeConfig 20)) 13).wrState = .idle := by decide +kernel
  obtain ⟨base, -, hmode, -, hdone⟩ := host_memory op rfl (by decide) (by decide) (by decide)
    (by decide) 13 (by decide) (by decide)
  exact ⟨base, hmode (.inl rfl), hdone hidle (.inl rfl)⟩

/-! ## Blocks at one address -/

theorem writeBlocks_pos (P : Params) (hpos : 0 < cfg.sizeAtDescriptor.toNat) : 0 < cfg.writeBlocks P := by
  have hn : 0 < cfg.blockLength P := by
    rw [blockLength_eq]
    exact blockCount_pos _ hpos
  have htotal := cfg.total_pos
  exact Nat.div_pos (by omega) hn

/-- Every block has all its bytes. -/
theorem length_blockData {size : Nat} {words : List (BitVec 128)} {q : Nat}
    (hwords : (q + 1) * blockWords size ≤ words.length) : (blockData size words q).length = size := by
  rw [Nat.succ_mul] at hwords
  rw [blockData, List.length_take, length_streamBytes, List.length_drop]
  unfold blockWords at *
  omega

/-- Of blocks at one address the last one is left. -/
theorem storeAll_blockStores_same (hpos : 0 < cfg.sizeAtDescriptor.toNat) {base : Nat → BitVec 64}
    {a : BitVec 64} (hbase : ∀ q, base q = a) {words : List (BitVec 128)}
    (hroom : cfg.writeBlocks P * blockWords cfg.sizeAtDescriptor.toNat ≤ words.length)
    (m : Image 64 (BitVec 8)) :
    storeAll m (cfg.blockStores P base words) =
      store m a (blockData cfg.sizeAtDescriptor.toNat words (cfg.writeBlocks P - 1)) := by
  have hblocks := writeBlocks_pos P hpos
  obtain ⟨last, hlast⟩ : ∃ last, cfg.writeBlocks P = last + 1 := ⟨cfg.writeBlocks P - 1, by omega⟩
  have hlength : ∀ q, q ≤ last →
      (blockData cfg.sizeAtDescriptor.toNat words q).length = cfg.sizeAtDescriptor.toNat := by
    intro q hq
    refine length_blockData (Nat.le_trans (Nat.mul_le_mul_right _ ?_) hroom)
    omega
  have hstores : cfg.blockStores P base words =
      ((List.range last).map (blockData cfg.sizeAtDescriptor.toNat words) ++
        [blockData cfg.sizeAtDescriptor.toNat words last]).map (fun l => (a, l)) := by
    rw [Config.blockStores, hlast, List.range_succ]
    simp [hbase]
  rw [hstores, hlast, Nat.add_sub_cancel, storeAll_same m a _ (Nat.le_of_lt cfg.sizeAtDescriptor.isLt)]
  · intro l hl
    obtain ⟨q, hq, rfl⟩ := List.mem_map.mp hl
    exact hlength q (Nat.le_of_lt (List.mem_range.mp hq))
  · exact hlength last (Nat.le_refl _)

end Operations

end Rq
end PcieBench
