import PcieBench.Tlp.Receiver

/-!
# Memory writes fed from a stream of words

A sequence of write requests takes its payload from one stream of 128-bit words: a request of `n` dwords
uses up the words that its dwords start in.  Requests that tile a block store the first bytes of the
words of the block, so a sequence of blocks stores one slice of the stream after the other.
-/

namespace PcieBench
namespace Tlp

open Memory

/-! ## Lists of parts of one length -/

section Parts

variable {α β : Type} {f : α → List β} {c : Nat} (hf : ∀ x, (f x).length = c)

include hf

theorem length_flatMap_const (l : List α) : (l.flatMap f).length = c * l.length := by
  induction l with
  | nil =>
      simp
  | cons x l ih =>
      rw [List.flatMap_cons, List.length_append, hf, ih, List.length_cons, Nat.mul_succ, Nat.add_comm]

theorem flatMap_drop (l : List α) (k : Nat) : (l.drop k).flatMap f = (l.flatMap f).drop (c * k) := by
  induction k generalizing l with
  | zero =>
      simp
  | succ k ih =>
      cases l with
      | nil =>
          simp
      | cons x l =>
          rw [List.drop_succ_cons, ih, List.flatMap_cons, Nat.mul_succ, Nat.add_comm, ← hf x,
            List.drop_length_add_append]

theorem flatMap_take (l : List α) (k : Nat) : (l.take k).flatMap f = (l.flatMap f).take (c * k) := by
  induction k generalizing l with
  | zero =>
      simp
  | succ k ih =>
      cases l with
      | nil =>
          simp
      | cons x l =>
          rw [List.take_succ_cons, List.flatMap_cons, ih, List.flatMap_cons, Nat.mul_succ, Nat.add_comm,
            ← hf x, List.take_length_add_append]

end Parts

@[simp] theorem length_dwordBytes (d : BitVec 32) : (dwordBytes d).length = 4 := rfl

@[simp] theorem length_laneDwords (w : BitVec 128) : (laneDwords w).length = 4 := rfl

@[simp] theorem length_laneBytes (w : BitVec 128) : (laneBytes w).length = 16 := rfl

/-- The bytes of a stream of words. -/
def streamBytes (words : List (BitVec 128)) : List (BitVec 8) := words.flatMap laneBytes

theorem length_streamBytes (words : List (BitVec 128)) :
    (streamBytes words).length = 16 * words.length := length_flatMap_const length_laneBytes words

theorem streamBytes_drop (words : List (BitVec 128)) (k : Nat) :
    streamBytes (words.drop k) = (streamBytes words).drop (16 * k) :=
  flatMap_drop length_laneBytes words k

/-! ## Requests -/

/-- A write request: its address and its dwords. -/
structure WriteRequest where
  addr : BitVec 64
  dwords : Nat
  deriving DecidableEq, Repr

/-- The words that the payload of a request takes. -/
def WriteRequest.words (r : WriteRequest) : Nat := (r.dwords + 3) / 4

/-- The stores of a sequence of requests with the payload `words`. -/
def writeStores : List WriteRequest → List (BitVec 128) → List (BitVec 64 × List (BitVec 8))
  | [], _ => []
  | r :: rs, words => (r.addr, (streamBytes words).take (4 * r.dwords)) ::
      writeStores rs (words.drop r.words)

/-- The words that a sequence of requests takes. -/
def wordsOf (rs : List WriteRequest) : Nat := (rs.map WriteRequest.words).sum

theorem writeStores_append (rs rs' : List WriteRequest) (words : List (BitVec 128)) :
    writeStores (rs ++ rs') words =
      writeStores rs words ++ writeStores rs' (words.drop (wordsOf rs)) := by
  induction rs generalizing words with
  | nil =>
      simp [writeStores, wordsOf]
  | cons r rs ih =>
      rw [List.cons_append, writeStores, writeStores, ih, List.cons_append, List.drop_drop, wordsOf,
        wordsOf, List.map_cons, List.sum_cons]

theorem writeStores_take (rs : List WriteRequest) (words : List (BitVec 128)) (k : Nat) :
    writeStores (rs.take k) words = (writeStores rs words).take k := by
  induction k generalizing rs words with
  | zero =>
      simp [writeStores]
  | succ k ih =>
      cases rs with
      | nil =>
          simp [writeStores]
      | cons r rs =>
          rw [List.take_succ_cons, writeStores, writeStores, List.take_succ_cons, ih]

/-! ## Blocks -/

/-- The dwords of request `i` of the `n` requests for a block of `size` bytes, `max` bytes each but for
the last one. -/
def tileSize (max size n i : Nat) : Nat :=
  if i < n - 1 then max / 4 else (size - (n - 1) * max) / 4

/-- The requests for a block at `a`. -/
def blockRequests (max size n : Nat) (a : BitVec 64) : List WriteRequest :=
  (List.range n).map (fun i => ⟨a + BitVec.ofNat 64 (i * max), tileSize max size n i⟩)

section Blocks

variable {max size n : Nat}

/-- The first request of a block and those of the rest of the block. -/
theorem blockRequests_succ (hn : 0 < n) (a : BitVec 64) :
    blockRequests max size (n + 1) a =
      ⟨a, max / 4⟩ :: blockRequests max (size - max) n (a + BitVec.ofNat 64 max) := by
  rw [blockRequests, List.range_succ_eq_map, List.map_cons, List.map_map, blockRequests]
  congr 1
  · simp [tileSize, hn]
  · refine List.map_congr_left ?_
    intro i _
    have htile : tileSize max size (n + 1) (i + 1) = tileSize max (size - max) n i := by
      have hrest : size - n * max = size - max - (n - 1) * max := by
        obtain ⟨k, rfl⟩ : ∃ k, n = k + 1 := ⟨n - 1, by omega⟩
        rw [Nat.add_mul, Nat.one_mul, Nat.add_sub_cancel]
        omega
      unfold tileSize
      rw [Nat.add_sub_cancel, hrest]
      by_cases hi : i < n - 1
      · rw [if_pos hi, if_pos (by omega)]
      · rw [if_neg hi, if_neg (by omega)]
    simp only [Function.comp_apply, Nat.succ_eq_add_one, htile]
    rw [Nat.add_mul, Nat.one_mul, BitVec.add_assoc, ← BitVec.ofNat_add, Nat.add_comm max]

theorem blockRequests_one (a : BitVec 64) : blockRequests max size 1 a = [⟨a, size / 4⟩] := by
  simp [blockRequests, tileSize]

/-- The requests for a block of full TLPs and one more take the words of its bytes. -/
theorem wordsOf_blockRequests (hmax : max % 16 = 0) (hsize : size % 4 = 0) (hn : 0 < n)
    (hlow : (n - 1) * max < size) (a : BitVec 64) :
    wordsOf (blockRequests max size n a) = (size + 15) / 16 := by
  induction n, hn using Nat.le_induction generalizing size a with
  | base =>
      rw [blockRequests_one]
      simp only [wordsOf, WriteRequest.words, List.map_cons, List.map_nil, List.sum_cons, List.sum_nil]
      omega
  | succ n hn ih =>
      have hstep : n * max = (n - 1) * max + max := by
        obtain ⟨k, rfl⟩ : ∃ k, n = k + 1 := ⟨n - 1, by omega⟩
        rw [Nat.add_mul, Nat.one_mul, Nat.add_sub_cancel]
      rw [Nat.add_sub_cancel] at hlow
      have hsize' : (size - max) % 4 = 0 := by omega
      have hlow' : (n - 1) * max < size - max := by omega
      have hrest := ih hsize' hlow' (a + BitVec.ofNat 64 max)
      rw [blockRequests_succ hn, wordsOf, List.map_cons, List.sum_cons, ← wordsOf, hrest,
        WriteRequest.words]
      dsimp only
      omega

/-- The requests for a block store the first bytes of the words. -/
theorem storeAll_blockRequests (hmax : max % 16 = 0) (hsize : size % 4 = 0) (hn : 0 < n)
    (hlow : (n - 1) * max < size) (m : Image 64 (BitVec 8)) (a : BitVec 64)
    {words : List (BitVec 128)} (hwords : size ≤ 16 * words.length) :
    storeAll m (writeStores (blockRequests max size n a) words) =
      store m a ((streamBytes words).take size) := by
  induction n, hn using Nat.le_induction generalizing size a m words with
  | base =>
      rw [blockRequests_one, writeStores, writeStores, storeAll_cons, storeAll_nil]
      dsimp only
      rw [show 4 * (size / 4) = size by omega]
  | succ n hn ih =>
      have hstep : n * max = (n - 1) * max + max := by
        obtain ⟨k, rfl⟩ : ∃ k, n = k + 1 := ⟨n - 1, by omega⟩
        rw [Nat.add_mul, Nat.one_mul, Nat.add_sub_cancel]
      rw [Nat.add_sub_cancel] at hlow
      have hfour : 4 * (max / 4) = max := by omega
      have htaken : WriteRequest.words ⟨a, max / 4⟩ = max / 16 := by
        rw [WriteRequest.words]
        dsimp only
        omega
      have hfirst : ((streamBytes words).take max).length = max := by
        rw [List.length_take, length_streamBytes]
        omega
      rw [blockRequests_succ hn, writeStores, storeAll_cons, htaken]
      dsimp only
      rw [hfour, ih (by omega) (by omega) _ _ (by rw [List.length_drop]; omega), streamBytes_drop,
        show 16 * (max / 16) = max by omega]
      -- the rest of the block follows the bytes of the first request
      calc store (store m a ((streamBytes words).take max)) (a + BitVec.ofNat 64 max)
            (((streamBytes words).drop max).take (size - max))
          = store m a ((streamBytes words).take max ++
              ((streamBytes words).drop max).take (size - max)) := by
            rw [store_append, hfirst]
        _ = store m a ((streamBytes words).take size) := by
            rw [← List.take_add, show max + (size - max) = size by omega]

/-- The requests for one block after the other. -/
def requestsFor (max size n count : Nat) (base : Nat → BitVec 64) : List WriteRequest :=
  (List.range count).flatMap (fun q => blockRequests max size n (base q))

/-- Request `k` of a sequence of blocks. -/
theorem requestsFor_eq (hn : 0 < n) (count : Nat) (base : Nat → BitVec 64) :
    requestsFor max size n count base = (List.range (count * n)).map (fun k =>
      ⟨base (k / n) + BitVec.ofNat 64 (k % n * max), tileSize max size n (k % n)⟩) := by
  induction count with
  | zero =>
      simp [requestsFor]
  | succ count ih =>
      rw [requestsFor, List.range_succ, List.flatMap_append, ← requestsFor, ih, List.flatMap_singleton,
        Nat.succ_mul, List.range_add, List.map_append, List.map_map, blockRequests]
      congr 1
      refine List.map_congr_left ?_
      intro i hi
      have hlt := List.mem_range.mp hi
      have hdiv : (count * n + i) / n = count := by
        rw [Nat.mul_comm, Nat.mul_add_div hn, Nat.div_eq_of_lt hlt, Nat.add_zero]
      have hmod : (count * n + i) % n = i := by
        rw [Nat.mul_comm, Nat.mul_add_mod, Nat.mod_eq_of_lt hlt]
      simp only [Function.comp_apply, hdiv, hmod]

/-- The words of a block. -/
def blockWords (size : Nat) : Nat := (size + 15) / 16

/-- The bytes of block `q` in a stream of words: the first ones of its own words. -/
def blockData (size : Nat) (words : List (BitVec 128)) (q : Nat) : List (BitVec 8) :=
  (streamBytes (words.drop (q * blockWords size))).take size

/-- The words of a sequence of blocks. -/
theorem wordsOf_requestsFor (hmax : max % 16 = 0) (hsize : size % 4 = 0) (hn : 0 < n)
    (hlow : (n - 1) * max < size) (base : Nat → BitVec 64) (count : Nat) :
    wordsOf (requestsFor max size n count base) = count * blockWords size := by
  induction count with
  | zero =>
      rw [Nat.zero_mul]
      rfl
  | succ count ih =>
      have hblock := wordsOf_blockRequests hmax hsize hn hlow (base count)
      rw [requestsFor, List.range_succ, List.flatMap_append, wordsOf, List.map_append, List.sum_append,
        ← wordsOf, ← wordsOf, ← requestsFor, ih, List.flatMap_singleton, hblock, Nat.succ_mul,
        blockWords]

/-- Requests for one block after the other store one slice of the stream after the other. -/
theorem storeAll_requestsFor (hmax : max % 16 = 0) (hsize : size % 4 = 0) (hn : 0 < n)
    (hlow : (n - 1) * max < size) (m : Image 64 (BitVec 8)) (base : Nat → BitVec 64) (count : Nat)
    {words : List (BitVec 128)} (hwords : count * blockWords size ≤ words.length) :
    storeAll m (writeStores (requestsFor max size n count base) words) =
      storeAll m ((List.range count).map (fun q => (base q, blockData size words q))) := by
  induction count with
  | zero =>
      rfl
  | succ count ih =>
      rw [Nat.succ_mul] at hwords
      have htaken := wordsOf_requestsFor hmax hsize hn hlow base count
      have hroom : size ≤ 16 * (words.drop (count * blockWords size)).length := by
        rw [List.length_drop]
        unfold blockWords at *
        omega
      rw [requestsFor, List.range_succ, List.flatMap_append, ← requestsFor, List.map_append,
        writeStores_append, storeAll_append, storeAll_append, ih (by omega), htaken,
        List.flatMap_singleton, storeAll_blockRequests hmax hsize hn hlow _ _ hroom]
      rfl

end Blocks

/-! ## Dwords in memory -/

/-- The dword at address `a`, low byte first. -/
def loadDword (m : Image 64 (BitVec 8)) (a : BitVec 64) : BitVec 32 :=
  m (a + 3) ++ m (a + 2) ++ m (a + 1) ++ m a

/-- The dwords of a stream of words. -/
def streamDwords (words : List (BitVec 128)) : List (BitVec 32) := words.flatMap laneDwords

theorem streamBytes_eq (words : List (BitVec 128)) :
    streamBytes words = (streamDwords words).flatMap dwordBytes := by
  rw [streamBytes, streamDwords, List.flatMap_assoc]
  rfl

/-- The bytes of a block of dwords. -/
theorem blockData_eq {size : Nat} (hsize : size % 4 = 0) (words : List (BitVec 128)) (q : Nat) :
    blockData size words q =
      ((streamDwords (words.drop (q * blockWords size))).take (size / 4)).flatMap dwordBytes := by
  rw [blockData, streamBytes_eq, flatMap_take length_dwordBytes, show 4 * (size / 4) = size by omega]

theorem getElem?_flatMap_const {α β : Type} {f : α → List β} {c : Nat} (hf : ∀ x, (f x).length = c)
    {l : List α} {k : Nat} {x : α} (hx : l[k]? = some x) {j : Nat} (hj : j < c) :
    (l.flatMap f)[c * k + j]? = (f x)[j]? := by
  have hdrop : (l.drop k).flatMap f = f x ++ (l.drop (k + 1)).flatMap f := by
    rw [List.drop_eq_getElem?_toList_append, hx]
    simp
  rw [← List.getElem?_drop, ← flatMap_drop hf, hdrop, List.getElem?_append_left (by rw [hf]; exact hj)]

theorem append_dwordBytes (d : BitVec 32) : d.extractLsb' 24 8 ++ d.extractLsb' 16 8 ++
    d.extractLsb' 8 8 ++ d.extractLsb' 0 8 = d := by
  apply BitVec.eq_of_getLsbD_eq
  intro k hk
  simp only [BitVec.getLsbD_append, BitVec.getLsbD_extractLsb']
  grind

/-- A dword that has been stored is read back. -/
theorem loadDword_store (m : Image 64 (BitVec 8)) (a : BitVec 64) {ds : List (BitVec 32)}
    (hlen : 4 * ds.length ≤ 2 ^ 64) {k : Nat} {d : BitVec 32} (hd : ds[k]? = some d) :
    loadDword (store m a (ds.flatMap dwordBytes)) (a + BitVec.ofNat 64 (4 * k)) = d := by
  obtain ⟨hk, -⟩ := List.getElem?_eq_some_iff.mp hd
  have hbytes : (ds.flatMap dwordBytes).length = 4 * ds.length :=
    length_flatMap_const length_dwordBytes ds
  have hbyte : ∀ j, j < 4 → store m a (ds.flatMap dwordBytes)
      (a + BitVec.ofNat 64 (4 * k) + BitVec.ofNat 64 j) = d.extractLsb' (8 * j) 8 := by
    intro j hj
    have hlt : 4 * k + j < (ds.flatMap dwordBytes).length := by omega
    have hget := getElem?_flatMap_const length_dwordBytes hd hj
    rw [List.getElem?_eq_getElem hlt] at hget
    rw [BitVec.add_assoc, ← BitVec.ofNat_add, store_inside m a (by omega) hlt]
    simpa [dwordBytes, hj] using hget
  have h0 := hbyte 0 (by omega)
  have h1 := hbyte 1 (by omega)
  have h2 := hbyte 2 (by omega)
  have h3 := hbyte 3 (by omega)
  rw [BitVec.add_zero] at h0
  rw [loadDword, h0]
  exact (congrArg₂ _ (congrArg₂ _ (congrArg₂ _ h3 h2) h1) rfl).trans (append_dwordBytes d)

end Tlp
end PcieBench
