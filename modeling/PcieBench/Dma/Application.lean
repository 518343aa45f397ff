import PcieBench.Clocked.Fifo
import PcieBench.Rq.HostMemory

/-!
# app and its FIFO

The data of the memory writes comes from `app`, a 32-bit counter, through the FIFO `user_fifo` of
`dma_logic`.  The FIFO is a core of the vendor: it is a parameter here, and all that is used of it is that
it keeps the order of its items.
-/

namespace PcieBench
namespace Application

open Clocked Tlp Memory
open Rq (Params)

/-! ## The source of the data -/

/-- The register of `app`. -/
structure App where
  c2sTdata : BitVec 256
  deriving DecidableEq, Repr

/-- The low dword counts the cycles with `c2s_tready`. -/
def App.step (a : App) (c2sTready : Bool) : App :=
  if c2sTready then ⟨a.c2sTdata.extractLsb' 32 224 ++ (a.c2sTdata.extractLsb' 0 32 + 1)⟩ else a

/-- An item of the FIFO. -/
structure Item where
  tdata : BitVec 256
  tkeep : BitVec 32
  deriving DecidableEq, Repr

/-- What `app` always offers. -/
def App.item (a : App) : Item := ⟨a.c2sTdata, 0xffffffff⟩

section System

variable {P : Params} (F : Fifo Item)

/-- The registers of `app`, of the FIFO and of `dma_rq_logic`. -/
structure System (P : Params) (F : Fifo Item) where
  app : App
  fifo : F.State
  rq : Rq.State P

variable {F}

/-- The signals of the FIFO in a cycle. -/
def System.fifoInput (s : System P F) : FifoInput Item where
  inValid := true
  inValue := s.app.item
  outReady := s.rq.c2sFifoTready

/-- `dma_rq_logic` reads the FIFO, all other inputs come from its environment. -/
def System.rqInput (s : System P F) (env : Rq.Input P) : Rq.Input P :=
  { env with
    c2sTvalid := F.outValid s.fifo
    c2sTdataLo := (F.outValue s.fifo).tdata.extractLsb' 0 128
    c2sTdataHi := (F.outValue s.fifo).tdata.extractLsb' 128 128
    c2sTkeepHi := (F.outValue s.fifo).tkeep.getLsbD 16 }

def System.step (s : System P F) (env : Rq.Input P) : System P F where
  app := s.app.step (F.inReady s.fifo)
  fifo := F.machine.step s.fifo s.fifoInput
  rq := Rq.step s.rq (s.rqInput env)

variable (F)

def machine (P : Params) : Machine (System P F) (Rq.Input P) where
  reset := { app := ⟨0⟩, fifo := F.machine.reset, rq := Rq.reset P }
  step := System.step

variable (env : Nat → Rq.Input P)

/-- The registers in cycle `t`. -/
def sys (t : Nat) : System P F := (machine F P).trace env t

/-- The run of `dma_rq_logic` in the system. -/
def rqRun : Rq.Run P := fun t => (sys F env t).rqInput (env t)

/-- The signals of the FIFO in the system. -/
def fifoRun (t : Nat) : FifoInput Item := (sys F env t).fifoInput

theorem sys_succ (t : Nat) : sys F env (t + 1) = (sys F env t).step (env t) := rfl

theorem sys_rq (t : Nat) : (sys F env t).rq = Rq.st (rqRun F env) t := by
  induction t with
  | zero =>
      rfl
  | succ t ih =>
      rw [Rq.st_succ, ← ih, sys_succ]
      rfl

theorem sys_fifo (t : Nat) : (sys F env t).fifo = F.st (fifoRun F env) t := by
  induction t with
  | zero =>
      rfl
  | succ t ih =>
      have hsucc : F.st (fifoRun F env) (t + 1) =
          F.machine.step (F.st (fifoRun F env) t) (fifoRun F env t) := rfl
      rw [hsucc, ← ih, sys_succ]
      rfl

/-! ## The counter -/

/-- The low bits of an extended counter. -/
theorem extractLsb'_low (x : BitVec 32) {n len : Nat} (hn : len ≤ n) :
    (x.setWidth n).extractLsb' 0 len = x.setWidth len := by
  apply BitVec.eq_of_getLsbD_eq
  intro j hj
  rw [BitVec.getLsbD_extractLsb', BitVec.getLsbD_setWidth, BitVec.getLsbD_setWidth]
  grind

/-- The bits behind a counter are 0. -/
theorem extractLsb'_high (x : BitVec 32) (n len : Nat) {k : Nat} (hk : 32 ≤ k) :
    (x.setWidth n).extractLsb' k len = 0 := by
  apply BitVec.eq_of_getLsbD_eq
  intro j hj
  rw [BitVec.getLsbD_extractLsb', BitVec.getLsbD_setWidth, BitVec.getLsbD_of_ge _ _ (by omega)]
  simp

theorem zero_append (x : BitVec 32) : (0 : BitVec 224) ++ x = x.setWidth 256 := by
  apply BitVec.eq_of_getLsbD_eq
  intro j hj
  rw [BitVec.getLsbD_append, BitVec.getLsbD_setWidth]
  grind

/-- The register of `app` when it counts `k`. -/
def count (k : Nat) : App := ⟨(BitVec.ofNat 32 k).setWidth 256⟩

theorem count_step (k : Nat) : (count k).step true = count (k + 1) := by
  rw [App.step, if_pos rfl, count, extractLsb'_high _ _ _ (Nat.le_refl 32),
    extractLsb'_low _ (by omega), BitVec.setWidth_eq, zero_append, count, BitVec.ofNat_add]
  rfl

/-- The items that have gone into the FIFO count from 0 on, and `app` offers the next one. -/
theorem enters_count (t : Nat) :
    ∃ k, (sys F env t).app = count k ∧
      collect (F.enters (fifoRun F env)) 0 t = (List.range k).map (fun j => (count j).item) := by
  induction t with
  | zero =>
      exact ⟨0, rfl, rfl⟩
  | succ t ih =>
      obtain ⟨k, happ, hitems⟩ := ih
      have henters : F.enters (fifoRun F env) t =
          if F.inReady (sys F env t).fifo then [(sys F env t).app.item] else [] := by
        rw [sys_fifo]
        rfl
      rw [collect_succ, Nat.zero_add, hitems, henters]
      cases hready : F.inReady (sys F env t).fifo with
      | true =>
          refine ⟨k + 1, ?_, ?_⟩
          · rw [sys_succ, System.step, hready, happ, count_step]
          · rw [if_pos rfl, happ, List.range_succ, List.map_append]
            rfl
      | false =>
          refine ⟨k, ?_, by simp⟩
          rw [sys_succ, System.step, hready, happ]
          rfl

variable {F}

/-- The items that have come out count from 0 on as well. -/
theorem leaves_count (horder : F.InOrder) (t : Nat) :
    ∃ k, collect (F.leaves (fifoRun F env)) 0 t = (List.range k).map (fun j => (count j).item) := by
  obtain ⟨k, -, hitems⟩ := enters_count F env t
  have hprefix := horder (fifoRun F env) t
  rw [hitems] at hprefix
  refine ⟨(collect (F.leaves (fifoRun F env)) 0 t).length, ?_⟩
  have hle := hprefix.length_le
  rw [List.length_map, List.length_range] at hle
  have htake := List.prefix_iff_eq_take.mp hprefix
  rw [← List.map_take, List.take_range, Nat.min_eq_left hle] at htake
  exact htake

/-! ## The words of the counter -/

/-- Word `i` of the stream: a counter and zeros in turn. -/
def word (i : Nat) : BitVec 128 := if i % 2 = 0 then (BitVec.ofNat 32 (i / 2)).setWidth 128 else 0

/-- The two words of an item. -/
theorem item_words (j : Nat) : [(count j).item.tdata.extractLsb' 0 128,
    (count j).item.tdata.extractLsb' 128 128] = [word (2 * j), word (2 * j + 1)] := by
  have heven : word (2 * j) = (BitVec.ofNat 32 j).setWidth 128 := by
    rw [word, if_pos (by omega), Nat.mul_div_cancel_left j (by omega)]
  have hodd : word (2 * j + 1) = 0 := by
    rw [word, if_neg (by omega)]
  rw [App.item, count, extractLsb'_low _ (by omega), extractLsb'_high _ _ _ (by omega), heven, hodd]

/-- What `dma_rq_logic` accepts are the two words of what comes out of the FIFO. -/
theorem accepts_eq (horder : F.InOrder) (t : Nat) :
    Rq.accepts (Rq.st (rqRun F env) t) (rqRun F env t) =
      (F.leaves (fifoRun F env) t).flatMap
        (fun x => [x.tdata.extractLsb' 0 128, x.tdata.extractLsb' 128 128]) := by
  have hleaves : F.leaves (fifoRun F env) t =
      if F.outValid (sys F env t).fifo && (sys F env t).rq.c2sFifoTready then
        [F.outValue (sys F env t).fifo] else [] := by
    rw [sys_fifo]
    rfl
  have haccepts : Rq.accepts (Rq.st (rqRun F env) t) (rqRun F env t) =
      if F.outValid (sys F env t).fifo && (sys F env t).rq.c2sFifoTready then
        if (F.outValue (sys F env t).fifo).tkeep.getLsbD 16 then
          [(F.outValue (sys F env t).fifo).tdata.extractLsb' 0 128,
            (F.outValue (sys F env t).fifo).tdata.extractLsb' 128 128]
        else [(F.outValue (sys F env t).fifo).tdata.extractLsb' 0 128]
      else [] := by
    rw [← sys_rq]
    rfl
  rw [haccepts]
  split
  · rename_i hgo
    -- the item is one of those that `app` has offered
    obtain ⟨k, hitems⟩ := leaves_count env horder (t + 1)
    rw [if_pos hgo] at hleaves
    rw [collect_succ, Nat.zero_add, hleaves] at hitems
    have hmem : F.outValue (sys F env t).fifo ∈ (List.range k).map (fun j => (count j).item) := by
      rw [← hitems]
      simp
    obtain ⟨j, -, hj⟩ := List.mem_map.mp hmem
    have hkeep : (F.outValue (sys F env t).fifo).tkeep.getLsbD 16 = true := by
      rw [← hj]
      show (0xffffffff : BitVec 32).getLsbD 16 = true
      decide
    rw [if_pos hkeep, hleaves, List.flatMap_singleton]
  · rename_i hgo
    rw [if_neg hgo] at hleaves
    rw [hleaves]
    rfl

/-- The words that `dma_rq_logic` has accepted are the first ones of the counter. -/
theorem acceptedWords_eq (horder : F.InOrder) (t : Nat) :
    Rq.acceptedWords (rqRun F env) t =
      (List.range (Rq.acceptedWords (rqRun F env) t).length).map word := by
  have hwords : ∀ n, (List.range n).flatMap (fun j => [word (2 * j), word (2 * j + 1)]) =
      (List.range (2 * n)).map word := by
    intro n
    induction n with
    | zero =>
        rfl
    | succ n ih =>
        rw [List.range_succ, List.flatMap_append, ih, Nat.mul_succ, List.range_succ, List.range_succ]
        simp
  have hall : ∃ n, Rq.acceptedWords (rqRun F env) t = (List.range (2 * n)).map word := by
    obtain ⟨n, hitems⟩ := leaves_count env horder t
    refine ⟨n, ?_⟩
    have hcollect : ∀ m, collect (fun u => Rq.accepts (Rq.st (rqRun F env) u) (rqRun F env u)) 0 m =
        (collect (F.leaves (fifoRun F env)) 0 m).flatMap
          (fun x => [x.tdata.extractLsb' 0 128, x.tdata.extractLsb' 128 128]) := by
      intro m
      induction m with
      | zero =>
          rfl
      | succ m ih =>
          rw [collect_succ, collect_succ, ih, Nat.zero_add, accepts_eq env horder,
            List.flatMap_append]
    rw [Rq.acceptedWords, hcollect, hitems, List.flatMap_map]
    simp only [item_words]
    exact hwords n
  obtain ⟨n, hn⟩ := hall
  rw [hn, List.length_map, List.length_range]

/-! ## The counter in host memory -/

/-- Dword `e` of the stream: every eighth one is a counter. -/
def dword (e : Nat) : BitVec 32 := if e % 8 = 0 then BitVec.ofNat 32 (e / 8) else 0

theorem laneDwords_word (i : Nat) :
    laneDwords (word i) = (List.range 4).map (fun k => dword (4 * i + k)) := by
  have hzero : ∀ k, 0 < k → k < 4 → dword (4 * i + k) = 0 := by
    intro k hpos hk
    rw [dword, if_neg (by omega)]
  have hfirst : laneDwords (word i) = [dword (4 * i), 0, 0, 0] := by
    rcases Nat.mod_two_eq_zero_or_one i with heven | hodd
    · have hdword : dword (4 * i) = BitVec.ofNat 32 (i / 2) := by
        rw [dword, if_pos (by omega), show 4 * i / 8 = i / 2 by omega]
      rw [word, if_pos heven, hdword, laneDwords]
      simp [List.range_succ, extractLsb'_low, extractLsb'_high]
    · have hdword : dword (4 * i) = 0 := by
        rw [dword, if_neg (by omega)]
      rw [word, if_neg (by omega), hdword]
      decide
  rw [hfirst]
  simp [List.range_succ, hzero]

theorem streamDwords_word (c n : Nat) :
    streamDwords ((List.range n).map (fun i => word (c + i))) =
      (List.range (4 * n)).map (fun e => dword (4 * c + e)) := by
  induction n with
  | zero =>
      rfl
  | succ n ih =>
      rw [List.range_succ, List.map_append, streamDwords, List.flatMap_append, ← streamDwords, ih,
        List.map_singleton, List.flatMap_singleton, laneDwords_word, Nat.mul_succ, List.range_add,
        List.map_append, List.map_map]
      congr 1
      refine List.map_congr_left ?_
      intro k _
      rw [Function.comp_apply]
      congr 1
      omega

/-- A block of the counter whose first word is word `c` of the stream. -/
def counterBlock (size c : Nat) : List (BitVec 8) :=
  ((List.range (size / 4)).map (fun d => dword (4 * c + d))).flatMap dwordBytes

/-- Behind the words of an operation the stream goes on. -/
theorem drop_words (c : Nat) {k n : Nat} (hk : k ≤ n) :
    ((List.range n).map (fun i => word (c + i))).drop k =
      (List.range (n - k)).map (fun i => word (c + k + i)) := by
  obtain ⟨r, rfl⟩ := Nat.exists_eq_add_of_le hk
  rw [List.range_add, List.map_append, List.drop_left' (by simp), List.map_map, Nat.add_sub_cancel_left]
  refine List.map_congr_left ?_
  intro i _
  rw [Function.comp_apply, Nat.add_assoc]

theorem blockData_word {size c q n : Nat} (hsize : size % 4 = 0)
    (hroom : (q + 1) * blockWords size ≤ n) :
    blockData size ((List.range n).map (fun i => word (c + i))) q =
      counterBlock size (c + q * blockWords size) := by
  rw [Nat.succ_mul] at hroom
  have hle : size / 4 ≤ 4 * (n - q * blockWords size) := by
    unfold blockWords at *
    omega
  rw [blockData_eq hsize, drop_words c (by omega), streamDwords_word, ← List.map_take, List.take_range,
    Nat.min_eq_left hle, counterBlock]

/-- The words left for an operation go on counting. -/
theorem wordsFrom_word (horder : F.InOrder) (start t : Nat) :
    Rq.wordsFrom (rqRun F env) start t =
      (List.range (Rq.wordsFrom (rqRun F env) start t).length).map
        (fun i => word (Rq.wordsBefore (rqRun F env) start + i)) := by
  have haccepted := acceptedWords_eq env horder t
  rw [Rq.wordsFrom, List.length_drop]
  rcases Nat.le_total (Rq.acceptedWords (rqRun F env) t).length
    (Rq.wordsBefore (rqRun F env) start) with hle | hle
  · rw [List.drop_of_length_le hle, Nat.sub_eq_zero_of_le hle]
    rfl
  · obtain ⟨r, hr⟩ := Nat.exists_eq_add_of_le hle
    rw [hr, Nat.add_sub_cancel_left]
    rw [hr, List.range_add, List.map_append, List.map_map] at haccepted
    rw [haccepted, List.drop_left' (by simp)]
    rfl

/-- The stores of an operation with the words of the counter. -/
theorem blockStores_word (horder : F.InOrder) {cfg : Rq.Config}
    (hdvd : cfg.sizeAtDescriptor.toNat % 4 = 0) (base : Nat → BitVec 64) {start t : Nat}
    (hroom : cfg.writeBlocks P * blockWords cfg.sizeAtDescriptor.toNat ≤
      (Rq.wordsFrom (rqRun F env) start t).length) :
    cfg.blockStores P base (Rq.wordsFrom (rqRun F env) start t) =
      (List.range (cfg.writeBlocks P)).map (fun q => (base q, counterBlock cfg.sizeAtDescriptor.toNat
        (Rq.wordsBefore (rqRun F env) start + q * blockWords cfg.sizeAtDescriptor.toNat))) := by
  refine List.map_congr_left ?_
  intro q hq
  have hlt := List.mem_range.mp hq
  rw [wordsFrom_word env horder start t, blockData_word hdvd]
  exact Nat.le_trans (Nat.mul_le_mul_right _ hlt) hroom

/-- Memory writes put the counter into host memory: block after block takes the next words of the stream,
in which every eighth dword is one more than the one before and the other ones are 0.  In a fixed pattern
at one address the dwords of the last block are what is read there. -/
theorem counter_in_memory (horder : F.InOrder) {cfg : Rq.Config} {start stop : Nat}
    (op : Rq.Operation (rqRun F env) cfg start stop) (hw : cfg.capWrite = true)
    (hpos : 0 < cfg.sizeAtDescriptor.toNat) (hdvd : cfg.sizeAtDescriptor.toNat % 4 = 0)
    (hfit : cfg.total + cfg.blockLength P < 2 ^ 32) (hlog : 4 ≤ P.log2MaxPayload) (t : Nat)
    (hat : start < t) (htb : t ≤ stop) (hidle : (Rq.st (rqRun F env) t).wrState = .idle)
    (hdrained : (env t).axisRqTready = true ∨ (Rq.st (rqRun F env) t).out.tvalid = false)
    (m : Image 64 (BitVec 8)) :
    ∃ base : Nat → BitVec 64, base 0 = Rq.alignDword cfg.addrAtDescriptor ∧
      (cfg.addressMode = 0 ∨ cfg.addressMode = 1 →
        ∀ q, base q = Rq.alignDword (cfg.blockAddress q)) ∧
      (receive m (Rq.beatsOf (Rq.Operation.emitted (rqRun F env) start t))).mem =
        storeAll m ((List.range (cfg.writeBlocks P)).map (fun q =>
          (base q, counterBlock cfg.sizeAtDescriptor.toNat
            (Rq.wordsBefore (rqRun F env) start + q * blockWords cfg.sizeAtDescriptor.toNat)))) ∧
      ((∀ q, base q = base 0) → ∀ d, d < cfg.sizeAtDescriptor.toNat / 4 →
        loadDword (receive m (Rq.beatsOf (Rq.Operation.emitted (rqRun F env) start t))).mem
            (base 0 + BitVec.ofNat 64 (4 * d)) =
          dword (4 * (Rq.wordsBefore (rqRun F env) start +
            (cfg.writeBlocks P - 1) * blockWords cfg.sizeAtDescriptor.toNat) + d)) := by
  obtain ⟨base, hzero, hmode, hroom, hmem⟩ :=
    op.receive_blocks hw hpos hdvd hfit hlog hat htb hidle hdrained
  have hlt := cfg.sizeAtDescriptor.isLt
  refine ⟨base, hzero, hmode, ?_, ?_⟩
  · rw [hmem, blockStores_word env horder hdvd base hroom]
  · intro hsame d hd
    have hlast := Nat.sub_add_cancel (Rq.writeBlocks_pos P hpos)
    rw [hmem, Rq.storeAll_blockStores_same hpos hsame hroom, wordsFrom_word env horder start t,
      blockData_word hdvd (by rwa [hlast])]
    refine loadDword_store m _ (by simp; omega) ?_
    simp [hd]

end System

/-- Four writes of twenty bytes: the last block starts with the fourth item. -/
theorem counter_in_memory_twenty :
    (List.range 5).map (fun d => loadDword (receive (fun _ => 0xff) (Rq.beatsOf (Rq.Operation.emitted
        (rqRun (.queue 16 ⟨0, 0⟩) (Rq.steady (Rq.writeConfig 20))) 4 13))).mem
      (0x100000 + BitVec.ofNat 64 (4 * d))) = [3, 0, 0, 0, 0] := by
  have hbusy : ∀ t, t < 13 → 4 < t → (Rq.st (rqRun (.queue 16 ⟨0, 0⟩)
      (Rq.steady (Rq.writeConfig 20))) t).wrState ≠ .idle := by
    decide +kernel
  have op : Rq.Operation (rqRun (.queue 16 ⟨0, 0⟩) (Rq.steady (Rq.writeConfig 20))) (Rq.writeConfig 20)
      4 13 :=
    { start_lt := by decide
      idle := by decide +kernel
      leaves := by decide +kernel
      once := fun t hat htb hs => absurd hs (hbusy t htb hat)
      stable := fun _ _ _ _ => rfl }
  obtain ⟨base, hzero, hmode, -, hread⟩ := counter_in_memory (Rq.steady (Rq.writeConfig 20))
    (Fifo.queue_inOrder 16 ⟨0, 0⟩) op rfl (by decide) (by decide) (by decide) (by decide) 13 (by decide)
    (by decide) (by decide +kernel) (.inl rfl) (fun _ => 0xff)
  have hsame : ∀ q, base q = base 0 := by
    intro q
    rw [hmode (.inl rfl), hmode (.inl rfl), Rq.Config.blockAddress_fixed rfl,
      Rq.Config.blockAddress_fixed rfl]
    split <;> rfl
  have hbase : base 0 = 0x100000 := by
    rw [hzero]
    decide
  have hbefore : Rq.wordsBefore (rqRun (.queue 16 ⟨0, 0⟩) (Rq.steady (Rq.writeConfig 20))) 4 = 0 := by
    decide +kernel
  -- six words, two for each of the first three blocks, come before the last block
  have hdwords : ∀ d, d < 5 → loadDword (receive (fun _ => 0xff) (Rq.beatsOf (Rq.Operation.emitted
      (rqRun (.queue 16 ⟨0, 0⟩) (Rq.steady (Rq.writeConfig 20))) 4 13))).mem
        (0x100000 + BitVec.ofNat 64 (4 * d)) = dword (24 + d) := by
    intro d hd
    have hdword := hread hsame d hd
    rw [hbase, hbefore] at hdword
    exact hdword
  rw [List.map_congr_left (fun d hd => hdwords d (List.mem_range.mp hd))]
  decide

end Application
end PcieBench
