import PcieBench.Memory.Store
import PcieBench.Tlp.Format

/-!
# What the receiver of a request stream does

The other end of `M_AXIS_RQ`: it gathers the beats of a TLP up to `TLAST` and then performs the request
on its memory.  The bytes of a memory write are those of the enabled dwords behind the descriptor, low
lane first, as far as the byte enables of the header let them through; a memory read leaves the memory
alone.
-/

namespace PcieBench
namespace Tlp

open Memory

/-! ## The data of a beat -/

/-- The dwords of a 128-bit lane, low dword first. -/
def laneDwords (w : BitVec 128) : List (BitVec 32) :=
  (List.range 4).map (fun k => w.extractLsb' (32 * k) 32)

/-- The bytes of a dword, low byte first. -/
def dwordBytes (d : BitVec 32) : List (BitVec 8) :=
  (List.range 4).map (fun k => d.extractLsb' (8 * k) 8)

/-- The bytes of a 128-bit lane, low byte first. -/
def laneBytes (w : BitVec 128) : List (BitVec 8) := (laneDwords w).flatMap dwordBytes

/-- The dwords of a beat that `TKEEP` enables. -/
def Beat.enabled (b : Beat) : List (BitVec 32) :=
  ((List.range 8).filter (fun k => b.tkeep.getLsbD k)).map
    (fun k => (b.tdataHi ++ b.tdataLo).extractLsb' (32 * k) 32)

/-- The enabled dwords are the low ones. -/
def IsLowKeep (keep : BitVec 8) : Prop := keep &&& (keep + 1) = 0

instance (keep : BitVec 8) : Decidable (IsLowKeep keep) := inferInstanceAs (Decidable (_ = _))

theorem filter_lowKeep : ∀ keep : BitVec 8, IsLowKeep keep →
    (List.range 8).filter (fun k => keep.getLsbD k) = (List.range 8).take (popcount keep) := by
  decide

/-- All dwords of a beat, low lane first. -/
def Beat.allDwords (b : Beat) : List (BitVec 32) := laneDwords b.tdataLo ++ laneDwords b.tdataHi

theorem Beat.allDwords_eq (b : Beat) : b.allDwords =
    (List.range 8).map (fun k => (b.tdataHi ++ b.tdataLo).extractLsb' (32 * k) 32) := by
  have hlow : ∀ k, k < 4 → b.tdataLo.extractLsb' (32 * k) 32 =
      (b.tdataHi ++ b.tdataLo).extractLsb' (32 * k) 32 := by
    intro k hk
    apply BitVec.eq_of_getLsbD_eq
    intro j hj
    rw [BitVec.getLsbD_extractLsb', BitVec.getLsbD_extractLsb', BitVec.getLsbD_append,
      if_pos (by omega)]
  have hhigh : ∀ k, k < 4 → b.tdataHi.extractLsb' (32 * k) 32 =
      (b.tdataHi ++ b.tdataLo).extractLsb' (32 * (4 + k)) 32 := by
    intro k hk
    apply BitVec.eq_of_getLsbD_eq
    intro j hj
    rw [BitVec.getLsbD_extractLsb', BitVec.getLsbD_extractLsb', BitVec.getLsbD_append,
      if_neg (by omega), show 32 * (4 + k) + j - 128 = 32 * k + j by omega]
  rw [show 8 = 4 + 4 by rfl, List.range_add, List.map_append, List.map_map, Beat.allDwords]
  congr 1
  · exact List.map_congr_left (fun k hk => hlow k (List.mem_range.mp hk))
  · exact List.map_congr_left (fun k hk => hhigh k (List.mem_range.mp hk))

/-- Where the enabled dwords are the low ones, `TKEEP` says how many there are. -/
theorem Beat.enabled_eq {b : Beat} (h : IsLowKeep b.tkeep) :
    b.enabled = b.allDwords.take (popcount b.tkeep) := by
  rw [Beat.enabled, filter_lowKeep _ h, Beat.allDwords_eq, List.map_take]

/-- The dwords of a TLP behind the four ones of its descriptor. -/
def payloadDwords (l : List Beat) : List (BitVec 32) := (l.flatMap Beat.enabled).drop 4

/-! ## Performing a request -/

/-- The byte enables of dword `k` in a request of `n` dwords. -/
def byteEnables (firstBe lastBe : BitVec 4) (n k : Nat) : BitVec 4 :=
  if k = 0 then firstBe else if k + 1 = n then lastBe else 0xf

/-- The bytes of a dword that their enables let through. -/
def maskBytes (be : BitVec 4) (d : BitVec 32) : List (Option (BitVec 8)) :=
  (List.range 4).map (fun k => if be.getLsbD k then some (d.extractLsb' (8 * k) 8) else none)

/-- The bytes that a memory write with header `h` and payload `ds` puts into memory. -/
def writeCells (h : Beat) (ds : List (BitVec 32)) : List (Option (BitVec 8)) :=
  ds.zipIdx.flatMap (fun d => maskBytes (byteEnables h.firstBe h.lastBe h.dwords.toNat d.2) d.1)

/-- A complete TLP is performed on the memory. -/
def perform (m : Image 64 (BitVec 8)) (l : List Beat) : Image 64 (BitVec 8) :=
  match l with
  | [] => m
  | h :: body =>
      if h.reqType = memoryWrite then overlay m h.addr (writeCells h (payloadDwords (h :: body)))
      else m

/-- The receiver: its memory and the beats of a TLP that has not ended. -/
structure Receiver where
  mem : Image 64 (BitVec 8)
  pending : List Beat

def Receiver.step (r : Receiver) (b : Beat) : Receiver :=
  if b.tlast then ⟨perform r.mem (r.pending ++ [b]), []⟩ else ⟨r.mem, r.pending ++ [b]⟩

/-- What a stream of beats does to a memory. -/
def receive (m : Image 64 (BitVec 8)) (l : List Beat) : Receiver := l.foldl Receiver.step ⟨m, []⟩

/-! ## Streams of TLPs -/

section Streams

variable (m : Image 64 (BitVec 8))

/-- Beats without `TLAST` are kept. -/
theorem foldl_step_pending (pending : List Beat) {l : List Beat} (hl : ∀ b ∈ l, b.tlast = false) :
    l.foldl Receiver.step ⟨m, pending⟩ = ⟨m, pending ++ l⟩ := by
  induction l generalizing pending with
  | nil =>
      simp
  | cons b l ih =>
      have hb := hl b List.mem_cons_self
      have hstep : Receiver.step ⟨m, pending⟩ b = ⟨m, pending ++ [b]⟩ := by
        simp [Receiver.step, hb]
      rw [List.foldl_cons, hstep, ih _ (fun b' hb' => hl b' (List.mem_cons_of_mem _ hb')),
        List.append_assoc, List.singleton_append]

/-- One beat with `TLAST`, the last one. -/
def EndsOnce (l : List Beat) : Prop :=
  ∃ front final, l = front ++ [final] ∧ (∀ b ∈ front, b.tlast = false) ∧ final.tlast = true

/-- The receiver performs the complete TLPs in order and keeps the beats behind them. -/
theorem receive_flatten {tlps : List (List Beat)} {pending : List Beat}
    (htlps : ∀ l ∈ tlps, EndsOnce l) (hpending : ∀ b ∈ pending, b.tlast = false) :
    receive m (tlps.flatten ++ pending) = ⟨tlps.foldl perform m, pending⟩ := by
  induction tlps generalizing m with
  | nil =>
      simpa [receive] using foldl_step_pending m [] hpending
  | cons l tlps ih =>
      obtain ⟨front, final, rfl, hfront, hfinal⟩ := htlps l List.mem_cons_self
      have htlp : (front ++ [final]).foldl Receiver.step ⟨m, []⟩ =
          ⟨perform m (front ++ [final]), []⟩ := by
        rw [List.foldl_append, foldl_step_pending m [] hfront]
        simp [Receiver.step, hfinal]
      rw [receive, List.flatten_cons, List.append_assoc, List.foldl_append, htlp]
      exact ih _ (fun l' hl' => htlps l' (List.mem_cons_of_mem _ hl'))

end Streams

/-! ## Full byte enables -/

/-- The enables of a request that leaves no byte out. -/
def FullEnables (h : Beat) : Prop :=
  h.firstBe = 0xf ∧ (h.dwords.toNat = 1 ∨ h.lastBe = 0xf)

theorem maskBytes_full (d : BitVec 32) : maskBytes 0xf d = (dwordBytes d).map some := by
  simp [maskBytes, dwordBytes, List.range_succ]

/-- Without a byte left out the cells are the bytes of the payload. -/
theorem writeCells_full {h : Beat} (hfull : FullEnables h) {ds : List (BitVec 32)}
    (hlen : ds.length = h.dwords.toNat) : writeCells h ds = (ds.flatMap dwordBytes).map some := by
  have hbe : ∀ k, k < ds.length → byteEnables h.firstBe h.lastBe h.dwords.toNat k = 0xf := by
    intro k hk
    obtain ⟨hfirst, hone | hlast⟩ := hfull
    · have hzero : k = 0 := by omega
      rw [byteEnables, if_pos hzero, hfirst]
    · simp only [byteEnables, hfirst, hlast, ite_self]
  rw [writeCells, List.map_flatMap, ← List.zipIdx_map_fst 0 ds, List.flatMap_map,
    List.zipIdx_map_fst]
  refine List.flatMap_congr ?_
  rintro ⟨d, k⟩ hd
  obtain ⟨-, hk, -⟩ := List.mem_zipIdx hd
  rw [hbe k (by omega), maskBytes_full]

/-- A memory write without a byte left out is a store. -/
theorem perform_write (m : Image 64 (BitVec 8)) {h : Beat} {body : List Beat}
    (htype : h.reqType = memoryWrite) (hfull : FullEnables h)
    (hlen : (payloadDwords (h :: body)).length = h.dwords.toNat) :
    perform m (h :: body) = store m h.addr ((payloadDwords (h :: body)).flatMap dwordBytes) := by
  rw [perform, if_pos htype, writeCells_full hfull hlen, store]

/-- A memory read leaves the memory alone. -/
theorem perform_read (m : Image 64 (BitVec 8)) {h : Beat} (body : List Beat)
    (htype : h.reqType = memoryRead) : perform m (h :: body) = m := by
  rw [perform, if_neg]
  rw [htype]
  decide

end Tlp
end PcieBench
