import PcieBench.Rq.Fsm

/-!
# Operations

An operation is the stretch of a run between two idle states of the FSM.  `Operation` describes the
window of cycles in which one operation runs and possibly has already ended, with the descriptor
interface unchanged from the cycle in which it starts until it ends.  The window is the frame in
which the later modules say what an operation sends.
-/

namespace PcieBench
namespace Rq

open Clocked Tlp

section Operations

variable {P : Params}

/-! ## The window of an operation -/

/-- The operation that starts in the idle cycle `start`, observed until cycle `stop`: no other
operation starts in between, and the configuration is `cfg` while it runs. -/
structure Operation (inp : Run P) (cfg : Config) (start stop : Nat) : Prop where
  start_lt : start < stop
  idle : (st inp start).wrState = .idle
  leaves : (st inp (start + 1)).wrState ≠ .idle
  once : ∀ t, start < t → t < stop → (st inp t).wrState = .idle →
    (st inp (t + 1)).wrState = .idle
  stable : ∀ t, start ≤ t → t < stop → t = start ∨ (st inp t).wrState ≠ .idle →
    (inp t).cfg = cfg

namespace Operation

variable {inp : Run P} {cfg : Config} {start stop : Nat}

/-- A property of the first busy cycle that every clock edge of the operation preserves holds in the
whole window. -/
theorem induction (op : Operation inp cfg start stop) {p : Nat → Prop} (hstart : p (start + 1))
    (hbusy : ∀ t, start < t → t < stop → (st inp t).wrState ≠ .idle → (inp t).cfg = cfg →
      p t → p (t + 1))
    (hidle : ∀ t, start < t → t < stop → (st inp t).wrState = .idle →
      (st inp (t + 1)).wrState = .idle → p t → p (t + 1)) :
    ∀ t, start < t → t ≤ stop → p t := by
  refine interval_induction hstart ?_
  intro t hat htb ht
  by_cases hs : (st inp t).wrState = .idle
  · exact hidle t hat htb hs (op.once t hat htb hs) ht
  · exact hbusy t hat htb hs (op.stable t (by omega) htb (.inr hs)) ht

/-- The guard of the cycle in which the operation starts, and the state it leads to. -/
theorem begins (op : Operation inp cfg start stop) :
    (inp start).axisRqTready = true ∧
      ((cfg.capWrite = true ∧ (st inp (start + 1)).wrState = .initWrite) ∨
        (cfg.capWrite = false ∧ cfg.capRead = true ∧
          (st inp (start + 1)).wrState = .initRead)) := by
  have hcfg := op.stable start (Nat.le_refl _) op.start_lt (.inl rfl)
  have hbegins := begins_of_leaves op.idle op.leaves
  rw [← hcfg]
  exact ⟨hbegins.tready, hbegins.next⟩

/-- An operation without reads is in a memory write while it is busy. -/
theorem writing (op : Operation inp cfg start stop) (hr : cfg.capRead = false) {u : Nat}
    (hu : start < u) (hul : u ≤ stop) (hs : (st inp u).wrState ≠ .idle) :
    (st inp u).wrState = .initWrite ∨ (st inp u).wrState = .write := by
  refine op.induction (p := fun u => (st inp u).wrState ≠ .idle →
    (st inp u).wrState = .initWrite ∨ (st inp u).wrState = .write) ?_ ?_ ?_ u hu hul hs
  · intro _
    rcases op.begins.2 with ⟨-, hinit⟩ | ⟨-, hread, -⟩
    · exact .inl hinit
    · rw [hr] at hread
      cases hread
  · intro t hat htb hbusy hcfg hwriting hs'
    have hwriting := hwriting hbusy
    rw [st_succ] at hs' ⊢
    rcases busy_cases (inp t) hbusy with hm | hm | hm | hm | hm | hm
    · rw [hm.state]
      exact hwriting
    · exact .inr hm.state
    · exact .inr hm.state
    · -- behind the last beat of a memory write comes the next one
      rw [hm.state] at hs' ⊢
      rcases afterWrite_cases (st inp t) (inp t) with ha | ha | ha
      · exact absurd ha hs'
      · exact .inl ha
      · have hread := afterWrite_initRead ha
        rw [hcfg, hr] at hread
        cases hread
    · rcases hwriting with h | h <;> rw [hm.initRead] at h <;> cases h
    · exact absurd hm.state hs'
  · intro t _ _ _ hidle _ hs'
    exact absurd hidle hs'

/-- The registers of the first busy cycle. -/
theorem first_registers (op : Operation inp cfg start stop) :
    (st inp (start + 1)).wrCount = TlpCount.first ∧
      (st inp (start + 1)).rdCount = TlpCount.first ∧
      (st inp (start + 1)).out.tvalid = false ∧
      (st inp (start + 1)).wrPtr.addr = cfg.addrAtDescriptor ∧
      (st inp (start + 1)).rdPtr.addr = cfg.addrAtDescriptor := by
  have hcfg := op.stable start (Nat.le_refl _) op.start_lt (.inl rfl)
  have hready := op.begins.1
  simp [st_succ, nextWrCount, nextRdCount, nextOut, nextWrPtr, nextRdPtr, op.idle, hready, hcfg]

/-- The configuration is there one cycle before each busy cycle. -/
theorem cfg_before (op : Operation inp cfg start stop) {t : Nat} (hat : start ≤ t) (htb : t < stop)
    (hs : (st inp (t + 1)).wrState ≠ .idle) : (inp t).cfg = cfg := by
  refine op.stable t hat htb ?_
  by_cases ht : t = start
  · exact .inl ht
  · refine .inr ?_
    intro hidle
    exact hs (op.once t (by omega) htb hidle)

/-- A busy cycle has only busy cycles before it. -/
theorem busy_before (op : Operation inp cfg start stop) {u t : Nat} (hau : start < u) (hut : u < t)
    (htb : t ≤ stop) (hs : (st inp t).wrState ≠ .idle) : (st inp u).wrState ≠ .idle := by
  intro hidle
  have hstays : ∀ v, u ≤ v → v ≤ t → (st inp v).wrState = .idle := by
    refine interval_induction hidle ?_
    intro v hv hvt hv'
    exact op.once v (by omega) (by omega) hv'
  exact hs (hstays t (by omega) (Nat.le_refl t))

/-- An operation observed for a shorter time. -/
theorem shorten (op : Operation inp cfg start stop) {t : Nat} (hat : start < t) (htb : t ≤ stop) :
    Operation inp cfg start t where
  start_lt := hat
  idle := op.idle
  leaves := op.leaves
  once u hau hut := op.once u hau (by omega)
  stable u hau hut := op.stable u hau (by omega)

/-- While the operation runs, the derived registers are those of its configuration. -/
theorem bounds_eq (op : Operation inp cfg start stop) {t : Nat} (hat : start < t) (htb : t ≤ stop)
    (hs : (st inp t).wrState ≠ .idle) : (st inp t).bounds = nextBounds P cfg := by
  obtain ⟨u, rfl⟩ : ∃ u, t = u + 1 := ⟨t - 1, by omega⟩
  rw [st_succ, step_bounds, op.cfg_before (by omega) (by omega) hs]

/-- The beats loaded from the first busy cycle on, until cycle `t`. -/
def beats (inp : Run P) (start t : Nat) : List Sent :=
  collect (loads inp) (start + 1) (t - (start + 1))

theorem beats_first (inp : Run P) (start : Nat) : beats inp start (start + 1) = [] := by
  simp [beats]

theorem beats_succ (inp : Run P) {start t : Nat} (h : start < t) :
    beats inp start (t + 1) = beats inp start t ++ load (st inp t) (inp t) := by
  have hn : t + 1 - (start + 1) = t - (start + 1) + 1 := by omega
  have ht : start + 1 + (t - (start + 1)) = t := by omega
  simp only [beats, hn, collect_succ, ht, loads]

/-- Idle cycles load nothing. -/
theorem beats_idle (inp : Run P) {start t : Nat} (h : start < t)
    (hs : (st inp t).wrState = .idle) : beats inp start (t + 1) = beats inp start t := by
  rw [beats_succ inp h, load_idle hs, List.append_nil]

/-- The beats handed over in the cycles after `start`, up to and including cycle `t`. -/
def emitted (inp : Run P) (start t : Nat) : List Sent :=
  collect (emits inp) (start + 1) (t - start)

/-- The beats handed over since the operation started are those it loaded, but for the one that
is still held back. -/
theorem emitted_append_waits (op : Operation inp cfg start stop) {t : Nat} (hat : start < t) :
    emitted inp start t ++ (if (inp t).axisRqTready then [] else waits inp t) =
      beats inp start t := by
  have h := collect_emits_append_waits inp (start + 1) (t - (start + 1))
  have hempty : waits inp (start + 1) = [] := by
    simp [waits, held, op.first_registers.2.2.1]
  have ht : start + 1 + (t - (start + 1)) = t := by omega
  have hn : t - start = t - (start + 1) + 1 := by omega
  have hnow : emits inp t ++ (if (inp t).axisRqTready then [] else waits inp t) = waits inp t := by
    cases hr : (inp t).axisRqTready <;> simp [emits, transferred, waits, held, hr]
  rw [hempty, ht, List.nil_append] at h
  rw [emitted, hn, collect_succ, ht, List.append_assoc, hnow, h, beats]

end Operation

end Operations

/-! ## A steady environment -/

/-- An environment that never stalls: `TREADY`, a full C2S beat and no completion in every cycle; the
engine is valid from cycle 4 on. -/
def steady (cfg : Config) : Run pcieController := fun t =>
  { axisRqTready := true
    axisRcTvalid := false
    axisRcTready := true
    axisRcTkeep := 0
    c2sTvalid := true
    c2sTdataLo := BitVec.ofNat 128 (2 * t)
    c2sTdataHi := BitVec.ofNat 128 (2 * t + 1)
    c2sTkeepHi := true
    engineValid := decide (4 ≤ t)
    cfg := cfg
    completedTags := fun _ => false
    currentWindowSize := 24 }

/-- Four TLPs of a write of `size` bytes to one page. -/
def writeConfig (size : BitVec 64) : Config where
  capWrite := true
  capRead := false
  addressMode := 0
  sizeAtDescriptor := size
  sizeAtHost := 4096
  numberTlps := 4
  addrAtDescriptor := 0x100000
  addressGenOffset := 0

/-- Four memory read requests of `size` bytes from one page. -/
def readConfig (size : BitVec 64) : Config :=
  { writeConfig size with capWrite := false, capRead := true }

/-- In the steady environment the first operation starts in cycle 4. -/
theorem steady_operation {cfg : Config} {stop : Nat} (hstop : 4 < stop)
    (hidle : (st (steady cfg) 4).wrState = .idle)
    (hbusy : ∀ t, t < stop → 4 < t → (st (steady cfg) t).wrState ≠ .idle)
    (hleaves : (st (steady cfg) 5).wrState ≠ .idle) : Operation (steady cfg) cfg 4 stop where
  start_lt := hstop
  idle := hidle
  leaves := hleaves
  once t hat htb hs := absurd hs (hbusy t htb hat)
  stable _ _ _ _ := rfl

end Rq
end PcieBench
