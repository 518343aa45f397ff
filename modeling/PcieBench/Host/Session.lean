import PcieBench.Manager.Setup
import PcieBench.Manager.Stopped
import PcieBench.Manager.Statistics

/-!
# A session of the driver

`writeDMADescriptor` writes a descriptor and the engine registers, enables the engine and polls the
enable bit until it reads zero.  The program calls it once for every iteration and reads the
statistics in between.  This module follows the driver and the engine through such a session: each
call has its own operation performed, nothing else is sent, and the statistics of the call are found
behind its descriptor.
-/

namespace PcieBench
namespace Host

open Clocked Manager

/-! ## The writes of a call -/

theorem writesRegister_engineWrite {word : Nat} (hw : word < 2 ^ 15) {we : BitVec 8} (hwe : we ≠ 0)
    (din : BitVec 64) {k : Nat} (hk : k < 8) :
    (engineWrite word we din).writesRegister (BitVec.ofNat 32 k) = decide (word = k) := by
  have haddr := engineWrite_addr hw we din
  have hword : (engineWrite word we din).word = engineTableOffset + BitVec.ofNat 32 k ↔ word = k := by
    have hoffset : engineTableOffset.toNat = 0x200 := rfl
    rw [← BitVec.toNat_inj, HostAccess.word, BitVec.toNat_setWidth, haddr, BitVec.toNat_add, hoffset,
      BitVec.toNat_ofNat]
    omega
  have hbytes : ((engineWrite word we din).we != 0) = true := bne_iff_ne.mpr hwe
  have hen : (engineWrite word we din).en = true := rfl
  rw [HostAccess.writesRegister, hbytes, hen]
  simp only [hword, Bool.true_and]

/-- A write of a whole register. -/
theorem store_engineWrite {word : Nat} (hw : word < 2 ^ 15) (din : BitVec 64) {k : Nat} (hk : k < 8)
    (old : BitVec 64) :
    (engineWrite word 0xff din).store (BitVec.ofNat 32 k) old = if word = k then din else old := by
  rw [HostAccess.store, writesRegister_engineWrite hw (by decide) din hk]
  simp only [decide_eq_true_eq]
  split
  · exact writeBytes_all _ _
  · rfl

theorem store_engineWrite_of_ne {word : Nat} (hw : word < 2 ^ 15) {we : BitVec 8} (hwe : we ≠ 0)
    (din : BitVec 64) {k : Nat} (hk : k < 8) (hne : word ≠ k) (old : BitVec 64) :
    (engineWrite word we din).store (BitVec.ofNat 32 k) old = old := by
  rw [HostAccess.store, writesRegister_engineWrite hw hwe din hk, decide_eq_false hne]
  rfl

/-- A write into the table finds its word. -/
theorem selects_engineWrite {word : Nat} (hw : word < 8200) (we : BitVec 8) (din : BitVec 64)
    (f : TableField) (k : Index) :
    selects (engineWrite word we din) f k ↔ word = 8 + 8 * k.toNat + f.offset.toNat := by
  have haddr := engineWrite_addr (show word < 2 ^ 15 by omega) we din
  have hend : (engineWrite word we din).addr ≠ 0x2208 := by
    intro heq
    rw [heq] at haddr
    have h0 : (0x2208 : BitVec 16).toNat = 0x2208 := rfl
    omega
  rw [selects_iff _ hend, haddr, TableField.word]
  constructor
  · rintro ⟨-, hword⟩
    omega
  · intro hword
    exact ⟨rfl, by omega⟩

theorem not_selects_engineWrite {word : Nat} (hw : word < 8) (we : BitVec 8) (din : BitVec 64)
    (f : TableField) (k : Index) : ¬ selects (engineWrite word we din) f k := by
  rw [selects_engineWrite (by omega)]
  omega

theorem inTable_engineWrite {word : Nat} (hw : word < 8) (we : BitVec 8) (din : BitVec 64) :
    (engineWrite word we din).inTable = false := by
  have haddr := engineWrite_addr (show word < 2 ^ 15 by omega) we din
  rw [← Bool.not_eq_true, inTable_iff, haddr]
  rintro ⟨-, hlow, -⟩
  omega

theorem writesControl_engineWrite (din : BitVec 64) :
    (engineWrite 0 0x0f din).writesControl = true := by
  have h0 : (engineWrite 0 0x0f din).writesRegister 0 = true :=
    writesRegister_engineWrite (by decide) (by decide) din (k := 0) (by decide)
  rw [HostAccess.writesControl, h0]
  simp [engineWrite]

/-- A write of a whole engine register. -/
theorem access_register {word : Nat} (hw : word < 8) (hlow : 2 ≤ word) (din : BitVec 64) (s : Setup) :
    s.access (engineWrite word 0xff din) = { s with
      windowSize := if word = 3 then din else s.windowSize
      bufferAtHost := if word = 4 then din else s.bufferAtHost
      addressGenOffset := if word = 5 then din else s.addressGenOffset
      addressGenIncr := if word = 6 then din else s.addressGenIncr
      numberTlps := if word = 7 then din else s.numberTlps } := by
  have hw' : word < 2 ^ 15 := by omega
  have hstore := fun {k : Nat} (hk : k < 8) old => store_engineWrite hw' din hk old
  have h0 : (engineWrite word 0xff din).writesRegister 0 = false :=
    (writesRegister_engineWrite hw' (by decide) din (k := 0) (by decide)).trans
      (decide_eq_false (by omega))
  have h1 : (engineWrite word 0xff din).writesRegister 1 = false :=
    (writesRegister_engineWrite hw' (by decide) din (k := 1) (by decide)).trans
      (decide_eq_false (by omega))
  simp only [Setup.access, HostAccess.writesControl, h0, h1, Bool.false_and, Bool.false_eq_true,
    if_false, not_selects_engineWrite hw]
  congr 1
  · exact hstore (by decide) _
  · exact hstore (by decide) _
  · exact hstore (by decide) _
  · exact hstore (by decide) _
  · exact hstore (by decide) _

/-- A write of the control word. -/
theorem access_control (din : BitVec 64) (s : Setup) :
    s.access (engineWrite 0 0x0f din) = { s with
      capabilities := din.extractLsb' 2 2
      addressMode := din.extractLsb' 4 2 } := by
  have h1 : (engineWrite 0 0x0f din).writesRegister 1 = false :=
    writesRegister_engineWrite (by decide) (by decide) din (k := 1) (by decide)
  simp only [Setup.access, writesControl_engineWrite, h1, Bool.false_and, Bool.false_eq_true,
    if_true, if_false, not_selects_engineWrite (show 0 < 8 by decide)]
  -- the other registers are at other addresses
  congr 1

/-- A write of the last index. -/
theorem access_lastIndex (din : BitVec 64) (s : Setup) :
    s.access (engineWrite 1 0x03 din) = { s with lastIndexDescriptor := din.setWidth 10 } := by
  have hreg := fun {k : Nat} (hk : k < 8) => writesRegister_engineWrite (show 1 < 2 ^ 15 by decide)
    (show (0x03 : BitVec 8) ≠ 0 by decide) din hk
  have h0 : (engineWrite 1 0x03 din).writesRegister 0 = false := hreg (k := 0) (by decide)
  have h1 : (engineWrite 1 0x03 din).writesRegister 1 = true := hreg (k := 1) (by decide)
  have hlow : (engineWrite 1 0x03 din).we.getLsbD 0 = true := by simp [engineWrite]
  simp only [Setup.access, HostAccess.writesControl, h0, h1, hlow, Bool.and_true,
    Bool.false_eq_true, if_true, if_false, not_selects_engineWrite (show 1 < 8 by decide)]
  -- the other registers are at other addresses
  congr 1

/-- A write of a word of a descriptor. -/
theorem access_descriptor {word : Nat} (hlow : 8 ≤ word) (hw : word < 8200) (din : BitVec 64)
    (s : Setup) :
    s.access (engineWrite word 0xff din) = { s with
      table := fun f k => if word = 8 + 8 * k.toNat + f.offset.toNat then din else s.table f k } := by
  have hw' : word < 2 ^ 15 := by omega
  have hreg := fun {k : Nat} (hk : k < 8) =>
    (writesRegister_engineWrite hw' (show (0xff : BitVec 8) ≠ 0 by decide) din hk).trans
      (decide_eq_false (show word ≠ k by omega))
  have hstore := fun {k : Nat} (hk : k < 8) old =>
    store_engineWrite_of_ne hw' (show (0xff : BitVec 8) ≠ 0 by decide) din hk (by omega) old
  have h0 : (engineWrite word 0xff din).writesRegister 0 = false := hreg (k := 0) (by decide)
  have h1 : (engineWrite word 0xff din).writesRegister 1 = false := hreg (k := 1) (by decide)
  simp only [Setup.access, HostAccess.writesControl, h0, h1, Bool.false_and, Bool.false_eq_true,
    if_false, selects_engineWrite hw]
  congr 1
  · exact hstore (k := 3) (by decide) _
  · exact hstore (k := 4) (by decide) _
  · exact hstore (k := 5) (by decide) _
  · exact hstore (k := 6) (by decide) _
  · exact hstore (k := 7) (by decide) _
  · funext f k
    split
    · exact writeBytes_all _ _
    · rfl

/-! ## What a call sets up -/

/-- The operation that a call asks for. -/
def Call.config (c : Call) : Rq.Config where
  capWrite := c.dd.isC2sOp
  capRead := c.dd.isS2cOp
  addressMode := c.dd.addressMode
  sizeAtDescriptor := c.dd.length
  sizeAtHost := c.dd.bufferSize
  numberTlps := c.dd.numberOfTlps
  addrAtDescriptor := c.ioAddress
  addressGenOffset := c.dd.addressOffset

/-- The descriptor that a call writes. -/
def Call.descriptor (c : Call) : Index := BitVec.ofNat 10 c.dd.index.toNat

/-- The control word carries the directions and the address mode. -/
theorem control_fields (dd : DescriptorSw) (enable : Bool) :
    let din := ((control dd ||| (BitVec.ofBool enable).setWidth 32).setWidth 64 : BitVec 64)
    din.extractLsb' 2 2 = BitVec.ofBool dd.isS2cOp ++ BitVec.ofBool dd.isC2sOp ∧
      din.extractLsb' 4 2 = dd.addressMode ∧ din.getLsbD 0 = enable := by
  have hall : ∀ (c2s s2c e : Bool) (mode : BitVec 2),
      let word : BitVec 32 := (BitVec.ofBool c2s).setWidth 32 <<< 2 + (if s2c then 8 else 0) +
        mode.setWidth 32 <<< 4
      let din := ((word ||| (BitVec.ofBool e).setWidth 32).setWidth 64 : BitVec 64)
      din.extractLsb' 2 2 = BitVec.ofBool s2c ++ BitVec.ofBool c2s ∧
        din.extractLsb' 4 2 = mode ∧ din.getLsbD 0 = e := by
    decide
  exact hall dd.isC2sOp dd.isS2cOp enable dd.addressMode

/-- The store behind the accesses of an enabled call. -/
def Call.setup (c : Call) (ldescriptor : BitVec 32) (s : Setup) : Setup where
  lastIndexDescriptor := ldescriptor.setWidth 10
  capabilities := BitVec.ofBool c.dd.isS2cOp ++ BitVec.ofBool c.dd.isC2sOp
  addressMode := c.dd.addressMode
  windowSize := s.windowSize
  bufferAtHost := c.dd.bufferSize
  addressGenOffset := c.dd.addressOffset
  addressGenIncr := c.dd.addressInc
  numberTlps := c.dd.numberOfTlps
  table f k :=
    if 9 + 8 * c.slot.val = 8 + 8 * k.toNat + f.offset.toNat then c.dd.length
    else if 8 + 8 * c.slot.val = 8 + 8 * k.toNat + f.offset.toNat then c.ioAddress
    else s.table f k

/-- The writes of an enabled call. -/
def Call.writes (c : Call) (ldescriptor : BitVec 32) : List HostAccess :=
  descriptorAccesses ldescriptor c ++ [engineWrite 0 0x0f ((control c.dd ||| 1).setWidth 64)]

theorem accesses_of_enable {c : Call} (hen : c.dd.enable = true) (d : Driver) :
    (writeDMADescriptor d c).accesses = c.writes (d.ldescriptor % 1024) := by
  rw [writeDMADescriptor, if_pos hen]
  rfl

theorem foldl_writes (ldescriptor : BitVec 32) (c : Call) (s : Setup) :
    (c.writes ldescriptor).foldl Setup.access s = c.setup ldescriptor s := by
  have hslot := c.slot.isLt
  have hlast : ((ldescriptor.setWidth 64 : BitVec 64)).setWidth 10 = ldescriptor.setWidth 10 :=
    BitVec.setWidth_setWidth_of_le _ (by decide)
  have hone : (BitVec.ofBool true).setWidth 32 = (1 : BitVec 32) := rfl
  have hcontrol := control_fields c.dd true
  simp only [hone] at hcontrol
  obtain ⟨hcap, hmode, -⟩ := hcontrol
  rw [Call.writes, descriptorAccesses]
  simp only [List.cons_append, List.nil_append]
  -- the four registers, the two words of the descriptor, the control word, the last index and the
  -- control word again
  simp only [List.foldl_cons, List.foldl_nil, access_register (show 4 < 8 by decide) (by decide),
    access_register (show 7 < 8 by decide) (by decide),
    access_register (show 5 < 8 by decide) (by decide),
    access_register (show 6 < 8 by decide) (by decide),
    access_descriptor (show 8 ≤ 8 + 8 * c.slot.val by omega) (show 8 + 8 * c.slot.val < 8200 by omega),
    access_descriptor (show 8 ≤ 9 + 8 * c.slot.val by omega) (show 9 + 8 * c.slot.val < 8200 by omega),
    access_control, access_lastIndex, hlast, hcap, hmode, Nat.reduceEqDiff, if_true, if_false]
  rfl

/-- The descriptor of a call stands for its operation, and the other descriptors stay. -/
theorem Call.setup_config (c : Call) (ldescriptor : BitVec 32) (s : Setup) :
    (c.setup ldescriptor s).config c.descriptor = c.config := by
  have hslot : c.slot.val = c.dd.index.toNat := rfl
  have hlt := c.index_lt
  have hindex : c.descriptor.toNat = c.slot.val := by
    rw [Call.descriptor, BitVec.toNat_ofNat]
    omega
  have haddress : TableField.address.offset.toNat = 0 := rfl
  have hsize : TableField.size.offset.toNat = 1 := rfl
  have hwords : (c.setup ldescriptor s).table .size c.descriptor = c.dd.length ∧
      (c.setup ldescriptor s).table .address c.descriptor = c.ioAddress := by
    constructor
    · simp only [Call.setup, hindex, hsize]
      rw [if_pos (by omega)]
    · simp only [Call.setup, hindex, haddress]
      rw [if_neg (by omega), if_pos (by omega)]
  have hcap : ∀ c2s s2c : Bool, ((BitVec.ofBool s2c ++ BitVec.ofBool c2s : BitVec 2)).getLsbD 0 = c2s ∧
      ((BitVec.ofBool s2c ++ BitVec.ofBool c2s : BitVec 2)).getLsbD 1 = s2c := by
    decide
  obtain ⟨hwrite, hread⟩ := hcap c.dd.isC2sOp c.dd.isS2cOp
  rw [Setup.config, hwords.1, hwords.2, Call.config]
  congr 1

end Host

/-! ## An engine at rest -/

namespace Engine

open Clocked Manager
open Rq (Params)

variable {P : Params} {memories : Manager.Memories} {inp : Nat → Input P} {t u : Nat}

variable (memories inp) in
/-- The engine is at rest and no statistics are on their way to their memories. -/
structure Calm (t : Nat) : Prop where
  rest : AtRest memories inp t
  update : updates memories inp t = false
  port : (mgr memories inp t).statisticsPort.enaTime = false

theorem updates_succ (t : Nat) : updates memories inp (t + 1) =
    (Rq.st (rqRun memories inp) t).endOfOperation := updateLatency_succ memories inp t

theorem enaTime_succ (t : Nat) :
    (mgr memories inp (t + 1)).statisticsPort.enaTime = updates memories inp t := rfl

theorem enables_of_reads {h : HostAccess} (hread : h.writing = []) : enables h = false := by
  rw [enables, HostAccess.writesControl, HostAccess.writesRegister_of_reads hread]
  rfl

/-- Without an enable nothing changes but what the host writes. -/
theorem Calm.stays (h : Calm memories inp t) (htu : t ≤ u)
    (hno : ∀ v, t ≤ v → v < u → enables (inp v).host = false) :
    Calm memories inp u ∧ active memories inp u = active memories inp t ∧
      ∀ f j, statistic memories inp f u j = statistic memories inp f t j := by
  refine interval_induction (p := fun u => Calm memories inp u ∧
    active memories inp u = active memories inp t ∧
      ∀ f j, statistic memories inp f u j = statistic memories inp f t j)
    ⟨h, rfl, fun _ _ => rfl⟩ ?_ u htu (Nat.le_refl u)
  rintro v htv hvu ⟨hcalm, hactive, hstat⟩
  have hend := hcalm.rest.noEnd
  refine ⟨⟨hcalm.rest.succ (hno v htv hvu), ?_, ?_⟩, ?_, ?_⟩
  · rw [updates_succ, hend]
  · rw [enaTime_succ, hcalm.update]
  · rw [active_succ, hend, ← hactive]
    rfl
  · intro f j
    rw [← hstat f j, statistic, mgr_succ]
    refine f.mem_of_not_writes ?_
    -- the port of the statistics is disabled
    rw [Bar0.statisticsWrites, Clocked.PortA.writes, Manager.statisticsAccess, hcalm.port]
    rfl

end Engine

/-! ## A call on the bus -/

namespace Bar0

/-- The completer returns to its idle state or waits for the memory after an access, so it never
accesses the engine in two successive cycles. -/
theorem access_apart (p : Instance) (inp : Run) (t : Nat) (h : (st p inp t).access.en = true) :
    (st p inp (t + 1)).access.en = false := by
  have hen : (st p inp t).completer.en = true := by
    rw [System.access, Bool.and_eq_true] at h
    exact h.1
  have hstate : (st p inp (t + 1)).completer.en = false := by
    simp only [Completer.State.en, Bool.or_eq_true, beq_iff_eq] at hen
    rw [Completer.State.en, state_succ]
    rcases hen with hs | hs <;> simp [Completer.nextState, hs]
  rw [System.access, hstate]
  rfl

end Bar0

namespace Host

open Clocked Manager
open Bar0 (StatField)
open Engine (Input mgr mgrInput hostWrites updates enables AtRest Calm active statistic measurement)
open Rq (Params)

section Call

variable {P : Params} (memories : Manager.Memories) (inp : Nat → Input P)

/-- The host never accesses the engine in two successive cycles. -/
def Apart : Prop := ∀ t, (inp t).host.en = true → (inp (t + 1)).host.en = false

/-- A read of the control word from cycle `r` on that finds the enable bit clear. -/
structure Polled (r : Nat) : Prop where
  en : (inp r).host.en = true
  word : ∀ v, r ≤ v → v ≤ r + 3 → (inp v).host.word = engineTableOffset
  disabled : (mgr memories inp (r + 4)).dout.getLsbD 0 = false

/-- From cycle `q` to cycle `u` the host issues these writes, at any pace and with any reads in
between, and then a poll finds the engine disabled. -/
structure Issues (accesses : List HostAccess) (q u : Nat) : Prop where
  writes : collect (hostWrites inp) q (u - q) = accesses
  polled : ∃ r, q ≤ r ∧ r + 4 ≤ u ∧ (∀ v, r ≤ v → v < u → (inp v).host.writing = []) ∧
    Polled memories inp r

variable {memories inp}

theorem length_writing (h : HostAccess) : h.writing.length ≤ 1 := by
  rw [HostAccess.writing]
  split <;> simp

theorem eq_of_writing {h x : HostAccess} (hw : h.writing = [x]) : h = x ∧ h.en = true := by
  rw [HostAccess.writing] at hw
  split at hw
  · rename_i hen
    rw [Bool.and_eq_true] at hen
    exact ⟨(List.cons.injEq _ _ _ _ ▸ hw).1, hen.1⟩
  · cases hw

theorem getLsbD_append_ofBool {w : Nat} (x : BitVec w) (b : Bool) :
    ((x ++ BitVec.ofBool b).setWidth 64).getLsbD 0 = b := by
  rw [BitVec.getLsbD_setWidth, BitVec.getLsbD_append]
  simp

/-- A read of the control word shows the enable bit of one of its cycles. -/
theorem exists_enable_shown {r : Nat} (hen : (inp r).host.en = true)
    (hword : ∀ v, r ≤ v → v ≤ r + 3 → (inp v).host.word = engineTableOffset) :
    ∃ p, r ≤ p ∧ p ≤ r + 3 ∧
      (mgr memories inp (r + 4)).dout.getLsbD 0 = (mgr memories inp p).regs.enable := by
  -- the read register keeps what the last enabled cycle found
  have hread : ∀ v, r + 1 ≤ v → v ≤ r + 4 → (mgr memories inp v).read.isEngineRead = true ∧
      ∃ p, r ≤ p ∧ p < v ∧ (mgr memories inp v).read.rdataEngine.getLsbD 0 =
        (mgr memories inp p).regs.enable := by
    have hbit : ∀ v, r ≤ v → v ≤ r + 3 → (inp v).host.en = true →
        (mgr memories inp (v + 1)).read.isEngineRead = true ∧
          (mgr memories inp (v + 1)).read.rdataEngine.getLsbD 0 =
            (mgr memories inp v).regs.enable := by
      intro v hv hvr hen
      have hat : (mgrInput (Engine.sys memories inp v) (inp v)).host.word = engineTableOffset :=
        hword v hv hvr
      rw [Engine.mgr_succ, step_read, nextRead, engineRead, if_pos hat]
      simp only [Engine.mgrInput_host, hen, if_true, Option.isSome_some, Option.getD_some]
      exact ⟨trivial, getLsbD_append_ofBool _ _⟩
    refine interval_induction ?_ ?_
    · obtain ⟨hengine, hbit⟩ := hbit r (Nat.le_refl r) (by omega) hen
      exact ⟨hengine, r, Nat.le_refl r, by omega, hbit⟩
    · rintro v hv hvr ⟨hengine, p, hrp, hpv, hshown⟩
      cases hen : (inp v).host.en with
      | true =>
          obtain ⟨hengine', hbit'⟩ := hbit v (by omega) (by omega) hen
          exact ⟨hengine', v, by omega, by omega, hbit'⟩
      | false =>
          have hkeep : (mgr memories inp (v + 1)).read.isEngineRead =
                (mgr memories inp v).read.isEngineRead ∧
              (mgr memories inp (v + 1)).read.rdataEngine =
                (mgr memories inp v).read.rdataEngine := by
            rw [Engine.mgr_succ, step_read, nextRead]
            simp [hen]
          rw [hkeep.1, hkeep.2]
          exact ⟨hengine, p, hrp, by omega, hshown⟩
  obtain ⟨hengine, p, hrp, hpr, hbit⟩ := hread (r + 4) (by omega) (Nat.le_refl _)
  refine ⟨p, hrp, by omega, ?_⟩
  rw [State.dout, hengine, if_pos rfl, hbit]

/-- A poll that reads zero has seen the bit clear in one of its cycles. -/
theorem Polled.clear {r : Nat} (h : Polled memories inp r) :
    ∃ p, r ≤ p ∧ p ≤ r + 3 ∧ (mgr memories inp p).regs.enable = false := by
  obtain ⟨p, hrp, hpr, hbit⟩ := exists_enable_shown h.en h.word
  exact ⟨p, hrp, hpr, hbit.symm.trans h.disabled⟩

/-- Where no other access follows before the answer, it is the cycle of its own access. -/
theorem Polled.disabled_at {r : Nat} (h : Polled memories inp r)
    (halone : ∀ v, r < v → v ≤ r + 3 → (inp v).host.en = false) :
    (mgr memories inp r).regs.enable = false := by
  have h1 := halone (r + 1) (by omega) (by omega)
  have h2 := halone (r + 2) (by omega) (by omega)
  have h3 := halone (r + 3) (by omega) (by omega)
  have hat : (mgrInput (Engine.sys memories inp r) (inp r)).host.word = engineTableOffset :=
    h.word r (Nat.le_refl r) (by omega)
  obtain ⟨x, hsome, hbit⟩ : ∃ x,
      engineRead (mgr memories inp r) (mgrInput (Engine.sys memories inp r) (inp r)) = some x ∧
        x.getLsbD 0 = (mgr memories inp r).regs.enable :=
    ⟨_, if_pos hat, getLsbD_append_ofBool _ _⟩
  have hdout : (mgr memories inp (r + 4)).dout = x := by
    simp [State.dout, Engine.mgr_succ, nextRead, h.en, h1, h2, h3, hsome]
  rw [← hbit, ← hdout]
  exact h.disabled

/-- Only the last access of a call enables the engine. -/
theorem enables_descriptorAccesses {ldescriptor : BitVec 32} {c : Call} {h : HostAccess}
    (hmem : h ∈ descriptorAccesses ldescriptor c) : enables h = false := by
  have hslot := c.slot.isLt
  have hother : ∀ {word : Nat} {we : BitVec 8} (din : BitVec 64), word < 2 ^ 15 → we ≠ 0 →
      word ≠ 0 → enables (engineWrite word we din) = false := by
    intro word we din hw hwe hne
    have h0 : (engineWrite word we din).writesRegister 0 = false :=
      (writesRegister_engineWrite hw hwe din (k := 0) (by decide)).trans (decide_eq_false hne)
    rw [enables, HostAccess.writesControl, h0]
    rfl
  have hcontrol : enables (engineWrite 0 0x0f ((control c.dd).setWidth 64)) = false := by
    have hzero : control c.dd ||| (BitVec.ofBool false).setWidth 32 = control c.dd := by simp
    obtain ⟨-, -, hbit⟩ := control_fields c.dd false
    rw [hzero] at hbit
    rw [enables, engineWrite, hbit, Bool.and_false]
  simp only [descriptorAccesses, List.mem_cons, List.not_mem_nil, or_false] at hmem
  rcases hmem with rfl | rfl | rfl | rfl | rfl | rfl | rfl | rfl
  · exact hother _ (by decide) (by decide) (by decide)
  · exact hother _ (by decide) (by decide) (by decide)
  · exact hother _ (by decide) (by decide) (by decide)
  · exact hother _ (by decide) (by decide) (by decide)
  · exact hother _ (by omega) (by decide) (by omega)
  · exact hother _ (by omega) (by decide) (by omega)
  · exact hcontrol
  · exact hother _ (by decide) (by decide) (by decide)

/-- The cycles of the writes of a call: the write of the last index in `w` and the enable in `e`. -/
structure Stores (inp : Nat → Input P) (ldescriptor : BitVec 32) (c : Call) (q w e : Nat) : Prop where
  writes : collect (hostWrites inp) q (e + 1 - q) = c.writes ldescriptor
  first : q ≤ w
  lt : w + 1 < e
  lastIndex : (inp w).host = engineWrite 1 0x03 (ldescriptor.setWidth 64)
  enable : (inp e).host = engineWrite 0 0x0f ((control c.dd ||| 1).setWidth 64)
  between : ∀ v, w < v → v < e → (inp v).host.writing = []
  disabled : ∀ v, q ≤ v → v < e → enables (inp v).host = false

theorem stores_of_writes {ldescriptor : BitVec 32} {c : Call} {q n : Nat} (hapart : Apart inp)
    (hwrites : collect (hostWrites inp) q n = c.writes ldescriptor) :
    ∃ w e, Stores inp ldescriptor c q w e ∧ e < q + n ∧
      ∀ v, e < v → v < q + n → (inp v).host.writing = [] := by
  have hone : ∀ t, (hostWrites inp t).length ≤ 1 := fun t => length_writing _
  -- the enable is the last write, and the last index the one before it
  obtain ⟨k, hk, hwriting, hbefore, hafter⟩ := collect_eq_append_singleton _ _ hone hwrites
  have hsplit : descriptorAccesses ldescriptor c = (descriptorAccesses ldescriptor c).dropLast ++
      [engineWrite 1 0x03 (ldescriptor.setWidth 64)] := rfl
  obtain ⟨j, hj, hlast, -, hbetween⟩ :=
    collect_eq_append_singleton _ _ hone (hbefore.trans hsplit)
  obtain ⟨hlast, hlastEn⟩ := eq_of_writing hlast
  obtain ⟨henable, henableEn⟩ := eq_of_writing hwriting
  have hgap : q + j + 1 ≠ q + k := by
    intro heq
    have hoff := hapart (q + j) hlastEn
    rw [heq, henableEn] at hoff
    cases hoff
  have hall : collect (hostWrites inp) q (q + k + 1 - q) = c.writes ldescriptor := by
    have hcount : q + k + 1 - q = k + 1 := by omega
    rw [hcount, collect_succ, hbefore, hwriting]
    rfl
  refine ⟨q + j, q + k, ⟨hall, by omega, by omega, hlast, henable, ?_, ?_⟩, by omega, ?_⟩
  · intro v hv hvk
    have hnil := hbetween (v - q) (by omega) (by omega)
    rwa [Nat.add_sub_cancel' (by omega)] at hnil
  · intro v hqv hvk
    rcases hw : (inp v).host.writing with - | ⟨x, xs⟩
    · exact Engine.enables_of_reads hw
    · have hx : x ∈ (inp v).host.writing := by
        rw [hw]
        exact List.mem_cons_self
      have hmem : x ∈ collect (hostWrites inp) q k := by
        rw [mem_collect]
        refine ⟨v - q, by omega, ?_⟩
        rwa [Nat.add_sub_cancel' hqv]
      rw [hbefore] at hmem
      have heq : (inp v).host = x := by
        rw [HostAccess.writing] at hx
        split at hx
        · exact (List.mem_singleton.mp hx).symm
        · cases hx
      rw [heq]
      exact enables_descriptorAccesses hmem
  · intro v hv hvn
    have hnil := hafter (v - q) (by omega) (by omega)
    rwa [Nat.add_sub_cancel' (by omega)] at hnil

/-- The cycles of a call: the write of the last index in `w`, the enable in `e` and the poll from cycle
`r` on. -/
structure Cycles (memories : Manager.Memories) (inp : Nat → Input P) (ldescriptor : BitVec 32)
    (c : Call) (q w e r u : Nat) : Prop where
  writes : collect (hostWrites inp) q (e + 1 - q) = c.writes ldescriptor
  first : q ≤ w
  lt : w + 1 < e
  poll : e < r
  le : r + 4 ≤ u
  lastIndex : (inp w).host = engineWrite 1 0x03 (ldescriptor.setWidth 64)
  enable : (inp e).host = engineWrite 0 0x0f ((control c.dd ||| 1).setWidth 64)
  between : ∀ v, w < v → v < e → (inp v).host.writing = []
  after : ∀ v, e < v → v < u → (inp v).host.writing = []
  disabled : ∀ v, q ≤ v → v < e → enables (inp v).host = false
  polled : Polled memories inp r

theorem Cycles.stores {ldescriptor : BitVec 32} {c : Call} {q w e r u : Nat}
    (h : Cycles memories inp ldescriptor c q w e r u) : Stores inp ldescriptor c q w e :=
  ⟨h.writes, h.first, h.lt, h.lastIndex, h.enable, h.between, h.disabled⟩

theorem Issues.cycles {d : Driver} {c : Call} {q u : Nat} (hapart : Apart inp)
    (hen : c.dd.enable = true) (h : Issues memories inp (writeDMADescriptor d c).accesses q u) :
    ∃ w e r, Cycles memories inp (d.ldescriptor % 1024) c q w e r u := by
  obtain ⟨r, hqr, hru, hreads, hpoll⟩ := h.polled
  have hwrites := h.writes
  rw [accesses_of_enable hen] at hwrites
  obtain ⟨w, e, hs, hlt, hafter⟩ := stores_of_writes hapart hwrites
  rw [Nat.add_sub_cancel' (by omega)] at hlt hafter
  have hpollLater : e < r := by
    by_contra hle
    -- what is polled is not written
    have hnil := hreads e (by omega) hlt
    rw [hs.enable] at hnil
    cases hnil
  exact ⟨w, e, r, hs.writes, hs.first, hs.lt, hpollLater, hru, hs.lastIndex, hs.enable, hs.between, hafter,
    hs.disabled, hpoll⟩

/-- The engine between two calls. -/
structure Waits (memories : Manager.Memories) (inp : Nat → Input P) (t : Nat) (a : Index) : Prop where
  calm : Calm memories inp t
  active : active memories inp t = a

variable {d : Driver} {c : Call} {q w e r u : Nat} {a : Index}

/-- Up to the enable the engine waits. -/
theorem Stores.calm {ldescriptor : BitVec 32} {v : Nat} (h : Stores inp ldescriptor c q w e)
    (hw : Waits memories inp q a) (hv : q ≤ v) (hve : v ≤ e) :
    Calm memories inp v ∧ active memories inp v = a := by
  obtain ⟨hcalm, hactive, -⟩ := hw.calm.stays hv (fun x hx hxv => h.disabled x hx (by omega))
  exact ⟨hcalm, hactive.trans hw.active⟩

/-- When the enable comes the descriptor of the call is the queue of the engine. -/
theorem Stores.queued {ldescriptor : BitVec 32} (h : Stores inp ldescriptor c q w e)
    (hw : Waits memories inp q a) (hld : ldescriptor.setWidth 10 = a)
    (hduring : ∀ t, e < t → Engine.Enabled memories inp e t → (inp t).host.writing = []) :
    Engine.Queued memories inp (w + 1) e 1 a := by
  have hqw := h.first
  have hwe := h.lt
  obtain ⟨hcalm, hactive⟩ := h.calm hw (show q ≤ w + 1 by omega) (show w + 1 ≤ e by omega)
  obtain ⟨hcalmw, -⟩ := h.calm hw hqw (show w ≤ e by omega)
  have hsetup : (mgr memories inp (w + 1)).setup = (mgr memories inp w).setup.access (inp w).host :=
    setup_step hcalmw.update
  have hport : ∀ f k, (TableField.port f (mgr memories inp (w + 1))).writes k = false := by
    intro f k
    have htable : (inp w).host.inTable = false := by
      rw [h.lastIndex]
      exact inTable_engineWrite (by decide) _ _
    rw [Engine.mgr_succ, TableField.port_step]
    exact Engine.nextPort_of_not_inTable htable _ _ k
  refine ⟨Nat.le_refl 1, by decide, hcalm.rest, hactive, ?_,
    fun k _ => hport .address k, fun k _ => hport .size k, hwe, ?_, ?_, ?_⟩
  · have hindex := congrArg Setup.lastIndexDescriptor hsetup
    rw [h.lastIndex, access_lastIndex] at hindex
    refine (hindex.trans ?_).trans (show a = a + BitVec.ofNat 10 (1 - 1) by simp)
    rw [← hld]
    exact BitVec.setWidth_setWidth_of_le _ (show 10 ≤ 64 by decide)
  · obtain ⟨-, -, hbit⟩ := control_fields c.dd true
    rw [h.enable, enables, writesControl_engineWrite]
    exact hbit
  · intro t ht hte
    exact HostAccess.spares_of_reads (h.between t (by omega) hte) _
  · intro t ht hon
    exact HostAccess.spares_of_reads (hduring t ht hon) _

theorem Cycles.queued {ldescriptor : BitVec 32} (h : Cycles memories inp ldescriptor c q w e r u)
    (hw : Waits memories inp q a) (hld : ldescriptor.setWidth 10 = a) :
    Engine.Queued memories inp (w + 1) e 1 a := by
  have hru := h.le
  obtain ⟨p, hrp, hpr, hoff⟩ := h.polled.clear
  refine h.stores.queued hw hld ?_
  intro t ht hon
  -- the poll bounds the time for which the engine is enabled
  have htp : t < p := by
    have her := h.poll
    by_contra hle
    have hp := hon p (by omega) (by omega)
    rw [hoff] at hp
    cases hp
  exact h.after t ht (by omega)

/-! ## What a call has done -/

/-- The operation that the engine has taken up with the enable is that of the call. -/
theorem Stores.config {ldescriptor : BitVec 32} (h : Stores inp ldescriptor c q w e)
    (hw : Waits memories inp q a) (hq : Engine.Queued memories inp (w + 1) e 1 a)
    (hslot : c.descriptor = a) : queueConfig (mgr memories inp (e + 1)) a = c.config := by
  have hqw := h.first
  have hwe := h.lt
  have hsetup := Engine.setup_after memories inp (t := q) (u := e + 1) (by omega) (by
    intro v hv hve
    exact (h.calm hw hv (by omega)).1.update)
  rw [h.writes, foldl_writes] at hsetup
  have hconfig := c.setup_config ldescriptor (mgr memories inp q).setup
  rw [← hsetup, hslot] at hconfig
  -- nothing is on its way to the descriptor any more
  have hkept := hq.kept.2
  have hin : Engine.InQueue a 1 a := ⟨0, by decide, by simp⟩
  have haddr := TableField.settled_of_not_writes .address (s := mgr memories inp (e + 1))
    (hkept.addressPort a hin)
  have hsize := TableField.settled_of_not_writes .size (s := mgr memories inp (e + 1))
    (hkept.sizePort a hin)
  rw [← hconfig, Setup.config]
  exact congrArg₂ (fun x y => ({ Engine.descriptor (mgr memories inp (e + 1)) with
    addrAtDescriptor := x, sizeAtDescriptor := y } : Rq.Config)) haddr.symm hsize.symm

/-- The end of the operation of a call, in cycle `l`. -/
structure Ends (memories : Manager.Memories) (inp : Nat → Input P) (c : Call) (a : Index)
    (q e l u : Nat) : Prop where
  enabling : (inp e).host.writesControl = true ∧ (inp e).host.din.getLsbD 0 = true
  lt : e + 1 < l
  le : l + 3 ≤ u
  position : ∀ v, e + 2 ≤ v → v ≤ l → Position (mgr memories inp v) a a true
  stops : (mgr memories inp (l + 1)).progress.stop = true
  disabled : (mgr memories inp (l + 2)).regs.enable = false
  index : active memories inp l = a
  ends : (Rq.st (Engine.rqRun memories inp) l).endOfOperation = true
  only : ∀ v, q ≤ v → v ≤ u →
    ((Rq.st (Engine.rqRun memories inp) v).endOfOperation = true → v = l)
  quiet : ∀ v, e < v → v < u → (inp v).host.writing = []
  calm : Calm memories inp (l + 3)
  next : active memories inp (l + 3) = a + 1
  performs : Rq.Performs (Engine.rqRun memories inp) [c.config] q u
  spans : ∃ start g, e + 1 < start ∧ Rq.Spans (Engine.rqRun memories inp) start g l

theorem Cycles.ends {ldescriptor : BitVec 32} (h : Cycles memories inp ldescriptor c q w e r u)
    (hw : Waits memories inp q a) (hld : ldescriptor.setWidth 10 = a) (hslot : c.descriptor = a) :
    ∃ l, Ends memories inp c a q e l u := by
  have hqw := h.first
  have hwe := h.lt
  have her := h.poll
  have hru := h.le
  have hq := h.queued hw hld
  have hin : Engine.InQueue a 1 a := ⟨0, by decide, by simp⟩
  have hcalm : ∀ v, q ≤ v → v ≤ e → Calm memories inp v := fun v hv hve => (h.stores.calm hw hv hve).1
  obtain ⟨hready, hidle1⟩ := hq.ready
  obtain ⟨p, hrp, hpr, hoff⟩ := h.polled.clear
  have hep : e + 2 < p := by
    by_contra hle
    have hon := hready.runs.enabled p (by omega) (by omega)
    rw [hoff] at hon
    cases hon
  obtain ⟨l, hlp, hp⟩ := hready.performed hq hin hep hoff
  obtain ⟨start, stop, hepisode, hsl, hstop, hperf⟩ := hp.operation hq hin (by omega) hready
  have hlast := hp.runs.eq_lastIndex hq
  obtain ⟨hrest, hactive, hidle⟩ := hp.runs.finish hq hp.ends hlast
  have hel := hp.le
  have hno : ∀ v, e < v → v < u → enables (inp v).host = false :=
    fun v hv hvu => Engine.enables_of_reads (h.after v hv hvu)
  have hrestAt : ∀ v, l + 2 ≤ v → v ≤ u → AtRest memories inp v := by
    intro v hv hvu
    exact (hrest.stays hv (fun x hx hxv => hno x (by omega) (by omega))).1
  have hend1 : (Rq.st (Engine.rqRun memories inp) (l + 1)).endOfOperation = false :=
    (Rq.endOfOperation_once hp.ends (Engine.rqRun memories inp l)).2
  have hrest3 := hrest.succ (hno (l + 2) (by omega) (by omega))
  have hupdate2 : updates memories inp (l + 2) = false := by rw [Engine.updates_succ, hend1]
  have henabling : (inp e).host.writesControl = true ∧ (inp e).host.din.getLsbD 0 = true := by
    have hboth := hq.enabling
    rwa [enables, Bool.and_eq_true] at hboth
  obtain ⟨-, -, -, -, hstops⟩ := hp.runs.position.last
    (i := mgrInput (Engine.sys memories inp l) (inp l))
    ((Engine.mgrInput_isEndOfOperation memories inp l).trans hp.ends)
    (hq.during l hp.runs.lt hp.runs.enabled).engine hlast
  refine ⟨l, henabling, by omega, by omega,
    fun v hv hvl => (hready.stays hq hin hp.first v hv hvl).position, hstops,
    hrest.enable, hp.runs.position.active, hp.ends, ?_, h.after,
    ⟨hrest3, ?_, ?_⟩, ?_, ?_, ?_⟩
  · intro v hqv hvu hend
    by_contra hne
    have hfalse : (Rq.st (Engine.rqRun memories inp) v).endOfOperation = false := by
      rcases Nat.lt_or_ge l v with hlt | hge
      · rcases Nat.eq_or_lt_of_le hlt with rfl | hlt2
        · exact hend1
        · exact (hrestAt v hlt2 hvu).noEnd
      · rcases Nat.lt_or_ge e v with hlt | hve
        · rcases Nat.eq_or_lt_of_le hlt with rfl | hlt2
          · exact Rq.endOfOperation_of_idle (hcalm e (by omega) (Nat.le_refl e)).rest.idle hidle1
          · exact hp.first v hlt2 (by omega)
        · exact (hcalm v hqv hve).rest.noEnd
    rw [hfalse] at hend
    cases hend
  · rw [Engine.updates_succ, hrest.noEnd]
  · rw [Engine.enaTime_succ, hupdate2]
  · rw [Engine.active_succ, hrest.noEnd]
    exact hactive
  · rw [h.stores.config hw hq hslot] at hperf
    -- idle up to the enable, the operation, and idle up to cycle `u`
    have hbefore := hperf.before (show q ≤ e + 2 by omega) (by
      intro v hv hve
      rcases Nat.lt_or_ge e v with hlt | hle
      · obtain rfl : v = e + 1 := by omega
        exact hidle1
      · exact (hcalm v hv hle).rest.idle)
    refine hbefore.append (.done (by omega) ?_)
    intro v hv hvu
    rcases Nat.lt_or_ge (l + 1) v with hlt | hle
    · exact (hrestAt v hlt hvu).idle
    · rcases Nat.eq_or_lt_of_le hv with rfl | hlt
      · exact hepisode.ended
      · exact hidle v (by omega) (by omega)
  · obtain ⟨g, hspans⟩ := Rq.Spans.of_ended (hepisode.idle start hepisode.le (Nat.le_refl _))
      (hepisode.busy _ (by omega) hepisode.lt) hsl hp.ends
      (fun v hv hvl => hp.first v (by have := hepisode.le; omega) hvl)
    exact ⟨start, g, hepisode.le, hspans⟩

namespace Ends

variable {l : Nat}

/-- Behind the operation the engine waits for the next call, at the next descriptor. -/
theorem waits (h : Ends memories inp c a q e l u) :
    Waits memories inp u (a + 1) ∧
      ∀ f j, statistic memories inp f u j = statistic memories inp f (l + 3) j := by
  have hlt := h.lt
  obtain ⟨hcalm, hactive, hstat⟩ := h.calm.stays h.le
    (fun v hv hvu => Engine.enables_of_reads (h.quiet v (by omega) hvu))
  exact ⟨⟨hcalm, hactive.trans h.next⟩, hstat⟩

/-- From the enable to the end of the operation the engine is enabled, so a cycle without is behind it. -/
theorem lt_of_disabled (h : Ends memories inp c a q e l u) {r : Nat} (her : e < r)
    (hoff : (mgr memories inp r).regs.enable = false) : l + 1 < r := by
  have hel := h.lt
  have hlu := h.le
  by_contra hle
  have hon : (mgr memories inp r).regs.enable = true := by
    obtain ⟨v, rfl⟩ : ∃ v, r = v + 1 := ⟨r - 1, by omega⟩
    rcases Nat.eq_or_lt_of_le (Nat.le_of_lt_succ her) with rfl | hlt
    · obtain ⟨hcontrol, hbit⟩ := h.enabling
      rw [Engine.mgr_succ, step_regs, nextRegisters, Engine.mgrInput_host, if_pos hcontrol]
      exact hbit
    · rcases Nat.lt_or_ge l (v + 1) with hlast | hbefore
      · -- `stop` is shown in the cycle behind the end
        obtain rfl : v = l := by omega
        have hpos := h.position v (by omega) (Nat.le_refl v)
        have hcontrol : (inp v).host.writesControl = false := by
          rw [HostAccess.writesControl,
            HostAccess.writesRegister_of_reads (h.quiet v (by omega) (by omega)) 0]
          rfl
        rw [Engine.mgr_succ, step_regs, nextRegisters, Engine.mgrInput_host,
          if_neg (by simp [hcontrol]), hpos.enable, hpos.stop]
        rfl
      · exact (h.position (v + 1) (by omega) hbefore).enable
  rw [hoff] at hon
  cases hon

/-- The statistics of the operation are in the slot behind its descriptor. -/
theorem stored (h : Ends memories inp c a q e l u) (f : StatField) :
    statistic memories inp f u (a + 1) = measurement memories inp f (l + 1) := by
  have hstored := Engine.statistic_of_ended memories inp f h.ends
  rw [h.index, nextIndex_eq] at hstored
  rw [h.waits.2, hstored]

/-- The other slots stay as they were before the call. -/
theorem frame (h : Ends memories inp c a q e l u) (hw : Waits memories inp q a) (hqe : q ≤ e)
    (f : StatField) {j : Index} (hj : j ≠ a + 1) :
    statistic memories inp f u j = statistic memories inp f q j := by
  have hlt := h.lt
  have hle := h.le
  have hfree : ∀ v, q ≤ v → v < l + 3 → Bar0.statisticsWrites (mgr memories inp v) j = false := by
    intro v hqv hvl
    have hquiet : (mgr memories inp v).statisticsPort.enaTime = false →
        Bar0.statisticsWrites (mgr memories inp v) j = false := by
      intro hport
      rw [Bar0.statisticsWrites, PortA.writes, statisticsAccess, hport]
      rfl
    -- an update before the call is out of the question, a later one belongs to the end
    rcases Nat.eq_or_lt_of_le hqv with rfl | hlt1
    · exact hquiet hw.calm.port
    · obtain ⟨x, rfl⟩ : ∃ x, v = x + 1 := ⟨v - 1, by omega⟩
      rcases Nat.eq_or_lt_of_le (Nat.le_of_lt_succ hlt1) with rfl | hlt2
      · exact hquiet hw.calm.update
      · obtain ⟨y, rfl⟩ : ∃ y, x = y + 1 := ⟨x - 1, by omega⟩
        rw [← Bool.not_eq_true, Engine.writes_after]
        rintro ⟨hend, rfl⟩
        obtain rfl := h.only y (by omega) (by omega) hend
        rw [h.index, nextIndex_eq] at hj
        exact hj rfl
  have hkept := interval_induction
    (p := fun v => statistic memories inp f v j = statistic memories inp f q j) (b := l + 3) rfl (by
      intro v hv hvl hstat
      rw [← hstat, statistic, Engine.mgr_succ]
      exact f.mem_of_not_writes (hfree v hv hvl))
  rw [h.waits.2]
  exact hkept (l + 3) (by omega) (Nat.le_refl _)

/-- The latency is the time from the free output register to the end. -/
theorem latency (h : Ends memories inp c a q e l u) {start g : Nat} (hstart : e + 1 < start)
    (hs : Rq.Spans (Engine.rqRun memories inp) start g l) :
    measurement memories inp .latency (l + 1) = BitVec.ofNat 64 (l - g) := by
  have hle := h.le
  have hregs : Engine.RegistersKept inp start l := by
    intro v hv hvl k _
    exact HostAccess.writesRegister_of_reads (h.quiet v (by omega) (by omega)) k
  rw [← (hregs.measured memories hs).current_eq, Engine.st_rqRun]
  rfl

end Ends

end Call

/-! ## The session -/

section Session

variable {P : Params} {memories : Manager.Memories} {inp : Nat → Input P}

/-- The calls `0, …, N - 1` of the program on fresh hardware, call `n` from cycle `q n` to cycle
`q (n + 1)`. -/
structure Session (memories : Manager.Memories) (inp : Nat → Input P) (calls : Nat → Call)
    (q : Nat → Nat) (N : Nat) : Prop where
  apart : Apart inp
  before : ∀ v, v < q 0 → enables (inp v).host = false
  issues : ∀ n, n < N → Issues memories inp (accesses calls n) (q n) (q (n + 1))

/-- The program starts each call at once and numbers its descriptors as the driver does. -/
structure Numbered (calls : Nat → Call) (N : Nat) : Prop where
  enable : ∀ n, n < N → (calls n).dd.enable = true
  index : ∀ n, n < N → (calls n).dd.index.toNat = n % 1024

/-- From cycle `t` on, until the engine is enabled again, the reads of slot `j` return these
statistics. -/
def Shows (memories : Manager.Memories) (inp : Nat → Input P) (t : Nat) (j : Index)
    (value : StatField → BitVec 64) : Prop :=
  ∀ (f : StatField) (r : Nat), t ≤ r → (∀ v, t ≤ v → v < r + 4 → enables (inp v).host = false) →
    (inp r).host.en = true → (∀ v, r ≤ v → v ≤ r + 3 → (inp v).host.word = f.word j) →
      (mgr memories inp (r + 4)).read.ack = true ∧ (mgr memories inp (r + 4)).dout = value f

variable {calls : Nat → Call} {q : Nat → Nat} {N : Nat}

/-- After reset the engine waits for the first call. -/
theorem Session.first (h : Session memories inp calls q N) : Waits memories inp (q 0) 0 := by
  have hreset : Calm memories inp 0 :=
    ⟨⟨rfl, rfl, rfl, rfl, rfl, rfl⟩, rfl, rfl⟩
  obtain ⟨hcalm, hactive, -⟩ := hreset.stays (Nat.zero_le (q 0)) (fun v _ hv => h.before v hv)
  exact ⟨hcalm, hactive.trans rfl⟩

/-- The driver names the descriptor of the call as the last one. -/
theorem lastIndex_eq (calls : Nat → Call) (n : Nat) :
    ((sys calls n).driver.ldescriptor % 1024).setWidth 10 = BitVec.ofNat 10 n := by
  obtain ⟨hld, -⟩ := sys_counters calls n
  have h1024 : (1024 : BitVec 32).toNat = 1024 := rfl
  apply BitVec.eq_of_toNat_eq
  rw [hld, BitVec.toNat_setWidth, BitVec.toNat_umod, BitVec.toNat_ofNat, BitVec.toNat_ofNat, h1024]
  omega

theorem Numbered.descriptor (ho : Numbered calls N) {n : Nat} (hn : n < N) :
    (calls n).descriptor = BitVec.ofNat 10 n := by
  apply BitVec.eq_of_toNat_eq
  rw [Call.descriptor, ho.index n hn, BitVec.toNat_ofNat, BitVec.toNat_ofNat]
  omega

/-- One call. -/
theorem Session.call (h : Session memories inp calls q N) (ho : Numbered calls N) {n : Nat} (hn : n < N)
    (hw : Waits memories inp (q n) (BitVec.ofNat 10 n)) :
    ∃ e l, q n ≤ e ∧ Ends memories inp (calls n) (BitVec.ofNat 10 n) (q n) e l (q (n + 1)) := by
  obtain ⟨w, e, r, hcycles⟩ := (h.issues n hn).cycles h.apart (ho.enable n hn)
  obtain ⟨l, hends⟩ := hcycles.ends hw (lastIndex_eq calls n) (ho.descriptor hn)
  have hqw := hcycles.first
  have hwe := hcycles.lt
  exact ⟨e, l, by omega, hends⟩

/-- Before each call the engine waits at its descriptor. -/
theorem Session.waits (h : Session memories inp calls q N) (ho : Numbered calls N) {n : Nat}
    (hn : n ≤ N) : Waits memories inp (q n) (BitVec.ofNat 10 n) := by
  induction n with
  | zero =>
      exact h.first
  | succ n ih =>
      obtain ⟨e, l, -, hends⟩ := h.call ho (by omega) (ih (by omega))
      rw [BitVec.ofNat_add]
      exact hends.waits.1

/-- What a slot holds is what its reads return. -/
theorem Waits.shows {t : Nat} {a : Index} (h : Waits memories inp t a) (j : Index) :
    Shows memories inp t j (fun f => statistic memories inp f t j) := by
  intro f r htr hno hen hword
  obtain ⟨hcalm, -, hstat⟩ := h.calm.stays (u := r + 1) (by omega)
    (fun v hv hvr => hno v hv (by omega))
  obtain ⟨hack, hdout⟩ := f.read_returns (m := mgr memories inp)
    (fun v => Engine.mgr_succ memories inp v) (r := r) hen hword
  refine ⟨hack, ?_⟩
  -- the engine writes no statistics while port B reads
  have hfree : Bar0.statisticsWrites (mgr memories inp (r + 1)) j = false := by
    rw [Bar0.statisticsWrites, PortA.writes, statisticsAccess, hcalm.port]
    rfl
  rw [hdout, StatField.content, hfree]
  exact hstat f j

/-- The statistics of call `k` stay in their slot for the next 1023 calls. -/
theorem Session.kept (h : Session memories inp calls q N) (ho : Numbered calls N) (f : StatField)
    {k n : Nat} (hkn : k + 1 ≤ n) (hnk : n ≤ k + 1024) (hn : n ≤ N) :
    statistic memories inp f (q n) (BitVec.ofNat 10 (k + 1)) =
      statistic memories inp f (q (k + 1)) (BitVec.ofNat 10 (k + 1)) := by
  induction n, hkn using Nat.le_induction with
  | base =>
      rfl
  | succ n hkn ih =>
      rw [← ih (by omega) (by omega)]
      have hw := h.waits ho (n := n) (by omega)
      obtain ⟨e, l, hqe, hends⟩ := h.call ho (by omega) hw
      refine hends.frame hw hqe f ?_
      intro heq
      have hone : (1 : Index) = BitVec.ofNat 10 1 := rfl
      rw [hone, ← BitVec.ofNat_add] at heq
      have hnat := congrArg BitVec.toNat heq
      rw [BitVec.toNat_ofNat, BitVec.toNat_ofNat] at hnat
      omega

/-- For the next 1023 calls the statistics of a call are read behind its descriptor. -/
theorem Session.shows_call (h : Session memories inp calls q N) (ho : Numbered calls N) {k n : Nat}
    (hkn : k < n) (hnk : n ≤ k + 1024) (hn : n ≤ N) {e l : Nat}
    (hends : Ends memories inp (calls k) (BitVec.ofNat 10 k) (q k) e l (q (k + 1))) :
    Shows memories inp (q n) (BitVec.ofNat 10 (k + 1))
      (fun f => measurement memories inp f (l + 1)) := by
  have hshows := (h.waits ho hn).shows (BitVec.ofNat 10 (k + 1))
  intro f r htr hno hen hword
  obtain ⟨hack, hdout⟩ := hshows f r htr hno hen hword
  have hstored := hends.stored f
  have hone : (1 : Index) = BitVec.ofNat 10 1 := rfl
  rw [hone, ← BitVec.ofNat_add] at hstored
  exact ⟨hack, (hdout.trans (h.kept ho f hkn hnk hn)).trans hstored⟩

/-- The engine performs the operations of the calls and nothing else. -/
theorem Session.performs (h : Session memories inp calls q N) (ho : Numbered calls N) {n : Nat}
    (hn : n ≤ N) :
    Rq.Performs (Engine.rqRun memories inp) ((List.range n).map fun k => (calls k).config) 0 (q n) := by
  induction n with
  | zero =>
      refine .done (Nat.zero_le _) ?_
      have hreset : Calm memories inp 0 := ⟨⟨rfl, rfl, rfl, rfl, rfl, rfl⟩, rfl, rfl⟩
      intro v _ hv
      exact (hreset.stays (Nat.zero_le v) (fun x _ hx => h.before x (by omega))).1.rest.idle
  | succ n ih =>
      obtain ⟨e, l, -, hends⟩ := h.call ho hn (h.waits ho (by omega))
      rw [List.range_succ, List.map_append]
      exact (ih (by omega)).append hends.performs

/-- The engine performs the operations of the calls and nothing else, and the statistics of each call
are read behind its descriptor, its latency among them. -/
theorem session_measured (h : Session memories inp calls q N) (ho : Numbered calls N) {n : Nat}
    (hn : n ≤ N) :
    Rq.Performs (Engine.rqRun memories inp) ((List.range n).map fun k => (calls k).config) 0 (q n) ∧
      ∀ k, k < n → n ≤ k + 1024 → ∃ start g l, q k < start ∧ l < q (k + 1) ∧
        Rq.Spans (Engine.rqRun memories inp) start g l ∧
        measurement memories inp .latency (l + 1) = BitVec.ofNat 64 (l - g) ∧
        Shows memories inp (q n) (BitVec.ofNat 10 (k + 1))
          (fun f => measurement memories inp f (l + 1)) := by
  refine ⟨h.performs ho hn, ?_⟩
  intro k hkn hnk
  obtain ⟨e, l, hqe, hends⟩ := h.call ho (show k < N by omega) (h.waits ho (by omega))
  obtain ⟨start, g, hstart, hspans⟩ := hends.spans
  have hle := hends.le
  refine ⟨start, g, l, by omega, by omega, hspans, hends.latency hstart hspans, ?_⟩
  exact h.shows_call ho hkn hnk hn hends

end Session

/-! ## Two iterations -/

open Engine (quiet noAccess emptyMemories)
open Rq (pcieController)

/-- Iteration `n` of a benchmark of single writes of 64 bytes. -/
def singleWrite (n : Nat) : Call where
  dd := { firstSlot.dd with index := BitVec.ofNat 64 (n % 1024) }
  ioAddress := 0x100000
  index_lt := by
    rw [BitVec.toNat_ofNat]
    omega

/-- A host that issues an access every other cycle, polls after 26 cycles and calls again after 30. -/
def sessionRun (t : Nat) : Input pcieController :=
  { quiet with
    c2sTvalid := true
    host :=
      if 26 ≤ t % 30 then { en := decide (t % 30 = 26), addr := 0x200, din := 0, we := 0 }
      else if t % 2 = 0 then
        (((singleWrite (t / 30)).writes (BitVec.ofNat 32 (t / 30 % 1024)))[t % 30 / 2]?).getD noAccess
      else noAccess }

theorem sessionRun_poll {t : Nat} (h : 26 ≤ t % 30) : (sessionRun t).host =
    { en := decide (t % 30 = 26), addr := 0x200, din := 0, we := 0 } := by
  simp only [sessionRun, if_pos h]

theorem sessionRun_apart : Apart sessionRun := by
  intro t hen
  have heven : t % 2 = 0 := by
    by_contra hodd
    by_cases hpoll : 26 ≤ t % 30
    · rw [sessionRun_poll hpoll] at hen
      have := of_decide_eq_true hen
      omega
    · simp only [sessionRun, if_neg hpoll, if_neg hodd] at hen
      cases hen
  by_cases hpoll : 26 ≤ (t + 1) % 30
  · rw [sessionRun_poll hpoll]
    exact decide_eq_false (by omega)
  · simp only [sessionRun, if_neg hpoll, if_neg (show ¬ (t + 1) % 2 = 0 by omega)]
    rfl

theorem sessionRun_session :
    Session emptyMemories sessionRun singleWrite (fun n => 30 * n) 2 where
  apart := sessionRun_apart
  before v hv := absurd hv (Nat.not_lt_zero v)
  issues n hn := by
    have hreads : ∀ v, 30 * n + 26 ≤ v → v < 30 * (n + 1) →
        (sessionRun v).host.writing = [] ∧ (sessionRun v).host.word = engineTableOffset := by
      intro v hv hvn
      rw [sessionRun_poll (by omega), HostAccess.writing, HostAccess.word]
      exact ⟨by simp, rfl⟩
    have hpoll : (sessionRun (30 * n + 26)).host.en = true := by
      rw [sessionRun_poll (by omega)]
      exact decide_eq_true (by omega)
    have hclear : (mgr emptyMemories sessionRun (30 * n + 26 + 4)).dout.getLsbD 0 = false := by
      obtain rfl | rfl : n = 0 ∨ n = 1 := by omega
      · decide +kernel
      · decide +kernel
    refine ⟨?_, 30 * n + 26, by omega, by omega, fun v hv hvn => (hreads v hv hvn).1, hpoll,
      fun v hv hvn => (hreads v hv (by omega)).2, hclear⟩
    obtain rfl | rfl : n = 0 ∨ n = 1 := by omega
    · decide +kernel
    · decide +kernel

theorem singleWrite_numbered : Numbered singleWrite 2 where
  enable _ _ := rfl
  index n hn := by
    obtain rfl | rfl : n = 0 ∨ n = 1 := by omega
    · rfl
    · rfl

/-- Both iterations have their operation, and after the second one the statistics of the first are
still in slot 1. -/
theorem session_measured_two :
    Rq.Performs (Engine.rqRun emptyMemories sessionRun) [(singleWrite 0).config, (singleWrite 1).config]
        0 60 ∧
      ∃ start g l, 0 < start ∧ l < 30 ∧
        Rq.Spans (Engine.rqRun emptyMemories sessionRun) start g l ∧
        measurement emptyMemories sessionRun .latency (l + 1) = BitVec.ofNat 64 (l - g) ∧
        Shows emptyMemories sessionRun 60 1
          (fun f => measurement emptyMemories sessionRun f (l + 1)) := by
  obtain ⟨hperforms, hcalls⟩ := session_measured sessionRun_session singleWrite_numbered (Nat.le_refl 2)
  exact ⟨hperforms, hcalls 0 (by decide) (by decide)⟩

end Host
end PcieBench
