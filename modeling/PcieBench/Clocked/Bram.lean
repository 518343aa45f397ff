import Mathlib.Logic.Function.Basic
import Mathlib.Tactic.IntervalCases

/-!
# Block memories with byte enables

A true dual-port memory of 64-bit words.  Port A reads and writes with byte enables and shows the
word after its own write (`WRITE_FIRST`), port B only reads and has an output register: its data is
the word addressed two cycles earlier.  When port A writes the word that port B reads in the same
cycle, what port B reads is not determined; the memory takes that value from its environment.
-/

namespace PcieBench
namespace Clocked

/-! ## Byte enables -/

/-- Eight ones where the byte is enabled. -/
def byteLane (we : BitVec 8) (k : Nat) : BitVec 8 := if we.getLsbD k then 0xff else 0

/-- One bit for each bit of an enabled byte. -/
def byteMask (we : BitVec 8) : BitVec 64 :=
  byteLane we 7 ++ byteLane we 6 ++ byteLane we 5 ++ byteLane we 4 ++
    byteLane we 3 ++ byteLane we 2 ++ byteLane we 1 ++ byteLane we 0

/-- The word `old` with the enabled bytes of `new`. -/
def writeBytes (we : BitVec 8) (old new : BitVec 64) : BitVec 64 :=
  (new &&& byteMask we) ||| (old &&& ~~~ byteMask we)

theorem byteMask_zero : byteMask 0#8 = 0#64 := by decide

/-- Without a byte enabled nothing is written. -/
@[simp] theorem writeBytes_zero (old new : BitVec 64) : writeBytes 0#8 old new = old := by
  have hall : ~~~(0#64) = BitVec.allOnes 64 := rfl
  rw [writeBytes, byteMask_zero, hall, BitVec.and_allOnes]
  simp

/-- With every byte enabled the word is replaced. -/
theorem writeBytes_all (old new : BitVec 64) : writeBytes 0xff#8 old new = new := by
  have hmask : byteMask 0xff#8 = BitVec.allOnes 64 := by decide
  have hnone : ~~~(BitVec.allOnes 64) = 0#64 := rfl
  rw [writeBytes, hmask, hnone, BitVec.and_allOnes]
  simp

/-- Byte `b` of a word. -/
def byte (x : BitVec 64) (b : Nat) : BitVec 8 := x.extractLsb' (8 * b) 8

theorem getLsbD_byteLane (we : BitVec 8) (k : Nat) {j : Nat} (hj : j < 8) :
    (byteLane we k).getLsbD j = we.getLsbD k := by
  unfold byteLane
  cases we.getLsbD k with
  | true =>
      interval_cases j <;> rfl
  | false =>
      simp

theorem getLsbD_byteMask (we : BitVec 8) {i : Nat} (hi : i < 64) :
    (byteMask we).getLsbD i = we.getLsbD (i / 8) := by
  obtain ⟨b, j, hij, hj⟩ : ∃ b j, i = 8 * b + j ∧ j < 8 := ⟨i / 8, i % 8, by omega, by omega⟩
  have hb : i / 8 = b := by omega
  have hlt : b < 8 := by omega
  rw [hb, hij]
  clear hb hij hi
  -- the lane of each byte
  interval_cases b <;>
    simp (disch := omega) only [byteMask, BitVec.getLsbD_append, if_neg, if_pos] <;>
    rw [getLsbD_byteLane _ _ (by omega)]

/-- Bit by bit: an enabled byte comes from the new word, any other one from the old word. -/
theorem getLsbD_writeBytes (we : BitVec 8) (old new : BitVec 64) {i : Nat} (hi : i < 64) :
    (writeBytes we old new).getLsbD i =
      if we.getLsbD (i / 8) then new.getLsbD i else old.getLsbD i := by
  rw [writeBytes, BitVec.getLsbD_or, BitVec.getLsbD_and, BitVec.getLsbD_and, BitVec.getLsbD_not,
    getLsbD_byteMask we hi]
  cases we.getLsbD (i / 8) <;> simp [hi]

theorem byte_writeBytes (we : BitVec 8) (old new : BitVec 64) {b : Nat} (hb : b < 8) :
    byte (writeBytes we old new) b = if we.getLsbD b then byte new b else byte old b := by
  apply BitVec.eq_of_getLsbD_eq
  intro j hj
  have hlane : (8 * b + j) / 8 = b := by omega
  have hbit := getLsbD_writeBytes we old new (show 8 * b + j < 64 by omega)
  rw [hlane] at hbit
  cases hwe : we.getLsbD b <;> simp [byte, hbit, hwe]

/-! ## Memories of bytes -/

/-- A memory of bytes: byte `b` of the word at `a`. -/
abbrev ByteMemory (α : Type) := α → Nat → BitVec 8

/-- A write of the enabled bytes of one word. -/
def ByteMemory.store {α : Type} [DecidableEq α] (m : ByteMemory α) (addr : α) (we : BitVec 8)
    (din : BitVec 64) : ByteMemory α :=
  fun a b => if addr = a ∧ we.getLsbD b = true then byte din b else m a b

/-! ## The memory -/

/-- The access of port A. -/
structure PortA (α : Type) where
  en : Bool
  we : BitVec 8
  addr : α
  din : BitVec 64

/-- The words and the output registers. -/
structure Bram (α : Type) where
  mem : α → BitVec 64
  douta : BitVec 64
  latchb : BitVec 64
  doutb : BitVec 64

namespace PortA

variable {α : Type} [DecidableEq α]

/-- Port A writes the word at `k`. -/
def writes (p : PortA α) (k : α) : Bool := p.en && p.we != 0 && decide (p.addr = k)

end PortA

namespace Bram

variable {α : Type} [DecidableEq α]

/-- One clock edge: the access `p` of port A and a read of `addrb` at port B, which finds
`undetermined` when the two collide. -/
def step (b : Bram α) (p : PortA α) (addrb : α) (undetermined : BitVec 64) : Bram α where
  mem := if p.en then Function.update b.mem p.addr (writeBytes p.we (b.mem p.addr) p.din) else b.mem
  douta := if p.en then writeBytes p.we (b.mem p.addr) p.din else b.douta
  latchb := if p.writes addrb then undetermined else b.mem addrb
  doutb := b.latchb

variable (b : Bram α) (p : PortA α) (addrb : α) (undetermined : BitVec 64)

@[simp] theorem step_doutb : (b.step p addrb undetermined).doutb = b.latchb := rfl

/-- A word that port A does not write stays as it is. -/
theorem step_mem_of_not_writes {k : α} (h : p.writes k = false) :
    (b.step p addrb undetermined).mem k = b.mem k := by
  simp only [step]
  split
  · rename_i hen
    by_cases hk : p.addr = k
    · subst hk
      have hwe : p.we = 0#8 := by simpa [PortA.writes, hen] using h
      rw [Function.update_self, hwe, writeBytes_zero]
    · rw [Function.update_of_ne (Ne.symm hk)]
  · rfl

/-- Without a collision port B reads the word. -/
theorem step_latchb_of_not_writes (h : p.writes addrb = false) :
    (b.step p addrb undetermined).latchb = b.mem addrb := by
  simp [step, h]

end Bram

end Clocked
end PcieBench
