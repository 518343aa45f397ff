import Mathlib.Data.BitVec
import Mathlib.Logic.Function.Basic

/-!
# Stores to a memory

A memory maps addresses of `w` bits to cells.  An overlay writes cells to consecutive addresses and may
leave some of them out; a store is an overlay that leaves none out.  Stores to consecutive ranges are one
store, a store hides an earlier one to the same range, and the cells outside its range keep their
contents.
-/

namespace PcieBench
namespace Memory

/-- A memory with addresses of `w` bits. -/
abbrev Image (w : Nat) (α : Type) := BitVec w → α

section Store

variable {w : Nat} {α : Type}

/-- A cell that is there is written to `a`. -/
def Image.put (m : Image w α) (a : BitVec w) : Option α → Image w α
  | some x => Function.update m a x
  | none => m

/-- Cells are written to the addresses from `a` on, but for those that are left out. -/
def overlay (m : Image w α) (a : BitVec w) : List (Option α) → Image w α
  | [] => m
  | c :: cs => overlay (m.put a c) (a + 1) cs

/-- Cells are written to the addresses from `a` on. -/
def store (m : Image w α) (a : BitVec w) (l : List α) : Image w α := overlay m a (l.map some)

@[simp] theorem store_nil (m : Image w α) (a : BitVec w) : store m a [] = m := rfl

theorem store_cons (m : Image w α) (a : BitVec w) (x : α) (l : List α) :
    store m a (x :: l) = store (Function.update m a x) (a + 1) l := rfl

theorem ofNat_succ (w n : Nat) : BitVec.ofNat w (n + 1) = 1 + BitVec.ofNat w n := by
  rw [Nat.add_comm, BitVec.ofNat_add]
  rfl

/-- Two stores to ranges that follow each other are one. -/
theorem store_append (m : Image w α) (a : BitVec w) (l l' : List α) :
    store m a (l ++ l') = store (store m a l) (a + BitVec.ofNat w l.length) l' := by
  induction l generalizing m a with
  | nil =>
      simp
  | cons x l ih =>
      rw [List.cons_append, store_cons, store_cons, ih, List.length_cons, ofNat_succ, BitVec.add_assoc]

/-- An address outside the range keeps its cell. -/
theorem store_outside (m : Image w α) (a : BitVec w) (l : List α) {x : BitVec w}
    (hx : ∀ k, k < l.length → x ≠ a + BitVec.ofNat w k) : store m a l x = m x := by
  induction l generalizing m a with
  | nil =>
      rfl
  | cons y l ih =>
      have hfirst : x ≠ a := by
        simpa using hx 0 (by simp)
      rw [store_cons, ih, Function.update_of_ne hfirst]
      intro k hk
      have hnext := hx (k + 1) (by simpa using hk)
      rwa [ofNat_succ, ← BitVec.add_assoc] at hnext

theorem add_ofNat_inj (a : BitVec w) {j k : Nat} (hj : j < 2 ^ w) (hk : k < 2 ^ w) :
    a + BitVec.ofNat w j = a + BitVec.ofNat w k ↔ j = k := by
  rw [BitVec.add_right_inj, ← BitVec.toNat_inj, BitVec.toNat_ofNat, BitVec.toNat_ofNat,
    Nat.mod_eq_of_lt hj, Nat.mod_eq_of_lt hk]

/-- An address of the range has the cell that was stored there, if the range does not wrap onto
itself. -/
theorem store_inside (m : Image w α) (a : BitVec w) {l : List α} (hlen : l.length ≤ 2 ^ w) {k : Nat}
    (hk : k < l.length) : store m a l (a + BitVec.ofNat w k) = l[k] := by
  obtain ⟨front, x, rest, rfl, hfront⟩ : ∃ front x rest, l = front ++ x :: rest ∧ front.length = k :=
    ⟨l.take k, l[k], l.drop (k + 1), by simp, by simp; omega⟩
  subst hfront
  rw [store_append, store_cons, store_outside, Function.update_self]
  · simp
  · intro j hj
    simp only [List.length_append, List.length_cons] at hlen
    rw [BitVec.add_assoc, BitVec.add_assoc, ← ofNat_succ, ← BitVec.ofNat_add,
      Ne, add_ofNat_inj a (by omega) (by omega)]
    omega

/-- What a store leaves at an address. -/
theorem store_apply (m : Image w α) (a : BitVec w) {l : List α} (hlen : l.length ≤ 2 ^ w)
    (x : BitVec w) : store m a l x = (l[(x - a).toNat]?).getD (m x) := by
  have hx : a + BitVec.ofNat w (x - a).toNat = x := by
    rw [BitVec.ofNat_toNat, BitVec.setWidth_eq, BitVec.add_comm, BitVec.sub_add_cancel]
  rcases Nat.lt_or_ge (x - a).toNat l.length with hin | hout
  · have hstore := store_inside m a hlen hin
    rw [hx] at hstore
    rw [hstore, List.getElem?_eq_getElem hin, Option.getD_some]
  · rw [List.getElem?_eq_none hout, Option.getD_none, store_outside]
    rintro k hk heq
    rw [← hx, add_ofNat_inj a (x - a).isLt (by omega)] at heq
    omega

/-- A store hides an earlier one to the same range. -/
theorem store_store (m : Image w α) (a : BitVec w) {l l' : List α} (hsame : l.length = l'.length)
    (hlen : l'.length ≤ 2 ^ w) : store (store m a l) a l' = store m a l' := by
  funext x
  rw [store_apply _ a hlen, store_apply m a hlen, store_apply m a (by omega)]
  rcases Nat.lt_or_ge (x - a).toNat l'.length with hin | hout
  · rw [List.getElem?_eq_getElem hin, Option.getD_some, Option.getD_some]
  · rw [List.getElem?_eq_none hout, List.getElem?_eq_none (by omega), Option.getD_none, Option.getD_none]

end Store

/-! ## Sequences of stores -/

section StoreAll

variable {w : Nat} {α : Type}

/-- A sequence of stores, the first one first. -/
def storeAll (m : Image w α) (stores : List (BitVec w × List α)) : Image w α :=
  stores.foldl (fun m s => store m s.1 s.2) m

@[simp] theorem storeAll_nil (m : Image w α) : storeAll m [] = m := rfl

theorem storeAll_cons (m : Image w α) (s : BitVec w × List α) (stores : List (BitVec w × List α)) :
    storeAll m (s :: stores) = storeAll (store m s.1 s.2) stores := rfl

theorem storeAll_append (m : Image w α) (stores stores' : List (BitVec w × List α)) :
    storeAll m (stores ++ stores') = storeAll (storeAll m stores) stores' :=
  List.foldl_append

/-- Of stores to the same range only the last one is seen. -/
theorem storeAll_same (m : Image w α) (a : BitVec w) (ls : List (List α)) {n : Nat} (hn : n ≤ 2 ^ w)
    (hls : ∀ l ∈ ls, l.length = n) {last : List α} (hlast : last.length = n) :
    storeAll m ((ls ++ [last]).map (fun l => (a, l))) = store m a last := by
  induction ls generalizing m with
  | nil =>
      rfl
  | cons l ls ih =>
      have hl := hls l List.mem_cons_self
      rw [List.cons_append, List.map_cons, storeAll_cons,
        ih _ (fun l' hl' => hls l' (List.mem_cons_of_mem _ hl')),
        store_store m a (hl.trans hlast.symm) (by omega)]

end StoreAll

end Memory
end PcieBench
