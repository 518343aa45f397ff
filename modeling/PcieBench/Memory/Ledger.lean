import Mathlib.Algebra.Order.Group.Multiset
import Mathlib.Data.Fintype.Basic

/-!
# Resources that are acquired and released

A ledger keeps all acquisitions and all releases of resources as multisets, so that a resource may be
acquired again.  A ledger holds some resources if it has released each of the other ones once; the
holder may keep a table of what it holds, in which every slot has a valid bit.
-/

namespace PcieBench
namespace Memory

/-- The acquisitions and the releases so far. -/
structure Ledger (α : Type) where
  acquired : Multiset α
  released : Multiset α

namespace Ledger

variable {α : Type} {L : Ledger α} {held : Multiset α}

def empty : Ledger α := ⟨0, 0⟩

/-- What is acquired and not released. -/
def live [DecidableEq α] (L : Ledger α) : Multiset α := L.acquired - L.released

/-- The released resources and the held ones are the acquired ones. -/
def Holds (L : Ledger α) (held : Multiset α) : Prop := L.acquired = L.released + held

theorem holds_empty : (empty : Ledger α).Holds 0 := by
  simp [Holds, empty]

/-- The held resources are the live ones, and nothing is released that was not acquired. -/
theorem holds_iff [DecidableEq α] : L.Holds held ↔ L.live = held ∧ L.released ≤ L.acquired := by
  unfold Holds live
  constructor
  · intro h
    rw [h, add_tsub_cancel_left]
    exact ⟨rfl, Multiset.le_add_right _ _⟩
  · rintro ⟨hlive, hle⟩
    rw [← hlive, Multiset.add_comm, Multiset.sub_add_cancel hle]

/-- Some of the held resources are released. -/
theorem Holds.release {gone : Multiset α} (h : L.Holds (gone + held)) :
    Holds ⟨L.acquired, L.released + gone⟩ held := by
  show L.acquired = L.released + gone + held
  rw [Multiset.add_assoc]
  exact h

end Ledger

/-! ## Tables with a valid bit -/

section Slots

variable {α : Type} {n : Nat}

/-- The entries with a valid bit, in the order of the table. -/
def entries (valid : Fin n → Bool) (entry : Fin n → α) : List α :=
  ((List.finRange n).filter valid).map entry

@[simp] theorem entries_false (entry : Fin n → α) : entries (fun _ => false) entry = [] := by
  simp [entries]

/-- The entries of the other slots. -/
def otherEntries (valid : Fin n → Bool) (entry : Fin n → α) (i : Fin n) : Multiset α :=
  (Finset.univ.filter (fun k => valid k = true ∧ k ≠ i)).val.map entry

theorem coe_entries (valid : Fin n → Bool) (entry : Fin n → α) :
    (entries valid entry : Multiset α) =
      (Finset.univ.filter (fun k => valid k = true)).val.map entry := by
  rw [entries, ← Multiset.map_coe, Finset.filter_val, Fin.univ_def]
  congr 1
  rw [Multiset.filter_coe]
  simp

/-- The entries are those of a slot and of the other ones. -/
theorem entries_split (valid : Fin n → Bool) (entry : Fin n → α) (i : Fin n) :
    (entries valid entry : Multiset α) =
      (if valid i then {entry i} else 0) + otherEntries valid entry i := by
  rw [coe_entries, otherEntries]
  split
  · rename_i hvalid
    have hinsert : Finset.univ.filter (fun k => valid k = true) =
        insert i (Finset.univ.filter (fun k => valid k = true ∧ k ≠ i)) := by
      ext k
      by_cases hk : k = i
      · simp [hk, hvalid]
      · simp [hk]
    rw [hinsert, Finset.insert_val_of_notMem (by simp), Multiset.map_cons, Multiset.singleton_add]
  · rename_i hvalid
    have hsame : Finset.univ.filter (fun k => valid k = true) =
        Finset.univ.filter (fun k => valid k = true ∧ k ≠ i) := by
      ext k
      by_cases hk : k = i
      · simp [hk, hvalid]
      · simp [hk]
    rw [hsame, zero_add]

/-- A slot that is filled does not change the other ones. -/
theorem entries_fill (valid : Fin n → Bool) (entry : Fin n → α) (i : Fin n) (x : α) :
    (entries (Function.update valid i true) (Function.update entry i x) : Multiset α) =
      {x} + otherEntries valid entry i := by
  have hothers : otherEntries (Function.update valid i true) (Function.update entry i x) i =
      otherEntries valid entry i := by
    have hfilter : Finset.univ.filter (fun k => Function.update valid i true k = true ∧ k ≠ i) =
        Finset.univ.filter (fun k => valid k = true ∧ k ≠ i) := by
      refine Finset.filter_congr ?_
      intro k _
      refine and_congr_left ?_
      intro hk
      rw [Function.update_of_ne hk]
    rw [otherEntries, otherEntries, hfilter]
    refine Multiset.map_congr rfl ?_
    intro k hk
    have hne : k ≠ i := (Finset.mem_filter.1 (Finset.mem_def.2 hk)).2.2
    exact Function.update_of_ne hne _ _
  rw [entries_split _ _ i, hothers]
  simp

end Slots

end Memory
end PcieBench
