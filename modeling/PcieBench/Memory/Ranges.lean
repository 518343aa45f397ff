import PcieBench.Clocked.Ring

/-!
# Ranges of a ring, handed out in order

A ring of `n` items from which ranges are taken at one end and given back at the other.  The positions
of the two ends are counted without wrapping: `Chain n first l last` says that the ranges `l`, oldest
first, lie one behind the other from `first` to `last` and that none of them wraps.
-/

namespace PcieBench
namespace Memory

/-- The items `start`, `start + 1`, …, `start + size - 1`. -/
structure Range where
  start : Int
  size : Nat
  deriving DecidableEq, Repr

namespace Range

/-- The range lies in `[0, n)`. -/
def Inside (n : Nat) (r : Range) : Prop := 0 ≤ r.start ∧ r.start + r.size ≤ n

instance (n : Nat) (r : Range) : Decidable (r.Inside n) := inferInstanceAs (Decidable (_ ∧ _))

/-- No item is in both ranges. -/
def Disjoint (r q : Range) : Prop :=
  ∀ x : Int, r.start ≤ x → x < r.start + r.size → ¬ (q.start ≤ x ∧ x < q.start + q.size)

end Range

/-- The ranges `l` follow each other from position `first` to position `last`. -/
def Chain (n : Nat) (first : Nat) : List Range → Nat → Prop
  | [], last => first = last
  | r :: l, last => r.start = (first % n : Nat) ∧ first % n + r.size ≤ n ∧
      Chain n (first + r.size) l last

namespace Chain

variable {n : Nat}

theorem le {first last : Nat} {l : List Range} (h : Chain n first l last) : first ≤ last := by
  induction l generalizing first with
  | nil =>
      exact Nat.le_of_eq h
  | cons r l ih =>
      have := ih h.2.2
      omega

/-- A range taken behind the last one. -/
theorem snoc {first last : Nat} {l : List Range} (h : Chain n first l last) {r : Range}
    (hstart : r.start = (last % n : Nat)) (hfit : last % n + r.size ≤ n) :
    Chain n first (l ++ [r]) (last + r.size) := by
  induction l generalizing first with
  | nil =>
      have hlast : first = last := h
      subst hlast
      exact ⟨hstart, hfit, rfl⟩
  | cons q l ih =>
      exact ⟨h.1, h.2.1, ih h.2.2⟩

theorem inside {first last : Nat} {l : List Range} (h : Chain n first l last) :
    ∀ r ∈ l, r.Inside n := by
  induction l generalizing first with
  | nil =>
      intro r hr
      cases hr
  | cons q l ih =>
      intro r hr
      rcases List.mem_cons.mp hr with rfl | hr
      · obtain ⟨hstart, hfit, -⟩ := h
        rw [Range.Inside, hstart]
        omega
      · exact ih h.2.2 r hr

/-- Where a range of the chain lies, in positions that do not wrap. -/
theorem position {first last : Nat} {l : List Range} (h : Chain n first l last) {r : Range}
    (hr : r ∈ l) : ∃ u, first ≤ u ∧ u + r.size ≤ last ∧ r.start = (u % n : Nat) ∧
      u % n + r.size ≤ n := by
  induction l generalizing first with
  | nil =>
      cases hr
  | cons q l ih =>
      obtain ⟨hstart, hfit, hrest⟩ := h
      rcases List.mem_cons.mp hr with rfl | hr
      · exact ⟨first, Nat.le_refl _, hrest.le, hstart, hfit⟩
      · obtain ⟨u, hu, hlast, hplace⟩ := ih hrest hr
        exact ⟨u, by omega, hlast, hplace⟩

/-- The ranges of a chain that is shorter than a turn have no item in common. -/
theorem pairwise_disjoint {first last : Nat} {l : List Range} (h : Chain n first l last)
    (hturn : last ≤ first + n) : l.Pairwise Range.Disjoint := by
  induction l generalizing first with
  | nil =>
      exact List.Pairwise.nil
  | cons r l ih =>
      obtain ⟨hstart, hfit, hrest⟩ := h
      refine List.Pairwise.cons ?_ (ih hrest (by omega))
      intro q hq x hrx hxr hqx
      obtain ⟨u, hu, hlast, hqstart, hqfit⟩ := hrest.position hq
      rw [hstart] at hrx hxr
      rw [hqstart] at hqx
      -- the item, as a position in each of the two ranges
      obtain ⟨d, hd⟩ : ∃ d : Nat, x = ((first % n + d : Nat) : Int) :=
        ⟨(x - (first % n : Nat)).toNat, by omega⟩
      obtain ⟨e, he⟩ : ∃ e : Nat, x = ((u % n + e : Nat) : Int) :=
        ⟨(x - (u % n : Nat)).toNat, by omega⟩
      have hfirst : (first + d) % n = first % n + d := by
        rw [Nat.add_mod, Nat.mod_eq_of_lt (show d < n by omega), Nat.mod_eq_of_lt (by omega)]
      have hsecond : (u + e) % n = u % n + e := by
        rw [Nat.add_mod, Nat.mod_eq_of_lt (show e < n by omega), Nat.mod_eq_of_lt (by omega)]
      refine Clocked.mod_ne_of_lt_turn (n := n) (show first + d < u + e by omega) (by omega) ?_
      omega

end Chain

end Memory
end PcieBench
