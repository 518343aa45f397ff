import PcieBench.Rq.Payload

/-!
# Framing of the request stream

How the receiver of `M_AXIS_RQ` cuts the stream of beats into TLPs: a memory read request is one
beat, a memory write is a header beat followed by payload beats up to `TLAST`.  `Parses` says that a
stream is a sequence of well-formed TLPs, possibly followed by the first beats of one more.
-/

namespace PcieBench
namespace Rq

open Clocked Tlp

/-! ## TLPs -/

/-- The dwords the beats of a TLP enable. -/
def keptDwords (l : List Sent) : Nat := (l.map (fun x => popcount x.beat.tkeep)).sum

/-- The dword count in the header of a TLP. -/
def headerDwords : List Sent → Nat
  | [] => 0
  | h :: _ => h.beat.dwords.toNat

/-- The first beat is the header of a memory write and the other ones are payload of the same
TLP. -/
def StartsWrite : List Sent → Prop
  | [] => False
  | h :: body => h.origin = .initWrite ∧ h.beat.reqType = memoryWrite ∧
      ∀ x ∈ body, x.origin = .write

/-- A full beat that does not end its TLP. -/
def Sent.IsInner (x : Sent) : Prop := x.beat.tlast = false ∧ x.beat.tkeep = 0xff

/-- A complete memory write TLP: its four descriptor dwords and its payload are what `TKEEP`
enables, `TLAST` is on the last beat alone. -/
structure IsWriteTlp (l : List Sent) : Prop where
  starts : StartsWrite l
  last : ∃ front final, l = front ++ [final] ∧ (∀ x ∈ front, x.IsInner) ∧
    final.beat.tlast = true ∧ 1 ≤ popcount final.beat.tkeep
  dwords : keptDwords l = headerDwords l + 4
  dwords_pos : 1 ≤ headerDwords l

/-- A complete memory read request. -/
def IsReadTlp (l : List Sent) : Prop :=
  ∃ x : Sent, l = [x] ∧ x.origin = .initRead ∧ x.beat.reqType = memoryRead ∧ x.beat.tlast = true

/-- The first beats of a memory write TLP whose last beat is still to come. -/
structure IsOpenWrite (l : List Sent) : Prop where
  starts : StartsWrite l
  inner : ∀ x ∈ l, x.IsInner
  dwords : keptDwords l < headerDwords l + 4

/-- `l` is the sequence of the complete TLPs `tlps` and of the beats `pending` of an incomplete
one. -/
structure Parses (l : List Sent) (tlps : List (List Sent)) (pending : List Sent) : Prop where
  split : l = tlps.flatten ++ pending
  complete : ∀ x ∈ tlps, IsWriteTlp x ∨ IsReadTlp x
  incomplete : pending = [] ∨ IsOpenWrite pending

/-! ## Building TLPs beat by beat -/

theorem keptDwords_append (l l' : List Sent) :
    keptDwords (l ++ l') = keptDwords l + keptDwords l' := by
  simp [keptDwords]

theorem headerDwords_append {l : List Sent} (h : StartsWrite l) (l' : List Sent) :
    headerDwords (l ++ l') = headerDwords l := by
  cases l with
  | nil =>
      exact absurd h id
  | cons x l =>
      rfl

theorem StartsWrite.append {l : List Sent} (h : StartsWrite l) {x : Sent}
    (hx : x.origin = .write) : StartsWrite (l ++ [x]) := by
  cases l with
  | nil =>
      exact absurd h id
  | cons y l =>
      obtain ⟨horigin, htype, hbody⟩ := h
      refine ⟨horigin, htype, ?_⟩
      intro z hz
      rcases List.mem_append.mp hz with hz | hz
      · exact hbody z hz
      · rw [List.mem_singleton.mp hz, hx]

/-- A full beat has eight dwords. -/
theorem keptDwords_inner {l : List Sent} (h : ∀ x ∈ l, x.IsInner) :
    keptDwords l = 8 * l.length := by
  induction l with
  | nil =>
      rfl
  | cons x l ih =>
      have hx : popcount x.beat.tkeep = 8 := by
        rw [(h x (by simp)).2]
        decide
      have hl := ih (fun y hy => h y (by simp [hy]))
      simp only [keptDwords, List.map_cons, List.sum_cons, List.length_cons, hx] at hl ⊢
      omega

/-- One more full beat leaves the TLP open as long as dwords are missing. -/
theorem IsOpenWrite.continue {l : List Sent} (h : IsOpenWrite l) {x : Sent}
    (hx : x.origin = .write) (hinner : x.IsInner)
    (hmore : keptDwords (l ++ [x]) < headerDwords l + 4) : IsOpenWrite (l ++ [x]) where
  starts := h.starts.append hx
  inner y hy := by
    rcases List.mem_append.mp hy with hy | hy
    · exact h.inner y hy
    · rwa [List.mem_singleton.mp hy]
  dwords := by
    rwa [headerDwords_append h.starts]

/-- The beat with the missing dwords closes the TLP. -/
theorem IsOpenWrite.close {l : List Sent} (h : IsOpenWrite l) {x : Sent}
    (hx : x.origin = .write) (hlast : x.beat.tlast = true) (hkeep : 1 ≤ popcount x.beat.tkeep)
    (hdwords : keptDwords (l ++ [x]) = headerDwords l + 4) : IsWriteTlp (l ++ [x]) where
  starts := h.starts.append hx
  last := ⟨l, x, rfl, h.inner, hlast, hkeep⟩
  dwords := by
    rwa [headerDwords_append h.starts]
  dwords_pos := by
    -- an open TLP already holds a full beat
    have hone : 8 ≤ keptDwords l := by
      rw [keptDwords_inner h.inner]
      have : l ≠ [] := by
        rintro rfl
        exact h.starts
      have := List.length_pos_iff.mpr this
      omega
    have hopen := h.dwords
    rw [headerDwords_append h.starts]
    omega

/-- What is left of a memory write TLP without its last beat. -/
theorem IsWriteTlp.open_of_append {front : List Sent} {final : Sent}
    (h : IsWriteTlp (front ++ [final])) : front = [] ∨ IsOpenWrite front := by
  cases front with
  | nil =>
      exact .inl rfl
  | cons x front =>
      right
      obtain ⟨front', final', heq, hinner, -, hkeep⟩ := h.last
      obtain ⟨rfl, hfinal⟩ := List.append_inj' heq rfl
      cases hfinal
      have hstarts : StartsWrite (x :: front) := by
        obtain ⟨horigin, htype, hbody⟩ := h.starts
        exact ⟨horigin, htype, fun y hy => hbody y (List.mem_append.mpr (.inl hy))⟩
      refine ⟨hstarts, hinner, ?_⟩
      have hdwords := h.dwords
      rw [keptDwords_append, headerDwords_append hstarts] at hdwords
      simp only [keptDwords, List.map_cons, List.map_nil, List.sum_cons, List.sum_nil] at hdwords ⊢
      omega

/-- A stream up to its first `TLAST`. -/
def firstTlp (l : List Sent) : List Sent :=
  l.takeWhile (fun x => !x.beat.tlast) ++ (l.dropWhile (fun x => !x.beat.tlast)).take 1

theorem firstTlp_append {front : List Sent} {final : Sent} (rest : List Sent)
    (hfront : ∀ x ∈ front, x.beat.tlast = false) (hfinal : final.beat.tlast = true) :
    firstTlp (front ++ final :: rest) = front ++ [final] := by
  rw [firstTlp, List.takeWhile_append_of_pos (by simpa using hfront),
    List.dropWhile_append_of_pos (by simpa using hfront)]
  simp [hfinal]

/-! ## Building streams TLP by TLP -/

namespace Parses

variable {l : List Sent} {tlps : List (List Sent)} {pending : List Sent}

theorem nil : Parses [] [] [] := ⟨rfl, by simp, .inl rfl⟩

/-- The next beat belongs to the incomplete TLP. -/
theorem grow (h : Parses l tlps pending) {x : Sent} (hopen : IsOpenWrite (pending ++ [x])) :
    Parses (l ++ [x]) tlps (pending ++ [x]) where
  split := by rw [h.split, List.append_assoc]
  complete := h.complete
  incomplete := .inr hopen

/-- The next beat completes a TLP. -/
theorem finish (h : Parses l tlps pending) {x : Sent}
    (hdone : IsWriteTlp (pending ++ [x]) ∨ IsReadTlp (pending ++ [x])) :
    Parses (l ++ [x]) (tlps ++ [pending ++ [x]]) [] where
  split := by
    rw [h.split]
    simp
  complete := by
    intro y hy
    rcases List.mem_append.mp hy with hy | hy
    · exact h.complete y hy
    · rwa [List.mem_singleton.mp hy]
  incomplete := .inl rfl

/-- A stream still parses before its last beat is there. -/
theorem of_append_singleton {x : Sent} (h : Parses (l ++ [x]) tlps pending) :
    ∃ tlps' pending', Parses l tlps' pending' := by
  rcases List.eq_nil_or_concat pending with rfl | ⟨p, y, rfl⟩
  · rcases List.eq_nil_or_concat tlps with rfl | ⟨ts, z, rfl⟩
    · have hsplit := h.split
      simp at hsplit
    · -- the beat was the last one of the last TLP
      have hz : ∃ z', z = z' ++ [x] ∧ l = ts.flatten ++ z' := by
        have hsplit := h.split
        rcases List.eq_nil_or_concat z with rfl | ⟨z', w, rfl⟩
        · rcases h.complete [] (by simp) with hw | ⟨w, hw, -⟩
          · exact absurd hw.starts id
          · cases hw
        · simp only [List.concat_eq_append, List.flatten_append, List.flatten_singleton,
            List.append_nil, ← List.append_assoc] at hsplit
          obtain ⟨hl, hx⟩ := List.append_inj' hsplit rfl
          cases hx
          exact ⟨z', by simp, hl⟩
      obtain ⟨z', rfl, hl⟩ := hz
      refine ⟨ts, z', hl, fun y hy => h.complete y (by simp [hy]), ?_⟩
      rcases h.complete (z' ++ [x]) (by simp) with hw | ⟨w, hw, -⟩
      · exact hw.open_of_append
      · left
        simpa using congrArg List.length hw
  · -- the beat was part of the incomplete TLP
    have hsplit := h.split
    rw [List.concat_eq_append, ← List.append_assoc] at hsplit
    obtain ⟨hl, hx⟩ := List.append_inj' hsplit rfl
    cases hx
    refine ⟨tlps, p, hl, h.complete, ?_⟩
    rcases h.incomplete with hp | hp
    · simp at hp
    · cases p with
      | nil =>
          exact .inl rfl
      | cons y p =>
          right
          rw [List.concat_eq_append] at hp
          obtain ⟨horigin, htype, hbody⟩ := hp.starts
          have hstarts : StartsWrite (y :: p) :=
            ⟨horigin, htype, fun z hz => hbody z (List.mem_append.mpr (.inl hz))⟩
          refine ⟨hstarts, fun z hz => hp.inner z (List.mem_append.mpr (.inl hz)), ?_⟩
          have hdwords := hp.dwords
          rw [keptDwords_append, headerDwords_append hstarts] at hdwords
          omega

/-- The first TLP of a stream ends with its first `TLAST`. -/
theorem first_tlp (h : Parses l tlps pending) (hlast : ∃ x ∈ l, x.beat.tlast = true) :
    IsWriteTlp (firstTlp l) ∨ IsReadTlp (firstTlp l) := by
  have hsplit := h.split
  cases tlps with
  | nil =>
      -- an incomplete TLP has no `TLAST`
      obtain ⟨x, hx, hxlast⟩ := hlast
      rw [hsplit, List.flatten_nil, List.nil_append] at hx
      rcases h.incomplete with hp | hp
      · simp [hp] at hx
      · rw [(hp.inner x hx).1] at hxlast
        cases hxlast
  | cons tlp tlps =>
      have htlp := h.complete tlp (by simp)
      obtain ⟨front, final, rfl, hfront, hfinal⟩ : ∃ front final, tlp = front ++ [final] ∧
          (∀ y ∈ front, y.beat.tlast = false) ∧ final.beat.tlast = true := by
        rcases htlp with hw | ⟨y, rfl, -, -, hy⟩
        · obtain ⟨front, final, heq, hinner, hlast, -⟩ := hw.last
          exact ⟨front, final, heq, fun y hy => (hinner y hy).1, hlast⟩
        · exact ⟨[], y, rfl, by simp, hy⟩
      have heq : l = front ++ final :: (tlps.flatten ++ pending) := by
        rw [hsplit]
        simp
      rw [heq, firstTlp_append _ hfront hfinal]
      exact htlp

end Parses

/-! ## The payload of a TLP -/

/-- A full payload beat carries two words. -/
theorem payload_inner {l : List Sent} (hinner : ∀ x ∈ l, x.IsInner)
    (horigin : ∀ x ∈ l, x.origin = .write) : (payload l).length = 2 * l.length := by
  induction l with
  | nil =>
      rfl
  | cons x l ih =>
      have hfull : ¬ popcount 0xff ≤ 4 := by decide
      have hx : (Sent.payload x).length = 2 := by
        simp only [Sent.payload, horigin x (by simp), (hinner x (by simp)).2, if_neg hfull]
        rfl
      have hl := ih (fun y hy => hinner y (by simp [hy])) (fun y hy => horigin y (by simp [hy]))
      simp only [payload, List.flatMap_cons, List.length_append, List.length_cons, hx] at hl ⊢
      omega

/-- A memory write TLP of `w` dwords carries `w / 4` payload words, rounded up. -/
theorem IsWriteTlp.payload_length {l : List Sent} (h : IsWriteTlp l) :
    (payload l).length = (headerDwords l + 3) / 4 := by
  obtain ⟨front, final, rfl, hinner, -, hkeep⟩ := h.last
  have hdwords := h.dwords
  have hpos := h.dwords_pos
  have hle : ∀ k : BitVec 8, popcount k ≤ 8 := by decide
  have h8 := hle final.beat.tkeep
  rw [keptDwords_append, keptDwords_inner hinner] at hdwords
  have hfinal : keptDwords [final] = popcount final.beat.tkeep := by simp [keptDwords]
  rw [hfinal] at hdwords
  cases front with
  | nil =>
      obtain ⟨horigin, -, -⟩ := h.starts
      simp only [List.nil_append, List.length_nil] at *
      simp only [payload, List.flatMap_cons, List.flatMap_nil, Sent.payload, horigin]
      simp
      omega
  | cons x front =>
      obtain ⟨horigin, -, hbody⟩ := h.starts
      have hfront := payload_inner (fun y hy => hinner y (by simp [hy]))
        (fun y hy => hbody y (List.mem_append.mpr (.inl hy)))
      have hlast : (Sent.payload final).length =
          if popcount final.beat.tkeep ≤ 4 then 1 else 2 := by
        simp only [Sent.payload, hbody final (by simp)]
        split <;> rfl
      have hhead : (Sent.payload x).length = 1 := by
        simp [Sent.payload, horigin]
      simp only [List.cons_append, payload, List.flatMap_cons, List.flatMap_append,
        List.flatMap_nil, List.append_nil, List.length_append, hhead, hlast] at hfront ⊢
      simp only [List.cons_append, headerDwords, List.length_cons] at hdwords hpos ⊢
      split <;> omega

end Rq
end PcieBench
