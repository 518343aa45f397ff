import PcieBench.Rq.Extent
import PcieBench.Rq.ReadEnd
import PcieBench.Rq.SequenceMemory

/-!
# The memory reads of a sequence of operations

Behind a sequence of operations no memory read is left: the operations have asked for all that their
descriptors name, and each of the requests has had its completion pulse.
-/

namespace PcieBench
namespace Rq

open Clocked Tlp

section Reads

variable {P : Params} {inp : Run P} {cfg : Config} {cfgs : List Config} {start stop t u v w : Nat}

/-! ## Requests and their pulses -/

variable (inp) in
/-- The request loaded in cycle `v` with tag `j` is completed in cycle `w`, the first time that there is a
pulse on its tag. -/
structure Completed (v w : Nat) (x : Sent) (j : Fin P.windowSize) : Prop where
  loaded : x ∈ loads inp v
  read : x.origin = .initRead
  tag : x.beat.tag.toNat = j.val
  lt : v < w
  pulse : (inp w).completedTags j = true
  live : ∀ y, v < y → y ≤ w → outstanding inp y j = true

/-- A pulse that comes later than the request follows its first one. -/
theorem exists_completed (hwin : WindowStable inp) {x : Sent} (hx : x ∈ loads inp v)
    (horigin : x.origin = .initRead) {j : Fin P.windowSize} (htag : x.beat.tag.toNat = j.val)
    (hpulse : ∃ u, v < u ∧ u < t ∧ (inp u).completedTags j = true) :
    ∃ w, w < t ∧ Completed inp v w x j := by
  classical
  obtain ⟨hm, hbeat⟩ := issuesRead_of_mem_load hx horigin
  obtain ⟨k, hk⟩ := hm.takesTag (fun _ => hwin.mask_le (by simp [hm.initRead]))
  have hload : loadsTag (st inp v) (inp v) j = true := by
    have hsame : j = k := by
      apply Fin.ext
      rw [← htag, hbeat, hk.tag]
    exact (hk.loadsTag_iff hm j).mpr hsame
  obtain ⟨hvw, hwt, hset⟩ := Nat.find_spec hpulse
  refine ⟨Nat.find hpulse, hwt, ⟨hx, horigin, htag, hvw, hset, ?_⟩⟩
  intro y hvy hyw
  refine outstanding_of_no_pulse hload hvy ?_
  intro z hvz hzy
  have hmin := Nat.find_min hpulse (show z < Nat.find hpulse by omega)
  by_contra hz
  exact hmin ⟨hvz, by omega, by simpa using hz⟩

/-- An outstanding tag has a request, and no pulse since. -/
theorem load_of_outstanding {j : Fin P.windowSize} (hlive : outstanding inp t j = true) :
    ∃ v x, v < t ∧ x ∈ loads inp v ∧ x.origin = .initRead ∧ x.beat.tag.toNat = j.val ∧
      ∀ y, v < y → y < t → (inp y).completedTags j = false := by
  induction t with
  | zero =>
      cases hlive
  | succ t ih =>
      rw [outstanding_succ, Bool.or_eq_true] at hlive
      rcases hlive with hload | hkept
      · rw [loadsTag, List.any_eq_true] at hload
        obtain ⟨x, hx, hfields⟩ := hload
        rw [Bool.and_eq_true, decide_eq_true_eq, beq_iff_eq] at hfields
        exact ⟨t, x, Nat.lt_succ_self t, hx, hfields.1, hfields.2, fun y hty hyt => absurd hyt (by omega)⟩
      · rw [Bool.and_eq_true, Bool.not_eq_true'] at hkept
        obtain ⟨v, x, hvt, hx, horigin, htag, hnone⟩ := ih hkept.1
        refine ⟨v, x, by omega, hx, horigin, htag, ?_⟩
        intro y hvy hyt
        rcases Nat.eq_or_lt_of_le (Nat.le_of_lt_succ hyt) with rfl | hlt
        · exact hkept.2
        · exact hnone y hvy hlt

/-- No other request has the tag meanwhile. -/
theorem Completed.own (hwin : WindowStable inp) {x : Sent} {j : Fin P.windowSize}
    (h : Completed inp v w x j) {y : Nat} (hvy : v < y) (hyw : y ≤ w) :
    loadsTag (st inp y) (inp y) j = false :=
  loadsTag_of_outstanding hwin (h.live y hvy hyw)

/-! ## The reads of an operation -/

/-- The memory read requests that a descriptor asks for. -/
def Config.readRequests (cfg : Config) : Nat := if cfg.capRead then cfg.total else 0

/-- The requests of an operation have dwords. -/
theorem dwords_of_tiles {random : BitVec 64 → Prop} {hs : List Sent}
    (h : (rdBlocks P cfg (BlockBase cfg random)).Tiles hs)
    (hsize : cfg.sizeAtDescriptor.toNat % 4 = 0) : ∀ x ∈ hs, x.beat.dwords ≠ 0 := by
  intro x hx
  obtain ⟨k, hk, hget⟩ := List.mem_iff_getElem.mp hx
  obtain ⟨base, hfrom⟩ := h
  obtain ⟨-, htile⟩ := hfrom k x (by rw [List.getElem?_eq_getElem hk, hget])
  have hlo := cfg.three_le_readLog2 P
  have hhi := cfg.readLog2_le P
  have hmod : k % cfg.perBlock P < cfg.perBlock P := Nat.mod_lt k (cfg.perBlock_pos P)
  have hwords : (tlpWords (cfg.readLog2 P) cfg.sizeAtDescriptor
      (BitVec.ofNat 32 (k % cfg.perBlock P + 1))).toNat = tileDwords (2 ^ cfg.readLog2 P)
        cfg.sizeAtDescriptor.toNat (cfg.perBlock P) (k % cfg.perBlock P) :=
    tlpWords_toNat hlo hhi cfg.sizeAtDescriptor hmod
  have hdwords : x.beat.dwords = (tlpWords (cfg.readLog2 P) cfg.sizeAtDescriptor
      (BitVec.ofNat 32 (k % cfg.perBlock P + 1))).setWidth 11 := htile.dwords
  intro hzero
  have hnat := congrArg BitVec.toNat (hdwords.symm.trans hzero)
  have hpos := tileDwords_pos (n := cfg.perBlock P) (i := k % cfg.perBlock P) hlo hhi hsize
  have hsmall := tileDwords_le (S := cfg.sizeAtDescriptor.toNat) (n := cfg.perBlock P)
    (i := k % cfg.perBlock P) hlo hhi
  obtain ⟨-, -, hle⟩ := two_pow_tlp hlo hhi
  rw [BitVec.toNat_setWidth, hwords, Nat.mod_eq_of_lt (by omega)] at hnat
  have hnone : (0 : BitVec 11).toNat = 0 := rfl
  omega

namespace Operation

theorem read_dwords (op : Operation inp cfg start stop) (hsize : cfg.sizeAtDescriptor.toNat % 4 = 0)
    (hv : start < v) (hvs : v < stop) {x : Sent} (hx : x ∈ loads inp v) (horigin : x.origin = .initRead) :
    x.beat.dwords ≠ 0 := by
  have hbuilt : BuiltFrom P cfg (fun _ => True) (beats inp start stop) :=
    op.builtFrom (fun _ _ _ _ => ⟨trivial, trivial⟩) op.start_lt (Nat.le_refl stop)
  refine dwords_of_tiles hbuilt.reads hsize x ?_
  rw [readHeaders, List.mem_filter, beats, mem_collect]
  refine ⟨⟨v - (start + 1), by omega, ?_⟩, decide_eq_true horigin⟩
  rwa [Nat.add_sub_cancel' hv]

theorem not_initRead (op : Operation inp cfg start stop) (hr : cfg.capRead = false) (hv : start < v)
    (hvs : v ≤ stop) : (st inp v).wrState ≠ .initRead := by
  intro hs
  rcases op.writing hr hv hvs (by simp [hs]) with h | h <;> rw [hs] at h <;> cases h

/-- Behind its announced end an operation loads nothing. -/
theorem loads_after_end (op : Operation inp cfg start stop) {e : Nat} (hse : start < e)
    (hend : (st inp e).endOfOperation = true) (hev : e ≤ v) (hvs : v < stop) : loads inp v = [] := by
  have hidle : ∀ v, e + 1 ≤ v → v ≤ stop → (st inp v).wrState = .idle := by
    refine interval_induction ?_ ?_
    · rw [st_succ]
      exact (endOfOperation_once hend (inp e)).1
    · intro v hv hvs hs
      exact op.once v (by omega) hvs hs
  rcases Nat.eq_or_lt_of_le hev with rfl | hlt
  · rcases idle_or_waitRead_of_end hend with hs | hs
    · exact load_idle hs
    · exact load_waitRead hs
  · exact load_idle (hidle v hlt (by omega))

/-- An operation that is over has asked for all it had to ask for, and all of it has been completed before
its announced end. -/
theorem reads_completed (op : Operation inp cfg start stop) (hwin : WindowStable inp)
    (ended : (st inp stop).wrState = .idle) :
    (readHeaders (beats inp start stop)).length = cfg.readRequests ∧
      ∀ v, start < v → v < stop → ∀ x ∈ loads inp v, x.origin = .initRead →
        ∃ j w e, Completed inp v w x j ∧ w < e ∧ e < stop ∧ (st inp e).endOfOperation = true := by
  have hlt := op.start_lt
  cases hr : cfg.capRead with
  | false =>
      have hnone : ∀ v, start < v → v < stop → ∀ x ∈ loads inp v, x.origin ≠ .initRead := by
        intro v hv hvs x hx horigin
        exact op.not_initRead hr hv hvs.le (issuesRead_of_mem_load hx horigin).1.initRead
      refine ⟨?_, fun v hv hvs x hx horigin => absurd horigin (hnone v hv hvs x hx)⟩
      rw [Config.readRequests, if_neg (by simp [hr]), List.length_eq_zero_iff, readHeaders,
        List.filter_eq_nil_iff]
      intro x hx
      obtain ⟨k, hk, hx⟩ := (mem_collect _ _).mp hx
      simpa using hnone (start + 1 + k) (by omega) (by omega) x hx
  | true =>
      obtain ⟨e, hse, hes, hend⟩ := op.end_of_idle hr hlt (Nat.le_refl stop) ended
      have hdone := op.readsDone hwin hr hse hes.le hend
      refine ⟨?_, ?_⟩
      · have hrest : collect (loads inp) e (stop - e) = [] :=
          collect_eq_nil _ _ _ (fun k hk => op.loads_after_end hse hend (by omega) (by omega))
        rw [Config.readRequests, if_pos hr, ← hdone.issued, beats,
          collect_split _ (start + 1) (show start + 1 ≤ e by omega) hes.le, hrest, List.append_nil, beats]
      · intro v hv hvs x hx horigin
        have hve : v < e := by
          by_contra hle
          rw [op.loads_after_end hse hend (by omega) hvs] at hx
          cases hx
        obtain ⟨j, htag, y, hvy, hye, hset, -⟩ := hdone.completed v hv hve x hx horigin
        obtain ⟨w, hwe, hw⟩ := exists_completed hwin hx horigin htag ⟨y, hvy, hye, hset⟩
        exact ⟨j, w, e, hw, hwe, hes, hend⟩

end Operation

/-! ## The reads of a sequence -/

/-- Behind a sequence of operations every memory read has been completed, before the end of an operation
was announced. -/
theorem Performs.reads_completed (h : Performs inp cfgs t u) (hwin : WindowStable inp) :
    (readHeaders (collect (loads inp) t (u - t))).length = (cfgs.map Config.readRequests).sum ∧
      ∀ v, t ≤ v → v < u → ∀ x ∈ loads inp v, x.origin = .initRead →
        ∃ j w e, Completed inp v w x j ∧ w < e ∧ e < u ∧ (st inp e).endOfOperation = true := by
  induction h with
  | @done t u le idle =>
      refine ⟨?_, ?_⟩
      · rw [collect_loads_idle (fun v hv hvu => idle v hv (by omega))]
        rfl
      · intro v hv hvu x hx
        rw [loads, load_idle (idle v hv hvu.le)] at hx
        cases hx
  | @next cfg cfgs t start stop u le idle operation busy ended built rest ih =>
      obtain ⟨hcount, hone⟩ := operation.reads_completed hwin ended
      obtain ⟨hcounts, hall⟩ := ih
      have hlt := operation.start_lt
      have hle := rest.le
      refine ⟨?_, ?_⟩
      · -- the idle cycles, the operation and the operations behind it
        have hfirst : collect (loads inp) t (start + 1 - t) = [] :=
          collect_loads_idle (fun v hv hvs => idle v hv (by omega))
        rw [collect_split _ t (show t ≤ start + 1 by omega) (show start + 1 ≤ u by omega), hfirst,
          List.nil_append, collect_split _ (start + 1) (show start + 1 ≤ stop by omega) hle,
          readHeaders_append, List.length_append, hcounts, List.map_cons, List.sum_cons, ← hcount]
        rfl
      · intro v hv hvu x hx horigin
        rcases Nat.lt_or_ge v stop with hbefore | hafter
        · have hstart : start < v := by
            by_contra hle
            rw [loads, load_idle (idle v hv (by omega))] at hx
            cases hx
          obtain ⟨j, w, e, hdone, hwe, hes, hend⟩ := hone v hstart hbefore x hx horigin
          exact ⟨j, w, e, hdone, hwe, by omega, hend⟩
        · exact hall v hafter hvu x hx horigin

theorem Performs.read_dwords (h : Performs inp cfgs t u)
    (hsize : ∀ cfg ∈ cfgs, cfg.sizeAtDescriptor.toNat % 4 = 0) :
    ∀ v, t ≤ v → v < u → ∀ x ∈ loads inp v, x.origin = .initRead → x.beat.dwords ≠ 0 := by
  induction h with
  | done le idle =>
      intro v hv hvu x hx
      rw [loads, load_idle (idle v hv hvu.le)] at hx
      cases hx
  | @next cfg cfgs t start stop u le idle operation busy ended built rest ih =>
      intro v hv hvu x hx horigin
      rcases Nat.lt_or_ge v stop with hbefore | hafter
      · have hstart : start < v := by
          by_contra hle
          rw [loads, load_idle (idle v hv (by omega))] at hx
          cases hx
        exact operation.read_dwords (hsize cfg List.mem_cons_self) hstart hbefore hx horigin
      · exact ih (fun c hc => hsize c (List.mem_cons_of_mem _ hc)) v hafter hvu x hx horigin

end Reads

end Rq
end PcieBench
