import PcieBench.Host.Arguments

/-!
# The numbers of the register tool

`etoi` of `rwBar.c` reads a number in decimal, in hexadecimal behind a prefix, or in hexadecimal
groups of four digits.  It looks at the digits twice, from the left for a number without separators and
from the right for one with separators.  The grammar in its comment is stated here on its own, and
compared with what the two passes accept and return.
-/

namespace PcieBench
namespace Host

/-! ## The code -/

/-- The digits of the two `switch` statements. -/
def hexDigit (c : Char) : Option Nat :=
  if '0' ≤ c ∧ c ≤ '9' then some (c.toNat - '0'.toNat)
  else if 'a' ≤ c ∧ c ≤ 'f' then some (c.toNat - 'a'.toNat + 10)
  else if 'A' ≤ c ∧ c ≤ 'F' then some (c.toNat - 'A'.toNat + 10)
  else none

def isHex (c : Char) : Bool := (hexDigit c).isSome

def isSeparator (c : Char) : Bool := c = '_' || c = '-'

/-- The number of the hexadecimal digits in a string, whatever else there is in it. -/
def hexNumber (s : List Char) : Nat :=
  s.foldl (fun n c =>
    match hexDigit c with
    | some d => 16 * n + d
    | none => n) 0

/-- A number as `strtol` returns it, in the low half of a `long`. -/
def ofLong (n : Nat) : BitVec 32 := BitVec.ofNat 32 (min n (2 ^ 63 - 1))

/-- The string from the first `c` on. -/
def strchr (c : Char) : List Char → Option (List Char)
  | [] => none
  | d :: s => if d = c then some (d :: s) else strchr c s

/-- The variables of the pass from the right. -/
structure GroupState where
  cdword : BitVec 32
  tdword : BitVec 32
  multp : BitVec 32
  multd : BitVec 32
  cnt : Nat
  deriving DecidableEq, Repr

def GroupState.initial : GroupState where
  cdword := 0
  tdword := 0
  multp := 1
  multd := 1
  cnt := 0

/-- A separator behind four digits. -/
def GroupState.close (st : GroupState) : GroupState where
  tdword := st.tdword + st.multd * st.cdword
  multd := st.multd * 65536
  multp := 1
  cdword := 0
  cnt := 0

/-- One more digit of the group. -/
def GroupState.digit (st : GroupState) (cchar : Nat) : GroupState :=
  { st with
    cnt := st.cnt + 1
    cdword := st.cdword + BitVec.ofNat 32 cchar * st.multp
    multp := st.multp * 16 }

/-- What is returned at the first character. -/
def GroupState.value (st : GroupState) : BitVec 32 := st.tdword + st.multd * st.cdword

/-- The pass from the right, over the reversed string. -/
def groupPass : List Char → GroupState → BitVec 32
  | [], _ => -1
  | c :: rest, st =>
      if st.cnt % 4 = 0 ∧ st.cnt ≠ 0 then
        -- a group is full: `break` unless a separator comes
        if c ≠ '_' ∧ c ≠ '-' then -1
        else if rest = [] then st.close.value
        else groupPass rest st.close
      else
        match hexDigit c with
        | none => -1
        | some cchar =>
            if rest = [] then (st.digit cchar).value else groupPass rest (st.digit cchar)

/-- What stands behind the `x`: `strtol` if the pass from the left finds digits only, else the pass from
the right. -/
def hexValue (value : List Char) : BitVec 32 :=
  if value ≠ [] ∧ value.all isHex = true then ofLong (hexNumber value)
  else groupPass value.reverse .initial

/-- `etoi`. -/
def etoi (string : List Char) : BitVec 32 :=
  match (strchr 'x' string).or (strchr 'X' string) with
  | some suffix =>
      let value := suffix.tail
      if 2 < string.length - value.length then -1
      else if string.length - value.length = 2 ∧ string.head? ≠ some '0' then -1
      else hexValue value
  | none => if string.all Char.isDigit then ofLong (decimal string) else -1

/-! ## The grammar -/

/-- The prefixes of a hexadecimal number. -/
def hexPrefixes : List (List Char) := [['x'], ['X'], ['0', 'x'], ['0', 'X']]

/-- A first group and groups behind separators. -/
def joinGroups (first : List Char) (groups : List (Char × List Char)) : List Char :=
  first ++ groups.flatMap fun g => g.1 :: g.2

/-- Groups of hexadecimal digits; those behind a separator have four. -/
structure GroupsOk (first : List Char) (groups : List (Char × List Char)) : Prop where
  first_hex : ∀ c ∈ first, isHex c = true
  separator : ∀ g ∈ groups, isSeparator g.1 = true
  four : ∀ g ∈ groups, g.2.length = 4
  hex : ∀ g ∈ groups, ∀ c ∈ g.2, isHex c = true

/-- Numbers without separators. -/
inductive PlainNumber : List Char → Nat → Prop
  | decimal {digits : List Char} (hne : digits ≠ []) (hall : ∀ c ∈ digits, c.isDigit = true) :
      PlainNumber digits (decimal digits)
  | hex {start digits : List Char} (hstart : start ∈ hexPrefixes) (hne : digits ≠ [])
      (hall : ∀ c ∈ digits, isHex c = true) :
      PlainNumber (start ++ digits) (hexNumber digits)

/-- Numbers in groups, with `n` digits in the first group. -/
inductive GroupedNumber (n : Nat) : List Char → Nat → Prop
  | mk {start first : List Char} {groups : List (Char × List Char)} (hstart : start ∈ hexPrefixes)
      (hok : GroupsOk first groups) (hfirst : first.length = n) (hne : joinGroups first groups ≠ []) :
      GroupedNumber n (start ++ joinGroups first groups) (hexNumber (joinGroups first groups))

/-- The documented numbers. -/
def Denotes (string : List Char) (value : Nat) : Prop :=
  PlainNumber string value ∨ ∃ n, 1 ≤ n ∧ n ≤ 4 ∧ GroupedNumber n string value

/-! ## Digits -/

theorem isHex_of_isSeparator {c : Char} (h : isSeparator c = true) : isHex c = false := by
  simp only [isSeparator, Bool.or_eq_true, decide_eq_true_eq] at h
  rcases h with rfl | rfl <;> decide

theorem hexDigit_of_isSeparator {c : Char} (h : isSeparator c = true) : hexDigit c = none := by
  have hhex := isHex_of_isSeparator h
  rwa [isHex, Option.isSome_eq_false_iff, Option.isNone_iff_eq_none] at hhex

theorem hexDigit_lt {c : Char} {d : Nat} (h : hexDigit c = some d) : d < 16 := by
  have hle : ∀ {x y : Char}, x ≤ y → x.toNat ≤ y.toNat := fun h => UInt32.le_iff_toNat_le.1 h
  unfold hexDigit at h
  split_ifs at h with h1 h2 h3
  · have hc : c.toNat ≤ 57 := hle h1.2
    have h0 : '0'.toNat = 48 := rfl
    cases h
    omega
  · have hc : c.toNat ≤ 102 := hle h2.2
    have ha : 'a'.toNat = 97 := rfl
    cases h
    omega
  · have hc : c.toNat ≤ 70 := hle h3.2
    have hA : 'A'.toNat = 65 := rfl
    cases h
    omega

theorem hexNumber_append_digit {c : Char} {d : Nat} (h : hexDigit c = some d) (s : List Char) :
    hexNumber (s ++ [c]) = 16 * hexNumber s + d := by
  simp [hexNumber, List.foldl_append, h]

theorem hexNumber_append_other {c : Char} (h : hexDigit c = none) (s : List Char) :
    hexNumber (s ++ [c]) = hexNumber s := by
  simp [hexNumber, List.foldl_append, h]

/-- The number of `n` digits. -/
theorem hexNumber_lt (s : List Char) : hexNumber s < 16 ^ s.length := by
  induction s using List.reverseRecOn with
  | nil =>
      decide
  | append_singleton s c ih =>
      rw [List.length_append, List.length_singleton, Nat.pow_succ]
      cases hd : hexDigit c with
      | none =>
          rw [hexNumber_append_other hd]
          omega
      | some d =>
          have hlt := hexDigit_lt hd
          rw [hexNumber_append_digit hd]
          omega

/-! ## The pass from the right -/

/-- The strings that the pass from the right accepts behind `cnt` digits of a group. -/
inductive RightForm : Nat → List Char → Prop
  | nil {cnt : Nat} (h : cnt ≤ 4) : RightForm cnt []
  | digit {cnt : Nat} {l : List Char} {c : Char} (hc : isHex c = true) (h : cnt < 4)
      (hl : RightForm (cnt + 1) l) : RightForm cnt (l ++ [c])
  | close {l : List Char} {c : Char} (hc : isSeparator c = true) (hl : RightForm 0 l) :
      RightForm 4 (l ++ [c])

/-- The pass has seen `n` digits with the number `v`. -/
structure GroupState.Seen (st : GroupState) (v n : Nat) : Prop where
  value : st.value = BitVec.ofNat 32 v
  scale : st.multd * st.multp = BitVec.ofNat 32 (16 ^ n)
  multp : st.multp = BitVec.ofNat 32 (16 ^ st.cnt)

theorem seen_initial : GroupState.initial.Seen 0 0 := ⟨rfl, rfl, rfl⟩

section Pass

variable {st : GroupState} {v n : Nat}

theorem GroupState.Seen.digit (h : st.Seen v n) (d : Nat) :
    (st.digit d).Seen (v + d * 16 ^ n) (n + 1) where
  value := by
    calc
      (st.digit d).value = st.value + BitVec.ofNat 32 d * (st.multd * st.multp) := by
          simp only [GroupState.value, GroupState.digit]
          ring
      _ = BitVec.ofNat 32 (v + d * 16 ^ n) := by
          rw [h.value, h.scale, BitVec.ofNat_add, BitVec.ofNat_mul]
  scale := by
    calc
      (st.digit d).multd * (st.digit d).multp = st.multd * st.multp * 16 := by
          simp only [GroupState.digit]
          ring
      _ = BitVec.ofNat 32 (16 ^ (n + 1)) := by
          rw [h.scale, Nat.pow_succ, BitVec.ofNat_mul]
          rfl
  multp := by
    show st.multp * 16 = BitVec.ofNat 32 (16 ^ (st.cnt + 1))
    rw [h.multp, Nat.pow_succ, BitVec.ofNat_mul]
    rfl

theorem GroupState.Seen.close (h : st.Seen v n) (hcnt : st.cnt = 4) : st.close.Seen v n where
  value := by
    rw [← h.value]
    simp [GroupState.value, GroupState.close]
  scale := by
    have hmultp := h.multp
    rw [hcnt] at hmultp
    rw [← h.scale, hmultp]
    simp [GroupState.close]
  multp := rfl

/-- What the pass accepts, it converts. -/
theorem groupPass_of_rightForm {cnt : Nat} {l : List Char} (hform : RightForm cnt l) :
    ∀ {st : GroupState} {v n : Nat}, st.cnt = cnt → st.Seen v n → l ≠ [] →
      groupPass l.reverse st = BitVec.ofNat 32 (v + hexNumber l * 16 ^ n) := by
  induction hform with
  | nil h =>
      intro st v n _ _ hne
      exact absurd rfl hne
  | digit hc hlt hl ih =>
      rename_i cnt l c
      intro st v n hcnt hseen _
      obtain ⟨d, hd⟩ := Option.isSome_iff_exists.1 hc
      have hsum : v + (16 * hexNumber l + d) * 16 ^ n =
          v + d * 16 ^ n + hexNumber l * 16 ^ (n + 1) := by
        ring
      rw [List.reverse_append, List.reverse_singleton, List.singleton_append, groupPass,
        if_neg (by omega), hexNumber_append_digit hd, hsum]
      simp only [hd]
      by_cases hempty : l = []
      · subst hempty
        rw [if_pos List.reverse_nil, (hseen.digit d).value, hexNumber, List.foldl_nil, Nat.zero_mul,
          Nat.add_zero]
      · rw [if_neg (by rwa [List.reverse_eq_nil_iff])]
        exact ih (by rw [← hcnt]; rfl) (hseen.digit d) hempty
  | close hc hl ih =>
      rename_i l c
      intro st v n hcnt hseen _
      have hclose := hseen.close hcnt
      have hsep : ¬ (c ≠ '_' ∧ c ≠ '-') := by
        simp only [isSeparator, Bool.or_eq_true, decide_eq_true_eq] at hc
        tauto
      rw [List.reverse_append, List.reverse_singleton, List.singleton_append, groupPass,
        if_pos (by omega), if_neg hsep, hexNumber_append_other (hexDigit_of_isSeparator hc)]
      by_cases hempty : l = []
      · subst hempty
        rw [if_pos List.reverse_nil, hclose.value, hexNumber, List.foldl_nil, Nat.zero_mul, Nat.add_zero]
      · rw [if_neg (by rwa [List.reverse_eq_nil_iff])]
        exact ih rfl hclose hempty

/-- What it does not accept ends in -1. -/
theorem groupPass_of_not_rightForm {l : List Char} :
    ∀ {st : GroupState}, st.cnt ≤ 4 → ¬ RightForm st.cnt l → groupPass l.reverse st = -1 := by
  induction l using List.reverseRecOn with
  | nil =>
      intro st hcnt hnot
      exact absurd (.nil hcnt) hnot
  | append_singleton l c ih =>
      intro st hcnt hnot
      rw [List.reverse_append, List.reverse_singleton, List.singleton_append, groupPass]
      rcases Nat.lt_or_eq_of_le hcnt with hlt | hfour
      · rw [if_neg (by omega)]
        cases hd : hexDigit c with
        | none =>
            rfl
        | some d =>
            have hnot' : ¬ RightForm (st.cnt + 1) l := fun h =>
              hnot (.digit (by rw [isHex, hd]; rfl) hlt h)
            have hne : l.reverse ≠ [] := by
              rw [ne_eq, List.reverse_eq_nil_iff]
              rintro rfl
              exact hnot' (.nil hlt)
            dsimp only
            rw [if_neg hne]
            exact ih hlt hnot'
      · rw [if_pos (by omega)]
        split
        · rfl
        · rename_i hsep
          have hc : isSeparator c = true := by
            simp only [isSeparator, Bool.or_eq_true, decide_eq_true_eq]
            tauto
          have hnot' : ¬ RightForm 0 l := fun h => hnot (hfour ▸ .close hc h)
          have hne : l.reverse ≠ [] := by
            rw [ne_eq, List.reverse_eq_nil_iff]
            rintro rfl
            exact hnot' (.nil (by decide))
          rw [if_neg hne]
          exact ih (Nat.zero_le 4) hnot'

end Pass

/-! ## The groups -/

theorem joinGroups_append (first : List Char) (groups : List (Char × List Char))
    (g : Char × List Char) :
    joinGroups first (groups ++ [g]) = joinGroups first groups ++ g.1 :: g.2 := by
  simp [joinGroups, List.flatMap_append]

/-- The string that the pass accepts, with the digits of the group that it is in. -/
theorem RightForm.groups {cnt : Nat} {l : List Char} (h : RightForm cnt l) :
    ∀ digits : List Char, digits.length = cnt → (∀ c ∈ digits, isHex c = true) →
      ∃ first groups, GroupsOk first groups ∧ first.length ≤ 4 ∧
        l ++ digits = joinGroups first groups := by
  induction h with
  | nil h =>
      intro digits hlength hhex
      refine ⟨digits, [], ⟨hhex, by simp, by simp, by simp⟩, by omega, ?_⟩
      simp [joinGroups]
  | digit hc hlt hl ih =>
      rename_i cnt l c
      intro digits hlength hhex
      rw [List.append_assoc]
      refine ih (c :: digits) (by rw [List.length_cons, hlength]) ?_
      exact List.forall_mem_cons.2 ⟨hc, hhex⟩
  | close hc hl ih =>
      rename_i l c
      intro digits hlength hhex
      obtain ⟨first, groups, hok, hfirst, hjoin⟩ := ih [] rfl (by simp)
      rw [List.append_nil] at hjoin
      refine ⟨first, groups ++ [(c, digits)], ⟨hok.first_hex, ?_, ?_, ?_⟩, hfirst, ?_⟩
      · exact List.forall_mem_append.2 ⟨hok.separator, by simpa using hc⟩
      · exact List.forall_mem_append.2 ⟨hok.four, by simpa using hlength⟩
      · exact List.forall_mem_append.2 ⟨hok.hex, by simpa using hhex⟩
      · rw [joinGroups_append, hjoin, List.append_assoc, List.singleton_append]

/-- Digits are accepted up to the end of their group. -/
theorem rightForm_append {digits l : List Char} (hhex : ∀ c ∈ digits, isHex c = true) :
    ∀ {cnt : Nat}, cnt + digits.length ≤ 4 → RightForm (cnt + digits.length) l →
      RightForm cnt (l ++ digits) := by
  induction digits using List.reverseRecOn with
  | nil =>
      intro cnt _ h
      simpa using h
  | append_singleton digits c ih =>
      intro cnt hle h
      obtain ⟨hdigits, hc⟩ := List.forall_mem_append.1 hhex
      rw [List.length_append, List.length_singleton] at hle h
      rw [← List.append_assoc]
      refine .digit (hc c (by simp)) (by omega) (ih hdigits (by omega) ?_)
      rwa [show cnt + 1 + digits.length = cnt + (digits.length + 1) by omega]

theorem rightForm_joinGroups {first : List Char} {groups : List (Char × List Char)}
    (hok : GroupsOk first groups) (hfirst : first.length ≤ 4) :
    RightForm 0 (joinGroups first groups) := by
  induction groups using List.reverseRecOn with
  | nil =>
      have hform : RightForm 0 ([] ++ first) :=
        rightForm_append hok.first_hex (by omega) (.nil (by omega))
      simpa [joinGroups] using hform
  | append_singleton groups g ih =>
      obtain ⟨hsep, hsep'⟩ := List.forall_mem_append.1 hok.separator
      obtain ⟨hfour, hfour'⟩ := List.forall_mem_append.1 hok.four
      obtain ⟨hhex, hhex'⟩ := List.forall_mem_append.1 hok.hex
      have hlength : g.2.length = 4 := hfour' g (by simp)
      have hclose : RightForm 4 (joinGroups first groups ++ [g.1]) :=
        .close (hsep' g (by simp)) (ih ⟨hok.first_hex, hsep, hfour, hhex⟩)
      rw [joinGroups_append, ← List.singleton_append, ← List.append_assoc]
      refine rightForm_append (hhex' g (by simp)) (by omega) ?_
      rwa [Nat.zero_add, hlength]

/-! ## Behind the prefix -/

theorem hexValue_of_hex {value : List Char} (hne : value ≠ []) (hhex : ∀ c ∈ value, isHex c = true) :
    hexValue value = ofLong (hexNumber value) := by
  rw [hexValue, if_pos ⟨hne, List.all_eq_true.2 hhex⟩]

/-- Groups are converted by whichever pass accepts them. -/
theorem hexValue_of_groups {first : List Char} {groups : List (Char × List Char)}
    (hok : GroupsOk first groups) (hfirst : first.length ≤ 4) (hne : joinGroups first groups ≠ []) :
    hexValue (joinGroups first groups) = BitVec.ofNat 32 (hexNumber (joinGroups first groups)) := by
  rw [hexValue]
  split
  · -- there is no separator, and four digits are far from the limits of a `long`
    rename_i hall
    have hnil : groups = [] := by
      cases groups with
      | nil =>
          rfl
      | cons g groups =>
          have hsep := isHex_of_isSeparator (hok.separator g (by simp))
          have hhex := List.all_eq_true.1 hall.2 g.1 (by simp [joinGroups])
          rw [hsep] at hhex
          cases hhex
    subst hnil
    have hlt := hexNumber_lt (joinGroups first [])
    have hpow : 16 ^ (joinGroups first []).length ≤ 16 ^ 4 :=
      Nat.pow_le_pow_right (by decide) (by simpa [joinGroups] using hfirst)
    rw [ofLong, Nat.min_eq_left (by omega)]
  · rw [groupPass_of_rightForm (rightForm_joinGroups hok hfirst) rfl seen_initial hne]
    rw [Nat.zero_add, Nat.pow_zero, Nat.mul_one]

/-- Everything else is -1. -/
theorem hexValue_ne {value : List Char} (h : hexValue value ≠ -1) :
    value ≠ [] ∧ ((∀ c ∈ value, isHex c = true) ∨
      ∃ first groups, GroupsOk first groups ∧ first.length ≤ 4 ∧ value = joinGroups first groups) := by
  have hne : value ≠ [] := by
    rintro rfl
    exact h rfl
  refine ⟨hne, ?_⟩
  rw [hexValue] at h
  split at h
  · rename_i hall
    exact .inl (List.all_eq_true.1 hall.2)
  · by_cases hform : RightForm 0 value
    · obtain ⟨first, groups, hok, hfirst, hjoin⟩ := hform.groups [] rfl (by simp)
      rw [List.append_nil] at hjoin
      exact .inr ⟨first, groups, hok, hfirst, hjoin⟩
    · exact absurd (groupPass_of_not_rightForm (Nat.zero_le 4) hform) h

/-! ## The prefix -/

theorem strchr_eq_none {c : Char} {s : List Char} (h : c ∉ s) : strchr c s = none := by
  induction s with
  | nil =>
      rfl
  | cons d s ih =>
      obtain ⟨hd, hs⟩ := not_or.1 (List.mem_cons.not.1 h)
      rw [strchr, if_neg (Ne.symm hd)]
      exact ih hs

theorem eq_append_of_strchr {c : Char} {s suffix : List Char} (h : strchr c s = some suffix) :
    ∃ front tail, s = front ++ c :: tail ∧ suffix = c :: tail := by
  induction s with
  | nil =>
      cases h
  | cons d s ih =>
      rw [strchr] at h
      split at h
      · rename_i hd
        subst hd
        exact ⟨[], s, rfl, (Option.some.inj h).symm⟩
      · obtain ⟨front, tail, rfl, rfl⟩ := ih h
        exact ⟨d :: front, tail, rfl, rfl⟩

/-- A prefix is recognised in front of characters other than `x`. -/
theorem etoi_of_prefixed {start value : List Char} (hstart : start ∈ hexPrefixes)
    (hx : 'x' ∉ value) : etoi (start ++ value) = hexValue value := by
  have hlength : value.length + 1 + 1 - value.length = 2 := by omega
  simp only [hexPrefixes, List.mem_cons, List.not_mem_nil, or_false] at hstart
  rcases hstart with rfl | rfl | rfl | rfl <;> simp [etoi, strchr, strchr_eq_none hx, hlength]

/-- What `etoi` can return. -/
theorem etoi_cases (s : List Char) :
    (∃ start ∈ hexPrefixes, ∃ value, s = start ++ value ∧ etoi s = hexValue value) ∨
      ((∀ c ∈ s, c.isDigit = true) ∧ etoi s = ofLong (decimal s)) ∨ etoi s = -1 := by
  cases hfound : (strchr 'x' s).or (strchr 'X' s) with
  | none =>
      have heq : etoi s = if s.all Char.isDigit then ofLong (decimal s) else -1 := by
        simp only [etoi, hfound]
      rw [heq]
      split
      · rename_i hall
        exact .inr (.inl ⟨List.all_eq_true.1 hall, rfl⟩)
      · exact .inr (.inr rfl)
  | some suffix =>
      obtain ⟨x, hx, front, value, rfl, rfl⟩ : ∃ x, (x = 'x' ∨ x = 'X') ∧ ∃ front value,
          s = front ++ x :: value ∧ suffix = x :: value := by
        rcases Option.or_eq_some_iff.1 hfound with h | ⟨-, h⟩
        · exact ⟨'x', .inl rfl, eq_append_of_strchr h⟩
        · exact ⟨'X', .inr rfl, eq_append_of_strchr h⟩
      have hlength : (front ++ x :: value).length - value.length = front.length + 1 := by
        simp only [List.length_append, List.length_cons]
        omega
      simp only [etoi, hfound, List.tail_cons, hlength]
      split_ifs with hlong hzero
      · exact .inr (.inr rfl)
      · exact .inr (.inr rfl)
      · left
        match front with
        | [] =>
            refine ⟨[x], ?_, value, rfl, rfl⟩
            rcases hx with rfl | rfl <;> decide
        | [c] =>
            have hc : c = '0' := by
              by_contra hne
              exact hzero ⟨rfl, by simpa using hne⟩
            refine ⟨[c, x], ?_, value, rfl, rfl⟩
            rcases hx with rfl | rfl <;> rw [hc] <;> decide
        | c :: c' :: front =>
            simp only [List.length_cons] at hlong
            omega

/-! ## What etoi returns -/

theorem not_mem_of_forall {p : Char → Bool} {c : Char} {s : List Char} (hc : p c = false)
    (h : ∀ d ∈ s, p d = true) : c ∉ s := by
  intro hmem
  have := h c hmem
  rw [hc] at this
  cases this

theorem x_not_mem_joinGroups {first : List Char} {groups : List (Char × List Char)}
    (hok : GroupsOk first groups) : 'x' ∉ joinGroups first groups := by
  refine not_mem_of_forall (p := fun c => isHex c || isSeparator c) (by decide) ?_
  intro d hd
  rw [joinGroups, List.mem_append, List.mem_flatMap] at hd
  rcases hd with hd | ⟨g, hg, hd⟩
  · rw [hok.first_hex d hd]
    rfl
  · rcases List.mem_cons.1 hd with rfl | hd
    · rw [hok.separator g hg, Bool.or_true]
    · rw [hok.hex g hg d hd]
      rfl

theorem etoi_of_plain {s : List Char} {n : Nat} (h : PlainNumber s n) : etoi s = ofLong n := by
  cases h with
  | decimal hne hall =>
      have hx : strchr 'x' s = none := strchr_eq_none (not_mem_of_forall (by decide) hall)
      have hX : strchr 'X' s = none := strchr_eq_none (not_mem_of_forall (by decide) hall)
      simp only [etoi, hx, hX, Option.or_none]
      rw [if_pos (List.all_eq_true.2 hall)]
  | hex hstart hne hall =>
      rw [etoi_of_prefixed hstart (not_mem_of_forall (by decide) hall), hexValue_of_hex hne hall]

theorem etoi_of_grouped {k : Nat} {s : List Char} {n : Nat} (h : GroupedNumber k s n) (hk : k ≤ 4) :
    etoi s = BitVec.ofNat 32 n := by
  cases h with
  | mk hstart hok hfirst hne =>
      rw [etoi_of_prefixed hstart (x_not_mem_joinGroups hok), hexValue_of_groups hok (by omega) hne]

/-- Everything but numbers and the empty string is -1. -/
theorem etoi_ne {s : List Char} (h : etoi s ≠ -1) :
    s = [] ∨ (∃ n, PlainNumber s n) ∨ ∃ k n, k ≤ 4 ∧ GroupedNumber k s n := by
  rcases etoi_cases s with ⟨start, hstart, value, rfl, heq⟩ | ⟨hall, -⟩ | hnone
  · rw [heq] at h
    obtain ⟨hne, hhex | ⟨first, groups, hok, hfirst, rfl⟩⟩ := hexValue_ne h
    · exact .inr (.inl ⟨_, .hex hstart hne hhex⟩)
    · exact .inr (.inr ⟨_, _, hfirst, .mk hstart hok rfl hne⟩)
  · by_cases hne : s = []
    · exact .inl hne
    · exact .inr (.inl ⟨_, .decimal hne hall⟩)
  · exact absurd hnone h

/-- The prefix of a string is unique. -/
theorem hexPrefix_unique {start start' value value' : List Char} (hstart : start ∈ hexPrefixes)
    (hstart' : start' ∈ hexPrefixes) (h : start ++ value = start' ++ value') : value = value' := by
  simp only [hexPrefixes, List.mem_cons, List.not_mem_nil, or_false] at hstart hstart'
  rcases hstart with rfl | rfl | rfl | rfl <;> rcases hstart' with rfl | rfl | rfl | rfl <;>
    simp_all

/-- Behind its prefix a documented number begins with a digit. -/
theorem head_of_denotes {start value : List Char} {n : Nat} (hstart : start ∈ hexPrefixes)
    (h : Denotes (start ++ value) n) : ∃ c rest, value = c :: rest ∧ isHex c = true := by
  rcases h with h | ⟨k, hk, -, h⟩
  · generalize hs : start ++ value = s at h
    cases h with
    | decimal hne hall =>
        -- the prefix is not a digit
        subst hs
        exfalso
        simp only [hexPrefixes, List.mem_cons, List.not_mem_nil, or_false] at hstart
        rcases hstart with rfl | rfl | rfl | rfl
        · exact absurd (hall 'x' (by simp)) (by decide)
        · exact absurd (hall 'X' (by simp)) (by decide)
        · exact absurd (hall 'x' (by simp)) (by decide)
        · exact absurd (hall 'X' (by simp)) (by decide)
    | hex hstart' hne hall =>
        obtain rfl := hexPrefix_unique hstart hstart' hs
        obtain ⟨c, rest, rfl⟩ := List.exists_cons_of_ne_nil hne
        exact ⟨c, rest, rfl, hall c (by simp)⟩
  · generalize hs : start ++ value = s at h
    cases h with
    | mk hstart' hok hfirst hne =>
        rename_i first groups
        obtain rfl := hexPrefix_unique hstart hstart' hs
        obtain ⟨c, rest, rfl⟩ := List.exists_cons_of_length_pos (show 0 < first.length by omega)
        exact ⟨c, _, List.cons_append, hok.first_hex c (by simp)⟩

/-- A leading separator is not documented. -/
theorem not_denotes_of_leading {s : List Char} {n m : Nat} (h : GroupedNumber 0 s n) :
    ¬ Denotes s m := by
  cases h with
  | mk hstart hok hfirst hne =>
      rename_i start first groups
      intro hdenotes
      obtain ⟨c, rest, hjoin, hhex⟩ := head_of_denotes hstart hdenotes
      obtain rfl := List.length_eq_zero_iff.1 hfirst
      cases groups with
      | nil =>
          exact hne rfl
      | cons g groups =>
          have hsep := isHex_of_isSeparator (hok.separator g (by simp))
          have hc : g.1 = c := by
            simp only [joinGroups, List.nil_append, List.flatMap_cons, List.cons_append] at hjoin
            exact (List.cons.inj hjoin).1
          rw [hc, hhex] at hsep
          cases hsep

theorem ne_nil_of_prefixed {start : List Char} (hstart : start ∈ hexPrefixes) (value : List Char) :
    start ++ value ≠ [] := by
  intro h
  rw [(List.append_eq_nil_iff.1 h).1] at hstart
  exact absurd hstart (by decide)

theorem ne_nil_of_denotes {s : List Char} {n : Nat} (h : Denotes s n) : s ≠ [] := by
  rcases h with h | ⟨k, -, -, h⟩
  · cases h with
    | decimal hne hall =>
        exact hne
    | hex hstart hne hall =>
        exact ne_nil_of_prefixed hstart _
  · cases h with
    | mk hstart hok hfirst hne =>
        exact ne_nil_of_prefixed hstart _

/-- `etoi` returns the value of a documented number and -1 for every other string. -/
def EtoiCorrect (s : List Char) : Prop :=
  (∀ n, Denotes s n → etoi s = BitVec.ofNat 32 n) ∧ ((∀ n, ¬ Denotes s n) → etoi s = -1)

theorem ofLong_eq_iff {n : Nat} :
    ofLong n = BitVec.ofNat 32 n ↔ n < 2 ^ 63 ∨ n % 2 ^ 32 = 2 ^ 32 - 1 := by
  rw [ofLong, ← BitVec.toNat_inj, BitVec.toNat_ofNat, BitVec.toNat_ofNat]
  omega

theorem ofNat_eq_neg_one_iff {n : Nat} : BitVec.ofNat 32 n = -1 ↔ n % 2 ^ 32 = 2 ^ 32 - 1 := by
  rw [← BitVec.toNat_inj, BitVec.toNat_ofNat]
  exact Iff.rfl

/-- The parser is right for every string but the empty one, numbers without separators that do not fit
into a `long`, and numbers with a leading separator, up to those that are -1 anyway. -/
theorem etoi_correct_iff (s : List Char) :
    EtoiCorrect s ↔
      s ≠ [] ∧ (∀ n, PlainNumber s n → n < 2 ^ 63 ∨ n % 2 ^ 32 = 2 ^ 32 - 1) ∧
        ∀ n, GroupedNumber 0 s n → n % 2 ^ 32 = 2 ^ 32 - 1 := by
  constructor
  · rintro ⟨hdenotes, hother⟩
    refine ⟨?_, fun n hplain => ?_, fun n hleading => ?_⟩
    · rintro rfl
      exact absurd (hother fun n hn => ne_nil_of_denotes hn rfl) (by decide)
    · rw [← ofLong_eq_iff, ← etoi_of_plain hplain]
      exact hdenotes n (.inl hplain)
    · rw [← ofNat_eq_neg_one_iff, ← etoi_of_grouped hleading (by decide)]
      exact hother fun m => not_denotes_of_leading hleading
  · rintro ⟨hne, hplain, hleading⟩
    refine ⟨?_, fun hnot => ?_⟩
    · rintro n (h | ⟨k, -, hk, h⟩)
      · rw [etoi_of_plain h]
        exact ofLong_eq_iff.2 (hplain n h)
      · exact etoi_of_grouped h hk
    · by_contra hvalue
      rcases etoi_ne hvalue with h | ⟨n, h⟩ | ⟨k, n, hk, h⟩
      · exact hne h
      · exact hnot n (.inl h)
      · rcases Nat.eq_zero_or_pos k with rfl | hpos
        · apply hvalue
          rw [etoi_of_grouped h hk, ofNat_eq_neg_one_iff]
          exact hleading n h
        · exact hnot n (.inr ⟨k, hpos, hk, h⟩)

/-- `0x_1234` is not documented, and `etoi` returns `0x1234`. -/
theorem leading_separator_accepted : ¬ EtoiCorrect ['0', 'x', '_', '1', '2', '3', '4'] := by
  rintro ⟨-, hother⟩
  have hdigits : ['1', '2', '3', '4'].all isHex = true := by decide
  have hok : GroupsOk [] [('_', ['1', '2', '3', '4'])] := by
    refine ⟨by simp, by simp [isSeparator], by simp, ?_⟩
    intro g hg
    obtain rfl := List.mem_singleton.1 hg
    exact List.all_eq_true.1 hdigits
  have hleading : GroupedNumber 0 (['0', 'x'] ++ joinGroups [] [('_', ['1', '2', '3', '4'])])
      (hexNumber (joinGroups [] [('_', ['1', '2', '3', '4'])])) :=
    .mk (by decide) hok rfl (by decide)
  have hvalue := hother fun m => not_denotes_of_leading hleading
  revert hvalue
  decide

end Host
end PcieBench
