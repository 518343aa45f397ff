import PcieBench.Host.Benchmark

/-!
# What the argument parser accepts

`readArguments` walks over `argv` with an index that its branches advance.  Beside the code stands a
grammar: options with the values they need, and sizes written as decimal digits with an optional unit.
The walk is the grammar's list of options applied one after the other, so that what the code accepts,
what it reads and what its fields hold can be compared with the grammar.
-/

namespace PcieBench
namespace Host

/-! ## Sizes -/

/-- The factor of a unit. -/
def unitFactor (c : Char) : Option Nat :=
  if c.toUpper = 'G' then some (1024 * 1024 * 1024)
  else if c.toUpper = 'M' then some (1024 * 1024)
  else if c.toUpper = 'K' then some 1024
  else none

/-- The number of a string of decimal digits. -/
def decimal (digits : List Char) : Nat := digits.foldl (fun n c => 10 * n + (c.toNat - '0'.toNat)) 0

/-- A size as it is documented: decimal digits and an optional unit, as a number and a factor. -/
def parseSize (s : List Char) : Option (Nat × Nat) :=
  if s.takeWhile Char.isDigit = [] then none
  else
    match s.dropWhile Char.isDigit with
    | [] => some (decimal (s.takeWhile Char.isDigit), 1)
    | [c] => (unitFactor c).map fun factor => (decimal (s.takeWhile Char.isDigit), factor)
    | _ => none

/-- The integer that a size denotes. -/
def denoted (s : String) : Option Nat := (parseSize s.toList).map fun x => x.1 * x.2

/-- A size whose number fits into a `long` and whose value fits into 64 bits. -/
def PlainSize (s : String) : Prop :=
  ∃ number factor, parseSize s.toList = some (number, factor) ∧ number < 2 ^ 63 ∧
    number * factor < 2 ^ 64

theorem ne_of_isDigit {c d : Char} (hc : c.isDigit = true) (hd : d.isDigit = false) : c ≠ d := by
  rintro rfl
  rw [hc] at hd
  cases hd

theorem isSpace_of_isDigit {c : Char} (hc : c.isDigit = true) : isSpace c = false := by
  simp [isSpace, ne_of_isDigit hc (show ' '.isDigit = false from rfl),
    ne_of_isDigit hc (show '\t'.isDigit = false from rfl),
    ne_of_isDigit hc (show '\n'.isDigit = false from rfl),
    ne_of_isDigit hc (show '\r'.isDigit = false from rfl),
    ne_of_isDigit hc (show (Char.ofNat 11).isDigit = false from rfl),
    ne_of_isDigit hc (show (Char.ofNat 12).isDigit = false from rfl)]

theorem scanSign_of_isDigit {c : Char} (hc : c.isDigit = true) (s : List Char) :
    scanSign (c :: s) = (false, c :: s) := by
  have hminus := ne_of_isDigit hc (show '-'.isDigit = false from rfl)
  have hplus := ne_of_isDigit hc (show '+'.isDigit = false from rfl)
  unfold scanSign
  split
  · exact absurd (List.cons.inj ‹_›).1 hminus
  · exact absurd (List.cons.inj ‹_›).1 hplus
  · rfl

/-- Digits in front are the number of `%ld`, up to its saturation. -/
theorem scanLong_of_digits {s : List Char} (h : s.takeWhile Char.isDigit ≠ []) :
    scanLong s = some (BitVec.ofNat 64 (min (decimal (s.takeWhile Char.isDigit)) (2 ^ 63 - 1)),
      s.dropWhile Char.isDigit) := by
  cases s with
  | nil =>
      exact absurd rfl h
  | cons c s =>
      have hc : c.isDigit = true := by
        by_contra hnot
        rw [List.takeWhile_cons_of_neg hnot] at h
        exact h rfl
      have hspace : (c :: s).dropWhile isSpace = c :: s := by
        rw [List.dropWhile_cons, isSpace_of_isDigit hc]
        rfl
      simp only [scanLong, hspace, scanSign_of_isDigit hc]
      rw [if_neg h, if_neg (by decide)]
      rfl

theorem unitFactor_pos {c : Char} {factor : Nat} (h : unitFactor c = some factor) : 0 < factor := by
  unfold unitFactor at h
  split_ifs at h <;> cases h <;> decide

/-- The units of `string2bytes` are those of the grammar. -/
theorem scaled_eq (size : BitVec 64) {c : Char} {factor : Nat} (h : unitFactor c = some factor) :
    (if c.toUpper = 'G' then size * (1024 * 1024 * 1024)
      else if c.toUpper = 'M' then size * (1024 * 1024)
      else if c.toUpper = 'K' then size * 1024
      else size) = size * BitVec.ofNat 64 factor := by
  unfold unitFactor at h
  split_ifs at h ⊢ <;> cases h <;> rfl

/-- What `string2bytes` makes of a documented size. -/
theorem string2bytes_of_parseSize {s : String} {number factor : Nat}
    (h : parseSize s.toList = some (number, factor)) (junk : BitVec 64) :
    0 < factor ∧ string2bytes junk s = BitVec.ofNat 64 (min number (2 ^ 63 - 1) * factor) := by
  unfold parseSize at h
  split at h
  · cases h
  · rename_i hdigits
    rw [string2bytes, scanLong_of_digits hdigits]
    split at h
    · rename_i hrest
      simp only [Option.some.injEq, Prod.mk.injEq] at h
      obtain ⟨rfl, rfl⟩ := h
      rw [hrest, Nat.mul_one]
      exact ⟨by decide, rfl⟩
    · rename_i c hrest
      simp only [Option.map_eq_some_iff, Prod.mk.injEq] at h
      obtain ⟨_, hunit, rfl, rfl⟩ := h
      rw [hrest, BitVec.ofNat_mul]
      exact ⟨unitFactor_pos hunit, scaled_eq _ hunit⟩
    · cases h

/-- Saturation and wrapping are the only ways to miss a product. -/
theorem saturated_mul_eq_iff {number factor : Nat} (hpos : 0 < factor) :
    number * factor = min number (2 ^ 63 - 1) * factor % 2 ^ 64 ↔
      number < 2 ^ 63 ∧ number * factor < 2 ^ 64 := by
  constructor
  · intro h
    have hlt : number * factor < 2 ^ 64 := h ▸ Nat.mod_lt _ (by decide)
    refine ⟨?_, hlt⟩
    by_contra hge
    -- a unit would take the number out of 64 bits
    obtain rfl : factor = 1 := by
      have := Nat.mul_le_mul_right factor (Nat.not_lt.1 hge)
      omega
    omega
  · rintro ⟨hnumber, hproduct⟩
    rw [Nat.min_eq_left (by omega), Nat.mod_eq_of_lt hproduct]

/-- The converter returns what the size denotes exactly if nothing saturates or wraps. -/
theorem denoted_eq_iff (junk : BitVec 64) (s : String) :
    denoted s = some (string2bytes junk s).toNat ↔ PlainSize s := by
  cases h : parseSize s.toList with
  | none =>
      simp [denoted, PlainSize, h]
  | some x =>
      obtain ⟨number, factor⟩ := x
      obtain ⟨hpos, hvalue⟩ := string2bytes_of_parseSize h junk
      have hiff : PlainSize s ↔ number < 2 ^ 63 ∧ number * factor < 2 ^ 64 := by
        simp only [PlainSize, h, Option.some.injEq, Prod.mk.injEq]
        constructor
        · rintro ⟨_, _, ⟨rfl, rfl⟩, hplain⟩
          exact hplain
        · intro hplain
          exact ⟨number, factor, ⟨rfl, rfl⟩, hplain⟩
      rw [hiff, denoted, h, hvalue, Option.map_some, Option.some.injEq, BitVec.toNat_ofNat]
      exact saturated_mul_eq_iff hpos

/-! ## Options -/

/-- The fields that `-n`, `-l` and `-w` set. -/
inductive SizeField
  | nbytes
  | niters
  | wsize
  deriving DecidableEq, Repr

def SizeField.get (arg : Arguments) : SizeField → BitVec 64
  | .nbytes => arg.nbytes
  | .niters => arg.niters
  | .wsize => arg.wsize

def SizeField.set (arg : Arguments) (size : BitVec 64) : SizeField → Arguments
  | .nbytes => { arg with nbytes := size }
  | .niters => { arg with niters := size }
  | .wsize => { arg with wsize := size }

/-- An option with its values. -/
inductive OptionGroup
  | test (value : String)
  | file (value : String)
  | size (field : SizeField) (value : String)
  | dir (value : String)
  | cache (value : String)
  | seq
  | fix (value : String)
  | ran (value : String)
  deriving DecidableEq, Repr

/-- What comes behind the last complete option: nothing, something that is not an option, or an option
whose value is missing. -/
inductive Ending
  | complete
  | unknown
  | truncated (option : String)
  deriving DecidableEq, Repr

/-- What an argument and the one behind it are: an option with its value, a pattern that needs another
value, or an unknown pattern or option. -/
inductive Shape
  | one (group : OptionGroup)
  | two (group : String → OptionGroup)
  | unknown (pattern : Bool)

def shape (option value : String) : Shape :=
  if option = "-t" then .one (.test value)
  else if option = "-f" then .one (.file value)
  else if option = "-n" then .one (.size .nbytes value)
  else if option = "-l" then .one (.size .niters value)
  else if option = "-w" then .one (.size .wsize value)
  else if option = "-d" then .one (.dir value)
  else if option = "-c" then .one (.cache value)
  else if option = "-p" then
    if value = "SEQ" then .one .seq
    else if value = "FIX" then .two .fix
    else if value = "RAN" then .two .ran
    else .unknown true
  else .unknown false

/-- The options of an argument list, each with its index in `argv`. -/
def scan : Nat → List String → List (Nat × OptionGroup) × Ending
  | _, [] => ([], .complete)
  | _, [option] =>
      if option ∈ ["-t", "-f", "-n", "-l", "-w", "-d", "-c", "-p"] then ([], .truncated option)
      else ([], .unknown)
  | i, option :: value :: rest =>
      match shape option value with
      | .one group => ((i, group) :: (scan (i + 2) rest).1, (scan (i + 2) rest).2)
      | .two group =>
          match rest with
          -- only `-p` has patterns
          | [] => ([], .truncated "-p")
          | size :: rest => ((i, group size) :: (scan (i + 3) rest).1, (scan (i + 3) rest).2)
      | .unknown _ => ([], .unknown)

/-- What an option does to the arguments. -/
def applyGroup (junk : Nat → Nat → BitVec 64) (arg : Arguments) :
    Nat × OptionGroup → Option Arguments
  | (_, .test value) => readTest arg value
  | (_, .file value) => some { arg with fileName := some value }
  | (i, .size field value) => some (field.set arg (string2bytes (junk (i + 1) 0) value))
  | (_, .dir value) => readDirection arg value
  | (_, .cache value) => readCache arg value
  | (_, .seq) => some { arg with pat := .seq }
  | (i, .fix value) => some (readFix (junk (i + 2) 0) arg value)
  | (i, .ran value) => readRan (junk (i + 2)) arg value

/-- What the loop returns behind the last complete option. -/
def finish (arg : Arguments) : Ending → Parsed
  | .complete => .accepted arg
  | .unknown => .refused
  | .truncated option => if option = "-f" then .accepted { arg with fileName := none } else .fault

section Walk

variable {junk : Nat → Nat → BitVec 64} {i : Nat} {option value : String} {rest : List String}
  {arg : Arguments}

/-- One pass of the loop over arguments of a shape. -/
def passShape (junk : Nat → Nat → BitVec 64) (i : Nat) (rest : List String) (arg : Arguments) :
    Shape → Parsed
  | .one group =>
      match applyGroup junk arg (i, group) with
      | some arg => readOptions junk (i + 2) rest arg
      | none => .refused
  | .two group =>
      match rest with
      | [] => .fault
      | size :: rest =>
          match applyGroup junk arg (i, group size) with
          | some arg => readOptions junk (i + 3) rest arg
          | none => .refused
  | .unknown _ => .refused

theorem readOptions_cons_cons :
    readOptions junk i (option :: value :: rest) arg =
      passShape junk i rest arg (shape option value) := by
  unfold shape
  simp only [apply_ite (passShape junk i rest arg)]
  cases rest <;> rfl

/-- The loop applies the options one after the other. -/
theorem readOptions_eq (junk : Nat → Nat → BitVec 64) (i : Nat) (args : List String)
    (arg : Arguments) :
    readOptions junk i args arg =
      match (scan i args).1.foldlM (applyGroup junk) arg with
      | none => .refused
      | some arg => finish arg (scan i args).2 := by
  fun_induction scan i args generalizing arg with
  | case1 i =>
      rfl
  | case2 i option hmem =>
      simp only [List.mem_cons, List.not_mem_nil, or_false] at hmem
      rcases hmem with rfl | rfl | rfl | rfl | rfl | rfl | rfl | rfl <;> rfl
  | case3 i option hmem =>
      simp only [List.mem_cons, List.not_mem_nil, or_false, not_or] at hmem
      simp [readOptions, finish, hmem]
  | case4 i option value rest group hshape ih =>
      rw [readOptions_cons_cons, hshape, passShape, List.foldlM_cons]
      cases happly : applyGroup junk arg (i, group) with
      | none =>
          rfl
      | some arg =>
          exact ih arg
  | case5 i option value group hshape =>
      rw [readOptions_cons_cons, hshape]
      rfl
  | case6 i option value group hshape size rest ih =>
      rw [readOptions_cons_cons, hshape, passShape, List.foldlM_cons]
      cases happly : applyGroup junk arg (i, group size) with
      | none =>
          rfl
      | some arg =>
          exact ih arg
  | case7 i option value rest pattern hshape =>
      rw [readOptions_cons_cons, hshape]
      rfl

end Walk

/-! ## What is read -/

/-- The indices of `argv` that the loop reads from `argv[i]` on.  `argv[argc]` is the null pointer. -/
def argumentsRead (junk : Nat → Nat → BitVec 64) : Nat → List String → List Nat
  | _, [] => []
  | i, [option] =>
      if option ∈ ["-t", "-f", "-n", "-l", "-w", "-d", "-c", "-p"] then [i, i + 1] else [i]
  | i, option :: value :: rest =>
      if option = "-t" then
        [i, i + 1] ++ if (readTest .default value).isSome then argumentsRead junk (i + 2) rest else []
      else if option = "-f" then [i, i + 1] ++ argumentsRead junk (i + 2) rest
      else if option = "-n" then [i, i + 1] ++ argumentsRead junk (i + 2) rest
      else if option = "-l" then [i, i + 1] ++ argumentsRead junk (i + 2) rest
      else if option = "-w" then [i, i + 1] ++ argumentsRead junk (i + 2) rest
      else if option = "-d" then
        [i, i + 1] ++
          if (readDirection .default value).isSome then argumentsRead junk (i + 2) rest else []
      else if option = "-c" then
        [i, i + 1] ++ if (readCache .default value).isSome then argumentsRead junk (i + 2) rest else []
      else if option = "-p" then
        if value = "SEQ" then [i, i + 1] ++ argumentsRead junk (i + 2) rest
        else if value = "FIX" then
          [i, i + 1, i + 2] ++
            match rest with
            | [] => []
            | _ :: rest => argumentsRead junk (i + 3) rest
        else if value = "RAN" then
          [i, i + 1, i + 2] ++
            match rest with
            | [] => []
            | size :: rest =>
                if (readRan (junk (i + 2)) .default size).isSome then argumentsRead junk (i + 3) rest
                else []
        else [i, i + 1]
      else [i]

/-- The indices of `argv` that `readArguments` reads. -/
def indicesRead (junk : Nat → Nat → BitVec 64) (argv : List String) : List Nat :=
  if argv.length < 2 ∨ 18 < argv.length then [] else argumentsRead junk 1 argv.tail

section Reads

variable {junk : Nat → Nat → BitVec 64} {i : Nat} {option value : String} {rest : List String}

/-- What one pass and those behind it read. -/
def readsShape (junk : Nat → Nat → BitVec 64) (i : Nat) (rest : List String) : Shape → List Nat
  | .one group =>
      [i, i + 1] ++
        if (applyGroup junk .default (i, group)).isSome then argumentsRead junk (i + 2) rest else []
  | .two group =>
      [i, i + 1, i + 2] ++
        match rest with
        | [] => []
        | size :: rest =>
            if (applyGroup junk .default (i, group size)).isSome then argumentsRead junk (i + 3) rest
            else []
  | .unknown pattern => if pattern then [i, i + 1] else [i]

theorem argumentsRead_cons_cons :
    argumentsRead junk i (option :: value :: rest) =
      readsShape junk i rest (shape option value) := by
  unfold shape
  simp only [apply_ite (readsShape junk i rest)]
  cases rest <;> rfl

end Reads

/-- The values of the options with keywords. -/
def KeywordOk : OptionGroup → Prop
  | .test value => value ∈ ["lat", "bw"]
  | .dir value => value ∈ ["RW", "rw", "R", "r", "W", "w"]
  | .cache value => value ∈ ["discard", "warm", "ignore"]
  | _ => True

/-- The option is one that the loop goes on from: its keyword is known, and a random window has at
least one page. -/
def LegalGroup (junk : Nat → Nat → BitVec 64) (x : Nat × OptionGroup) : Prop :=
  KeywordOk x.2 ∧ ∀ value, x.2 = .ran value →
    (string2bytes (junk (x.1 + 2) 0) value + 4096 - 1) / 4096 ≠ 0

theorem applyGroup_isSome (junk : Nat → Nat → BitVec 64) (arg : Arguments) (x : Nat × OptionGroup) :
    (applyGroup junk arg x).isSome = true ↔ LegalGroup junk x := by
  obtain ⟨i, group⟩ := x
  cases group with
  | test value =>
      simp only [applyGroup, LegalGroup, KeywordOk, readTest]
      split_ifs <;> simp [*]
  | dir value =>
      simp only [applyGroup, LegalGroup, KeywordOk, readDirection]
      split_ifs <;> simp_all <;> tauto
  | cache value =>
      simp only [applyGroup, LegalGroup, KeywordOk, readCache]
      split_ifs <;> simp [*]
  | ran value =>
      simp only [applyGroup, LegalGroup, KeywordOk, readRan]
      split_ifs <;> simp_all
  | file value =>
      simp [applyGroup, LegalGroup, KeywordOk]
  | size field value =>
      simp [applyGroup, LegalGroup, KeywordOk]
  | seq =>
      simp [applyGroup, LegalGroup, KeywordOk]
  | fix value =>
      simp [applyGroup, LegalGroup, KeywordOk]

theorem foldlM_applyGroup_isSome (junk : Nat → Nat → BitVec 64) (gs : List (Nat × OptionGroup))
    (arg : Arguments) :
    (gs.foldlM (applyGroup junk) arg).isSome = true ↔ ∀ x ∈ gs, LegalGroup junk x := by
  induction gs generalizing arg with
  | nil =>
      simp
  | cons x gs ih =>
      rw [List.foldlM_cons, List.forall_mem_cons, ← applyGroup_isSome junk arg x]
      cases applyGroup junk arg x with
      | none =>
          simp
      | some arg =>
          simpa using ih arg

section Bounds

variable {legal P : Prop} [Decidable legal] {front sub : List Nat}

/-- A pass reads `front`, and goes on where its option is legal. -/
theorem forall_pass_iff {bound : Nat → Prop} (hfront : ∀ k ∈ front, bound k)
    (hsub : (∀ k ∈ sub, bound k) ↔ P) :
    (∀ k ∈ front ++ if legal then sub else [], bound k) ↔ (legal → P) := by
  rw [List.forall_mem_append, ← hsub]
  split
  · rename_i hlegal
    exact ⟨fun h _ => h.2, fun h => ⟨hfront, h hlegal⟩⟩
  · rename_i hlegal
    exact ⟨fun _ h => absurd h hlegal, fun _ => ⟨hfront, by simp⟩⟩

end Bounds

/-- The loop reads `argv[argc]` exactly where it comes to an option whose value is missing. -/
theorem argumentsRead_lt_iff (junk : Nat → Nat → BitVec 64) (i : Nat) (args : List String) :
    (∀ k ∈ argumentsRead junk i args, k < i + args.length) ↔
      ((∀ x ∈ (scan i args).1, LegalGroup junk x) → ∀ option, (scan i args).2 ≠ .truncated option) := by
  fun_induction scan i args with
  | case1 i =>
      simp [argumentsRead]
  | case2 i option hmem =>
      simp [argumentsRead, hmem]
  | case3 i option hmem =>
      simp [argumentsRead, hmem]
  | case4 i option value rest group hshape ih =>
      have hlength : i + (option :: value :: rest).length = i + 2 + rest.length := by
        simp only [List.length_cons]
        omega
      rw [argumentsRead_cons_cons, hshape, hlength, List.forall_mem_cons, and_imp,
        ← applyGroup_isSome junk .default]
      refine forall_pass_iff ?_ ih
      simp only [List.mem_cons, List.not_mem_nil, or_false]
      omega
  | case5 i option value group hshape =>
      rw [argumentsRead_cons_cons, hshape, readsShape]
      simp
  | case6 i option value group hshape size rest ih =>
      have hlength : i + (option :: value :: size :: rest).length = i + 3 + rest.length := by
        simp only [List.length_cons]
        omega
      rw [argumentsRead_cons_cons, hshape, hlength, List.forall_mem_cons, and_imp,
        ← applyGroup_isSome junk .default]
      refine forall_pass_iff ?_ ih
      simp only [List.mem_cons, List.not_mem_nil, or_false]
      omega
  | case7 i option value rest pattern hshape =>
      rw [argumentsRead_cons_cons, hshape, readsShape]
      cases pattern <;> simp

theorem le_of_mem_argumentsRead (junk : Nat → Nat → BitVec 64) (i : Nat) (args : List String) :
    ∀ k ∈ argumentsRead junk i args, i ≤ k := by
  fun_induction scan i args with
  | case1 i =>
      simp [argumentsRead]
  | case2 i option hmem =>
      simp [argumentsRead, hmem]
  | case3 i option hmem =>
      simp [argumentsRead, hmem]
  | case4 i option value rest group hshape ih =>
      rw [argumentsRead_cons_cons, hshape]
      have hsub : ∀ k ∈ argumentsRead junk (i + 2) rest, i ≤ k :=
        fun k hk => Nat.le_trans (by omega) (ih k hk)
      exact (forall_pass_iff (by simp) (iff_of_true hsub trivial)).2 fun _ => trivial
  | case5 i option value group hshape =>
      rw [argumentsRead_cons_cons, hshape, readsShape]
      simp
  | case6 i option value group hshape size rest ih =>
      rw [argumentsRead_cons_cons, hshape]
      have hsub : ∀ k ∈ argumentsRead junk (i + 3) rest, i ≤ k :=
        fun k hk => Nat.le_trans (by omega) (ih k hk)
      exact (forall_pass_iff (by simp) (iff_of_true hsub trivial)).2 fun _ => trivial
  | case7 i option value rest pattern hshape =>
      rw [argumentsRead_cons_cons, hshape, readsShape]
      cases pattern <;> simp

/-! ## What the fields hold -/

/-- The last value of a size option, with the option's index. -/
def lastSize (field : SizeField) (gs : List (Nat × OptionGroup)) : Option (Nat × String) :=
  (gs.filterMap fun x =>
    match x with
    | (i, .size field' value) => if field' = field then some (i, value) else none
    | _ => none).getLast?

def OptionGroup.isPattern : OptionGroup → Bool
  | .seq => true
  | .fix _ => true
  | .ran _ => true
  | _ => false

/-- The last pattern, with the option's index. -/
def lastPattern (gs : List (Nat × OptionGroup)) : Option (Nat × OptionGroup) :=
  (gs.filter fun x => x.2.isPattern).getLast?

/-- What a size field holds behind the options. -/
def sizeValue (junk : Nat → Nat → BitVec 64) (gs : List (Nat × OptionGroup)) (field : SizeField) :
    BitVec 64 :=
  match lastSize field gs with
  | some (i, value) => string2bytes (junk (i + 1) 0) value
  | none => field.get .default

/-- The pattern and its property are those of the last `-p`. -/
def PatternSet (junk : Nat → Nat → BitVec 64) (arg : Arguments) : Option (Nat × OptionGroup) → Prop
  | some (_, .seq) => arg.pat = .seq
  | some (i, .fix value) =>
      arg.pat = .fix ∧ arg.prop.initialOffset = string2bytes (junk (i + 2) 0) value
  | some (i, .ran value) =>
      arg.pat = .ran ∧ arg.prop.windowsize = string2bytes (junk (i + 2) 2) value
  | _ => arg.pat = .fix ∧ arg.prop.initialOffset = 0

section Fields

variable {junk : Nat → Nat → BitVec 64} {gs : List (Nat × OptionGroup)} {arg : Arguments}

/-- What an option leaves in a size field. -/
def OptionGroup.sizeOr (junk : Nat → Nat → BitVec 64) (i : Nat) (field : SizeField) (old : BitVec 64) :
    OptionGroup → BitVec 64
  | .size field' value => if field' = field then string2bytes (junk (i + 1) 0) value else old
  | _ => old

theorem get_applyGroup {arg' : Arguments} {i : Nat} {group : OptionGroup}
    (h : applyGroup junk arg (i, group) = some arg') (field : SizeField) :
    field.get arg' = group.sizeOr junk i field (field.get arg) := by
  cases group with
  | test value =>
      simp only [applyGroup, readTest] at h
      split_ifs at h <;> cases h <;> cases field <;> rfl
  | dir value =>
      simp only [applyGroup, readDirection] at h
      split_ifs at h <;> cases h <;> cases field <;> rfl
  | cache value =>
      simp only [applyGroup, readCache] at h
      split_ifs at h <;> cases h <;> cases field <;> rfl
  | ran value =>
      simp only [applyGroup, readRan] at h
      split_ifs at h
      cases h
      cases field <;> rfl
  | size field' value =>
      cases h
      cases field <;> cases field' <;> rfl
  | file value =>
      cases h
      cases field <;> rfl
  | seq =>
      cases h
      cases field <;> rfl
  | fix value =>
      cases h
      cases field <;> rfl

theorem sizeValue_append (i : Nat) (group : OptionGroup) (field : SizeField) :
    sizeValue junk (gs ++ [(i, group)]) field =
      group.sizeOr junk i field (sizeValue junk gs field) := by
  cases group with
  | size field' value =>
      by_cases h : field' = field <;>
        simp [sizeValue, lastSize, OptionGroup.sizeOr, List.filterMap_append, h]
  | _ =>
      simp [sizeValue, lastSize, OptionGroup.sizeOr, List.filterMap_append]

theorem get_of_foldlM (h : gs.foldlM (applyGroup junk) .default = some arg) (field : SizeField) :
    field.get arg = sizeValue junk gs field := by
  induction gs using List.reverseRecOn generalizing arg with
  | nil =>
      cases h
      rfl
  | append_singleton gs x ih =>
      obtain ⟨i, group⟩ := x
      rw [List.foldlM_append, Option.bind_eq_bind, Option.bind_eq_some_iff] at h
      obtain ⟨arg', hgs, hx⟩ := h
      have hlast : applyGroup junk arg' (i, group) = some arg := by simpa using hx
      rw [get_applyGroup hlast, sizeValue_append, ih hgs]

theorem lastPattern_append (i : Nat) (group : OptionGroup) :
    lastPattern (gs ++ [(i, group)]) =
      if group.isPattern then some (i, group) else lastPattern gs := by
  cases h : group.isPattern <;> simp [lastPattern, List.filter_append, h]

/-- An option other than a pattern keeps the pattern. -/
theorem pattern_applyGroup {arg' : Arguments} {i : Nat} {group : OptionGroup}
    (h : applyGroup junk arg (i, group) = some arg') (hgroup : group.isPattern = false) :
    arg'.pat = arg.pat ∧ arg'.prop = arg.prop := by
  cases group with
  | test value =>
      simp only [applyGroup, readTest] at h
      split_ifs at h <;> cases h <;> exact ⟨rfl, rfl⟩
  | dir value =>
      simp only [applyGroup, readDirection] at h
      split_ifs at h <;> cases h <;> exact ⟨rfl, rfl⟩
  | cache value =>
      simp only [applyGroup, readCache] at h
      split_ifs at h <;> cases h <;> exact ⟨rfl, rfl⟩
  | size field value =>
      cases h
      cases field <;> exact ⟨rfl, rfl⟩
  | file value =>
      cases h
      exact ⟨rfl, rfl⟩
  | seq =>
      cases hgroup
  | fix value =>
      cases hgroup
  | ran value =>
      cases hgroup

theorem patternSet_applyGroup {arg' : Arguments} {i : Nat} {group : OptionGroup}
    (h : applyGroup junk arg (i, group) = some arg') (hset : PatternSet junk arg (lastPattern gs)) :
    PatternSet junk arg' (lastPattern (gs ++ [(i, group)])) := by
  rw [lastPattern_append]
  cases hgroup : group.isPattern with
  | false =>
      obtain ⟨hpat, hprop⟩ := pattern_applyGroup h hgroup
      rw [if_neg (by decide)]
      unfold PatternSet at hset ⊢
      rw [hpat, hprop]
      exact hset
  | true =>
      rw [if_pos rfl]
      cases group with
      | seq =>
          cases h
          rfl
      | fix value =>
          cases h
          exact ⟨rfl, rfl⟩
      | ran value =>
          simp only [applyGroup, readRan] at h
          split_ifs at h
          cases h
          exact ⟨rfl, rfl⟩
      | _ =>
          cases hgroup

theorem patternSet_of_foldlM (h : gs.foldlM (applyGroup junk) .default = some arg) :
    PatternSet junk arg (lastPattern gs) := by
  induction gs using List.reverseRecOn generalizing arg with
  | nil =>
      cases h
      exact ⟨rfl, rfl⟩
  | append_singleton gs x ih =>
      obtain ⟨i, group⟩ := x
      rw [List.foldlM_append, Option.bind_eq_bind, Option.bind_eq_some_iff] at h
      obtain ⟨arg', hgs, hx⟩ := h
      have hlast : applyGroup junk arg' (i, group) = some arg := by simpa using hx
      exact patternSet_applyGroup hlast (ih hgs)

end Fields

/-! ## The contract -/

/-- The arguments are what the documentation makes of the options. -/
structure MeantBy (gs : List (Nat × OptionGroup)) (args : Arguments) : Prop where
  keywords : ∀ x ∈ gs, KeywordOk x.2
  wsize : 1 ≤ args.wsize.toNat ∧ args.wsize.toNat ≤ 24
  niters : 0 < args.niters.toNat ∧ args.niters.toNat < 1024
  nbytes : 0 < args.nbytes.toNat ∧ args.nbytes.toNat % 4 = 0
  sizes : ∀ field i s, lastSize field gs = some (i, s) → denoted s = some (field.get args).toNat
  offset : ∀ i s, lastPattern gs = some (i, .fix s) →
    denoted s = some args.prop.initialOffset.toNat
  window : ∀ i s, lastPattern gs = some (i, .ran s) → denoted s = some args.prop.windowsize.toNat

/-- Only `argv[1]`, …, `argv[argc - 1]` are read, and what is accepted is a list of options with their
values and has the documented meaning. -/
structure ParserContract (junk : Nat → Nat → BitVec 64) (argv : List String) : Prop where
  reads : ∀ k ∈ indicesRead junk argv, 1 ≤ k ∧ k < argv.length
  returns : readArguments junk argv ≠ .fault
  accepts : ∀ args, readArguments junk argv = .accepted args →
    ∃ gs, scan 1 argv.tail = (gs, .complete) ∧ MeantBy gs args

/-- The checks behind the loop. -/
def SizesChecked (junk : Nat → Nat → BitVec 64) (gs : List (Nat × OptionGroup)) : Prop :=
  ¬ (24 < sizeValue junk gs .wsize ∨ sizeValue junk gs .wsize < 1) ∧
    sizeValue junk gs .nbytes % 4 = 0 ∧
    ¬ (1024 ≤ sizeValue junk gs .niters ∨ sizeValue junk gs .niters = 0)

/-- The sizes are numbers that the converter does not change, and the request is not empty. -/
structure PlainSizes (gs : List (Nat × OptionGroup)) : Prop where
  nonempty : ∃ i s, lastSize .nbytes gs = some (i, s) ∧ denoted s ≠ some 0
  sizes : ∀ field i s, lastSize field gs = some (i, s) → PlainSize s
  offset : ∀ i s, lastPattern gs = some (i, .fix s) → PlainSize s
  window : ∀ i s, lastPattern gs = some (i, .ran s) → PlainSize s

/-- What the parser does not check: that an option it comes to has its value, and that the sizes of a
list that passes its checks are plain. -/
structure CleanList (junk : Nat → Nat → BitVec 64) (args : List String) : Prop where
  values : (∀ x ∈ (scan 1 args).1, LegalGroup junk x) → ∀ option, (scan 1 args).2 ≠ .truncated option
  plain : (∀ x ∈ (scan 1 args).1, LegalGroup junk x) → (scan 1 args).2 = .complete →
    SizesChecked junk (scan 1 args).1 → PlainSizes (scan 1 args).1

section Contract

variable {junk : Nat → Nat → BitVec 64} {argv : List String} {args : Arguments}
  {gs : List (Nat × OptionGroup)}

theorem sizesChecked_iff (h : gs.foldlM (applyGroup junk) .default = some args) :
    SizesChecked junk gs ↔
      ¬ (24 < args.wsize ∨ args.wsize < 1) ∧ args.nbytes % 4 = 0 ∧
        ¬ (1024 ≤ args.niters ∨ args.niters = 0) := by
  have hwsize : args.wsize = sizeValue junk gs .wsize := get_of_foldlM h .wsize
  have hnbytes : args.nbytes = sizeValue junk gs .nbytes := get_of_foldlM h .nbytes
  have hniters : args.niters = sizeValue junk gs .niters := get_of_foldlM h .niters
  rw [hwsize, hnbytes, hniters]
  exact Iff.rfl

/-- A size field holds what its last string denotes exactly if that string is plain. -/
theorem denoted_get_iff (h : gs.foldlM (applyGroup junk) .default = some args) {field : SizeField}
    {i : Nat} {s : String} (hlast : lastSize field gs = some (i, s)) :
    denoted s = some (field.get args).toNat ↔ PlainSize s := by
  rw [get_of_foldlM h field, sizeValue, hlast]
  exact denoted_eq_iff _ s

theorem nonempty_iff (h : gs.foldlM (applyGroup junk) .default = some args)
    (hsizes : ∀ field i s, lastSize field gs = some (i, s) → PlainSize s) :
    0 < args.nbytes.toNat ↔ ∃ i s, lastSize .nbytes gs = some (i, s) ∧ denoted s ≠ some 0 := by
  have hget : args.nbytes = sizeValue junk gs .nbytes := get_of_foldlM h .nbytes
  cases hlast : lastSize .nbytes gs with
  | none =>
      rw [hget, sizeValue, hlast]
      simp [SizeField.get, Arguments.default]
  | some x =>
      obtain ⟨i, s⟩ := x
      have hdenoted : denoted s = some args.nbytes.toNat :=
        (denoted_get_iff h hlast).2 (hsizes .nbytes i s hlast)
      constructor
      · intro hpos
        refine ⟨i, s, rfl, ?_⟩
        rw [hdenoted, ne_eq, Option.some.injEq]
        omega
      · rintro ⟨_, _, hsome, hne⟩
        cases hsome
        rw [hdenoted, ne_eq, Option.some.injEq] at hne
        omega

/-- For a list that passes the checks, the documented meaning is that of plain sizes. -/
theorem meantBy_iff (h : gs.foldlM (applyGroup junk) .default = some args)
    (hchecked : SizesChecked junk gs) : MeantBy gs args ↔ PlainSizes gs := by
  obtain ⟨hwsize, hnbytes, hniters⟩ := (sizesChecked_iff h).1 hchecked
  have hpattern := patternSet_of_foldlM h
  have hoffset : ∀ i s, lastPattern gs = some (i, .fix s) →
      (denoted s = some args.prop.initialOffset.toNat ↔ PlainSize s) := by
    intro i s hlast
    rw [hlast] at hpattern
    rw [hpattern.2]
    exact denoted_eq_iff _ s
  have hwindow : ∀ i s, lastPattern gs = some (i, .ran s) →
      (denoted s = some args.prop.windowsize.toNat ↔ PlainSize s) := by
    intro i s hlast
    rw [hlast] at hpattern
    rw [hpattern.2]
    exact denoted_eq_iff _ s
  constructor
  · intro hmeant
    have hsizes : ∀ field i s, lastSize field gs = some (i, s) → PlainSize s :=
      fun field i s hlast => (denoted_get_iff h hlast).1 (hmeant.sizes field i s hlast)
    exact
      { nonempty := (nonempty_iff h hsizes).1 hmeant.nbytes.1
        sizes := hsizes
        offset := fun i s hlast => (hoffset i s hlast).1 (hmeant.offset i s hlast)
        window := fun i s hlast => (hwindow i s hlast).1 (hmeant.window i s hlast) }
  · intro hplain
    have hlegal := (foldlM_applyGroup_isSome junk gs .default).1 (by rw [h]; rfl)
    have hmod := congrArg BitVec.toNat hnbytes
    rw [BitVec.toNat_umod] at hmod
    exact
      { keywords := fun x hx => (hlegal x hx).1
        wsize := by bv_omega
        niters := by bv_omega
        nbytes := ⟨(nonempty_iff h hplain.sizes).2 hplain.nonempty, hmod⟩
        sizes := fun field i s hlast => (denoted_get_iff h hlast).2 (hplain.sizes field i s hlast)
        offset := fun i s hlast => (hoffset i s hlast).2 (hplain.offset i s hlast)
        window := fun i s hlast => (hwindow i s hlast).2 (hplain.window i s hlast) }

/-- What `readArguments` returns for an argument list of acceptable length. -/
theorem readArguments_accepted_scan (hlength : 2 ≤ argv.length ∧ argv.length ≤ 18)
    (hend : (scan 1 argv.tail).2 = .complete)
    (h : (scan 1 argv.tail).1.foldlM (applyGroup junk) .default = some args)
    (hchecked : SizesChecked junk (scan 1 argv.tail).1) :
    readArguments junk argv = .accepted args := by
  rw [readArguments_accepted, readOptions_eq, h, hend]
  exact ⟨hlength, rfl, (sizesChecked_iff h).1 hchecked⟩

/-- An option without its value is the only way to the null pointer. -/
theorem finish_of_not_truncated (arg : Arguments) {ending : Ending}
    (h : ∀ option, ending ≠ .truncated option) :
    finish arg ending ≠ .fault ∧
      ∀ args, finish arg ending = .accepted args → arg = args ∧ ending = .complete := by
  cases ending with
  | complete =>
      simp [finish]
  | unknown =>
      simp [finish]
  | truncated option =>
      exact absurd rfl (h option)

/-- The loop over a list in which no value is missing: it does not fault, and what it accepts is what
the options make of the defaults. -/
theorem readOptions_of_values (hvalues : (∀ x ∈ (scan 1 argv.tail).1, LegalGroup junk x) →
      ∀ option, (scan 1 argv.tail).2 ≠ .truncated option) :
    readOptions junk 1 argv.tail .default ≠ .fault ∧
      ∀ args, readOptions junk 1 argv.tail .default = .accepted args →
        (scan 1 argv.tail).1.foldlM (applyGroup junk) .default = some args ∧
          (scan 1 argv.tail).2 = .complete := by
  rw [readOptions_eq]
  have hsome := foldlM_applyGroup_isSome junk (scan 1 argv.tail).1 .default
  cases hfold : (scan 1 argv.tail).1.foldlM (applyGroup junk) .default with
  | none =>
      simp
  | some arg =>
      rw [hfold] at hsome
      obtain ⟨hfault, haccepted⟩ := finish_of_not_truncated arg (hvalues (hsome.1 rfl))
      refine ⟨hfault, fun args h => ?_⟩
      obtain ⟨rfl, hend⟩ := haccepted args h
      exact ⟨rfl, hend⟩

theorem readArguments_ne_fault (h : readOptions junk 1 argv.tail .default ≠ .fault) :
    readArguments junk argv ≠ .fault := by
  unfold readArguments
  split_ifs
  · simp
  · cases hresult : readOptions junk 1 argv.tail .default with
    | refused =>
        simp
    | fault =>
        exact absurd hresult h
    | accepted arg =>
        dsimp only
        split_ifs <;> simp

theorem indicesRead_iff (hlength : 2 ≤ argv.length ∧ argv.length ≤ 18) :
    (∀ k ∈ indicesRead junk argv, 1 ≤ k ∧ k < argv.length) ↔
      ((∀ x ∈ (scan 1 argv.tail).1, LegalGroup junk x) →
        ∀ option, (scan 1 argv.tail).2 ≠ .truncated option) := by
  have htail : 1 + argv.tail.length = argv.length := by
    rw [List.length_tail]
    omega
  rw [← argumentsRead_lt_iff, indicesRead, if_neg (by omega), htail]
  constructor
  · exact fun h k hk => (h k hk).2
  · exact fun h k hk => ⟨le_of_mem_argumentsRead junk 1 argv.tail k hk, h k hk⟩

end Contract

/-- The parser keeps its contract for the lists that are refused by their length and for those in which
no value is missing and every size that passes the checks is plain, and for no other. -/
theorem parser_contract_iff (junk : Nat → Nat → BitVec 64) (argv : List String) :
    ParserContract junk argv ↔
      argv.length < 2 ∨ 18 < argv.length ∨ CleanList junk argv.tail := by
  by_cases hlength : 2 ≤ argv.length ∧ argv.length ≤ 18
  · have hclean : (argv.length < 2 ∨ 18 < argv.length ∨ CleanList junk argv.tail) ↔
        CleanList junk argv.tail := by
      constructor
      · rintro (h | h | h)
        · omega
        · omega
        · exact h
      · exact fun h => .inr (.inr h)
    rw [hclean]
    constructor
    · intro hcontract
      refine ⟨(indicesRead_iff hlength).1 hcontract.reads, fun hlegal hend hchecked => ?_⟩
      have hsome := (foldlM_applyGroup_isSome junk (scan 1 argv.tail).1 .default).2 hlegal
      obtain ⟨args, hfold⟩ := Option.isSome_iff_exists.1 hsome
      obtain ⟨gs, hscan, hmeant⟩ :=
        hcontract.accepts args (readArguments_accepted_scan hlength hend hfold hchecked)
      rw [hscan] at hfold hchecked ⊢
      exact (meantBy_iff hfold hchecked).1 hmeant
    · intro hlist
      refine ⟨(indicesRead_iff hlength).2 hlist.values, ?_, ?_⟩
      · exact readArguments_ne_fault (readOptions_of_values hlist.values).1
      · intro args haccepted
        obtain ⟨-, hoptions, hchecks⟩ := readArguments_accepted.1 haccepted
        obtain ⟨hfold, hend⟩ := (readOptions_of_values hlist.values).2 args hoptions
        have hchecked := (sizesChecked_iff hfold).2 hchecks
        have hlegal := (foldlM_applyGroup_isSome junk _ .default).1 (by rw [hfold]; rfl)
        refine ⟨(scan 1 argv.tail).1, by rw [← hend], ?_⟩
        exact (meantBy_iff hfold hchecked).2 (hlist.plain hlegal hend hchecked)
  · -- refused without a look at the arguments
    have hrefused : readArguments junk argv = .refused := by
      rw [readArguments, if_pos (by omega)]
    refine iff_of_true ⟨?_, ?_, ?_⟩ (by omega)
    · rw [indicesRead, if_pos (by omega)]
      simp
    · rw [hrefused]
      simp
    · rw [hrefused]
      simp

/-- `-n` at the end: `argv[4]` is read, and the null pointer is converted. -/
theorem missing_value_faults : ¬ ParserContract (fun _ _ => 0) ["benchmark", "-l", "1", "-n"] := by
  intro h
  exact h.returns (by decide +kernel)

end Host
end PcieBench
