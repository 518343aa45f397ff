import PcieBench.Host.Driver
import PcieBench.Rq.Extent
import PcieBench.Rq.RandomAddress

/-!
# The benchmark

`benchmark.c` reads its arguments, checks each descriptor against the size of the host buffer and
hands it to the driver.  The checks are different for each pattern, and so are the addresses that the
hardware generates from the descriptor.  This module models both sides of that contract and says when
the DMA of an accepted descriptor stays inside the buffer.
-/

namespace PcieBench
namespace Host

/-! ## Arguments -/

/-- `enum test`. -/
inductive Test
  | latency
  | bandwidth
  deriving DecidableEq, Repr

/-- `enum pattern`. -/
inductive Pattern
  | fix
  | seq
  | ran
  deriving DecidableEq, Repr

/-- `enum direction`, seen from the host: `d2h` is a memory write of the device. -/
inductive Direction
  | d2h
  | h2d
  | both
  deriving DecidableEq, Repr

/-- `enum cache`. -/
inductive CacheMode
  | ignore
  | discard
  | warm
  deriving DecidableEq, Repr

/-- `union properties`: the offset of a fixed pattern shares the first word with the number of system
pages of a random one. -/
structure Properties where
  word0 : BitVec 64
  word1 : BitVec 64
  word2 : BitVec 64
  deriving DecidableEq, Repr

def Properties.initialOffset (p : Properties) : BitVec 64 := p.word0
def Properties.cachelines (p : Properties) : BitVec 64 := p.word1
def Properties.windowsize (p : Properties) : BitVec 64 := p.word2

/-- `struct arguments`; the file name may be the null pointer behind the last argument. -/
structure Arguments where
  niters : BitVec 64
  nbytes : BitVec 64
  wsize : BitVec 64
  test : Test
  pat : Pattern
  dir : Direction
  cache : CacheMode
  prop : Properties
  fileName : Option String
  deriving DecidableEq, Repr

/-- The structure after `memset`, with the defaults. -/
def Arguments.default : Arguments where
  niters := 0
  nbytes := 0
  wsize := 24
  test := .latency
  pat := .fix
  dir := .d2h
  cache := .ignore
  prop := { word0 := 0, word1 := 0, word2 := 0 }
  fileName := some "/dev/stdout"

/-- `isspace` in the C locale. -/
def isSpace (c : Char) : Bool :=
  c = ' ' || c = '\t' || c = '\n' || c = '\r' || c = Char.ofNat 11 || c = Char.ofNat 12

/-- An optional sign. -/
def scanSign : List Char → Bool × List Char
  | '-' :: s => (true, s)
  | '+' :: s => (false, s)
  | s => (false, s)

/-- The conversion `%ld`: white space, a sign and digits; the value saturates like that of `strtol`. -/
def scanLong (s : List Char) : Option (BitVec 64 × List Char) :=
  let (negative, s) := scanSign (s.dropWhile isSpace)
  let digits := s.takeWhile Char.isDigit
  let value : Nat := digits.foldl (fun n c => 10 * n + (c.toNat - '0'.toNat)) 0
  if digits = [] then none
  else if negative then some (BitVec.ofInt 64 (- min value (2 ^ 63)), s.dropWhile Char.isDigit)
  else some (BitVec.ofNat 64 (min value (2 ^ 63 - 1)), s.dropWhile Char.isDigit)

/-- `string2bytes`; without a number `size` keeps what the stack held, `junk`. -/
def string2bytes (junk : BitVec 64) (s : String) : BitVec 64 :=
  match scanLong s.toList with
  | none => junk
  | some (size, []) => size
  | some (size, unit :: _) =>
      if unit.toUpper = 'G' then size * (1024 * 1024 * 1024)
      else if unit.toUpper = 'M' then size * (1024 * 1024)
      else if unit.toUpper = 'K' then size * 1024
      else size

/-- The result of `readArguments`: accepted (0), refused (-1), or a null pointer passed to `strcmp`
or `sscanf`. -/
inductive Parsed
  | accepted (arg : Arguments)
  | refused
  | fault
  deriving DecidableEq, Repr

/-- The value of `-t`. -/
def readTest (arg : Arguments) (value : String) : Option Arguments :=
  if value = "lat" then some { arg with test := .latency }
  else if value = "bw" then some { arg with test := .bandwidth }
  else none

/-- The value of `-d`. -/
def readDirection (arg : Arguments) (value : String) : Option Arguments :=
  if value = "RW" ∨ value = "rw" then some { arg with dir := .both }
  else if value = "R" ∨ value = "r" then some { arg with dir := .d2h }
  else if value = "W" ∨ value = "w" then some { arg with dir := .h2d }
  else none

/-- The value of `-c`. -/
def readCache (arg : Arguments) (value : String) : Option Arguments :=
  if value = "discard" then some { arg with cache := .discard }
  else if value = "warm" then some { arg with cache := .warm }
  else if value = "ignore" then some { arg with cache := .ignore }
  else none

/-- The offset of `-p FIX`. -/
def readFix (junk : BitVec 64) (arg : Arguments) (value : String) : Arguments :=
  { arg with pat := .fix, prop := { arg.prop with word0 := string2bytes junk value } }

/-- The window size of `-p RAN`, which is converted three times. -/
def readRan (junk : Nat → BitVec 64) (arg : Arguments) (value : String) : Option Arguments :=
  let nsystempages := (string2bytes (junk 0) value + 4096 - 1) / 4096
  if nsystempages = 0 then none
  else some { arg with
    pat := .ran
    prop :=
      { word0 := nsystempages
        word1 := string2bytes (junk 1) value / 64
        word2 := string2bytes (junk 2) value } }

/-- The loop of `readArguments` over `argv[i]`, `argv[i + 1]`, …; `junk i k` is what the stack holds
at conversion `k` of argument `i`. -/
def readOptions (junk : Nat → Nat → BitVec 64) : Nat → List String → Arguments → Parsed
  | _, [], arg => .accepted arg
  | _, [option], arg =>
      -- only `-f` does not look at the argument behind the last one
      if option = "-f" then .accepted { arg with fileName := none }
      else if option ∈ ["-t", "-n", "-l", "-w", "-d", "-c", "-p"] then .fault
      else .refused
  | i, option :: value :: rest, arg =>
      if option = "-t" then
        match readTest arg value with
        | some arg => readOptions junk (i + 2) rest arg
        | none => .refused
      else if option = "-f" then readOptions junk (i + 2) rest { arg with fileName := some value }
      else if option = "-n" then
        readOptions junk (i + 2) rest { arg with nbytes := string2bytes (junk (i + 1) 0) value }
      else if option = "-l" then
        readOptions junk (i + 2) rest { arg with niters := string2bytes (junk (i + 1) 0) value }
      else if option = "-w" then
        readOptions junk (i + 2) rest { arg with wsize := string2bytes (junk (i + 1) 0) value }
      else if option = "-d" then
        match readDirection arg value with
        | some arg => readOptions junk (i + 2) rest arg
        | none => .refused
      else if option = "-c" then
        match readCache arg value with
        | some arg => readOptions junk (i + 2) rest arg
        | none => .refused
      else if option = "-p" then
        if value = "SEQ" then readOptions junk (i + 2) rest { arg with pat := .seq }
        else if value = "FIX" then
          match rest with
          | [] => .fault
          | offset :: rest => readOptions junk (i + 3) rest (readFix (junk (i + 2) 0) arg offset)
        else if value = "RAN" then
          match rest with
          | [] => .fault
          | size :: rest =>
              match readRan (junk (i + 2)) arg size with
              | some arg => readOptions junk (i + 3) rest arg
              | none => .refused
        else .refused
      else .refused

/-- `readArguments`; `argv` is the program's name and the arguments. -/
def readArguments (junk : Nat → Nat → BitVec 64) (argv : List String) : Parsed :=
  if argv.length < 2 ∨ 18 < argv.length then .refused
  else
    match readOptions junk 1 argv.tail .default with
    | .accepted arg =>
        if 24 < arg.wsize ∨ arg.wsize < 1 then .refused
        else if arg.nbytes % 4 ≠ 0 then .refused
        else if 1024 ≤ arg.niters ∨ arg.niters = 0 then .refused
        else .accepted arg
    | result => result

/-- What `readArguments` has checked when it returns 0. -/
theorem readArguments_accepted {junk : Nat → Nat → BitVec 64} {argv : List String} {args : Arguments} :
    readArguments junk argv = .accepted args ↔
      (2 ≤ argv.length ∧ argv.length ≤ 18) ∧
        readOptions junk 1 argv.tail .default = .accepted args ∧
        ¬ (24 < args.wsize ∨ args.wsize < 1) ∧ args.nbytes % 4 = 0 ∧
        ¬ (1024 ≤ args.niters ∨ args.niters = 0) := by
  unfold readArguments
  by_cases hlen : argv.length < 2 ∨ 18 < argv.length
  · rw [if_pos hlen]
    constructor
    · intro h
      cases h
    · rintro ⟨hin, -⟩
      omega
  rw [if_neg hlen]
  have hin : 2 ≤ argv.length ∧ argv.length ≤ 18 := by omega
  cases hresult : readOptions junk 1 argv.tail .default with
  | refused =>
      simp
  | fault =>
      simp
  | accepted arg =>
      simp only [Parsed.accepted.injEq]
      constructor
      · intro h
        split at h
        · cases h
        · split at h
          · cases h
          · split at h
            · cases h
            · cases h
              exact ⟨hin, rfl, ‹_›, not_not.mp ‹_›, ‹_›⟩
      · rintro ⟨-, rfl, hwsize, hnbytes, hniters⟩
        rw [if_neg hwsize, if_neg (not_not.mpr hnbytes), if_neg hniters]

/-- An accepted size is a whole number of dwords. -/
theorem nbytes_of_accepted {junk : Nat → Nat → BitVec 64} {argv : List String} {args : Arguments}
    (h : readArguments junk argv = .accepted args) : args.nbytes.toNat % 4 = 0 := by
  obtain ⟨-, -, -, hmod, -⟩ := readArguments_accepted.1 h
  have hnat := congrArg BitVec.toNat hmod
  rwa [BitVec.toNat_umod] at hnat

/-- An accepted number of iterations is positive and below the number of descriptors. -/
theorem niters_of_accepted {junk : Nat → Nat → BitVec 64} {argv : List String} {args : Arguments}
    (h : readArguments junk argv = .accepted args) :
    0 < args.niters.toNat ∧ args.niters.toNat < 1024 := by
  obtain ⟨-, -, -, -, hniters⟩ := readArguments_accepted.1 h
  bv_omega

/-! ## The main loop -/

/-- An integer as a `double` holds it: 53 significant bits, rounded to nearest, ties to even. -/
def toDouble (x : Nat) : Nat :=
  if x < 2 ^ 53 then x
  else
    let unit := 2 ^ (Nat.log2 x - 52)
    let low := x % unit
    let high := x / unit
    if unit < 2 * low ∨ (unit = 2 * low ∧ high % 2 = 1) then (high + 1) * unit else high * unit

/-- `ceil` of a quotient of integers. -/
def ceilQuotient (length size : BitVec 64) : BitVec 64 := BitVec.ofNat 64 (toDouble (length / size).toNat)

/-- `number_of_tlps`; there is no latency test for `D2H`. -/
def numberOfTlps (args : Arguments) : Option (BitVec 64) :=
  match args.test, args.dir with
  | .bandwidth, _ => some (512 * 512)
  | .latency, .h2d => some (ceilQuotient args.nbytes 512)
  | .latency, .both => some (ceilQuotient args.nbytes 256)
  | .latency, .d2h => none

/-- `while (check_limit < buffer_size) check_limit *= 2`, from `check_limit` on; `none` if the loop
does not end within the doublings that lead to 0. -/
def checkLimit (bufferSize : BitVec 64) : Nat → BitVec 64 → Option (BitVec 64)
  | 0, _ => none
  | n + 1, limit => if limit < bufferSize then checkLimit bufferSize n (limit * 2) else some limit

/-- One iteration of the loop: the descriptor is written, or the program ends without it. -/
inductive Iteration
  | writes (dd : DescriptorSw)
  | error
  | noLatencyTest
  | hangs

/-- The descriptor and whether the pattern accepts it. -/
def applyPattern (args : Arguments) (dd : DescriptorSw) : DescriptorSw × Bool :=
  match args.pat with
  | .fix =>
      ({ dd with addressMode := 0, addressOffset := args.prop.initialOffset },
        !(decide (args.prop.initialOffset / 4096 ≠ (args.prop.initialOffset + dd.length) / 4096) &&
          decide (args.prop.initialOffset ≠ 0)))
  | .seq =>
      ({ dd with addressMode := 1, addressOffset := 0 },
        decide (dd.length * dd.numberOfTlps < dd.bufferSize))
  | .ran =>
      ({ dd with
          addressMode := 3
          addressOffset := 0
          addressInc := args.prop.cachelines
          bufferSize := args.prop.windowsize }, true)

/-- Iteration `i` of the loop up to `writeDescriptor`. -/
def iteration (args : Arguments) (totalSize : BitVec 64) (i : Nat) : Iteration :=
  match numberOfTlps args with
  | none => .noLatencyTest
  | some tlps =>
      let dd : DescriptorSw :=
        { length := args.nbytes
          isC2sOp := decide (args.dir = .d2h ∨ args.dir = .both)
          isS2cOp := decide (args.dir = .h2d ∨ args.dir = .both)
          index := BitVec.ofNat 64 i
          enable := true
          address := 0
          bufferSize := totalSize
          addressMode := 0
          numberOfTlps := tlps
          addressOffset := 0
          addressInc := 0 }
      let fits := decide (dd.length < dd.bufferSize)
      let (dd, success) := applyPattern args dd
      match checkLimit dd.bufferSize 65 1 with
      | none => .hangs
      | some limit => if fits && success && limit == dd.bufferSize then .writes dd else .error

/-- The descriptors handed to `writeDescriptor` from iteration `i` on. -/
def mainLoop (args : Arguments) (totalSize : BitVec 64) : Nat → Nat → List DescriptorSw
  | 0, _ => []
  | n + 1, i =>
      match iteration args totalSize i with
      | .writes dd => dd :: mainLoop args totalSize n (i + 1)
      | _ => []

/-- The descriptors that `main` hands to `writeDescriptor`. -/
def descriptors (args : Arguments) (totalSize : BitVec 64) : List DescriptorSw :=
  mainLoop args totalSize args.niters.toNat 0

/-- What the hardware sees of a descriptor whose buffer is at DMA address `base`. -/
def DescriptorSw.config (dd : DescriptorSw) (base : BitVec 64) : Rq.Config where
  capWrite := dd.isC2sOp
  capRead := dd.isS2cOp
  addressMode := dd.addressMode
  sizeAtDescriptor := dd.length
  sizeAtHost := dd.bufferSize
  numberTlps := dd.numberOfTlps
  addrAtDescriptor := base
  addressGenOffset := dd.addressOffset

/-! ## What reaches writeDescriptor -/

/-- The loop ends whenever a power of two of 64 bits reaches the size. -/
theorem checkLimit_isSome {size : BitVec 64} (hsize : size.toNat ≤ 2 ^ 63) {n k : Nat} (hk : k < 64)
    (hn : 64 ≤ n + k) : (checkLimit size n (BitVec.ofNat 64 (2 ^ k))).isSome = true := by
  induction n generalizing k with
  | zero =>
      omega
  | succ n ih =>
      rw [checkLimit]
      split
      · rename_i hlt
        -- the last power of two is not below the size
        have hk' : k + 1 < 64 := by
          by_contra hge
          obtain rfl : k = 63 := by omega
          rw [BitVec.lt_def, BitVec.toNat_ofNat] at hlt
          omega
        have hdouble : BitVec.ofNat 64 (2 ^ k) * 2 = BitVec.ofNat 64 (2 ^ (k + 1)) := by
          rw [Nat.pow_succ, BitVec.ofNat_mul]
          rfl
        rw [hdouble]
        exact ih hk' (by omega)
      · rfl

/-- The limit is a power of two. -/
theorem checkLimit_eq {size limit : BitVec 64} {n : Nat} {start : BitVec 64}
    (hstart : (∃ k, k < 64 ∧ start = BitVec.ofNat 64 (2 ^ k)) ∨ (start = 0 ∧ size ≠ 0))
    (h : checkLimit size n start = some limit) : ∃ k, k < 64 ∧ limit.toNat = 2 ^ k := by
  induction n generalizing start with
  | zero =>
      cases h
  | succ n ih =>
      rw [checkLimit] at h
      split at h
      · rename_i hlt
        refine ih ?_ h
        have hne : size ≠ 0 := by
          rintro rfl
          exact absurd hlt (BitVec.not_lt_zero)
        rcases hstart with ⟨k, hk, rfl⟩ | ⟨rfl, -⟩
        · -- the doubling wraps to 0 behind the last power of two
          rcases Nat.lt_or_ge (k + 1) 64 with hk' | hk'
          · refine .inl ⟨k + 1, hk', ?_⟩
            rw [Nat.pow_succ, BitVec.ofNat_mul]
            rfl
          · obtain rfl : k = 63 := by omega
            exact .inr ⟨by decide, hne⟩
        · exact .inr ⟨by decide, hne⟩
      · rename_i hge
        cases h
        rcases hstart with ⟨k, hk, rfl⟩ | ⟨rfl, hne⟩
        · refine ⟨k, hk, ?_⟩
          rw [BitVec.toNat_ofNat, Nat.mod_eq_of_lt]
          exact Nat.pow_lt_pow_right (by omega) hk
        · exfalso
          apply hge
          bv_omega

/-- What is known of a descriptor that reaches `writeDescriptor`. -/
structure Reaches (args : Arguments) (totalSize : BitVec 64) (dd : DescriptorSw) : Prop where
  length : dd.length = args.nbytes
  lt : dd.length.toNat < totalSize.toNat
  isC2sOp : dd.isC2sOp = decide (args.dir = .d2h ∨ args.dir = .both)
  isS2cOp : dd.isS2cOp = decide (args.dir = .h2d ∨ args.dir = .both)
  tlps : numberOfTlps args = some dd.numberOfTlps
  power : ∃ k, k < 64 ∧ dd.bufferSize.toNat = 2 ^ k
  pattern : (args.pat = .fix ∧ dd.addressMode = 0) ∨
    (args.pat = .seq ∧ dd.addressMode = 1 ∧ dd.bufferSize = totalSize ∧
      dd.length * dd.numberOfTlps < totalSize) ∨
    (args.pat = .ran ∧ dd.addressMode = 3)

theorem iteration_writes {args : Arguments} {totalSize : BitVec 64} {i : Nat} {dd : DescriptorSw}
    (h : iteration args totalSize i = .writes dd) : Reaches args totalSize dd := by
  unfold iteration at h
  cases htlps : numberOfTlps args with
  | none =>
      rw [htlps] at h
      cases h
  | some tlps =>
      simp only [htlps] at h
      split at h
      · cases h
      · rename_i limit hlimit
        split at h
        · rename_i hok
          simp only [Bool.and_eq_true, decide_eq_true_eq, beq_iff_eq] at hok
          obtain ⟨⟨hlt, hpat⟩, heq⟩ := hok
          rw [heq] at hlimit
          have hpower := checkLimit_eq (.inl ⟨0, by decide, rfl⟩) hlimit
          cases h
          cases hp : args.pat <;> simp only [applyPattern, hp] at hpat hpower ⊢ <;>
            refine ⟨rfl, hlt, rfl, rfl, htlps, hpower, ?_⟩
          · exact .inl ⟨hp, rfl⟩
          · exact .inr (.inl ⟨hp, rfl, rfl, of_decide_eq_true hpat⟩)
          · exact .inr (.inr ⟨hp, rfl⟩)
        · cases h

/-- Every descriptor of the loop comes from one of its iterations. -/
theorem exists_iteration_of_mem {args : Arguments} {totalSize : BitVec 64} {dd : DescriptorSw}
    (h : dd ∈ descriptors args totalSize) : ∃ i, iteration args totalSize i = .writes dd := by
  have hloop : ∀ n i, dd ∈ mainLoop args totalSize n i →
      ∃ i, iteration args totalSize i = .writes dd := by
    intro n
    induction n with
    | zero =>
        intro i hmem
        cases hmem
    | succ n ih =>
        intro i hmem
        rw [mainLoop] at hmem
        cases hit : iteration args totalSize i with
        | writes d =>
            simp only [hit] at hmem
            rcases List.mem_cons.mp hmem with rfl | hrest
            · exact ⟨i, hit⟩
            · exact ih (i + 1) hrest
        | error =>
            simp only [hit] at hmem
            cases hmem
        | noLatencyTest =>
            simp only [hit] at hmem
            cases hmem
        | hangs =>
            simp only [hit] at hmem
            cases hmem
  exact hloop _ _ h

theorem reaches_of_mem {args : Arguments} {totalSize : BitVec 64} {dd : DescriptorSw}
    (h : dd ∈ descriptors args totalSize) : Reaches args totalSize dd := by
  obtain ⟨i, hit⟩ := exists_iteration_of_mem h
  exact iteration_writes hit

/-! ## When the DMA stays inside the buffer -/

open Rq (Config Run pcieController)

/-- The largest offset of the random mode: a multiple of the rounded block size below the size of the
window and the bound of the generator. -/
def randomTop (cfg : Config) : Nat :=
  (min cfg.sizeAtHost.toNat Rq.randomBound - 1) / 2 ^ (Rq.clog2 cfg.sizeAtDescriptor).toNat *
    2 ^ (Rq.clog2 cfg.sizeAtDescriptor).toNat

/-- The checks that are missing.  An empty descriptor still makes a block; a fixed offset and a random
window are never compared with the buffer.  The sequential pattern needs nothing for any buffer up to
`2 ^ 61` bytes. -/
structure BufferFits (cfg : Config) (total : Nat) : Prop where
  first : cfg.sizeAtDescriptor = 0 → cfg.firstBytes pcieController ≤ total
  fix : cfg.addressMode = 0 → ¬ cfg.OneBlock pcieController →
    cfg.addressGenOffset.toNat / 4 * 4 + cfg.laterBytes pcieController ≤ total
  seq : cfg.addressMode = 1 → ¬ cfg.OneBlock pcieController → 2 ^ 61 < total → ∀ k, cfg.InPage k →
    (BitVec.ofNat 64 k * cfg.sizeAtDescriptor).toNat / 4 * 4 + cfg.laterBytes pcieController ≤ total
  random : cfg.addressMode = 3 → ¬ cfg.OneBlock pcieController →
    randomTop cfg + cfg.laterBytes pcieController ≤ total

/-- A random offset is at most the largest one. -/
theorem randomTop_le {cfg : Config} {r : BitVec 64} (hr : Rq.IsRandomOffset cfg r)
    (hsize : cfg.sizeAtHost ≠ 0) : r.toNat ≤ randomTop cfg := by
  have hinside := hr.inside hsize
  have hsmall := hr.small
  have hpow := Nat.two_pow_pos (Rq.clog2 cfg.sizeAtDescriptor).toNat
  have hmul : r.toNat = r.toNat / 2 ^ (Rq.clog2 cfg.sizeAtDescriptor).toNat *
      2 ^ (Rq.clog2 cfg.sizeAtDescriptor).toNat := by
    have := Nat.div_add_mod r.toNat (2 ^ (Rq.clog2 cfg.sizeAtDescriptor).toNat)
    rw [hr.aligned, Nat.mul_comm] at this
    omega
  rw [hmul]
  refine Nat.mul_le_mul_right _ (Nat.div_le_div_right ?_)
  omega

/-! ### The sequential pattern -/

/-- The second block of the sequential pattern fits, although the check multiplies modulo `2 ^ 64`. -/
theorem second_fits {S T b p : Nat} (hT : T = 2 ^ p) (hp : p ≤ 61) (hlt : S < T)
    (hcheck : S * 262144 % 2 ^ 64 < T) (hb : b ≤ S) (hb' : b ≤ 2 ^ 44) : S + b ≤ T := by
  have hle : T ≤ 2 ^ 61 := by
    rw [hT]
    exact Nat.pow_le_pow_right (by omega) hp
  rcases Nat.lt_or_ge 46 p with hbig | hsmall
  · -- a size just below the total leaves a product just below `2 ^ 64`, and fails the check
    obtain ⟨u, hu⟩ : ∃ u, T = 2 ^ 46 * u := by
      refine ⟨2 ^ (p - 46), ?_⟩
      rw [hT, ← Nat.pow_add]
      congr 1
      omega
    omega
  · -- nothing wraps
    have hle' : T ≤ 2 ^ 46 := by
      rw [hT]
      exact Nat.pow_le_pow_right (by omega) hsmall
    omega

/-- Below `2 ^ 53` the quotient passes the `double` unchanged. -/
theorem ceilQuotient_toNat {length size : BitVec 64} (h : length.toNat / size.toNat < 2 ^ 53) :
    (ceilQuotient length size).toNat = length.toNat / size.toNat := by
  rw [ceilQuotient, BitVec.toNat_udiv, toDouble, if_pos h, BitVec.toNat_ofNat,
    Nat.mod_eq_of_lt (by omega)]

section Reaching

variable {args : Arguments} {totalSize base : BitVec 64} {dd : DescriptorSw}

/-- The number of TLPs of a latency test is the quotient by the largest read request. -/
theorem Reaches.oneBlock_of_quotient (h : Reaches args totalSize dd)
    (htotal : totalSize.toNat ≤ 2 ^ 61) (hread : dd.isS2cOp = true) {size : BitVec 64}
    (hsize : size.toNat = 2 ^ (dd.config base).readLog2 pcieController) (hmin : 256 ≤ size.toNat)
    (htlps : ceilQuotient args.nbytes size = dd.numberOfTlps) :
    (dd.config base).OneBlock pcieController := by
  have hlt := h.lt
  refine Config.oneBlock_of_quotient hread ?_
  show dd.numberOfTlps.toNat = dd.length.toNat / _
  -- the quotient is so small that the `double` holds it
  have hsmall : dd.length.toNat / size.toNat < 2 ^ 53 := by
    have hle := Nat.div_le_div_left hmin (show 0 < 256 by decide) (a := dd.length.toNat)
    omega
  rw [← htlps, ← h.length, ceilQuotient_toNat hsmall, hsize]

/-- A latency test sends one block. -/
theorem Reaches.oneBlock (h : Reaches args totalSize dd) (htotal : totalSize.toNat ≤ 2 ^ 61)
    (htest : args.test = .latency) : (dd.config base).OneBlock pcieController := by
  have htlps := h.tlps
  cases hdir : args.dir with
  | d2h =>
      -- there is no latency test of writes alone
      simp only [numberOfTlps, htest, hdir] at htlps
      cases htlps
  | h2d =>
      simp only [numberOfTlps, htest, hdir, Option.some.injEq] at htlps
      have hread : dd.isS2cOp = true := by rw [h.isS2cOp, hdir]; rfl
      refine h.oneBlock_of_quotient htotal hread ?_ (by decide) htlps
      rw [Config.readLog2, DescriptorSw.config, h.isC2sOp, hdir]
      rfl
  | both =>
      simp only [numberOfTlps, htest, hdir, Option.some.injEq] at htlps
      have hread : dd.isS2cOp = true := by rw [h.isS2cOp, hdir]; rfl
      refine h.oneBlock_of_quotient htotal hread ?_ (by decide) htlps
      rw [Config.readLog2, DescriptorSw.config, h.isC2sOp, hdir]
      rfl

/-- The first block always fits, but for an empty descriptor. -/
theorem Reaches.first_le (h : Reaches args totalSize dd)
    (hempty : dd.length = 0 → (dd.config base).firstBytes pcieController ≤ totalSize.toNat) :
    (dd.config base).firstBytes pcieController ≤ totalSize.toNat := by
  by_cases h0 : dd.length = 0
  · exact hempty h0
  · have hpos : 0 < (dd.config base).sizeAtDescriptor.toNat := by
      show 0 < dd.length.toNat
      bv_omega
    have hle := (dd.config base).covered_le_size pcieController hpos
      (if (dd.config base).capWrite then (dd.config base).perBlock pcieController
        else (dd.config base).total)
    exact Nat.le_trans hle (Nat.le_of_lt h.lt)

/-- What the sequential pattern sets and checks. -/
theorem Reaches.seq_pattern (h : Reaches args totalSize dd) (hmode : dd.addressMode = 1) :
    dd.bufferSize = totalSize ∧ dd.length * dd.numberOfTlps < totalSize := by
  rcases h.pattern with ⟨-, hm⟩ | ⟨-, -, hs, hc⟩ | ⟨-, hm⟩
  · rw [hm] at hmode
    cases hmode
  · exact ⟨hs, hc⟩
  · rw [hm] at hmode
    cases hmode

/-- A sequential descriptor with later blocks has the number of TLPs of a bandwidth test and has passed
the check of its pattern. -/
theorem Reaches.seq_checked (h : Reaches args totalSize dd) (htotal : totalSize.toNat ≤ 2 ^ 61)
    (hmode : dd.addressMode = 1) (hmany : ¬ (dd.config base).OneBlock pcieController) :
    dd.numberOfTlps = 512 * 512 ∧ dd.length * dd.numberOfTlps < totalSize := by
  refine ⟨?_, (h.seq_pattern hmode).2⟩
  have htlps := h.tlps
  cases htest : args.test with
  | latency =>
      exact absurd (h.oneBlock htotal htest) hmany
  | bandwidth =>
      rw [numberOfTlps, htest] at htlps
      exact (Option.some.inj htlps).symm

/-- The check of the sequential pattern is enough for its later blocks. -/
theorem Reaches.seq_fits (h : Reaches args totalSize dd) (htotal : totalSize.toNat ≤ 2 ^ 61)
    (hmode : dd.addressMode = 1)
    (hfirst : (dd.config base).firstBytes pcieController ≤ totalSize.toNat)
    (hmany : ¬ (dd.config base).OneBlock pcieController) {k : Nat}
    (hpage : (dd.config base).InPage k) :
    (BitVec.ofNat 64 k * dd.length).toNat / 4 * 4 + (dd.config base).laterBytes pcieController ≤
      totalSize.toNat := by
  have hlater := ((dd.config base).laterBytes_le pcieController).trans hfirst
  have hlt := h.lt
  obtain ⟨htlps, hcheck⟩ := h.seq_checked htotal hmode hmany
  have hnat : dd.length.toNat * 262144 % 2 ^ 64 < totalSize.toNat := by
    have hval : (512 * 512 : BitVec 64).toNat = 262144 := rfl
    rw [htlps, BitVec.lt_def, BitVec.toNat_mul, hval] at hcheck
    exact hcheck
  rw [Rq.seqOffset_toNat]
  rcases Nat.eq_zero_or_pos dd.length.toNat with h0 | hpos
  · rw [h0, Nat.mul_zero, Nat.zero_mod, Nat.zero_div, Nat.zero_mul, Nat.zero_add]
    exact hlater
  have hbytes : (dd.config base).laterBytes pcieController ≤ dd.length.toNat :=
    (dd.config base).covered_le_size pcieController hpos _
  match k with
  | 0 =>
      -- the first block
      rw [Nat.zero_mul, Nat.zero_mod, Nat.zero_div, Nat.zero_mul, Nat.zero_add]
      exact hlater
  | 1 =>
      -- the second block is not checked against the page
      obtain ⟨p, hp, hpow⟩ := h.power
      rw [(h.seq_pattern hmode).1] at hpow
      have hp61 : p ≤ 61 := by
        by_contra hgt
        have := Nat.pow_le_pow_right (show 0 < 2 by decide) (show 62 ≤ p by omega)
        omega
      have hsecond := second_fits hpow hp61 hlt hnat hbytes
        ((dd.config base).covered_le pcieController _)
      omega
  | k + 2 =>
      -- every further one lies in the page of the base address
      have hend := hpage.lt_page (by
        show dd.length.toNat < 2 ^ 61
        omega)
      have hend' : (dd.config base).addrAtDescriptor.toNat % 4096 + (k + 3) * dd.length.toNat <
        4096 := hend
      have hsucc : (k + 3) * dd.length.toNat = (k + 2) * dd.length.toNat + dd.length.toNat :=
        Nat.succ_mul _ _
      omega

theorem BufferFits.fix_laterFit (hfits : BufferFits (dd.config base) totalSize.toNat)
    (hmode : dd.addressMode = 0) {random : BitVec 64 → Prop} :
    (dd.config base).LaterFit pcieController random totalSize.toNat := by
  intro hmany x hx
  have hcfg : (dd.config base).addressMode = 0 := hmode
  rw [Rq.IsBase, if_pos hcfg] at hx
  exact ⟨dd.addressOffset, hx, hfits.fix hmode hmany⟩

theorem Reaches.seq_laterFit (h : Reaches args totalSize dd)
    (hfits : BufferFits (dd.config base) totalSize.toNat) (hmode : dd.addressMode = 1)
    (hfirst : (dd.config base).firstBytes pcieController ≤ totalSize.toNat)
    {random : BitVec 64 → Prop} :
    (dd.config base).LaterFit pcieController random totalSize.toNat := by
  intro hmany x hx
  have hcfg : (dd.config base).addressMode = 1 := hmode
  rw [Rq.IsBase, if_neg (by rw [hcfg]; decide), if_pos hcfg] at hx
  obtain ⟨k, rfl, hpage⟩ := hx
  refine ⟨BitVec.ofNat 64 k * dd.length, rfl, ?_⟩
  rcases Nat.lt_or_ge (2 ^ 61) totalSize.toNat with hbig | hsmall
  · exact hfits.seq hmode hmany hbig k hpage
  · exact h.seq_fits hsmall hmode hfirst hmany hpage

theorem Reaches.random_laterFit (h : Reaches args totalSize dd)
    (hfits : BufferFits (dd.config base) totalSize.toNat) (hmode : dd.addressMode = 3) :
    (dd.config base).LaterFit pcieController (Rq.IsRandomOffset (dd.config base))
      totalSize.toNat := by
  intro hmany x hx
  have hcfg : (dd.config base).addressMode = 3 := hmode
  rw [Rq.IsBase, if_neg (by rw [hcfg]; decide), if_neg (by rw [hcfg]; decide)] at hx
  obtain ⟨r, hr, rfl⟩ := hx
  have hsize : (dd.config base).sizeAtHost ≠ 0 := by
    obtain ⟨k, -, hpow⟩ := h.power
    intro h0
    have hzero : dd.bufferSize.toNat = 0 := congrArg BitVec.toNat h0
    have := Nat.two_pow_pos k
    omega
  have htop := randomTop_le hr hsize
  have hlimit := hfits.random hmode hmany
  exact ⟨r, rfl, by omega⟩

end Reaching

/-! ### From the arguments to the TLPs -/

/-- The benchmark accepts its arguments and hands `dd` to the driver for a buffer of `totalSize` bytes
at DMA address `base`; the hardware performs the operation of `dd` from cycle `start` on.  In random
mode its sizes are there before, for the pipeline of the generator. -/
structure Transfer (junk : Nat → Nat → BitVec 64) (argv : List String) (args : Arguments)
    (totalSize base : BitVec 64) (dd : DescriptorSw) (inp : Run pcieController) (start stop : Nat) :
    Prop where
  accepted : readArguments junk argv = .accepted args
  written : dd ∈ descriptors args totalSize
  aligned : base.toNat % 4 = 0
  buffer : base.toNat + totalSize.toNat ≤ 2 ^ 64
  operation : Rq.Operation inp (dd.config base) start stop
  presented : dd.addressMode = 3 → Rq.Presented inp (dd.config base) start

/-- Every memory write and every memory read request of the operation lies in the buffer. -/
def StaysInBuffer (totalSize base : BitVec 64) (inp : Run pcieController) (start stop : Nat) : Prop :=
  ∀ t, start < t → t ≤ stop →
    ∀ x ∈ Rq.writeHeaders (Rq.Operation.beats inp start t) ++
        Rq.readHeaders (Rq.Operation.beats inp start t), Rq.Within base totalSize.toNat x

/-- An operation with the generator of its pattern. -/
theorem Transfer.within {junk : Nat → Nat → BitVec 64} {argv : List String} {args : Arguments}
    {totalSize base : BitVec 64} {dd : DescriptorSw} {inp : Run pcieController} {start stop : Nat}
    (h : Transfer junk argv args totalSize base dd inp start stop)
    (hfirst : (dd.config base).firstBytes pcieController ≤ totalSize.toNat)
    {random : BitVec 64 → Prop} (hrandom : Rq.RandomOk inp start stop random)
    (hlater : (dd.config base).LaterFit pcieController random totalSize.toNat) :
    StaysInBuffer totalSize base inp start stop := by
  have hreach := reaches_of_mem h.written
  have hsize : (dd.config base).sizeAtDescriptor.toNat % 4 = 0 := by
    show dd.length.toNat % 4 = 0
    rw [hreach.length]
    exact nbytes_of_accepted h.accepted
  intro t hat htb
  exact h.operation.within hrandom hsize h.aligned h.buffer hfirst hlater hat htb

/-- The DMA of an accepted descriptor stays inside the buffer, if the checks that the benchmark does
not make hold. -/
theorem dma_contained {junk : Nat → Nat → BitVec 64} {argv : List String} {args : Arguments}
    {totalSize base : BitVec 64} {dd : DescriptorSw} {inp : Run pcieController} {start stop : Nat}
    (h : Transfer junk argv args totalSize base dd inp start stop)
    (hfits : BufferFits (dd.config base) totalSize.toNat) :
    StaysInBuffer totalSize base inp start stop := by
  have hreach := reaches_of_mem h.written
  have hfirst : (dd.config base).firstBytes pcieController ≤ totalSize.toNat :=
    hreach.first_le hfits.first
  have hany : Rq.RandomOk inp start stop (fun _ => True) := fun _ _ _ _ => ⟨trivial, trivial⟩
  rcases hreach.pattern with ⟨-, hmode⟩ | ⟨-, hmode, -, -⟩ | ⟨-, hmode⟩
  · exact h.within hfirst hany (hfits.fix_laterFit hmode)
  · exact h.within hfirst hany (hreach.seq_laterFit hfits hmode hfirst)
  · exact h.within hfirst (h.operation.randomOk (h.presented hmode))
      (hreach.random_laterFit hfits hmode)

/-! ### Two fixed offsets -/

/-- The arguments of a bandwidth test with memory reads of 64 bytes at a fixed offset. -/
def fixArgv (offset : String) : List String :=
  ["benchmark", "-t", "bw", "-d", "W", "-p", "FIX", offset, "-n", "64", "-l", "1"]

/-- What the benchmark makes of them. -/
def fixArguments (offset : BitVec 64) : Arguments :=
  { Arguments.default with
    niters := 1
    nbytes := 64
    test := .bandwidth
    dir := .h2d
    prop := { word0 := offset, word1 := 0, word2 := 0 } }

/-- The descriptor for a buffer of one huge page. -/
def fixDescriptor (offset : BitVec 64) : DescriptorSw where
  address := 0
  bufferSize := 0x40000000
  length := 64
  enable := true
  isC2sOp := false
  isS2cOp := true
  addressMode := 0
  numberOfTlps := 512 * 512
  addressOffset := offset
  addressInc := 0
  index := 0

/-- The steady environment, with the engine valid two cycles later. -/
def lateRun (cfg : Config) (t : Nat) : Rq.Input pcieController :=
  { Rq.steady cfg t with engineValid := decide (6 ≤ t) }

/-- The transfer of such arguments, as soon as its parts have been computed. -/
theorem fix_transfer (value : String) {offset : BitVec 64}
    (haccepted : readArguments (fun _ _ => 0) (fixArgv value) = .accepted (fixArguments offset))
    (hwritten : descriptors (fixArguments offset) 0x40000000 = [fixDescriptor offset])
    (hstates : ∀ t, t < 12 → ((Rq.st (lateRun ((fixDescriptor offset).config 0x80000000)) t).wrState =
      .idle ↔ t ≤ 6)) :
    Transfer (fun _ _ => 0) (fixArgv value) (fixArguments offset) 0x40000000 0x80000000
      (fixDescriptor offset) (lateRun ((fixDescriptor offset).config 0x80000000)) 6 12 where
  accepted := haccepted
  written := by
    rw [hwritten]
    exact List.mem_singleton_self _
  aligned := by decide
  buffer := by decide
  operation :=
    { start_lt := by decide
      idle := (hstates 6 (by decide)).mpr (by decide)
      leaves := fun hidle => absurd ((hstates 7 (by decide)).mp hidle) (by decide)
      once := fun t hat htb hidle => absurd ((hstates t htb).mp hidle) (by omega)
      stable := fun _ _ _ _ => rfl }
  presented hmode := by cases hmode

/-- An offset of one page: five memory reads inside the buffer. -/
theorem dma_contained_page :
    (Rq.readHeaders (Rq.Operation.beats (lateRun ((fixDescriptor 4096).config 0x80000000)) 6
      12)).length = 5 ∧
      StaysInBuffer 0x40000000 0x80000000 (lateRun ((fixDescriptor 4096).config 0x80000000)) 6 12 := by
  refine ⟨by decide +kernel, dma_contained (fix_transfer "4K" (by decide +kernel) rfl
    (by decide +kernel)) ⟨?_, ?_, ?_, ?_⟩⟩
  · intro h0
    cases h0
  · intro _ _
    decide +kernel
  · intro hmode
    cases hmode
  · intro hmode
    cases hmode

/-- An offset of one buffer: the benchmark accepts it, and the second memory read lies behind the
buffer. -/
theorem dma_outside :
    ∃ argv args inp, Transfer (fun _ _ => 0) argv args 0x40000000 0x80000000
        (fixDescriptor 0x40000000) inp 6 12 ∧
      ¬ StaysInBuffer 0x40000000 0x80000000 inp 6 12 := by
  refine ⟨fixArgv "1G", fixArguments 0x40000000, lateRun ((fixDescriptor 0x40000000).config 0x80000000),
    fix_transfer "1G" (by decide +kernel) rfl (by decide +kernel), ?_⟩
  intro hstays
  have hall := hstays 12 (by decide) (by decide)
  revert hall
  decide +kernel

end Host
end PcieBench
