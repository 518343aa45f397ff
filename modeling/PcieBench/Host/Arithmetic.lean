import PcieBench.Host.Accounting

/-!
# The arithmetic of the benchmark

`main` computes with 64-bit words that come from the command line, with `int`s that are smaller, and
with a limit that is doubled until it reaches the size of the buffer.  This module says for which
arguments the doubling ends, and for which no operation of an iteration divides by zero, overflows an
`int` or loses the value it stands for.
-/

namespace PcieBench
namespace Host

/-! ## The power-of-two check -/

/-- `buffer_size` where the loop on `check_limit` begins. -/
def checkedSize (args : Arguments) (totalSize : BitVec 64) : BitVec 64 :=
  match args.pat with
  | .fix => totalSize
  | .seq => totalSize
  | .ran => args.prop.windowsize

theorem applyPattern_bufferSize (args : Arguments) (dd : DescriptorSw) :
    (applyPattern args dd).1.bufferSize = checkedSize args dd.bufferSize := by
  cases h : args.pat <;> simp only [applyPattern, checkedSize, h]

/-- The limit is a power of two, or it has been doubled to 0. -/
def IsLimit (limit : BitVec 64) : Prop := limit = 0 ∨ ∃ k, k < 64 ∧ limit = BitVec.ofNat 64 (2 ^ k)

theorem two_pow_mul_two (k : Nat) : BitVec.ofNat 64 (2 ^ k) * 2 = BitVec.ofNat 64 (2 ^ (k + 1)) := by
  rw [Nat.pow_succ, BitVec.ofNat_mul]
  rfl

theorem IsLimit.double {limit : BitVec 64} (h : IsLimit limit) : IsLimit (limit * 2) := by
  rcases h with rfl | ⟨k, hk, rfl⟩
  · exact .inl rfl
  · rcases Nat.lt_or_ge (k + 1) 64 with hk' | hk'
    · exact .inr ⟨k + 1, hk', two_pow_mul_two k⟩
    · obtain rfl : k = 63 := by omega
      exact .inl (by decide)

theorem IsLimit.le {limit : BitVec 64} (h : IsLimit limit) : limit.toNat ≤ 2 ^ 63 := by
  rcases h with rfl | ⟨k, hk, rfl⟩
  · decide
  · rw [BitVec.toNat_ofNat]
    exact (Nat.mod_le _ _).trans (Nat.pow_le_pow_right (by decide) (by omega))

theorem isLimit_one : IsLimit 1 := .inr ⟨0, by decide, rfl⟩

/-- No limit reaches a size above the last power of two, however long the loop runs. -/
theorem checkLimit_eq_none {size : BitVec 64} (hsize : 2 ^ 63 < size.toNat) {limit : BitVec 64}
    (hlimit : IsLimit limit) (n : Nat) : checkLimit size n limit = none := by
  induction n generalizing limit with
  | zero =>
      rfl
  | succ n ih =>
      have hle := hlimit.le
      have hlt : limit < size := by
        rw [BitVec.lt_def]
        omega
      rw [checkLimit, if_pos hlt]
      exact ih hlimit.double

/-- The loop stops at a size that is a power of two. -/
theorem checkLimit_two_pow {size : BitVec 64} {j : Nat} (hsize : size.toNat = 2 ^ j) (hj : j < 64)
    {n k : Nat} (hk : k ≤ j) (hn : j < n + k) :
    checkLimit size n (BitVec.ofNat 64 (2 ^ k)) = some size := by
  induction n generalizing k with
  | zero =>
      omega
  | succ n ih =>
      have hlimit : (BitVec.ofNat 64 (2 ^ k)).toNat = 2 ^ k := by
        rw [BitVec.toNat_ofNat, Nat.mod_eq_of_lt]
        exact Nat.pow_lt_pow_right (by decide) (by omega)
      have hiff : BitVec.ofNat 64 (2 ^ k) < size ↔ 2 ^ k < 2 ^ j := by
        rw [BitVec.lt_def, hlimit, hsize]
      rw [checkLimit]
      rcases Nat.lt_or_eq_of_le hk with hlt | rfl
      · rw [if_pos (hiff.2 (Nat.pow_lt_pow_right (by decide) hlt)), two_pow_mul_two]
        exact ih hlt (by omega)
      · rw [if_neg (fun h => Nat.lt_irrefl _ (hiff.1 h))]
        exact congrArg some (BitVec.eq_of_toNat_eq (hlimit.trans hsize.symm))

/-- The loop on `check_limit` ends, and the check behind it clears `success` exactly where the size is
not a power of two. -/
def PowerCheck (size : BitVec 64) : Prop :=
  ∃ n limit, checkLimit size n 1 = some limit ∧ (limit ≠ size ↔ ¬ ∃ k, size.toNat = 2 ^ k)

/-- The check does what it says for the sizes that a limit of 64 bits can reach, and the loop does not
end for any other. -/
theorem power_check_iff (args : Arguments) (totalSize : BitVec 64) :
    PowerCheck (checkedSize args totalSize) ↔ (checkedSize args totalSize).toNat ≤ 2 ^ 63 := by
  generalize checkedSize args totalSize = size
  constructor
  · rintro ⟨n, limit, hlimit, -⟩
    by_contra hgt
    have hnone := checkLimit_eq_none (show 2 ^ 63 < size.toNat by omega) isLimit_one n
    rw [hnone] at hlimit
    cases hlimit
  · intro hle
    have hsome := checkLimit_isSome hle (n := 64) (k := 0) (by decide) (by decide)
    obtain ⟨limit, hlimit⟩ := Option.isSome_iff_exists.1 hsome
    refine ⟨64, limit, hlimit, not_congr ⟨?_, ?_⟩⟩
    · rintro rfl
      obtain ⟨k, -, hk⟩ := checkLimit_eq (.inl ⟨0, by decide, rfl⟩) hlimit
      exact ⟨k, hk⟩
    · rintro ⟨j, hj⟩
      have hlt : j < 64 := by
        by_contra hge
        have := Nat.pow_le_pow_right (show 0 < 2 by decide) (show 64 ≤ j by omega)
        omega
      rw [checkLimit_two_pow hj hlt (Nat.zero_le j) (by omega)] at hlimit
      exact (Option.some.inj hlimit).symm

/-- A bandwidth test with a random window of `2 ^ 64 - 2 ^ 30` bytes. -/
def hugeWindowArgv : List String :=
  ["benchmark", "-t", "bw", "-d", "W", "-p", "RAN", "17179869183G", "-n", "64", "-l", "1"]

/-- What `readArguments` makes of them. -/
def hugeWindow : Arguments :=
  { Arguments.default with
    test := .bandwidth
    dir := .h2d
    niters := 1
    nbytes := 64
    pat := .ran
    prop :=
      { word0 := 0xffffffffc0000
        word1 := 0x3ffffffff000000
        word2 := 0xffffffffc0000000 } }

/-- The arguments are accepted, and the first iteration never leaves the loop on the limit. -/
theorem huge_window_hangs :
    readArguments (fun _ _ => 0) hugeWindowArgv = .accepted hugeWindow ∧
      iteration hugeWindow 0x40000000 0 = .hangs ∧
      ¬ PowerCheck (checkedSize hugeWindow 0x40000000) := by
  have hnone := checkLimit_eq_none (show 2 ^ 63 < (0xffffffffc0000000 : BitVec 64).toNat by decide)
    isLimit_one
  refine ⟨by decide +kernel, ?_, ?_⟩
  · -- the pattern sets the size to the window
    have hloop : checkLimit hugeWindow.prop.windowsize 65 1 = none := hnone 65
    simp only [iteration, numberOfTlps, applyPattern, hugeWindow] at hloop ⊢
    rw [hloop]
  · rintro ⟨n, limit, hlimit, -⟩
    exact absurd ((hnone n).symm.trans hlimit) (by simp)

/-! ## The operations of an iteration -/

/-- An integer operation that C leaves undefined for some operands: a division or a remainder, by its
divisor, and an operation on `int`s, by its exact result. -/
inductive IntOp
  | divide (divisor : Int)
  | signed (result : Int)
  deriving DecidableEq, Repr

def IntOp.Safe : IntOp → Prop
  | .divide divisor => divisor ≠ 0
  | .signed result => -2 ^ 31 ≤ result ∧ result < 2 ^ 31

instance : DecidablePred IntOp.Safe
  | .divide divisor => inferInstanceAs (Decidable (divisor ≠ 0))
  | .signed result => inferInstanceAs (Decidable (-2 ^ 31 ≤ result ∧ result < 2 ^ 31))

section Iteration

variable (args : Arguments)

/-- `n_complete_tlps`. -/
def nCompleteTlps : Int := toInt32 (args.nbytes / BitVec.ofInt 64 (maximumSizePerTlp args.dir))

/-- `n_incomplete_tlps`. -/
def nIncompleteTlps : Int :=
  if args.nbytes ≠ BitVec.ofInt 64 (maximumSizePerTlp args.dir * nCompleteTlps args) then 1 else 0

/-- The divisor of `total_bytes`. -/
def nBlockTlps : Int := nCompleteTlps args + nIncompleteTlps args

/-- The computation of `number_of_tlps`. -/
def tlpsOps : List IntOp :=
  match args.test, args.dir with
  | .bandwidth, _ => [.signed (512 * 512)]
  | .latency, .h2d => [.divide 512]
  | .latency, .both => [.divide 256]
  | .latency, .d2h => []

/-- The computation of `n_complete_tlps` and `n_incomplete_tlps`. -/
def countOps : List IntOp :=
  [.divide (maximumSizePerTlp args.dir), .signed (maximumSizePerTlp args.dir * nCompleteTlps args)]

/-- The check of the pattern. -/
def patternOps : List IntOp :=
  match args.pat with
  | .fix => [.divide 4096, .divide 4096]
  | .seq => []
  | .ran => []

/-- `warm_cache`, whose limit `4 * total_size` wraps. -/
def warmCacheOps (size : BitVec 64) : List IntOp :=
  (List.replicate (4 * size).toNat [.divide 8, .divide (size / 8).toNat]).flatten

/-- `thrash_cache`, over an array of `8 * 1024 * 1024` words. -/
def thrashCacheOps : List IntOp := List.replicate (4 * 8388608) (.divide 8388608)

/-- What `warm_cache` is called with. -/
def warmSize : BitVec 64 := if args.pat ≠ .ran then args.nbytes else args.prop.windowsize

def cacheOps : List IntOp :=
  match args.cache with
  | .warm => warmCacheOps (warmSize args)
  | .discard => thrashCacheOps
  | .ignore => []

/-- The index behind `writeDescriptor`, `total_bytes` and the end of the loop's body.  The bandwidth is
a quotient of `double`s and not among these. -/
def resultOps (tlps : BitVec 64) (i : Nat) : List IntOp :=
  [.divide 1024,
    .signed (nBlockTlps args), .divide (nBlockTlps args),
    .signed ((toInt32 tlps).tdiv (nBlockTlps args)),
    .signed (nBlockTlps args), .divide (nBlockTlps args),
    .signed ((toInt32 tlps).tmod (nBlockTlps args)),
    .signed ((toInt32 tlps).tmod (nBlockTlps args) * maximumSizePerTlp args.dir),
    .signed (i + 1)]

/-- The operations of iteration `i`: those of the checks, and the others if a descriptor is written. -/
def iterationOps (totalSize : BitVec 64) (i : Nat) : List IntOp :=
  match numberOfTlps args with
  | none => tlpsOps args
  | some tlps =>
      tlpsOps args ++ countOps args ++ patternOps args ++
        match iteration args totalSize i with
        | .writes _ => cacheOps args ++ resultOps args tlps i
        | _ => []

/-- `number_of_tlps` as an integer. -/
def intendedTlps : Nat :=
  match args.test, args.dir with
  | .bandwidth, _ => 512 * 512
  | .latency, .h2d => args.nbytes.toNat / 512
  | .latency, _ => args.nbytes.toNat / 256

/-- The `int`s stand for the integers that they are computed from. -/
structure ValuesExact (tlps : BitVec 64) : Prop where
  total : toInt32 tlps = intendedTlps args
  complete : nCompleteTlps args = (args.nbytes.toNat / maximumSizePerTlp args.dir : Nat)
  product : (BitVec.ofInt 32 (maximumSizePerTlp args.dir * nCompleteTlps args)).toInt =
    (maximumSizePerTlp args.dir * (args.nbytes.toNat / maximumSizePerTlp args.dir) : Nat)

/-- Nothing goes wrong in iteration `i`. -/
def IterationSafe (totalSize : BitVec 64) (i : Nat) : Prop :=
  (∀ op ∈ iterationOps args totalSize i, op.Safe) ∧
    ∀ tlps, numberOfTlps args = some tlps → ValuesExact args tlps

/-- The loop of `main` comes to iteration `i`. -/
def Executed (totalSize : BitVec 64) (i : Nat) : Prop :=
  i < args.niters.toNat ∧ ∀ j, j < i → ∃ dd, iteration args totalSize j = .writes dd

/-! ## When nothing goes wrong -/

/-- The checks of the pattern. -/
def PatternFits (totalSize : BitVec 64) : Prop :=
  match args.pat with
  | .fix => args.prop.initialOffset = 0 ∨
      args.prop.initialOffset / 4096 = (args.prop.initialOffset + args.nbytes) / 4096
  | .seq => ∀ tlps, numberOfTlps args = some tlps → args.nbytes * tlps < totalSize
  | .ran => True

/-- The checks in front of `writeDescriptor`. -/
structure PassesChecks (totalSize : BitVec 64) : Prop where
  hasTest : ¬ (args.test = .latency ∧ args.dir = .d2h)
  fits : args.nbytes < totalSize
  pattern : PatternFits args totalSize
  power : ∃ k, (checkedSize args totalSize).toNat = 2 ^ k

/-- The condition that the benchmark does not check: the request is below 2 GB, it is not empty, and a
cache is warmed by whole words. -/
def SafeArguments (totalSize : BitVec 64) : Prop :=
  (args.test = .latency ∧ args.dir = .d2h) ∨
    (args.nbytes.toNat < 2 ^ 31 ∧
      (PassesChecks args totalSize →
        args.nbytes ≠ 0 ∧ (args.cache = .warm → 8 ≤ (warmSize args).toNat)))

end Iteration

section Checks

variable {args : Arguments} {totalSize tlps : BitVec 64} {i : Nat}

theorem numberOfTlps_eq_none_iff :
    numberOfTlps args = none ↔ args.test = .latency ∧ args.dir = .d2h := by
  unfold numberOfTlps
  cases args.test <;> cases args.dir <;> simp

/-- The descriptor of iteration `i` in front of the checks. -/
def initialDescriptor (args : Arguments) (totalSize tlps : BitVec 64) (i : Nat) : DescriptorSw where
  length := args.nbytes
  isC2sOp := decide (args.dir = .d2h ∨ args.dir = .both)
  isS2cOp := decide (args.dir = .h2d ∨ args.dir = .both)
  index := BitVec.ofNat 64 i
  enable := true
  address := 0
  bufferSize := totalSize
  addressMode := 0
  numberOfTlps := tlps
  addressOffset := 0
  addressInc := 0

theorem iteration_eq (htlps : numberOfTlps args = some tlps) :
    iteration args totalSize i =
      match checkLimit (applyPattern args (initialDescriptor args totalSize tlps i)).1.bufferSize 65 1
      with
      | none => .hangs
      | some limit =>
          if decide (args.nbytes < totalSize) &&
              (applyPattern args (initialDescriptor args totalSize tlps i)).2 &&
              limit == (applyPattern args (initialDescriptor args totalSize tlps i)).1.bufferSize then
            .writes (applyPattern args (initialDescriptor args totalSize tlps i)).1
          else .error := by
  unfold iteration
  rw [htlps]
  rfl

theorem applyPattern_snd (htlps : numberOfTlps args = some tlps) :
    (applyPattern args (initialDescriptor args totalSize tlps i)).2 = true ↔
      PatternFits args totalSize := by
  unfold applyPattern PatternFits
  cases args.pat with
  | fix =>
      simp [initialDescriptor, or_comm]
  | seq =>
      simp [initialDescriptor, htlps]
  | ran =>
      simp

theorem checkLimit_eq_self_iff {size : BitVec 64} :
    checkLimit size 65 1 = some size ↔ ∃ k, size.toNat = 2 ^ k := by
  constructor
  · intro h
    obtain ⟨k, -, hk⟩ := checkLimit_eq (.inl ⟨0, by decide, rfl⟩) h
    exact ⟨k, hk⟩
  · rintro ⟨j, hj⟩
    have hlt : j < 64 := (Nat.pow_lt_pow_iff_right (by decide)).1 (hj ▸ size.isLt)
    exact checkLimit_two_pow hj hlt (Nat.zero_le j) (by omega)

/-- A descriptor is written exactly if the arguments pass the checks, in every iteration. -/
theorem iteration_writes_iff :
    (∃ dd, iteration args totalSize i = .writes dd) ↔ PassesChecks args totalSize := by
  cases htlps : numberOfTlps args with
  | none =>
      constructor
      · rintro ⟨dd, hdd⟩
        rw [iteration, htlps] at hdd
        cases hdd
      · intro h
        exact absurd (numberOfTlps_eq_none_iff.1 htlps) h.hasTest
  | some tlps =>
      have htest : ¬ (args.test = .latency ∧ args.dir = .d2h) := by
        rw [← numberOfTlps_eq_none_iff, htlps]
        exact Option.some_ne_none _
      have hpattern : (applyPattern args (initialDescriptor args totalSize tlps i)).2 = true ↔
        PatternFits args totalSize := applyPattern_snd htlps
      have hsize : (applyPattern args (initialDescriptor args totalSize tlps i)).1.bufferSize =
        checkedSize args totalSize := applyPattern_bufferSize args _
      have hpower : checkLimit (checkedSize args totalSize) 65 1 = some (checkedSize args totalSize) ↔
        ∃ k, (checkedSize args totalSize).toNat = 2 ^ k := checkLimit_eq_self_iff
      rw [iteration_eq htlps, hsize]
      constructor
      · rintro ⟨dd, hdd⟩
        cases hlimit : checkLimit (checkedSize args totalSize) 65 1 with
        | none =>
            simp only [hlimit] at hdd
            cases hdd
        | some limit =>
            simp only [hlimit] at hdd
            split at hdd
            · rename_i hok
              simp only [Bool.and_eq_true, decide_eq_true_eq, beq_iff_eq] at hok
              obtain ⟨⟨hlt, hsuccess⟩, rfl⟩ := hok
              exact ⟨htest, hlt, hpattern.1 hsuccess, hpower.1 hlimit⟩
            · cases hdd
      · intro h
        simp only [hpower.2 h.power]
        rw [if_pos]
        · exact ⟨_, rfl⟩
        · simp only [Bool.and_eq_true, decide_eq_true_eq, beq_iff_eq]
          exact ⟨⟨h.fits, hpattern.2 h.pattern⟩, trivial⟩

end Checks

/-! ## The values -/

section Values

variable {args : Arguments} {totalSize tlps : BitVec 64} {i : Nat}

theorem intendedTlps_lt (hlt : args.nbytes.toNat < 2 ^ 31) : intendedTlps args < 2 ^ 31 := by
  have h512 := Nat.div_le_self args.nbytes.toNat 512
  have h256 := Nat.div_le_self args.nbytes.toNat 256
  unfold intendedTlps
  split <;> omega

/-- Below 2 GB the `double` holds the quotient. -/
theorem numberOfTlps_toNat (hlt : args.nbytes.toNat < 2 ^ 31) (htlps : numberOfTlps args = some tlps) :
    tlps.toNat = intendedTlps args := by
  have h512 := Nat.div_le_self args.nbytes.toNat 512
  have h256 := Nat.div_le_self args.nbytes.toNat 256
  unfold numberOfTlps at htlps
  unfold intendedTlps
  cases htest : args.test with
  | bandwidth =>
      simp only [htest, Option.some.injEq] at htlps
      rw [← htlps]
      rfl
  | latency =>
      cases hdir : args.dir <;> simp only [htest, hdir, reduceCtorEq, Option.some.injEq] at htlps
      · rw [← htlps]
        exact ceilQuotient_toNat (show args.nbytes.toNat / 512 < 2 ^ 53 by omega)
      · rw [← htlps]
        exact ceilQuotient_toNat (show args.nbytes.toNat / 256 < 2 ^ 53 by omega)

theorem nCompleteTlps_eq (hlt : args.nbytes.toNat < 2 ^ 31) :
    nCompleteTlps args = (args.nbytes.toNat / maximumSizePerTlp args.dir : Nat) :=
  toInt32_quotient hlt (maximumSizePerTlp_cases args.dir)

theorem nBlockTlps_eq (hlt : args.nbytes.toNat < 2 ^ 31) :
    nBlockTlps args = (Rq.blockCount (maximumSizePerTlp args.dir) args.nbytes.toNat : Nat) := by
  rw [nBlockTlps, nIncompleteTlps, nCompleteTlps_eq hlt]
  exact complete_add_incomplete hlt

/-- The complete TLPs carry no more than the request. -/
theorem product_le (args : Arguments) :
    maximumSizePerTlp args.dir * (args.nbytes.toNat / maximumSizePerTlp args.dir) ≤
      args.nbytes.toNat := Nat.mul_div_le _ _

theorem toInt_ofInt_of_lt {n : Nat} (h : n < 2 ^ 31) : (BitVec.ofInt 32 n).toInt = n := by
  rw [BitVec.ofInt_natCast, BitVec.toInt_eq_toNat_of_lt] <;> rw [BitVec.toNat_ofNat] <;> omega

theorem valuesExact_of_lt (hlt : args.nbytes.toNat < 2 ^ 31) (htlps : numberOfTlps args = some tlps) :
    ValuesExact args tlps where
  total := by
    have hnat := numberOfTlps_toNat hlt htlps
    rw [toInt32_of_lt (by rw [hnat]; exact intendedTlps_lt hlt), hnat]
  complete := nCompleteTlps_eq hlt
  product := by
    have hle := product_le args
    rw [nCompleteTlps_eq hlt, ← Int.natCast_mul]
    exact toInt_ofInt_of_lt (by omega)

/-- From 2 GB on the product does not fit into an `int`. -/
theorem lt_of_safe (hcomplete : nCompleteTlps args =
      (args.nbytes.toNat / maximumSizePerTlp args.dir : Nat))
    (hsafe : (IntOp.signed (maximumSizePerTlp args.dir * nCompleteTlps args)).Safe) :
    args.nbytes.toNat < 2 ^ 31 := by
  have hproduct := hsafe.2
  rw [hcomplete, ← Int.natCast_mul] at hproduct
  rcases maximumSizePerTlp_cases args.dir with hmax | hmax <;> rw [hmax] at hproduct <;> omega

/-! ## The operations -/

theorem tlpsOps_safe : ∀ op ∈ tlpsOps args, op.Safe := by
  unfold tlpsOps
  split <;> decide

theorem patternOps_safe : ∀ op ∈ patternOps args, op.Safe := by
  unfold patternOps
  split <;> decide

theorem countOps_safe (hlt : args.nbytes.toNat < 2 ^ 31) : ∀ op ∈ countOps args, op.Safe := by
  have hle := product_le args
  intro op hop
  simp only [countOps, List.mem_cons, List.not_mem_nil, or_false] at hop
  rcases hop with rfl | rfl
  · rcases maximumSizePerTlp_cases args.dir with hmax | hmax <;> rw [hmax] <;> decide
  · rw [nCompleteTlps_eq hlt, ← Int.natCast_mul]
    constructor <;> omega

theorem mem_warmCacheOps {size : BitVec 64} {op : IntOp} :
    op ∈ warmCacheOps size ↔
      (4 * size).toNat ≠ 0 ∧ (op = .divide 8 ∨ op = .divide (size / 8).toNat) := by
  simp [warmCacheOps, List.mem_flatten, List.mem_replicate, and_assoc]

/-- `warm_cache` takes remainders by the number of words in the buffer, which must not be zero. -/
theorem warmCacheOps_safe {size : BitVec 64} (hsize : 8 ≤ size.toNat) :
    ∀ op ∈ warmCacheOps size, op.Safe := by
  intro op hop
  rcases (mem_warmCacheOps.1 hop).2 with rfl | rfl
  · decide
  · show ((size / 8).toNat : Int) ≠ 0
    have hdiv : (size / 8).toNat = size.toNat / 8 := BitVec.toNat_udiv
    omega

theorem thrashCacheOps_safe : ∀ op ∈ thrashCacheOps, op.Safe := by
  intro op hop
  rw [List.eq_of_mem_replicate hop]
  decide

theorem cacheOps_safe (hwarm : args.cache = .warm → 8 ≤ (warmSize args).toNat) :
    ∀ op ∈ cacheOps args, op.Safe := by
  unfold cacheOps
  split
  · exact warmCacheOps_safe (hwarm ‹_›)
  · exact thrashCacheOps_safe
  · simp

/-- A block has at most one TLP more than complete ones. -/
theorem blockCount_le (max size : Nat) : Rq.blockCount max size ≤ size / max + 1 := by
  unfold Rq.blockCount
  split <;> omega

/-- What a part of a block carries is less than the request. -/
theorem mod_blockCount_mul_le (max : Nat) {size : Nat} (hpos : 0 < size) (n : Nat) :
    n % Rq.blockCount max size * max ≤ size := by
  have hcount := Rq.blockCount_pos max hpos
  have hmod := Nat.mod_lt n hcount
  have hle := blockCount_le max size
  calc
    n % Rq.blockCount max size * max ≤ size / max * max := Nat.mul_le_mul_right _ (by omega)
    _ ≤ size := Nat.div_mul_le_self size max

theorem resultOps_safe (hlt : args.nbytes.toNat < 2 ^ 31) (hpos : 0 < args.nbytes.toNat)
    (htlps : numberOfTlps args = some tlps) (hi : i < 1024) :
    ∀ op ∈ resultOps args tlps i, op.Safe := by
  have htotal := (valuesExact_of_lt hlt htlps).total
  have hintended := intendedTlps_lt hlt
  have hcount := Rq.blockCount_pos (maximumSizePerTlp args.dir) hpos
  have hcount' : Rq.blockCount (maximumSizePerTlp args.dir) args.nbytes.toNat < 2 ^ 31 := by
    have hle := blockCount_le (maximumSizePerTlp args.dir) args.nbytes.toNat
    rcases maximumSizePerTlp_cases args.dir with hmax | hmax <;> rw [hmax] at hle ⊢ <;> omega
  have hpart := mod_blockCount_mul_le (maximumSizePerTlp args.dir) hpos (intendedTlps args)
  intro op hop
  simp only [resultOps, nBlockTlps_eq hlt, htotal, ← Int.ofNat_tdiv, ← Int.ofNat_tmod,
    ← Int.natCast_mul, List.mem_cons, List.not_mem_nil, or_false] at hop
  generalize Rq.blockCount (maximumSizePerTlp args.dir) args.nbytes.toNat = n at *
  have hdiv := Nat.div_le_self (intendedTlps args) n
  have hmod := Nat.mod_le (intendedTlps args) n
  generalize intendedTlps args / n = q at *
  rcases hop with rfl | rfl | rfl | rfl | rfl | rfl | rfl | rfl | rfl <;> simp only [IntOp.Safe] <;>
    omega

/-! ## The iterations -/

/-- The operations of an iteration are those of its parts. -/
theorem forall_iterationOps (htlps : numberOfTlps args = some tlps) {p : IntOp → Prop} :
    (∀ op ∈ iterationOps args totalSize i, p op) ↔
      (∀ op ∈ tlpsOps args, p op) ∧ (∀ op ∈ countOps args, p op) ∧ (∀ op ∈ patternOps args, p op) ∧
        (PassesChecks args totalSize →
          (∀ op ∈ cacheOps args, p op) ∧ ∀ op ∈ resultOps args tlps i, p op) := by
  rw [← iteration_writes_iff (i := i)]
  cases hit : iteration args totalSize i <;>
    simp only [iterationOps, htlps, hit, List.forall_mem_append, and_assoc] <;> simp

theorem iterationSafe_of_safeArguments (hi : i < 1024) (h : SafeArguments args totalSize) :
    IterationSafe args totalSize i := by
  rcases h with hnone | ⟨hlt, hchecks⟩
  · -- there is no such test, and `main` returns
    have htlps := numberOfTlps_eq_none_iff.2 hnone
    refine ⟨?_, ?_⟩
    · rw [iterationOps, htlps]
      exact tlpsOps_safe
    · intro tlps h
      rw [htlps] at h
      cases h
  · refine ⟨?_, fun tlps htlps => valuesExact_of_lt hlt htlps⟩
    cases htlps : numberOfTlps args with
    | none =>
        rw [iterationOps, htlps]
        exact tlpsOps_safe
    | some tlps =>
        rw [forall_iterationOps htlps]
        refine ⟨tlpsOps_safe, countOps_safe hlt, patternOps_safe, fun hpass => ?_⟩
        obtain ⟨hne, hwarm⟩ := hchecks hpass
        have hpos : 0 < args.nbytes.toNat := by bv_omega
        exact ⟨cacheOps_safe hwarm, resultOps_safe hlt hpos htlps hi⟩

/-- An empty request is divided by its number of TLPs, which is zero. -/
theorem not_safe_of_empty (h0 : args.nbytes = 0) :
    ¬ ∀ op ∈ resultOps args tlps i, op.Safe := by
  intro hsafe
  have hlt : args.nbytes.toNat < 2 ^ 31 := by
    rw [h0]
    decide
  have hblock : nBlockTlps args = 0 := by
    rw [nBlockTlps_eq hlt, h0]
    rcases maximumSizePerTlp_cases args.dir with hmax | hmax <;> rw [hmax] <;> decide
  have hdivide := hsafe (.divide (nBlockTlps args)) (by simp [resultOps])
  exact hdivide hblock

/-- A cache cannot be warmed by less than a word. -/
theorem warm_size_of_safe (hpass : PassesChecks args totalSize) (hne : args.nbytes ≠ 0)
    (hwarm : args.cache = .warm) (hsafe : ∀ op ∈ cacheOps args, op.Safe) :
    8 ≤ (warmSize args).toNat := by
  by_contra hsmall
  -- the checks have refused the empty window
  have hpos : 0 < (warmSize args).toNat := by
    unfold warmSize
    split
    · bv_omega
    · rename_i hran
      obtain ⟨k, hk⟩ := hpass.power
      have hpow := Nat.two_pow_pos k
      simp only [checkedSize, not_not.mp hran] at hk
      omega
  have hdivide := hsafe (.divide (warmSize args / 8).toNat) (by
    simp only [cacheOps, hwarm, mem_warmCacheOps]
    exact ⟨by bv_omega, .inr trivial⟩)
  have hdiv : (warmSize args / 8).toNat = (warmSize args).toNat / 8 := BitVec.toNat_udiv
  have hne' : ((warmSize args / 8).toNat : Int) ≠ 0 := hdivide
  omega

theorem safeArguments_of_iterationSafe (h : IterationSafe args totalSize i) :
    SafeArguments args totalSize := by
  cases htlps : numberOfTlps args with
  | none =>
      exact .inl (numberOfTlps_eq_none_iff.1 htlps)
  | some tlps =>
      obtain ⟨hops, hvalues⟩ := h
      obtain ⟨-, hcount, -, hwrites⟩ := (forall_iterationOps htlps).1 hops
      have hlt := lt_of_safe (hvalues tlps htlps).complete (hcount _ (by simp [countOps]))
      refine .inr ⟨hlt, fun hpass => ?_⟩
      obtain ⟨hcache, hresult⟩ := hwrites hpass
      have hne : args.nbytes ≠ 0 := fun h0 => not_safe_of_empty h0 hresult
      exact ⟨hne, fun hwarm => warm_size_of_safe hpass hne hwarm hcache⟩

end Values

/-- In every iteration that `main` executes the arithmetic is safe and exact, if and only if the
request is below 2 GB and, where a descriptor is written, neither the request is empty nor a cache
warmed by less than a word. -/
theorem arithmetic_safe_iff {junk : Nat → Nat → BitVec 64} {argv : List String} {args : Arguments}
    (haccepted : readArguments junk argv = .accepted args) (totalSize : BitVec 64) :
    (∀ i, Executed args totalSize i → IterationSafe args totalSize i) ↔
      SafeArguments args totalSize := by
  obtain ⟨hpos, hlt⟩ := niters_of_accepted haccepted
  constructor
  · intro h
    refine safeArguments_of_iterationSafe (h 0 ⟨hpos, ?_⟩)
    intro j hj
    cases hj
  · intro h i hi
    exact iterationSafe_of_safeArguments (Nat.lt_trans hi.1 hlt) h

/-- The arguments of a bandwidth test with memory reads, in a warm cache. -/
def warmArgv (nbytes : String) : List String :=
  ["benchmark", "-t", "bw", "-d", "W", "-n", nbytes, "-l", "1", "-c", "warm"]

/-- What the benchmark makes of them. -/
def warmArguments (nbytes : BitVec 64) : Arguments :=
  { Arguments.default with
    niters := 1
    nbytes := nbytes
    test := .bandwidth
    dir := .h2d
    cache := .warm }

/-- Requests of 64 bytes are safe. -/
theorem arithmetic_safe_64 :
    readArguments (fun _ _ => 0) (warmArgv "64") = .accepted (warmArguments 64) ∧
      ∀ i, Executed (warmArguments 64) 0x40000000 i → IterationSafe (warmArguments 64) 0x40000000 i := by
  have haccepted : readArguments (fun _ _ => 0) (warmArgv "64") = .accepted (warmArguments 64) := by
    decide +kernel
  refine ⟨haccepted, (arithmetic_safe_iff haccepted 0x40000000).2 (.inr ⟨by decide, fun _ => ?_⟩)⟩
  exact ⟨by decide, fun _ => by decide⟩

/-- Empty requests are accepted, and the first iteration divides by zero. -/
theorem empty_request_unsafe :
    readArguments (fun _ _ => 0) (warmArgv "0") = .accepted (warmArguments 0) ∧
      (∃ k, (0x40000000 : BitVec 64).toNat = 2 ^ k) ∧
      ¬ ∀ i, Executed (warmArguments 0) 0x40000000 i →
        IterationSafe (warmArguments 0) 0x40000000 i := by
  refine ⟨by decide +kernel, ⟨30, rfl⟩, fun h => ?_⟩
  have hfirst : Executed (warmArguments 0) 0x40000000 0 := ⟨by decide, fun j hj => by cases hj⟩
  rcases safeArguments_of_iterationSafe (h 0 hfirst) with ⟨htest, -⟩ | ⟨-, hchecks⟩
  · cases htest
  · have hpass : PassesChecks (warmArguments 0) 0x40000000 :=
      ⟨by decide, by decide, .inl rfl, ⟨30, rfl⟩⟩
    exact (hchecks hpass).1 rfl

end Host
end PcieBench
