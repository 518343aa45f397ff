import PcieBench.Host.Benchmark
import PcieBench.Rq.Liveness

/-!
# What the benchmark counts

A bandwidth is a number of bytes over a time.  The time is measured by the hardware; the bytes are a
formula of `benchmark.c`, which divides `NUMBER_TLPS` into blocks of full and incomplete TLPs.  A latency
test goes the other way and computes the number of TLPs from the bytes.  This module compares both
computations with the TLPs that an operation has sent when it is over.
-/

namespace PcieBench
namespace Host

open Rq (Config Run Sent pcieController blockCount)

/-! ## The arithmetic of main -/

/-- What `stat` finds under `/sys/kernel/mm/hugepages`. -/
structure HugePages where
  isDir : Bool
  gigabyte : Bool
  megabytes : Bool
  deriving DecidableEq, Repr

/-- `hugepage_size`; pages of 2 MB are reported by their size in KB. -/
def hugepageSize (sys : HugePages) : BitVec 64 :=
  if sys.isDir then
    if sys.gigabyte then 1024 * 1024 * 1024
    else if sys.megabytes then 2048
    else 0
  else 0

/-- `total_size`, with one page. -/
def totalSize (sys : HugePages) : BitVec 64 := 1 * hugepageSize sys

/-- `maximum_size_per_tlp`. -/
def maximumSizePerTlp (dir : Direction) : Nat :=
  if dir = .d2h ∨ dir = .both then 256 else 512

/-- A 64-bit value assigned to an `int`. -/
def toInt32 (x : BitVec 64) : Int := (x.setWidth 32).toInt

/-- `total_bytes`, or nothing where the block is empty and `main` divides by zero.  Products of two
`int`s are those of the integers. -/
def totalBytes (args : Arguments) (tlps : BitVec 64) : Option (BitVec 64) :=
  let maximum : Int := maximumSizePerTlp args.dir
  let nTotal := toInt32 tlps
  let nComplete := toInt32 (args.nbytes / BitVec.ofInt 64 maximum)
  let nIncomplete : Int := if args.nbytes ≠ BitVec.ofInt 64 (maximum * nComplete) then 1 else 0
  if nComplete + nIncomplete = 0 then none
  else some (BitVec.ofInt 64 (nTotal.tdiv (nComplete + nIncomplete)) * args.nbytes +
    BitVec.ofInt 64 (nTotal.tmod (nComplete + nIncomplete) * maximum))

theorem totalSize_le (sys : HugePages) : (totalSize sys).toNat ≤ 2 ^ 30 := by
  unfold totalSize hugepageSize
  split
  · split
    · decide
    · split <;> decide
  · decide

theorem maximumSizePerTlp_cases (dir : Direction) :
    maximumSizePerTlp dir = 256 ∨ maximumSizePerTlp dir = 512 := by
  unfold maximumSizePerTlp
  split
  · exact .inl rfl
  · exact .inr rfl

/-- A small value keeps its value in an `int`. -/
theorem toInt32_of_lt {x : BitVec 64} (h : x.toNat < 2 ^ 31) : toInt32 x = x.toNat := by
  have hmod : (x.setWidth 32).toNat = x.toNat := by
    rw [BitVec.toNat_setWidth, Nat.mod_eq_of_lt (by omega)]
  rw [toInt32, BitVec.toInt_eq_toNat_of_lt (by omega), hmod]

section Counting

variable {nbytes : BitVec 64} {maximum : Nat}

/-- `n_complete_tlps`. -/
theorem toInt32_quotient (hlt : nbytes.toNat < 2 ^ 31) (hmax : maximum = 256 ∨ maximum = 512) :
    toInt32 (nbytes / BitVec.ofInt 64 maximum) = (nbytes.toNat / maximum : Nat) := by
  have hquot : (nbytes / BitVec.ofInt 64 maximum).toNat = nbytes.toNat / maximum := by
    rw [BitVec.ofInt_natCast, BitVec.toNat_udiv, BitVec.toNat_ofNat, Nat.mod_eq_of_lt (by omega)]
  have hle := Nat.div_le_self nbytes.toNat maximum
  rw [toInt32_of_lt (by omega), hquot]

/-- There is an incomplete TLP where the division leaves a remainder. -/
theorem ne_complete_iff (maximum : Nat) (hlt : nbytes.toNat < 2 ^ 31) :
    nbytes ≠ BitVec.ofInt 64 ((maximum : Int) * (nbytes.toNat / maximum : Nat)) ↔
      ¬ nbytes.toNat % maximum = 0 := by
  have hdm := Nat.div_add_mod nbytes.toNat maximum
  rw [← Int.natCast_mul, BitVec.ofInt_natCast, ne_eq, ← BitVec.toNat_inj, BitVec.toNat_ofNat,
    Nat.mod_eq_of_lt (by omega)]
  omega

/-- Complete and incomplete TLPs make a block. -/
theorem complete_add_incomplete (hlt : nbytes.toNat < 2 ^ 31) :
    ((nbytes.toNat / maximum : Nat) : Int) +
        (if nbytes ≠ BitVec.ofInt 64 ((maximum : Int) * (nbytes.toNat / maximum : Nat)) then 1 else 0) =
      (blockCount maximum nbytes.toNat : Nat) := by
  have hiff := ne_complete_iff maximum hlt
  unfold blockCount
  by_cases htail : nbytes.toNat % maximum = 0
  · rw [if_neg (by rw [hiff]; exact not_not.mpr htail), if_pos htail]
    rfl
  · rw [if_pos (hiff.mpr htail), if_neg htail]
    rfl

end Counting

/-- The headers that count for a direction: memory writes for `D2H`, memory reads otherwise. -/
def requests (dir : Direction) (l : List Sent) : List Sent :=
  if dir = .d2h then Rq.writeHeaders l else Rq.readHeaders l

/-- The bytes that headers ask for. -/
def requestedBytes (hs : List Sent) : Nat := (hs.map (fun x => 4 * x.beat.dwords.toNat)).sum

/-- The benchmark accepts its arguments and hands `dd` to the driver for its buffer at DMA address
`base`.  The hardware performs the operation of `dd` from cycle `start` on; in cycle `stop` it is idle
again and hands over the last beat. -/
structure Performed (junk : Nat → Nat → BitVec 64) (argv : List String) (args : Arguments)
    (sys : HugePages) (base : BitVec 64) (dd : DescriptorSw) (inp : Run pcieController)
    (start stop : Nat) : Prop where
  accepted : readArguments junk argv = .accepted args
  written : dd ∈ descriptors args (totalSize sys)
  operation : Rq.Operation inp (dd.config base) start stop
  idle : (Rq.st inp stop).wrState = .idle
  tready : (inp stop).axisRqTready = true

section Descriptors

variable {args : Arguments} {sys : HugePages} {base : BitVec 64} {dd : DescriptorSw}

theorem Reaches.nbytes_lt (h : Reaches args (totalSize sys) dd) : args.nbytes.toNat < 2 ^ 30 := by
  have hlt := h.lt
  have hle := totalSize_le sys
  rw [h.length] at hlt
  omega

/-- The largest TLP of the hardware is the one the benchmark divides by. -/
theorem Reaches.readLog2_eq (h : Reaches args (totalSize sys) dd) (base : BitVec 64) :
    2 ^ (dd.config base).readLog2 pcieController = maximumSizePerTlp args.dir := by
  rw [Config.readLog2, DescriptorSw.config, h.isC2sOp, maximumSizePerTlp]
  cases args.dir <;> rfl

/-- A latency test has the quotient of the division, without the remainder. -/
theorem Reaches.tlps_latency (h : Reaches args (totalSize sys) dd) (htest : args.test = .latency) :
    args.dir ≠ .d2h ∧
      dd.numberOfTlps.toNat = args.nbytes.toNat / maximumSizePerTlp args.dir := by
  have htlps := h.tlps
  have hlt := h.nbytes_lt
  cases hdir : args.dir with
  | d2h =>
      -- there is no latency test of writes alone
      simp only [numberOfTlps, htest, hdir] at htlps
      cases htlps
  | h2d =>
      simp only [numberOfTlps, htest, hdir, Option.some.injEq] at htlps
      refine ⟨by simp, ?_⟩
      have hle := Nat.div_le_self args.nbytes.toNat 512
      rw [← htlps, ceilQuotient_toNat]
      · rfl
      · exact Nat.lt_of_le_of_lt hle (by omega)
  | both =>
      simp only [numberOfTlps, htest, hdir, Option.some.injEq] at htlps
      refine ⟨by simp, ?_⟩
      have hle := Nat.div_le_self args.nbytes.toNat 256
      rw [← htlps, ceilQuotient_toNat]
      · rfl
      · exact Nat.lt_of_le_of_lt hle (by omega)

theorem Reaches.tlps_bandwidth (h : Reaches args (totalSize sys) dd)
    (htest : args.test = .bandwidth) : dd.numberOfTlps = 512 * 512 := by
  have htlps := h.tlps
  rw [numberOfTlps, htest] at htlps
  exact (Option.some.inj htlps).symm

theorem Reaches.tlps_lt (h : Reaches args (totalSize sys) dd) : dd.numberOfTlps.toNat < 2 ^ 30 := by
  cases htest : args.test with
  | latency =>
      have hle := Nat.div_le_self args.nbytes.toNat (maximumSizePerTlp args.dir)
      have hlt := h.nbytes_lt
      rw [(h.tlps_latency htest).2]
      omega
  | bandwidth =>
      rw [h.tlps_bandwidth htest]
      decide

/-- Everything fits the 32-bit counters. -/
theorem Reaches.counters_fit (h : Reaches args (totalSize sys) dd) (base : BitVec 64) :
    (dd.config base).total + (dd.config base).blockLength pcieController < 2 ^ 32 := by
  have htlps := h.tlps_lt
  have hlt := h.nbytes_lt
  have htotal : (dd.config base).total ≤ 2 ^ 30 := by
    show max 1 (dd.numberOfTlps.toNat % 2 ^ 32) ≤ 2 ^ 30
    omega
  have hlength : (dd.config base).blockLength pcieController ≤ args.nbytes.toNat + 512 := by
    rw [Config.blockLength, h.readLog2_eq base]
    show (dd.length.toNat + _ - 1) / _ ≤ _
    rw [h.length]
    refine (Nat.div_le_self _ _).trans ?_
    rcases maximumSizePerTlp_cases args.dir with hmax | hmax <;> rw [hmax] <;> omega
  omega

variable {junk : Nat → Nat → BitVec 64} {argv : List String} {inp : Run pcieController}
  {start stop : Nat}

/-- The beats handed over until the end are all that the operation has loaded. -/
theorem Performed.emitted_eq (h : Performed junk argv args sys base dd inp start stop) :
    Rq.Operation.emitted inp start stop = Rq.Operation.beats inp start stop := by
  have happend := h.operation.emitted_append_waits h.operation.start_lt
  rwa [h.tready, if_pos rfl, List.append_nil] at happend

/-- How many requests a performed descriptor has made: whole blocks of memory writes, or exactly the
memory reads that it asks for. -/
theorem Performed.length_requests (h : Performed junk argv args sys base dd inp start stop)
    (hpos : 0 < args.nbytes.toNat) :
    (requests args.dir (Rq.Operation.emitted inp start stop)).length =
      if args.dir = .d2h then
        (max 1 dd.numberOfTlps.toNat + blockCount (maximumSizePerTlp args.dir) args.nbytes.toNat - 1) /
          blockCount (maximumSizePerTlp args.dir) args.nbytes.toNat *
          blockCount (maximumSizePerTlp args.dir) args.nbytes.toNat
      else max 1 dd.numberOfTlps.toNat := by
  have hreach := reaches_of_mem h.written
  have hsize : (dd.config base).sizeAtDescriptor = args.nbytes := hreach.length
  have hfit := hreach.counters_fit base
  have htotal : (dd.config base).total = max 1 dd.numberOfTlps.toNat := by
    have hlt := hreach.tlps_lt
    show max 1 (dd.numberOfTlps.toNat % 2 ^ 32) = _
    rw [Nat.mod_eq_of_lt (by omega)]
  have hlength : (dd.config base).blockLength pcieController =
      blockCount (maximumSizePerTlp args.dir) args.nbytes.toNat := by
    rw [Rq.blockLength_eq, hreach.readLog2_eq base, hsize]
  obtain ⟨-, hcounts⟩ := h.operation.countInv (by rw [hsize]; exact hpos) hfit h.operation.start_lt
    (Nat.le_refl stop)
  have hwrites := hcounts.writes_eq h.idle
  have hreads := hcounts.reads_eq h.idle
  have hcapWrite : (dd.config base).capWrite = decide (args.dir = .d2h ∨ args.dir = .both) :=
    hreach.isC2sOp
  have hcapRead : (dd.config base).capRead = decide (args.dir = .h2d ∨ args.dir = .both) :=
    hreach.isS2cOp
  rw [hcapWrite, hlength, htotal] at hwrites
  rw [hcapRead, htotal] at hreads
  rw [h.emitted_eq, requests]
  by_cases hdir : args.dir = .d2h
  · simpa [hdir] using hwrites
  · rw [if_neg hdir, if_neg hdir, hreads, if_pos]
    cases hd : args.dir <;> simp_all

end Descriptors

/-! ## When the benchmark is right -/

section Results

variable {junk : Nat → Nat → BitVec 64} {argv : List String} {args : Arguments} {sys : HugePages}
  {base : BitVec 64} {dd : DescriptorSw} {inp : Run pcieController} {start stop : Nat}

/-- The requests make up one block of `size` bytes in TLPs of at most `M` bytes. -/
def OneFullBlock (M size : Nat) (hs : List Sent) : Prop :=
  hs.length = (size + M - 1) / M ∧ requestedBytes hs = size

end Results

/-! ### Tests at a fixed address -/

/-- A system with huge pages of 1 GB. -/
def gigabytePages : HugePages where
  isDir := true
  gigabyte := true
  megabytes := true

/-- The arguments of a test at the start of the buffer. -/
def startArgv (test dir size : String) : List String :=
  ["benchmark", "-t", test, "-d", dir, "-p", "FIX", "0", "-n", size, "-l", "1"]

/-- What the benchmark makes of them. -/
def startArguments (test : Test) (dir : Direction) (size : BitVec 64) : Arguments :=
  { Arguments.default with
    niters := 1
    nbytes := size
    test := test
    dir := dir }

/-- The descriptor for a buffer of one huge page. -/
def startDescriptor (dir : Direction) (size tlps : BitVec 64) : DescriptorSw where
  address := 0
  bufferSize := 0x40000000
  length := size
  enable := true
  isC2sOp := decide (dir = .d2h ∨ dir = .both)
  isS2cOp := decide (dir = .h2d ∨ dir = .both)
  addressMode := 0
  numberOfTlps := tlps
  addressOffset := 0
  addressInc := 0
  index := 0

/-- The environment of `lateRun`, with every tag completed at once. -/
def completingRun (cfg : Config) (t : Nat) : Rq.Input pcieController :=
  { lateRun cfg t with completedTags := fun _ => true }

theorem completingRun_fair (cfg : Config) : Rq.Fair (completingRun cfg) cfg 0 24 where
  tready t := ⟨t, Nat.le_refl t, rfl⟩
  c2s _ t := ⟨t, Nat.le_refl t, rfl⟩
  window _ _ := rfl
  window_pos _ := by decide
  completes _ t _ _ _ _ := ⟨t, Nat.le_refl t, rfl⟩

/-- In this environment every descriptor is performed that makes the hardware start and stop. -/
theorem exists_performed (argv : List String) (args : Arguments) (sys : HugePages) (dd : DescriptorSw)
    (haccepted : readArguments (fun _ _ => 0) argv = .accepted args)
    (hwritten : descriptors args (totalSize sys) = [dd])
    (hidle : (Rq.st (completingRun (dd.config 0x80000000)) 6).wrState = .idle)
    (hleaves : (Rq.st (completingRun (dd.config 0x80000000)) 7).wrState ≠ .idle)
    (hterm : (dd.config 0x80000000).Terminates pcieController) :
    ∃ stop, Performed (fun _ _ => 0) argv args sys 0x80000000 dd
      (completingRun (dd.config 0x80000000)) 6 stop := by
  obtain ⟨stop, hop, hend, -⟩ := Rq.operation_ends hidle hleaves (fun _ _ _ => rfl)
    (fun _ => completingRun_fair _) (by decide) hterm
  refine ⟨stop, haccepted, ?_, hop, hend, rfl⟩
  rw [hwritten]
  exact List.mem_singleton_self _

/-- A latency test with reads of 516 bytes, one of the sizes of `test.sh`: a single request of 512 bytes. -/
theorem latency_block_incomplete :
    ∃ argv args dd inp start stop,
      Performed (fun _ _ => 0) argv args gigabytePages 0x80000000 dd inp start stop ∧
        args.test = .latency ∧ args.nbytes = 516 ∧ args.dir = .h2d ∧
        ¬ OneFullBlock (maximumSizePerTlp args.dir) args.nbytes.toNat
          (Rq.readHeaders (Rq.Operation.emitted inp start stop)) := by
  obtain ⟨stop, h⟩ := exists_performed (startArgv "lat" "W" "516")
    (startArguments .latency .h2d 516) gigabytePages
    (startDescriptor .h2d 516 1) (by decide +kernel) rfl (by decide +kernel)
    (by decide +kernel) (.inl rfl)
  refine ⟨_, _, _, _, _, stop, h, rfl, rfl, rfl, ?_⟩
  rintro ⟨hlength, -⟩
  have hone := h.length_requests (by decide)
  rw [requests, if_neg (by decide), hlength] at hone
  revert hone
  decide

end Host
end PcieBench
