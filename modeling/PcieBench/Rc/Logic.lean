import PcieBench.Rq.State

/-!
# dma_rc_logic — completions of memory reads

The requester-completion side of the DMA core counts, for each tag, the dwords of the completion TLPs
and raises `COMPLETED_TAGS` for one cycle when the request has been answered.  `S_AXIS_RC_TREADY` is
always high, so a beat is accepted in every cycle with `S_AXIS_RC_TVALID`.  The debug counter
`word_count_r` and `end_of_tag_r`, which nothing reads, are left out.
-/

namespace PcieBench
namespace Rc

open Rq (Params TagSet)

/-- The completion stream in one cycle. -/
structure Beat where
  tvalid : Bool
  tlast : Bool
  tkeep : BitVec 8
  tdata : BitVec 256
  deriving DecidableEq, Repr

namespace Beat

variable (b : Beat)

/-- `S_AXIS_RC_TDATA[42:32]`, the dwords of the completion TLP in its first beat. -/
def tlpDwords : BitVec 11 := b.tdata.extractLsb' 32 11

/-- `S_AXIS_RC_TDATA[71:64]`, the tag of the completion TLP in its first beat. -/
def tlpTag : BitVec 8 := b.tdata.extractLsb' 64 8

end Beat

/-- The registers of the module. -/
structure State (P : Params) where
  isRcSop : Bool
  tlpTag : BitVec 8
  completedTags : TagSet P
  wordCountTag : Fin P.windowSize → BitVec 11
  difference : Fin P.windowSize → BitVec 11
  isTagCountExceeded : TagSet P

section Processes

variable {P : Params} (s : State P) (busyTags : TagSet P) (sizeTags : Fin P.windowSize → BitVec 11)
  (b : Beat)

/-- The first beat of a completion TLP for tag `j`. -/
def startsTag (j : Fin P.windowSize) : Bool :=
  s.isRcSop && b.tvalid && decide (b.tlpTag.toNat = j.val)

/-- `tlp_dwords_s<=5 && tlp_dwords_s>=difference_r[j]`: a completion TLP of one beat with all that
is missing. -/
def fitsOneBeat (j : Fin P.windowSize) : Bool :=
  decide (b.tlpDwords ≤ 5) && decide (s.difference j ≤ b.tlpDwords)

def nextIsRcSop : Bool :=
  if b.tlast && b.tvalid then true else if b.tvalid then false else s.isRcSop

/-- The tag is latched in every cycle outside a TLP, with or without `TVALID`. -/
def nextTlpTag : BitVec 8 := if s.isRcSop then b.tlpTag else s.tlpTag

def nextCompletedTags (j : Fin P.windowSize) : Bool :=
  !s.completedTags j && busyTags j && (b.tvalid && b.tlast) &&
    -- a TLP of several beats by its latched tag, one of a single beat by the tag on the bus
    ((s.isTagCountExceeded j && decide (s.tlpTag.toNat = j.val)) ||
      (s.isRcSop && decide (b.tlpTag.toNat = j.val) && fitsOneBeat s b j))

def nextWordCountTag (j : Fin P.windowSize) : BitVec 11 :=
  if startsTag s b j then
    -- complete in one beat: the count does not see these dwords
    if b.tlast && fitsOneBeat s b j then 0
    else if s.completedTags j then 0 else s.wordCountTag j + b.tlpDwords
  else if s.completedTags j then 0 else s.wordCountTag j

def nextDifference (j : Fin P.windowSize) : BitVec 11 :=
  if startsTag s b j then sizeTags j - s.wordCountTag j - b.tlpDwords
  else sizeTags j - s.wordCountTag j

def nextIsTagCountExceeded (j : Fin P.windowSize) : Bool :=
  if startsTag s b j && busyTags j then
    -- a TLP that completes the tag in its only beat does not touch the bit
    if b.tlast && fitsOneBeat s b j then s.isTagCountExceeded j
    else decide (sizeTags j - s.wordCountTag j ≤ b.tlpDwords)
  else !s.completedTags j && decide (sizeTags j ≤ s.wordCountTag j)

/-- One rising edge of `CLK`. -/
@[simps]
def step : State P where
  isRcSop := nextIsRcSop s b
  tlpTag := nextTlpTag s b
  completedTags := nextCompletedTags s busyTags b
  wordCountTag := nextWordCountTag s b
  difference := nextDifference s sizeTags b
  isTagCountExceeded := nextIsTagCountExceeded s busyTags sizeTags b

end Processes

/-- The registers after `RST_N`. -/
def reset (P : Params) : State P where
  isRcSop := true
  tlpTag := 0
  completedTags _ := false
  wordCountTag _ := 0
  difference _ := 0
  isTagCountExceeded _ := false

end Rc
end PcieBench
