import Mathlib.Tactic.Abel
import PcieBench.Clocked.Trace
import PcieBench.Memory.Ledger

/-!
# The resources of nfp_probe and nfp_remove

`nfp_probe` acquires one resource after the other and leaves through three labels that fall through
into each other; `nfp_remove` releases what a successful probe has acquired.  Which of the labels a
failure jumps to, and what `ret` holds there, decides whether the resources are balanced: most of the
failures leak the card or the character device, release the device twice, or return 0.
-/

namespace PcieBench
namespace Host

open Clocked Memory

/-! ## The functions of the driver -/

/-- What the driver acquires: the card, the device itself, the four parts of the character device, the
regions, the mapping of a BAR and the coherent buffer. -/
inductive Resource
  | card
  | enable
  | chrdevRegion
  | devClass
  | node
  | cdev
  | regions
  | bar (i : Fin 3)
  | pageList
  deriving DecidableEq, Repr

inductive ResourceEvent
  | acquire (r : Resource)
  | release (r : Resource)
  deriving DecidableEq, Repr

/-- `device_create` returns a device, an error pointer, or `NULL`. -/
inductive DeviceCreate
  | created
  | error
  | null
  deriving DecidableEq, Repr

/-- What the kernel answers to one call of `nfp_probe`.  A number is that of an error, and 0 is none. -/
structure ProbeAnswers where
  kmalloc : Bool
  enableDevice : Nat
  capability : Bool
  devcap : BitVec 16
  parentCapability : Bool
  readrqCapability : Bool
  readConfig : Nat
  dmaMask : Nat
  consistentDmaMask : Nat
  allocChrdevRegion : Nat
  classCreate : Nat
  deviceCreate : DeviceCreate
  cdevAdd : Nat
  bar0Memory : Bool
  requestRegions : Nat
  iomap : Fin 3 → Bool
  allocConsistent : Bool

/-- `pci_set_payload`. -/
def pciSetPayload (k : ProbeAnswers) (payload : BitVec 16) : Int :=
  if ¬ ((128 ≤ payload ∧ payload ≤ 512) ∨ payload = 0) then -1
  else if k.capability = false then 0
  else if k.parentCapability = false then 0
  else
    let dmax := k.devcap &&& 0x07
    let psz := if payload = 0 then dmax else payload >>> 8
    -- a payload that is larger than that of `dctl` is written, without a result
    if dmax < psz then -1 else 0

/-- `pcie_set_readrq`. -/
def pcieSetReadrq (k : ProbeAnswers) (count : Int) : Int :=
  if count < 128 ∨ 4096 < count then -1
  else if k.readrqCapability = false then -1
  else if k.readConfig ≠ 0 then -1
  else 0

/-- The device node, unless `device_create` returned an error, which is taken for a device; then
`device_destroy` finds none. -/
def ProbeAnswers.nodes (k : ProbeAnswers) : List Resource :=
  if k.deviceCreate = .created then [.node] else []

/-- The mappings that `pci_iomap` returned; `pci_iounmap` of `NULL` does nothing. -/
def ProbeAnswers.bars (k : ProbeAnswers) : List Resource :=
  (if k.iomap 0 then [.bar 0] else []) ++ (if k.iomap 1 then [.bar 1] else []) ++
    if k.iomap 2 then [.bar 2] else []

/-- `nfpioctl_probe`. -/
def nfpioctlProbe (k : ProbeAnswers) : Int × List ResourceEvent :=
  if k.allocChrdevRegion ≠ 0 then (-k.allocChrdevRegion, [])
  else if k.classCreate ≠ 0 then
    (-k.classCreate, [.acquire .chrdevRegion, .release .chrdevRegion])
  else if k.deviceCreate = .null then
    (-1, [.acquire .chrdevRegion, .acquire .devClass, .release .devClass, .release .chrdevRegion])
  -- an error pointer passes the comparison with `NULL`
  else if k.cdevAdd ≠ 0 then
    (-k.cdevAdd, [.acquire .chrdevRegion, .acquire .devClass] ++ k.nodes.map .acquire ++
      k.nodes.map .release ++ [.release .devClass, .release .chrdevRegion])
  else
    (0, [.acquire .chrdevRegion, .acquire .devClass] ++ k.nodes.map .acquire ++ [.acquire .cdev])

/-- What `nfpioctl_remove` releases. -/
def nfpioctlRemove (k : ProbeAnswers) : List Resource :=
  [.cdev] ++ k.nodes ++ [.devClass, .chrdevRegion]

/-- What `nfp_remove` releases, if the device has a card. -/
def nfpRemove (k : ProbeAnswers) : List Resource :=
  [.pageList] ++ nfpioctlRemove k ++ k.bars ++ [.regions, .enable, .card]

/-- What `nfp_probe` leaves in the private pointer of the device. -/
inductive Drvdata
  | untouched
  | card
  | null
  deriving DecidableEq, Repr

/-- The result of `nfp_probe`; `ready` tells whether it came to its end. -/
structure ProbeResult where
  code : Int
  ready : Bool
  drvdata : Drvdata
  events : List ResourceEvent

/-- From the label `err_out_disable_device` on. -/
def errOutDisableDevice (ret : Int) (events : List ResourceEvent) : ProbeResult where
  code := ret
  ready := false
  drvdata := .null
  events := events ++ [.release .enable]

/-- From the label `err_out_ioctl` on. -/
def errOutIoctl (ret : Int) (events : List ResourceEvent) : ProbeResult :=
  errOutDisableDevice ret (events ++ [.release .card])

/-- From the label `err_iface` on. -/
def errIface (k : ProbeAnswers) (ret : Int) (events : List ResourceEvent) : ProbeResult :=
  -- the device is disabled here and again at the last label
  errOutIoctl ret (events ++ k.bars.map .release ++ [.release .regions, .release .enable] ++
    (nfpioctlRemove k).map .release)

/-- `nfp_probe`. -/
def nfpProbe (k : ProbeAnswers) : ProbeResult :=
  if k.kmalloc = false then { code := -19, ready := false, drvdata := .untouched, events := [] }
  else if k.enableDevice ≠ 0 then
    -- returns without a label
    { code := -19, ready := false, drvdata := .untouched, events := [.acquire .card] }
  else
    -- `ret` is 0 from here on
    let events := [.acquire .card, .acquire .enable]
    if pciSetPayload k 128 ≠ 0 then errOutDisableDevice 0 events
    else if pcieSetReadrq k 4096 ≠ 0 then errOutDisableDevice 0 events
    else if k.dmaMask ≠ 0 then errOutDisableDevice 0 events
    else if k.consistentDmaMask ≠ 0 then errOutDisableDevice 0 events
    else
      let ret := (nfpioctlProbe k).1
      let events := events ++ (nfpioctlProbe k).2
      if ret < 0 then errOutIoctl ret events
      -- the same label, but now there is a character device
      else if k.bar0Memory = false then errOutIoctl ret events
      else if k.requestRegions ≠ 0 then errOutIoctl (-k.requestRegions) events
      else
        let events := events ++ [.acquire .regions] ++ k.bars.map .acquire
        if k.allocConsistent = false then errIface k 0 events
        else
          { code := 0, ready := true, drvdata := .card, events := events ++ [.acquire .pageList] }

def ResourceEvent.acquired : ResourceEvent → Option Resource
  | .acquire r => some r
  | .release _ => none

def ResourceEvent.released : ResourceEvent → Option Resource
  | .acquire _ => none
  | .release r => some r

/-- What a call has acquired and released. -/
def ProbeResult.ledger (p : ProbeResult) : Ledger Resource where
  acquired := p.events.filterMap ResourceEvent.acquired
  released := p.events.filterMap ResourceEvent.released

/-! ## Sequences of calls -/

/-- A card: the number of the probe that has allocated it, and what the kernel answered to it. -/
structure ProbedCard where
  number : Nat
  answers : ProbeAnswers

/-- The probes so far, what each of them has acquired and released, and the devices `δ`: whether they are
bound to the driver, and their private pointer. -/
structure Devices (δ : Type) where
  probes : List ProbeAnswers
  ledger : Nat → Ledger Resource
  bound : δ → Bool
  drvdata : δ → Option ProbedCard

inductive DeviceEvent (δ : Type)
  | probe (d : δ) (k : ProbeAnswers)
  | remove (d : δ)

namespace Devices

variable {δ : Type} [DecidableEq δ]

/-- The kernel probes a device; it is bound if the result is 0. -/
def probe (s : Devices δ) (d : δ) (k : ProbeAnswers) : Devices δ where
  probes := s.probes ++ [k]
  ledger := Function.update s.ledger s.probes.length (nfpProbe k).ledger
  bound := Function.update s.bound d ((nfpProbe k).code = 0)
  drvdata :=
    match (nfpProbe k).drvdata with
    | .untouched => s.drvdata
    | .card => Function.update s.drvdata d (some ⟨s.probes.length, k⟩)
    | .null => Function.update s.drvdata d none

/-- `nfp_remove` of a device. -/
def remove (s : Devices δ) (d : δ) : Devices δ :=
  match s.drvdata d with
  | none => { s with bound := Function.update s.bound d false }
  | some c =>
      { s with
        ledger := Function.update s.ledger c.number
          { acquired := (s.ledger c.number).acquired
            released := (s.ledger c.number).released + nfpRemove c.answers }
        bound := Function.update s.bound d false
        drvdata := Function.update s.drvdata d none }

/-- A device is probed while it is not bound, and removed while it is. -/
def apply (s : Devices δ) : DeviceEvent δ → Devices δ
  | .probe d k => if s.bound d then s else s.probe d k
  | .remove d => if s.bound d then s.remove d else s

/-- The driver is loaded. -/
def loaded : Devices δ where
  probes := []
  ledger _ := .empty
  bound _ := false
  drvdata _ := none

/-- Any sequence of calls. -/
def machine (δ : Type) [DecidableEq δ] : Machine (Devices δ) (DeviceEvent δ) where
  reset := loaded
  step := apply

/-- The card belongs to a device that is bound. -/
def BoundTo (s : Devices δ) (d : δ) (c : ProbedCard) : Prop :=
  s.bound d = true ∧ s.drvdata d = some c

/-- Nothing is released more often than it was acquired, the live resources are those of the cards of the
bound devices, a failed probe leaves none and says so, and a character device has its card. -/
structure Balanced (s : Devices δ) : Prop where
  released : ∀ n, (s.ledger n).released ≤ (s.ledger n).acquired
  bound : ∀ d c, s.BoundTo d c → (s.ledger c.number).live = nfpRemove c.answers
  unbound : ∀ n, (∀ d c, s.BoundTo d c → c.number ≠ n) → (s.ledger n).live = 0
  failed : ∀ n k, s.probes[n]? = some k → (nfpProbe k).ready = false →
    (nfpProbe k).code ≠ 0 ∧ (s.ledger n).live = 0
  charDevice : ∀ n, .cdev ∈ (s.ledger n).live → .card ∈ (s.ledger n).live

end Devices

/-! ## One probe -/

/-- The registration of the character device fails. -/
def ProbeAnswers.CharDeviceFails (k : ProbeAnswers) : Prop :=
  k.allocChrdevRegion ≠ 0 ∨ k.classCreate ≠ 0 ∨ k.deviceCreate = .null ∨ k.cdevAdd ≠ 0

/-- The device is enabled, with its read requests and masks. -/
structure ProbeAnswers.Configured (k : ProbeAnswers) : Prop where
  enableDevice : k.enableDevice = 0
  readrq : k.readrqCapability = true ∧ k.readConfig = 0
  dmaMask : k.dmaMask = 0
  consistentDmaMask : k.consistentDmaMask = 0

/-- The probe fails where nothing is acquired yet, or in the registration of the character device, or
not at all. -/
def ProbeAnswers.Unwinds (k : ProbeAnswers) : Prop :=
  k.kmalloc = false ∨
    (k.Configured ∧
      (k.CharDeviceFails ∨ (k.bar0Memory = true ∧ k.requestRegions = 0 ∧ k.allocConsistent = true)))

/-- A probe to the end has acquired what `nfp_remove` releases, and a failed one has released everything
and says so. -/
def ProbeAnswers.Clean (k : ProbeAnswers) : Prop :=
  if (nfpProbe k).ready then (nfpProbe k).ledger.Holds (nfpRemove k)
  else (nfpProbe k).code ≠ 0 ∧ (nfpProbe k).ledger.Holds 0

section Probe

variable {k : ProbeAnswers}

theorem filterMap_acquired_acquire (l : List Resource) :
    (l.map ResourceEvent.acquire).filterMap ResourceEvent.acquired = l := by
  rw [List.filterMap_map]
  exact List.filterMap_some

theorem filterMap_acquired_release (l : List Resource) :
    (l.map ResourceEvent.release).filterMap ResourceEvent.acquired = [] := by
  simp [List.filterMap_map, Function.comp_def, ResourceEvent.acquired]

theorem filterMap_released_acquire (l : List Resource) :
    (l.map ResourceEvent.acquire).filterMap ResourceEvent.released = [] := by
  simp [List.filterMap_map, Function.comp_def, ResourceEvent.released]

theorem filterMap_released_release (l : List Resource) :
    (l.map ResourceEvent.release).filterMap ResourceEvent.released = l := by
  rw [List.filterMap_map]
  exact List.filterMap_some

/-- A payload of 128 bytes is never refused. -/
theorem pciSetPayload_128 (k : ProbeAnswers) : pciSetPayload k 128 = 0 := by
  unfold pciSetPayload
  rw [if_neg (by decide)]
  split
  · rfl
  · split
    · rfl
    · simp

theorem pcieSetReadrq_4096 (k : ProbeAnswers) :
    pcieSetReadrq k 4096 = 0 ↔ k.readrqCapability = true ∧ k.readConfig = 0 := by
  unfold pcieSetReadrq
  cases k.readrqCapability <;> simp

/-- A failed registration has released what it had acquired. -/
theorem nfpioctlProbe_failed (h : k.CharDeviceFails) :
    (nfpioctlProbe k).1 < 0 ∧
      (nfpioctlProbe k).2.filterMap ResourceEvent.acquired =
        ((nfpioctlProbe k).2.filterMap ResourceEvent.released).reverse := by
  have hnodes : k.nodes.reverse = k.nodes := by
    unfold ProbeAnswers.nodes
    split <;> rfl
  unfold nfpioctlProbe
  split
  · exact ⟨by omega, rfl⟩
  · split
    · exact ⟨by omega, rfl⟩
    · split
      · exact ⟨by decide, rfl⟩
      · split
        · refine ⟨by omega, ?_⟩
          simp only [List.filterMap_append, filterMap_acquired_acquire, filterMap_acquired_release,
            filterMap_released_acquire, filterMap_released_release]
          simp [List.filterMap_cons, ResourceEvent.acquired, ResourceEvent.released, hnodes]
        · rename_i hregion hclass hdevice hcdev
          rcases h with h | h | h | h
          · exact absurd h hregion
          · exact absurd h hclass
          · exact absurd h hdevice
          · exact absurd h hcdev

theorem nfpioctlProbe_succeeds (h : ¬ k.CharDeviceFails) :
    nfpioctlProbe k = (0, [.acquire .chrdevRegion, .acquire .devClass] ++ k.nodes.map .acquire ++
      [.acquire .cdev]) := by
  simp only [ProbeAnswers.CharDeviceFails, not_or, not_not] at h
  obtain ⟨hregion, hclass, hdevice, hcdev⟩ := h
  unfold nfpioctlProbe
  rw [if_neg (not_not.2 hregion), if_neg (not_not.2 hclass), if_neg hdevice, if_neg (not_not.2 hcdev)]

/-- The events of a probe until it registers the character device, and until it maps the BARs. -/
def enabledEvents : List ResourceEvent := [.acquire .card, .acquire .enable]

def registeredEvents (k : ProbeAnswers) : List ResourceEvent :=
  enabledEvents ++ ([.acquire .chrdevRegion, .acquire .devClass] ++ k.nodes.map .acquire ++
    [.acquire .cdev])

def mappedEvents (k : ProbeAnswers) : List ResourceEvent :=
  registeredEvents k ++ [.acquire .regions] ++ k.bars.map .acquire

/-- Where a probe can end. -/
inductive ProbeEnd (k : ProbeAnswers) : ProbeResult → Prop
  | noMemory : k.kmalloc = false → ProbeEnd k ⟨-19, false, .untouched, []⟩
  | notEnabled : k.kmalloc = true → k.enableDevice ≠ 0 →
      ProbeEnd k ⟨-19, false, .untouched, [.acquire .card]⟩
  | notConfigured : k.kmalloc = true → ¬ k.Configured →
      ProbeEnd k (errOutDisableDevice 0 enabledEvents)
  | noCharDevice : k.Configured → k.CharDeviceFails →
      ProbeEnd k (errOutIoctl (nfpioctlProbe k).1 (enabledEvents ++ (nfpioctlProbe k).2))
  | notMemory : k.kmalloc = true → ¬ k.CharDeviceFails → k.bar0Memory = false →
      ProbeEnd k (errOutIoctl 0 (registeredEvents k))
  | noRegions : k.kmalloc = true → ¬ k.CharDeviceFails → k.requestRegions ≠ 0 →
      ProbeEnd k (errOutIoctl (-k.requestRegions) (registeredEvents k))
  | noBuffer : k.kmalloc = true → ¬ k.CharDeviceFails → k.allocConsistent = false →
      ProbeEnd k (errIface k 0 (mappedEvents k))
  | ready : k.Configured → k.bar0Memory = true → k.requestRegions = 0 → k.allocConsistent = true →
      ProbeEnd k ⟨0, true, .card, mappedEvents k ++ [.acquire .pageList]⟩

theorem probeEnd_nfpProbe (k : ProbeAnswers) : ProbeEnd k (nfpProbe k) := by
  unfold nfpProbe
  dsimp only
  by_cases hkmalloc : k.kmalloc = false
  · rw [if_pos hkmalloc]
    exact .noMemory hkmalloc
  rw [if_neg hkmalloc]
  rw [Bool.not_eq_false] at hkmalloc
  by_cases henable : k.enableDevice = 0
  swap
  · rw [if_pos henable]
    exact .notEnabled hkmalloc henable
  rw [if_neg (not_not.2 henable), if_neg (not_not.2 (pciSetPayload_128 k))]
  by_cases hreadrq : pcieSetReadrq k 4096 = 0
  swap
  · rw [if_pos hreadrq]
    exact .notConfigured hkmalloc (fun h => hreadrq ((pcieSetReadrq_4096 k).2 h.readrq))
  rw [if_neg (not_not.2 hreadrq)]
  by_cases hmask : k.dmaMask = 0
  swap
  · rw [if_pos hmask]
    exact .notConfigured hkmalloc (fun h => hmask h.dmaMask)
  rw [if_neg (not_not.2 hmask)]
  by_cases hconsistent : k.consistentDmaMask = 0
  swap
  · rw [if_pos hconsistent]
    exact .notConfigured hkmalloc (fun h => hconsistent h.consistentDmaMask)
  rw [if_neg (not_not.2 hconsistent)]
  have hconfigured : k.Configured :=
    ⟨henable, (pcieSetReadrq_4096 k).1 hreadrq, hmask, hconsistent⟩
  by_cases hfails : k.CharDeviceFails
  · rw [if_pos (nfpioctlProbe_failed hfails).1]
    exact .noCharDevice hconfigured hfails
  rw [nfpioctlProbe_succeeds hfails, if_neg (Int.lt_irrefl 0)]
  by_cases hmemory : k.bar0Memory = false
  · rw [if_pos hmemory]
    exact .notMemory hkmalloc hfails hmemory
  rw [if_neg hmemory]
  by_cases hregions : k.requestRegions = 0
  swap
  · rw [if_pos hregions]
    exact .noRegions hkmalloc hfails hregions
  rw [if_neg (not_not.2 hregions)]
  by_cases hbuffer : k.allocConsistent = false
  · rw [if_pos hbuffer]
    exact .noBuffer hkmalloc hfails hbuffer
  rw [if_neg hbuffer]
  exact .ready hconfigured (Bool.eq_true_of_not_eq_false hmemory) hregions
    (Bool.eq_true_of_not_eq_false hbuffer)

/-- The resources of a probe to the end. -/
theorem ready_holds (k : ProbeAnswers) :
    (ProbeResult.ledger ⟨0, true, .card, mappedEvents k ++ [.acquire .pageList]⟩).Holds
      (nfpRemove k) := by
  simp only [Ledger.Holds, ProbeResult.ledger, mappedEvents, registeredEvents, enabledEvents,
    List.filterMap_append, filterMap_acquired_acquire, filterMap_released_acquire]
  simp only [List.filterMap_cons, List.filterMap_nil, ResourceEvent.acquired, ResourceEvent.released,
    nfpRemove, nfpioctlRemove, ← Multiset.coe_add, ← Multiset.cons_coe, Multiset.coe_nil,
    ← Multiset.singleton_add]
  abel

/-- A registration that failed has left nothing but the card and the device. -/
theorem noCharDevice_holds (h : k.CharDeviceFails) (ret : Int) :
    (errOutIoctl ret (enabledEvents ++ (nfpioctlProbe k).2)).ledger.Holds 0 := by
  obtain ⟨-, hunwound⟩ := nfpioctlProbe_failed h
  simp only [Ledger.Holds, ProbeResult.ledger, errOutIoctl, errOutDisableDevice, enabledEvents,
    List.filterMap_append, hunwound]
  simp only [List.filterMap_cons, List.filterMap_nil, ResourceEvent.acquired, ResourceEvent.released,
    ← Multiset.coe_add, Multiset.coe_reverse, ← Multiset.cons_coe, Multiset.coe_nil,
    ← Multiset.singleton_add]
  abel

/-- Without the regions the character device stays. -/
theorem noRegions_not_holds (k : ProbeAnswers) (ret : Int) :
    ¬ (errOutIoctl ret (registeredEvents k)).ledger.Holds 0 := by
  intro hholds
  have hcard := congrArg Multiset.card hholds
  simp only [ProbeResult.ledger, errOutIoctl, errOutDisableDevice, registeredEvents, enabledEvents,
    List.filterMap_append, filterMap_acquired_acquire, filterMap_released_acquire] at hcard
  simp [List.filterMap_cons, ResourceEvent.acquired, ResourceEvent.released] at hcard

/-- A probe with a card fails in the registration of the character device or not at all. -/
theorem ProbeAnswers.Unwinds.of_kmalloc (h : k.Unwinds) (hkmalloc : k.kmalloc = true) :
    k.Configured ∧ (k.CharDeviceFails ∨
      (k.bar0Memory = true ∧ k.requestRegions = 0 ∧ k.allocConsistent = true)) := by
  rcases h with hfalse | h
  · exact absurd (hkmalloc.symm.trans hfalse) (by decide)
  · exact h

/-- A probe is clean exactly if it fails in the right places. -/
theorem clean_iff (k : ProbeAnswers) : k.Clean ↔ k.Unwinds := by
  have hend := probeEnd_nfpProbe k
  unfold ProbeAnswers.Clean
  generalize nfpProbe k = p at hend ⊢
  cases hend with
  | noMemory hkmalloc =>
      exact iff_of_true ⟨by decide, Ledger.holds_empty⟩ (.inl hkmalloc)
  | notEnabled hkmalloc henable =>
      -- the card is not freed
      refine iff_of_false ?_ ?_
      · rintro ⟨-, hholds⟩
        have hcard := congrArg Multiset.card hholds
        simp [ProbeResult.ledger, List.filterMap_cons, ResourceEvent.acquired,
          ResourceEvent.released] at hcard
      · intro h
        exact henable (h.of_kmalloc hkmalloc).1.enableDevice
  | notConfigured hkmalloc hnot =>
      -- `ret` is 0
      refine iff_of_false (fun hclean => hclean.1 rfl) ?_
      intro h
      exact hnot (h.of_kmalloc hkmalloc).1
  | noCharDevice hconfigured hfails =>
      refine iff_of_true ⟨?_, noCharDevice_holds hfails _⟩ (.inr ⟨hconfigured, .inl hfails⟩)
      exact (nfpioctlProbe_failed hfails).1.ne
  | notMemory hkmalloc hregistered hmemory =>
      -- `ret` is the 0 of the registration
      refine iff_of_false (fun hclean => hclean.1 rfl) ?_
      intro h
      rcases (h.of_kmalloc hkmalloc).2 with hfails | ⟨htrue, -⟩
      · exact hregistered hfails
      · exact absurd (hmemory.symm.trans htrue) (by decide)
  | noRegions hkmalloc hregistered hregions =>
      -- the character device is not removed
      refine iff_of_false (fun hclean => noRegions_not_holds k _ hclean.2) ?_
      intro h
      rcases (h.of_kmalloc hkmalloc).2 with hfails | ⟨-, hzero, -⟩
      · exact hregistered hfails
      · exact hregions hzero
  | noBuffer hkmalloc hregistered hbuffer =>
      -- `ret` is the 0 of `pci_request_regions`
      refine iff_of_false (fun hclean => hclean.1 rfl) ?_
      intro h
      rcases (h.of_kmalloc hkmalloc).2 with hfails | ⟨-, -, htrue⟩
      · exact hregistered hfails
      · exact absurd (hbuffer.symm.trans htrue) (by decide)
  | ready hconfigured hmemory hregions hbuffer =>
      exact iff_of_true (ready_holds k) (.inr ⟨hconfigured, .inr ⟨hmemory, hregions, hbuffer⟩⟩)

/-- What is live behind a clean probe. -/
theorem clean_iff_live (k : ProbeAnswers) :
    k.Clean ↔ (nfpProbe k).ledger.released ≤ (nfpProbe k).ledger.acquired ∧
      (nfpProbe k).ledger.live = (if (nfpProbe k).ready then ↑(nfpRemove k) else 0) ∧
      ((nfpProbe k).ready = false → (nfpProbe k).code ≠ 0) := by
  unfold ProbeAnswers.Clean
  cases hready : (nfpProbe k).ready with
  | true =>
      rw [if_pos rfl, if_pos rfl, Ledger.holds_iff]
      constructor
      · rintro ⟨hlive, hreleased⟩
        exact ⟨hreleased, hlive, fun hfalse => by cases hfalse⟩
      · rintro ⟨hreleased, hlive, -⟩
        exact ⟨hlive, hreleased⟩
  | false =>
      rw [if_neg (by decide), if_neg (by decide), Ledger.holds_iff]
      constructor
      · rintro ⟨hcode, hlive, hreleased⟩
        exact ⟨hreleased, hlive, fun _ => hcode⟩
      · rintro ⟨hreleased, hlive, hcode⟩
        exact ⟨hcode rfl, hlive, hreleased⟩

/-- A probe to the end returns 0 and leaves its card in the device; a failed one clears the pointer or
returns an error. -/
theorem nfpProbe_drvdata (k : ProbeAnswers) :
    ((nfpProbe k).ready = true ∧ (nfpProbe k).code = 0 ∧ (nfpProbe k).drvdata = .card) ∨
      ((nfpProbe k).ready = false ∧ (nfpProbe k).drvdata = .null) ∨
      ((nfpProbe k).ready = false ∧ (nfpProbe k).drvdata = .untouched ∧ (nfpProbe k).code ≠ 0) := by
  have hend := probeEnd_nfpProbe k
  generalize nfpProbe k = p at hend ⊢
  cases hend with
  | noMemory _ =>
      exact .inr (.inr ⟨rfl, rfl, by decide⟩)
  | notEnabled _ _ =>
      exact .inr (.inr ⟨rfl, rfl, by decide⟩)
  | ready =>
      exact .inl ⟨rfl, rfl, rfl⟩
  | _ =>
      exact .inr (.inl ⟨rfl, rfl⟩)

end Probe

/-! ## One call -/

namespace Devices

variable {δ : Type} [DecidableEq δ] {s : Devices δ}

/-- The calls meet the condition: a device that is probed fails in the right places only. -/
def Unwinding (s : Devices δ) : DeviceEvent δ → Prop
  | .probe d k => s.bound d = false → k.Unwinds
  | .remove _ => True

/-- The card of a bound device comes from a probe to the end, of this device only; later probes have not
happened. -/
structure Linked (s : Devices δ) : Prop where
  fresh : ∀ n, s.probes.length ≤ n → s.ledger n = .empty
  probed : ∀ d c, s.BoundTo d c →
    s.probes[c.number]? = some c.answers ∧ (nfpProbe c.answers).ready = true
  unique : ∀ d d' c c', s.BoundTo d c → s.BoundTo d' c' → c.number = c'.number → d = d'

omit [DecidableEq δ] in
theorem Linked.number_lt (h : s.Linked) {d : δ} {c : ProbedCard} (hc : s.BoundTo d c) :
    c.number < s.probes.length :=
  (List.getElem?_eq_some_iff.1 (h.probed d c hc).1).1

/-- What a probe does to the devices: the other ones stay, and the device is bound to the new card, or
to none. -/
theorem boundTo_probe {d d' : δ} {k : ProbeAnswers} {c : ProbedCard} :
    (s.probe d k).BoundTo d' c ↔
      if d' = d then (nfpProbe k).ready = true ∧ c = ⟨s.probes.length, k⟩ else s.BoundTo d' c := by
  unfold BoundTo probe
  by_cases hd : d' = d
  · subst hd
    rw [if_pos rfl]
    rcases nfpProbe_drvdata k with ⟨hready, hcode, hdata⟩ | ⟨hready, hdata⟩ | ⟨hready, hdata, hcode⟩
    · simp [hready, hcode, hdata, eq_comm]
    · simp [hready, hdata]
    · simp [hready, hcode]
  · rw [if_neg hd]
    cases hdata : (nfpProbe k).drvdata <;> simp [Function.update_of_ne hd]

theorem boundTo_remove {d d' : δ} {c : ProbedCard} :
    (s.remove d).BoundTo d' c ↔ d' ≠ d ∧ s.BoundTo d' c := by
  unfold BoundTo remove
  by_cases hd : d' = d
  · subst hd
    cases s.drvdata d' <;> simp
  · cases s.drvdata d <;> simp [hd]

theorem probes_remove (d : δ) : (s.remove d).probes = s.probes := by
  unfold remove
  split <;> rfl

theorem Linked.probe (h : s.Linked) (d : δ) (k : ProbeAnswers) : (s.probe d k).Linked := by
  have hlength : (s.probe d k).probes.length = s.probes.length + 1 := by
    simp [Devices.probe]
  refine ⟨?_, ?_, ?_⟩
  · intro n hn
    have hne : n ≠ s.probes.length := by omega
    show Function.update s.ledger _ _ n = _
    rw [Function.update_of_ne hne]
    exact h.fresh n (by omega)
  · intro d' c hc
    rw [boundTo_probe] at hc
    split at hc
    · obtain ⟨hready, rfl⟩ := hc
      exact ⟨List.getElem?_concat_length, hready⟩
    · obtain ⟨hprobed, hready⟩ := h.probed d' c hc
      refine ⟨?_, hready⟩
      show (s.probes ++ [k])[c.number]? = _
      rw [List.getElem?_append_left (h.number_lt hc), hprobed]
  · intro d₁ d₂ c₁ c₂ h₁ h₂ hnumber
    rw [boundTo_probe] at h₁ h₂
    split at h₁ <;> split at h₂
    · simp_all
    · -- the card of the new probe has a number of its own
      have hlt := h.number_lt h₂
      rw [← hnumber, h₁.2] at hlt
      exact absurd hlt (Nat.lt_irrefl _)
    · have hlt := h.number_lt h₁
      rw [hnumber, h₂.2] at hlt
      exact absurd hlt (Nat.lt_irrefl _)
    · exact h.unique d₁ d₂ c₁ c₂ h₁ h₂ hnumber

theorem Linked.remove (h : s.Linked) {d : δ} (hd : s.bound d = true) : (s.remove d).Linked := by
  refine ⟨?_, ?_, ?_⟩
  · intro n hn
    rw [probes_remove] at hn
    unfold Devices.remove
    split
    · exact h.fresh n hn
    · rename_i c hc
      have hlt := h.number_lt ⟨hd, hc⟩
      show Function.update s.ledger _ _ n = _
      rw [Function.update_of_ne (by omega)]
      exact h.fresh n hn
  · intro d' c hc
    rw [probes_remove]
    exact h.probed d' c (boundTo_remove.1 hc).2
  · intro d₁ d₂ c₁ c₂ h₁ h₂ hnumber
    exact h.unique d₁ d₂ c₁ c₂ (boundTo_remove.1 h₁).2 (boundTo_remove.1 h₂).2 hnumber

/-- In every sequence of calls the cards belong to one device each. -/
theorem linked_trace (events : Nat → DeviceEvent δ) (t : Nat) :
    ((machine δ).trace events t).Linked := by
  refine (machine δ).trace_invariant events Linked ?_ ?_ t
  · refine ⟨fun _ _ => rfl, ?_, ?_⟩
    · intro d c hc
      cases hc.1
    · intro d d' c c' hc
      cases hc.1
  · intro s e h
    cases e with
    | probe d k =>
        show (if s.bound d then s else s.probe d k).Linked
        split
        · exact h
        · exact h.probe d k
    | remove d =>
        show (if s.bound d then s.remove d else s).Linked
        split
        · exact h.remove ‹_›
        · exact h

/-- What is live of the new probe, and of the other ones. -/
theorem ledger_probe (s : Devices δ) (d : δ) (k : ProbeAnswers) (n : Nat) :
    (s.probe d k).ledger n = if n = s.probes.length then (nfpProbe k).ledger else s.ledger n :=
  Function.update_apply _ _ _ _

/-- A clean probe keeps the balance. -/
theorem Balanced.probe (h : s.Balanced) (hlinked : s.Linked) {d : δ} (hd : s.bound d = false)
    {k : ProbeAnswers} (hclean : k.Clean) : (s.probe d k).Balanced := by
  obtain ⟨hreleased, hlive, hcode⟩ := (clean_iff_live k).1 hclean
  refine ⟨?_, ?_, ?_, ?_, ?_⟩
  · intro n
    rw [ledger_probe]
    split
    · exact hreleased
    · exact h.released n
  · intro d' c hc
    rw [boundTo_probe] at hc
    split at hc
    · obtain ⟨hready, rfl⟩ := hc
      rw [ledger_probe, if_pos rfl, hlive, if_pos hready]
    · rw [ledger_probe, if_neg (hlinked.number_lt hc).ne]
      exact h.bound d' c hc
  · intro n hfree
    rw [ledger_probe]
    split
    · -- the device would be bound to the new card
      rename_i hn
      rw [hlive, if_neg]
      intro hready
      exact hfree d ⟨n, k⟩ (boundTo_probe.2 (by simp [hready, hn])) rfl
    · refine h.unbound n ?_
      intro d' c hc
      -- the device that is probed was not bound
      have hne : d' ≠ d := by
        rintro rfl
        exact Bool.false_ne_true (hd.symm.trans hc.1)
      refine hfree d' c (boundTo_probe.2 ?_)
      rwa [if_neg hne]
  · intro n k' hk' hready
    have hget : (s.probes ++ [k])[n]? = some k' := hk'
    rw [ledger_probe]
    split
    · rename_i hn
      rw [hn, List.getElem?_concat_length, Option.some.injEq] at hget
      subst hget
      exact ⟨hcode hready, by rw [hlive, if_neg (by simp [hready])]⟩
    · rename_i hn
      have hlt := (List.getElem?_eq_some_iff.1 hget).1
      rw [List.length_append, List.length_singleton] at hlt
      rw [List.getElem?_append_left (by omega)] at hget
      exact h.failed n k' hget hready
  · intro n
    rw [ledger_probe]
    split
    · rw [hlive]
      split
      · intro _
        simp [nfpRemove]
      · intro hcdev
        cases hcdev
    · exact h.charDevice n

/-- A probe keeps the balance exactly if it is clean. -/
theorem balanced_probe_iff (h : s.Balanced) (hlinked : s.Linked) {d : δ} (hd : s.bound d = false)
    (k : ProbeAnswers) : (s.probe d k).Balanced ↔ k.Clean := by
  refine ⟨fun hbalanced => ?_, h.probe hlinked hd⟩
  have hnew : (s.probe d k).ledger s.probes.length = (nfpProbe k).ledger := by
    rw [ledger_probe, if_pos rfl]
  have hprobe : (s.probe d k).probes[s.probes.length]? = some k := List.getElem?_concat_length
  rw [clean_iff_live]
  refine ⟨hnew ▸ hbalanced.released s.probes.length, ?_, ?_⟩
  · split
    · rename_i hready
      have hbound : (s.probe d k).BoundTo d ⟨s.probes.length, k⟩ :=
        boundTo_probe.2 (by simp [hready])
      exact hnew ▸ hbalanced.bound d _ hbound
    · rename_i hready
      exact hnew ▸ (hbalanced.failed _ k hprobe (Bool.eq_false_of_not_eq_true hready)).2
  · intro hready
    exact (hbalanced.failed _ k hprobe hready).1

/-- What a removal does to the resources: those of the card are released. -/
theorem ledger_remove (h : s.Balanced) {d : δ} (hd : s.bound d = true) (n : Nat) :
    ((∃ c, s.BoundTo d c ∧ c.number = n) ∧ ((s.remove d).ledger n).Holds 0) ∨
      ((∀ c, s.BoundTo d c → c.number ≠ n) ∧ (s.remove d).ledger n = s.ledger n) := by
  unfold remove
  cases hc : s.drvdata d with
  | none =>
      refine .inr ⟨?_, rfl⟩
      intro c hbound
      rw [BoundTo, hc] at hbound
      cases hbound.2
  | some c =>
      have hbound : s.BoundTo d c := ⟨hd, hc⟩
      by_cases hn : n = c.number
      · subst hn
        refine .inl ⟨⟨c, hbound, rfl⟩, ?_⟩
        show (Function.update s.ledger c.number _ c.number).Holds 0
        rw [Function.update_self]
        refine Ledger.Holds.release ?_
        rw [add_zero]
        exact Ledger.holds_iff.2 ⟨h.bound d c hbound, h.released _⟩
      · refine .inr ⟨?_, Function.update_of_ne hn _ _⟩
        intro c' hbound'
        have hsame : c' = c := Option.some.inj (hbound'.2.symm.trans hc)
        rw [hsame]
        exact Ne.symm hn

/-- A removal keeps the balance. -/
theorem Balanced.remove (h : s.Balanced) (hlinked : s.Linked) {d : δ} (hd : s.bound d = true) :
    (s.remove d).Balanced := by
  have hledger := ledger_remove h hd
  refine ⟨?_, ?_, ?_, ?_, ?_⟩
  · intro n
    rcases hledger n with ⟨-, hholds⟩ | ⟨-, hsame⟩
    · exact (Ledger.holds_iff.1 hholds).2
    · exact hsame ▸ h.released n
  · intro d' c hc
    -- another device has another card
    obtain ⟨hne, hbound⟩ := boundTo_remove.1 hc
    rcases hledger c.number with ⟨⟨c', hbound', hnumber⟩, -⟩ | ⟨-, hsame⟩
    · exact absurd (hlinked.unique d' d c c' hbound hbound' hnumber.symm) hne
    · exact hsame ▸ h.bound d' c hbound
  · intro n hfree
    rcases hledger n with ⟨-, hholds⟩ | ⟨hother, hsame⟩
    · exact (Ledger.holds_iff.1 hholds).1
    · rw [hsame]
      refine h.unbound n ?_
      intro d' c hc
      by_cases hd' : d' = d
      · subst hd'
        exact hother c hc
      · exact hfree d' c (boundTo_remove.2 ⟨hd', hc⟩)
  · intro n k hk hready
    rw [probes_remove] at hk
    obtain ⟨hcode, hlive⟩ := h.failed n k hk hready
    refine ⟨hcode, ?_⟩
    rcases hledger n with ⟨-, hholds⟩ | ⟨-, hsame⟩
    · exact (Ledger.holds_iff.1 hholds).1
    · rw [hsame, hlive]
  · intro n
    rcases hledger n with ⟨-, hholds⟩ | ⟨-, hsame⟩
    · rw [(Ledger.holds_iff.1 hholds).1]
      intro hcdev
      cases hcdev
    · rw [hsame]
      exact h.charDevice n

theorem balanced_apply_iff (hlinked : s.Linked) (h : s.Balanced) (e : DeviceEvent δ) :
    (s.apply e).Balanced ↔ s.Unwinding e := by
  cases e with
  | probe d k =>
      show (if s.bound d then s else s.probe d k).Balanced ↔ (s.bound d = false → k.Unwinds)
      cases hd : s.bound d with
      | true =>
          exact iff_of_true (by rwa [if_pos rfl]) (fun hfalse => by cases hfalse)
      | false =>
          rw [if_neg (by decide), balanced_probe_iff h hlinked hd, clean_iff]
          exact ⟨fun hclean _ => hclean, fun hclean => hclean rfl⟩
  | remove d =>
      refine iff_of_true ?_ trivial
      show (if s.bound d then s.remove d else s).Balanced
      split
      · exact h.remove hlinked ‹_›
      · exact h

/-! ## Any number of calls -/

/-- In every sequence of probes and removals of any devices the resources are balanced exactly as long as
the probes fail in the right places only. -/
theorem probes_balanced_iff (events : Nat → DeviceEvent δ) (n : Nat) :
    (∀ t ≤ n, ((machine δ).trace events t).Balanced) ↔
      ∀ t < n, ((machine δ).trace events t).Unwinding (events t) := by
  have hstart : ((machine δ).reset).Balanced := by
    obtain ⟨hlive, hreleased⟩ := Ledger.holds_iff.1 (Ledger.holds_empty (α := Resource))
    refine ⟨fun _ => hreleased, ?_, fun _ _ => hlive, ?_, ?_⟩
    · intro d c hc
      cases hc.1
    · intro n k hk
      cases hk
    · intro n hcdev
      rw [show ((machine δ).reset.ledger n).live = 0 from hlive] at hcdev
      cases hcdev
  refine (machine δ).trace_good_iff events Linked (linked_trace events) hstart ?_ n
  intro s e hlinked hbalanced
  exact balanced_apply_iff hlinked hbalanced e

/-- A machine in which the regions of the device belong to another driver. -/
def noRegions : ProbeAnswers where
  kmalloc := true
  enableDevice := 0
  capability := true
  devcap := 0x8002
  parentCapability := true
  readrqCapability := true
  readConfig := 0
  dmaMask := 0
  consistentDmaMask := 0
  allocChrdevRegion := 0
  classCreate := 0
  deviceCreate := .created
  cdevAdd := 0
  bar0Memory := true
  requestRegions := 16
  iomap _ := true
  allocConsistent := true

/-- The probe fails and frees its card, and the character device that refers to it stays. -/
theorem char_device_without_card :
    ¬ ((machine Unit).trace (fun _ => .probe () noRegions) 1).Balanced := by
  intro h
  exact absurd (h.charDevice 0 (by decide)) (by decide)

end Devices

end Host
end PcieBench
