import SeferAlloc.BitWord

/-!
# The slots and the learning of the Large cache

Freed Large reservations are kept in eight base slots and in an extension of
248 more, which is reserved when the base slots are full. A slot is occupied
when its bit is set: the first 64 bits are a word of the heap, the others are
words of the extension. The learned state sits beside the extension slots and
decides how many of them are open. The model is the adaptive build; without
`adaptive` the extension has 32 open slots, as in the extended build, and a
build without an extension is a heap that is never granted one.
-/
namespace SeferAlloc
namespace LargeCache
open BitWord

/-! ## Saturating arithmetic -/

/-- `usize::MAX`, which is `u64::MAX`. -/
def usizeMax : ℕ := 18446744073709551615

/-- `u32::MAX`. -/
def u32Max : ℕ := 4294967295

def satAdd (a b : ℕ) : ℕ := min (a + b) usizeMax

def satMul (a b : ℕ) : ℕ := min (a * b) usizeMax

def satAdd32 (a b : ℕ) : ℕ := min (a + b) u32Max

/-! ## Learning -/

/-- The released spans that are remembered. -/
def goneN : ℕ := 256

/-- The step in which the extended slots grow and shrink. -/
def slotStep : ℕ := 8

/-- The base-two buckets of the histogram of distances. -/
def buckets : ℕ := 48

/-- What one mistake adds to its bucket. -/
def unit : ℕ := 256

/-- The share of the excess that a quiet interval releases, in basis points. -/
def quietReleaseBp : ℕ := 7500

/-- The share of the mistakes' weight that the learnt extra must cover, in percent. -/
def coverPct : ℕ := 90

/-- A hit may be this many times larger than what was asked for. -/
def largeCacheSizeFactor : ℕ := 2

/-- `AdaptiveState`. `gone` is a ring of the sizes given back to the OS, each with the bytes
given back by then; `hist` counts the mistakes by their distance. -/
structure AdaptiveState where
  gone : ℕ → ℕ × ℕ
  goneNext : ℕ
  givenBack : ℕ
  hist : ℕ → ℕ
  extra : ℕ
  live : ℕ
  peak : ℕ
  mistakes : ℕ
  quiet : Bool
  hitBytes : ℕ
  mistakesTotal : ℕ

namespace AdaptiveState

/-- A cache that has learnt nothing. -/
def new : AdaptiveState :=
  ⟨fun _ => (0, 0), 0, 0, fun _ => 0, 0, 0, 0, 0, false, 0, 0⟩

def learning (a : AdaptiveState) : Bool := (List.range buckets).any fun b => a.hist b ≠ 0

/-- The upper bound of the first bucket that covers enough of the total. -/
def coverScan (hist : ℕ → ℕ) (total cap : ℕ) : ℕ → List ℕ → ℕ
  | _, [] => cap
  | acc, b :: bs =>
      if total * coverPct ≤ (acc + hist b) * 100 then min (2 ^ (b + 1)) cap
      else coverScan hist total cap (acc + hist b) bs

def learnedExtra (a : AdaptiveState) (cap : ℕ) : ℕ :=
  let total := ((List.range buckets).map a.hist).sum
  if total = 0 then 0 else coverScan a.hist total cap 0 (List.range buckets)

def noteHit (a : AdaptiveState) (usable : ℕ) : AdaptiveState :=
  let live := satAdd a.live usable
  { a with hitBytes := satAdd a.hitBytes usable, live, peak := max a.peak live }

/-- A miss that a segment given back earlier could have served. -/
def noteMistake (a : AdaptiveState) (headroom k : ℕ) : AdaptiveState :=
  let distance := max (satAdd (a.givenBack - (a.gone k).2) (a.gone k).1) 1
  let b := min (Nat.log2 distance) (buckets - 1)
  let a := { a with
    gone := Function.update a.gone k (0, 0)
    hist := Function.update a.hist b (satAdd32 (a.hist b) unit)
    mistakes := satAdd32 a.mistakes 1
    mistakesTotal := satAdd a.mistakesTotal 1 }
  { a with extra := a.learnedExtra (a.peak - headroom) }

def noteMiss (a : AdaptiveState) (headroom usable : ℕ) : AdaptiveState :=
  let live := satAdd a.live usable
  let a := { a with live, peak := max a.peak live }
  let hi := satMul usable largeCacheSizeFactor
  match (List.range goneN).find? fun k => usable ≤ (a.gone k).1 ∧ (a.gone k).1 ≤ hi with
  | none => a
  | some k => a.noteMistake headroom k

def noteFree (a : AdaptiveState) (usable : ℕ) : AdaptiveState := { a with live := a.live - usable }

def noteGone (a : AdaptiveState) (usable : ℕ) : AdaptiveState :=
  let givenBack := satAdd a.givenBack usable
  { a with
    givenBack
    gone := Function.update a.gone a.goneNext (usable, givenBack)
    goneNext := (a.goneNext + 1) % goneN }

/-- The part of `large_cache_adaptive_interval` that concerns the learned state. -/
def interval (a : AdaptiveState) (headroom : ℕ) : AdaptiveState :=
  let quiet : Bool := a.mistakes = 0 ∧ satMul a.hitBytes 8 ≤ a.extra
  let aged := fun b => a.hist b - if quiet then (a.hist b + 1) / 2 else (a.hist b + 15) / 16
  -- a quiet interval also moves every bucket one distance down
  let moved := fun b =>
    if b = 0 then satAdd32 (aged 0) (aged 1) else if b + 1 < buckets then aged (b + 1) else 0
  let a := { a with
    hist := if quiet then moved else aged
    quiet
    mistakes := 0
    hitBytes := 0
    peak := a.peak - (a.peak - min a.live a.peak) / 8 }
  { a with extra := a.learnedExtra (a.peak - headroom) }

end AdaptiveState

/-! ## Slots -/

/-- The slots every cache has. -/
def largeCacheSlots : ℕ := 8

/-- The slots the extension may add. -/
def largeCacheExtendedSlots : ℕ := 248

/-- The extended slots a cache without adaptation uses. -/
def extendedSlotsInitial : ℕ := 32

/-- The occupancy words, one for the inline slots and three for the others. -/
def largeCacheOccWords : ℕ := 4

structure CachedLarge where
  reservation : ℕ
  reservationLen : ℕ
  base : ℕ
  usableSize : ℕ
  reservedCapacity : ℕ
  seq : ℕ
deriving DecidableEq

/-- The slots and the learning that the sidecar adds. -/
structure Extension where
  slots : ℕ → Option CachedLarge
  occHi : ℕ → Word
  active : ℕ
  adapt : AdaptiveState

/-- The extension `reserve_large_cache_extension` writes. -/
def Extension.new : Extension := ⟨fun _ => none, fun _ => 0, 0, .new⟩

/-- The budget and the `LargeCacheDecayConfig` of a heap; the interval is in nanoseconds. -/
structure Config where
  budgetBytes : Option ℕ
  decayRateBp : ℕ
  decayInterval : ℕ
  headroomBytes : ℕ
  adaptive : Bool
  adaptiveBudget : Bool

/-- The `large_cache` fields of `AllocCore`. -/
structure Cache where
  config : Config
  slots : ℕ → Option CachedLarge
  occupied : Word
  extension : Option Extension
  usedBytes : ℕ
  seq : ℕ
  lastDecayTick : Option ℕ
  decayOpCount : ℕ

namespace Cache

/-- One past the last slot that a scan looks at. -/
def scanBound (c : Cache) : ℕ :=
  match c.extension with
  | none => largeCacheSlots
  | some e =>
      if c.config.adaptive then largeCacheSlots + e.active
      else largeCacheSlots + extendedSlotsInitial

/-- The span in a slot, inline or extended. -/
def slotGet (c : Cache) (idx : ℕ) : Option CachedLarge :=
  if idx < largeCacheSlots then c.slots idx
  else c.extension.bind fun e => e.slots (idx - largeCacheSlots)

/-- `large_cache_slot_take`; an empty slot aborts. -/
def slotTake (c : Cache) (idx : ℕ) : Option (CachedLarge × Cache) :=
  if idx < largeCacheSlots then
    (c.slots idx).map fun taken =>
      (taken, { c with
        slots := Function.update c.slots idx none
        occupied := c.occupied &&& ~~~bit idx })
  else
    c.extension.bind fun e =>
      (e.slots (idx - largeCacheSlots)).map fun taken =>
        let e := { e with slots := Function.update e.slots (idx - largeCacheSlots) none }
        if 64 ≤ idx then
          let w := idx / 64 - 1
          (taken, { c with extension := some { e with
            occHi := Function.update e.occHi w (e.occHi w &&& ~~~bit (idx % 64)) } })
        else (taken, { c with extension := some e, occupied := c.occupied &&& ~~~bit idx })

/-- `large_cache_slot_set`; the extension of an extended slot exists. -/
def slotSet (c : Cache) (idx : ℕ) (entry : CachedLarge) : Option Cache :=
  if idx < largeCacheSlots then
    some { c with
      slots := Function.update c.slots idx (some entry)
      occupied := c.occupied ||| bit idx }
  else if largeCacheSlots + largeCacheExtendedSlots ≤ idx then none
  else
    c.extension.map fun e =>
      let e := { e with slots := Function.update e.slots (idx - largeCacheSlots) (some entry) }
      if 64 ≤ idx then
        let w := idx / 64 - 1
        { c with extension := some { e with
          occHi := Function.update e.occHi w (e.occHi w ||| bit (idx % 64)) } }
      else { c with extension := some e, occupied := c.occupied ||| bit idx }

/-- The `w`-th occupancy word. -/
def occWords (c : Cache) (w : ℕ) : Word :=
  if w = 0 then c.occupied
  else match c.extension with
    | none => 0
    | some e => e.occHi (w - 1)

/-- The bits of word `w` below the bound. -/
def maskWord (bound w : ℕ) (x : Word) : Word :=
  if bound ≤ w * 64 then 0
  else if bound < w * 64 + 64 then x &&& (bit (bound - w * 64) - 1)
  else x

/-- `large_cache_occupied_slots`, in the order of the iterator. -/
def occupiedSlots (c : Cache) : List ℕ :=
  (List.range largeCacheOccWords).flatMap fun w =>
    (bits (maskWord c.scanBound w (c.occWords w))).map (w * 64 + ·)

/-- The highest slot that holds a span. -/
def highestOccupied (c : Cache) : Option ℕ := c.occupiedSlots.getLast?

/-- The loop of `large_cache_first_free`, one word a time. -/
def firstFreeFrom (c : Cache) (bound : ℕ) : ℕ → ℕ → Option ℕ
  | 0, _ => none
  | n + 1, i =>
      if i < bound then
        let w := i / 64
        let free := ~~~c.occWords w &&& (BitVec.allOnes 64 <<< (i % 64))
        if free ≠ 0 then
          let j := w * 64 + trailingZeros free
          if j < bound then some j else none
        else firstFreeFrom c bound n ((w + 1) * 64)
      else none

def firstFree (c : Cache) (start bound : ℕ) : Option ℕ :=
  c.firstFreeFrom bound (largeCacheOccWords + 1) start

/-- `large_cache_find_free_slot`. `grants` is the answer of the OS to the request for an
extension. -/
def findFreeSlot (c : Cache) (grants : Bool) : Option ℕ × Cache :=
  match c.firstFree 0 largeCacheSlots with
  | some i => (some i, c)
  | none =>
      if c.extension.isNone ∧ grants = false then (none, c)
      else
        let c := { c with extension := some (c.extension.getD .new) }
        (c.firstFree largeCacheSlots c.scanBound, c)

/-- The scan of `oldest_occupied_slot`, which ends early at the sequence number zero. -/
def oldestScan (slot : ℕ → Option CachedLarge) : List ℕ → Option ℕ → ℕ → Option ℕ
  | [], bestIdx, _ => bestIdx
  | i :: is, bestIdx, bestSeq =>
      match slot i with
      | none => oldestScan slot is bestIdx bestSeq
      | some c =>
          if c.seq < bestSeq then
            if c.seq = 0 then some i else oldestScan slot is (some i) c.seq
          else oldestScan slot is bestIdx bestSeq

/-- The slot whose span has been cached longest. -/
def oldestOccupiedSlot (c : Cache) : Option ℕ :=
  oldestScan c.slotGet c.occupiedSlots none usizeMax

/-- The best-fit scan of `alloc_large`, which ends early at an exact fit. -/
def bestFitScan (slot : ℕ → Option CachedLarge) (usable : ℕ) :
    List ℕ → Option ℕ → ℕ → Option ℕ
  | [], hitIdx, _ => hitIdx
  | i :: is, hitIdx, bestUsable =>
      match slot i with
      | none => bestFitScan slot usable is hitIdx bestUsable
      | some c =>
          if usable ≤ c.usableSize ∧ c.usableSize ≤ satMul usable largeCacheSizeFactor ∧
              c.usableSize < bestUsable then
            if c.usableSize = usable then some i
            else bestFitScan slot usable is (some i) c.usableSize
          else bestFitScan slot usable is hitIdx bestUsable

def bestFit (c : Cache) (usable : ℕ) : Option ℕ :=
  bestFitScan c.slotGet usable c.occupiedSlots none usizeMax

/-- The slots of the base array and of the extension. -/
def totalSlots : ℕ := largeCacheSlots + largeCacheExtendedSlots

/-- `large_cache_used_bytes` after a withdrawal: a saturating subtraction. -/
def subUsed (c : Cache) (n : ℕ) : Cache := { c with usedBytes := c.usedBytes - n }

def addUsed (c : Cache) (n : ℕ) : Cache := { c with usedBytes := c.usedBytes + n }

/-! ## Learning, through the extension -/

/-- The extension, when adaptation is switched on. -/
def adaptiveRef (c : Cache) : Option Extension := if c.config.adaptive then c.extension else none

/-- An update through `adaptive_ext`. -/
def adaptiveExt (c : Cache) (f : AdaptiveState → AdaptiveState) : Cache :=
  if c.config.adaptive then
    { c with extension := c.extension.map fun e => { e with adapt := f e.adapt } }
  else c

/-- The bytes the decay leaves alone: the headroom and what was learnt. -/
def retainTarget (c : Cache) : ℕ :=
  satAdd c.config.headroomBytes (c.adaptiveRef.elim 0 fun e => e.adapt.extra)

/-- The decay rate, raised while the cache is quiet. -/
def decayRateBp (c : Cache) : ℕ :=
  if c.adaptiveRef.any fun e => e.adapt.quiet then max c.config.decayRateBp quietReleaseBp
  else c.config.decayRateBp

/-- The learning has not settled yet. -/
def adaptivePending (c : Cache) : Bool := c.adaptiveRef.any fun e => e.adapt.learning

def noteHit (c : Cache) (usable : ℕ) : Cache := c.adaptiveExt fun a => a.noteHit usable

def noteMiss (c : Cache) (usable : ℕ) : Cache :=
  c.adaptiveExt fun a => a.noteMiss c.config.headroomBytes usable

def noteFree (c : Cache) (usable : ℕ) : Cache := c.adaptiveExt fun a => a.noteFree usable

def noteGone (c : Cache) (usable : ℕ) : Cache := c.adaptiveExt fun a => a.noteGone usable

/-- The byte budget, lifted where the adaptive one stands in. -/
def effectiveBudget (c : Cache) : Option ℕ :=
  if c.config.adaptive ∧ c.config.adaptiveBudget then none else c.config.budgetBytes

/-- No eviction can make room for a span above the whole budget. -/
def depositBudgetInfeasible (c : Cache) (usable : ℕ) : Bool :=
  c.effectiveBudget.any fun budget => budget < usable

/-- The test `budget_ok` of an admission. -/
def budgetOk (c : Cache) (usable : ℕ) : Bool :=
  c.effectiveBudget.all fun budget => c.usedBytes + usable ≤ budget

/-- `large_cache_try_grow_slots`, `none` when no slot is opened. -/
def tryGrowSlots (c : Cache) (used usable : ℕ) : Option Cache :=
  c.adaptiveRef.bind fun e =>
    let target := satAdd c.config.headroomBytes e.adapt.extra
    if e.adapt.learning = false ∨ target < satAdd used usable ∨
        largeCacheExtendedSlots ≤ e.active then none
    else some { c with extension := some { e with
      active := min (e.active + slotStep) largeCacheExtendedSlots } }

/-- The live bytes of the learned state, zero before there is one. -/
def live (c : Cache) : ℕ := c.extension.elim 0 fun e => e.adapt.live

/-- `usize::next_multiple_of`: the next multiple of `k`, `n` itself included. -/
def nextMultipleOf (n k : ℕ) : ℕ := (n + (k - 1)) / k * k

/-- Ends one interval of the learning and, once it has settled, drops slots nothing occupies. -/
def adaptiveInterval (c : Cache) : Cache :=
  match c.adaptiveRef with
  | none => c
  | some e =>
      let adapt := e.adapt.interval c.config.headroomBytes
      let floor := c.highestOccupied.elim 0 fun i => i + 1 - largeCacheSlots
      let active :=
        if adapt.learning then e.active else min e.active (nextMultipleOf floor slotStep)
      { c with extension := some { e with adapt, active } }

end Cache

end LargeCache

end SeferAlloc
