import SeferAlloc.CacheLedger
import SeferAlloc.LargeCache
import SeferAlloc.LargeReservation
import SeferAlloc.SmallSegment

/-!
# Allocation and release of Large segments

A Large block has a segment of its own. A freed one is deposited in the cache
if it fits the budget, after the oldest entries made room for it, and a later
allocation takes the best fit out again. The decay step gives the oldest
entries back to the OS. `none` is an abort of the source, or a loop that ran
out of steps.
-/
namespace SeferAlloc
namespace LargeHeap
open LargeCache CacheLedger
open LargeReservation (Transition packLargeState largePhase largeGeneration nextLargeGeneration pack)
open SeferAlloc.Small (alignUp)

/-- The platform's sizes, and the features `exact-span-large` and `large-reserved-capacity`. -/
structure Build where
  /-- The bytes of the segment header, `size_of::<SegmentHeader>()`. -/
  headerSize : ℕ
  pageSize : ℕ
  exactSpan : Bool
  largeReservedCapacity : Bool

structure LargeHeader where
  largeSize : ℕ
  largeAlign : ℕ
  payloadOffset : ℕ
  spanUsable : ℕ
  reservedCapacity : ℕ
  reservation : ℕ
  reservationLen : ℕ
  largeState : LargeReservation.Word

/-- The part of `AllocCore` around Large segments, and the history of the reservations. -/
structure Heap where
  build : Build
  cache : Cache
  header : ℕ → LargeHeader
  registered : ℕ → Bool
  log : List (Event ℕ)

def entry (x : CachedLarge) : Entry ℕ := ⟨x.base, x.usableSize, x.seq⟩

namespace Heap

def emit (h : Heap) (e : Event ℕ) : Heap := { h with log := h.log ++ [e] }

def setCache (h : Heap) (c : Cache) : Heap := { h with cache := c }

def setState (h : Heap) (base : ℕ) (w : LargeReservation.Word) : Heap :=
  { h with header := Function.update h.header base { h.header base with largeState := w } }

def generationOf (h : Heap) (base : ℕ) : ℕ := largeGeneration (h.header base).largeState

/-! ## Transitions of the state word -/

/-- A transition whose failure aborts. -/
def transition (h : Heap) (base : ℕ) (t : Transition) (generation : ℕ) : Option Heap := do
  let expected ← packLargeState t.source generation
  let new ← packLargeState t.target (t.generationAfter generation)
  if (h.header base).largeState = expected then some (h.setState base new) else none

/-- `claim_live`, whose failure aborts. -/
def claimLive (h : Heap) (base : ℕ) : Option (ℕ × Heap) :=
  let observed := (h.header base).largeState
  if largePhase observed = some .live then
    let generation := largeGeneration observed
    (packLargeState .consuming generation).map fun new => (generation, h.setState base new)
  else none

/-- `begin_large_reuse`: no generation when they are exhausted. -/
def beginLargeReuse (h : Heap) (base : ℕ) : Option (Option ℕ × Heap) :=
  let observed := (h.header base).largeState
  if largePhase observed = some .cached then
    match nextLargeGeneration (largeGeneration observed) with
    | none => some (none, h)
    | some next =>
        (packLargeState .initializing next).map fun new => (some next, h.setState base new)
  else none

/-! ## Eviction and decay -/

/-- The common part of `evict_one_oldest` and `evict_at_least`. -/
def releaseVictim (h : Heap) (idx : ℕ) : Option (ℕ × Heap) := do
  let (victim, cache) ← h.cache.slotTake idx
  let released ← (h.setCache (cache.subUsed victim.usableSize)).transition victim.base
    .releaseCached (h.generationOf victim.base)
  return (victim.usableSize, released.emit (.evicted (entry victim) h.cache.usedBytes))

def evictOneOldest (h : Heap) : Option (Bool × Heap) :=
  match h.cache.oldestOccupiedSlot with
  | none => some (false, h)
  | some idx => (h.releaseVictim idx).map fun p => (true, p.2)

/-- Evicts the oldest span and remembers its size as gone. -/
def evictOldestNotingGone (h : Heap) : Option (Bool × Heap) :=
  match h.cache.oldestOccupiedSlot.bind h.cache.slotGet with
  | none => h.evictOneOldest
  | some x => (h.setCache (h.cache.noteGone x.usableSize)).evictOneOldest

def evictAtLeastLoop (minBytes : ℕ) : ℕ → ℕ → Heap → Option Heap
  | 0, _, _ => none
  | n + 1, released, h =>
      if released < minBytes then
        match h.cache.oldestOccupiedSlot with
        | none => some h
        | some idx => do
            let (usable, h) ← h.releaseVictim idx
            evictAtLeastLoop minBytes n (released + usable) h
      else some h

def evictAtLeast (h : Heap) (minBytes : ℕ) : Option Heap :=
  evictAtLeastLoop minBytes (Cache.totalSlots + 1) 0 h

def evictAllLoop : ℕ → Heap → Option Heap
  | 0, _ => none
  | n + 1, h => do
      let (evicted, h) ← h.evictOneOldest
      if evicted then evictAllLoop n h else some h

def evictAll (h : Heap) : Option Heap :=
  (evictAllLoop (Cache.totalSlots + 1) h).map fun h =>
    h.setCache { h.cache with lastDecayTick := none, decayOpCount := 0 }

def runDecayStep (h : Heap) : Option Heap :=
  let excess := h.cache.usedBytes - h.cache.retainTarget
  let release := satMul excess h.cache.decayRateBp / 10000
  if excess = 0 ∨ release = 0 then some h else h.evictAtLeast release

/-- The clock is read on every so many calls. -/
def decayClockCheckStride : ℕ := 64

/-- The most intervals one decay catches up on. -/
def decayCatchupMaxSteps : ℕ := 8

def decaySteps : ℕ → Heap → Option Heap
  | 0, h => some h
  | n + 1, h => (h.setCache h.cache.adaptiveInterval).runDecayStep.bind (decaySteps n)

/-- `maybe_decay_large_cache` once the clock has been read. -/
def decayElapsed (h : Heap) (now elapsed : ℕ) : Option Heap :=
  let interval := h.cache.config.decayInterval
  if elapsed < interval then some h
  else if interval = 0 then
    decaySteps 1 (h.setCache { h.cache with lastDecayTick := some now })
  else
    let intervalsDue := min (elapsed / interval) decayCatchupMaxSteps
    (decaySteps intervalsDue h).map fun h =>
      let atTarget : Bool := h.cache.usedBytes ≤ h.cache.retainTarget
      h.setCache { h.cache with
        lastDecayTick :=
          if atTarget then some now
          else h.cache.lastDecayTick.map fun t => t + interval * intervalsDue }

def maybeDecayLargeCache (h : Heap) (now : ℕ) : Option Heap :=
  if h.cache.usedBytes ≤ h.cache.retainTarget ∧ h.cache.adaptivePending = false then some h
  else
    let zeroInterval : Bool := h.cache.config.decayInterval = 0
    let count := (h.cache.decayOpCount + 1) % (u32Max + 1)
    if zeroInterval = false ∧ count % decayClockCheckStride ≠ 0 ∧ h.cache.lastDecayTick ≠ none then
      some (h.setCache { h.cache with decayOpCount := count })
    else
      match h.cache.lastDecayTick with
      | some t => (h.setCache { h.cache with decayOpCount := 0 }).decayElapsed now (now - t)
      | none =>
          let h := h.setCache { h.cache with decayOpCount := 0, lastDecayTick := some now }
          if zeroInterval then h.decayElapsed now 0 else some h

/-! ## Admission -/

/-- The admission loop. `grants n` is the answer of the OS to a request for the extension
with `n` rounds left. -/
def admitLoop (grants : ℕ → Bool) (usable : ℕ) : ℕ → Heap → Option (Option ℕ × Heap)
  | 0, _ => none
  | n + 1, h =>
      let (freeSlot, cache) := h.cache.findFreeSlot (grants n)
      let h := h.setCache cache
      let budgetOk := cache.budgetOk usable
      if freeSlot.isSome ∧ budgetOk then some (freeSlot, h)
      else
        match if freeSlot.isNone ∧ budgetOk then cache.tryGrowSlots cache.usedBytes usable
          else none with
        | some cache => admitLoop grants usable n (h.setCache cache)
        | none =>
            h.evictOldestNotingGone.bind fun p =>
              if p.1 then admitLoop grants usable n p.2 else some (none, p.2)

/-- Rounds enough: each one evicts an entry or opens a slot. -/
def admissionRounds : ℕ := Cache.totalSlots + largeCacheExtendedSlots + 1

/-- The slot a freed segment is admitted to. -/
def admission (h : Heap) (grants : ℕ → Bool) (hdr : LargeHeader) : Option (Option ℕ × Heap) :=
  let h := h.setCache (h.cache.noteFree hdr.spanUsable)
  if hdr.largeAlign < segment ∧ h.cache.depositBudgetInfeasible hdr.spanUsable = false then
    admitLoop grants hdr.spanUsable admissionRounds h
  else some (none, h)

/-- The entry of a deposited segment. -/
def cachedLarge (base : ℕ) (hdr : LargeHeader) (seq : ℕ) : CachedLarge :=
  ⟨hdr.reservation, hdr.reservationLen, base, hdr.spanUsable, hdr.reservedCapacity, seq⟩

def deposit (h : Heap) (idx base generation : ℕ) (hdr : LargeHeader) : Option Heap := do
  let h ← h.transition base .cacheConsumed generation
  let x := cachedLarge base hdr h.cache.seq
  let cache ← { h.cache with seq := (h.cache.seq + 1) % (usizeMax + 1) }.slotSet idx x
  return (h.setCache (cache.addUsed hdr.spanUsable)).emit (.deposited (entry x))

def unregister (h : Heap) (base : ℕ) : Heap :=
  { h with registered := Function.update h.registered base false }

def refuse (h : Heap) (hdr : LargeHeader) : Heap :=
  if hdr.largeAlign < segment then h.setCache (h.cache.noteGone hdr.spanUsable) else h

/-- The deposit in the admitted slot, or the release. -/
def settle (h : Heap) (admitted : Option ℕ) (base generation : ℕ) (hdr : LargeHeader) :
    Option Heap :=
  match admitted with
  | some idx => h.deposit idx base generation hdr
  | none =>
      (h.transition base .releaseConsumed generation).map fun h => h.emit (.returned base)

/-- Frees a Large block: claims it, lets the cache decay, then deposits or releases the span. -/
def deallocLargeAtBase (h : Heap) (base now : ℕ) (grants : ℕ → Bool) : Option Heap := do
  let (generation, h) ← h.claimLive base
  let h ← h.maybeDecayLargeCache now
  let stale := h.header base
  let (admitted, h) ← h.admission grants stale
  let h := if admitted.isNone then h.refuse stale else h
  (h.unregister base).settle admitted base generation stale

def reclaimLargeSegment (h : Heap) (base now : ℕ) (grants : ℕ → Bool) : Option Heap := do
  let (generation, h) ← h.claimLive base
  let hdr := h.header base
  let h ← (h.unregister base).maybeDecayLargeCache now
  let (admitted, h) ← h.admission grants hdr
  let h := if admitted.isNone then h.refuse hdr else h
  h.settle admitted base generation hdr

/-! ## Allocation -/

def largePayloadOffset (b : Build) (align : ℕ) : ℕ :=
  if segment ≤ align then alignUp b.headerSize b.pageSize
  else alignUp b.headerSize (max align b.pageSize)

/-- The span of a request, unless it overflows. -/
def spanOf (b : Build) (size align : ℕ) : Option ℕ :=
  let needed := largePayloadOffset b align + size
  let usable := alignUp needed (if b.exactSpan then b.pageSize else segment)
  if usizeMax < needed ∨ usizeMax < usable then none else some usable

/-- A reserved capacity may be this many times the bytes in use. -/
def largeReservedCapGrowthFactor : ℕ := 4

/-- The largest capacity that is reserved ahead. -/
def largeReservedCapBytes : ℕ := 16 * segment

def reservedCapacityTarget (b : Build) (usable : ℕ) : ℕ :=
  if b.largeReservedCapacity then
    max (min (satMul usable largeReservedCapGrowthFactor) largeReservedCapBytes) usable
  else usable

structure Reservation where
  base : ℕ
  reservation : ℕ
  reservationLen : ℕ

/-- What the OS grants does not overlap a segment in use or in the cache. -/
def grant (h : Heap) (r : Option Reservation) : Option Reservation :=
  r.filter fun r => h.registered r.base = false ∧
    ∀ i < Cache.totalSlots, ∀ x ∈ h.cache.slotGet i, x.base ≠ r.base

/-- What the clock, the OS and the segment table answer to an allocation. -/
structure Answers where
  now : ℕ
  reregisters : Bool
  reserved : Option Reservation
  registers : Bool

/-- `alloc_large_slow`. The block, if there is one, is returned with `is_fresh`. -/
def allocLargeSlow (h : Heap) (o : Answers) (size align usable hdrAligned : ℕ) :
    Option (ℕ × Bool) × Heap :=
  match h.grant o.reserved with
  | none => (none, h)
  | some r =>
      let h := h.emit (.granted r.base)
      if o.registers then
        (some (r.base + hdrAligned, true), { h with
          registered := Function.update h.registered r.base true
          header := Function.update h.header r.base
            ⟨size, align, hdrAligned, usable, reservedCapacityTarget h.build usable,
              r.reservation, r.reservationLen, pack .live 1⟩ })
      else (none, h.emit (.returned r.base))

/-- The header fields a cache hit rewrites. -/
def rewriteHeader (h : Heap) (base size align hdrAligned : ℕ) : Heap :=
  { h with header := Function.update h.header base { h.header base with
    largeSize := size, largeAlign := align, payloadOffset := hdrAligned } }

/-- The hit of `alloc_large` in slot `idx`. -/
def serveHit (h : Heap) (o : Answers) (size align usable hdrAligned idx : ℕ) :
    Option (Option (ℕ × Bool) × Heap) := do
  let (slot, cache) ← h.cache.slotTake idx
  let used := h.cache.usedBytes
  let (next, h) ← (h.setCache cache).beginLargeReuse slot.base
  let h := h.setCache (h.cache.subUsed slot.usableSize)
  match next with
  | none =>
      let h ← h.transition slot.base .releaseCached (h.generationOf slot.base)
      return (h.emit (.discarded (entry slot) used)).allocLargeSlow o size align usable hdrAligned
  | some generation =>
      let h := (h.setCache (h.cache.noteHit slot.usableSize)).rewriteHeader slot.base size align
        hdrAligned
      if o.reregisters then
        let h ← { h with registered := Function.update h.registered slot.base true }.transition
          slot.base .finishReuse generation
        return (some (slot.base + hdrAligned, false), h.emit (.reused (entry slot) used))
      else
        let h ← h.transition slot.base .releaseInitializing generation
        return (h.emit (.discarded (entry slot) used)).allocLargeSlow o size align usable hdrAligned

/-- `alloc_large` after the decay step. -/
def serve (h : Heap) (o : Answers) (size align : ℕ) : Option (Option (ℕ × Bool) × Heap) :=
  let hdrAligned := largePayloadOffset h.build align
  match spanOf h.build size align with
  | none => some (none, h)
  | some usable =>
      if align < segment then
        match h.cache.bestFit usable with
        | some idx => h.serveHit o size align usable hdrAligned idx
        | none =>
            some ((h.setCache (h.cache.noteMiss usable)).allocLargeSlow o size align usable
              hdrAligned)
      else some (h.allocLargeSlow o size align usable hdrAligned)

/-- Allocates a Large block after letting the cache decay. -/
def allocLarge (h : Heap) (o : Answers) (size align : ℕ) : Option (Option (ℕ × Bool) × Heap) :=
  (h.maybeDecayLargeCache o.now).bind fun h => h.serve o size align

/-! ## Growth in place -/

/-- The largest page size of a real host. -/
def maxRealisticPageSize : ℕ := 65536

def setSpanUsable (h : Heap) (base span : ℕ) : Heap :=
  { h with header := Function.update h.header base { h.header base with spanUsable := span } }

def setLargeSize (h : Heap) (base size : ℕ) : Heap :=
  { h with header := Function.update h.header base { h.header base with largeSize := size } }

/-- `try_grow_large_reserved_capacity`. `commits` is the answer of the OS. -/
def tryGrowLargeReservedCapacity (h : Heap) (base requiredEnd : ℕ) (commits : Bool) :
    Option Heap :=
  let hdr := h.header base
  if hdr.reservedCapacity < requiredEnd ∨ commits = false then none
  else some (h.setSpanUsable base
    (min (alignUp requiredEnd maxRealisticPageSize) hdr.reservedCapacity))

/-- `realloc_large_inplace_known_base`, `none` when the block stays as it is. -/
def reallocLargeInplace (h : Heap) (base ptr oldSize newSize : ℕ) (commits : Bool) :
    Option Heap :=
  let oldEff := max oldSize minBlock
  let newEff := max newSize minBlock
  let hdr := h.header base
  let stop := hdr.payloadOffset + newEff
  if newEff < oldEff ∨ ptr ≠ base + hdr.payloadOffset ∨ usizeMax < stop then none
  else if stop ≤ hdr.spanUsable then some (h.setLargeSize base newEff)
  else if h.build.largeReservedCapacity then
    (h.tryGrowLargeReservedCapacity base stop commits).map fun h => h.setLargeSize base newEff
  else none

end Heap

/-! ## Runs -/

/-- Own frees, remote frees the owner reclaims, growths in place and trims. -/
inductive Command where
  | alloc (size align : ℕ) (answers : Heap.Answers)
  | dealloc (base now : ℕ) (grants : ℕ → Bool)
  | reclaim (base now : ℕ) (grants : ℕ → Bool)
  | grow (base ptr oldSize newSize : ℕ) (commits : Bool)
  | evictAll

namespace Heap

/-- A free or a growth of anything but a Large segment of the heap does not get this far. -/
def step (h : Heap) : Command → Option Heap
  | .alloc size align answers => (h.allocLarge answers size align).map Prod.snd
  | .dealloc base now grants =>
      if h.registered base then h.deallocLargeAtBase base now grants else some h
  | .reclaim base now grants =>
      if h.registered base then h.reclaimLargeSegment base now grants else some h
  | .grow base ptr oldSize newSize commits =>
      if h.registered base then
        some ((h.reallocLargeInplace base ptr oldSize newSize commits).getD h)
      else some h
  | .evictAll => h.evictAll

def run : List Command → Heap → Option Heap
  | [], h => some h
  | cmd :: cmds, h => (h.step cmd).bind (run cmds)

end Heap

end LargeHeap

end SeferAlloc
