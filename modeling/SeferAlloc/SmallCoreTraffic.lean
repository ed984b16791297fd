import SeferAlloc.SmallCore

/-!
# Allocations, refills and frees of the core

An allocation that finds no free block carves one, and reserves a segment when
the current one is full. The pool gives its segments back when the system has
none left, and an allocation that gets no segment searches once more for what
other threads have freed.
-/
namespace SeferAlloc
namespace SmallCore
open Small SmallBatch SmallBatch.AllocCore ScanBackoff

namespace Core

/-! ## Class cursors -/

/-- The segment the class cursor names, if its list is non-empty; a stale cursor is forgotten. -/
def cursorProbeBase (c : Core) (cls : ℕ) : Option (Core × Option ℕ) :=
  match c.alloc.smallClassCursor cls with
  | none => some (c, none)
  | some slot =>
      let base := c.baseAt slot
      if base = c.smallCur ∨ base = 0 then
        some (c.withAlloc { c.alloc with
          smallClassCursor := Function.update c.alloc.smallClassCursor cls none }, none)
      else if c.head base cls = none then some (c, none)
      else do
        let c ← c.unpoolIfPresent base
        return (c, some base)

/-- Pops one block off the cursor's segment. -/
def popFromClassCursor (bd : Build) (c : Core) (cls : ℕ) :
    Option (Core × Except Unit (Option ℕ)) := do
  match ← c.cursorProbeBase cls with
  | (c, none) => return (c, .ok none)
  | (c, some base) => c.popFree bd base cls

/-- Pops up to `want` blocks off the cursor's segment. -/
def batchDrainFromClassCursor (bd : Build) (c : Core) (cls want : ℕ) (st : BlockState) :
    Option (Core × List ℕ) := do
  match ← c.cursorProbeBase cls with
  | (c, none) => return (c, [])
  | (c, some base) => c.tryDrainFreelistBatch bd base cls want st

/-- Pops a block off the cursor's segment, else off one that a search finds. -/
def allocSmallViaDiscovery (bd : Build) (env : ℕ → Answers) (c : Core) (cls : ℕ) :
    Option (Core × Except Unit (Option ℕ)) := do
  match ← c.popFromClassCursor bd cls with
  | (c, .error ()) => return (c, .error ())
  | (c, .ok (some ptr)) => return (c, .ok (some ptr))
  | (c, .ok none) =>
    match ← c.findSegmentWithFree bd env cls false with
    | (c, none) => return (c, .ok none)
    | (c, some base) => c.popFree bd base cls

/-! ## Carves -/

/-- Makes the leaf that the next carve needs; a full segment needs none. -/
def prepareCurrentCarve (bd : Build) (c : Core) (cls : ℕ) : Core × Bool :=
  let home := c.alloc.homes c.smallCur
  let aligned := alignUp home.seg.bump (bd.small.sizes.blockSize cls)
  if segment < aligned + bd.small.sizes.blockSize cls then (c, true)
  else
    let (codes, ok) := SmallSidecar.prepare bd.small.sizes home.system aligned cls home.codes
    (c.withAlloc (c.alloc.setHome c.smallCur { home with codes := codes }), ok)

/-- Carves one block off the current segment. -/
def carveBlock (bd : Build) (env : ℕ → Answers) (c : Core) (cls : ℕ) :
    Option (Core × Option ℕ) := do
  let (ans, c) := c.ask env
  let (alloc, off) ← c.alloc.carveBlock bd.toBuild ans.os cls
  return (c.touch alloc c.smallCur ((c.blocks c.smallCur).carveAll cls .live off.toList), off)

/-- Carves up to `want` blocks off the current segment. -/
def tryCarveBatch (bd : Build) (env : ℕ → Answers) (c : Core) (cls want : ℕ) (st : BlockState) :
    Option (Core × Except Unit (List ℕ)) := do
  let (ans, c) := c.ask env
  let (alloc, r) ← c.alloc.tryCarveBatch bd.toBuild ans.os cls want st
  return (c.touch alloc c.smallCur
    ((c.blocks c.smallCur).carveAll cls st (slotOrder st (handed r))),
    r.map fun offs => offs.map (c.smallCur + ·))

/-- The blocks a carve leaves on the free list beside its own. -/
def refillBatch : ℕ := 31

/-- The loop of `carve_block_with_refill`: carved blocks are freed at once. -/
def carveAndFree (bd : Build) (env : ℕ → Answers) (cls : ℕ) : ℕ → Core → Option Core
  | 0, c => some c
  | n + 1, c => do
      match ← c.carveBlock bd env cls with
      | (c, none) => return c
      | (c, some off) =>
          let alloc ← c.alloc.deallocSmall bd.toBuild c.smallCur off cls
          carveAndFree bd env cls n
            (c.touch alloc c.smallCur ((c.blocks c.smallCur).put off .free))

/-- Carves one block and puts the next few on the free list. -/
def carveBlockWithRefill (bd : Build) (env : ℕ → Answers) (c : Core) (cls : ℕ) :
    Option (Core × Option ℕ) := do
  match ← c.carveBlock bd env cls with
  | (c, none) => return (c, none)
  | (c, some off) =>
      let base := c.smallCur
      let c ← c.carveAndFree bd env cls refillBatch
      return (c, some (base + off))

/-! ## Reservations -/

/-- Evicts from the pool when a decay interval has passed. -/
def maybeDecaySmallPool (bd : Build) (c : Core) (now : ℕ) : Option Core :=
  if c.alloc.pooledCount = 0 then some c
  else
    match c.lastPoolDecayTick with
    | none => some { c with lastPoolDecayTick := some now }
    | some t =>
        if now - t < bd.decayInterval then some c
        else
          let c := { c with lastPoolDecayTick := some now }
          if c.alloc.pool.tail = 0 then none
          else (c.alloc.evictPooled bd.toBuild c.alloc.pool.tail).map c.withAlloc

/-- The loop of `drain_small_pool`; `none` also when `fuel` runs out. -/
def drainLoop (bd : Build) : ℕ → Core → Option Core
  | 0, _ => none
  | fuel + 1, c =>
      if c.alloc.pool.head = 0 then if c.alloc.pooledCount = 0 then some c else none
      else do
        let alloc ← c.alloc.evictPooled bd.toBuild c.alloc.pool.head
        drainLoop bd fuel (c.withAlloc alloc)

/-- Releases every pooled segment. -/
def drainSmallPool (bd : Build) (c : Core) : Option Core := c.drainLoop bd (c.alloc.pooledCount + 1)

/-- What the OS grants: an aligned address that no segment has. -/
def grant (c : Core) (base : Option ℕ) : Option ℕ :=
  base.filter fun base => base ≠ 0 ∧ base % segment = 0 ∧ c.alloc.registered base = false

/-- A request to the OS, repeated after a drain if it fails and the pool holds a segment. -/
def requestSegment (bd : Build) (c : Core) (first second : Option ℕ) : Option (Core × Option ℕ) :=
  match c.grant first with
  | some base => some (c, some base)
  | none =>
      if 0 < c.alloc.pooledCount then do
        let c ← c.drainSmallPool bd
        return (c, c.grant second)
      else some (c, none)

/-- `register`: a slot that was recycled or the next one. -/
def registerSlot (c : Core) (slot : Option ℕ) : Option ℕ :=
  slot.filter fun slot => slot < maxSegments ∧ (slot < c.count ∧ c.baseAt slot = 0 ∨ slot = c.count)

/-- The header of a new segment. -/
def writeHeader (bd : Build) (host : Host) (c : Core) (base slot : ℕ) (ans : Answers) : Core :=
  { c with
    alloc := { c.alloc with
      homes := Function.update c.alloc.homes base
        (.new bd.toBuild .small ⟨slot, 0, initialCommit bd host .small, ans.system, ans.memory⟩)
      registered := Function.update c.alloc.registered base true
      pool := { c.alloc.pool with
        next := Function.update c.alloc.pool.next base 0
        prev := Function.update c.alloc.pool.prev base 0 } }
    blocks := Function.update c.blocks base .new
    slots := Function.update c.slots slot base
    count := max c.count (slot + 1)
    pending := Function.update c.pending base []
    window := Function.update c.window base 0 }

/-- `reserve_small_segment_impl`. A segment that the table refuses is given back. -/
def reserveSmallSegmentImpl (bd : Build) (host : Host) (env : ℕ → Answers) (c : Core) :
    Option (Core × Option ℕ) := do
  let (ans, c) := c.ask env
  let c ← c.maybeDecaySmallPool bd ans.now
  match ← c.requestSegment bd ans.first ans.second with
  | (c, none) => return (c, none)
  | (c, some base) =>
    match c.registerSlot ans.slot with
    | none => return (c, none)
    | some slot =>
        return ((c.writeHeader bd host base slot ans).maybeMaterializeDirectory bd ans.directory,
          some base)

/-- Makes a new segment the current one and gives the old one back if it is empty. -/
def reserveSmallSegment (bd : Build) (host : Host) (env : ℕ → Answers) (c : Core) :
    Option (Core × Bool) := do
  match ← c.reserveSmallSegmentImpl bd host env with
  | (c, none) => return (c, false)
  | (c, some base) =>
      let alloc ← ({ c.alloc with smallCur := base } : AllocCore).finalizeOldCursorIfOrphaned
        bd.toBuild c.smallCur
      return (c.withAlloc alloc, true)

/-! ## Allocation -/

/-- A forced search, where a directory or an ingress can have something to find. -/
def findForced (bd : Build) (env : ℕ → Answers) (c : Core) (cls : ℕ) : Option (Core × Option ℕ) :=
  if c.alloc.directory.isSome ∨ c.ingressArmed = true then c.findSegmentWithFree bd env cls true
  else some (c, none)

/-- The end of `alloc_small`, once nothing was found and the current segment is full. -/
def allocReserved (bd : Build) (host : Host) (env : ℕ → Answers) (c : Core) (cls : ℕ) :
    Option (Core × Option ℕ) := do
  match ← c.reserveSmallSegment bd host env with
  | (c, true) =>
    match ← c.popFree bd c.smallCur cls with
    | (c, .ok (some ptr)) => return (c, some ptr)
    | (c, .error ()) => return (c, none)
    | (c, .ok none) => c.carveBlockWithRefill bd env cls
  | (c, false) =>
    match ← c.findForced bd env cls with
    | (c, none) => return (c, none)
    | (c, some base) =>
        let (c, r) ← c.popFree bd base cls
        return (c, r.toOption.join)

/-- One small allocation: the current segment's list, a search, a carve, a new segment. -/
def allocSmall (bd : Build) (host : Host) (env : ℕ → Answers) (c : Core) (cls : ℕ) :
    Option (Core × Option ℕ) := do
  match ← c.popFree bd c.smallCur cls with
  | (c, .ok (some ptr)) => return (c, some ptr)
  | (c, .error ()) => return (c, none)
  | (c, .ok none) =>
    match ← c.allocSmallViaDiscovery bd env cls with
    | (c, .error ()) => return (c, none)
    | (c, .ok (some ptr)) => return (c, some ptr)
    | (c, .ok none) =>
      match c.prepareCurrentCarve bd cls with
      | (c, false) => return (c, none)
      | (c, true) =>
        match ← c.carveBlockWithRefill bd env cls with
        | (c, some ptr) => return (c, some ptr)
        | (c, none) => c.allocReserved bd host env cls

/-! ## Refills -/

/-- The free lists that a refill asks: the current segment, the class cursor's, and a search. -/
def drainLists (bd : Build) (env : ℕ → Answers) (c : Core) (cls want : ℕ) (st : BlockState) :
    Option (Core × List ℕ) := do
  match ← c.tryDrainFreelistBatch bd c.smallCur cls want st with
  | (c, []) =>
    match ← c.batchDrainFromClassCursor bd cls want st with
    | (c, []) =>
      match ← c.findSegmentWithFree bd env cls false with
      | (c, none) => return (c, [])
      | (c, some base) => c.tryDrainFreelistBatch bd base cls want st
    | (c, out) => return (c, out)
  | (c, out) => return (c, out)

/-- A refill from a new segment, or from a forced search; an empty answer ends the refill. -/
def drainReserved (bd : Build) (host : Host) (env : ℕ → Answers) (c : Core) (cls want : ℕ)
    (st : BlockState) : Option (Core × List ℕ) := do
  match ← c.reserveSmallSegment bd host env with
  | (c, true) =>
      let (c, r) ← c.tryCarveBatch bd env cls want st
      return (c, handed r)
  | (c, false) =>
    match ← c.findForced bd env cls with
    | (c, none) => return (c, [])
    | (c, some base) => c.tryDrainFreelistBatch bd base cls want st

/-- One round of `refill_class_bump_impl`: the blocks, whether the free lists are exhausted, and
whether the refill ends. -/
def refillRound (bd : Build) (host : Host) (env : ℕ → Answers) (c : Core) (cls want : ℕ)
    (st : BlockState) (exhausted : Bool) : Option (Core × List ℕ × Bool × Bool) := do
  match ← (if exhausted then some (c, []) else c.drainLists bd env cls want st) with
  | (c, out@(_ :: _)) => return (c, out, false, false)
  | (c, []) =>
    match ← c.tryCarveBatch bd env cls want st with
    | (c, .error ()) => return (c, [], true, true)
    | (c, .ok out@(_ :: _)) => return (c, out, true, false)
    | (c, .ok []) =>
        let (c, out) ← c.drainReserved bd host env cls want st
        return (c, out, true, out.isEmpty)

/-- The loop of `refill_class_bump_impl`. A round that does not end the refill hands out a block, so
`fuel` is not short of the blocks that are wanted. -/
def refillLoop (bd : Build) (host : Host) (env : ℕ → Answers) (cls : ℕ) (st : BlockState) :
    ℕ → ℕ → Bool → Core → Option (Core × List ℕ)
  | 0, _, _, c => some (c, [])
  | fuel + 1, want, exhausted, c =>
      if want = 0 then some (c, [])
      else do
        let (c, out, exhausted, ends) ← c.refillRound bd host env cls want st exhausted
        if ends then return (c, out)
        else
          let (c, later) ← refillLoop bd host env cls st fuel (want - out.length) exhausted c
          return (c, out ++ later)

/-- Collects up to `want` blocks for a magazine. -/
def refillClassBump (bd : Build) (host : Host) (env : ℕ → Answers) (c : Core) (cls want : ℕ)
    (st : BlockState) : Option (Core × List ℕ) :=
  c.refillLoop bd host env cls st want want false

/-! ## Frees -/

/-- The pointer is to a segment of the table. -/
def known (c : Core) (p : ℕ) : Bool := p ≠ 0 && c.alloc.registered (segmentBaseOfPtr p)

/-- The record of the blocks once those of the pointers are free. -/
def freed (ps : List ℕ) (blocks : ℕ → Blocks) : ℕ → Blocks :=
  ps.foldl (fun blocks p => Function.update blocks (segmentBaseOfPtr p)
    ((blocks (segmentBaseOfPtr p)).put (p - segmentBaseOfPtr p) .free)) blocks

/-- Frees the blocks a magazine gives back. -/
def flushClass (bd : Build) (c : Core) (cls : ℕ) (ps : List ℕ) : Option Core := do
  let alloc ← AllocCore.flushClass bd.toBuild cls ps [] c.alloc
  return { c with alloc := alloc, blocks := freed (ps.filter c.known) c.blocks }

/-- Frees one block. -/
def deallocSmall (bd : Build) (c : Core) (cls p : ℕ) : Option Core := do
  let alloc ← c.alloc.deallocPtr bd.toBuild cls p
  return { c with alloc := alloc, blocks := freed ([p].filter c.known) c.blocks }

/-- `set_state` of a block. -/
def setState (bd : Build) (c : Core) (p : ℕ) (st : BlockState) : Core :=
  let base := segmentBaseOfPtr p
  c.touch (c.alloc.setSeg base ((c.seg base).setState bd.small (p - base) st)) base
    ((c.blocks base).put (p - base) st)

/-! ## Drains of the ingress -/

/-- The slots of `drain_sidecar_ingress`, without those of Large segments. -/
def drainSlots (bd : Build) (env : ℕ → Answers) : List ℕ → Core → Option Core
  | [], c => some c
  | slot :: slots, c =>
      let base := c.baseAt slot
      if base = 0 then drainSlots bd env slots c
      else do
        let (c, _) ← c.drainCut bd env base fun _ => true
        drainSlots bd env slots c

/-- Drains every slot of a routed heap. -/
def drainSidecarIngress (bd : Build) (env : ℕ → Answers) (c : Core) : Option Core :=
  if c.isRouted = false then some c else drainSlots bd env (List.range c.count) c

/-- The first sidecar word that stands for a segment's payload. -/
def sidecarPayloadStartWord (bd : Build) (c : Core) (base : ℕ) : ℕ :=
  bd.small.payloadStart (c.seg base).kind / Sidecar.sidecarWordBytes

/-- Where the drain of a slot starts. -/
def sidecarWordHint (bd : Build) (c : Core) (slot : ℕ) : ℕ :=
  if c.baseAt slot = 0 then 0 else c.sidecarPayloadStartWord bd (c.baseAt slot)

/-- The cursor at the first word of the next slot. -/
def nextSlot (bd : Build) (c : Core) (slot : ℕ) : ℕ × ℕ := (slot + 1, c.sidecarWordHint bd (slot + 1))

/-- One unit of the bounded drain: a word of a segment, or a slot. -/
def drainUnit (bd : Build) (env : ℕ → Answers) (c : Core) (slot word : ℕ) :
    Option (Core × ℕ × ℕ) :=
  let base := c.baseAt slot
  if base = 0 then some (c, c.nextSlot bd slot)
  else
    let endWord := ((c.seg base).bump + Sidecar.sidecarWordBytes - 1) / Sidecar.sidecarWordBytes
    let word := max word (c.sidecarPayloadStartWord bd base)
    if endWord ≤ word then some (c, c.nextSlot bd slot)
    else do
      let (c, outcome) ← c.drainCut bd env base fun r => r.1 / Sidecar.sidecarWordBytes = word
      return (c, if (outcome = .skipped ∨ outcome = .drained) ∧ word + 1 ≠ endWord then
        (slot, word + 1) else c.nextSlot bd slot)

/-- The loop of the bounded drain over the units that are left. -/
def boundedLoop (bd : Build) (env : ℕ → Answers) (stop : ℕ) :
    ℕ → ℕ → ℕ → Core → Option (Core × ℕ × ℕ)
  | 0, slot, word, c => some (c, slot, word)
  | budget + 1, slot, word, c =>
      if stop ≤ slot then some (c, slot, word)
      else do
        let (c, slot, word) ← c.drainUnit bd env slot word
        boundedLoop bd env stop budget slot word c

/-- `drain_sidecar_ingress_bounded` from a cursor, and the cursor it leaves. -/
def drainSidecarIngressBounded (bd : Build) (env : ℕ → Answers) (c : Core) (slot word budget : ℕ) :
    Option (Core × ℕ × ℕ) :=
  if c.isRouted = false ∨ budget = 0 then some (c, slot, word)
  else do
    let stop := c.count
    let word := if stop ≤ slot then c.sidecarWordHint bd 0 else word
    let slot := if stop ≤ slot then 0 else slot
    let (c, slot, word) ← boundedLoop bd env stop budget slot word c
    return if slot = stop then (c, 0, c.sidecarWordHint bd 0) else (c, slot, word)

/-! ## The cold trim -/

/-- Releases an empty current segment and falls back to the primordial one. -/
def releaseEmptyCurrentSmallForTrim (bd : Build) (c : Core) : Option Core :=
  (c.alloc.releaseEmptyCurrentSmallForTrim bd.toBuild (c.baseAt 0)).map c.withAlloc

/-- Drops the directory, the cursors and the miss counts. -/
def releaseDirectoryForColdTrim (c : Core) : Core :=
  { c with
    alloc := { c.alloc with directory := none, smallClassCursor := fun _ => none }
    missStreak := fun _ => 0 }

/-- `flush_all_tcache`: the arrays of the magazines and of the depot, each with its class. -/
def flushAllTcache (bd : Build) : List (ℕ × List ℕ) → Core → Option Core
  | [], c => some c
  | (cls, ps) :: mags, c => do
      let c ← c.flushClass bd cls ps
      flushAllTcache bd mags c

/-- `trim_cold_retention`; the Large cache is apart. -/
def trimColdRetention (bd : Build) (mags : List (ℕ × List ℕ)) (c : Core) : Option Core := do
  let c ← flushAllTcache bd mags c
  let c ← c.drainSmallPool bd
  let c ← c.releaseEmptyCurrentSmallForTrim bd
  return c.releaseDirectoryForColdTrim

end Core

end SmallCore

end SeferAlloc
