import SeferAlloc.ScanBackoff
import SeferAlloc.SegmentDirectoryRuns
import SeferAlloc.SidecarBitmap
import SeferAlloc.SmallBatchRuns

/-!
# The small side of the core

An allocation pops the current segment's list, then the one of the class cursor's
segment, searches the other segments, carves, and at last reserves a segment.
The search asks the directory, the ingress of the heap and every active segment
in turn; on its way it drains the frees of other threads, and a segment that a
drain empties is pooled or released under it.

What the core is told from outside is a script: each question, to the system or
to the threads that free its blocks, takes the next answer.
-/
namespace SeferAlloc
namespace SmallCore
open Small SmallBatch SmallBatch.AllocCore ScanBackoff

/-- The largest page size of a real host. -/
def maxRealisticPageSize : ℕ := 64 * 1024

/-- A build without `numa-aware`, with the relations that the source asserts of its constants. -/
structure Build extends SmallBatch.Build where
  decayInterval : ℕ
  shared : directory.maxNodes = 0
  classes_eq : directory.classes = small.sizes.count
  slack : ∀ kind, small.payloadStart kind + growChunk + maxRealisticPageSize ≤ segment

/-- The page size of a host that commits lazily. -/
structure Host where
  page : Option ℕ
  realistic : ∀ p ∈ page, 0 < p ∧ p ≤ maxRealisticPageSize

/-- Segments of the kind are committed in parts. -/
def Build.lazy (bd : Build) : Kind → Bool
  | .small => bd.lazySmall
  | .primordial => bd.lazyPrimordial

/-- The committed part of a new segment: `lazy_initial_commit`, or all of it. -/
def initialCommit (bd : Build) (host : Host) (kind : Kind) : ℕ :=
  match bd.lazy kind, host.page with
  | true, some page => alignUp (bd.small.payloadStart kind + growChunk) page
  | _, _ => segment

/-- What one question is answered: the blocks that other threads have freed meanwhile, with base,
offset and class, the notified slots, the pages and segments that the OS grants, the slot that the
table gives to a new segment, the answers of System to its route, and the time. -/
structure Answers where
  posts : List (ℕ × ℕ × ℕ)
  notified : ℕ → Bool
  os : Os
  now : ℕ
  first : Option ℕ
  second : Option ℕ
  slot : Option ℕ
  system : System
  memory : ℕ → ℕ
  directory : Bool

/-- The part of the core around its small segments. Beside the fields of the code it has the blocks
of each segment and how many questions were answered. The slots are those of the table, the owner
is the one of its routes, and `pending` are the published frees of each route. -/
structure Core where
  alloc : AllocCore
  blocks : ℕ → Blocks
  slots : ℕ → ℕ
  count : ℕ
  owner : Option ℕ
  pending : ℕ → List (ℕ × ℕ)
  window : ℕ → BitVec 32
  missStreak : ℕ → ℕ
  lastPoolDecayTick : Option ℕ
  clock : ℕ

namespace Core

def smallCur (c : Core) : ℕ := c.alloc.smallCur

def seg (c : Core) (base : ℕ) : Segment := (c.alloc.homes base).seg

def head (c : Core) (base cls : ℕ) : Option ℕ := (c.seg base).head cls

def isRouted (c : Core) : Bool := c.owner.isSome

/-- `ingress_armed`: the owner has an ingress cell. -/
def ingressArmed (c : Core) : Bool := c.owner.any fun owner => owner < ingressCells

/-- `base_at`: null for a slot without a small segment. -/
def baseAt (c : Core) (slot : ℕ) : ℕ :=
  if slot < c.count ∧ c.alloc.registered (c.slots slot) = true ∧
      (c.alloc.homes (c.slots slot)).segmentId = slot then c.slots slot else 0

/-- The next slot from `slot` on that is in use. -/
def nextActive (c : Core) (slot : ℕ) : Option ℕ :=
  (List.range' slot (c.count - slot)).find? fun i => c.baseAt i ≠ 0

/-- The core with the segments after an operation on them. -/
def withAlloc (c : Core) (alloc : AllocCore) : Core := { c with alloc := alloc }

/-- The core with a segment and its blocks after an operation on it. -/
def touch (c : Core) (alloc : AllocCore) (base : ℕ) (b : Blocks) : Core :=
  { c with alloc := alloc, blocks := Function.update c.blocks base b }

/-- A question. -/
def ask (env : ℕ → Answers) (c : Core) : Answers × Core :=
  (env c.clock, { c with clock := c.clock + 1 })

/-- Takes a segment out of the pool, if it is in it. -/
def unpoolIfPresent (c : Core) (base : ℕ) : Option Core :=
  (c.alloc.unpoolIfPresent base).map c.withAlloc

/-- Pops one block off a segment's free list and marks it live. -/
def popFree (bd : Build) (c : Core) (base cls : ℕ) :
    Option (Core × Except Unit (Option ℕ)) := do
  let (alloc, r) ← c.alloc.popFree bd.toBuild base cls
  return (c.touch alloc base ((c.blocks base).putAll r.toOption.join.toList .live),
    r.map fun off => off.map (base + ·))

/-- Pops up to `want` blocks off a segment's free list. -/
def tryDrainFreelistBatch (bd : Build) (c : Core) (base cls want : ℕ) (st : BlockState) :
    Option (Core × List ℕ) := do
  let (alloc, out) ← c.alloc.tryDrainFreelistBatch bd.toBuild base cls want st
  return (c.touch alloc base ((c.blocks base).putAll out st), out.map (base + ·))

/-! ## Drains -/

/-- A free by another thread of a block that it holds: it is published once, on the route. -/
def post (c : Core) (r : ℕ × ℕ × ℕ) : Core :=
  haveI := decidableCarved
  if c.alloc.registered r.1 = true ∧ (c.blocks r.1).place r.2.1 = .live ∧
      r.2 ∈ (c.blocks r.1).carved ∧ r.2.1 ∉ (c.pending r.1).map Prod.fst then
    { c with
      pending := Function.update c.pending r.1
        ((c.pending r.1).orderedInsert (fun p q => p.1 ≤ q.1) r.2) }
  else c

/-- A drain of the published frees that `cut` has, and how it ended. -/
def drainCut (bd : Build) (env : ℕ → Answers) (c : Core) (base : ℕ) (cut : ℕ × ℕ → Bool) :
    Option (Core × SidecarDrainOutcome) := do
  let (ans, c) := c.ask env
  let c := ans.posts.foldl post c
  let records := (c.pending base).filter cut
  let (alloc, changed) ← reclaimRecords bd.toBuild base records c.alloc
  let c := { c.touch alloc base ((c.blocks base).putAll (records.map Prod.fst) .free) with
    pending := Function.update c.pending base ((c.pending base).filter (!cut ·)) }
  if changed = [] then return (c, .skipped)
  else
    let emptied := alloc.decLiveAndMaybeDecommit base 1
    let alloc ← alloc.finishSmallDrain bd.toBuild base changed
    return (c.withAlloc alloc,
      if emptied then .decommitted (alloc.registered base) else .drained)

/-- Drains all the pending frees of a segment. -/
def drainSegmentSidecar (bd : Build) (env : ℕ → Answers) (c : Core) (base : ℕ) :
    Option (Core × SidecarDrainOutcome) :=
  if c.isRouted = false then some (c, .skipped) else c.drainCut bd env base fun _ => true

/-! ## The search -/

/-- `publish_empty` of a slot. -/
def publishEmpty (bd : Build) (c : Core) (cls slot : ℕ) : Core :=
  c.withAlloc { c.alloc with
    directory := c.alloc.directory.map (Directory.clearBitAllNodes bd.directory cls slot) }

/-- `finalize_hit`; `heal` publishes the class. -/
def finalizeHit (bd : Build) (c : Core) (base cls : ℕ) (heal : Bool) : Option Core := do
  let c ← c.unpoolIfPresent base
  return if heal then c.withAlloc (c.alloc.publishNonempty bd.toBuild base cls) else c

/-- Keeps a slot the directory proposed if its list is non-empty, else withdraws it. -/
def validateDirectoryCandidate (bd : Build) (env : ℕ → Answers) (c : Core) (cls slot : ℕ)
    (drain : Bool) : Option (Core × Option ℕ) :=
  let base := c.baseAt slot
  if base = 0 then some (c.publishEmpty bd cls slot, none)
  else do
    let (c, outcome) ← (if drain then c.drainSegmentSidecar bd env base else some (c, .skipped))
    if outcome = .decommitted false then return (c, none)
    else if c.head base cls = none then return (c.publishEmpty bd cls slot, none)
    else
      let c ← c.unpoolIfPresent base
      return (c, some base)

/-- The candidates of `scan_directory_candidates`, in order. -/
def scanCandidates (bd : Build) (env : ℕ → Answers) (cls : ℕ) (drain : Bool) :
    List ℕ → Core → Option (Core × Option ℕ)
  | [], c => some (c, none)
  | slot :: slots, c => do
      match ← c.validateDirectoryCandidate bd env cls slot drain with
      | (c, some base) => return (c, some base)
      | (c, none) => scanCandidates bd env cls drain slots c

/-- `scan_directory_candidates`: the words of the class are read by value. -/
def scanDirectoryCandidates (bd : Build) (env : ℕ → Answers) (c : Core) (cls : ℕ) (drain : Bool) :
    Option (Core × Option ℕ) :=
  match c.alloc.directory with
  | none => some (c, none)
  | some d => scanCandidates bd env cls drain (Directory.candidates d bd.directory.maxNodes cls) c

/-- Drains a slot that announced frees and keeps it if the class then has one. -/
def drainNotifiedSlot (bd : Build) (env : ℕ → Answers) (c : Core) (slot cls : ℕ) :
    Option (Core × Option ℕ) :=
  let base := c.baseAt slot
  if base = 0 then some (c, none)
  else do
    let (c, outcome) ← c.drainSegmentSidecar bd env base
    return (c, if outcome ≠ .decommitted false ∧ c.head base cls ≠ none then some base else none)

/-- `HeapIngress::take` in a search: every notified slot is drained, the first hit is kept. -/
def takeNotified (bd : Build) (env : ℕ → Answers) (cls : ℕ) :
    List ℕ → Core → Option (Core × Option ℕ)
  | [], c => some (c, none)
  | slot :: slots, c => do
      let (c, hit) ← c.drainNotifiedSlot bd env slot cls
      let (c, later) ← takeNotified bd env cls slots c
      return (c, hit <|> later)

/-- Visits the slots that announced frees, up to the first that serves the class. -/
def processIngress (bd : Build) (env : ℕ → Answers) (c : Core) (cls : ℕ) :
    Option (Core × Option ℕ) := do
  let (ans, c) := c.ask env
  let (c, hit) ← takeNotified bd env cls ((List.range maxSegments).filter ans.notified) c
  match hit with
  | none => return (c, none)
  | some base =>
      let c ← c.finalizeHit bd base cls false
      return (c, some base)

/-- `maybe_materialize_directory`, with `rebuild_from_table`. -/
def maybeMaterializeDirectory (bd : Build) (c : Core) (granted : Bool) : Core :=
  if c.alloc.directory.isSome then c
  else if c.count < Directory.directoryMaterializeThreshold then c
  else if granted = false then c
  else
    let rebuild (d : Directory.SegmentDirectory) (slot : ℕ) :=
      let base := c.baseAt slot
      if base = 0 then d
      else (List.range bd.directory.classes).foldl (fun d cls =>
        if c.head base cls = none then d else Directory.setBit bd.directory 0 cls slot d) d
    c.withAlloc { c.alloc with
      directory := some ((List.range c.count).foldl rebuild Directory.fresh) }

/-- The bump is inside the window and the current segment can still carve. -/
def sidecarDrainsDeferred (c : Core) (blockSize : ℕ) : Bool :=
  let (start, stop, _) := unpack (c.window c.smallCur)
  let bump := (c.seg c.smallCur).bump
  start < bump ∧ bump < stop ∧ alignUp bump blockSize + blockSize ≤ segment

def setWindow (c : Core) (word : BitVec 32) : Core :=
  { c with window := Function.update c.window c.smallCur word }

/-- Counts an empty scan and opens a window once the streak is long enough. -/
def noteEmptySidecarScan (c : Core) (drainedBytes : ℕ) : Core :=
  let streak := min ((unpack (c.window c.smallCur)).2.2 + 1) 3
  let bump := (c.seg c.smallCur).bump
  let start := (bump + unit - 1) / unit
  let stop := min (bump + drainedBytes / 2 ^ sidecarDeferShift) segment / unit
  if sidecarDeferStreak ≤ streak ∧ start < stop then
    c.setWindow (packStreak streak ||| packOffsets start stop)
  else c.setWindow (packStreak streak)

/-- Closes the window of the current segment. -/
def resetSidecarDeferStreak (c : Core) : Core :=
  if c.window c.smallCur ≠ 0 then c.setWindow 0 else c

end Core

/-- How far a linear scan has come: the bytes of the segments it drained, whether a drain reclaimed
a block, and the slots it visited, the last one first. -/
structure Progress where
  drainedBytes : ℕ
  reclaimed : Bool
  visited : List ℕ

namespace Core

/-- One slot of `linear_scan`, and whether its segment has a free block of the class. -/
def scanSlot (bd : Build) (env : ℕ → Answers) (cls slot : ℕ) (deferDrains : Bool) (p : Progress)
    (c : Core) : Option (Core × Progress × Option ℕ) :=
  let base := c.baseAt slot
  let p := { p with visited := slot :: p.visited }
  if c.head base cls = none ∧ deferDrains = false then do
    let p := { p with
      drainedBytes := p.drainedBytes + ((c.seg base).bump -
        bd.small.payloadStart (c.seg base).kind / Sidecar.sidecarWordBytes *
          Sidecar.sidecarWordBytes) }
    let (c, outcome) ← c.drainSegmentSidecar bd env base
    let first := p.reclaimed = false ∧ outcome ≠ .skipped
    let c := if first then c.resetSidecarDeferStreak else c
    let p := if first then { p with reclaimed := true } else p
    return (c, p,
      if outcome ≠ .decommitted false ∧ c.head base cls ≠ none then some base else none)
  else some (c, p, if c.head base cls ≠ none then some base else none)

/-- The loop of `linear_scan` below the slot `hi`; `fuel` bounds the slots that are left. -/
def scanRange (bd : Build) (env : ℕ → Answers) (cls : ℕ) (deferDrains heal : Bool) (hi : ℕ) :
    ℕ → ℕ → Progress → Core → Option (Core × Progress × Option ℕ)
  | 0, _, p, c => some (c, p, none)
  | fuel + 1, slot, p, c =>
      match c.nextActive slot with
      | none => some (c, p, none)
      | some i =>
          if hi ≤ i then some (c, p, none)
          else do
            match ← c.scanSlot bd env cls i deferDrains p with
            | (c, p, some base) =>
                let c ← c.finalizeHit bd base cls heal
                return (c, p, some base)
            | (c, p, none) => scanRange bd env cls deferDrains heal hi fuel (i + 1) p c

/-- Where the scan starts: behind the segment that served the class last. -/
def classCursorScanStart (c : Core) (cls n : ℕ) : Option ℕ :=
  (c.alloc.smallClassCursor cls).bind fun slot => if slot < n then some (slot + 1) else none

/-- Both ranges of `linear_scan`: behind the class cursor, then from the start. -/
def scanAround (bd : Build) (env : ℕ → Answers) (c : Core) (cls : ℕ) (deferDrains heal : Bool) :
    Option (Core × Progress × Option ℕ) := do
  let n := c.count
  let start := (c.classCursorScanStart cls n).getD 0
  match ← scanRange bd env cls deferDrains heal n (n - start) start ⟨0, false, []⟩ c with
  | (c, p, some base) => return (c, p, some base)
  | (c, p, none) => scanRange bd env cls deferDrains heal start start 0 p c

/-- Walks the table for a segment with a free block and notes an empty walk. -/
def linearScan (bd : Build) (env : ℕ → Answers) (c : Core) (cls : ℕ) (deferDrains heal : Bool) :
    Option (Core × Option ℕ) := do
  let (ans, c) := c.ask env
  let c := c.maybeMaterializeDirectory bd ans.directory
  match ← c.scanAround bd env cls deferDrains heal with
  | (c, _, some base) => return (c, some base)
  | (c, p, none) =>
      return (if p.drainedBytes ≠ 0 ∧ p.reclaimed = false then
        c.noteEmptySidecarScan p.drainedBytes else c, none)

/-- Remembers the segment that served the class, the current one excepted. -/
def recordClassCursor (c : Core) (cls base : ℕ) : Core :=
  if base = c.smallCur then c
  else c.withAlloc { c.alloc with
    smallClassCursor := Function.update c.alloc.smallClassCursor cls
      (some (c.alloc.homes base).segmentId) }

/-- A hit is recorded in the class cursor. -/
def recordHit (cls : ℕ) : Core × Option ℕ → Core × Option ℕ
  | (c, some base) => (c.recordClassCursor cls base, some base)
  | (c, none) => (c, none)

/-- The directory's part of `find_segment_with_free_impl`: a hit, and whether the search ends with
a miss that is trusted. -/
def searchDirectory (bd : Build) (env : ℕ → Answers) (c : Core) (cls : ℕ) (rescue : Bool) :
    Option (Core × Option ℕ × Bool) :=
  let ingress := !rescue && c.ingressArmed
  if c.alloc.directory.isNone then some (c, none, false)
  else do
    match ← c.scanDirectoryCandidates bd env cls (!ingress) with
    | (c, some base) => return (c, some base, false)
    | (c, none) =>
      match ← (if ingress then c.processIngress bd env cls else some (c, none)) with
      | (c, some base) => return (c, some base, false)
      | (c, none) =>
        if (!c.isRouted || ingress) && !rescue then
          let streak := min (c.missStreak cls + 1) 255
          if streak < Core.directoryMissFullScanPeriod then
            return ({ c with missStreak := Function.update c.missStreak cls streak }, none, true)
          else
            return ({ c with missStreak := Function.update c.missStreak cls 0 }, none, false)
        else return (c, none, false)

/-- `find_segment_with_free_impl`; `rescue` is the forced search. -/
def findSegmentWithFree (bd : Build) (env : ℕ → Answers) (c : Core) (cls : ℕ) (rescue : Bool) :
    Option (Core × Option ℕ) := do
  let ingress := !rescue && c.ingressArmed
  let deferDrains := ingress ||
    (!rescue && c.isRouted && c.sidecarDrainsDeferred (bd.small.sizes.blockSize cls))
  let heal := rescue || c.alloc.directory.isSome
  match ← c.searchDirectory bd env cls rescue with
  | (c, some base, _) => return (c.recordClassCursor cls base, some base)
  | (c, none, true) => return (c, none)
  | (c, none, false) =>
    match ← c.linearScan bd env cls deferDrains heal with
    | (c, some base) => return (c.recordClassCursor cls base, some base)
    | (c, none) =>
      if ingress then
        let r ← c.processIngress bd env cls
        return recordHit cls r
      else return (c, none)

end Core

end SmallCore

end SeferAlloc
