import SeferAlloc.ClassLeaves
import SeferAlloc.LinkedDeque
import SeferAlloc.SegmentDirectory
import SeferAlloc.SmallHeap

/-!
# Batches of small blocks

The core pops, carves and frees small blocks one at a time, and in batches that
read the head of a list, the cursor and the counter of a segment once and store
them at the end. Beside the segment an operation moves the class codes of its
route, the committed part of its payload, the directory of non-empty lists and
the pool of empty segments. An abort of the source is the outcome `none`.
-/
namespace SeferAlloc
namespace SmallBatch
open Small LinkedDeque

/-- The features of a build that the operations read. -/
structure Build where
  small : Small.Build
  directory : Directory.Build
  lazySmall : Bool
  lazyPrimordial : Bool

/-- Segments keep a commit frontier. -/
def Build.lazyCommit (bd : Build) : Bool := bd.lazySmall || bd.lazyPrimordial

/-- The bytes by which a segment commits more. -/
def growChunk : ℕ := 256 * 1024

/-- What the OS answers to `recommit_pages` of a segment and to `commit_pages` of a range. -/
structure Os where
  recommits : ℕ → Bool
  commits : ℕ → ℕ → ℕ → Bool

/-- Every request of a segment is granted. -/
structure Os.Grants (os : Os) (base : ℕ) : Prop where
  recommits : os.recommits base = true
  commits : ∀ first last, os.commits base first last = true

/-- A small or primordial segment, what its header has beside it, and the class codes of its
route, with the answers System gives to the route. -/
structure Home where
  seg : Segment
  segmentId : ℕ
  nodeId : ℕ
  decommitted : Bool
  committedPayloadEnd : ℕ
  system : System
  codes : ClassLeaves

/-- The part of `AllocCore` around its small segments. -/
structure AllocCore where
  homes : ℕ → Home
  registered : ℕ → Bool
  smallCur : ℕ
  smallClassCursor : ℕ → Option ℕ
  directory : Option Directory.SegmentDirectory
  pool : Links ℕ
  pooledCount : ℕ
  poolCap : ℕ

namespace AllocCore

def setHome (c : AllocCore) (base : ℕ) (home : Home) : AllocCore :=
  { c with homes := Function.update c.homes base home }

def setSeg (c : AllocCore) (base : ℕ) (s : Segment) : AllocCore :=
  c.setHome base { c.homes base with seg := s }

/-! ## The directory and the pool -/

/-- Marks the segment as having free blocks of the class. -/
def publishNonempty (bd : Build) (c : AllocCore) (base cls : ℕ) : AllocCore :=
  { c with
    directory := c.directory.map
      (Directory.setBit bd.directory (c.homes base).nodeId cls (c.homes base).segmentId) }

/-- Marks the segment as having none, whatever its node. -/
def publishEmpty (bd : Build) (c : AllocCore) (base cls : ℕ) : AllocCore :=
  { c with
    directory := c.directory.map
      (Directory.clearBitAllNodes bd.directory cls (c.homes base).segmentId) }

/-- One class of `sync_directory_for_segment_classes`. -/
def syncClass (bd : Build) (c : AllocCore) (base cls : ℕ) : AllocCore :=
  if (c.homes base).seg.head cls = none then
    { c with
      directory := c.directory.map
        (Directory.clearBit bd.directory (c.homes base).nodeId cls (c.homes base).segmentId) }
  else c.publishNonempty bd base cls

/-- The membership test of the pool. -/
def IsPooled (c : AllocCore) (base : ℕ) : Prop := c.pool.head = base ∨ c.pool.prev base ≠ 0

instance (c : AllocCore) (base : ℕ) : Decidable (c.IsPooled base) :=
  inferInstanceAs (Decidable (_ ∨ _))

/-- Takes a segment out of the pool, if it is in it. -/
def unpoolIfPresent (c : AllocCore) (base : ℕ) : Option AllocCore :=
  if c.IsPooled base then
    if c.pooledCount = 0 then none
    else some { c with pool := c.pool.unlink base, pooledCount := c.pooledCount - 1 }
  else some c

/-- Forgets every class cursor that names the slot. -/
def invalidateClassCursorForSlot (c : AllocCore) (slot : ℕ) : AllocCore :=
  { c with
    smallClassCursor := fun cls =>
      if c.smallClassCursor cls = some slot then none else c.smallClassCursor cls }

/-- The released leg of `release_or_pool_empty_segment`: the bits of the slot are cleared, the
payload is decommitted, and the slot is recycled. -/
def releaseEmptySegment (bd : Build) (c : AllocCore) (base : ℕ) : AllocCore :=
  let home := c.homes base
  let c := { c with
    directory := c.directory.map (Directory.clearSlot bd.directory home.segmentId)
    registered := Function.update c.registered base false }
  (c.invalidateClassCursorForSlot home.segmentId).setHome base { home with
    seg := { home.seg with bump := bd.small.smallMetaEnd }
    decommitted := true }

/-- Pools an empty segment, or releases it when the pool is full. -/
def releaseOrPoolEmptySegment (bd : Build) (c : AllocCore) (base : ℕ) : Option AllocCore :=
  if bd.small.debugAssertions = true ∧ c.IsPooled base then none
  else if c.pooledCount < c.poolCap then
    some { c with pool := c.pool.pushFront base, pooledCount := c.pooledCount + 1 }
  else some (c.releaseEmptySegment bd base)

/-- `dec_live_batch_and_maybe_decommit`; the scalar form is the case `k = 1`. -/
def decLiveAndMaybeDecommit (c : AllocCore) (base k : ℕ) : Bool :=
  k ≠ 0 ∧ (c.homes base).seg.live = 0 ∧ base ≠ c.smallCur ∧
    (c.homes base).decommitted = false ∧ (c.homes base).seg.kind = .small

/-! ## Free lists -/

/-- `pop_free`: the issue of the head is prepared, the block leaves the list, and the issue is
committed. -/
def popFree (bd : Build) (c : AllocCore) (base cls : ℕ) :
    Option (AllocCore × Except Unit (Option ℕ)) :=
  let home := c.homes base
  match home.seg.head cls with
  | none => some (c, .ok none)
  | some headOff =>
    match issueBlock bd.small.sizes home.system cls headOff home.codes with
    | (_, .fatal) => none
    | (codes, .refused) => do
        let (seg, popped) ← home.seg.popFree bd.small cls false
        return (c.setHome base { home with seg := seg, codes := codes }, popped)
    | (codes, .issued) => do
        let (seg, popped) ← home.seg.popFree bd.small cls true
        let c := c.setHome base { home with seg := seg, codes := codes }
        return (if seg.head cls = none then c.publishEmpty bd base cls else c, popped)

/-- `n` calls of `pop_free`, and the blocks they returned; a call without a block ends them. -/
def popEach (bd : Build) (base cls : ℕ) : ℕ → AllocCore → Option (AllocCore × List ℕ)
  | 0, c => some (c, [])
  | n + 1, c => do
      match ← c.popFree bd base cls with
      | (c, .ok (some off)) =>
          let (c, offs) ← popEach bd base cls n c
          return (c, off :: offs)
      | (c, _) => return (c, [])

/-- The code of the block is the one of the class: `code_present`. -/
def codePresent (home : Home) (cls off : ℕ) : Bool :=
  home.codes.encoded (off / minBlock) = cls + 1

/-- `try_drain_freelist_batch`. Debug builds check the codes of the blocks. -/
def tryDrainFreelistBatch (bd : Build) (c : AllocCore) (base cls want : ℕ) (st : BlockState) :
    Option (AllocCore × List ℕ) :=
  let home := c.homes base
  if want = 0 ∨ home.seg.head cls = none then some (c, [])
  else do
    let (seg, out) ← home.seg.tryDrainFreelistBatch bd.small cls want st
    if bd.small.debugAssertions = true ∧ out.all (codePresent home cls) = false then none
    else
      let c := c.setSeg base seg
      return (if seg.head cls = none then c.publishEmpty bd base cls else c, out)

/-! ## Carves -/

/-- The pages below `carve_end`: whether the OS granted what was missing. -/
def ensureCommitted (bd : Build) (os : Os) (base carveEnd : ℕ) (home : Home) : Home × Bool :=
  if home.decommitted = true ∧ bd.lazySmall = false ∧ os.recommits base = false then (home, false)
  else
    let home := { home with decommitted := false }
    let frontier := home.committedPayloadEnd
    if bd.lazyCommit = true ∧ frontier < carveEnd then
      let newFrontier := min (alignUp carveEnd growChunk) segment
      if os.commits base frontier newFrontier = false then (home, false)
      else ({ home with committedPayloadEnd := newFrontier }, true)
    else (home, true)

/-- `IssueTransaction::commit`; none is the fatal exit. -/
def commitIssue (bd : Build) (home : Home) (cls offset : ℕ) : Option ClassLeaves :=
  if SmallSidecar.prepared bd.small.sizes offset cls home.codes = false then none
  else
    match SmallSidecar.issue bd.small.sizes home.system offset cls home.codes with
    | (_, false) => none
    | (codes, true) => some codes

/-- Carves the next block off the current segment, if its leaf and pages can be had. -/
def carveBlock (bd : Build) (os : Os) (c : AllocCore) (cls : ℕ) : Option (AllocCore × Option ℕ) :=
  let base := c.smallCur
  let home := c.homes base
  let blockSize := bd.small.sizes.blockSize cls
  let alignedBump := alignUp home.seg.bump blockSize
  if segment < alignedBump + blockSize then some (c, none)
  else
    match SmallSidecar.prepare bd.small.sizes home.system alignedBump cls home.codes with
    | (codes, false) => some (c.setHome base { home with codes := codes }, none)
    | (codes, true) =>
      match ensureCommitted bd os base (alignedBump + blockSize) { home with codes := codes } with
      | (home, false) => some (c.setHome base home, none)
      | (home, true) => do
          let (seg, off) ← home.seg.carveBlock bd.small cls true
          let codes ← commitIssue bd home cls alignedBump
          return (c.setHome base { home with seg := seg, codes := codes }, off)

/-- Calls of `carve_block` until `n` blocks are carved or one call gives none. -/
def carveEach (bd : Build) (os : Os) (cls : ℕ) : ℕ → AllocCore → Option (AllocCore × List ℕ)
  | 0, c => some (c, [])
  | n + 1, c => do
      match ← c.carveBlock bd os cls with
      | (c, none) => return (c, [])
      | (c, some off) =>
          let (c, offs) ← carveEach bd os cls n c
          return (c, off :: offs)

/-- `try_carve_batch`. All issues are prepared first, then the pages are committed. -/
def tryCarveBatch (bd : Build) (os : Os) (c : AllocCore) (cls want : ℕ) (st : BlockState) :
    Option (AllocCore × Except Unit (List ℕ)) :=
  let base := c.smallCur
  let home := c.homes base
  let blockSize := bd.small.sizes.blockSize cls
  let alignedStart := alignUp home.seg.bump blockSize
  if want = 0 ∨ segment < alignedStart + blockSize then some (c, .ok [])
  else
    let n := min want ((segment - alignedStart) / blockSize)
    let offs := Segment.runOffsets bd.small cls alignedStart n
    match RoutedIssueRun.prepareAll bd.small.sizes home.system offs ⟨cls, none⟩ home.codes with
    | (_, codes, false) => some (c.setHome base { home with codes := codes }, .error ())
    | (run, codes, true) =>
      match ensureCommitted bd os base (alignedStart + n * blockSize)
          { home with codes := codes } with
      | (home, false) => some (c.setHome base home, .ok [])
      | (home, true) => do
          let (seg, out) ← home.seg.tryCarveBatch bd.small cls want st .ok
          let codes ← run.commitAll offs home.codes
          return (c.setHome base { home with seg := seg, codes := codes }, out)

/-! ## Frees -/

/-- The end of a free: an empty segment leaves for the pool or is released. -/
def finishFree (bd : Build) (c : AllocCore) (base k : ℕ) : Option (AllocCore × Bool) :=
  if c.decLiveAndMaybeDecommit base k then
    (c.releaseOrPoolEmptySegment bd base).map fun c => (c, true)
  else some (c, false)

/-- Frees one block, publishing a list that was empty. -/
def deallocSmall (bd : Build) (c : AllocCore) (base off cls : ℕ) : Option AllocCore := do
  let oldHead := (c.homes base).seg.head cls
  let (seg, accepted) ← (c.homes base).seg.deallocSmall bd.small off cls
  if accepted = false then return c.setSeg base seg
  else
    let c := c.setSeg base seg
    let c := if oldHead = none then c.publishNonempty bd base cls else c
    let (c, _) ← c.finishFree bd base 1
    return c

/-- `flush_run`, and whether the segment was pooled or released. -/
def flushRun (bd : Build) (c : AllocCore) (base cls : ℕ) (offs : List ℕ) :
    Option (AllocCore × Bool) := do
  let oldHead := (c.homes base).seg.head cls
  let (seg, accepted) ← (c.homes base).seg.flushRun bd.small cls offs
  let c := c.setSeg base seg
  let c := if accepted ≠ 0 ∧ oldHead = none then c.publishNonempty bd base cls else c
  c.finishFree bd base accepted

/-- `flush_class_internal`: nulls and unknown or emptied segments are skipped. -/
def flushClass (bd : Build) (cls : ℕ) : List ℕ → List ℕ → AllocCore → Option AllocCore
  | [], _, c => some c
  | p :: rest, recycled, c =>
      if p = 0 then flushClass bd cls rest recycled c
      else
        let candidate := segmentBaseOfPtr p
        let run := p :: rest.takeWhile (Heap.sameSegment candidate)
        let rest' := rest.dropWhile (Heap.sameSegment candidate)
        if candidate ∉ recycled ∧ c.registered candidate then do
          let (c, recycledNow) ← c.flushRun bd candidate cls (run.map (· - candidate))
          flushClass bd cls rest'
            (if recycledNow ∧ recycled.length < Heap.recycledCap then candidate :: recycled
              else recycled) c
        else flushClass bd cls rest' recycled c
  termination_by ps => ps.length
  decreasing_by
    all_goals simp only [List.length_cons]
    · omega
    · exact Nat.lt_succ_of_le (List.dropWhile_suffix _).length_le
    · exact Nat.lt_succ_of_le (List.dropWhile_suffix _).length_le

/-- The free of one pointer of a class, where its segment is known. -/
def deallocPtr (bd : Build) (c : AllocCore) (cls p : ℕ) : Option AllocCore :=
  if p = 0 ∨ c.registered (segmentBaseOfPtr p) = false then some c
  else c.deallocSmall bd (segmentBaseOfPtr p) (p - segmentBaseOfPtr p) cls

/-- A block whose state byte is MAG becomes LIVE again: the `set_state` of a magazine pop. -/
def unpark (bd : Build) (c : AllocCore) (p : ℕ) : AllocCore :=
  let base := segmentBaseOfPtr p
  if p = 0 ∨ c.registered base = false then c
  else c.setSeg base ((c.homes base).seg.setState bd.small (p - base) .live)

/-- Calls of `dealloc_small` for the pointers of an array, each once its block is LIVE. -/
def freeEach (bd : Build) (cls : ℕ) : List ℕ → AllocCore → Option AllocCore
  | [], c => some c
  | p :: ps, c => do
      let c ← (c.unpark bd p).deallocPtr bd cls p
      freeEach bd cls ps c

/-- Arrays of pointers, each with its class, flushed in turn. -/
def flushAll (bd : Build) : List (ℕ × List ℕ) → AllocCore → Option AllocCore
  | [], c => some c
  | (cls, ps) :: rest, c => do
      let c ← flushClass bd cls ps [] c
      flushAll bd rest c

/-- The same for the pointers of several arrays. -/
def freeAll (bd : Build) : List (ℕ × List ℕ) → AllocCore → Option AllocCore
  | [], c => some c
  | (cls, ps) :: rest, c => do
      let c ← freeEach bd cls ps c
      freeAll bd rest c

/-- Calls of `dealloc_small` for the pointers of an array. -/
def deallocEach (bd : Build) (cls : ℕ) : List ℕ → AllocCore → Option AllocCore
  | [], c => some c
  | p :: ps, c => do
      let c ← c.deallocPtr bd cls p
      deallocEach bd cls ps c

/-- Calls of `dealloc_small` for the pointers of several arrays. -/
def deallocAll (bd : Build) : List (ℕ × List ℕ) → AllocCore → Option AllocCore
  | [], c => some c
  | (cls, ps) :: rest, c => do
      let c ← deallocEach bd cls ps c
      deallocAll bd rest c

/-! ## Remote frees and new segments -/

/-- The records of a drained cut, and the classes whose lists they reached. -/
def reclaimRecords (bd : Build) (base : ℕ) :
    List (ℕ × ℕ) → AllocCore → Option (AllocCore × List ℕ)
  | [], c => some (c, [])
  | (off, cls) :: records, c => do
      let (seg, accepted) ← (c.homes base).seg.reclaimSidecarRecord bd.small off cls
      let (c, changed) ← reclaimRecords bd base records (c.setSeg base seg)
      return (c, if accepted then cls :: changed else changed)

/-- Brings the directory in step with the classes a drain changed, then settles the segment. -/
def finishSmallDrain (bd : Build) (c : AllocCore) (base : ℕ) (changed : List ℕ) :
    Option AllocCore :=
  let c := ((List.range bd.small.sizes.count).filter (· ∈ changed)).foldl
    (fun c cls => c.syncClass bd base cls) c
  if changed = [] then some c else (c.finishFree bd base 1).map Prod.fst

/-- Gives the old current segment back, if it was left empty. -/
def finalizeOldCursorIfOrphaned (bd : Build) (c : AllocCore) (oldCur : ℕ) : Option AllocCore :=
  if (c.homes oldCur).seg.live ≠ 0 ∨ (c.homes oldCur).decommitted = true ∨
      (c.homes oldCur).seg.kind ≠ .small ∨ c.IsPooled oldCur then some c
  else c.releaseOrPoolEmptySegment bd oldCur

end AllocCore

/-- What a new segment is given: its slot and node, the part that is committed, and the route. -/
structure Placement where
  segmentId : ℕ
  nodeId : ℕ
  committedPayloadEnd : ℕ
  system : System
  memory : ℕ → ℕ

/-- A segment just after its reservation. -/
def Home.new (bd : Build) (kind : Kind) (at' : Placement) : Home :=
  ⟨.new bd.small kind, at'.segmentId, at'.nodeId, false, at'.committedPayloadEnd, at'.system,
    .init at'.memory⟩

namespace AllocCore

/-- `reserve_small_segment` at a base the system granted. -/
def reserveSmallSegment (bd : Build) (c : AllocCore) (base : ℕ) (at' : Placement) :
    Option AllocCore :=
  let oldCur := c.smallCur
  { c with
    homes := Function.update c.homes base (.new bd .small at')
    registered := Function.update c.registered base true
    smallCur := base
    pool := { c.pool with
      next := Function.update c.pool.next base 0
      prev := Function.update c.pool.prev base 0 } : AllocCore }.finalizeOldCursorIfOrphaned bd
    oldCur

/-- A segment of the pool that is released by the decay or by a drain of the pool. -/
def evictPooled (bd : Build) (c : AllocCore) (base : ℕ) : Option AllocCore :=
  if c.pooledCount = 0 then none
  else
    some (({ c with pool := c.pool.unlink base, pooledCount := c.pooledCount - 1 } :
      AllocCore).releaseEmptySegment bd base)

/-- `release_empty_current_small_for_trim` with the primordial segment. -/
def releaseEmptyCurrentSmallForTrim (bd : Build) (c : AllocCore) (primordial : ℕ) :
    Option AllocCore :=
  let base := c.smallCur
  if (c.homes base).seg.kind ≠ .small ∨ (c.homes base).seg.live ≠ 0 ∨
      (c.homes base).decommitted = true then some c
  else if bd.small.debugAssertions = true ∧ c.IsPooled base then none
  else some (({ c with smallCur := primordial } : AllocCore).releaseEmptySegment bd base)

end AllocCore

end SmallBatch

end SeferAlloc
