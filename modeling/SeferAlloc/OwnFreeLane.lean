import SeferAlloc.ClassFor
import SeferAlloc.HeapCore
import SeferAlloc.SegmentTableLookup
import SeferAlloc.SmallHeapRuns

/-!
# The fast lane of an own free

A free first tries a lane that accepts a live small block of the segment in the
memo, or in the owner cache as a second chance. What the lane does not accept
goes to the routing chain, which looks up the segment, classifies the pointer
and frees or rejects it.
-/
namespace SeferAlloc
namespace Small

/-- A `Layout`: the alignment is a power of two, the size fits an `isize`. -/
structure Layout where
  size : ℕ
  align : ℕ
  align_pow : ∃ k, align = 2 ^ k
  size_lt : size < 2 ^ 63

/-- The heap as a free of its owner sees it: the magazines over the core, the segment table, the
headers of the segments with the usable span of the Large ones, and the count of rejected frees. -/
structure FreeHeap where
  heap : HeapCore
  table : SegmentTable
  headers : ℕ → SegmentHeader
  spanUsable : ℕ → ℕ
  localRejectFrees : ℕ

/-- What the chain calls besides: the free of a Large segment and the publication of a foreign
pointer. -/
structure ColdCallees where
  deallocLargeAtBase : (block root : ℕ) → FreeHeap → Option FreeHeap
  publishForeign : (ptr : ℕ) → Layout → FreeHeap → Option FreeHeap

/-- `a.wrapping_sub(b)` on 64 bits. -/
def wrappingSub (a b : ℕ) : ℕ := (a + 2 ^ 64 - b % 2 ^ 64) % 2 ^ 64

/-- `a.wrapping_add(b)` on 64 bits. -/
def wrappingAdd (a b : ℕ) : ℕ := (a + b) % 2 ^ 64

/-- `off.rotate_right(MIN_BLOCK_SHIFT)`: the granule of `off`, large when `off` starts none. -/
def rotateGranule (off : ℕ) : ℕ := off / minBlock + off % minBlock * 2 ^ 60

/-- `LiveTag::byte` of a class. -/
def liveTagByte (c : ℕ) : BitVec 8 := BitVec.ofNat 8 (c + 1)

/-- `LiveTag::mag_byte` of a class. -/
def liveTagMagByte (c : ℕ) : BitVec 8 :=
  BitVec.ofNat 8 (c + 1) ||| (BitVec.ofNat 8 BlockState.mag.code <<< 6)

/-- `LANE_PS` at a kind: only small and primordial segments have a payload start. -/
def Build.lanePs (bd : Build) : SegmentKind → ℕ
  | .primordial => bd.primordialMetaEnd
  | .small => bd.smallMetaEnd
  | .large | .unknown => 2 ^ 64 - 1

/-- `write_granule`: the record of the blocks notes the state that the byte says. -/
def World.writeGranule (bd : Build) (w : World) (root g : ℕ) (byte : BitVec 8) : World :=
  let s := w.heap.segs root
  w.put root (if bd.tracked then { s with byte := Function.update s.byte g byte } else s)
    ((w.blocks root).put (g * minBlock) .mag)

namespace FreeHeap

def withHeap (h : FreeHeap) (heap : HeapCore) : FreeHeap := { h with heap := heap }

/-! ## The routing chain -/

/-- `canonical_block_of`: root and block of a pointer into a segment of the heap. `none` would be
an endless probe of the hash. -/
def canonicalBlockOf (ptr : ℕ) (h : FreeHeap) : Option (FreeHeap × Option (ℕ × ℕ)) := do
  let (base, table) ← h.table.canonicalBaseOfMut (segmentBaseOfPtr ptr)
  let h := { h with table := table }
  match base with
  | none => return (h, none)
  | some base =>
      if (h.headers base).kind = .large then
        let off := wrappingSub ptr base
        if h.spanUsable base ≤ off then return (h, none)
        else return (h, some (base, wrappingAdd base off))
      else return (h, some (base, wrappingAdd base (ptr % segment)))

/-- Frees into the segment the header names, by its kind. -/
def deallocAtBase (bd : Build) (env : Surroundings) (cold : ColdCallees) (root block : ℕ)
    (layout : Layout) (h : FreeHeap) : Option FreeHeap :=
  match (h.headers root).kind with
  | .large => cold.deallocLargeAtBase block root h
  | .small | .primordial =>
      match bd.sizes.classFor (max layout.size minBlock) layout.align with
      | none => some h
      | some c => do
          let core := h.heap.core
          let w ← core.world.exec bd
            (.dealloc root (block - root) c (env.pooled core.time root))
          return h.withHeap { h.heap with core := { core with world := w, time := core.time + 1 } }
  | .unknown => some h

/-- A Large header whose payload does not start at the block. -/
def largePayloadMismatch (h : FreeHeap) (root block : ℕ) : Bool :=
  decide ((h.headers root).kind = .large ∧ root + (h.headers root).payloadOffset ≠ block)

/-- Frees a block of this heap, its guard first. -/
def deallocOwnThreadWithBase (bd : Build) (env : Surroundings) (cold : ColdCallees)
    (root block : ℕ) (layout : Layout) (h : FreeHeap) : Option FreeHeap :=
  match bd.sizes.classFor (max layout.size minBlock) layout.align with
  | none => h.deallocAtBase bd env cold root block layout
  | some c => do
      let s := h.heap.core.world.heap.segs root
      match ← smallFreeGuard bd (h.headers root).kind (h.largePayloadMismatch root block) s
        (block - root) c with
      | .accept => return h.withHeap (← h.heap.pushFreed bd env c block)
      | .rejectNoOp => return { h with localRejectFrees := h.localRejectFrees + 1 }
      | .rejectNoOpSilent => return h
      | .routeToLargeFree => h.deallocAtBase bd env cold root block layout

/-- The general free: the block's segment is looked up, a foreign block is published. -/
def deallocRouting (bd : Build) (env : Surroundings) (cold : ColdCallees) (ptr : ℕ)
    (layout : Layout) (h : FreeHeap) : Option FreeHeap := do
  match ← h.canonicalBlockOf ptr with
  | (h, some (root, block)) => h.deallocOwnThreadWithBase bd env cold root block layout
  | (h, none) => cold.publishForeign ptr layout h

/-! ## The lane -/

/-- The commit of the lane: a push below the park cap, else `free_magazine_full_fast`. -/
def lanePush (bd : Build) (env : Surroundings) (c root block g : ℕ) (heap : HeapCore) :
    Option HeapCore :=
  let k := heap.tcache c
  if bd.sizes.freeParkCap c ≤ k.count then heap.freeMagazinePark bd env c k.count block
  else
    let heap := { heap with core := { heap.core with
      world := heap.core.world.writeGranule bd root g (liveTagMagByte c) } }
    let i := k.count &&& (tcacheCap - 1)
    some (heap.setClass c
      { k with
        slots := Function.update k.slots i block
        count := i + 1
        virginMask := k.virginMask &&& ~~~virginBit k.count })

/-- The steps that both lanes take once they have a root; every miss goes to the chain. -/
def laneSteps (bd : Build) (env : Surroundings) (cold : ColdCallees) (ptr c root : ℕ)
    (layout : Layout) (h : FreeHeap) : Option FreeHeap :=
  let off := wrappingSub ptr root
  let block := wrappingAdd root off
  let s := h.heap.core.world.heap.segs root
  if off < bd.lanePs (h.headers root).kind then h.deallocRouting bd env cold block layout
  else
    let g := rotateGranule off
    if bd.tracked ∧ s.bump % 2 ^ 64 / minBlock ≤ g then h.deallocRouting bd env cold block layout
    else if bd.tracked ∧ s.byte g ≠ liveTagByte c then h.deallocRouting bd env cold block layout
    else (lanePush bd env c root block g h.heap).map h.withHeap

/-- Asks the lookup cache when the memo named another segment. -/
def laneSecondChance (bd : Build) (env : Surroundings) (cold : ColdCallees) (ptr c : ℕ)
    (layout : Layout) (h : FreeHeap) : Option FreeHeap :=
  match h.table.probeArm (segmentBaseOfPtr ptr) with
  | (none, table) => { h with table := table }.deallocRouting bd env cold ptr layout
  | (some root, table) => { h with table := table }.laneSteps bd env cold ptr c root layout

/-- The fast free: the memo's segment, then the second chance, else the general free. -/
def deallocFast (bd : Build) (env : Surroundings) (cold : ColdCallees) (ptr : BitVec 64)
    (layout : Layout) (h : FreeHeap) : Option FreeHeap :=
  let seed := wrappingSub layout.size 1 / minBlock
  if minBlock < layout.align ∨ bd.sizes.s2cLen - 1 ≤ seed then
    h.deallocRouting bd env cold ptr.toNat layout
  else
    let c := bd.sizes.size2class seed
    let (memoKey, root) := h.table.memo
    if memoKey ≠ segmentBaseOfPtr ptr.toNat then h.laneSecondChance bd env cold ptr.toNat c layout
    else h.laneSteps bd env cold ptr.toNat c root layout

end FreeHeap

end Small

end SeferAlloc
