import SeferAlloc.SizeClasses

/-!
# Small segments

A small or primordial segment keeps a bump cursor, a live counter, one
intrusive free list for each class, and a state byte for each granule. Blocks
are named by their offset. An operation that aborts the process returns `none`.
-/
namespace SeferAlloc
namespace Small

/-- The states of a state byte. -/
inductive BlockState where
  | live
  | mag
  | free
deriving DecidableEq

/-- `StateByte::LIVE`, `MAG` and `FREE`. -/
def BlockState.code : BlockState → ℕ
  | .live => 0
  | .mag => 1
  | .free => 2

/-- A state byte: the class plus one under the state's two bits. -/
def encode (cls : ℕ) (st : BlockState) : BitVec 8 :=
  BitVec.ofNat 8 (cls + 1) ||| (BitVec.ofNat 8 st.code <<< 6)

inductive Kind where
  | small
  | primordial
deriving DecidableEq

/-- The size classes, the metadata ends of the two kinds, and the checks compiled in. -/
structure Build where
  sizes : SizeClasses
  smallMetaEnd : ℕ
  primordialMetaEnd : ℕ
  misuseChecks : Bool
  debugAssertions : Bool
  metaEnd_le : smallMetaEnd ≤ segment ∧ primordialMetaEnd ≤ segment

namespace Build

/-- State bytes are written and checked under `misuse-checks` or `debug_assertions`. -/
def tracked (bd : Build) : Bool := bd.misuseChecks || bd.debugAssertions

def payloadStart (bd : Build) : Kind → ℕ
  | .small => bd.smallMetaEnd
  | .primordial => bd.primordialMetaEnd

end Build

structure Segment where
  kind : Kind
  bump : ℕ
  live : ℕ
  head : ℕ → Option ℕ
  next : ℕ → Option ℕ
  byte : ℕ → BitVec 8
  payloadVirgin : Bool

/-- A segment just after its reservation. -/
def Segment.new (bd : Build) (kind : Kind) : Segment :=
  ⟨kind, bd.payloadStart kind, 0, fun _ => none, fun _ => none, fun _ => 0, true⟩

/-- What the environment allows a batch: its issue slots, then its pages. -/
inductive Grant where
  | ok
  | noLeaf
  | noPages

/-- The next multiple of `a`, `n` itself included. -/
def alignUp (n a : ℕ) : ℕ := (n + a - 1) / a * a

/-- `shadow_reject` aborts debug builds without `misuse-checks`. -/
def shadowReject {α : Type*} (bd : Build) (result : α) : Option α :=
  if bd.debugAssertions ∧ ¬bd.misuseChecks then none else some result

namespace Segment

/-- Writes a block's state byte; a build that does not track states has none. -/
def writeByte (bd : Build) (s : Segment) (off cls : ℕ) (st : BlockState) : Segment :=
  if bd.tracked then
    { s with byte := Function.update s.byte (off / minBlock) (encode cls st) }
  else s

/-- Changes the state and keeps the class. -/
def setState (bd : Build) (s : Segment) (off : ℕ) (st : BlockState) : Segment :=
  if bd.tracked then
    { s with
      byte := Function.update s.byte (off / minBlock)
        ((s.byte (off / minBlock) &&& (0x3F : BitVec 8)) ||| (BitVec.ofNat 8 st.code <<< 6)) }
  else s

def setHead (s : Segment) (cls : ℕ) (off : Option ℕ) : Segment :=
  { s with head := Function.update s.head cls off }

/-- Links a free block to the next one. -/
def writeNext (s : Segment) (off : ℕ) (next : Option ℕ) : Segment :=
  { s with next := Function.update s.next off next }

/-- `add_live` aborts above the number of granules. -/
def addLive (s : Segment) (n : ℕ) : Option Segment :=
  if s.live + n ≤ segment / minBlock then some { s with live := s.live + n } else none

/-- `sub_live` aborts on underflow. -/
def subLive (s : Segment) (n : ℕ) : Option Segment :=
  if n ≤ s.live then some { s with live := s.live - n } else none

/-- The link of a free block, checked against `ContinuationBounds`. -/
def continuation (bd : Build) (s : Segment) (off : ℕ) : Option (Option ℕ) :=
  match s.next off with
  | none => some none
  | some n =>
      let lo := bd.payloadStart s.kind
      if lo ≤ n ∧ n < min s.bump segment ∧ n % minBlock = 0 then some (some n) else none

/-! ## Allocation -/

/-- `pop_free`; `ok` says whether the issue can be prepared. -/
def popFree (bd : Build) (s : Segment) (cls : ℕ) (ok : Bool) :
    Option (Segment × Except Unit (Option ℕ)) :=
  match s.head cls with
  | none => some (s, .ok none)
  | some headOff => do
      let newHead ← s.continuation bd headOff
      if ok then
        let s := s.setHead cls newHead
        if bd.debugAssertions ∧ s.byte (headOff / minBlock) ≠ encode cls .free then none
        else
          let s ← (s.writeByte bd headOff cls .live).addLive 1
          return (s, .ok (some headOff))
      else return (s, .error ())

/-- The loop of `try_drain_freelist_batch`: it follows the links and writes the state bytes;
the head and the counter are stored after it. -/
def drainLoop (bd : Build) (cls : ℕ) (st : BlockState) :
    ℕ → Option ℕ → Segment → Option (Segment × List ℕ × Option ℕ)
  | 0, headOff, s => some (s, [], headOff)
  | _ + 1, none, s => some (s, [], none)
  | want + 1, some headOff, s => do
      let nextOff ← s.continuation bd headOff
      let (s, out, rest) ← drainLoop bd cls st want nextOff (s.writeByte bd headOff cls st)
      return (s, headOff :: out, rest)

/-- Pops up to `want` blocks off a free list. -/
def tryDrainFreelistBatch (bd : Build) (s : Segment) (cls want : ℕ) (st : BlockState) :
    Option (Segment × List ℕ) :=
  if want = 0 ∨ s.head cls = none then some (s, [])
  else do
    let (s, out, rest) ← drainLoop bd cls st want (s.head cls) s
    let s ← (s.setHead cls rest).addLive out.length
    return (s, out)

/-- `carve_block`; `ok` says whether the issue can be prepared and the pages committed. -/
def carveBlock (bd : Build) (s : Segment) (cls : ℕ) (ok : Bool) :
    Option (Segment × Option ℕ) :=
  let blockSize := bd.sizes.blockSize cls
  let alignedBump := alignUp s.bump blockSize
  if segment < alignedBump + blockSize then some (s, none)
  else if ok then do
    let s ← { s with bump := alignedBump + blockSize }.addLive 1
    return (s.writeByte bd alignedBump cls .live, some alignedBump)
  else some (s, none)

/-- The state bytes of a carved run. -/
def writeRun (bd : Build) (cls : ℕ) (st : BlockState) (start : ℕ) (s : Segment) : ℕ → Segment
  | 0 => s
  | i + 1 =>
      (writeRun bd cls st start s i).writeByte bd (start + i * bd.sizes.blockSize cls) cls st

/-- The offsets of a carved run, in the order they are carved. -/
def runOffsets (bd : Build) (cls start n : ℕ) : List ℕ :=
  (List.range n).map fun i => start + i * bd.sizes.blockSize cls

/-- `try_carve_batch`. A magazine run is handed out from its end. -/
def tryCarveBatch (bd : Build) (s : Segment) (cls want : ℕ) (st : BlockState) (grant : Grant) :
    Option (Segment × Except Unit (List ℕ)) :=
  let blockSize := bd.sizes.blockSize cls
  let alignedStart := alignUp s.bump blockSize
  if want = 0 then some (s, .ok [])
  else if segment < alignedStart + blockSize then some (s, .ok [])
  else
    let n := min want ((segment - alignedStart) / blockSize)
    match grant with
    | .noLeaf => some (s, .error ())
    | .noPages => some (s, .ok [])
    | .ok => do
        let s ← { s with bump := alignedStart + n * blockSize }.addLive n
        let out := runOffsets bd cls alignedStart n
        return (writeRun bd cls st alignedStart s n,
          .ok (if st = .mag then out.reverse else out))

/-! ## Frees -/

/-- `dealloc_small`, and whether the block was accepted. -/
def deallocSmall (bd : Build) (s : Segment) (off cls : ℕ) : Option (Segment × Bool) :=
  if bd.tracked ∧ (off < bd.payloadStart s.kind ∨ s.bump ≤ off ∨ off % minBlock ≠ 0 ∨
      s.byte (off / minBlock) ≠ encode cls .live) then
    shadowReject bd (s, false)
  else if off % minBlock ≠ 0 then some (s, false)
  else do
    let s ← (((s.writeNext off (s.head cls)).setHead cls (some off)).writeByte bd off cls
      .free).subLive 1
    return (s, true)

/-- The loop of `flush_run`: accepted blocks are linked behind each other; the head and the
counter are stored after it. -/
def flushLoop (bd : Build) (cls : ℕ) : List ℕ → Option ℕ → Segment → Option (Segment × Option ℕ × ℕ)
  | [], prev, s => some (s, prev, 0)
  | off :: rest, prev, s =>
      let start := bd.payloadStart s.kind
      let byte := s.byte (off / minBlock)
      if bd.tracked ∧ (off < start ∨ s.bump - start ≤ off - start) then
        flushLoop bd cls rest prev s
      else if bd.tracked ∧ (byte &&& 0x3F ≠ BitVec.ofNat 8 (cls + 1) ∨
          byte >>> 6 = BitVec.ofNat 8 BlockState.free.code) then do
        let _ ← shadowReject bd ()
        flushLoop bd cls rest prev s
      else do
        let (s, prev, accepted) ← flushLoop bd cls rest (some off)
          ((s.writeNext off prev).writeByte bd off cls .free)
        return (s, prev, accepted + 1)

/-- `flush_run` before the release of an emptied segment: how many blocks were accepted. -/
def flushRun (bd : Build) (s : Segment) (cls : ℕ) (offs : List ℕ) : Option (Segment × ℕ) := do
  let (s, prev, accepted) ← flushLoop bd cls offs (s.head cls) s
  let s ← (if accepted = 0 then s else s.setHead cls prev).subLive accepted
  return (s, accepted)

/-- `reclaim_sidecar_record`: whether a block freed by another thread was put on its list. -/
def reclaimSidecarRecord (bd : Build) (s : Segment) (off cls : ℕ) : Option (Segment × Bool) :=
  if bd.sizes.count ≤ cls then none
  else if bd.tracked ∧ (off < bd.payloadStart s.kind ∨ off % bd.sizes.blockSize cls ≠ 0 ∨
      s.bump < off + bd.sizes.blockSize cls) then none
  else if bd.tracked ∧ (s.byte (off / minBlock) >>> 6 = BitVec.ofNat 8 BlockState.free.code ∨
      s.byte (off / minBlock) >>> 6 = BitVec.ofNat 8 BlockState.mag.code) then
    shadowReject bd (s, false)
  else do
    let s ← (((s.writeNext off (s.head cls)).setHead cls (some off)).writeByte bd off cls
      .free).subLive 1
    return (s, true)

end Segment

end Small

end SeferAlloc
