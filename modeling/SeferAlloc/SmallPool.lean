import SeferAlloc.LinkedDeque
import SeferAlloc.ActiveKindIndex

/-!
# The pool of empty small segments

A small segment that has just emptied is kept, registered and committed, on a
list threaded through the segment headers, or released when the pool is full.
Reuse takes a segment from anywhere in the list, the decay tick releases the
tail, and a drain releases everything from the head on. An abort of the source,
an underflow or a failed `debug_assert`, is the outcome `none`.
-/
namespace SeferAlloc
namespace SmallPool
open LinkedDeque

/-- The header fields the pool policy reads; the two pool links are in `Core.pool`. -/
structure PoolHeader where
  kind : SegmentKind
  liveCount : ℕ
  decommitted : Bool

/-- The part of `AllocCore` around the pool. `pool` holds `pool_head`, `pool_tail` and
the links `pool_next` and `pool_prev` of every header. -/
structure Core where
  header : ℕ → PoolHeader
  registered : ℕ → Bool
  primordial : ℕ
  smallCur : ℕ
  pool : Links ℕ
  pooledCount : ℕ
  poolCap : ℕ
  decayInterval : ℕ
  lastPoolDecayTick : Option ℕ

/-- What happened to the members of the pool. -/
inductive Event where
  | admitted (base : ℕ)
  | unpooled (base : ℕ)
  | decayed (base : ℕ)
  | drained (base : ℕ)
  deriving DecidableEq

namespace Core

/-- The O(1) membership test. -/
def IsPooled (c : Core) (base : ℕ) : Prop := c.pool.head = base ∨ c.pool.prev base ≠ 0

instance (c : Core) (base : ℕ) : Decidable (c.IsPooled base) :=
  inferInstanceAs (Decidable (_ ∨ _))

def setLiveCount (c : Core) (base n : ℕ) : Core :=
  { c with header := Function.update c.header base { c.header base with liveCount := n } }

/-- `dec_live_batch_and_maybe_decommit`; the scalar form is the case `k = 1`. -/
def decLiveAndMaybeDecommit (c : Core) (base k : ℕ) : Bool :=
  k ≠ 0 ∧ (c.header base).liveCount = 0 ∧ base ≠ c.smallCur ∧
    (c.header base).decommitted = false ∧ (c.header base).kind = .small

def poolPushFront (c : Core) (base : ℕ) : Core :=
  { c with pool := c.pool.pushFront base, pooledCount := c.pooledCount + 1 }

def poolUnlink (c : Core) (base : ℕ) : Option Core :=
  if c.pooledCount = 0 then none
  else some { c with pool := c.pool.unlink base, pooledCount := c.pooledCount - 1 }

/-- Releases an empty segment: `release_empty_segment_now` and `table.recycle`. -/
def releaseEmptySegment (c : Core) (base : ℕ) : Core :=
  { c with
    header := Function.update c.header base { c.header base with decommitted := true }
    registered := Function.update c.registered base false }

def releaseOrPoolEmptySegment (c : Core) (base : ℕ) : Option (Core × List Event) :=
  if c.IsPooled base then none
  else if c.pooledCount < c.poolCap then some (c.poolPushFront base, [.admitted base])
  else some (c.releaseEmptySegment base, [])

def finalizeOldCursorIfOrphaned (c : Core) (oldCur : ℕ) : Option (Core × List Event) :=
  if (c.header oldCur).liveCount ≠ 0 ∨ (c.header oldCur).decommitted = true then some (c, [])
  else if (c.header oldCur).kind ≠ .small then some (c, [])
  else if c.IsPooled oldCur then some (c, [])
  else c.releaseOrPoolEmptySegment oldCur

def popPooledSegment (c : Core) : Option (Option ℕ × Core) :=
  if c.pool.head = 0 then if c.pooledCount = 0 then some (none, c) else none
  else (c.poolUnlink c.pool.head).map fun c' => (some c.pool.head, c')

def unpoolIfPresent (c : Core) (base : ℕ) : Option (Core × List Event) :=
  if c.IsPooled base then (c.poolUnlink base).map fun c' => (c', [.unpooled base])
  else some (c, [])

/-- One decay tick at the time `now`. -/
def maybeDecaySmallPool (c : Core) (now : ℕ) : Option (Core × List Event) :=
  if c.pooledCount = 0 then some (c, [])
  else
    match c.lastPoolDecayTick with
    | none => some ({ c with lastPoolDecayTick := some now }, [])
    | some t =>
        if now - t < c.decayInterval then some (c, [])
        else
          let c := { c with lastPoolDecayTick := some now }
          let base := c.pool.tail
          if base = 0 then none
          else (c.poolUnlink base).map fun c => (c.releaseEmptySegment base, [.decayed base])

/-- The loop of `drain_small_pool`, `none` also when the budget runs out. -/
def drainLoop : ℕ → Core → Option (Core × List Event)
  | 0, _ => none
  | fuel + 1, c =>
      match c.popPooledSegment with
      | none => none
      | some (none, c) => some (c, [])
      | some (some base, c) =>
          (drainLoop fuel (c.releaseEmptySegment base)).map fun p => (p.1, .drained base :: p.2)

def drainSmallPool (c : Core) : Option (Core × List Event) := drainLoop (c.pooledCount + 1) c

def releaseEmptyCurrentSmallForTrim (c : Core) : Option Core :=
  let base := c.smallCur
  if (c.header base).kind ≠ .small then some c
  else if (c.header base).liveCount ≠ 0 ∨ (c.header base).decommitted = true then some c
  else if c.IsPooled base then none
  else if c.primordial = 0 ∨ (c.header c.primordial).kind ≠ .primordial then none
  else some (({ c with smallCur := c.primordial } : Core).releaseEmptySegment base)

/-- What the OS grants: an address that no registered segment has. -/
def grant (c : Core) (segment : Option ℕ) : Option ℕ :=
  segment.filter fun base => base ≠ 0 ∧ c.registered base = false

/-- A new segment's header, with null pool links. -/
def writeHeader (c : Core) (base : ℕ) (kind : SegmentKind) : Core :=
  { c with
    header := Function.update c.header base ⟨kind, 0, false⟩
    registered := Function.update c.registered base true
    pool := { c.pool with
      next := Function.update c.pool.next base 0
      prev := Function.update c.pool.prev base 0 } }

/-- A request to the OS, repeated after a drain if it fails and the pool holds a segment. -/
def requestSegment (c : Core) (first second : Option ℕ) :
    Option (Core × List Event × Option ℕ) :=
  match c.grant first with
  | some base => some (c, [], some base)
  | none =>
      if 0 < c.pooledCount then c.drainSmallPool.map fun p => (p.1, p.2, p.1.grant second)
      else some (c, [], none)

/-- The new segment becomes the current one, and the fate of the old one is decided. -/
def adoptSegment (c : Core) (base : ℕ) : Option (Core × List Event) :=
  ({ c.writeHeader base .small with smallCur := base } : Core).finalizeOldCursorIfOrphaned
    c.smallCur

/-- `reserve_small_segment`. The flag is the answer of the registration. -/
def reserveSmallSegment (c : Core) (now : ℕ) (first second : Option ℕ) (registers : Bool) :
    Option (Core × List Event) := do
  let (c, decayed) ← c.maybeDecaySmallPool now
  let (c, drained, seg) ← c.requestSegment first second
  match seg with
  | none => return (c, decayed ++ drained)
  | some base =>
      if registers = false then return (c, decayed ++ drained)
      else
        let (c, pooled) ← c.adoptSegment base
        return (c, decayed ++ drained ++ pooled)

/-- Releases the pool and then an empty current segment, `trim_for_recycle`. -/
def trim (c : Core) : Option (Core × List Event) := do
  let (c, drained) ← c.drainSmallPool
  let c ← c.releaseEmptyCurrentSmallForTrim
  return (c, drained)

/-- A search hit leaves the pool before blocks are taken from it. -/
def issueFound (c : Core) (base n : ℕ) : Option (Core × List Event) :=
  (c.unpoolIfPresent base).map fun p =>
    (p.1.setLiveCount base ((p.1.header base).liveCount + n), p.2)

/-- `k` accepted blocks of one segment return, and the segment may be empty now. -/
def free (c : Core) (base k : ℕ) : Option (Core × List Event) :=
  let c := c.setLiveCount base ((c.header base).liveCount - k)
  if c.decLiveAndMaybeDecommit base k then c.releaseOrPoolEmptySegment base else some (c, [])

end Core

end SmallPool

end SeferAlloc
