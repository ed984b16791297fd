import SeferAlloc.ActiveKindRuns
import SeferAlloc.SegmentTableRuns
import SeferAlloc.SidecarBitmap
import SeferAlloc.SmallSegmentOperations

/-!
# Maintenance drains

The owner of a routed heap takes back what other threads freed. The full drain
walks all slots of the segment table; the bounded drain pays a unit for each
word or slot it looks at and resumes from its cursor; the hot drain looks at a
few Large slots only. A segment that is emptied on the way goes to the pool or
is released, and a retired Large segment leaves the table and lets the pool
decay. An abort of the source is the outcome `none`.

Beside the segments runs the record of their blocks. A drain also returns which
frees it reclaimed; the source counts them.
-/
namespace SeferAlloc
namespace MaintenanceDrain
open SeferAlloc.Small BitWord

/-- A free that was reclaimed, and the slot it was found at. -/
inductive Freed where
  | small (index base offset cls : ℕ)
  | large (index base : ℕ)
deriving DecidableEq

/-- What became of a segment that a drain emptied. -/
inductive DrainEnd where
  | live
  | pooled
  | released
deriving DecidableEq

/-- The part of `AllocCore` around the drains: the table with the headers behind it, the small
segments and their sidecars, the Large routes with a free, and the pool from its head on. -/
structure Core where
  table : SegmentTable
  mem : ℕ → SegmentHeader
  segs : ℕ → Segment
  blocks : ℕ → Blocks
  bitmap : ℕ → Sidecar.Bitmap
  largePending : ℕ → Bool
  decommitted : ℕ → Bool
  smallCur : ℕ
  pool : List ℕ
  poolCap : ℕ
  decayInterval : ℕ
  lastPoolDecayTick : Option ℕ

/-- The checks of the sidecar are those of the state bytes. -/
def sidecarBuild (bd : Build) : Sidecar.Build := ⟨bd.sizes.count, bd.tracked⟩

/-! ## One word of a sidecar -/

/-- The records of a cut: `pop` until the cut is exhausted. `none` also when the fuel is. -/
def consumeCut (bd : Build) (bm : Sidecar.Bitmap) :
    ℕ → Sidecar.Cut → Segment → Option (Segment × List Sidecar.Record)
  | fuel, cut, s =>
      match cut.pop (sidecarBuild bd) bm with
      | none => none
      | some none => some (s, [])
      | some (some (r, cut)) =>
          match fuel with
          | 0 => none
          | fuel + 1 => do
              let (s, accepted) ← s.reclaimSidecarRecord bd r.offset r.cls
              let (s, records) ← consumeCut bd bm fuel cut s
              return (s, if accepted then r :: records else records)

/-- `next_cut` and the records of the cut. -/
def consumeWord (bd : Build) (w : ℕ) (bm : Sidecar.Bitmap) (s : Segment) :
    Option (Sidecar.Bitmap × Segment × List Sidecar.Record) := do
  let (s, records) ← consumeCut bd (bm.clearWord w) 64 ⟨w, bm.pending w⟩ s
  return (bm.clearWord w, s, records)

/-- `consume_small_cuts` over the words of a scan. -/
def consumeWords (bd : Build) :
    List ℕ → Sidecar.Bitmap → Segment → Option (Sidecar.Bitmap × Segment × List Sidecar.Record)
  | [], bm, s => some (bm, s, [])
  | w :: ws, bm, s => do
      let (bm, s, records) ← consumeWord bd w bm s
      let (bm, s, later) ← consumeWords bd ws bm s
      return (bm, s, records ++ later)

namespace Core

def kindAt (c : Core) (base : ℕ) : SegmentKind := (c.mem base).kind

/-- The first sidecar word that stands for the payload of the segment at `base`. -/
def sidecarPayloadStartWord (bd : Build) (c : Core) (base : ℕ) : ℕ :=
  (if c.kindAt base = .primordial then bd.primordialMetaEnd else bd.smallMetaEnd) /
    Sidecar.sidecarWordBytes

/-- The word after the last one a carved block can be in. -/
def endWord (c : Core) (base : ℕ) : ℕ :=
  ((c.segs base).bump + Sidecar.sidecarWordBytes - 1) / Sidecar.sidecarWordBytes

/-- Where the drain of a slot starts, zero for slots it passes over. -/
def sidecarWordHint (bd : Build) (c : Core) (index : ℕ) : ℕ :=
  let base := c.table.baseAt index
  if base = 0 then 0
  else
    match c.kindAt base with
    | .small | .primordial => c.sidecarPayloadStartWord bd base
    | .large | .unknown => 0

/-! ## The pool -/

/-- Releases an empty segment: `release_empty_segment_now` and `table.recycle`. -/
def releaseEmptySegment (c : Core) (base : ℕ) : Option Core :=
  (c.table.recycle c.mem base).map fun p =>
    { c with table := p.1, decommitted := Function.update c.decommitted base true }

/-- A small segment that is empty and not the current one is to be given back. -/
def decLiveAndMaybeDecommit (c : Core) (base : ℕ) : Bool :=
  (c.segs base).live = 0 ∧ base ≠ c.smallCur ∧ c.decommitted base = false ∧ c.kindAt base = .small

/-- Pools an empty segment, or releases it when the pool is full. -/
def releaseOrPoolEmptySegment (c : Core) (base : ℕ) : Option (Core × DrainEnd) :=
  if base ∈ c.pool then none
  else if c.pool.length < c.poolCap then some ({ c with pool := base :: c.pool }, .pooled)
  else (c.releaseEmptySegment base).map fun c => (c, .released)

/-- `maybe_decay_small_pool` at the time `now`: the tail of the pool is released. -/
def maybeDecaySmallPool (c : Core) (now : ℕ) : Option Core :=
  match c.pool.getLast? with
  | none => some c
  | some base =>
      match c.lastPoolDecayTick with
      | none => some { c with lastPoolDecayTick := some now }
      | some t =>
          if now - t < c.decayInterval then some c
          else
            ({ c with lastPoolDecayTick := some now, pool := c.pool.dropLast } :
              Core).releaseEmptySegment base

/-- After a drain that freed something, an empty segment is given back. -/
def finishSmallDrain (c : Core) (base : ℕ) (changed : Bool) : Option (Core × DrainEnd) :=
  if changed && c.decLiveAndMaybeDecommit base then c.releaseOrPoolEmptySegment base
  else some (c, .live)

/-! ## Slots -/

/-- What the words of a sidecar held goes back to the segment. -/
def consume (bd : Build) (c : Core) (index base : ℕ) (ws : List ℕ) :
    Option (Core × List Freed) := do
  let (bm, s, records) ← consumeWords bd ws (c.bitmap base) (c.segs base)
  return (
    { c with
      bitmap := Function.update c.bitmap base bm
      segs := Function.update c.segs base s
      blocks := Function.update c.blocks base
        ((c.blocks base).putAll (records.map (·.offset)) .free) },
    records.map fun r => .small index base r.offset r.cls)

/-- `retire_large_route`, with `reclaim_large_segment` for a route that was freed: its segment
leaves the table. -/
def retireLargeRoute (c : Core) (index base now : ℕ) : Option (Core × List Freed) :=
  if c.largePending base = false then some (c, [])
  else do
    let t ← c.table.unregister c.mem base
    let c ← ({ c with
      largePending := Function.update c.largePending base false
      table := t } : Core).maybeDecaySmallPool now
    return (c, [.large index base])

/-! ## The full drain -/

/-- One slot of `drain_sidecar_ingress`. -/
def drainSlot (bd : Build) (c : Core) (index now : ℕ) : Option (Core × List Freed) :=
  let base := c.table.baseAt index
  if base = 0 then some (c, [])
  else
    match c.kindAt base with
    | .small | .primordial => do
        let start := min (c.sidecarPayloadStartWord bd base) (c.endWord base)
        let scan ← Sidecar.scanFrom (c.segs base).bump start
        let (c, out) ← c.consume bd index base
          (List.range' scan.nextWord (scan.endWord - scan.nextWord))
        let (c, _) ← c.finishSmallDrain base (out ≠ [])
        return (c, out)
    | .large => c.retireLargeRoute index base now
    | .unknown => none

def drainSlots (bd : Build) (clock : ℕ → ℕ) : List ℕ → Core → Option (Core × List Freed)
  | [], c => some (c, [])
  | index :: rest, c => do
      let (c, out) ← c.drainSlot bd index (clock index)
      let (c, later) ← drainSlots bd clock rest c
      return (c, out ++ later)

/-- `drain_sidecar_ingress`; `clock` is the time a slot is drained at. -/
def drainSidecarIngress (bd : Build) (clock : ℕ → ℕ) (c : Core) : Option (Core × List Freed) :=
  if c.table.routes = none then some (c, [])
  else drainSlots bd clock (List.range c.table.count) c

/-! ## The bounded drain -/

/-- A cursor: a slot, and a word of its sidecar. -/
abbrev Cursor := ℕ × ℕ

def nextSlot (bd : Build) (c : Core) (index : ℕ) : Cursor :=
  (index + 1, c.sidecarWordHint bd (index + 1))

/-- One unit of the bounded drain: a word of a small segment, or a slot. -/
def drainUnit (bd : Build) (c : Core) (cursor : Cursor) (now : ℕ) :
    Option (Core × Cursor × List Freed) :=
  let index := cursor.1
  let base := c.table.baseAt index
  if base = 0 then some (c, c.nextSlot bd index, [])
  else
    match c.kindAt base with
    | .small | .primordial =>
        let word := max cursor.2 (c.sidecarPayloadStartWord bd base)
        let stop := c.endWord base
        if stop ≤ word then some (c, c.nextSlot bd index, [])
        else do
          let scan ← Sidecar.scanFrom (c.segs base).bump word
          let (w, _) ← scan.advance
          let (c, out) ← c.consume bd index base [w]
          let (c, fate) ← c.finishSmallDrain base (out ≠ [])
          return (c, if fate ≠ .live ∨ word + 1 = stop then c.nextSlot bd index
            else (index, word + 1), out)
    | .large => do
        let (c, out) ← c.retireLargeRoute index base now
        return (c, c.nextSlot bd index, out)
    | .unknown => none

/-- The loop of the bounded drain, over the units still to be charged: how many were. -/
def boundedLoop (bd : Build) (clock : ℕ → ℕ) (stop : ℕ) :
    ℕ → Cursor → Core → Option (Core × Cursor × List Freed × ℕ)
  | 0, cursor, c => some (c, cursor, [], 0)
  | budget + 1, cursor, c =>
      if stop ≤ cursor.1 then some (c, cursor, [], 0)
      else do
        let (c, next, out) ← c.drainUnit bd cursor (clock cursor.1)
        let (c, cursor, later, units) ← boundedLoop bd clock stop budget next c
        return (c, cursor, out ++ later, units + 1)

/-- What a bounded drain leaves: the cursor, the frees it reclaimed, the units it charged, and
whether it came to the end of the table. -/
structure BoundedDrain where
  core : Core
  cursor : Cursor
  freed : List Freed
  units : ℕ
  wrapped : Bool

/-- The cursor a drain starts from. -/
def normalise (bd : Build) (c : Core) (cursor : Cursor) : Cursor :=
  if c.table.count ≤ cursor.1 then (0, c.sidecarWordHint bd 0) else cursor

/-- Drains slots from the cursor on until the budget is spent or the table ends. -/
def drainSidecarIngressBounded (bd : Build) (clock : ℕ → ℕ) (c : Core) (cursor : Cursor)
    (budget : ℕ) : Option BoundedDrain :=
  if c.table.routes = none ∨ budget = 0 then some ⟨c, cursor, [], 0, false⟩
  else do
    let stop := c.table.count
    let (c, cursor, freed, units) ←
      boundedLoop bd clock stop budget (c.normalise bd cursor) c
    if cursor.1 = stop then return ⟨c, (0, c.sidecarWordHint bd 0), freed, units, true⟩
    else return ⟨c, cursor, freed, units, false⟩

/-! ## The hot drain -/

/-- The Large routes that one miss probes. -/
def largeHotBudget : ℕ := 4

/-- What a hot loop leaves: the slots it looked at, and where it stopped. -/
structure HotLoop where
  core : Core
  stopped : ℕ
  inspected : List ℕ
  freed : List Freed

/-- The loop after it has wrapped, up to the slot it started from. -/
def hotAround (clock : ℕ → ℕ) (start stop : ℕ) : ℕ → ℕ → Core → Option HotLoop
  | 0, pos, c => some ⟨c, pos, [], []⟩
  | budget + 1, pos, c => do
      match ← c.table.nextActive .large pos with
      | none => return ⟨c, pos, [], []⟩
      | some index =>
          if stop ≤ index ∨ start ≤ index then return ⟨c, pos, [], []⟩
          else
            let (c, out) ← c.retireLargeRoute index (c.table.baseAt index) (clock index)
            let r ← hotAround clock start stop budget (index + 1) c
            return ⟨r.core, r.stopped, index :: r.inspected, out ++ r.freed⟩

/-- The loop before it wraps. -/
def hotLoop (clock : ℕ → ℕ) (start stop : ℕ) : ℕ → ℕ → Core → Option HotLoop
  | 0, pos, c => some ⟨c, pos, [], []⟩
  | budget + 1, pos, c => do
      match ← c.table.nextActive .large pos with
      | none => hotAround clock start stop (budget + 1) 0 c
      | some index =>
          if stop ≤ index then return ⟨c, pos, [], []⟩
          else
            let (c, out) ← c.retireLargeRoute index (c.table.baseAt index) (clock index)
            let r ← hotLoop clock start stop budget (index + 1) c
            return ⟨r.core, r.stopped, index :: r.inspected, out ++ r.freed⟩

/-- `drain_large_sidecar_ingress_hot_bounded`: the core, the cursor, the slots looked at and the
routes retired. -/
def drainLargeHot (clock : ℕ → ℕ) (c : Core) (cursor : ℕ) :
    Option (Core × ℕ × List ℕ × List Freed) :=
  if c.table.routes = none ∨ c.table.count = 0 then some (c, cursor, [], [])
  else do
    let stop := c.table.count
    let start := if stop ≤ cursor then 0 else cursor
    let r ← hotLoop clock start stop largeHotBudget start c
    return (r.core, if r.inspected = [] then start else if r.stopped = stop then 0 else r.stopped,
      r.inspected, r.freed)

end Core

end MaintenanceDrain

end SeferAlloc
