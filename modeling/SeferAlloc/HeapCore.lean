import SeferAlloc.DepotOverflow
import SeferAlloc.SmallFreeGuard
import SeferAlloc.SmallHeapTraffic

/-!
# The magazines over the core

A heap serves small blocks from its magazines. A magazine that runs empty is
reloaded from the depot or refilled from the core; one that runs full is parked
in the depot, or partly flushed to the core. The core logs the blocks that it
hands to the heap and those that are flushed back, by class.

What the rest of the process answers is given beforehand, by the number of the
question. Large segments and their ingress are left out.
-/
namespace SeferAlloc
namespace Small
open BitWord

/-- The page size, and the answers to the refills, flushes and requests to the OS. -/
structure Surroundings where
  page : ℕ
  page_pos : 0 < page
  rounds : ℕ → List RefillRound
  pooled : ℕ → ℕ → Bool
  reserve : ℕ → Bool
  commit : ℕ → Bool

/-- The core with the log of its traffic; `time` numbers the questions. -/
structure Core where
  world : World
  time : ℕ
  handed : ℕ → Multiset ℕ
  flushed : ℕ → Multiset ℕ

namespace World

/-- `StateByte::set_state` at a block. -/
def setState (bd : Build) (w : World) (p : ℕ) (st : BlockState) : World :=
  let base := segmentBaseOfPtr p
  w.put base ((w.heap.segs base).setState bd (p - base) st) ((w.blocks base).put (p - base) st)

/-- `StateByte::write` at a block. -/
def writeState (bd : Build) (w : World) (p c : ℕ) (st : BlockState) : World :=
  let base := segmentBaseOfPtr p
  w.put base ((w.heap.segs base).writeByte bd (p - base) c st) ((w.blocks base).put (p - base) st)

end World

/-- The pointers that a refill writes, in the order of the slots. -/
def issuedPointers (es : List Event) : List ℕ := (issuedBlocks es).map fun q => q.1 + q.2

/-- Whether each pointer comes from a carve of virgin payload. -/
def Event.virgins : Event → List Bool
  | .drained _ offs => offs.map fun _ => false
  | .carved _ offs virgin => offs.map fun _ => virgin
  | .reserved _ => []

/-- The mask with these bits, lowest first. -/
def maskOf (flags : List Bool) : BitVec 16 :=
  BitVec.ofNat 16 (flags.foldr (fun b n => 2 * n + b.toNat) 0)

namespace Core

/-- The core's refill, with the pointers it handed out written to the log. -/
def refill (bd : Build) (env : Surroundings) (c want : ℕ) (st : BlockState) (core : Core) :
    Option (Core × List Event) := do
  let (w, es) ← core.world.refill bd c want st (env.rounds core.time)
  return ({ core with
    world := w
    time := core.time + 1
    handed := Function.update core.handed c (core.handed c + issuedPointers es) }, es)

/-- The core's flush, with the pointers it was given written to the log. -/
def flush (bd : Build) (env : Surroundings) (c : ℕ) (ps : List ℕ) (core : Core) : Option Core := do
  let w ← core.world.flush bd c ps (env.pooled core.time)
  return { core with
    world := w
    time := core.time + 1
    flushed := Function.update core.flushed c (core.flushed c + ps) }

end Core

structure HeapCore where
  core : Core
  tcache : ℕ → PerClass
  depot : Option Depot
  depotBudget : ℕ

namespace HeapCore

def setClass (h : HeapCore) (c : ℕ) (k : PerClass) : HeapCore :=
  { h with tcache := Function.update h.tcache c k }

def setOvf (h : HeapCore) (d : Depot) (ovf : DepotOverflow) : HeapCore :=
  { h with depot := some { d with ovf := ovf } }

def setLimit (h : HeapCore) (c limit : ℕ) : HeapCore :=
  h.setClass c { h.tcache c with limit := limit }

/-- Opens the parking of every ready class again. -/
def reopen (bd : Build) (ready : Word) (h : HeapCore) : HeapCore :=
  (bits ready).foldl (fun h c => h.setLimit c (openLimit bd.sizes c h.depotBudget)) h

/-- The latched classes that may park again are opened. -/
def reopenUnstarved (bd : Build) (d : Depot) (h : HeapCore) : HeapCore :=
  let (ovf, ready) := d.ovf.takeUnstarved bd.sizes h.depotBudget
  (h.setOvf d ovf).reopen bd ready

/-- A flush of blocks that the heap has let go of. -/
def flush (bd : Build) (env : Surroundings) (c : ℕ) (ps : List ℕ) (h : HeapCore) :
    Option HeapCore := do
  let core ← h.core.flush bd env c ps
  return { h with core := core }

/-! ## Decay -/

/-- The loop of `depot_decay`. -/
def decayLoop (bd : Build) (env : Surroundings) : ℕ → HeapCore → Option HeapCore
  | 0, h => some h
  | work + 1, h =>
      match h.depot with
      | none => some h
      | some d =>
          match d.ovf.debtClass with
          | none => some h
          | some c => do
              let n := d.ovf.len c
              let (ovf, mag) := d.ovf.popOldest bd.sizes c
              let h := (h.setOvf d ovf).setClass c
                { h.tcache c with ovf := if 1 < n then 1 else 0 }
              decayLoop bd env work (← h.flush bd env c (mag.list tcacheCap))

/-- The floor marks of the classes, collected and cleared. -/
def collectFloorMarks (bd : Build) (h : HeapCore) : Word × HeapCore :=
  ((List.range bd.sizes.depotClasses).foldl (fun m c =>
      if (h.tcache c).marks &&& markFloor ≠ 0 then m ||| bit c else m) 0,
    { h with tcache := fun c =>
        if c < bd.sizes.depotClasses
        then { h.tcache c with marks := (h.tcache c).marks &&& ~~~markFloor } else h.tcache c })

/-- One decay step of the depot: an epoch that is due ends, then debts are paid. -/
def depotDecay (bd : Build) (env : Surroundings) (h : HeapCore) : Option HeapCore :=
  match h.depot with
  | none => some h
  | some d => do
      let h :=
        if d.ovf.epochDue then
          let (floorParked, h) := h.collectFloorMarks bd
          h.setOvf d (d.ovf.endEpoch bd.sizes floorParked)
        else h
      let h ← h.decayLoop bd env decayWork
      match h.depot with
      | none => return h
      | some d => return h.reopenUnstarved bd d

/-- Counts one event of the depot and decays when a decay is due. -/
def depotTick (bd : Build) (env : Surroundings) (h : HeapCore) : Option HeapCore :=
  match h.depot with
  | none => some h
  | some d =>
      let (ovf, due) := d.ovf.tick
      if due then (h.setOvf d ovf).depotDecay bd env else some (h.setOvf d ovf)

/-- The tick of a marked class; an empty overflow just takes the mark off. -/
def depotSegmentTick (bd : Build) (env : Surroundings) (c : ℕ) (h : HeapCore) : Option HeapCore :=
  let unmark := fun h : HeapCore =>
    h.setClass c { h.tcache c with marks := (h.tcache c).marks &&& ~~~markTick }
  match h.depot with
  | none => some (unmark h)
  | some d =>
      if d.ovf.bytes = 0 then some (unmark (h.setOvf d (d.ovf.disarm c)))
      else h.depotTick bd env

/-! ## Park and reload -/

/-- `park_overflow`; the magazine is emptied when it is parked. -/
def parkOverflow (bd : Build) (env : Surroundings) (c : ℕ) (h : HeapCore) :
    Option (HeapCore × Bool) :=
  match h.depot with
  | none => some (h, false)
  | some d =>
      let k := h.tcache c
      let n := d.ovf.len c
      let (ovf, ok) :=
        if h.depotBudget = 0 then (d.ovf, false)
        else d.ovf.park bd.sizes env.page c n k.slots h.depotBudget (env.reserve h.core.time)
          (env.commit h.core.time)
      if ok = false then
        some ((h.setOvf d (ovf.starve c)).setLimit c k.parked, false)
      else do
        let full := ovf.cap c ≤ n + 1
        let ovf := if full then ovf.starve c else ovf
        let h := (h.setOvf d ovf).setClass c
          { k with
            ovf := 1
            limit := if full then k.parked else k.limit
            count := 0
            virginMask := 0 }
        let h :=
          if n = 0 then
            let (ovf, fresh) := ovf.arm bd.sizes
            (bits fresh).foldl (fun h c =>
              h.setClass c { h.tcache c with marks := (h.tcache c).marks ||| markTick })
              (h.setOvf d ovf)
          else h
        return (← h.depotTick bd env, true)

/-- `depot_park`. The floor keeps a copy of the slots and leaves the count to the caller. -/
def depotPark (bd : Build) (env : Surroundings) (c : ℕ) (h : HeapCore) :
    Option (HeapCore × Bool) :=
  if bd.sizes.depotClasses ≤ c ∨ depotK c = 0 then some (h, false)
  else
    match h.depot with
    | none => some (h, false)
    | some d =>
        let k := h.tcache c
        if k.count ≠ tcacheCap then some (h, false)
        else
          match d.park c k.parked k.slots with
          | none => h.parkOverflow bd env c
          | some (d, parked) =>
              some ({ h with depot := some d }.setClass c
                { k with parked := parked, marks := k.marks ||| markFloor, virginMask := 0 }, true)

/-- Takes a full row of class `c` back from the overflow into its magazine. -/
def reloadOverflow (bd : Build) (c : ℕ) (h : HeapCore) : HeapCore × Bool :=
  match h.depot with
  | none => (h, false)
  | some d =>
      let k := h.tcache c
      let n := d.ovf.len c
      if n = 0 then (h.setClass c { k with ovf := 0 }, false)
      else
        let (ovf, row) := d.ovf.reload bd.sizes c n
        let h := h.setClass c
          { k with
            slots := row
            ovf := if 1 < n then 1 else 0
            virginMask := 0
            count := tcacheCap }
        (h.reopenUnstarved bd { d with ovf := ovf.ingressDue }, true)

/-- What `depot_reload` and `depot_reload_tick` share: the floor, else the ring. -/
def depotReload (bd : Build) (c : ℕ) (h : HeapCore) : HeapCore × Bool :=
  if bd.sizes.depotClasses ≤ c ∨ depotK c = 0 then (h, false)
  else
    match h.depot with
    | none => (h, false)
    | some d =>
        let k := h.tcache c
        if k.count ≠ 0 then (h, false)
        else
          match d.reload c k.parked with
          | some (parked, row) =>
              (h.setClass c
                { k with parked := parked, slots := row, virginMask := 0, count := tcacheCap }, true)
          | none => h.reloadOverflow bd c

/-- `depot_reload_tick`: a reload from the ring counts a cold event. -/
def depotReloadTick (bd : Build) (env : Surroundings) (c : ℕ) (h : HeapCore) :
    Option (HeapCore × Bool) :=
  let fromFloor := (h.tcache c).parked ≠ 0
  match h.depotReload bd c with
  | (h, false) => some (h, false)
  | (h, true) => do
      if fromFloor then return (h, true)
      else return (← h.depotTick bd env, true)

/-! ## Allocation -/

/-- The state byte of a block that leaves the magazine says live. -/
def clearMagazineOnIssue (bd : Build) (issued : ℕ) (h : HeapCore) : HeapCore :=
  { h with core := { h.core with world := h.core.world.setState bd issued .live } }

/-- The magazine hit: the block, and whether its slot is virgin. -/
def popMagazine (bd : Build) (c : ℕ) (h : HeapCore) : HeapCore × ℕ × Bool :=
  let k := h.tcache c
  ((h.setClass c k.pop).clearMagazineOnIssue bd k.top, k.top,
    decide (k.virginMask &&& virginBit (k.count - 1) ≠ 0))

/-- Issues the last of the `n` blocks a refill brought. -/
def finishMagazineRefill (bd : Build) (c n : ℕ) (h : HeapCore) : HeapCore × ℕ :=
  let k := h.tcache c
  let issued := k.slots (n - 1)
  ((h.setClass c { k with count := n - 1 }).clearMagazineOnIssue bd issued, issued)

/-- The slots of a magazine after a refill of the core. -/
def fillSlots (slots : Row) (ps : List ℕ) : Row := fun i => ps.getD i (slots i)

/-- One refill of the core into the empty magazine: how many blocks came, and the virgin mask. -/
def refillSlots (bd : Build) (env : Surroundings) (c : ℕ) (h : HeapCore) :
    Option (HeapCore × ℕ × BitVec 16) := do
  let (core, es) ← h.core.refill bd env c (bd.sizes.freeParkCap c) .mag
  let k := h.tcache c
  let ps := issuedPointers es
  return ({ h with core := core }.setClass c { k with slots := fillSlots k.slots ps }, ps.length,
    maskOf (es.flatMap Event.virgins))

/-- `refill_with_large_rescue` over a refill of the magazine. -/
def refillWithLargeRescue (bd : Build) (env : Surroundings) (c : ℕ) (h : HeapCore) :
    Option (HeapCore × ℕ × BitVec 16) := do
  let (h, n, mask) ← h.refillSlots bd env c
  if n ≠ 0 then return (h, n, mask) else h.refillSlots bd env c

/-- `depot_may_reload(c) && depot_reload_tick(c)`: a reload, where anything is parked. -/
def tryReload (bd : Build) (env : Surroundings) (c : ℕ) (h : HeapCore) :
    Option (HeapCore × Bool) :=
  if (h.tcache c).mayReload then h.depotReloadTick bd env c else some (h, false)

/-- The common start of `refill_magazine_slow` and `refill_magazine_slow_virgin`: `none` when the
depot does not help, else the block it gave. -/
def refillFromDepot (bd : Build) (env : Surroundings) (c : ℕ) (h : HeapCore) :
    Option (HeapCore × Option ℕ) := do
  let (h, ok) ← h.tryReload bd env c
  if ok then
    let (h, issued) := h.finishMagazineRefill bd c tcacheCap
    return (h, some issued)
  else if (h.tcache c).mayTick then return (← h.depotSegmentTick bd env c, none)
  else return (h, none)

/-- `refill_magazine_slow`; 0 is the null pointer. -/
def refillMagazineSlow (bd : Build) (env : Surroundings) (c : ℕ) (h : HeapCore) :
    Option (HeapCore × ℕ) := do
  match ← h.refillFromDepot bd env c with
  | (h, some issued) => return (h, issued)
  | (h, none) =>
      let (h, n, _) ← h.refillWithLargeRescue bd env c
      if n = 0 then return (h, 0) else return h.finishMagazineRefill bd c n

/-- A refill after the magazine missed, keeping which of its blocks are still zero. -/
def refillMagazineSlowVirgin (bd : Build) (env : Surroundings) (c : ℕ) (h : HeapCore) :
    Option (HeapCore × ℕ × Bool) := do
  match ← h.refillFromDepot bd env c with
  | (h, some issued) => return (h, issued, false)
  | (h, none) =>
      let (h, n, mask) ← h.refillWithLargeRescue bd env c
      if n = 0 then return (h, 0, false)
      else
        let h := h.setClass c { h.tcache c with virginMask := mask &&& (virginBit (n - 1) - 1) }
        let (h, issued) := h.finishMagazineRefill bd c n
        return (h, issued, decide (mask &&& virginBit (n - 1) ≠ 0))

/-- The steady reload of `refill_magazine_miss`. -/
def reloadSimple (bd : Build) (c : ℕ) (h : HeapCore) : Option HeapCore :=
  if c < bd.sizes.depotClasses ∧ depotK c ≠ 0 then
    h.depot.bind fun d =>
      let k := h.tcache c
      if k.parked ≠ 0 then
        (d.reload c k.parked).map fun r =>
          h.setClass c { k with parked := r.1, slots := r.2, virginMask := 0 }
      else if k.ovf ≠ 0 then
        (d.ovf.reloadSimple bd.sizes c).map fun r =>
          (h.setOvf d r.1).setClass c
            { k with slots := r.2.1, ovf := if r.2.2 then 1 else 0, virginMask := 0 }
      else none
  else none

/-- A refill after the magazine missed: the simple reload, else the general path. -/
def refillMagazineMiss (bd : Build) (env : Surroundings) (c : ℕ) (h : HeapCore) :
    Option (HeapCore × ℕ) :=
  match h.reloadSimple bd c with
  | some h => some (h.finishMagazineRefill bd c tcacheCap)
  | none => h.refillMagazineSlow bd env c

/-- `alloc` for a small class. -/
def alloc (bd : Build) (env : Surroundings) (c : ℕ) (h : HeapCore) : Option (HeapCore × ℕ) :=
  if 0 < (h.tcache c).count then
    let (h, issued, _) := h.popMagazine bd c
    some (h, issued)
  else h.refillMagazineMiss bd env c

/-- An allocation that tells whether its block is known to be zero. -/
def allocSmallZeroedViaMagazine (bd : Build) (env : Surroundings) (c : ℕ) (h : HeapCore) :
    Option (HeapCore × ℕ × Bool) :=
  if 0 < (h.tcache c).count then some (h.popMagazine bd c)
  else h.refillMagazineSlowVirgin bd env c

/-- The pops of `alloc_batch`, before their state bytes are written. -/
def popBatch (c : ℕ) : ℕ → HeapCore → HeapCore × List ℕ
  | 0, h => (h, [])
  | want + 1, h =>
      let k := h.tcache c
      if k.count = 0 then (h, [])
      else
        let (h, ps) := popBatch c want (h.setClass c k.pop)
        (h, k.slots (k.count - 1) :: ps)

/-- One refill of `alloc_batch`, issued live. -/
def refillLive (bd : Build) (env : Surroundings) (c want : ℕ) (h : HeapCore) :
    Option (HeapCore × List ℕ) := do
  let (core, es) ← h.core.refill bd env c want .live
  return ({ h with core := core }, issuedPointers es)

/-- The refill of `alloc_batch` under `refill_with_large_rescue`. -/
def refillRest (bd : Build) (env : Surroundings) (c want : ℕ) (h : HeapCore) :
    Option (HeapCore × List ℕ) :=
  if want = 0 then some (h, [])
  else do
    let (h, fresh) ← h.refillLive bd env c want
    if fresh.length ≠ 0 then return (h, fresh) else h.refillLive bd env c want

/-- `alloc_batch` for a small class. -/
def allocBatch (bd : Build) (env : Surroundings) (c want : ℕ) (h : HeapCore) :
    Option (HeapCore × List ℕ) := do
  let (h, popped) := h.popBatch c want
  let (h, fresh) ← h.refillRest bd env c (want - popped.length)
  return (popped.foldl (fun h p => h.clearMagazineOnIssue bd p) h, popped ++ fresh)

/-! ## Own frees -/

/-- LIVE becomes MAG at the freed block. -/
def writeMag (bd : Build) (c block : ℕ) (h : HeapCore) : HeapCore :=
  { h with core := { h.core with world := h.core.world.writeState bd block c .mag } }

/-- `cnt == TCACHE_CAP && depot_may_park(c) && depot_park(c)`: parks a full magazine. -/
def tryPark (bd : Build) (env : Surroundings) (c cnt : ℕ) (h : HeapCore) :
    Option (HeapCore × Bool) :=
  if cnt = tcacheCap ∧ (h.tcache c).mayPark then h.depotPark bd env c else some (h, false)

/-- A free into a full magazine: it parks, or swaps its top, or flushes half. -/
def freeMagazineFull (bd : Build) (env : Surroundings) (c cnt block : ℕ) (h : HeapCore) :
    Option HeapCore := do
  let (h, parked) ← h.tryPark bd env c cnt
  if parked then
    let h := h.writeMag bd c block
    return h.setClass c ((h.tcache c).restart block)
  else if bd.sizes.freeParkCap c < tcacheCap then
    let h ← h.flush bd env c [(h.tcache c).slots (cnt - 1)]
    return (h.setClass c ((h.tcache c).swapTop block)).writeMag bd c block
  else
    let h ← h.flush bd env c ((h.tcache c).slots.list flushN)
    return (h.writeMag bd c block).setClass c ((h.tcache c).shiftPush block)

/-- The steady park of `free_magazine_park`. The floor arm sets the mark also when it fails. -/
def parkSimple (bd : Build) (c : ℕ) (d : Depot) (h : HeapCore) : HeapCore × Bool :=
  let k := h.tcache c
  if k.mayPark then
    if k.parked < depotK c then
      match d.park c k.parked k.slots with
      | some (d, parked) => ({ h with depot := some d }.setClass c
          { k with parked := parked, marks := k.marks ||| markFloor }, true)
      | none => (h.setClass c { k with marks := k.marks ||| markFloor }, false)
    else
      match d.ovf.parkSimple bd.sizes c k.slots h.depotBudget with
      | some ovf => ((h.setOvf d ovf).setClass c { k with ovf := 1 }, true)
      | none => (h, false)
  else (h, false)

/-- A free into a full magazine when the simple park is enough, else the general one. -/
def freeMagazinePark (bd : Build) (env : Surroundings) (c cnt block : ℕ) (h : HeapCore) :
    Option HeapCore :=
  let (h, parked) :=
    if cnt = tcacheCap ∧ c < bd.sizes.depotClasses ∧ depotK c ≠ 0 then
      match h.depot with
      | none => (h, false)
      | some d => h.parkSimple bd c d
    else (h, false)
  if parked then
    let h := h.setClass c ({ h.tcache c with virginMask := 0 }.restart block)
    some (h.writeMag bd c block)
  else h.freeMagazineFull bd env c cnt block

/-- `dealloc_own_thread_with_base` once the guard has accepted the block. -/
def pushFreed (bd : Build) (env : Surroundings) (c block : ℕ) (h : HeapCore) : Option HeapCore :=
  let k := h.tcache c
  if k.count < bd.sizes.freeParkCap c then
    some ((h.writeMag bd c block).setClass c (k.push block))
  else h.freeMagazinePark bd env c k.count block

/-- `dealloc_own_thread_with_base` for a block of a small segment; `none` is an abort. -/
def deallocOwn (bd : Build) (env : Surroundings) (c block : ℕ) (h : HeapCore) : Option HeapCore := do
  let root := segmentBaseOfPtr block
  let s := h.core.world.heap.segs root
  match ← smallFreeGuard bd s.kind.header false s (block - root) c with
  | .accept => h.pushFreed bd env c block
  | _ => return h

/-! ## The full flush -/

/-- The magazine goes back to the core. -/
def flushMagazine (bd : Build) (env : Surroundings) (c : ℕ) (h : HeapCore) : Option HeapCore :=
  let k := h.tcache c
  if k.count = 0 then some h
  else do
    let h ← h.flush bd env c (k.slots.list k.count)
    return h.setClass c k.emptied

/-- The loop of `flush_all_tcache` for one class. It ends after the rows of the class; `none`
also stands for a loop that goes on after them. -/
def drainClass (bd : Build) (env : Surroundings) (c : ℕ) : ℕ → HeapCore → Option HeapCore
  | 0, _ => none
  | rows + 1, h => do
      let h ← h.flushMagazine bd env c
      match h.depotReload bd c with
      | (h, true) => drainClass bd env c rows h
      | (h, false) => return h

/-- The rows of a class in the depot. -/
def depotRows (h : HeapCore) (c : ℕ) : ℕ :=
  (h.tcache c).parked + (h.depot.map fun d => d.ovf.len c).getD 0

/-- Takes every tick mark off and gives the overflow's pages back. -/
def depotReleaseOverflowPages (bd : Build) (h : HeapCore) : HeapCore :=
  match h.depot with
  | none => h
  | some d =>
      let h := { h with tcache := fun c =>
        if c < bd.sizes.count
        then { h.tcache c with marks := (h.tcache c).marks &&& ~~~markTick } else h.tcache c }
      h.reopenUnstarved bd { d with ovf := d.ovf.releasePages.disarmAll }

/-- `flush_all_tcache` for one class. -/
def emptyClass (bd : Build) (env : Surroundings) (h : HeapCore) (c : ℕ) : Option HeapCore := do
  let h ← h.drainClass bd env c (h.depotRows c + 1)
  return h.setClass c { h.tcache c with marks := (h.tcache c).marks &&& ~~~markFloor }

/-- Empties every magazine and everything parked back into the core. -/
def flushAllTcache (bd : Build) (env : Surroundings) (h : HeapCore) : Option HeapCore := do
  let h ← (List.range bd.sizes.count).foldlM (emptyClass bd env) h
  return h.depotReleaseOverflowPages bd

/-- Hands a depot to the heap: every class is opened to its limit, no mark is set. -/
def bindDepot (bd : Build) (d : Depot) (h : HeapCore) : HeapCore :=
  { h with
    depot := some { d with ovf := d.ovf.disarmAll }
    tcache := fun c =>
      if c < bd.sizes.count
      then { h.tcache c with limit := openLimit bd.sizes c h.depotBudget, marks := 0 }
      else h.tcache c }

/-- A new heap over a primordial segment. -/
def new (bd : Build) (base budget : ℕ) : HeapCore where
  core := ⟨World.init bd base, 0, fun _ => 0, fun _ => 0⟩
  tcache := Tcache.new bd.sizes
  depot := none
  depotBudget := budget

end HeapCore

end Small

end SeferAlloc
