import Mathlib.Data.Nat.Log
import SeferAlloc.ActiveKindIndex

/-!
# The segment table

The registry of live segments: a slot array with a high-water mark, the hash of
payload keys, a stack of recycled slot ids, the active-kind index, the owner
lookup cache and, on a routed heap, one route handle per slot. Segment headers
are read through a memory `ℕ → SegmentHeader`. An abort of the source is the
outcome `none`.
-/
namespace SeferAlloc

/-- The header fields the table reads at a segment base. -/
structure SegmentHeader where
  segmentId : ℕ
  kind : SegmentKind
  payloadOffset : ℕ
  reservation : ℕ
  reservationLen : ℕ

/-- A route registration held by the owner. -/
structure Route where
  root : ℕ
  payload : ℕ
  slot : ℕ
  incarnation : ℕ

/-- `RouteSlots`: entries at or beyond `cap` do not exist. -/
structure RouteSlots where
  slots : ℕ → Option Route
  cap : ℕ
  owner : ℕ

/-- What lies outside the table in `RouteSlots::prepare`: whether the system
allocator serves a growth, and the incarnation of a successful directory
registration. -/
structure PrepareOracle where
  sysAlloc : Bool
  incarnation : Option ℕ

namespace RouteSlots

def ensureCapacity (rs : RouteSlots) (needed : ℕ) (o : PrepareOracle) : Option RouteSlots :=
  if needed ≤ rs.cap then some rs
  else
    let cap := max (2 ^ Nat.clog 2 needed) 8
    if maxSegments < cap then none
    else if o.sysAlloc then some { rs with cap := cap }
    else none

/-- The growth survives a registration that fails afterwards. -/
def prepare (rs : RouteSlots) (needed base : ℕ) (kind : SegmentKind) (payload slot : ℕ)
    (o : PrepareOracle) : RouteSlots × Option Route :=
  match rs.ensureCapacity needed o with
  | none => (rs, none)
  | some rs =>
      if kind = .unknown then (rs, none)
      else (rs, o.incarnation.map fun n => ⟨base, payload, slot, n⟩)

def put (rs : RouteSlots) (index : ℕ) (route : Route) : Option RouteSlots :=
  if rs.cap ≤ index then none
  else if (rs.slots index).isSome then none
  else some { rs with slots := Function.update rs.slots index (some route) }

def remove (rs : RouteSlots) (index : ℕ) : Option RouteSlots :=
  if rs.cap ≤ index then none
  else if (rs.slots index).isNone then none
  else some { rs with slots := Function.update rs.slots index none }

def new (owner primordial : ℕ) (o : PrepareOracle) : Option RouteSlots :=
  match (RouteSlots.mk (fun _ => none) 0 owner).prepare 1 primordial .primordial primordial 0 o with
  | (_, none) => none
  | (rs, some route) => rs.put 0 route

end RouteSlots

/-- The lines of the lookup cache. -/
def ownCacheSize : ℕ := 16

/-- `OWN_CACHE_EMPTY_KEY` and `LAST_EMPTY_KEY`: `usize::MAX`. -/
def emptyKey : ℕ := 2 ^ 64 - 1

structure SegmentTable where
  routes : Option RouteSlots
  slots : ℕ → ℕ
  activeKind : ActiveKindIndex
  ownCache : ℕ → ℕ × ℕ
  lastKey : ℕ
  lastRoot : ℕ
  count : ℕ
  hashSlots : HashSlots
  freeList : ℕ → ℕ
  freeTop : ℕ

namespace SegmentTable

def baseAt (t : SegmentTable) (i : ℕ) : ℕ := if t.count ≤ i then 0 else t.slots i

def freeListPush (t : SegmentTable) (idx : ℕ) : SegmentTable :=
  { t with freeList := Function.update t.freeList t.freeTop idx, freeTop := t.freeTop + 1 }

def freeListPop (t : SegmentTable) : Option ℕ × SegmentTable :=
  if t.freeTop = 0 then (none, t)
  else (some (t.freeList (t.freeTop - 1)), { t with freeTop := t.freeTop - 1 })

def nextRegisterSlot (t : SegmentTable) (hasFree : Bool) : ℕ :=
  if hasFree then t.freeList (t.freeTop - 1) else t.count

def ownCacheClear (t : SegmentTable) (base : ℕ) : SegmentTable :=
  { t with
    ownCache := fun i =>
      if i < ownCacheSize ∧ (t.ownCache i).2 = base then (emptyKey, 0) else t.ownCache i
    lastKey := if t.lastRoot = base then emptyKey else t.lastKey
    lastRoot := if t.lastRoot = base then 0 else t.lastRoot }

/-- The route of a registration: `(t, none)` when it cannot be prepared, and
`some none` on a standalone table. -/
def prepareRoute (t : SegmentTable) (needed base : ℕ) (kind : SegmentKind) (payload target : ℕ)
    (o : PrepareOracle) : SegmentTable × Option (Option Route) :=
  match t.routes with
  | none => (t, some none)
  | some rs =>
      let p := rs.prepare needed base kind payload target o
      ({ t with routes := some p.1 }, p.2.map some)

def putRoute (t : SegmentTable) (index : ℕ) (route : Option Route) : Option SegmentTable :=
  match route, t.routes with
  | none, _ => some t
  | some _, none => none
  | some r, some rs => (rs.put index r).map fun rs => { t with routes := some rs }

def removeRoute (t : SegmentTable) (index : ℕ) : Option SegmentTable :=
  match t.routes with
  | none => some t
  | some rs => (rs.remove index).map fun rs => { t with routes := some rs }

/-- The tail both arms of `register_payload` share, after the slot is written. -/
def finishRegister (t : SegmentTable) (i key : ℕ) (route : Option Route) (kind : SegmentKind) :
    Option SegmentTable := do
  let hash ← hashInsertIdentity t.hashSlots key i
  let t ← putRoute { t with hashSlots := hash } i route
  let active ← t.activeKind.set i kind
  return { t with activeKind := active }

def registerPayload (t : SegmentTable) (base : ℕ) (kind : SegmentKind) (payload : ℕ)
    (o : PrepareOracle) : Option (Option ℕ × SegmentTable) :=
  if kind ≠ .small ∧ kind ≠ .large then some (none, t)
  else
    let key := segmentBaseOfPtr payload
    let hasFree : Bool := decide (t.freeTop ≠ 0)
    if hasFree = false ∧ maxSegments ≤ t.count then some (none, t)
    else
      let target := t.nextRegisterSlot hasFree
      let needed := t.count + (!hasFree).toNat
      match t.prepareRoute needed base kind payload target o with
      | (t, none) => some (none, t)
      | (t, some route) =>
          match t.freeListPop with
          | (some i, t) =>
              (finishRegister { t with slots := Function.update t.slots i base } i key route
                kind).map fun t => (some i, t)
          | (none, t) =>
              let idx := t.count
              if maxSegments ≤ idx then some (none, t)
              else
                (finishRegister
                  { t with slots := Function.update t.slots idx base, count := t.count + 1 }
                  idx key route kind).map fun t => (some idx, t)

/-- First slot below `count` that holds `base`. -/
def scanSlot (t : SegmentTable) (base : ℕ) : Option ℕ :=
  (List.range t.count).find? fun i => t.baseAt i == base

/-- The slot `unregister` works on: `none` aborts, `some none` returns. -/
def unregisterSlot (t : SegmentTable) (mem : ℕ → SegmentHeader) (base : ℕ) : Option (Option ℕ) :=
  let id := (mem base).segmentId
  if t.baseAt id = base then some (some id)
  else if t.routes.isSome then (t.scanSlot base).map some
  else some none

def unregister (t : SegmentTable) (mem : ℕ → SegmentHeader) (base : ℕ) : Option SegmentTable := do
  match ← t.unregisterSlot mem base with
  | none => return t
  | some slotId =>
      let header := mem base
      let key := segmentBaseOfPtr (base + header.payloadOffset)
      let t ← t.removeRoute slotId
      let active ← t.activeKind.clear slotId header.kind
      let t := { t with activeKind := active, slots := Function.update t.slots slotId 0 }
      let hash ← hashRemove t.hashSlots key
      let t := ({ t with hashSlots := hash } : SegmentTable).ownCacheClear base
      return t.freeListPush slotId

/-- `recycle` also returns the reservation it released to the OS, if any. -/
def recycle (t : SegmentTable) (mem : ℕ → SegmentHeader) (base : ℕ) :
    Option (SegmentTable × Option (ℕ × ℕ)) := do
  match ← hashFind t.baseAt t.hashSlots base with
  | none => return (t, none)
  | some _ =>
      let hdr := mem base
      let slotId := if t.baseAt hdr.segmentId = base then some hdr.segmentId else t.scanSlot base
      match slotId with
      | none => return (t, none)
      | some slotId =>
          let t ← t.removeRoute slotId
          let active ← t.activeKind.clear slotId hdr.kind
          let hash ← hashRemove t.hashSlots base
          let t := ({ t with activeKind := active, hashSlots := hash } : SegmentTable).ownCacheClear
            base
          let t := { t with slots := Function.update t.slots slotId 0 }
          return (t.freeListPush slotId, some (hdr.reservation, hdr.reservationLen))

/-- The hash array the bootstrap lays down: one identity for the primordial. -/
def bootstrapHash (base : ℕ) : HashSlots :=
  Function.update (fun _ => 0) (hashIndex base) (base ||| 1)

/-- `from_primordial` over the arrays laid down by the bootstrap. -/
def fromPrimordial (base : ℕ) : Option SegmentTable := do
  let active ← ActiveKindIndex.initInPlace
  return { routes := none, slots := Function.update (fun _ => 0) 0 base, activeKind := active
           ownCache := fun _ => (emptyKey, 0), lastKey := emptyKey, lastRoot := 0, count := 1
           hashSlots := bootstrapHash base, freeList := fun _ => 0, freeTop := 0 }

def attachOwner (t : SegmentTable) (owner primordial : ℕ) (o : PrepareOracle) :
    Option SegmentTable :=
  if t.routes.isSome ∨ t.count ≠ 1 ∨ t.baseAt 0 ≠ primordial then none
  else (RouteSlots.new owner primordial o).map fun rs => { t with routes := some rs }

end SegmentTable

end SeferAlloc
