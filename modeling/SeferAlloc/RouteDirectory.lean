import SeferAlloc.LargeReservation
import SeferAlloc.RefCounting
import SeferAlloc.SegmentIngress

/-!
# The route directory and the pin cache

Foreign frees reach a segment through its route: a descriptor with a sidecar,
counted by the registration of its owner and by the pins of the other threads.
The shards of the directory are one map from keys to descriptors, and what is
done under a shard lock is one action. Every thread keeps pins of its own in a
small direct-mapped cache. A descriptor is named by the order of its creation,
so an address that is registered again has a new name. An abort of the source
is the location `fatal`.
-/
namespace SeferAlloc
namespace Routes
open BitWord Interleaving

/-- The kind of segment a route leads to. -/
inductive RouteKind where
  | small
  | primordial
  | large
deriving DecidableEq

/-- The immutable fields of an `Entry`; `stop` is its `end`. -/
structure Route where
  key : ℕ
  stop : ℕ
  payload : ℕ
  owner : ℕ
  kind : RouteKind
  incarnation : ℕ
  slot : ℕ

/-- `span_contains_addr`, and the same test in `lookup`. -/
def Route.contains (x : Route) (addr : ℕ) : Bool :=
  decide (x.payload ≤ addr) && decide (addr < x.stop) &&
    (decide (x.kind ≠ .large) || decide (x.payload = addr))

/-- The owner id of the fallback heap. -/
def ownerIdFallback : ℕ := 2147483646

/-- The slots an ingress has a bit for. -/
def ingressCells : ℕ := 4096

/-- The pin of a route that `publish_foreign_uncached` gives to the cache. -/
def Route.cacheable (x : Route) : Bool :=
  decide (x.kind ≠ .large) && decide (x.owner ≠ ownerIdFallback)

/-- A descriptor with its sidecar. `indexed` records that it has been in the directory, `freed`
how often it was freed. -/
structure Entry where
  route : Route
  refs : ℕ
  linked : Bool
  sidecar : Sidecar.Bitmap
  large : Word
  state : Ingress.State
  indexed : Bool
  freed : ℕ

/-- `EntryHandle::new`: the handle it returns is the first reference. -/
def Entry.new (x : Route) : Entry where
  route := x
  refs := 1
  linked := true
  sidecar := .new
  large := LargeReservation.pack .live 1
  state := .new (decide (x.kind ≠ .large) && decide (x.slot ≠ 2 ^ 32 - 1) &&
    decide (x.owner < ingressCells))
  indexed := false
  freed := 0

/-- The two levels of bits that announce a heap's routes. -/
structure HeapIngress where
  summary : Word
  mask : ℕ → Word

/-- The directory, the descriptors, and the other shared cells the threads use. -/
structure Shared where
  entries : ℕ → Entry
  fresh : ℕ
  directory : ℕ → Option ℕ
  nextIncarnation : ℕ
  ingress : ℕ → HeapIngress
  configuredSlots : ℕ
  exiting : Bool
  foreignOrUnroutableFrees : ℕ

def Shared.new : Shared where
  entries := fun _ => { Entry.new ⟨0, 0, 0, 0, .small, 0, 0⟩ with refs := 0 }
  fresh := 0
  directory := fun _ => none
  nextIncarnation := 0
  ingress := fun _ => ⟨0, fun _ => 0⟩
  configuredSlots := 0
  exiting := false
  foreignOrUnroutableFrees := 0

namespace Shared

def modify (r : Shared) (ρ : ℕ) (f : Entry → Entry) : Shared :=
  { r with entries := Function.update r.entries ρ (f (r.entries ρ)) }

/-- What `lookup` finds for an address under the shard lock. -/
def find (r : Shared) (addr : ℕ) : Option ℕ :=
  match r.directory (segmentBaseOfPtr addr) with
  | none => none
  | some ρ => if (r.entries ρ).route.contains addr then some ρ else none

/-- One more reference to the route. -/
def pin (r : Shared) (ρ : ℕ) : Shared := r.modify ρ fun x => { x with refs := x.refs + 1 }

/-- The `fetch_sub` of `EntryHandle::drop`. -/
def unpin (r : Shared) (ρ : ℕ) : Shared := r.modify ρ fun x => { x with refs := x.refs - 1 }

/-- The rest of `EntryHandle::drop`, for the last reference. -/
def free (r : Shared) (ρ : ℕ) : Shared := r.modify ρ fun x => { x with freed := x.freed + 1 }

def create (r : Shared) (x : Route) : Shared :=
  { r with entries := Function.update r.entries r.fresh (.new x), fresh := r.fresh + 1 }

def insert (r : Shared) (ρ : ℕ) : Shared :=
  { r.modify ρ fun x => { x with indexed := true } with
    directory := Function.update r.directory (r.entries ρ).route.key (some ρ) }

def unlink (r : Shared) (ρ : ℕ) : Shared :=
  { r.modify ρ fun x => { x with linked := false } with
    directory := Function.update r.directory (r.entries ρ).route.key none }

/-- The slots a pin cache starts with: the configured number if it is a usable power of two. -/
def initialSlots (r : Shared) : ℕ :=
  if r.configuredSlots &&& (r.configuredSlots - 1) = 0 ∧ 4 ≤ r.configuredSlots ∧
      r.configuredSlots ≤ 64 then r.configuredSlots
  else 32

end Shared

/-! ## The pin cache of a thread -/

/-- The most slots a pin cache has. -/
def pinCacheMaxSlots : ℕ := 64

/-- The slots one miss sweeps. -/
def sweepBudget : ℕ := 4

/-- A cached pin with the base and incarnation it was taken for. -/
structure PinCacheSlot where
  base : ℕ
  incarnation : ℕ
  pin : Option ℕ

/-- The pins of one thread and the cursor of its sweep. -/
structure PinCache where
  mask : ℕ
  sweepCursor : ℕ
  slots : Fin pinCacheMaxSlots → PinCacheSlot

/-- A pin cache that was never used. -/
def PinCache.empty : PinCache := ⟨0, 0, fun _ => ⟨0, 0, none⟩⟩

/-- The masking `i & (PIN_CACHE_MAX_SLOTS - 1)`. -/
def slotAt (i : ℕ) : Fin pinCacheMaxSlots :=
  ⟨i &&& (pinCacheMaxSlots - 1), lt_of_le_of_lt Nat.and_le_right (by decide)⟩

/-- The slot of a segment's base under the mask. -/
def slotIndex (base mask : ℕ) : Fin pinCacheMaxSlots := slotAt ((base / segment) &&& mask)

def PinCache.setSlot (c : PinCache) (i : Fin pinCacheMaxSlots) (s : PinCacheSlot) : PinCache :=
  { c with slots := Function.update c.slots i s }

/-- `slot.pin = None`; the pin is dropped by the caller. -/
def PinCache.vacate (c : PinCache) (i : Fin pinCacheMaxSlots) : PinCache :=
  c.setSlot i { c.slots i with pin := none }

/-! ## Threads -/

/-- What becomes of the pin after a small publication: it stays in its slot of the cache, it
goes to the cache, or it is dropped. -/
inductive After where
  | borrowed
  | insert
  | drop
deriving DecidableEq

inductive Loc where
  | idle
  -- `publish_cached`
  | probe (addr : ℕ)
  | checkLinked (addr : ℕ) (i : Fin pinCacheMaxSlots)
  -- `publish_foreign_uncached`
  | lookup (addr : ℕ)
  | found (ρ addr : ℕ)
  -- `publish_small_borrowed`
  | publish (ρ addr : ℕ) (a : After)
  | setBit (ρ addr g : ℕ) (a : After)
  | loadState (ρ : ℕ) (a : After)
  | casState (ρ : ℕ) (a : After)
  | maskOr (ρ : ℕ) (a : After)
  | summaryOr (ρ : ℕ) (a : After)
  -- `publish_large`
  | largeLoad (ρ : ℕ)
  | largeCas (ρ generation : ℕ)
  | returned (published : Bool)
  -- `sweep_dead_slots`, `cache_insert`, `cache_evict`
  | sweep (left budget : ℕ) (next : Loc)
  | insert (ρ base incarnation : ℕ) (next : Loc)
  | store (ρ base incarnation : ℕ) (next : Loc)
  | evict (base : ℕ) (next : Loc)
  -- `EntryHandle::drop`
  | release (ρ : ℕ) (next : Loc)
  | freeing (ρ : ℕ) (next : Loc)
  -- `PinCache::drop`
  | dropCache (i : ℕ)
  -- `register_route`, `RouteRegistration::drop`
  | create (x : Route)
  | index (ρ : ℕ)
  | grow (ρ : ℕ)
  | remove (ρ : ℕ)
  | fatal (l : Loc)

/-- A record of the call in progress: the route its address had when it began, and what it
settled on: a pin, or that no pin was found. -/
structure Call where
  addr : ℕ
  route : Option ℕ
  outcome : Option (Option ℕ)

/-- A thread with its cache, its registrations and the pins it has in hand. The registration
whose removal was given up at process exit is never dropped. -/
structure Thread where
  cache : PinCache
  alive : Bool
  regs : List ℕ
  leaked : List ℕ
  hand : List ℕ
  call : Option Call
  loc : Loc

def Thread.new : Thread := ⟨.empty, true, [], [], [], none, .idle⟩

namespace Thread

def goto (t : Thread) (l : Loc) : Thread := { t with loc := l }

/-- The call has settled on a pin, or on none. -/
def settle (t : Thread) (o : Option ℕ) : Thread :=
  { t with call := t.call.map fun c => { c with outcome := some o } }

def vacate (t : Thread) (i : Fin pinCacheMaxSlots) : Thread :=
  { t with cache := t.cache.vacate i }

end Thread

inductive Command where
  | publishForeign (addr : ℕ)
  | lookup (addr : ℕ)
  | drop (ρ : ℕ)
  | insert (ρ : ℕ)
  | evict (base : ℕ)
  | exitThread
  | register (start len routeAddr owner : ℕ) (kind : RouteKind) (slot : ℕ)
  | unregister (ρ : ℕ)
  | own (ρ : ℕ) (sidecar : Sidecar.Bitmap) (large : Word) (state : Ingress.State)
  | publishConfiguredSlots (slots : ℕ)
  | beginExit
  | next

/-- The command of an idle thread, and how the environment answers: the system allocator
refuses, a shard lock is given up at process exit, a shard needs room, the fallback heap takes
the block, the cache is borrowed already. -/
structure Choice where
  command : Command
  refused : Bool
  gaveUp : Bool
  need : Bool
  fallback : Bool
  busy : Bool

/-- The span checks of `register_route`. -/
def validSpan (page start len routeAddr : ℕ) (kind : RouteKind) : Bool :=
  decide (start + len < 2 ^ 64) && decide (start ≠ 0) && decide (start % page = 0) &&
    decide (len ≠ 0) && decide (start ≤ routeAddr) && decide (routeAddr < start + len) &&
    (decide (kind = .large) || (decide (len = segment) && decide (start % segment = 0)))

/-- What follows a small publication. -/
def After.finish (r : Shared) (ρ : ℕ) (published : Bool) : After → Loc
  | .borrowed => .returned published
  | .insert => .insert ρ (r.entries ρ).route.key (r.entries ρ).route.incarnation (.returned published)
  | .drop => .release ρ (.returned published)

/-- A command of an idle thread. -/
def start (page : ℕ) (e : Choice) (r : Shared) (t : Thread) : Shared × Thread :=
  match e.command with
  | .publishForeign addr =>
      if addr = 0 then (r, t)
      else (r, { t with
        call := some ⟨addr, r.directory (segmentBaseOfPtr addr), none⟩
        loc := .probe addr })
  | .lookup addr =>
      match r.find addr with
      | none => (r, t)
      | some ρ =>
          if r.exiting ∧ e.gaveUp then (r, t)
          else if 2 ^ 64 ≤ (r.entries ρ).refs + 1 then (r, t.goto (.fatal .idle))
          else (r.pin ρ, { t with hand := ρ :: t.hand })
  | .drop ρ =>
      if ρ ∈ t.hand then (r, { t with hand := t.hand.erase ρ, loc := .release ρ .idle }) else (r, t)
  | .insert ρ =>
      let x := (r.entries ρ).route
      if ρ ∈ t.hand ∧ x.cacheable then
        (r, { t with hand := t.hand.erase ρ, loc := .insert ρ x.key x.incarnation .idle })
      else (r, t)
  | .evict base => (r, t.goto (.evict base .idle))
  | .exitThread => if t.alive then (r, { t with alive := false, loc := .dropCache 0 }) else (r, t)
  | .register start len routeAddr owner kind slot =>
      if validSpan page start len routeAddr kind ∧ r.nextIncarnation + 1 < 2 ^ 64 then
        ({ r with nextIncarnation := r.nextIncarnation + 1 },
          t.goto (.create ⟨segmentBaseOfPtr routeAddr, start + len, routeAddr, owner, kind,
            r.nextIncarnation + 1, slot⟩))
      else (r, t)
  | .unregister ρ =>
      if ρ ∈ t.regs then (r, { t with regs := t.regs.erase ρ, loc := .remove ρ }) else (r, t)
  -- The owner's other work on a route of its own is not restricted.
  | .own ρ sidecar large state =>
      if ρ ∈ t.regs then
        (r.modify ρ fun x => { x with sidecar := sidecar, large := large, state := state }, t)
      else (r, t)
  | .publishConfiguredSlots slots =>
      if r.configuredSlots = 0 then ({ r with configuredSlots := slots % 256 }, t) else (r, t)
  | .beginExit => ({ r with exiting := true }, t)
  | .next => (r, t)

/-- One atomic action of a thread. -/
def act (bd : Sidecar.Build) (page : ℕ) (e : Choice) (r : Shared) (t : Thread) : Shared × Thread :=
  match t.loc with
  | .idle => start page e r t
  | .probe addr =>
      if t.alive ∧ ¬e.busy then
        let base := segmentBaseOfPtr addr
        let i := slotIndex base t.cache.mask
        if (t.cache.slots i).pin.isSome ∧ (t.cache.slots i).base = base then
          (r, t.goto (.checkLinked addr i))
        else (r, t.goto (.sweep (t.cache.mask + 1) sweepBudget (.lookup addr)))
      else (r, t.goto (.lookup addr))
  | .checkLinked addr i =>
      match (t.cache.slots i).pin with
      | none => (r, t.goto (.lookup addr))
      | some ρ =>
          if (r.entries ρ).linked = false then
            (r, (t.vacate i).goto (.release ρ (.lookup addr)))
          else if (r.entries ρ).route.incarnation ≠ (t.cache.slots i).incarnation then
            (r, (t.vacate i).goto (.release ρ (.lookup addr)))
          else if (r.entries ρ).route.contains addr = false then (r, t.goto (.lookup addr))
          else (r, (t.settle (some ρ)).goto (.publish ρ addr .borrowed))
  | .lookup addr =>
      let miss := (t.settle none).goto (.evict (segmentBaseOfPtr addr) (.returned false))
      match r.find addr with
      | none => (r, miss)
      | some ρ =>
          if r.exiting ∧ e.gaveUp then (r, miss)
          else if 2 ^ 64 ≤ (r.entries ρ).refs + 1 then (r, t.goto (.fatal t.loc))
          else (r.pin ρ, (t.settle (some ρ)).goto (.found ρ addr))
  | .found ρ addr =>
      let x := (r.entries ρ).route
      -- The fallback heap frees the block itself; `try_with_heap` may be refused.
      if x.owner = ownerIdFallback ∧ e.fallback then (r, t.goto (.release ρ (.returned true)))
      else if x.kind = .large then (r, t.goto (.largeLoad ρ))
      else (r, t.goto (.publish ρ addr (if x.owner = ownerIdFallback then .drop else .insert)))
  | .publish ρ addr a =>
      let x := r.entries ρ
      if x.route.kind = .large then (r, t.goto (a.finish r ρ false))
      else
        match x.sidecar.publishTarget bd (addr - segmentBaseOfPtr addr) with
        | none => (r, t.goto (a.finish r ρ false))
        | some g => (r, t.goto (.setBit ρ addr g a))
  | .setBit ρ _ g a =>
      (r.modify ρ fun x => { x with sidecar := x.sidecar.setPending g }, t.goto (.loadState ρ a))
  | .loadState ρ a =>
      (r, t.goto (if (r.entries ρ).state = .armed then .casState ρ a else a.finish r ρ true))
  | .casState ρ a =>
      if (r.entries ρ).state = .armed then
        (r.modify ρ fun x => { x with state := .notified },
          t.goto (if (r.entries ρ).route.owner < ingressCells then .maskOr ρ a else .fatal t.loc))
      else (r, t.goto (a.finish r ρ true))
  | .maskOr ρ a =>
      let x := (r.entries ρ).route
      let h := r.ingress x.owner
      ({ r with ingress := Function.update r.ingress x.owner { h with
          mask := Function.update h.mask (x.slot / 64) (h.mask (x.slot / 64) ||| bit (x.slot % 64)) } },
        t.goto (.summaryOr ρ a))
  | .summaryOr ρ a =>
      let x := (r.entries ρ).route
      let h := r.ingress x.owner
      ({ r with ingress := Function.update r.ingress x.owner { h with
          summary := h.summary ||| bit (x.slot / 64) } }, t.goto (a.finish r ρ true))
  | .largeLoad ρ => (r, t.goto (.largeCas ρ (LargeReservation.largeGeneration (r.entries ρ).large)))
  | .largeCas ρ generation =>
      if (r.entries ρ).large = LargeReservation.pack .live generation then
        (r.modify ρ fun x => { x with large := LargeReservation.pack .pending generation },
          t.goto (.release ρ (.returned true)))
      else (r, t.goto (.release ρ (.returned false)))
  | .returned published =>
      ({ r with foreignOrUnroutableFrees :=
          r.foreignOrUnroutableFrees + if published then 0 else 1 },
        { t with call := none, loc := .idle })
  | .sweep left budget next =>
      if left = 0 ∨ budget = 0 then (r, t.goto next)
      else
        let i := t.cache.sweepCursor &&& t.cache.mask
        let t := { t with cache := { t.cache with sweepCursor := (i + 1) &&& t.cache.mask } }
        match (t.cache.slots (slotAt i)).pin with
        | none => (r, t.goto (.sweep (left - 1) budget next))
        | some ρ =>
            if (r.entries ρ).linked then (r, t.goto (.sweep (left - 1) (budget - 1) next))
            else (r, (t.vacate (slotAt i)).goto (.release ρ (.sweep (left - 1) (budget - 1) next)))
  | .insert ρ base incarnation next =>
      if t.alive ∧ ¬e.busy then
        let mask := if t.cache.mask = 0 then r.initialSlots - 1 else t.cache.mask
        (r, { t with
          cache := { t.cache with mask := mask }
          loc := .sweep (mask + 1) sweepBudget (.store ρ base incarnation next) })
      else (r, t.goto (.release ρ next))
  | .store ρ base incarnation next =>
      let i := slotIndex base t.cache.mask
      match (t.cache.slots i).pin with
      | some old => (r, (t.vacate i).goto (.release old t.loc))
      | none =>
          (r, { t with cache := t.cache.setSlot i ⟨base, incarnation, some ρ⟩, loc := next })
  | .evict base next =>
      let i := slotIndex base t.cache.mask
      match (t.cache.slots i).pin with
      | none => (r, t.goto next)
      | some ρ =>
          if t.alive ∧ ¬e.busy ∧ (t.cache.slots i).base = base then
            (r, (t.vacate i).goto (.release ρ next))
          else (r, t.goto next)
  | .release ρ next =>
      (r.unpin ρ, t.goto (if (r.entries ρ).refs = 1 then .freeing ρ next else next))
  | .freeing ρ next => (r.free ρ, t.goto next)
  | .dropCache i =>
      if i < pinCacheMaxSlots then
        match (t.cache.slots (slotAt i)).pin with
        | none => (r, t.goto (.dropCache (i + 1)))
        | some ρ => (r, (t.vacate (slotAt i)).goto (.release ρ (.dropCache (i + 1))))
      else (r, t.goto .idle)
  | .create x => if e.refused then (r, t.goto .idle) else (r.create x, t.goto (.index r.fresh))
  | .index ρ =>
      if r.exiting ∧ e.gaveUp then (r, t.goto (.release ρ .idle))
      else
        match r.directory (r.entries ρ).route.key with
        | some _ => (r, t.goto (.release ρ .idle))
        | none =>
            if e.need then (r, t.goto (.grow ρ))
            else (r.insert ρ, { t with regs := ρ :: t.regs, loc := .idle })
  -- The block and the index of the shard are allocated outside the lock and installed under it.
  | .grow ρ =>
      if e.refused ∨ (r.exiting ∧ e.gaveUp) then (r, t.goto (.release ρ .idle))
      else (r, t.goto (.index ρ))
  | .remove ρ =>
      if r.exiting ∧ e.gaveUp then (r, { t with leaked := ρ :: t.leaked, loc := .idle })
      else if r.directory (r.entries ρ).route.key = some ρ then
        (r.unlink ρ, t.goto (.release ρ .idle))
      else (r, t.goto (.fatal t.loc))
  | .fatal _ => (r, t)

end Routes
end SeferAlloc
