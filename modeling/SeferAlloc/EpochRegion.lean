import SeferAlloc.Interleaving
import Mathlib.Data.List.Nodup
import Mathlib.Algebra.Order.BigOperators.Group.Finset

/-!
# The epoch region

A fixed array of slots, each a generation and a pointer. Inserts and removes of
the owner take the writer mutex; a remote eviction takes a slot away with one
compare-and-swap of its generation and hands its index back over a queue. Reads
take no lock: they load the generation, the pointer and the generation again.
-/
namespace SeferAlloc
namespace Epoch
open Interleaving

/-- A handle names its region, the slot and the slot's generation. -/
@[ext]
structure EpochHandle where
  regionId : ℕ
  index : ℕ
  generation : ℕ
deriving DecidableEq

/-- `u32::MAX`, the generation of a slot that is not used again. -/
def maxGeneration : ℕ := 2 ^ 32 - 1

/-- One slot: its generation and the value in it. -/
structure AtomicSlot (V : Type*) where
  generation : ℕ
  value : Option V

/-- `EpochRegion`: the slots, the `FreeState` of the writer mutex (its free list with the top first),
the queue and its mutex, the hint that the queue is not empty, and the counter. `inserted` and
`removed` are what the calls returned so far: handles with their values, and the handles whose
removal answered true. -/
structure Region (V : Type*) where
  regionId : ℕ
  capacity : ℕ
  slots : ℕ → AtomicSlot V
  locked : Bool
  free : List ℕ
  drainScratch : List ℕ
  queueLocked : Bool
  remoteFree : List ℕ
  remoteFreePending : Bool
  len : ℕ
  inserted : List (EpochHandle × V)
  removed : List EpochHandle

variable {V : Type*}

/-- `with_capacity`, which wants the indices to fit in 32 bits. -/
def withCapacity (V : Type*) (regionId capacity : ℕ) : Option (Region V) :=
  if capacity < 2 ^ 32 then
    some ⟨regionId, capacity, fun _ => ⟨0, none⟩, false, (List.range capacity).reverse, [], false, [],
      false, 0, [], []⟩
  else none

/-- The handles that inserts returned. -/
def Region.handles (r : Region V) : List EpochHandle := r.inserted.map Prod.fst

/-- Where a drain of the queue returns to. -/
inductive After (V : Type*) where
  | insert (value : V) (forced : Bool)
  | remove (h : EpochHandle)

/-- Where a call is. `seen` is what the free list and the queue held at its inspection of the
queue. -/
inductive Frame (V : Type*) where
  | idle
  -- `get_with`
  | firstGeneration (h : EpochHandle)
  | loadValue (h : EpochHandle)
  | secondGeneration (h : EpochHandle) (v : V)
  -- `drain_remote_free`, under the writer mutex
  | hint (k : After V)
  | lockQueue (k : After V)
  | clearHint (k : After V)
  | swapQueue (k : After V)
  | drainNext (k : After V) (seen : List ℕ)
  -- `insert`
  | lockInsert (v : V)
  | pop (v : V) (seen : Option (List ℕ))
  | loadGeneration (index : ℕ) (v : V)
  | count (index generation : ℕ) (v : V)
  | unlockInsert (h : EpochHandle) (v : V)
  -- `remove` and `remote_evict`
  | evict (h : EpochHandle) (remote : Bool)
  | swapValue (h : EpochHandle) (remote : Bool)
  | uncount (h : EpochHandle) (remote : Bool)
  | lockRemove (h : EpochHandle)
  | giveBack (h : EpochHandle)
  | enqueue (h : EpochHandle)
  | setPending (h : EpochHandle)

/-- What a call answers. -/
inductive Answer (V : Type*) where
  | read (v : Option V)
  | inserted (h : Except V EpochHandle)
  | removed (done : Bool)

/-- A thread: where its call is, and its last answer. -/
structure Thread (V : Type*) where
  frame : Frame V
  answer : Option (Answer V)

def Thread.new : Thread V := ⟨.idle, none⟩

/-- The call goes on. -/
def Thread.goto (f : Frame V) (t : Thread V) : Thread V := { t with frame := f }

/-- The call returns. -/
def Thread.return (a : Answer V) (_ : Thread V) : Thread V := ⟨.idle, some a⟩

/-- Whether the slot of an evicted handle is used again. -/
def EpochHandle.reusable (h : EpochHandle) : Bool := decide (h.generation + 1 ≠ maxGeneration)

/-- The store to a slot. -/
def Region.setSlot (i : ℕ) (s : AtomicSlot V) (r : Region V) : Region V :=
  { r with slots := Function.update r.slots i s }

/-- `fetch_sub(1)` of a 64-bit word. -/
@[irreducible] def fetchSub (n : ℕ) : ℕ := (n + (2 ^ 64 - 1)) % 2 ^ 64

/-- What follows a drain: `checked` is what it saw of the free list and the queue, if it looked. -/
def afterDrain (r : Region V) (checked : Option (List ℕ)) : After V → Frame V
  | .insert v false =>
    if r.free = [] ∧ checked = none then .lockQueue (.insert v true) else .pop v checked
  | .insert v true => .pop v checked
  | .remove h => .giveBack h

/-- The end of a removal that won. -/
def returnRemoved (h : EpochHandle) (r : Region V) (t : Thread V) : Region V × Thread V :=
  ({ r with removed := r.removed ++ [h] }, t.return (.removed true))

/-- The next action of a call. A lock that is taken lets the call wait. -/
def advance (r : Region V) (t : Thread V) : Region V × Thread V :=
  match t.frame with
  | .idle => (r, t)
  | .firstGeneration h =>
    (r, if (r.slots h.index).generation = h.generation then t.goto (.loadValue h)
      else t.return (.read none))
  | .loadValue h =>
    (r, match (r.slots h.index).value with
      | some v => t.goto (.secondGeneration h v)
      | none => t.return (.read none))
  | .secondGeneration h v =>
    (r, if (r.slots h.index).generation = h.generation then t.return (.read (some v))
      else t.return (.read none))
  | .hint k =>
    (r, t.goto (if r.remoteFreePending then .lockQueue k else afterDrain r none k))
  | .lockQueue k =>
    if r.queueLocked then (r, t) else ({ r with queueLocked := true }, t.goto (.clearHint k))
  | .clearHint k => ({ r with remoteFreePending := false }, t.goto (.swapQueue k))
  | .swapQueue k =>
    let seen := r.free ++ r.remoteFree
    if r.remoteFree = [] then
      ({ r with queueLocked := false }, t.goto (afterDrain r (some seen) k))
    else
      ({ r with
        queueLocked := false, remoteFree := r.drainScratch, drainScratch := r.remoteFree },
        t.goto (.drainNext k seen))
  | .drainNext k seen =>
    match r.drainScratch with
    | [] => (r, t.goto (afterDrain r (some seen) k))
    | i :: rest =>
      if i < r.capacity ∧ (r.slots i).generation ≠ maxGeneration then
        ({ r with drainScratch := rest, free := i :: r.free }, t)
      else ({ r with drainScratch := rest }, t)
  | .lockInsert v =>
    if r.locked then (r, t) else ({ r with locked := true }, t.goto (.hint (.insert v false)))
  | .pop v _ =>
    match r.free with
    | [] => ({ r with locked := false }, t.return (.inserted (.error v)))
    | i :: rest =>
      ({ r with free := rest }.setSlot i { r.slots i with value := some v },
        t.goto (.loadGeneration i v))
  | .loadGeneration i v => (r, t.goto (.count i (r.slots i).generation v))
  | .count i g v =>
    ({ r with len := (r.len + 1) % 2 ^ 64 }, t.goto (.unlockInsert ⟨r.regionId, i, g⟩ v))
  | .unlockInsert h v =>
    ({ r with locked := false, inserted := r.inserted ++ [(h, v)] }, t.return (.inserted (.ok h)))
  | .evict h remote =>
    if h.generation ≠ maxGeneration ∧ (r.slots h.index).generation = h.generation then
      (r.setSlot h.index { r.slots h.index with generation := h.generation + 1 },
        t.goto (.swapValue h remote))
    else (r, t.return (.removed false))
  | .swapValue h remote =>
    (r.setSlot h.index { r.slots h.index with value := none },
      if (r.slots h.index).value.isSome then t.goto (.uncount h remote)
      else t.return (.removed false))
  | .uncount h remote =>
    let r := { r with len := fetchSub r.len }
    if remote then
      if h.reusable then (r, t.goto (.enqueue h)) else returnRemoved h r t
    else (r, t.goto (.lockRemove h))
  | .lockRemove h =>
    if r.locked then (r, t) else ({ r with locked := true }, t.goto (.hint (.remove h)))
  | .giveBack h =>
    returnRemoved h
      { r with locked := false, free := if h.reusable then h.index :: r.free else r.free } t
  | .enqueue h =>
    if r.queueLocked then (r, t)
    else ({ r with remoteFree := r.remoteFree ++ [h.index] }, t.goto (.setPending h))
  | .setPending h => returnRemoved h { r with remoteFreePending := true } t

/-- What a thread does: it begins a call, or goes on with it. -/
inductive Command (V : Type*) where
  | getWith (h : EpochHandle)
  | insert (v : V)
  | remove (h : EpochHandle)
  | remoteEvict (h : EpochHandle)
  | go

/-- A thread has the handles that inserts returned, and those of other regions. -/
def Region.known (r : Region V) (h : EpochHandle) : Bool :=
  decide (h.regionId ≠ r.regionId ∨ h ∈ r.handles)

/-- The part of a call that looks at the handle only. -/
def begin (r : Region V) (h : EpochHandle) (f : Frame V) (stale : Answer V) (t : Thread V) :
    Thread V :=
  if h.regionId = r.regionId ∧ h.index < r.capacity then t.goto f else t.return stale

/-- One atomic action of a thread. -/
def act (c : Command V) (r : Region V) (t : Thread V) : Region V × Thread V :=
  match c, t.frame with
  | .getWith h, .idle => (r, if r.known h then begin r h (.firstGeneration h) (.read none) t else t)
  | .insert v, .idle => (r, t.goto (.lockInsert v))
  | .remove h, .idle =>
    (r, if r.known h then begin r h (.evict h false) (.removed false) t else t)
  | .remoteEvict h, .idle =>
    (r, if r.known h then begin r h (.evict h true) (.removed false) t else t)
  | .go, _ => advance r t
  | _, _ => (r, t)

/-- Threads named by `ι` on a region, none of which has called. -/
def start (ι : Type*) (r : Region V) : World ι (Region V) (Thread V) := ⟨r, fun _ => .new⟩

end Epoch

end SeferAlloc
