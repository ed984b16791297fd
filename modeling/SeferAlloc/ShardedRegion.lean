import SeferAlloc.EpochRegion
import Mathlib.Data.List.Sublists

/-!
# The sharded region

Each shard of a region has a token, and a thread that wins a token records the
claim in its exit guard, which clears the token when the thread exits. The claims
are weak: they outlive a dropped region and are swept when a counter of deaths
has moved. A short cache of bindings routes the inserts of a thread; it is apart
from the claims.
-/
namespace SeferAlloc
namespace Sharded
open Interleaving

/-- `ErasedClaim`: a token block and a shard of it. -/
abbrev Claim := ℕ × ℕ

/-- A region with its token block: `alive` is the reference that the region owns, `upgrades` counts
those of exiting threads. The shards are epoch regions of consecutive ids. -/
structure Block where
  alive : Bool
  upgrades : ℕ
  shards : ℕ
  tokens : ℕ → Bool
  nextShard : ℕ
  firstEpochId : ℕ

/-- The strong references to a block: its owner's and those in use. -/
def Block.strongCount (b : Block) : ℕ := (if b.alive then 1 else 0) + b.upgrades

/-- What the threads share: the regions so far, `TOKEN_BACKING_DEATHS`, and the counter of the ids
of epoch regions. The code keeps this counter in 64 bits; a run is far too short to bring it there. -/
structure Process where
  blocks : ℕ → Block
  count : ℕ
  deaths : ℕ
  nextEpochId : ℕ

/-- The id of a region in the cache, from `NEXT_SHARDED_REGION_ID`. -/
def regionId (k : ℕ) : ℕ := k % 2 ^ 64

/-- The epoch id of a shard. -/
def Process.epochId (p : Process) (k i : ℕ) : ℕ := (p.blocks k).firstEpochId + i

def Process.setBlock (p : Process) (k : ℕ) (b : Block) : Process :=
  { p with blocks := Function.update p.blocks k b }

/-- The regions a thread remembers its shard of. -/
def maxRememberedRegions : ℕ := 8

/-- `cached_shard`, on the table that is left of the thread. -/
def cachedShard (shards : Option (List (ℕ × ℕ))) (id : ℕ) : Option ℕ :=
  shards.bind fun t => (t.find? fun e => e.1 = id).map Prod.snd

/-- Remembers a shard: in place, or at the end with the oldest region forgotten. -/
def rememberShard (id shard : ℕ) (shards : Option (List (ℕ × ℕ))) : Option (List (ℕ × ℕ)) :=
  shards.map fun t =>
    if t.any fun e => e.1 = id then
      t.takeWhile (fun e => ¬ e.1 = id) ++ (id, shard) :: (t.dropWhile fun e => ¬ e.1 = id).tail
    else (if maxRememberedRegions ≤ t.length then t.tail else t) ++ [(id, shard)]

/-- What follows the sweep of a call. -/
inductive Purpose where
  | scan
  | bind (shard : ℕ)

/-- Where a thread is. -/
inductive Frame where
  | idle
  -- `get_or_insert_with`
  | openGuard (k : ℕ) (p : Purpose)
  -- `prune_dead_claims`
  | loadDeaths (k : ℕ) (p : Purpose)
  | sweep (k : ℕ) (p : Purpose) (epoch : ℕ) (kept todo : List Claim)
  -- `claim_or_get_shard`
  | scan (k i : ℕ)
  | ticket (k : ℕ) (intact : Bool)
  -- `bind_current_thread_to_shard`
  | bindToken (k shard : ℕ)
  -- the drop of a region, and that of a token block
  | death (exiting : Bool)
  -- the drop of the exit guard
  | release
  | store
  | dropUpgrade (k : ℕ)

/-- What a call answers: a shard to insert into, whether it was bound, or where a lookup or a removal
goes and what it does there. -/
inductive Answer where
  | shard (i : ℕ)
  | bound (done : Bool)
  | routed (call : Option (ℕ × Epoch.Command Unit))

/-- A thread: `MY_SHARDS` and `ERASED_GUARD`, each until its destructor. `lastDeathEpoch` is none
before the guard is made. -/
structure Thread where
  frame : Frame
  answer : Option Answer
  shards : Option (List (ℕ × ℕ))
  guardGone : Bool
  lastDeathEpoch : Option ℕ
  claims : List Claim

def Thread.new : Thread := ⟨.idle, none, some [], false, none, []⟩

def Thread.goto (f : Frame) (t : Thread) : Thread := { t with frame := f }

def Thread.return (a : Answer) (t : Thread) : Thread := { t with frame := .idle, answer := some a }

/-- The thread's router can still be used. -/
def Thread.routerIntact (t : Thread) : Bool := t.shards.isSome && !t.guardGone

/-- A handle, `ShardedHandle`. -/
structure ShardedHandle where
  shard : ℕ
  inner : Epoch.EpochHandle

/-- `get_with`: the shard of the handle, whatever the binding. -/
def getWith (b : Block) (h : ShardedHandle) : Option (ℕ × Epoch.Command Unit) :=
  if h.shard < b.shards then some (h.shard, .getWith h.inner) else none

/-- `remove`: the owner's path for the thread's own binding, and else the remote one. -/
def remove (b : Block) (k : ℕ) (t : Thread) (h : ShardedHandle) : Option (ℕ × Epoch.Command Unit) :=
  if h.shard < b.shards then
    if cachedShard t.shards (regionId k) = some h.shard then some (h.shard, .remove h.inner)
    else some (h.shard, .remoteEvict h.inner)
  else none

/-- The start of `claim_or_get_shard`. -/
def beginClaim (b : Block) (k : ℕ) (t : Thread) : Thread :=
  match cachedShard t.shards (regionId k) with
  | some i =>
    if i < b.shards then t.return (.shard i)
    else t.goto (if t.routerIntact then .openGuard k .scan else .ticket k false)
  | none => t.goto (if t.routerIntact then .openGuard k .scan else .ticket k false)

/-- The start of `bind_current_thread_to_shard`. -/
def beginBind (b : Block) (k i : ℕ) (t : Thread) : Thread :=
  if b.shards ≤ i then t.return (.bound false)
  else if t.routerIntact then
    { t with frame := .openGuard k (.bind i), shards := rememberShard (regionId k) i t.shards }
  else t.return (.bound false)

/-- Where a call goes on after the sweep. -/
def Purpose.next (k : ℕ) : Purpose → Frame
  | .scan => .scan k 0
  | .bind i => .bindToken k i

/-- A token goes from free to occupied, and the guard records the claim. -/
def win (p : Process) (k i : ℕ) (t : Thread) : Process × Thread :=
  let b := p.blocks k
  (p.setBlock k { b with tokens := Function.update b.tokens i true },
    { t with claims := t.claims ++ [(k, i)] })

/-- A reference to a block goes; the last one ends the block. -/
def Block.afterDrop (b : Block) (exiting : Bool) : Frame :=
  if b.strongCount = 0 then .death exiting else if exiting then .release else .idle

/-- The next action of a thread. -/
def advance (p : Process) (t : Thread) : Process × Thread :=
  match t.frame with
  | .idle => (p, t)
  | .openGuard k purpose =>
    (p, { t with
      frame := .loadDeaths k purpose
      lastDeathEpoch := some (t.lastDeathEpoch.getD p.deaths) })
  | .loadDeaths k purpose =>
    (p, t.goto (if t.lastDeathEpoch = some p.deaths then purpose.next k
      else .sweep k purpose p.deaths [] t.claims))
  | .sweep k purpose epoch kept todo =>
    match todo with
    | [] =>
      (p, { t with frame := purpose.next k, lastDeathEpoch := some epoch, claims := kept })
    | c :: rest =>
      (p, t.goto (.sweep k purpose epoch
        (if 0 < (p.blocks c.1).strongCount then kept ++ [c] else kept) rest))
  | .scan k i =>
    let b := p.blocks k
    if i < b.shards then
      if b.tokens i = false then
        let (p, t) := win p k i t
        (p, { t with shards := rememberShard (regionId k) i t.shards }.return (.shard i))
      else (p, t.goto (.scan k (i + 1)))
    else (p, t.goto (.ticket k true))
  | .ticket k intact =>
    let b := p.blocks k
    let i := b.nextShard % b.shards
    (p.setBlock k { b with nextShard := (b.nextShard + 1) % 2 ^ 64 },
      { t with
        shards := if intact then rememberShard (regionId k) i t.shards else t.shards
        }.return (.shard i))
  | .bindToken k i =>
    if (p.blocks k).tokens i = false then
      let (p, t) := win p k i t
      (p, t.return (.bound true))
    else (p, t.return (.bound true))
  | .death exiting =>
    ({ p with deaths := (p.deaths + 1) % 2 ^ 64 }, t.goto (if exiting then .release else .idle))
  | .release =>
    match t.claims with
    | [] => (p, t.goto .idle)
    | c :: rest =>
      let b := p.blocks c.1
      if 0 < b.strongCount then
        (p.setBlock c.1 { b with upgrades := b.upgrades + 1 }, t.goto .store)
      else (p, { t with claims := rest })
  | .store =>
    match t.claims with
    | [] => (p, t.goto .release)
    | c :: rest =>
      let b := p.blocks c.1
      (if c.2 < b.shards then
        p.setBlock c.1 { b with tokens := Function.update b.tokens c.2 false } else p,
        { t with frame := .dropUpgrade c.1, claims := rest })
  | .dropUpgrade k =>
    let b := { p.blocks k with upgrades := (p.blocks k).upgrades - 1 }
    (p.setBlock k b, t.goto (b.afterDrop true))

/-- What a thread does: it makes or drops a region, begins a call on one, goes through the
destructors of its exit, or goes on. -/
inductive Command where
  | withShards (n : ℕ)
  | dropRegion (k : ℕ)
  | claim (k : ℕ)
  | bind (k i : ℕ)
  | getWith (k : ℕ) (h : ShardedHandle)
  | remove (k : ℕ) (h : ShardedHandle)
  | exitShards
  | exitGuard
  | go

/-- The most shards a region makes. -/
def maxShards : ℕ := 2 ^ 16 - 1

/-- A region is there to be called. -/
def Process.has (p : Process) (k : ℕ) : Bool := decide (k < p.count) && (p.blocks k).alive

/-- One atomic action of a thread. -/
def act (c : Command) (p : Process) (t : Thread) : Process × Thread :=
  match c, t.frame with
  | .go, _ => advance p t
  | .withShards n, .idle =>
    if 0 < n ∧ n ≤ maxShards then
      ({ p.setBlock p.count ⟨true, 0, n, fun _ => false, 0, p.nextEpochId⟩ with
        count := p.count + 1, nextEpochId := p.nextEpochId + n }, t)
    else (p, t)
  | .dropRegion k, .idle =>
    if p.has k then
      let b := { p.blocks k with alive := false }
      (p.setBlock k b, t.goto (b.afterDrop false))
    else (p, t)
  | .claim k, .idle => (p, if p.has k then beginClaim (p.blocks k) k t else t)
  | .bind k i, .idle => (p, if p.has k then beginBind (p.blocks k) k i t else t)
  | .getWith k h, .idle =>
    (p, if p.has k then t.return (.routed (getWith (p.blocks k) h)) else t)
  | .remove k h, .idle =>
    (p, if p.has k then t.return (.routed (remove (p.blocks k) k t h)) else t)
  | .exitShards, .idle => (p, { t with shards := none })
  | .exitGuard, .idle =>
    (p, if t.guardGone then t else { t with guardGone := true, frame := .release })
  | _, _ => (p, t)

/-- Threads named by `ι`, and no region. -/
def start (ι : Type*) : World ι Process Thread :=
  ⟨⟨fun _ => ⟨false, 0, 0, fun _ => false, 0, 0⟩, 0, 0, 1⟩, fun _ => .new⟩

/-- The region that a call is on. -/
def Frame.region : Frame → Option ℕ
  | .openGuard k _ | .loadDeaths k _ | .sweep k _ _ _ _ | .scan k _ | .ticket k _ | .bindToken k _ =>
    some k
  | _ => none

/-- A region is dropped by its owner, when no call borrows it. -/
def Legal {ι : Type*} [DecidableEq ι] : World ι Process Thread → List (ι × Command) → Prop
  | _, [] => True
  | w, (j, c) :: rest =>
    (∀ k, c = .dropRegion k → ∀ i, (w.loc i).frame.region ≠ some k) ∧ Legal (w.step act j c) rest

end Sharded

end SeferAlloc
