import SeferAlloc.Interleaving
import Mathlib.Algebra.Group.Nat.Defs
import Mathlib.Tactic.SplitIfs

/-!
# The fallback heap and its worker

One heap serves the threads that have none of their own. The first caller
builds it in place, a spin lock hands it out, and a guard gives back the word
of the initialization and the lock however a call leaves them. A worker that is
started once visits the heap from time to time, and trims it only if nobody
else was there for a while.

The heap and the policies are of any type; what a call does to the heap is
chosen with the action.
-/
namespace SeferAlloc
namespace FallbackHeap
open Interleaving

/-- The phases of the word that guards the construction. -/
inductive FallbackInitState where
  | uninit
  | initializing
  | ready
deriving DecidableEq

/-- The values of `STATE`. -/
inductive ServiceState where
  | idle
  | starting
  | running
deriving DecidableEq

/-- The spins before a waiter starts to yield. -/
def lockTightSpins : ℕ := 64

/-- The yields between two looks at whether the process exits. -/
def exitProbeYieldRounds : ℕ := 64

/-- The visits without another call after which the worker trims. -/
def fallbackIdleVisits : ℕ := 100

/-- The statics. The last four fields are a record: the heap as it was built, what was done to it
since, the last first, and how often the worker and the others took the lock. -/
structure Statics (H : Type*) where
  initState : FallbackInitState
  fallback : Option H
  lock : Bool
  lockAcquisitions : ℕ
  exitLockGiveups : ℕ
  configConflicts : ℕ
  state : ServiceState
  spawned : ℕ
  aborted : Bool
  built : Option H
  done : List (H → H)
  visits : ℕ
  others : ℕ

/-- The locals of the worker's loop. The record has the others' count at the last sample, and at
each finished visit with whether it took the lock, the last first. -/
structure Worker where
  prevLocks : Option ℕ
  idle : ℕ
  selfAcquired : Bool
  seen : ℕ
  finished : List (ℕ × Bool)

def Worker.new : Worker := ⟨none, 0, false, 0, []⟩

/-- Who asks for the heap: `with_heap` or `with_heap_config`, `try_with_heap`, or the worker. -/
inductive Call (γ : Type*) where
  | withHeap (config : Option γ)
  | tryWithHeap
  | visit (trim : Bool)
deriving DecidableEq

inductive Answer where
  | ran
  | refused
  | unwound
  | started
  | inProgress
  | spawnFailed
deriving DecidableEq

/-- Where a thread is. -/
inductive Pc (γ H : Type*) where
  | idle
  -- `heap_ptr_impl`
  | load (config : Option γ)
  | compareExchange (config : Option γ)
  | init (config : Option γ)
  | write (config : Option γ) (heap : H)
  | publish (config : Option γ)
  | rollback (unwound : Bool)
  | wait (config : Option γ) (spins : ℕ)
  -- `LockGuard::acquire`
  | acquire (config : Option γ) (spins rounds : ℕ)
  | spin (config : Option γ) (spins rounds : ℕ)
  -- `try_with_heap`
  | tryLoad (call : Call γ)
  | tryAcquire (call : Call γ)
  -- with the lock
  | acquired (call : Call γ)
  | enter (call : Call γ)
  | inside (call : Call γ) (heap : H)
  | leave (call : Call γ) (unwound : Bool)
  -- the storage is read before it is written
  | undefined
  -- `MaintenanceService::start`, and the worker
  | spawning
  | confirm
  | announce
  | sample
  -- `WorkerGuard`
  | unwinding

structure Thread (γ H : Type*) where
  pc : Pc γ H
  answer : Option Answer
  worker : Worker

/-- What an idle thread does; `begin` is a spawned worker that begins. -/
inductive Request (γ : Type*) where
  | rest
  | withHeap (config : Option γ)
  | tryWithHeap
  | start
  | begin

/-- How `HeapCore::new` ends. -/
inductive Outcome (H : Type*) where
  | oom
  | unwound
  | heap (h : H)

/-- What is chosen with an action: the request, whether the process exits, how a heap is built, what
the closure does to the heap and whether it unwinds, whether a thread can be spawned, and whether
the start takes too long. -/
structure Chance (γ H : Type*) where
  request : Request γ
  exiting : Bool
  new : Outcome H
  body : H → H
  unwinds : Bool
  spawns : Bool
  timesOut : Bool

variable {γ H : Type*}

def Thread.goto (pc : Pc γ H) (t : Thread γ H) : Thread γ H := { t with pc := pc }

def Thread.return (a : Answer) (t : Thread γ H) : Thread γ H := { t with pc := .idle, answer := some a }

/-- A visit of the worker is over. -/
def Thread.visited (took : Bool) (t : Thread γ H) : Thread γ H :=
  { t with
    pc := .sample
    worker := { t.worker with
      idle := if took then t.worker.idle else 0
      selfAcquired := took
      finished := (t.worker.seen, took) :: t.worker.finished } }

/-- `try_with_heap` or a visit ends without the heap. -/
def Thread.refused (call : Call γ) (t : Thread γ H) : Thread γ H :=
  match call with
  | .visit _ => t.visited false
  | _ => t.return .refused

/-- The worker samples `LOCK_ACQUISITIONS` before a visit. -/
def Worker.sample (locks others : ℕ) (w : Worker) : Worker :=
  let externallyActive := match w.prevLocks with
    | some prev => decide (w.selfAcquired.toNat < locks - prev)
    | none => false
  { w with
    prevLocks := some locks
    idle := if externallyActive then 0 else min (w.idle + 1) (2 ^ 64 - 1)
    seen := others }

namespace Statics

/-- Counts an exit that gave up on the lock. -/
def recordExitLockGiveup (x : Statics H) : Statics H :=
  { x with exitLockGiveups := (x.exitLockGiveups + 1) % 2 ^ 64 }

/-- Counts an acquisition: the worker's visits apart from everybody else's calls. -/
def acquired (call : Call γ) (x : Statics H) : Statics H :=
  let x := { x with lockAcquisitions := (x.lockAcquisitions + 1) % 2 ^ 64 }
  match call with
  | .visit _ => { x with visits := x.visits + 1 }
  | _ => { x with others := x.others + 1 }

/-- `with_heap_config` compares the policies. -/
def compare (liveConfigMatches : H → γ → Bool) (call : Call γ) (h : H) (x : Statics H) : Statics H :=
  match call with
  | .withHeap (some config) =>
      if liveConfigMatches h config then x
      else { x with configConflicts := (x.configConflicts + 1) % 2 ^ 64 }
  | _ => x

end Statics

/-- An idle thread begins a call. -/
def begin (request : Request γ) (x : Statics H) (t : Thread γ H) : Statics H × Thread γ H :=
  match request with
  | .rest => (x, t)
  | .withHeap config => (x, t.goto (.load config))
  | .tryWithHeap => (x, t.goto (.tryLoad .tryWithHeap))
  | .start =>
    match x.state with
    | .idle => ({ x with state := .starting }, t.goto .spawning)
    | .starting => (x, t.return .inProgress)
    | .running => (x, t.return .started)
  | .begin =>
    if x.spawned = 0 then (x, t) else ({ x with spawned := x.spawned - 1 }, t.goto .announce)

/-- The drop of the `LockGuard` behind the closure. -/
def leave (call : Call γ) (unwound : Bool) (x : Statics H) (t : Thread γ H) :
    Statics H × Thread γ H :=
  match call, unwound with
  | .visit _, true => ({ x with lock := false }, t.goto .unwinding)
  | .visit _, false => ({ x with lock := false }, t.visited true)
  | _, true => ({ x with lock := false }, t.return .unwound)
  | _, false => ({ x with lock := false }, t.return .ran)

/-- One atomic action of a thread. -/
def advance (liveConfigMatches : H → γ → Bool) (c : Chance γ H) (x : Statics H) (t : Thread γ H) :
    Statics H × Thread γ H :=
  match t.pc with
  | .idle => begin c.request x t
  | .load config =>
    (x, t.goto (if x.initState = .ready then .acquire config 0 0 else .compareExchange config))
  | .compareExchange config =>
    if x.initState = .uninit then ({ x with initState := .initializing }, t.goto (.init config))
    else (x, t.goto (.wait config 0))
  | .init config =>
    (x, t.goto (match c.new with
      | .oom => .rollback false
      | .unwound => .rollback true
      | .heap h => .write config h))
  | .write config h => ({ x with fallback := some h, built := some h }, t.goto (.publish config))
  | .publish config => ({ x with initState := .ready }, t.goto (.acquire config 0 0))
  | .rollback unwound =>
    ({ x with initState := .uninit }, t.return (if unwound then .unwound else .refused))
  | .wait config spins =>
    if x.initState ≠ .initializing then (x, t.goto (.load config))
    else if spins < lockTightSpins then (x, t.goto (.wait config (spins + 1)))
    else if c.exiting then (x.recordExitLockGiveup, t.return .refused)
    else (x, t)
  | .acquire config spins rounds =>
    if x.lock then (x, t.goto (.spin config spins rounds))
    else ({ x with lock := true }, t.goto (.acquired (.withHeap config)))
  | .spin config spins rounds =>
    if x.lock = false then (x, t.goto (.acquire config spins rounds))
    else if spins < lockTightSpins then (x, t.goto (.spin config (spins + 1) rounds))
    else if (rounds + 1) % 2 ^ 32 % exitProbeYieldRounds = 0 ∧ c.exiting = true then
      (x.recordExitLockGiveup, t.return .refused)
    else (x, t.goto (.spin config spins ((rounds + 1) % 2 ^ 32)))
  | .tryLoad call =>
    (x, if x.initState = .ready then t.goto (.tryAcquire call) else t.refused call)
  | .tryAcquire call =>
    if x.lock then (x, t.refused call) else ({ x with lock := true }, t.goto (.acquired call))
  | .acquired call => (x.acquired call, t.goto (.enter call))
  | .enter call =>
    match x.fallback with
    | none => (x, t.goto .undefined)
    | some h => (x.compare liveConfigMatches call h, t.goto (.inside call h))
  | .inside call h =>
    ({ x with fallback := some (c.body h), done := c.body :: x.done },
      t.goto (.leave call c.unwinds))
  | .leave call unwound => leave call unwound x t
  | .undefined => (x, t)
  | .spawning =>
    if c.spawns then ({ x with spawned := x.spawned + 1 }, t.goto .confirm)
    else ({ x with state := .idle }, t.return .spawnFailed)
  | .confirm =>
    if x.state = .running then (x, t.return .started)
    else if c.timesOut then ({ x with aborted := true }, t)
    else (x, t)
  | .announce => ({ x with state := .running }, { t with pc := .sample, worker := .new })
  | .sample =>
    let worker := t.worker.sample x.lockAcquisitions x.others
    (x, { t with pc := .tryLoad (.visit (fallbackIdleVisits ≤ worker.idle)), worker := worker })
  | .unwinding => ({ x with aborted := true }, t)

/-- Nothing happens any more in a process that was aborted. -/
def act (liveConfigMatches : H → γ → Bool) (c : Chance γ H) (x : Statics H) (t : Thread γ H) :
    Statics H × Thread γ H :=
  if x.aborted then (x, t) else advance liveConfigMatches c x t

/-- The statics of a new process. -/
def Statics.new : Statics H :=
  ⟨.uninit, none, false, 0, 0, 0, .idle, 0, false, none, [], 0, 0⟩

/-- Threads named by `ι`, those that will be started among them. -/
def start (ι γ H : Type*) : World ι (Statics H) (Thread γ H) := ⟨.new, fun _ => ⟨.idle, none, .new⟩⟩

end FallbackHeap

end SeferAlloc
