import SeferAlloc.SidecarBitmap

/-!
# Segment ingress

The owner of a heap learns of remote frees through its ingress cell: a mask bit
for each slot of the segment table and a summary bit for each mask word. A
route is born ARMED; the first publication after an arming makes it NOTIFIED
and sets the mask bit, then the summary bit. The owner takes the summary and the
mask words, arms the route it finds in each slot, and cuts its whole sidecar.
-/
namespace SeferAlloc
namespace Ingress
open BitWord Interleaving
open Sidecar (Scan scanFrom sidecarWordBytes)

/-- The words of an ingress. -/
def ingressWords : ℕ := 64

/-- `MAX_SEGMENTS`, which is `64 * INGRESS_WORDS`. -/
def maxSegments : ℕ := 64 * ingressWords

/-- The state byte of `SegmentIngress`. -/
inductive State where
  | armed
  | notified
deriving DecidableEq

/-- An ingress starts armed, or already notified. -/
def State.new (armed : Bool) : State := if armed then .armed else .notified

/-- A small route: its ingress state and slot, the pending words of its sidecar, and the
segment's payload start and bump cursor. `live` lists the granules that `live_count` counts. -/
structure Route where
  slot : ℕ
  born : Bool
  state : State
  payloadStart : ℕ
  bump : ℕ
  pending : ℕ → Word
  live : List ℕ

def Route.fresh (slot payloadStart : ℕ) (armed : Bool) : Route :=
  ⟨slot, armed, .new armed, payloadStart, payloadStart, fun _ => 0, []⟩

namespace Route

/-- The first sidecar word that stands for the payload. -/
def startWord (x : Route) : ℕ := x.payloadStart / sidecarWordBytes

def endWord (x : Route) : ℕ := (x.bump + sidecarWordBytes - 1) / sidecarWordBytes

/-- The granule's bit is set by `SidecarBitmap::publish`. -/
def publish (x : Route) (g : ℕ) : Route :=
  { x with pending := Function.update x.pending (g / 64) (x.pending (g / 64) ||| bit (g % 64)) }

def setState (x : Route) (s : State) : Route := { x with state := s }

/-- One word is swapped out and its granules are reclaimed. -/
def cut (x : Route) (w : ℕ) : Route :=
  { x with
    pending := Function.update x.pending w 0
    live := x.live.filter fun g => !(decide (g / 64 = w) && member x.pending g) }

/-- A block of the segment is carved or reused; the bump cursor does not go back. -/
def issue (x : Route) (g highWater : ℕ) : Route :=
  { x with bump := max x.bump highWater, live := g :: x.live }

/-- The owner frees a block itself. -/
def free (x : Route) (g : ℕ) : Route := { x with live := x.live.filter (· ≠ g) }

/-- `decommit_empty_segment` takes the bump cursor back to the payload start. -/
def reset (x : Route) : Route := { x with bump := x.payloadStart }

end Route

/-- A slot of the segment table; a small route is named by its incarnation. -/
inductive Slot where
  | empty
  | large
  | small (ρ : ℕ)
deriving DecidableEq

structure Shared where
  routes : ℕ → Route
  fresh : ℕ
  table : ℕ → Slot
  mask : ℕ → Word
  summary : Word

def Shared.new : Shared := ⟨fun _ => .fresh 0 0 true, 0, fun _ => .empty, fun _ => 0, 0⟩

def Shared.setRoute (r : Shared) (ρ : ℕ) (x : Route) : Shared :=
  { r with routes := Function.update r.routes ρ x }

/-! ## Threads -/

/-- What `take` has swapped out and not yet visited: summary bits, and mask bits of a word. -/
structure Hand where
  words : Word
  word : ℕ
  bits : Word

inductive Loc where
  -- a publishing thread
  | outside
  | loadState (ρ : ℕ)
  | casState (ρ : ℕ)
  | maskOr (slot : ℕ)
  | summaryOr (slot : ℕ)
  -- the owner
  | idle
  | summaryLoad
  | summarySwap
  | taking (h : Hand)
  | draining (h : Option Hand) (ρ : ℕ) (s : Scan)
  | cutting (h : Option Hand) (ρ : ℕ) (s : Scan) (w : ℕ)
  | fatal

/-- Where the owner goes on after a drain. -/
def Loc.resume : Option Hand → Loc
  | none => .idle
  | some h => .taking h

/-- What the owner does to its segments between drains. -/
inductive Management where
  | issue (ρ g highWater : ℕ)
  | free (ρ g : ℕ)
  | reset (ρ : ℕ)
  | retire (slot : ℕ)
  | register (slot payloadStart : ℕ) (armed : Bool)
  | registerLarge (slot : ℕ)

/-- The publication of a thread, and the commands of the owner. -/
inductive Command where
  | publish (ρ g : ℕ)
  | manage (m : Management)
  | drain (ρ startWord : ℕ)
  | processIngress
  | next

/-- A block is issued inside a registered segment and freed once; a segment is emptied or
retired when its live count is zero, and a registration takes a fresh incarnation. -/
def manage (r : Shared) : Management → Shared
  | .issue ρ g highWater =>
      let x := r.routes ρ
      if r.table x.slot = .small ρ ∧ x.payloadStart ≤ g * minBlock ∧
          g * minBlock < max x.bump highWater ∧ highWater ≤ segment ∧ g ∉ x.live then
        r.setRoute ρ (x.issue g highWater)
      else r
  | .free ρ g =>
      if member (r.routes ρ).pending g then r else r.setRoute ρ ((r.routes ρ).free g)
  | .reset ρ =>
      if (r.routes ρ).live = [] then r.setRoute ρ (r.routes ρ).reset else r
  | .retire slot =>
      match r.table slot with
      | .empty => r
      | .large => { r with table := Function.update r.table slot .empty }
      | .small ρ =>
          if (r.routes ρ).live = [] then { r with table := Function.update r.table slot .empty }
          else r
  | .register slot payloadStart armed =>
      if r.table slot = .empty ∧ slot < maxSegments ∧ payloadStart ≤ segment then
        { r.setRoute r.fresh (.fresh slot payloadStart armed) with
          fresh := r.fresh + 1
          table := Function.update r.table slot (.small r.fresh) }
      else r
  | .registerLarge slot =>
      if r.table slot = .empty then { r with table := Function.update r.table slot .large } else r

/-- `drain_segment_sidecar` opens its scan; `scan_small_route_or_fatal`. -/
def startDrain (h : Option Hand) (ρ : ℕ) (x : Route) (word : ℕ) : Loc :=
  match scanFrom x.bump (min word x.endWord) with
  | some s => .draining h ρ s
  | none => .fatal

/-- One atomic action of a thread. -/
def act (e : Command) (r : Shared) : Loc → Shared × Loc
  -- `publish_small`, for a block that is outstanding
  | .outside =>
      match e with
      | .publish ρ g =>
          if g ∈ (r.routes ρ).live then
            (r.setRoute ρ ((r.routes ρ).publish g), .loadState ρ)
          else (r, .outside)
      | _ => (r, .outside)
  -- `after_publish`
  | .loadState ρ => (r, if (r.routes ρ).state = .armed then .casState ρ else .outside)
  -- `SegmentIngress::notify`
  | .casState ρ =>
      if (r.routes ρ).state = .armed then
        (r.setRoute ρ ((r.routes ρ).setState .notified), .maskOr (r.routes ρ).slot)
      else (r, .outside)
  -- `HeapIngress::notify`
  | .maskOr slot =>
      ({ r with mask := Function.update r.mask (slot / 64) (r.mask (slot / 64) ||| bit (slot % 64)) },
        .summaryOr slot)
  | .summaryOr slot => ({ r with summary := r.summary ||| bit (slot / 64) }, .outside)
  | .idle =>
      match e with
      | .processIngress => (r, .summaryLoad)
      | .drain ρ word => (r, startDrain none ρ (r.routes ρ) word)
      | .manage m => (manage r m, .idle)
      | _ => (r, .idle)
  -- `take`
  | .summaryLoad => (r, if r.summary = 0 then .idle else .summarySwap)
  | .summarySwap => ({ r with summary := 0 }, .taking ⟨r.summary, 0, 0⟩)
  | .taking h =>
      match e with
      | .next =>
          if h.bits = 0 then
            if h.words = 0 then (r, .idle)
            else
              let w := trailingZeros h.words
              ({ r with mask := Function.update r.mask w 0 },
                .taking ⟨h.words &&& (h.words - 1), w, r.mask w⟩)
          else
            -- `drain_notified_slot`: arm, then cut from the payload start to the bump cursor
            let h' := { h with bits := h.bits &&& (h.bits - 1) }
            match r.table (h.word * 64 + trailingZeros h.bits) with
            | .small ρ =>
                (r.setRoute ρ ((r.routes ρ).setState .armed),
                  startDrain (some h') ρ (r.routes ρ) (r.routes ρ).startWord)
            | _ => (r, .taking h')
      | .manage m => (manage r m, .taking h)
      | _ => (r, .taking h)
  -- `consume_small_cuts`
  | .draining h ρ s =>
      match s.advance with
      | none => (r, .resume h)
      | some (w, s) =>
          (r, if (r.routes ρ).pending w = 0 then .draining h ρ s else .cutting h ρ s w)
  | .cutting h ρ s w => (r.setRoute ρ ((r.routes ρ).cut w), .draining h ρ s)
  | .fatal => (r, .fatal)

/-- The owner `none` and the threads `some i` before any segment exists. -/
def World.init (ι : Type*) : Interleaving.World (Option ι) Shared Loc where
  shared := .new
  loc
    | none => .idle
    | some _ => .outside

end Ingress

end SeferAlloc
