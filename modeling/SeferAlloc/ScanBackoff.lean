import SeferAlloc.SidecarBitmap
import SeferAlloc.SmallHeapRuns

/-!
# Back-off of the linear scan

A search for a free block drains the remote frees of every segment it passes.
Scans that reclaim nothing open a window of the current segment's bump cursor,
packed with a streak in one word of its header, and while the cursor is inside
the window the searches leave the drains out. A heap with an ingress cell is
told of remote frees and leaves them out always.

Beside the word stands what the scan that stored it saw and packed. No
operation reads it.
-/
namespace SeferAlloc
namespace ScanBackoff
open SeferAlloc.Small

/-! ## The packed word -/

/-- A window is as long as the drained bytes shifted right by this. -/
def sidecarDeferShift : ℕ := 4

/-- The empty scans in a row before a window opens. -/
def sidecarDeferStreak : ℕ := 3

/-- The grain of the window's ends. -/
def unit : ℕ := 256

/-- The bits of one packed end. -/
def offBits : ℕ := 15

/-- The mask of one packed end. -/
def offMask : BitVec 32 := (1 <<< offBits) - 1

/-- Where the streak is packed. -/
def streakShift : ℕ := 2 * offBits

/-- `(start, end, streak)` of a packed window, offsets in bytes. -/
def unpack (window : BitVec 32) : ℕ × ℕ × ℕ :=
  ((window &&& offMask).toNat * unit, ((window >>> offBits) &&& offMask).toNat * unit,
    (window >>> streakShift).toNat)

/-- A streak alone. -/
def packStreak (streak : ℕ) : BitVec 32 := BitVec.ofNat 32 streak <<< streakShift

/-- The offsets of a window, in units. -/
def packOffsets (start stop : ℕ) : BitVec 32 :=
  BitVec.ofNat 32 start ||| BitVec.ofNat 32 stop <<< offBits

lemma packStreak_toNat {streak : ℕ} (h : streak < 4) :
    (packStreak streak).toNat = streak * 2 ^ 30 := by
  rw [packStreak, BitVec.toNat_shiftLeft, BitVec.toNat_ofNat, Nat.shiftLeft_eq]
  simp only [streakShift, offBits]
  omega

lemma packOffsets_toNat {start stop : ℕ} (h₁ : start < 2 ^ 15) (h₂ : stop < 2 ^ 15) :
    (packOffsets start stop).toNat = stop * 2 ^ 15 + start := by
  rw [packOffsets, BitVec.toNat_or, BitVec.toNat_shiftLeft, BitVec.toNat_ofNat,
    BitVec.toNat_ofNat, Nat.mod_eq_of_lt (by omega : start < 2 ^ 32),
    Nat.mod_eq_of_lt (by omega : stop < 2 ^ 32), offBits, Nat.shiftLeft_eq,
    Nat.mod_eq_of_lt (by omega), ← Nat.shiftLeft_eq, Nat.or_comm,
    ← Nat.shiftLeft_add_eq_or_of_lt h₁, Nat.shiftLeft_eq]

lemma pack_toNat {start stop streak : ℕ} (h₁ : start < 2 ^ 15) (h₂ : stop < 2 ^ 15)
    (h₃ : streak < 4) :
    (packStreak streak ||| packOffsets start stop).toNat =
      streak * 2 ^ 30 + (stop * 2 ^ 15 + start) := by
  rw [BitVec.toNat_or, packStreak_toNat h₃, packOffsets_toNat h₁ h₂, ← Nat.shiftLeft_eq,
    ← Nat.shiftLeft_add_eq_or_of_lt (by omega), Nat.shiftLeft_eq]

lemma unpack_eq (word : BitVec 32) : unpack word =
    (word.toNat % 2 ^ 15 * unit, word.toNat / 2 ^ 15 % 2 ^ 15 * unit, word.toNat / 2 ^ 30) := by
  have hmask : offMask.toNat = 2 ^ 15 - 1 := by decide
  simp only [unpack, BitVec.toNat_and, BitVec.toNat_ushiftRight, hmask, Nat.shiftRight_eq_div_pow,
    Nat.and_two_pow_sub_one_eq_mod, offBits, streakShift]

/-- A packed window unpacks to what was packed. -/
lemma unpack_pack {start stop streak : ℕ} (h₁ : start < 2 ^ 15) (h₂ : stop < 2 ^ 15)
    (h₃ : streak < 4) :
    unpack (packStreak streak ||| packOffsets start stop) = (start * unit, stop * unit, streak) := by
  have e₁ : (streak * 2 ^ 30 + (stop * 2 ^ 15 + start)) % 2 ^ 15 = start := by omega
  have e₂ : (streak * 2 ^ 30 + (stop * 2 ^ 15 + start)) / 2 ^ 15 % 2 ^ 15 = stop := by omega
  have e₃ : (streak * 2 ^ 30 + (stop * 2 ^ 15 + start)) / 2 ^ 30 = streak := by omega
  rw [unpack_eq, pack_toNat h₁ h₂ h₃, e₁, e₂, e₃]

lemma unpack_packStreak {streak : ℕ} (h : streak < 4) :
    unpack (packStreak streak) = (0, 0, streak) := by
  have hzero : packStreak streak = packStreak streak ||| packOffsets 0 0 := by
    simp [packOffsets]
  rw [hzero, unpack_pack (by decide) (by decide) h, Nat.zero_mul]

lemma unpack_zero : unpack 0 = (0, 0, 0) := by decide

/-! ## The core -/

/-- The slots an ingress has a bit for. -/
def ingressCells : ℕ := 4096

/-- What the scan that stored a word saw: the bump cursor, the bytes it drained, and how many
blocks the segment had carved. Then what it packed, offsets in bytes. -/
structure Recording where
  bump : ℕ
  drained : ℕ
  carved : ℕ
  start : ℕ
  stop : ℕ
  streak : ℕ

/-- The part of `AllocCore` around the search: the segments, the word of each header, the bases
in the table's slots, the first segment, the route owner of a heap that other threads free to,
and the directory with the misses of each class. -/
structure Core where
  world : World
  window : ℕ → BitVec 32
  slots : List (Option ℕ)
  primordial : ℕ
  owner : Option ℕ
  directory : Bool
  missStreak : ℕ → ℕ
  recorded : ℕ → Option Recording

namespace Core

def smallCur (c : Core) : ℕ := c.world.heap.smallCur

def seg (c : Core) (base : ℕ) : Segment := c.world.heap.segs base

/-- How many blocks a segment has carved since its reservation. -/
def carvedCount (c : Core) (base : ℕ) : ℕ := (c.world.blocks base).carved.length

def isRouted (c : Core) : Bool := c.owner.isSome

/-- `ingress_armed`: the owner has an ingress cell. -/
def ingressArmed (c : Core) : Bool := c.owner.any fun owner => owner < ingressCells

/-- `base_at`: the slots of released segments are vacant. -/
def baseAt (c : Core) (slot : ℕ) : Option ℕ :=
  (c.slots.getD slot none).filter fun base => c.world.heap.mapped base

/-! ## The window -/

/-- The bump is inside the window and the current segment can still carve. -/
def sidecarDrainsDeferred (c : Core) (blockSize : ℕ) : Bool :=
  let (start, stop, _) := unpack (c.window c.smallCur)
  let bump := (c.seg c.smallCur).bump
  start < bump ∧ bump < stop ∧ alignUp bump blockSize + blockSize ≤ segment

def setWindow (c : Core) (word : BitVec 32) (r : Option Recording) : Core :=
  { c with
    window := Function.update c.window c.smallCur word
    recorded := Function.update c.recorded c.smallCur r }

/-- Counts an empty scan and opens a window once the streak is long enough. -/
def noteEmptySidecarScan (c : Core) (drainedBytes : ℕ) : Core :=
  let streak := min ((unpack (c.window c.smallCur)).2.2 + 1) 3
  let bump := (c.seg c.smallCur).bump
  let start := (bump + unit - 1) / unit
  let stop := min (bump + drainedBytes / 2 ^ sidecarDeferShift) segment / unit
  if sidecarDeferStreak ≤ streak ∧ start < stop then
    c.setWindow (packStreak streak ||| packOffsets start stop)
      (some ⟨bump, drainedBytes, c.carvedCount c.smallCur, start * unit, stop * unit, streak⟩)
  else
    c.setWindow (packStreak streak)
      (some ⟨bump, drainedBytes, c.carvedCount c.smallCur, 0, 0, streak⟩)

/-- Closes the window of the current segment. -/
def resetSidecarDeferStreak (c : Core) : Core :=
  if c.window c.smallCur ≠ 0 then c.setWindow 0 none else c

/-- Whether a search leaves the drains out. -/
def deferDrains (bd : Build) (c : Core) (cls : ℕ) (rescue : Bool) : Bool :=
  (!rescue && c.ingressArmed) ||
    (!rescue && c.isRouted && c.sidecarDrainsDeferred (bd.sizes.blockSize cls))

end Core

/-! ## Drains -/

/-- What the drains of a phase meet: the pending records of each segment, with offset and class,
and whether an emptied segment is pooled. -/
structure Ingress where
  pending : ℕ → List (ℕ × ℕ)
  pooled : ℕ → Bool

/-- What draining a segment's sidecar did. -/
inductive SidecarDrainOutcome where
  | skipped
  | drained
  | decommitted (pooled : Bool)
deriving DecidableEq

/-- `consume_small_cuts`: how many records were reclaimed. Other threads free live blocks. -/
def consumeSmallCuts (bd : Build) (base : ℕ) : List (ℕ × ℕ) → World → Option (World × ℕ)
  | [], w => some (w, 0)
  | (off, cls) :: rest, w =>
      if (off, cls) ∈ (w.blocks base).carved ∧ (w.blocks base).place off = .live then do
        let (s, accepted) ← (w.heap.segs base).reclaimSidecarRecord bd off cls
        let b := if accepted then (w.blocks base).put off .free else w.blocks base
        let (w, n) ← consumeSmallCuts bd base rest (w.put base s b)
        return (w, if accepted then n + 1 else n)
      else consumeSmallCuts bd base rest w

namespace Core

/-- `drain_segment_sidecar` with `finish_small_drain`. -/
def drainSegmentSidecar (bd : Build) (c : Core) (base : ℕ) (m : Ingress) :
    Option (Core × SidecarDrainOutcome) :=
  if c.isRouted = false then some (c, .skipped)
  else do
    let (w, n) ← consumeSmallCuts bd base (m.pending base) c.world
    if n = 0 then return ({ c with world := w }, .skipped)
    else
      let (h, emptied) := w.heap.retire base (m.pooled base)
      return ({ c with world := ⟨h, w.blocks⟩ },
        if emptied then .decommitted (m.pooled base) else .drained)

/-! ## Search -/

/-- A drain, and whether the segment then has a free block of the class. -/
def drainAndLook (bd : Build) (c : Core) (cls base : ℕ) (drain : Bool) (m : Ingress) :
    Option (Core × Bool) := do
  let (c, outcome) ← if drain then c.drainSegmentSidecar bd base m else some (c, .skipped)
  return (c, outcome ≠ .decommitted false ∧ (c.seg base).head cls ≠ none)

/-- `scan_directory_candidates` over the slots whose bit is set. -/
def scanDirectoryCandidates (bd : Build) (cls : ℕ) (drain : Bool) (m : Ingress) :
    List ℕ → Core → Option (Core × Option ℕ)
  | [], c => some (c, none)
  | slot :: rest, c =>
      match c.baseAt slot with
      | none => scanDirectoryCandidates bd cls drain m rest c
      | some base => do
          let (c, hit) ← c.drainAndLook bd cls base drain m
          if hit then return (c, some base) else scanDirectoryCandidates bd cls drain m rest c

/-- `process_ingress` over the notified slots: all are drained, the first hit is kept. -/
def processIngress (bd : Build) (cls : ℕ) (m : Ingress) :
    List ℕ → Core → Option (Core × Option ℕ)
  | [], c => some (c, none)
  | slot :: rest, c =>
      match c.baseAt slot with
      | none => processIngress bd cls m rest c
      | some base => do
          let (c, hit) ← c.drainAndLook bd cls base true m
          let (c, later) ← processIngress bd cls m rest c
          return (c, if hit then some base else later)

/-- The first sidecar word that stands for a segment's payload. -/
def sidecarPayloadStartWord (bd : Build) (kind : Kind) : ℕ :=
  bd.payloadStart kind / Sidecar.sidecarWordBytes

/-- The loop of `linear_scan` over the active slots: the bytes drained, whether a drain
reclaimed, and the segment found. -/
def linearLoop (bd : Build) (cls : ℕ) (deferDrains : Bool) (m : Ingress) :
    List ℕ → ℕ → Bool → Core → Option (Core × ℕ × Bool × Option ℕ)
  | [], drainedBytes, reclaimed, c => some (c, drainedBytes, reclaimed, none)
  | slot :: rest, drainedBytes, reclaimed, c =>
      match c.baseAt slot with
      | none => linearLoop bd cls deferDrains m rest drainedBytes reclaimed c
      | some base =>
          let s := c.seg base
          if s.head cls ≠ none then some (c, drainedBytes, reclaimed, some base)
          else if deferDrains then linearLoop bd cls deferDrains m rest drainedBytes reclaimed c
          else do
            let drainedBytes := drainedBytes +
              (s.bump - sidecarPayloadStartWord bd s.kind * Sidecar.sidecarWordBytes)
            let (c, outcome) ← c.drainSegmentSidecar bd base m
            let c := if reclaimed = false ∧ outcome ≠ .skipped then c.resetSidecarDeferStreak
              else c
            let reclaimed := reclaimed || decide (outcome ≠ .skipped)
            if outcome ≠ .decommitted false ∧ (c.seg base).head cls ≠ none then
              return (c, drainedBytes, reclaimed, some base)
            else linearLoop bd cls deferDrains m rest drainedBytes reclaimed c

/-- `linear_scan`, from the slot after the class cursor on and around. -/
def linearScan (bd : Build) (c : Core) (cls : ℕ) (deferDrains : Bool) (start : ℕ) (m : Ingress) :
    Option (Core × Option ℕ) := do
  let order := (List.range c.slots.length).drop start ++ (List.range c.slots.length).take start
  let (c, drainedBytes, reclaimed, found) ← linearLoop bd cls deferDrains m order 0 false c
  match found with
  | some base => return (c, some base)
  | none =>
      if drainedBytes ≠ 0 ∧ reclaimed = false then return (c.noteEmptySidecarScan drainedBytes, none)
      else return (c, none)

/-- Every so many misses of the directory, one scan walks the whole table. -/
def directoryMissFullScanPeriod : ℕ := 64

end Core

/-- What a search meets: the slots whose directory bit is set, the slots notified before and
after the scan, the slot the scan starts from, the pending records of each phase, and whether a
directory is materialised. -/
structure Search where
  candidates : List ℕ
  notified : List ℕ
  notifiedLate : List ℕ
  start : ℕ
  atCandidates : Ingress
  atNotified : Ingress
  atScan : Ingress
  atNotifiedLate : Ingress
  materialises : Bool

namespace Core

/-- A trusted miss of the directory, and whether it ends the search. -/
def countMiss (c : Core) (cls : ℕ) : Core × Bool :=
  let streak := min (c.missStreak cls + 1) 255
  if streak < directoryMissFullScanPeriod then
    ({ c with missStreak := Function.update c.missStreak cls streak }, true)
  else ({ c with missStreak := Function.update c.missStreak cls 0 }, false)

/-- The directory's part of `find_segment_with_free_impl`; the flag says that the search ends. -/
def searchDirectory (bd : Build) (c : Core) (cls : ℕ) (rescue : Bool) (s : Search) :
    Option (Core × Option ℕ × Bool) :=
  if c.directory = false then some (c, none, false)
  else do
    let ingress := !rescue && c.ingressArmed
    let (c, hit) ← scanDirectoryCandidates bd cls (!ingress) s.atCandidates s.candidates c
    if hit.isSome then return (c, hit, true)
    else
      let (c, hit) ← if ingress then processIngress bd cls s.atNotified s.notified c
        else some (c, none)
      if hit.isSome then return (c, hit, true)
      else if (!c.isRouted || ingress) && !rescue then
        let (c, ends) := c.countMiss cls
        return (c, none, ends)
      else return (c, none, false)

/-- Makes the directory, if its memory is granted. -/
def maybeMaterializeDirectory (c : Core) (materialises : Bool) : Core :=
  if c.directory then c else { c with directory := materialises }

/-- `find_segment_with_free_impl`; `rescue` is the forced search. -/
def findSegmentWithFree (bd : Build) (c : Core) (cls : ℕ) (rescue : Bool) (s : Search) :
    Option (Core × Option ℕ) := do
  let ingress := !rescue && c.ingressArmed
  let deferDrains := c.deferDrains bd cls rescue
  let (c, hit, ends) ← c.searchDirectory bd cls rescue s
  if ends then return (c, hit)
  else
    let c := c.maybeMaterializeDirectory s.materialises
    let (c, found) ← c.linearScan bd cls deferDrains s.start s.atScan
    if found.isSome then return (c, found)
    else if ingress then processIngress bd cls s.atNotifiedLate s.notifiedLate c
    else return (c, none)

/-! ## Changes of the current segment -/

/-- `reserve_small_segment` at a base the system granted. The new header's word is 0; the segment
takes the slot if it is vacant, and a new one otherwise. -/
def reserve (bd : Build) (c : Core) (base slot : ℕ) (pooled : Bool) : Core :=
  let vacated := c.slots.map fun s => s.filter fun b => c.world.heap.mapped b
  { c with
    world := ⟨c.world.heap.reserve bd base pooled, Function.update c.world.blocks base .new⟩
    window := Function.update c.window base 0
    recorded := Function.update c.recorded base none
    slots := if vacated[slot]? = some none then vacated.set slot (some base)
      else vacated ++ [some base] }

/-- Releases an empty current segment and falls back to the primordial one. -/
def releaseEmptyCurrentSmallForTrim (c : Core) : Core :=
  let base := c.smallCur
  if (c.seg base).kind ≠ .small ∨ (c.seg base).live ≠ 0 then c
  else
    { c with
      world :=
        ⟨{ c.world.heap with
          smallCur := c.primordial
          mapped := Function.update c.world.heap.mapped base false }, c.world.blocks⟩ }

/-- Drops the directory and the miss counts with it. -/
def releaseDirectory (c : Core) : Core := { c with directory := false, missStreak := fun _ => 0 }

end Core

end ScanBackoff

end SeferAlloc
