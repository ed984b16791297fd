import SeferAlloc.BitWord
import SeferAlloc.Interleaving

/-!
# The heap registry

Slots of heaps are claimed, released and maintained by any number of threads.
Each shared access of the source is one atomic action below; a thread between
two accesses is at a location of `Loc`, which carries the local variables. A
lease is a location as well: the thread sits at `leased` until it drops it. An
abort of the source is the location `fatal`.
-/
namespace SeferAlloc
namespace HeapRegistry
open BitWord

/-- The heaps a process may have. -/
def maxHeaps : ℕ := 4096

/-- The slots of one chunk. -/
def chunkSlots : ℕ := 64

/-- The chunks of the registry. -/
def numChunks : ℕ := maxHeaps / chunkSlots

/-- How many words of the hint one claim may look at. -/
def takeAttempts : ℕ := 2 * (maxHeaps / 64)

/-- How often a claim offers a slot in maintenance again. -/
def maintenanceReclaimBudget : ℕ := 8192

inductive SlotState where
  | empty
  | live
  | initializing
  | free
  | maintenance
deriving DecidableEq

/-- The registry, the bitmap of free slots and the slots themselves. `built` counts
the heaps ever written into a slot. -/
structure Registry where
  chunks : ℕ → Bool
  count : ℕ
  scanCursor : ℕ
  reuseHint : ℕ
  saturation : ℕ
  summary : Word
  words : ℕ → Word
  state : ℕ → SlotState
  generation : ℕ → ℕ
  initialised : ℕ → Bool
  built : ℕ → ℕ

/-- `Registry::new` with an empty `FREE_SLOTS`. -/
def Registry.new : Registry where
  chunks _ := false
  count := 0
  scanCursor := 0
  reuseHint := maxHeaps
  saturation := 0
  summary := 0
  words _ := 0
  state _ := .empty
  generation _ := 0
  initialised _ := false
  built _ := 0

/-! ## The saturation hint -/

/-- The saturation word once its versions have run out. -/
def disabled : ℕ := 2 ^ 64 - 1

/-- The last version a release may publish. -/
def lastVersion : ℕ := disabled - 3

def isSaturated (word : ℕ) : Bool := word != disabled && word % 2 != 0

def publishClaimableWord (old : ℕ) : ℕ := if lastVersion ≤ old then disabled else (old + 2) / 2 * 2

def tryMarkSaturated (word snapshot : ℕ) : ℕ :=
  if snapshot ≠ disabled ∧ snapshot % 2 = 0 ∧ word = snapshot then snapshot + 1 else word

/-! ## Locations -/

/-- Local variables of `claim_impl`. -/
structure Claim where
  failedChunk : Option ℕ
  ctorOomRetries : ℕ
  maintenanceRetries : ℕ
  scanSelected : Bool

def Claim.new : Claim := ⟨none, 0, 0, false⟩

/-- `scan_claimable_slot`, called with `before` and the saturation snapshot at hand,
or `scan_claim_recovery_free`. -/
inductive Scan where
  | claimable (before version : ℕ)
  | recovery (excluded : ℕ)

inductive Loc where
  | idle
  | fatal
  -- `pick_with_hint_spill`
  | loopTop (c : Claim)
  | hintSwap (c : Claim)
  | countLoad (c : Claim) (candidate : ℕ)
  | summaryLoad (c : Claim) (before : ℕ)
  | takeSummary (c : Claim) (before attempt : ℕ)
  | takeWord (c : Claim) (before attempt word : ℕ)
  | takeAnd (c : Claim) (before attempt word b : ℕ)
  | takeCount (c : Claim) (before idx : ℕ)
  | saturatedLoad (c : Claim) (before : ℕ)
  | bumpLoad (c : Claim) (before : ℕ)
  | bumpCas (c : Claim) (before count : ℕ)
  | snapshot (c : Claim) (before : ℕ)
  -- the two slot scans
  | scanCount (c : Claim) (m : Scan)
  | scanCursor (c : Claim) (m : Scan) (count : ℕ)
  | scanSlot (c : Claim) (m : Scan) (count start offset : ℕ) (best : Option ℕ)
  | scanState (c : Claim) (m : Scan) (count start offset : ℕ) (best : Option ℕ)
  | scanInitialised (c : Claim) (m : Scan) (count start offset : ℕ) (best : Option ℕ)
  | scanNone (m : Scan)
  | markSaturated (version : ℕ)
  -- `claim_impl`, with a candidate slot
  | slotOrNone (c : Claim) (idx : ℕ)
  | loadState (c : Claim) (idx : ℕ)
  | casEmpty (c : Claim) (idx : ℕ)
  | casFree (c : Claim) (idx : ℕ)
  | forget (c : Claim) (idx : ℕ)
  | loadInitialised (c : Claim) (idx : ℕ)
  | casInitializing (c : Claim) (idx : ℕ)
  | retainMaintained (c : Claim) (idx : ℕ)
  | bumpGeneration (c : Claim) (idx : ℕ) (firstClaim : Bool)
  | materialise (c : Claim) (idx generation : ℕ)
  | pushBackAfterOom (c : Claim) (idx : ℕ)
  | bindSlotCounters (idx generation : ℕ)
  | storeInitialised (idx generation : ℕ)
  | casLive (idx generation : ℕ)
  | trimForRecycle (idx generation : ℕ)
  | invalidateCaches (idx generation : ℕ)
  -- `HeapLease`
  | leased (idx generation : ℕ)
  | dropLease (idx : ℕ)
  -- `try_maintenance_at` and `MaintenanceLease`
  | maintCount (index : ℕ)
  | maintSlot (index : ℕ)
  | maintInitialised (index : ℕ)
  | maintState (index : ℕ)
  | casMaintenance (index : ℕ)
  | maintained (index : ℕ)
  | dropMaintenance (index : ℕ)
  -- publication, then on to `k`
  | swapHint (idx : ℕ) (k : Loc)
  | publishWord (idx : ℕ) (k : Loc)
  | publishSummary (word : ℕ) (k : Loc)
  | publishClaimable (k : Loc)
  -- `clear_summary_recheck`, then on to `k`
  | clearSummary (word : ℕ) (k : Loc)
  | recheckWord (word : ℕ) (k : Loc)
  | restoreSummary (word : ℕ) (k : Loc)

/-- What a thread does where the source leaves it to its caller. -/
inductive Command where
  | claim
  | maintain (index : ℕ)
  | use
  | drop

/-- The choices of the environment: the caller's command, and whether the next
allocation, constructor or weak compare-and-swap succeeds. -/
structure Choice where
  command : Command
  ok : Bool

/-! ## Actions -/

/-- The next turn of a scan loop; past the last slot, its fallback. -/
def scanNext (c : Claim) (m : Scan) (count start offset : ℕ) (best : Option ℕ) : Loc :=
  .scanSlot c m count start (offset + 1) best

/-- `cas_state` at `idx`; a lost race goes on at `lost`. -/
def casState (r : Registry) (idx : ℕ) (expected new : SlotState) (won lost : Loc) :
    Registry × Loc :=
  if r.state idx = expected then ({ r with state := Function.update r.state idx new }, won)
  else (r, lost)

def setWord (r : Registry) (w : ℕ) (v : Word) : Registry :=
  { r with words := Function.update r.words w v }

/-- One atomic action of a thread. -/
def act (e : Choice) (r : Registry) : Loc → Registry × Loc
  | .idle =>
      match e.command with
      | .claim => (r, .loopTop .new)
      | .maintain index => (r, .maintCount index)
      | _ => (r, .idle)
  | .fatal => (r, .fatal)
  | .loopTop c =>
      match c.failedChunk with
      | some failed => (r, .scanCount { c with scanSelected := true } (.recovery failed))
      | none => (r, .hintSwap { c with scanSelected := false })
  | .hintSwap c => ({ r with reuseHint := maxHeaps }, .countLoad c r.reuseHint)
  | .countLoad c candidate =>
      let before := min r.count maxHeaps
      (r, if candidate < before then .slotOrNone c candidate else .summaryLoad c before)
  | .summaryLoad c before =>
      (r, if r.summary ≠ 0 then .takeSummary c before 0 else .saturatedLoad c before)
  | .takeSummary c before attempt =>
      (r, if takeAttempts ≤ attempt then .saturatedLoad c before
        else if r.summary = 0 then .saturatedLoad c before
        else .takeWord c before attempt (trailingZeros r.summary))
  | .takeWord c before attempt w =>
      (r, if r.words w = 0 then .clearSummary w (.takeSummary c before (attempt + 1))
        else .takeAnd c before attempt w (trailingZeros (r.words w)))
  | .takeAnd c before attempt w b =>
      let old := r.words w
      (setWord r w (old &&& ~~~bit b),
        if old &&& bit b = 0 then .takeSummary c before (attempt + 1)
        else if old = bit b then .clearSummary w (.takeCount c before (w * 64 + b))
        else .takeCount c before (w * 64 + b))
  | .takeCount c before idx =>
      (r, if idx < min r.count maxHeaps then .slotOrNone c idx else .saturatedLoad c before)
  | .saturatedLoad c before =>
      (r, if before = maxHeaps ∧ isSaturated r.saturation then .idle else .bumpLoad c before)
  | .bumpLoad c before => (r, .bumpCas c before r.count)
  | .bumpCas c before count =>
      if maxHeaps ≤ count then (r, .snapshot c before)
      else if r.count = count ∧ e.ok then ({ r with count := count + 1 }, .slotOrNone c count)
      else (r, .bumpCas c before r.count)
  | .snapshot c before =>
      (r, .scanCount { c with scanSelected := true } (.claimable before r.saturation))
  | .scanCount c m =>
      let count := min r.count maxHeaps
      (r, if count = 0 then .scanNone m else .scanCursor c m count)
  | .scanCursor c m count =>
      ({ r with scanCursor := (r.scanCursor + 1) % 2 ^ 32 },
        .scanSlot c m count (r.scanCursor % count) 0 none)
  | .scanSlot c m count start offset best =>
      let idx := (start + offset) % count
      (r, if count ≤ offset then
          match best with
          | some i => .slotOrNone c i
          | none => .scanNone m
        else match m with
          | .claimable .. =>
              if r.chunks (idx / chunkSlots) then .scanState c m count start offset best
              else scanNext c m count start offset (best <|> some idx)
          | .recovery excluded =>
              if idx = excluded then scanNext c m count start offset best
              else if r.chunks (idx / chunkSlots) then .scanState c m count start offset best
              else scanNext c m count start offset best)
  | .scanState c m count start offset best =>
      let idx := (start + offset) % count
      (r, match m with
        | .claimable .. =>
            if r.state idx = .free then .slotOrNone c idx
            else if r.state idx = .empty then .scanInitialised c m count start offset best
            else scanNext c m count start offset best
        | .recovery _ =>
            if r.state idx = .free then .scanInitialised c m count start offset best
            else scanNext c m count start offset best)
  | .scanInitialised c m count start offset best =>
      let idx := (start + offset) % count
      (r, match m with
        | .claimable .. =>
            if r.initialised idx then scanNext c m count start offset best
            else .slotOrNone c idx
        | .recovery _ =>
            if r.initialised idx then .slotOrNone c idx
            else scanNext c m count start offset (best <|> some idx))
  | .scanNone m =>
      (r, match m with
        | .claimable before version =>
            if before = maxHeaps ∧ r.count = maxHeaps then .markSaturated version else .idle
        | .recovery _ => .idle)
  | .markSaturated version => ({ r with saturation := tryMarkSaturated r.saturation version }, .idle)
  | .slotOrNone c idx =>
      let chunk := idx / chunkSlots
      if numChunks ≤ chunk then (r, .fatal)
      else if r.chunks chunk then (r, .loadState c idx)
      else if e.ok then
        ({ r with chunks := Function.update r.chunks chunk true }, .loadState c idx)
      else (r, .swapHint idx (.loopTop { c with failedChunk := some idx }))
  | .loadState c idx =>
      (r, match r.state idx with
        | .empty => .casEmpty c idx
        | .free => .casFree c idx
        | .maintenance =>
            if c.maintenanceRetries < maintenanceReclaimBudget then
              .retainMaintained { c with maintenanceRetries := c.maintenanceRetries + 1 } idx
            else .loopTop c
        | _ => .loopTop c)
  | .casEmpty c idx => casState r idx .empty .initializing (.bumpGeneration c idx true) (.loopTop c)
  | .casFree c idx =>
      casState r idx .free .live (if c.scanSelected then .forget c idx else .loadInitialised c idx)
        (.loopTop c)
  | .forget c idx =>
      (setWord r (idx / 64) (r.words (idx / 64) &&& ~~~bit (idx % 64)), .loadInitialised c idx)
  | .loadInitialised c idx =>
      (r, if r.initialised idx then .bumpGeneration c idx false else .casInitializing c idx)
  | .casInitializing c idx =>
      casState r idx .live .initializing (.bumpGeneration c idx true) .fatal
  | .retainMaintained c idx =>
      (r, if r.chunks (idx / chunkSlots) then .publishWord idx (.loopTop c) else .loopTop c)
  | .bumpGeneration c idx firstClaim =>
      let generation := (r.generation idx + 1) % 2 ^ 64
      ({ r with generation := Function.update r.generation idx generation },
        if firstClaim then .materialise c idx generation else .trimForRecycle idx generation)
  | .materialise c idx generation =>
      if e.ok then
        ({ r with built := Function.update r.built idx (r.built idx + 1) },
          .bindSlotCounters idx generation)
      else (r, .pushBackAfterOom c idx)
  | .pushBackAfterOom c idx =>
      casState r idx .initializing .free
        (.publishWord idx (.publishClaimable
          (if 1 ≤ c.ctorOomRetries then .idle
            else .loopTop { c with
              ctorOomRetries := c.ctorOomRetries + 1
              failedChunk := some idx })))
        .fatal
  | .bindSlotCounters idx generation => (r, .storeInitialised idx generation)
  | .storeInitialised idx generation =>
      ({ r with initialised := Function.update r.initialised idx true }, .casLive idx generation)
  | .casLive idx generation =>
      casState r idx .initializing .live (.invalidateCaches idx generation) .fatal
  | .trimForRecycle idx generation => (r, .invalidateCaches idx generation)
  | .invalidateCaches idx generation => (r, .leased idx generation)
  | .leased idx generation =>
      match e.command with
      | .drop => (r, .dropLease idx)
      | _ => (r, .leased idx generation)
  | .dropLease idx => casState r idx .live .free (.swapHint idx .idle) .fatal
  | .maintCount index => (r, if min r.count maxHeaps ≤ index then .idle else .maintSlot index)
  | .maintSlot index =>
      (r, if numChunks ≤ index / chunkSlots then .fatal
        else if r.chunks (index / chunkSlots) then .maintInitialised index else .idle)
  | .maintInitialised index => (r, if r.initialised index then .maintState index else .idle)
  | .maintState index => (r, if r.state index = .free then .casMaintenance index else .idle)
  | .casMaintenance index => casState r index .free .maintenance (.maintained index) .idle
  | .maintained index =>
      match e.command with
      | .drop => (r, .dropMaintenance index)
      | _ => (r, .maintained index)
  | .dropMaintenance index => casState r index .maintenance .free (.swapHint index .idle) .fatal
  | .swapHint idx k =>
      ({ r with reuseHint := idx },
        if r.reuseHint < maxHeaps then .publishWord r.reuseHint (.publishClaimable k)
        else .publishClaimable k)
  | .publishWord idx k =>
      (setWord r (idx / 64) (r.words (idx / 64) ||| bit (idx % 64)), .publishSummary (idx / 64) k)
  | .publishSummary w k => ({ r with summary := r.summary ||| bit w }, k)
  | .publishClaimable k => ({ r with saturation := publishClaimableWord r.saturation }, k)
  | .clearSummary w k => ({ r with summary := r.summary &&& ~~~bit w }, .recheckWord w k)
  | .recheckWord w k => (r, if r.words w ≠ 0 then .restoreSummary w k else k)
  | .restoreSummary w k => ({ r with summary := r.summary ||| bit w }, k)

/-- Threads named by `ι`, none of which has started. -/
def World.init (ι : Type*) : Interleaving.World ι Registry Loc := ⟨.new, fun _ => .idle⟩

end HeapRegistry

end SeferAlloc
