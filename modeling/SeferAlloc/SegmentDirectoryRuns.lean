import SeferAlloc.SegmentDirectory

/-!
# The directory along a run

The heads of the free lists change at five places, and each of them tells the
directory. A bit may stay behind in the shared bucket when its node gets a
bucket of its own; but a class that has a free block always has a bit, so that
a scan of all buckets that finds nothing has missed nothing.
-/
namespace SeferAlloc
namespace Directory
open BitWord

/-- A registered segment: its kind, the node in its header, and its free lists by class. The head of
an empty list is `FREE_LIST_NULL`. -/
structure Segment where
  kind : SegmentKind
  nodeId : ℕ
  free : ℕ → List ℕ

/-- A segment that serves small classes, `SegmentKind::Small | SegmentKind::Primordial`. -/
def Segment.small (g : Segment) : Bool := g.kind = .small ∨ g.kind = .primordial

/-- The table of an `AllocCore`, as far as the directory reads it, and the sidecar. -/
structure Heap where
  table : ℕ → Option Segment
  count : ℕ
  directory : Option SegmentDirectory

def Heap.new : Heap := ⟨fun _ => none, 0, none⟩

/-- The segments from which a directory is made. -/
def directoryMaterializeThreshold : ℕ := 32

variable (b : Build)

/-- The node of the segment in a slot. -/
def directoryNodeIdOf (h : Heap) (slotIdx : ℕ) : ℕ := ((h.table slotIdx).map Segment.nodeId).getD 0

/-- Work on the directory, if there is one. -/
def withDirectory (f : SegmentDirectory → SegmentDirectory) (h : Heap) : Heap :=
  { h with directory := h.directory.map f }

/-- A list got its first block. -/
def publishNonempty (classIdx slotIdx : ℕ) (h : Heap) : Heap :=
  withDirectory (setBit b (directoryNodeIdOf h slotIdx) classIdx slotIdx) h

/-- A list lost its last block. -/
def publishEmpty (classIdx slotIdx : ℕ) (h : Heap) : Heap :=
  withDirectory (clearBitAllNodes b classIdx slotIdx) h

/-- A segment leaves the table. -/
def clearSegmentDirectory (slotIdx : ℕ) (h : Heap) : Heap := withDirectory (clearSlot b slotIdx) h

/-- One class of `sync_directory_for_segment_classes`. -/
def syncClass (g : Segment) (slotIdx : ℕ) (d : SegmentDirectory) (c : ℕ) : SegmentDirectory :=
  if g.free c ≠ [] then setBit b g.nodeId c slotIdx d else clearBit b g.nodeId c slotIdx d

/-- `sync_directory_for_segment_classes`: the classes of the word, from the least one up. -/
def syncDirectoryForSegmentClasses (g : Segment) (slotIdx : ℕ) (changedClasses : Word) (h : Heap) :
    Heap :=
  withDirectory (fun d => (bits changedClasses).foldl (syncClass b g slotIdx) d) h

/-- One class of a segment in `rebuild_from_table`. -/
def rebuildClass (g : Segment) (i : ℕ) (d : SegmentDirectory) (c : ℕ) : SegmentDirectory :=
  if g.free c ≠ [] then setBit b g.nodeId c i d else d

/-- Publishes every non-empty list of every small segment in the table. -/
def rebuildFromTable (table : ℕ → Option Segment) (count : ℕ) (d : SegmentDirectory) :
    SegmentDirectory :=
  (List.range count).foldl (fun d i =>
    match table i with
    | none => d
    | some g =>
      if g.small then (List.range b.classes).foldl (rebuildClass b g i) d else d) d

/-- `maybe_materialize_directory`; the reservation may fail. -/
def maybeMaterializeDirectory (reserved : Bool) (h : Heap) : Heap :=
  if h.directory.isSome then h
  else if h.count < directoryMaterializeThreshold then h
  else if reserved then { h with directory := some (rebuildFromTable b h.table h.count fresh) }
  else h

/-- Drops the directory. -/
def releaseDirectoryForColdTrim (h : Heap) : Heap := { h with directory := none }

/-- `dbg_rebuild_directory`: the bits and the counters are zeroed, the nodes are kept. -/
def dbgRebuildDirectory (h : Heap) : Heap :=
  withDirectory (fun d => rebuildFromTable b h.table h.count
    { d with classNonemptyByNode := fun _ _ _ => 0, activeBitsByNode := fun _ => 0 }) h

/-! ## Steps -/

/-- The free list of a class of a segment. -/
def setFree (s c : ℕ) (g : Segment) (l : List ℕ) (h : Heap) : Heap :=
  { h with table := Function.update h.table s (some { g with free := Function.update g.free c l }) }

/-- The end of `dealloc_small`: a block is pushed. -/
def pushFree (s c : ℕ) (g : Segment) (off : ℕ) (h : Heap) : Heap :=
  let oldHead := g.free c
  let h := setFree s c g (off :: oldHead) h
  if oldHead = [] then publishNonempty b c s h else h

/-- Takes the first block off a list and publishes the list as empty with the last one. -/
def popFree (s c : ℕ) (g : Segment) (h : Heap) : Heap :=
  match g.free c with
  | [] => h
  | _ :: newHead =>
    let h := setFree s c g newHead h
    if newHead = [] then publishEmpty b c s h else h

/-- The batch that pops up to `n` blocks. -/
def drainFreelistBatch (s c n : ℕ) (g : Segment) (h : Heap) : Heap :=
  if n = 0 ∨ g.free c = [] then h
  else
    let newHead := (g.free c).drop n
    let h := setFree s c g newHead h
    if newHead = [] then publishEmpty b c s h else h

/-- One run of the magazine's flush: the accepted blocks are pushed. -/
def flushRun (s c : ℕ) (g : Segment) (accepted : List ℕ) (h : Heap) : Heap :=
  if accepted = [] then h
  else
    let oldHead := g.free c
    let h := setFree s c g (accepted.reverse ++ oldHead) h
    if oldHead = [] then publishNonempty b c s h else h

/-- The free lists after the records of a remote drain, each a class and an offset. -/
def reclaimed (g : Segment) (records : List (ℕ × ℕ)) : Segment :=
  records.foldl (fun g r => { g with free := Function.update g.free r.1 (r.2 :: g.free r.1) }) g

/-- The classes of the records. -/
def changedClasses (records : List (ℕ × ℕ)) : Word :=
  records.foldl (fun w r => w ||| bit r.1) 0

/-- A remote drain of a segment, up to `finish_small_drain`. -/
def reclaim (s : ℕ) (g : Segment) (records : List (ℕ × ℕ)) (h : Heap) : Heap :=
  let g := reclaimed g records
  syncDirectoryForSegmentClasses b g s (changedClasses records)
    { h with table := Function.update h.table s (some g) }

/-- A segment gets a slot: a recycled one or the next one. Its header carries its node, and its free
lists are empty. -/
def register (s : ℕ) (kind : SegmentKind) (nodeId : ℕ) (h : Heap) : Heap :=
  if (h.table s).isNone ∧ s ≤ h.count ∧ s < maxSegments then
    { h with
      table := Function.update h.table s (some ⟨kind, nodeId, fun _ => []⟩)
      count := max h.count (s + 1) }
  else h

/-- A segment leaves its slot; the bits of a small one are cleared before. -/
def unregister (s : ℕ) (g : Segment) (h : Heap) : Heap :=
  let h := if g.small then clearSegmentDirectory b s h else h
  { h with table := Function.update h.table s none }

/-- `validate_directory_candidate`, without its drain. -/
def validateDirectoryCandidate (classIdx slotIdx : ℕ) (h : Heap) : Heap × Option ℕ :=
  match h.table slotIdx with
  | none => (publishEmpty b classIdx slotIdx h, none)
  | some g =>
    if g.small = false then (publishEmpty b classIdx slotIdx h, none)
    else if g.free classIdx = [] then (publishEmpty b classIdx slotIdx h, none)
    else (h, some slotIdx)

/-- What the allocator does. A step on a segment needs the segment to be there, and small where its
free lists change; `heal` is the full scan that publishes a hit. -/
inductive Event where
  | register (s : ℕ) (kind : SegmentKind) (nodeId : ℕ)
  | unregister (s : ℕ)
  | push (s c off : ℕ)
  | pop (s c : ℕ)
  | popBatch (s c n : ℕ)
  | flush (s c : ℕ) (accepted : List ℕ)
  | reclaim (s : ℕ) (records : List (ℕ × ℕ))
  | sync (s : ℕ) (changed : Word)
  | validate (s c : ℕ)
  | heal (s c : ℕ)
  | materialize (reserved : Bool)
  | release
  | rebuild

/-- The small segment of a slot. -/
def smallAt (h : Heap) (s : ℕ) : Option Segment := (h.table s).filter Segment.small

/-- One step. -/
def step (h : Heap) : Event → Heap
  | .register s kind nodeId => register s kind nodeId h
  | .unregister s => ((h.table s).map fun g => unregister b s g h).getD h
  | .push s c off =>
    ((smallAt h s).map fun g => if c < b.classes then pushFree b s c g off h else h).getD h
  | .pop s c => ((smallAt h s).map fun g => if c < b.classes then popFree b s c g h else h).getD h
  | .popBatch s c n =>
    ((smallAt h s).map fun g => if c < b.classes then drainFreelistBatch b s c n g h else h).getD h
  | .flush s c accepted =>
    ((smallAt h s).map fun g => if c < b.classes then flushRun b s c g accepted h else h).getD h
  | .reclaim s records =>
    ((smallAt h s).map fun g =>
      if ∀ r ∈ records, r.1 < b.classes then reclaim b s g records h else h).getD h
  | .sync s changed =>
    ((smallAt h s).map fun g =>
      if ∀ c ∈ bits changed, c < b.classes then
        syncDirectoryForSegmentClasses b g s changed h
      else h).getD h
  | .validate s c =>
    if c < b.classes ∧ s < maxSegments then (validateDirectoryCandidate b c s h).1 else h
  | .heal s c =>
    ((smallAt h s).map fun g =>
      if c < b.classes ∧ g.free c ≠ [] then publishNonempty b c s h else h).getD h
  | .materialize reserved => maybeMaterializeDirectory b reserved h
  | .release => releaseDirectoryForColdTrim h
  | .rebuild => dbgRebuildDirectory b h

/-- A run from an empty table. -/
def run (es : List Event) : Heap := es.foldl (step b) .new

/-! ## Exactness -/

variable {b} {table table' : ℕ → Option Segment} {d d' : SegmentDirectory} {c s nb : ℕ} {g : Segment}

/-- The slot has a small segment with a free block of the class. -/
def HasFree (table : ℕ → Option Segment) (c s : ℕ) : Prop :=
  ∃ g, table s = some g ∧ g.small = true ∧ g.free c ≠ []

/-- Bits are of small segments, and the bits of a bucket with a node are of segments of this node. -/
structure Placed (b : Build) (table : ℕ → Option Segment) (d : SegmentDirectory) : Prop where
  owned : ∀ nb < b.maxNodes, ∀ c < b.classes, ∀ s < maxSegments, d.get nb c s = true →
    ∃ g, table s = some g ∧ g.small = true ∧ g.nodeId = d.nodeIds nb
  shared : ∀ c < b.classes, ∀ s < maxSegments, d.get b.maxNodes c s = true →
    ∃ g, table s = some g ∧ g.small = true

/-- A bit outside the shared bucket tells of a free block, and a class with a free block has its bit
in the bucket of its node or in the shared one. -/
structure AgreesAt (b : Build) (table : ℕ → Option Segment) (d : SegmentDirectory) (c s : ℕ) :
    Prop where
  sharp : ∀ nb < b.maxNodes, d.get nb c s = true → HasFree table c s
  found : ∀ g, table s = some g → g.small = true → g.free c ≠ [] →
    ∃ nb ≤ b.maxNodes, d.get nb c s = true ∧ (nb = b.maxNodes ∨ d.nodeIds nb = g.nodeId)

/-- What a directory keeps along a run. -/
structure Exact (b : Build) (table : ℕ → Option Segment) (d : SegmentDirectory) : Prop where
  counted : Counted b d
  released : ∀ k < b.maxNodes, ReleasedAt d k
  placed : Placed b table d
  agrees : ∀ c < b.classes, ∀ s < maxSegments, AgreesAt b table d c s

/-- A hook makes the directory agree at one class of one slot, and disturbs no other. -/
structure Hooked (b : Build) (table : ℕ → Option Segment) (d d' : SegmentDirectory) (c s : ℕ) :
    Prop where
  counted : Counted b d'
  released : ∀ k < b.maxNodes, ReleasedAt d k → ReleasedAt d' k
  placed : Placed b table d'
  here : AgreesAt b table d' c s
  elsewhere : ∀ c' < b.classes, ∀ s' < maxSegments, ¬ (c' = c ∧ s' = s) →
    AgreesAt b table d c' s' → AgreesAt b table d' c' s'

/-- `set_bit` for a class that has a free block. -/
lemma setBit_hooked (hd : Counted b d) (hp : Placed b table d) (hc : c < b.classes)
    (hs : s < maxSegments) (hg : table s = some g) (hsm : g.small = true) (hf : g.free c ≠ []) :
    Hooked b table d (setBit b g.nodeId c s d) c s := by
  obtain ⟨nb, hle, hcount, hrel, hget, hkeep, hnode, -⟩ := setBit_spec hd hc hs g.nodeId
  have hget' : ∀ k c' s', (setBit b g.nodeId c s d).get k c' s' = true ↔
      (k = nb ∧ c' = c ∧ s' = s) ∨ d.get k c' s' = true := by
    intro k c' s'
    rw [hget, Bool.or_eq_true, decide_eq_true_eq]
  refine ⟨hcount, hrel, ⟨fun k hk c' hc' s' hs' hb => ?_, fun c' hc' s' hs' hb => ?_⟩,
    ⟨fun _ _ _ => ⟨g, hg, hsm, hf⟩, fun g' hg' _ _ => ?_⟩, fun c' hc' s' hs' hne ha =>
    ⟨fun k hk hb => ?_, fun g' hg' hsm' hf' => ?_⟩⟩
  · obtain ⟨rfl, rfl, rfl⟩ | hb := (hget' k c' s').mp hb
    · exact ⟨g, hg, hsm, (hnode hk).symm⟩
    · rw [hkeep k hk (hd.nodeIds_ne hk hc' hs' hb)]
      exact hp.owned k hk c' hc' s' hs' hb
  · obtain ⟨-, rfl, rfl⟩ | hb := (hget' _ c' s').mp hb
    · exact ⟨g, hg, hsm⟩
    · exact hp.shared c' hc' s' hs' hb
  · obtain rfl : g = g' := Option.some.inj (hg.symm.trans hg')
    refine ⟨nb, hle, (hget' nb c s).mpr (.inl ⟨rfl, rfl, rfl⟩), ?_⟩
    exact hle.eq_or_lt.imp_right hnode
  · obtain ⟨-, he⟩ | hb := (hget' k c' s').mp hb
    · exact absurd he hne
    · exact ha.sharp k hk hb
  · obtain ⟨k, hk, hb, hid⟩ := ha.found g' hg' hsm' hf'
    refine ⟨k, hk, (hget' k c' s').mpr (.inr hb), ?_⟩
    obtain rfl | hlt := hk.eq_or_lt
    · exact .inl rfl
    · rw [hkeep k hlt (hd.nodeIds_ne hlt hc' hs' hb)]
      exact hid

/-- A bucket that has a bit left still has its node. -/
lemma Clears.nodeIds_eq {gone : ℕ → ℕ → ℕ → Prop} (h : Clears b d d' gone) (hnb : nb < b.maxNodes)
    (hc : c < b.classes) (hs : s < maxSegments) (hb : d'.get nb c s = true) :
    d'.nodeIds nb = d.nodeIds nb :=
  (h.ids nb hnb).resolve_right (h.counted.nodeIds_ne hnb hc hs hb)

lemma Placed.clears {gone : ℕ → ℕ → ℕ → Prop} (hp : Placed b table d) (h : Clears b d d' gone) :
    Placed b table d' where
  owned k hk c hc s hs hb := by
    rw [h.nodeIds_eq hk hc hs hb]
    exact hp.owned k hk c hc s hs ((h.get k c s).mp hb).1
  shared c hc s hs hb := hp.shared c hc s hs ((h.get _ c s).mp hb).1

lemma AgreesAt.clears {gone : ℕ → ℕ → ℕ → Prop} (ha : AgreesAt b table d c s)
    (h : Clears b d d' gone) (hc : c < b.classes) (hs : s < maxSegments)
    (hstay : ∀ k, ¬ gone k c s) : AgreesAt b table d' c s := by
  refine ⟨fun k hk hb => ha.sharp k hk ((h.get k c s).mp hb).1, fun g hg hsm hf => ?_⟩
  obtain ⟨k, hk, hb, hid⟩ := ha.found g hg hsm hf
  have hb' : d'.get k c s = true := (h.get k c s).mpr ⟨hb, hstay k⟩
  refine ⟨k, hk, hb', ?_⟩
  obtain rfl | hlt := hk.eq_or_lt
  · exact .inl rfl
  · rw [h.nodeIds_eq hlt hc hs hb']
    exact hid

/-- Clearing bits at one class of one slot that has no free block. -/
lemma clears_hooked {gone : ℕ → ℕ → ℕ → Prop} (hp : Placed b table d) (h : Clears b d d' gone)
    (hhere : ∀ k c' s', gone k c' s' → c' = c ∧ s' = s) (hf : ¬ HasFree table c s)
    (hall : ∀ k < b.maxNodes, d.get k c s = true → gone k c s) : Hooked b table d d' c s where
  counted := h.counted
  released := h.released
  placed := hp.clears h
  here := by
    refine ⟨fun k hk hb => ?_, fun g hg hsm hne => (hf ⟨g, hg, hsm, hne⟩).elim⟩
    obtain ⟨hb, hgone⟩ := (h.get k c s).mp hb
    exact (hgone (hall k hk hb)).elim
  elsewhere c' hc' s' hs' hne ha := ha.clears h hc' hs' fun k hgone => hne (hhere k c' s' hgone)

/-- `clear_bit_all_nodes` for a class that has no free block. -/
lemma clearBitAllNodes_hooked (hd : Counted b d) (hp : Placed b table d) (hc : c < b.classes)
    (hs : s < maxSegments) (hf : ¬ HasFree table c s) :
    Hooked b table d (clearBitAllNodes b c s d) c s :=
  clears_hooked hp (clearBitAllNodes_clears hd hc hs) (fun _ _ _ h => h.2) hf
    fun _ hk _ => ⟨hk.le, rfl, rfl⟩

/-- `clear_bit` for a class that has no free block: a bit outside the shared bucket is in the bucket
of the node. -/
lemma clearBit_hooked (hd : Counted b d) (hp : Placed b table d) (hc : c < b.classes)
    (hs : s < maxSegments) (hg : table s = some g) (hf : ¬ HasFree table c s) :
    Hooked b table d (clearBit b g.nodeId c s d) c s := by
  refine clears_hooked hp (clearBit_clears hd hc hs g.nodeId) (fun _ _ _ h => h.2) hf
    fun k hk hb => ⟨?_, rfl, rfl⟩
  obtain ⟨g', hg', -, hid⟩ := hp.owned k hk c hc s hs hb
  obtain rfl : g = g' := Option.some.inj (hg.symm.trans hg')
  rw [hid]
  exact (hd.nodeBucket_eq hk (hd.nodeIds_ne hk hc hs hb)).symm

/-- One class of a sync. -/
lemma syncClass_hooked (hd : Counted b d) (hp : Placed b table d) (hc : c < b.classes)
    (hs : s < maxSegments) (hg : table s = some g) (hsm : g.small = true) :
    Hooked b table d (syncClass b g s d c) c s := by
  unfold syncClass
  split_ifs with hf
  · exact setBit_hooked hd hp hc hs hg hsm hf
  · refine clearBit_hooked hd hp hc hs hg ?_
    rintro ⟨g', hg', -, hne⟩
    obtain rfl : g = g' := Option.some.inj (hg.symm.trans hg')
    exact hf hne

/-- A directory that agrees but at one class of one slot is exact after the hook there. -/
lemma Hooked.exact (h : Hooked b table d d' c s) (hr : ∀ k < b.maxNodes, ReleasedAt d k)
    (ha : ∀ c' < b.classes, ∀ s' < maxSegments, ¬ (c' = c ∧ s' = s) →
      AgreesAt b table d c' s') : Exact b table d' where
  counted := h.counted
  released k hk := h.released k hk (hr k hk)
  placed := h.placed
  agrees c' hc' s' hs' := by
    by_cases he : c' = c ∧ s' = s
    · obtain ⟨rfl, rfl⟩ := he
      exact h.here
    · exact h.elsewhere c' hc' s' hs' he (ha c' hc' s' hs' he)

/-- A directory that agrees but at some classes of one slot is exact after a sync of these. -/
lemma sync_exact (hs : s < maxSegments) (hg : table s = some g) (hsm : g.small = true)
    (cs : List ℕ) (hcs : ∀ c ∈ cs, c < b.classes) (hd : Counted b d)
    (hr : ∀ k < b.maxNodes, ReleasedAt d k) (hp : Placed b table d)
    (ha : ∀ c' < b.classes, ∀ s' < maxSegments, ¬ (c' ∈ cs ∧ s' = s) →
      AgreesAt b table d c' s') :
    Exact b table (cs.foldl (syncClass b g s) d) := by
  induction cs generalizing d with
  | nil => exact ⟨hd, hr, hp, fun c hc s' hs' => ha c hc s' hs' (by simp)⟩
  | cons c cs ih =>
    have h := syncClass_hooked hd hp (hcs c (List.mem_cons_self ..)) hs hg hsm
    refine ih (fun c' hc' => hcs c' (List.mem_cons_of_mem _ hc')) h.counted
      (fun k hk => h.released k hk (hr k hk)) h.placed fun c' hc' s' hs' hne => ?_
    by_cases he : c' = c ∧ s' = s
    · obtain ⟨rfl, rfl⟩ := he
      exact h.here
    · refine h.elsewhere c' hc' s' hs' he (ha c' hc' s' hs' ?_)
      rintro ⟨hm, rfl⟩
      obtain rfl | hm := List.mem_cons.mp hm
      · exact he ⟨rfl, rfl⟩
      · exact hne ⟨hm, rfl⟩

/-! ## Rebuilds -/

/-- What holds during a rebuild that began with `d₀`. -/
structure Rebuilding (b : Build) (table : ℕ → Option Segment) (d₀ d : SegmentDirectory) : Prop where
  counted : Counted b d
  placed : Placed b table d
  sharp : ∀ k < b.maxNodes, ∀ c < b.classes, ∀ s < maxSegments, d.get k c s = true →
    HasFree table c s
  kept : ∀ k < b.maxNodes, d₀.nodeIds k ≠ nodeSlotEmpty → d.nodeIds k = d₀.nodeIds k
  released : ∀ k < b.maxNodes, d₀.nodeIds k = nodeSlotEmpty → ReleasedAt d k

/-- A class with a free block has its bit, and has it in the bucket that its node had. -/
def Filled (b : Build) (table : ℕ → Option Segment) (d₀ d : SegmentDirectory) (c s : ℕ) : Prop :=
  ∀ g, table s = some g → g.small = true → g.free c ≠ [] →
    (∃ nb ≤ b.maxNodes, d.get nb c s = true ∧ (nb = b.maxNodes ∨ d.nodeIds nb = g.nodeId)) ∧
    ∀ k < b.maxNodes, d₀.nodeIds k = g.nodeId → g.nodeId ≠ nodeSlotEmpty → d.get k c s = true

/-- A part of a rebuild. -/
structure Fills (b : Build) (table : ℕ → Option Segment) (d₀ d d' : SegmentDirectory)
    (done : ℕ → ℕ → Prop) : Prop where
  rebuilding : Rebuilding b table d₀ d'
  kept : ∀ c < b.classes, ∀ s < maxSegments, Filled b table d₀ d c s → Filled b table d₀ d' c s
  filled : ∀ c < b.classes, ∀ s < maxSegments, done c s → Filled b table d₀ d' c s

variable {d₀ : SegmentDirectory}

lemma Fills.foldl {α : Type*} {f : SegmentDirectory → α → SegmentDirectory}
    {done : α → ℕ → ℕ → Prop} (xs : List α)
    (hf : ∀ x ∈ xs, ∀ d, Rebuilding b table d₀ d → Fills b table d₀ d (f d x) (done x))
    (hd : Rebuilding b table d₀ d) :
    Fills b table d₀ d (xs.foldl f d) fun c s => ∃ x ∈ xs, done x c s := by
  induction xs generalizing d with
  | nil => exact ⟨hd, fun _ _ _ _ h => h, by simp⟩
  | cons x xs ih =>
    have h₁ := hf x (List.mem_cons_self ..) d hd
    have h₂ := ih (fun y hy => hf y (List.mem_cons_of_mem _ hy)) h₁.rebuilding
    refine ⟨h₂.rebuilding, fun c hc s hs h => h₂.kept c hc s hs (h₁.kept c hc s hs h),
      fun c hc s hs hdone => ?_⟩
    obtain ⟨y, hy, hyd⟩ := hdone
    obtain rfl | hy := List.mem_cons.mp hy
    · exact h₂.kept c hc s hs (h₁.filled c hc s hs hyd)
    · exact h₂.filled c hc s hs ⟨y, hy, hyd⟩

lemma rebuildClass_fills (h : Rebuilding b table d₀ d) (hc : c < b.classes) (hs : s < maxSegments)
    (hg : table s = some g) (hsm : g.small = true) :
    Fills b table d₀ d (rebuildClass b g s d c) fun c' s' => c' = c ∧ s' = s := by
  unfold rebuildClass
  split_ifs with hf
  · obtain ⟨nb, hle, -, hrel, hget, hkeep, hnode, htaken⟩ := setBit_spec h.counted hc hs g.nodeId
    have hh := setBit_hooked h.counted h.placed hc hs hg hsm hf
    have hmono : ∀ k c' s', d.get k c' s' = true →
        (setBit b g.nodeId c s d).get k c' s' = true := fun k c' s' hb => by
      rw [hget, hb, Bool.or_true]
    refine ⟨⟨hh.counted, hh.placed, fun k hk c' hc' s' hs' hb => ?_, fun k hk hne => ?_,
      fun k hk he => hrel k hk (h.released k hk he)⟩, fun c' hc' s' hs' hfill => ?_, ?_⟩
    · by_cases he : c' = c ∧ s' = s
      · obtain ⟨rfl, rfl⟩ := he
        exact ⟨g, hg, hsm, hf⟩
      · rw [hget, Bool.or_eq_true, decide_eq_true_eq] at hb
        exact h.sharp k hk c' hc' s' hs' (hb.resolve_left fun hb => he hb.2)
    · rw [hkeep k hk (h.kept k hk hne ▸ hne), h.kept k hk hne]
    · intro g' hg' hsm' hf'
      obtain ⟨⟨k, hk, hb, hid⟩, hall⟩ := hfill g' hg' hsm' hf'
      refine ⟨⟨k, hk, hmono k c' s' hb, ?_⟩, fun k hk he hne => hmono k c' s' (hall k hk he hne)⟩
      obtain rfl | hlt := hk.eq_or_lt
      · exact .inl rfl
      · rw [hkeep k hlt (h.counted.nodeIds_ne hlt hc' hs' hb)]
        exact hid
    · rintro c' hc' s' hs' ⟨rfl, rfl⟩ g' hg' hsm' hf'
      obtain rfl : g = g' := Option.some.inj (hg.symm.trans hg')
      refine ⟨hh.here.found g hg hsm hf, fun k hk he hne => ?_⟩
      have hk₀ : d.nodeIds k = g.nodeId := (h.kept k hk (he ▸ hne)).trans he
      obtain rfl := htaken k hk hk₀ hne
      simp [hget]
  · refine ⟨h, fun _ _ _ _ hfill => hfill, ?_⟩
    rintro c' hc' s' hs' ⟨rfl, rfl⟩ g' hg' hsm' hf'
    obtain rfl : g = g' := Option.some.inj (hg.symm.trans hg')
    exact absurd hf' hf

/-- A rebuild gives every class with a free block its bit. -/
lemma rebuildFromTable_spec {count : ℕ} (hcount : count ≤ maxSegments)
    (htable : ∀ s g, table s = some g → s < count) (h : Rebuilding b table d d) :
    Rebuilding b table d (rebuildFromTable b table count d) ∧
      ∀ c < b.classes, ∀ s < maxSegments,
        Filled b table d (rebuildFromTable b table count d) c s := by
  have key : Fills b table d d (rebuildFromTable b table count d) fun _ s =>
      ∃ i ∈ List.range count, s = i := by
    let done : ℕ → ℕ → ℕ → Prop := fun i _ s => s = i
    suffices hstep : ∀ i ∈ List.range count, ∀ d', Rebuilding b table d d' →
        Fills b table d d' _ (done i) from Fills.foldl _ hstep h
    intro i hi d' hd'
    have hi' : i < maxSegments := (List.mem_range.mp hi).trans_le hcount
    cases hg : table i with
    | none =>
      refine ⟨hd', fun _ _ _ _ hfill => hfill, ?_⟩
      rintro c - s - rfl g hg'
      exact absurd (hg.symm.trans hg') (by simp)
    | some g =>
      by_cases hsm : g.small = true
      · have hin := Fills.foldl (f := rebuildClass b g i) (List.range b.classes)
          (fun c hc d hd => rebuildClass_fills hd (List.mem_range.mp hc) hi' hg hsm) hd'
        simp only [hsm, if_true]
        refine ⟨hin.rebuilding, hin.kept, ?_⟩
        rintro c hc s hs rfl
        exact hin.filled c hc s hs ⟨c, List.mem_range.mpr hc, rfl, rfl⟩
      · simp only [hsm]
        refine ⟨hd', fun _ _ _ _ hfill => hfill, ?_⟩
        rintro c - s - rfl g' hg' hsm'
        obtain rfl : g = g' := Option.some.inj (hg.symm.trans hg')
        exact absurd hsm' hsm
  refine ⟨key.rebuilding, fun c hc s hs g hg => ?_⟩
  exact key.filled c hc s hs ⟨s, List.mem_range.mpr (htable s g hg), rfl⟩ g hg

lemma Rebuilding.exact (h : Rebuilding b table d₀ d)
    (hf : ∀ c < b.classes, ∀ s < maxSegments, Filled b table d₀ d c s)
    (hr : ∀ k < b.maxNodes, ReleasedAt d k) : Exact b table d where
  counted := h.counted
  released := hr
  placed := h.placed
  agrees c hc s hs := ⟨fun k hk hb => h.sharp k hk c hc s hs hb,
    fun g hg hsm hne => (hf c hc s hs g hg hsm hne).1⟩

/-- The first rebuild. -/
lemma rebuild_fresh {count : ℕ} (hcount : count ≤ maxSegments)
    (htable : ∀ s g, table s = some g → s < count) :
    Exact b table (rebuildFromTable b table count fresh) := by
  have h₀ : Rebuilding b table fresh fresh := by
    refine ⟨.fresh b, ⟨fun k _ c _ s _ hb => ?_, fun c _ s _ hb => ?_⟩, fun k _ c _ s _ hb => ?_,
      fun _ _ _ => rfl, fun k _ _ => .fresh k⟩
    all_goals exact absurd (hb.symm.trans (fresh_get ..)) (by simp)
  obtain ⟨h, hf⟩ := rebuildFromTable_spec hcount htable h₀
  exact h.exact hf fun k hk => h.released k hk rfl

/-- A later rebuild, which keeps the nodes of the buckets: each of them gets its bits again. -/
lemma rebuild_exact {count : ℕ} (hcount : count ≤ maxSegments)
    (htable : ∀ s g, table s = some g → s < count) (he : Exact b table d) :
    Exact b table (rebuildFromTable b table count
      { d with classNonemptyByNode := fun _ _ _ => 0, activeBitsByNode := fun _ => 0 }) := by
  set d₀ : SegmentDirectory :=
    { d with classNonemptyByNode := fun _ _ _ => 0, activeBitsByNode := fun _ => 0 } with hd₀
  have hz : ∀ k c s, d₀.get k c s = false := fun k c s => by
    simp [SegmentDirectory.get, hd₀, member]
  have h₀ : Rebuilding b table d₀ d₀ := by
    refine ⟨⟨fun k _ => ?_, fun _ _ _ => rfl, he.counted.distinct⟩,
      ⟨fun k _ c _ s _ hb => ?_, fun c _ s _ hb => ?_⟩, fun k _ c _ s _ hb => ?_,
      fun _ _ _ => rfl, fun k _ hid _ => hid⟩
    · simp [bucketBits, hz]
      rfl
    all_goals exact absurd (hb.symm.trans (hz ..)) (by simp)
  obtain ⟨h, hf⟩ := rebuildFromTable_spec hcount htable h₀
  refine h.exact hf fun k hk hact => ?_
  by_cases hid : d.nodeIds k = nodeSlotEmpty
  · exact h.released k hk hid hact
  · -- The bucket had a bit, of a class that has a free block.
    have hne : d.activeBitsByNode k ≠ 0 := fun hz => hid (he.released k hk hz)
    rw [he.counted.active k hk] at hne
    obtain ⟨⟨c, s⟩, hmem⟩ := Finset.card_pos.mp (Nat.pos_of_ne_zero hne)
    simp only [bucketBits, Finset.mem_filter, Finset.mem_product, Finset.mem_range] at hmem
    obtain ⟨⟨hc, hs⟩, hb⟩ := hmem
    obtain ⟨g, hg, hsm, hnode⟩ := he.placed.owned k hk c hc s hs hb
    obtain ⟨g', hg', -, hfree⟩ := (he.agrees c hc s hs).sharp k hk hb
    obtain rfl : g = g' := Option.some.inj (hg.symm.trans hg')
    have hget := (hf c hc s hs g hg hsm hfree).2 k hk hnode.symm (hnode ▸ hid)
    rw [h.counted.active k hk, Finset.card_eq_zero] at hact
    have hin := (mem_bucketBits hc hs).mpr hget
    simp [hact] at hin

/-! ## The table changes -/

/-- Small segments stay, with their nodes. -/
def Stays (table table' : ℕ → Option Segment) : Prop :=
  ∀ s g, table s = some g → g.small = true →
    ∃ g', table' s = some g' ∧ g'.small = true ∧ g'.nodeId = g.nodeId

lemma Placed.stays (h : Placed b table d) (ht : Stays table table') : Placed b table' d where
  owned nb hnb c hc s hs hb := by
    obtain ⟨g, hg, hsm, hid⟩ := h.owned nb hnb c hc s hs hb
    obtain ⟨g', hg', hsm', hid'⟩ := ht s g hg hsm
    exact ⟨g', hg', hsm', hid'.trans hid⟩
  shared c hc s hs hb := by
    obtain ⟨g, hg, hsm⟩ := h.shared c hc s hs hb
    obtain ⟨g', hg', hsm', -⟩ := ht s g hg hsm
    exact ⟨g', hg', hsm'⟩

/-- What agreement at a class of a slot depends on. -/
lemma AgreesAt.congr (h : AgreesAt b table d c s)
    (ht : (table' s).map (fun g => (g.small, g.nodeId, g.free c)) =
      (table s).map fun g => (g.small, g.nodeId, g.free c)) : AgreesAt b table' d c s := by
  -- Either slot has a segment with the same header and the same list.
  have key : ∀ t t' : Option Segment,
      t'.map (fun g => (g.small, g.nodeId, g.free c)) =
        t.map (fun g => (g.small, g.nodeId, g.free c)) →
      ∀ g', t' = some g' → ∃ g, t = some g ∧ g.small = g'.small ∧ g.nodeId = g'.nodeId ∧
        g.free c = g'.free c := by
    rintro t t' he g' rfl
    cases t with
    | none => simp at he
    | some g =>
      simp only [Option.map_some, Option.some.injEq, Prod.mk.injEq] at he
      exact ⟨g, rfl, he.1.symm, he.2.1.symm, he.2.2.symm⟩
  refine ⟨fun k hk hb => ?_, fun g' hg' hsm' hf' => ?_⟩
  · obtain ⟨g, hg, hsm, hf⟩ := h.sharp k hk hb
    obtain ⟨g', hg', hsm', -, hf'⟩ := key _ _ ht.symm g hg
    exact ⟨g', hg', hsm'.trans hsm, hf' ▸ hf⟩
  · obtain ⟨g, hg, hsm, hid, hf⟩ := key _ _ ht g' hg'
    rw [← hid]
    exact h.found g hg (hsm.trans hsm') (hf ▸ hf')

/-- The invariant of a run. -/
structure Inv (b : Build) (h : Heap) : Prop where
  exact : ∀ d, h.directory = some d → Exact b h.table d
  table : ∀ s g, h.table s = some g → s < h.count
  count : h.count ≤ maxSegments

variable {h : Heap}

lemma Inv.new : Inv b Heap.new where
  exact _ hd := absurd hd (by simp [Heap.new])
  table _ _ hg := absurd hg (by simp [Heap.new])
  count := Nat.zero_le _

/-- The directory of an exact heap agrees at every class but the one whose list was set. -/
lemma setFree_agrees (he : Exact b table d) (hg : table s = some g) (l : List ℕ) :
    Placed b (Function.update table s (some { g with free := Function.update g.free c l })) d ∧
    ∀ c' < b.classes, ∀ s' < maxSegments, ¬ (c' = c ∧ s' = s) →
      AgreesAt b (Function.update table s (some { g with free := Function.update g.free c l })) d
        c' s' := by
  refine ⟨he.placed.stays fun s' g' hg' hsm' => ?_, fun c' hc' s' hs' hne => ?_⟩
  · by_cases hss : s' = s
    · subst s'
      obtain rfl : g = g' := Option.some.inj (hg.symm.trans hg')
      exact ⟨_, Function.update_self .., hsm', rfl⟩
    · exact ⟨g', by rw [Function.update_of_ne hss, hg'], hsm', rfl⟩
  · refine (he.agrees c' hc' s' hs').congr ?_
    by_cases hss : s' = s
    · subst s'
      have hcc : c' ≠ c := fun h => hne ⟨h, rfl⟩
      rw [Function.update_self, hg]
      simp only [Option.map_some, Function.update_of_ne hcc]
      rfl
    · rw [Function.update_of_ne hss]

/-- A list is set, and the hook of its transition is called. -/
def relist (b : Build) (s c : ℕ) (g : Segment) (l : List ℕ) (h : Heap) : Heap :=
  let h := setFree s c g l h
  if g.free c = [] ∧ l ≠ [] then publishNonempty b c s h
  else if g.free c ≠ [] ∧ l = [] then publishEmpty b c s h
  else h

lemma pushFree_eq (off : ℕ) : pushFree b s c g off h = relist b s c g (off :: g.free c) h := by
  unfold pushFree relist
  by_cases he : g.free c = [] <;> simp [he]

lemma popFree_eq : popFree b s c g h = if g.free c = [] then h
    else relist b s c g (g.free c).tail h := by
  unfold popFree relist
  cases hl : g.free c with
  | nil => simp
  | cons off l => simp

lemma drainFreelistBatch_eq (n : ℕ) : drainFreelistBatch b s c n g h =
    if n = 0 ∨ g.free c = [] then h else relist b s c g ((g.free c).drop n) h := by
  unfold drainFreelistBatch relist
  by_cases hz : n = 0 ∨ g.free c = []
  · rw [if_pos hz, if_pos hz]
  · have hne : g.free c ≠ [] := fun he => hz (.inr he)
    simp [hz, hne]

lemma flushRun_eq (accepted : List ℕ) : flushRun b s c g accepted h =
    if accepted = [] then h else relist b s c g (accepted.reverse ++ g.free c) h := by
  unfold flushRun relist
  by_cases ha : accepted = []
  · rw [if_pos ha, if_pos ha]
  · by_cases he : g.free c = [] <;> simp [ha, he]

lemma Inv.relist (hi : Inv b h) (hc : c < b.classes) (hg : h.table s = some g)
    (hsm : g.small = true) (l : List ℕ) : Inv b (relist b s c g l h) := by
  have hs : s < maxSegments := (hi.table s g hg).trans_le hi.count
  set g' : Segment := { g with free := Function.update g.free c l } with hg'
  set h' := setFree s c g l h with hh'
  have hat : h'.table s = some g' := Function.update_self ..
  have hsm' : g'.small = true := hsm
  have hfree : g'.free c = l := Function.update_self ..
  have htable : ∀ t k, h'.table t = some k → t < h'.count := by
    intro t k hk
    by_cases hts : t = s
    · subst t
      exact hi.table _ g hg
    · refine hi.table t k ?_
      rwa [← Function.update_of_ne hts (some g') h.table]
  have hdir : ∀ f : SegmentDirectory → SegmentDirectory,
      (∀ d, Exact b h.table d → Exact b h'.table (f d)) → Inv b (withDirectory f h') := by
    intro f hf
    refine ⟨fun d hd => ?_, htable, hi.count⟩
    obtain ⟨d₀, hd₀, rfl⟩ := Option.map_eq_some_iff.mp hd
    exact hf d₀ (hi.exact d₀ hd₀)
  unfold Directory.relist
  split_ifs with h₁ h₂
  · refine hdir _ fun d he => ?_
    obtain ⟨hp, ha⟩ := setFree_agrees (c := c) he hg l
    have hnode : directoryNodeIdOf h' s = g'.nodeId := by
      simp [directoryNodeIdOf, hat]
    rw [hnode]
    exact (setBit_hooked he.counted hp hc hs hat hsm' (hfree ▸ h₁.2)).exact he.released ha
  · refine hdir _ fun d he => ?_
    obtain ⟨hp, ha⟩ := setFree_agrees (c := c) he hg l
    refine (clearBitAllNodes_hooked he.counted hp hc hs ?_).exact he.released ha
    rintro ⟨k, hk, -, hne⟩
    obtain rfl : g' = k := Option.some.inj (hat.symm.trans hk)
    exact hne (hfree.trans h₂.2)
  · refine ⟨fun d hd => ?_, htable, hi.count⟩
    have he := hi.exact d hd
    obtain ⟨hp, ha⟩ := setFree_agrees (c := c) he hg l
    refine ⟨he.counted, he.released, hp, fun c' hc' s' hs' => ?_⟩
    by_cases hne : c' = c ∧ s' = s
    · -- The list was empty and stays so, or it is empty neither before nor after.
      obtain ⟨rfl, rfl⟩ := hne
      have hiff : g.free c' = [] ↔ l = [] := by
        by_cases hx : g.free c' = [] <;> by_cases hy : l = [] <;> simp_all
      refine ⟨fun k hk hb => ?_, fun k hk hksm hkf => ?_⟩
      · obtain ⟨k', hk', -, hkf'⟩ := (he.agrees c' hc' s' hs').sharp k hk hb
        obtain rfl : g = k' := Option.some.inj (hg.symm.trans hk')
        exact ⟨g', hat, hsm', fun hn => hkf' (hiff.mpr (hfree ▸ hn))⟩
      · obtain rfl : g' = k := Option.some.inj (hat.symm.trans hk)
        exact (he.agrees c' hc' s' hs').found g hg hsm fun hn => hkf (hfree.trans (hiff.mp hn))
    · exact ha c' hc' s' hs' hne

/-- A hook is called while the table stays. -/
lemma Inv.withDirectory (hi : Inv b h) {f : SegmentDirectory → SegmentDirectory}
    (hf : ∀ d, Exact b h.table d → Exact b h.table (f d)) : Inv b (withDirectory f h) := by
  refine ⟨fun d hd => ?_, hi.table, hi.count⟩
  obtain ⟨d₀, hd₀, rfl⟩ := Option.map_eq_some_iff.mp hd
  exact hf d₀ (hi.exact d₀ hd₀)

/-! ## Remote drains -/

lemma reclaimed_header (g : Segment) (records : List (ℕ × ℕ)) :
    (reclaimed g records).small = g.small ∧ (reclaimed g records).nodeId = g.nodeId := by
  unfold reclaimed
  induction records generalizing g with
  | nil => exact ⟨rfl, rfl⟩
  | cons r records ih => exact ih _

lemma reclaimed_free (g : Segment) (records : List (ℕ × ℕ)) (hc : ∀ r ∈ records, r.1 ≠ c) :
    (reclaimed g records).free c = g.free c := by
  unfold reclaimed
  induction records generalizing g with
  | nil => rfl
  | cons r records ih =>
    have hr : c ≠ r.1 := (hc r (List.mem_cons_self ..)).symm
    rw [List.foldl_cons, ih _ fun r' hr' => hc r' (List.mem_cons_of_mem _ hr')]
    exact Function.update_of_ne hr _ _

/-- The word has the classes of the records. -/
lemma mem_bits_changedClasses (records : List (ℕ × ℕ)) (hr : ∀ r ∈ records, r.1 < 64) :
    c ∈ bits (changedClasses records) ↔ ∃ r ∈ records, r.1 = c := by
  have key : ∀ (w : Word), (records.foldl (fun w r => w ||| bit r.1) w).getLsbD c = true ↔
      w.getLsbD c = true ∨ ∃ r ∈ records, r.1 = c := by
    induction records with
    | nil => simp
    | cons r records ih =>
      intro w
      rw [List.foldl_cons, ih fun r' hr' => hr r' (List.mem_cons_of_mem _ hr'),
        getLsbD_or_bit (hr r (List.mem_cons_self ..))]
      simp only [Bool.or_eq_true, decide_eq_true_eq, List.mem_cons, exists_eq_or_imp,
        eq_comm (a := c)]
      tauto
  rw [mem_bits, changedClasses, key]
  simp

lemma Inv.reclaim (hi : Inv b h) (hg : h.table s = some g) (hsm : g.small = true)
    (records : List (ℕ × ℕ)) (hr : ∀ r ∈ records, r.1 < b.classes) :
    Inv b (reclaim b s g records h) := by
  have hs : s < maxSegments := (hi.table s g hg).trans_le hi.count
  obtain ⟨hsm', hid⟩ := reclaimed_header g records
  set g' := reclaimed g records with hg'
  have hmem : ∀ c, c ∈ bits (changedClasses records) ↔ ∃ r ∈ records, r.1 = c := fun c =>
    mem_bits_changedClasses records fun r hrm => (hr r hrm).trans_le b.classes_le
  refine ⟨fun d hd => ?_, fun t k hk => ?_, hi.count⟩
  · obtain ⟨d₀, hd₀, rfl⟩ := Option.map_eq_some_iff.mp hd
    have he := hi.exact d₀ hd₀
    have hat : Function.update h.table s (some g') s = some g' := Function.update_self ..
    refine sync_exact hs hat (hsm'.trans hsm) _ (fun c hc => ?_) he.counted he.released
      (he.placed.stays fun t k hk hksm => ?_) fun c' hc' s' hs' hne => ?_
    · obtain ⟨r, hrm, rfl⟩ := (hmem c).mp hc
      exact hr r hrm
    · by_cases hts : t = s
      · subst t
        obtain rfl : g = k := Option.some.inj (hg.symm.trans hk)
        exact ⟨g', Function.update_self .., hsm'.trans hsm, hid⟩
      · exact ⟨k, by rw [Function.update_of_ne hts, hk], hksm, rfl⟩
    · refine (he.agrees c' hc' s' hs').congr ?_
      by_cases hss : s' = s
      · subst s'
        have hfree : g'.free c' = g.free c' := reclaimed_free g records fun r hrm hrc =>
          hne ⟨(hmem c').mpr ⟨r, hrm, hrc⟩, rfl⟩
        rw [Function.update_self, hg]
        simp only [Option.map_some, hfree, hsm', hid]
      · rw [Function.update_of_ne hss]
  · change Function.update h.table s (some g') t = some k at hk
    by_cases hts : t = s
    · subst t
      exact hi.table _ g hg
    · rw [Function.update_of_ne hts] at hk
      exact hi.table t k hk

/-! ## Slots -/

lemma Inv.register (hi : Inv b h) (kind : SegmentKind) (node : ℕ) :
    Inv b (register s kind node h) := by
  unfold Directory.register
  split_ifs with hc
  · obtain ⟨hnone, hle, hs⟩ := hc
    have hnone : h.table s = none := by simpa using hnone
    refine ⟨fun d hd => ?_, fun t k hk => ?_, ?_⟩
    · have he := hi.exact d hd
      change Exact b (Function.update h.table s (some ⟨kind, node, fun _ => []⟩)) d
      refine ⟨he.counted, he.released, he.placed.stays fun t k hk hksm => ?_,
        fun c' hc' s' hs' => ?_⟩
      · have hts : t ≠ s := by
          rintro rfl
          simp [hnone] at hk
        exact ⟨k, by rw [Function.update_of_ne hts, hk], hksm, rfl⟩
      · by_cases hss : s' = s
        · subst s'
          refine ⟨fun k hk hb => ?_, fun g hg _ hne => ?_⟩
          · obtain ⟨g, hg, -⟩ := (he.agrees c' hc' s hs).sharp k hk hb
            simp [hnone] at hg
          · rw [Function.update_self] at hg
            obtain rfl := Option.some.inj hg
            exact absurd rfl hne
        · exact (he.agrees c' hc' s' hs').congr (by rw [Function.update_of_ne hss])
    · change Function.update h.table s _ t = some k at hk
      change t < max h.count (s + 1)
      by_cases hts : t = s
      · subst t
        exact lt_max_of_lt_right (Nat.lt_succ_self _)
      · rw [Function.update_of_ne hts] at hk
        exact lt_max_of_lt_left (hi.table t k hk)
    · exact max_le hi.count hs
  · exact hi

/-- A segment may leave a slot of which the directory has no bit. -/
lemma exact_of_leave (hd : Counted b d) (hr : ∀ k < b.maxNodes, ReleasedAt d k)
    (hp : Placed b table d) (hz : ∀ k ≤ b.maxNodes, ∀ c < b.classes, d.get k c s = false)
    (ha : ∀ c < b.classes, ∀ s' < maxSegments, s' ≠ s → AgreesAt b table d c s') :
    Exact b (Function.update table s none) d := by
  have hne : ∀ k ≤ b.maxNodes, ∀ c < b.classes, ∀ s', d.get k c s' = true → s' ≠ s := by
    rintro k hk c hc s' hb rfl
    exact Bool.false_ne_true ((hz k hk c hc).symm.trans hb)
  refine ⟨hd, hr, ⟨fun k hk c hc s' hs' hb => ?_, fun c hc s' hs' hb => ?_⟩,
    fun c hc s' hs' => ?_⟩
  · rw [Function.update_of_ne (hne k hk.le c hc s' hb)]
    exact hp.owned k hk c hc s' hs' hb
  · rw [Function.update_of_ne (hne _ le_rfl c hc s' hb)]
    exact hp.shared c hc s' hs' hb
  · by_cases hss : s' = s
    · subst s'
      refine ⟨fun k hk hb => absurd rfl (hne k hk.le c hc s hb), fun g hg => ?_⟩
      rw [Function.update_self] at hg
      exact absurd hg (by simp)
    · exact (ha c hc s' hs' hss).congr (by rw [Function.update_of_ne hss])

lemma Inv.unregister (hi : Inv b h) (hg : h.table s = some g) : Inv b (unregister b s g h) := by
  have hs : s < maxSegments := (hi.table s g hg).trans_le hi.count
  have htable : ∀ t k, Function.update h.table s none t = some k → t < h.count := by
    intro t k hk
    by_cases hts : t = s
    · subst t
      simp at hk
    · rw [Function.update_of_ne hts] at hk
      exact hi.table t k hk
  unfold Directory.unregister
  split_ifs with hsm
  · refine ⟨fun d hd => ?_, htable, hi.count⟩
    obtain ⟨d₀, hd₀, rfl⟩ := Option.map_eq_some_iff.mp hd
    have he := hi.exact d₀ hd₀
    have hcl := clearSlot_clears he.counted hs
    refine exact_of_leave hcl.counted (fun k hk => hcl.released k hk (he.released k hk))
      (he.placed.clears hcl) (fun k hk c hc => ?_) fun c hc s' hs' hne =>
        (he.agrees c hc s' hs').clears hcl hc hs' fun k hgone => hne hgone.2.2
    by_contra hb
    exact ((hcl.get k c s).mp (by simpa using hb)).2 ⟨hk, hc, rfl⟩
  · refine ⟨fun d hd => ?_, htable, hi.count⟩
    have he := hi.exact d hd
    refine exact_of_leave he.counted he.released he.placed (fun k hk c hc => ?_)
      fun c hc s' hs' _ => he.agrees c hc s' hs'
    -- A Large segment has no bit.
    by_contra hb
    have hb : d.get k c s = true := by simpa using hb
    have hlive : ∃ g, h.table s = some g ∧ g.small = true := by
      obtain rfl | hlt := hk.eq_or_lt
      · exact he.placed.shared c hc s hs hb
      · obtain ⟨g', hg', hsm', -⟩ := he.placed.owned k hlt c hc s hs hb
        exact ⟨g', hg', hsm'⟩
    obtain ⟨g', hg', hsm'⟩ := hlive
    obtain rfl : g = g' := Option.some.inj (hg.symm.trans hg')
    exact hsm hsm'

/-! ## Runs -/

/-- A hook is called while the table stays. -/
lemma Inv.publishEmpty (hi : Inv b h) (hc : c < b.classes) (hs : s < maxSegments)
    (hf : ¬ HasFree h.table c s) : Inv b (publishEmpty b c s h) :=
  hi.withDirectory fun _ he =>
    (clearBitAllNodes_hooked he.counted he.placed hc hs hf).exact he.released
      fun c' hc' s' hs' _ => he.agrees c' hc' s' hs'

lemma validate_cases (c s : ℕ) (h : Heap) :
    (¬ HasFree h.table c s ∧ validateDirectoryCandidate b c s h = (publishEmpty b c s h, none)) ∨
    (HasFree h.table c s ∧ validateDirectoryCandidate b c s h = (h, some s)) := by
  unfold validateDirectoryCandidate
  cases hg : h.table s with
  | none =>
    refine .inl ⟨?_, rfl⟩
    rintro ⟨g, hg', -⟩
    simp [hg] at hg'
  | some g =>
    have hfree : HasFree h.table c s ↔ g.small = true ∧ g.free c ≠ [] := by
      constructor
      · rintro ⟨g', hg', hsm, hf⟩
        obtain rfl : g = g' := Option.some.inj (hg.symm.trans hg')
        exact ⟨hsm, hf⟩
      · rintro ⟨hsm, hf⟩
        exact ⟨g, hg, hsm, hf⟩
    rw [hfree]
    by_cases hsm : g.small = true
    · by_cases hf : g.free c = []
      · exact .inl ⟨fun hn => hn.2 hf, by simp [hsm, hf]⟩
      · exact .inr ⟨⟨hsm, hf⟩, by simp [hsm, hf]⟩
    · exact .inl ⟨fun hn => hsm hn.1, by simp [hsm]⟩

lemma Inv.validate (hi : Inv b h) (hc : c < b.classes) (hs : s < maxSegments) :
    Inv b (validateDirectoryCandidate b c s h).1 := by
  obtain ⟨hf, he⟩ | ⟨-, he⟩ := validate_cases (b := b) c s h
  · rw [he]
    exact hi.publishEmpty hc hs hf
  · rw [he]
    exact hi

lemma Inv.heal (hi : Inv b h) (hc : c < b.classes) (hg : h.table s = some g)
    (hsm : g.small = true) (hf : g.free c ≠ []) : Inv b (publishNonempty b c s h) := by
  have hs : s < maxSegments := (hi.table s g hg).trans_le hi.count
  refine hi.withDirectory fun d he => ?_
  have hnode : directoryNodeIdOf h s = g.nodeId := by simp [directoryNodeIdOf, hg]
  rw [hnode]
  exact (setBit_hooked he.counted he.placed hc hs hg hsm hf).exact he.released
    fun c' hc' s' hs' _ => he.agrees c' hc' s' hs'

lemma Inv.sync (hi : Inv b h) (hg : h.table s = some g) (hsm : g.small = true) {changed : Word}
    (hc : ∀ c ∈ bits changed, c < b.classes) :
    Inv b (syncDirectoryForSegmentClasses b g s changed h) :=
  hi.withDirectory fun _ he =>
    sync_exact ((hi.table s g hg).trans_le hi.count) hg hsm _ hc he.counted he.released he.placed
      fun c' hc' s' hs' _ => he.agrees c' hc' s' hs'

lemma Inv.materialize (hi : Inv b h) (reserved : Bool) :
    Inv b (maybeMaterializeDirectory b reserved h) := by
  unfold maybeMaterializeDirectory
  split_ifs
  · exact hi
  · exact hi
  · refine ⟨fun d hd => ?_, hi.table, hi.count⟩
    obtain rfl := Option.some.inj hd
    exact rebuild_fresh hi.count hi.table
  · exact hi

lemma smallAt_eq_some (hg : smallAt h s = some g) : h.table s = some g ∧ g.small = true := by
  simpa [smallAt, Option.filter_eq_some_iff] using hg

/-- A step on a small segment keeps the invariant if what it does there keeps it. -/
lemma Inv.onSmall (hi : Inv b h) {f : Segment → Heap}
    (hf : ∀ g, h.table s = some g → g.small = true → Inv b (f g)) :
    Inv b (((smallAt h s).map f).getD h) := by
  cases hg : smallAt h s with
  | none => exact hi
  | some g =>
    obtain ⟨hg, hsm⟩ := smallAt_eq_some hg
    exact hf g hg hsm

/-- Each step keeps the invariant. -/
lemma Inv.step (hi : Inv b h) (e : Event) : Inv b (step b h e) := by
  cases e with
  | register s kind node => exact hi.register kind node
  | unregister s =>
    simp only [Directory.step]
    cases hg : h.table s with
    | none => exact hi
    | some g => exact hi.unregister hg
  | push s c off =>
    refine hi.onSmall fun g hg hsm => ?_
    split_ifs with hc
    · rw [pushFree_eq]
      exact hi.relist hc hg hsm _
    · exact hi
  | pop s c =>
    refine hi.onSmall fun g hg hsm => ?_
    split_ifs with hc
    · rw [popFree_eq]
      split_ifs
      · exact hi
      · exact hi.relist hc hg hsm _
    · exact hi
  | popBatch s c n =>
    refine hi.onSmall fun g hg hsm => ?_
    split_ifs with hc
    · rw [drainFreelistBatch_eq]
      split_ifs
      · exact hi
      · exact hi.relist hc hg hsm _
    · exact hi
  | flush s c accepted =>
    refine hi.onSmall fun g hg hsm => ?_
    split_ifs with hc
    · rw [flushRun_eq]
      split_ifs
      · exact hi
      · exact hi.relist hc hg hsm _
    · exact hi
  | reclaim s records =>
    refine hi.onSmall fun g hg hsm => ?_
    split_ifs with hr
    · exact hi.reclaim hg hsm records hr
    · exact hi
  | sync s changed =>
    refine hi.onSmall fun g hg hsm => ?_
    split_ifs with hc
    · exact hi.sync hg hsm hc
    · exact hi
  | validate s c =>
    simp only [Directory.step]
    split_ifs with hc
    · exact hi.validate hc.1 hc.2
    · exact hi
  | heal s c =>
    refine hi.onSmall fun g hg hsm => ?_
    split_ifs with hc
    · exact hi.heal hc.1 hg hsm hc.2
    · exact hi
  | materialize reserved => exact hi.materialize reserved
  | release => exact ⟨fun d hd => absurd hd (by simp [Directory.step, releaseDirectoryForColdTrim]),
      hi.table, hi.count⟩
  | rebuild => exact hi.withDirectory fun d he => rebuild_exact hi.count hi.table he

lemma Inv.run (es : List Event) : Inv b (run b es) := by
  have key : ∀ h, Inv b h → Inv b (es.foldl (Directory.step b) h) := by
    induction es with
    | nil => exact fun h hi => hi
    | cons e es ih => exact fun h hi => ih _ (hi.step e)
  exact key _ .new

/-! ## Negative answers -/

/-- The words of one class's bits. -/
def wordsPerClass : ℕ := maxSegments / 64

/-- The buckets in the order of the scan: that of the caller's node, the shared one, the others. -/
def buckets (b : Build) (d : SegmentDirectory) (myNode : ℕ) : List ℕ :=
  let mine := nodeBucket b myNode d
  mine :: ((if b.maxNodes = mine then [] else [b.maxNodes]) ++
    (List.range b.maxNodes).filter (· ≠ mine))

/-- The slots of the words of a bucket, read by value. -/
def candidates (d : SegmentDirectory) (nb c : ℕ) : List ℕ :=
  (List.range wordsPerClass).flatMap fun w =>
    (bits (d.classNonemptyByNode nb c w)).map (w * 64 + ·)

/-- The walk over the candidates of a bucket. -/
def scanSlots (b : Build) (c : ℕ) : List ℕ → Heap → Heap × Option ℕ
  | [], h => (h, none)
  | s :: rest, h =>
    match validateDirectoryCandidate b c s h with
    | (h, some s) => (h, some s)
    | (h, none) => scanSlots b c rest h

/-- The walk over the buckets. -/
def scanBuckets (b : Build) (c : ℕ) : List ℕ → Heap → Heap × Option ℕ
  | [], h => (h, none)
  | nb :: rest, h =>
    match h.directory with
    | none => (h, none)
    | some d =>
      match scanSlots b c (candidates d nb c) h with
      | (h, some s) => (h, some s)
      | (h, none) => scanBuckets b c rest h

/-- The directory's part of `find_segment_with_free`, without its drains. -/
def directoryScan (b : Build) (myNode c : ℕ) (h : Heap) : Heap × Option ℕ :=
  match h.directory with
  | none => (h, none)
  | some d => scanBuckets b c (buckets b d myNode) h

lemma mem_buckets (hnb : nb ≤ b.maxNodes) (node : ℕ) : nb ∈ buckets b d node := by
  unfold buckets
  by_cases hm : nb = nodeBucket b node d
  · simp [hm]
  · obtain rfl | hlt := hnb.eq_or_lt
    · simp [hm]
    · simp [hm, hlt]

lemma mem_candidates (hs : s < maxSegments) (hb : d.get nb c s = true) : s ∈ candidates d nb c := by
  refine List.mem_flatMap.mpr ⟨s / 64, List.mem_range.mpr ?_, List.mem_map.mpr ⟨s % 64, ?_, ?_⟩⟩
  · unfold wordsPerClass maxSegments at *
    omega
  · exact mem_bits.mpr hb
  · exact Nat.div_add_mod' s 64

lemma lt_of_mem_candidates (hs : s ∈ candidates d nb c) : s < maxSegments := by
  obtain ⟨w, hw, hs⟩ := List.mem_flatMap.mp hs
  obtain ⟨j, hj, rfl⟩ := List.mem_map.mp hs
  have hj := lt_of_mem_bits hj
  have hw := List.mem_range.mp hw
  unfold wordsPerClass maxSegments at *
  omega

/-- What a part of a scan for a class leaves: the table, the invariant, and the bits of the slots
that have a free block. -/
structure Scanned (b : Build) (c : ℕ) (h h' : Heap) : Prop where
  inv : Inv b h'
  table : h'.table = h.table
  directory : ∀ d, h.directory = some d → ∃ d', h'.directory = some d'
  bits : ∀ s, HasFree h.table c s → ∀ d nb, h.directory = some d → d.get nb c s = true →
    ∃ d', h'.directory = some d' ∧ d'.get nb c s = true

lemma Scanned.refl (hi : Inv b h) : Scanned b c h h :=
  ⟨hi, rfl, fun d hd => ⟨d, hd⟩, fun _ _ d _ hd hb => ⟨d, hd, hb⟩⟩

lemma Scanned.trans {h₁ h₂ : Heap} (s₁ : Scanned b c h h₁) (s₂ : Scanned b c h₁ h₂) :
    Scanned b c h h₂ := by
  refine ⟨s₂.inv, s₂.table.trans s₁.table, fun d hd => ?_, fun s hf d nb hd hb => ?_⟩
  · obtain ⟨d₁, hd₁⟩ := s₁.directory d hd
    exact s₂.directory d₁ hd₁
  · obtain ⟨d₁, hd₁, hb₁⟩ := s₁.bits s hf d nb hd hb
    exact s₂.bits s (s₁.table ▸ hf) d₁ nb hd₁ hb₁

lemma Scanned.publishEmpty (hi : Inv b h) (hc : c < b.classes) (hs : s < maxSegments)
    (hf : ¬ HasFree h.table c s) : Scanned b c h (publishEmpty b c s h) := by
  have hdir : ∀ d, h.directory = some d →
      (Directory.publishEmpty b c s h).directory = some (clearBitAllNodes b c s d) := fun d hd => by
    simp [Directory.publishEmpty, Directory.withDirectory, hd]
  refine ⟨hi.publishEmpty hc hs hf, rfl, fun d hd => ⟨_, hdir d hd⟩, fun s' hf' d nb hd hb => ?_⟩
  refine ⟨_, hdir d hd, ?_⟩
  refine ((clearBitAllNodes_clears (hi.exact d hd).counted hc hs).get nb c s').mpr ⟨hb, ?_⟩
  rintro ⟨-, -, rfl⟩
  exact hf hf'

lemma scanSlots_spec (hc : c < b.classes) (xs : List ℕ) (hxs : ∀ s ∈ xs, s < maxSegments)
    (hi : Inv b h) : Scanned b c h (scanSlots b c xs h).1 ∧
      (∀ s, (scanSlots b c xs h).2 = some s → HasFree h.table c s) ∧
      ((scanSlots b c xs h).2 = none → ∀ s ∈ xs, ¬ HasFree h.table c s) := by
  induction xs generalizing h with
  | nil => exact ⟨.refl hi, by simp [scanSlots], by simp⟩
  | cons s xs ih =>
    have hs := hxs s (List.mem_cons_self ..)
    obtain ⟨hf, he⟩ | ⟨hf, he⟩ := validate_cases (b := b) c s h
    · have hstep := Scanned.publishEmpty hi hc hs hf
      obtain ⟨hsc, hsome, hnone⟩ := ih (fun s hs => hxs s (List.mem_cons_of_mem _ hs)) hstep.inv
      simp only [scanSlots, he]
      refine ⟨hstep.trans hsc, fun t ht => hsome t ht, fun hn t ht => ?_⟩
      obtain rfl | ht := List.mem_cons.mp ht
      · exact hf
      · exact hnone hn t ht
    · simp only [scanSlots, he]
      refine ⟨.refl hi, ?_, by simp⟩
      rintro t ⟨⟩
      exact hf

lemma scanBuckets_spec (hc : c < b.classes) (nbs : List ℕ) (hi : Inv b h)
    (hd : h.directory = some d) : Scanned b c h (scanBuckets b c nbs h).1 ∧
      (∀ s, (scanBuckets b c nbs h).2 = some s → HasFree h.table c s) ∧
      ((scanBuckets b c nbs h).2 = none → ∀ nb ∈ nbs, ∀ s < maxSegments, d.get nb c s = true →
        ¬ HasFree h.table c s) := by
  induction nbs generalizing h d with
  | nil => exact ⟨.refl hi, by simp [scanBuckets], by simp⟩
  | cons nb nbs ih =>
    obtain ⟨hsc, hsome, hnone⟩ := scanSlots_spec hc (candidates d nb c)
      (fun s => lt_of_mem_candidates) hi
    simp only [scanBuckets, hd]
    generalize he : scanSlots b c (candidates d nb c) h = r at hsc hsome hnone
    obtain ⟨h₁, _ | s⟩ := r
    · obtain ⟨d₁, hd₁⟩ := hsc.directory d hd
      obtain ⟨hsc', hsome', hnone'⟩ := ih hsc.inv hd₁
      refine ⟨hsc.trans hsc', fun s hs => hsc.table ▸ hsome' s hs, fun hn k hk s hs hb hf => ?_⟩
      obtain rfl | hk := List.mem_cons.mp hk
      · exact hnone rfl s (mem_candidates hs hb) hf
      · obtain ⟨d', hd', hb'⟩ := hsc.bits s hf d k hd hb
        obtain rfl : d₁ = d' := Option.some.inj (hd₁.symm.trans hd')
        exact hnone' hn k hk s hs hb' (hsc.table ▸ hf)
    · exact ⟨hsc, hsome, by simp⟩

/-- A scan that finds a slot finds one with a free block, and a scan that finds none tells that there
is none. -/
lemma directoryScan_spec (hi : Inv b h) (hd : h.directory = some d) (hc : c < b.classes)
    (myNode : ℕ) : Scanned b c h (directoryScan b myNode c h).1 ∧
      (∀ s, (directoryScan b myNode c h).2 = some s → HasFree h.table c s) ∧
      ((directoryScan b myNode c h).2 = none → ∀ s, ¬ HasFree h.table c s) := by
  obtain ⟨hsc, hsome, hnone⟩ := scanBuckets_spec hc (buckets b d myNode) hi hd
  simp only [directoryScan, hd]
  refine ⟨hsc, hsome, ?_⟩
  rintro hn s ⟨g, hg, hsm, hf⟩
  have hs : s < maxSegments := (hi.table s g hg).trans_le hi.count
  obtain ⟨nb, hnb, hb, -⟩ := ((hi.exact d hd).agrees c hc s hs).found g hg hsm hf
  exact hnone hn nb (mem_buckets hnb myNode) s hs hb ⟨g, hg, hsm, hf⟩

/-- The build with NUMA and 49 classes. -/
def numa : Build := ⟨8, 49, by decide⟩

/-- Nine nodes publish, the ninth in the shared bucket; the first one's bucket becomes empty and the
ninth node gets it for another class. -/
def stayedBehind : List Event :=
  (List.range 32).map (fun s => .register s .small (min s 8)) ++ [.materialize true] ++
    (List.range 9).map (fun s => .push s 0 4096) ++ [.pop 0 0, .push 8 1 8192]

/-- After any run the directory is exact where it is trusted. A small segment with a free block of a
class has its bit in the bucket of its node or in the shared bucket; no slot without a small segment
has a bit, and a slot that a segment leaves has none; the counter of a bucket is the number of its
bits, and is not zero where a bit is cleared; two buckets with nodes are of two nodes, and a bucket
is empty iff its counter is zero. A scan that finds nothing tells that no segment has a free block
of the class. -/
theorem directory_exact (b : Build) (es : List Event) (d : SegmentDirectory)
    (hd : (run b es).directory = some d) :
    let h := run b es
    (∀ c < b.classes, ∀ s g, h.table s = some g → g.small = true → g.free c ≠ [] →
      ∃ nb ≤ b.maxNodes, d.get nb c s = true ∧ (nb = b.maxNodes ∨ nb = nodeBucket b g.nodeId d)) ∧
    (∀ nb ≤ b.maxNodes, ∀ c < b.classes, ∀ s < maxSegments, d.get nb c s = true →
      ∃ g, h.table s = some g ∧ g.small = true) ∧
    (∀ s < maxSegments, ∀ nb ≤ b.maxNodes, ∀ c < b.classes, (clearSlot b s d).get nb c s = false) ∧
    (∀ nb < b.maxNodes, d.activeBitsByNode nb = (bucketBits b d nb).card) ∧
    (∀ nb < b.maxNodes, ∀ c < b.classes, ∀ s < maxSegments, d.get nb c s = true →
      0 < d.activeBitsByNode nb) ∧
    (∀ nb < b.maxNodes, ∀ nb' < b.maxNodes, d.nodeIds nb ≠ nodeSlotEmpty →
      d.nodeIds nb = d.nodeIds nb' → nb = nb') ∧
    (∀ nb < b.maxNodes, d.nodeIds nb = nodeSlotEmpty ↔ d.activeBitsByNode nb = 0) ∧
    ∀ c < b.classes, ∀ myNode,
      (directoryScan b myNode c h).1.table = h.table ∧
      (∀ s, (directoryScan b myNode c h).2 = some s → HasFree h.table c s) ∧
      ((directoryScan b myNode c h).2 = none → ∀ s, ¬ HasFree h.table c s) := by
  intro h
  have hi : Inv b h := Inv.run es
  have he := hi.exact d hd
  refine ⟨fun c hc s g hg hsm hf => ?_, fun nb hnb c hc s hs hb => ?_, fun s hs nb hnb c hc => ?_,
    he.counted.active, fun nb hnb c hc s hs hb => ?_,
    fun nb hnb nb' hnb' hne hid => he.counted.distinct nb hnb nb' hnb' hid hne,
    fun nb hnb => ⟨he.counted.empty nb hnb, he.released nb hnb⟩, fun c hc myNode => ?_⟩
  · have hs : s < maxSegments := (hi.table s g hg).trans_le hi.count
    obtain ⟨nb, hnb, hb, hid⟩ := (he.agrees c hc s hs).found g hg hsm hf
    refine ⟨nb, hnb, hb, ?_⟩
    obtain rfl | hlt := hnb.eq_or_lt
    · exact .inl rfl
    · refine hid.imp_right fun hid => ?_
      rw [← hid]
      exact (he.counted.nodeBucket_eq hlt (he.counted.nodeIds_ne hlt hc hs hb)).symm
  · obtain rfl | hlt := hnb.eq_or_lt
    · exact he.placed.shared c hc s hs hb
    · obtain ⟨g, hg, hsm, -⟩ := he.placed.owned nb hlt c hc s hs hb
      exact ⟨g, hg, hsm⟩
  · by_contra hb
    exact (((clearSlot_clears he.counted hs).get nb c s).mp (by simpa using hb)).2 ⟨hnb, hc, rfl⟩
  · rw [he.counted.active nb hnb]
    exact Finset.card_pos.mpr ⟨_, (mem_bucketBits hc hs).mpr hb⟩
  · obtain ⟨hsc, hsome, hnone⟩ := directoryScan_spec hi hd hc myNode
    exact ⟨hsc.table, hsome, hnone⟩

/-- A run in which the directory is there. -/
theorem directory_exact_stayedBehind : ∃ d, (run numa stayedBehind).directory = some d ∧
    ∀ nb < 8, d.activeBitsByNode nb = (bucketBits numa d nb).card := by
  have hsome : (run numa stayedBehind).directory.isSome = true := by decide +kernel
  obtain ⟨d, hd⟩ := Option.isSome_iff_exists.mp hsome
  exact ⟨d, hd, (directory_exact numa stayedBehind d hd).2.2.2.1⟩

/-- A class with a free block may have its bit in the shared bucket only, although its node has a
bucket. -/
theorem bit_not_in_bucket_of_node : ¬ ∀ (es : List Event) (d : SegmentDirectory),
    (run numa es).directory = some d → ∀ c < numa.classes, ∀ s g,
      (run numa es).table s = some g → g.small = true → g.free c ≠ [] →
        d.get (nodeBucket numa g.nodeId d) c s = true := by
  intro h
  have key : ((run numa stayedBehind).directory.bind fun d =>
      ((run numa stayedBehind).table 8).map fun g =>
        g.small && decide (g.free 0 ≠ []) && !d.get (nodeBucket numa g.nodeId d) 0 8) = some true := by
    decide +kernel
  obtain ⟨d, hd, hmap⟩ := Option.bind_eq_some_iff.mp key
  obtain ⟨g, hg, hb⟩ := Option.map_eq_some_iff.mp hmap
  simp only [Bool.and_eq_true, decide_eq_true_eq, Bool.not_eq_true'] at hb
  obtain ⟨⟨hsm, hf⟩, hget⟩ := hb
  have htrue := h stayedBehind d hd 0 (by decide) 8 g hg hsm hf
  exact Bool.false_ne_true (hget.symm.trans htrue)

end Directory

end SeferAlloc
