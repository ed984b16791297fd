import SeferAlloc.SmallBatchCarves
import SeferAlloc.SmallBatchFlushes
import SeferAlloc.SmallHeapRuns

/-!
# Batches along every run

The callers' commands act on the core and on the record of its blocks. In every
state they reach the registered segments represent their blocks, so a batch
there does what its single operations do.
-/
namespace SeferAlloc
namespace SmallBatch
open Small IntrusiveList ClassLeaves RoutedIssueRun

namespace AllocCore

variable {bd : Build} {c c' : AllocCore} {cls base : ℕ} {blocks : ℕ → Blocks} {b : Blocks}

/-! ## One segment changes -/

/-- Blocks stay where the leaves only grow. -/
lemma Kept.extend {home home' : Home} (h : Kept bd home b) (hseg : home'.seg = home.seg)
    (hsystem : home'.system = home.system) (hslab : home'.codes.Slab home.system)
    (he : Extends home.codes home'.codes) : Kept bd home' b := by
  refine ⟨hseg ▸ h.represents, hsystem ▸ hslab, fun p hp => ?_⟩
  obtain ⟨hpub, henc⟩ := h.coded p hp
  exact ⟨hpub.extend he, (he.codes _).trans henc⟩

lemma about_unlist (c : AllocCore) (base cls : ℕ) (s : Segment) :
    c.About (c.unlist bd base cls s) base := by
  rw [unlist]
  split_ifs
  · exact ⟨rfl, rfl, fun _ hx => Function.update_of_ne hx _ _⟩
  · exact about_setHome ..

/-- A command that moved only the pool or the directory. -/
lemma Sound.beside (h : c.Sound bd blocks) (hh : c'.homes = c.homes)
    (hr : c'.registered = c.registered) (hcur : c'.smallCur = c.smallCur) :
    c'.Sound bd blocks := by
  refine ⟨fun x hx => ?_, ?_⟩
  · rw [hh]
    exact h.kept x (hr ▸ hx)
  · rw [hr, hcur]
    exact h.current

/-! ## Carves -/

lemma Sound.carveBlock (h : c.Sound bd blocks) (hcls : cls < bd.small.sizes.count) (os : Os) :
    ∃ c' off, c.carveBlock bd os cls = some (c', off) ∧ c'.Sound bd (Function.update blocks
      c.smallCur ((blocks c.smallCur).carveAll cls .live off.toList)) := by
  have hk := h.kept _ h.current
  set start := alignUp (c.homes c.smallCur).seg.bump (bd.small.sizes.blockSize cls) with hstart
  by_cases hroom : segment < start + bd.small.sizes.blockSize cls
  · refine ⟨c, none, by simp only [AllocCore.carveBlock, ← hstart, if_pos hroom], ?_⟩
    exact h.about ⟨rfl, rfl, fun _ _ => rfl⟩ hk
  have hone := prepared_one hk.slab bd.small.sizes cls start
  cases hprepare : SmallSidecar.prepare bd.small.sizes (c.homes c.smallCur).system start cls
    (c.homes c.smallCur).codes with
  | mk codes ok =>
  rw [hprepare] at hone
  cases ok with
  | false =>
      have hend : Kept bd { c.homes c.smallCur with codes := codes } (blocks c.smallCur) :=
        hk.extend rfl rfl hone.slab hone.extend
      refine ⟨c.setHome c.smallCur { c.homes c.smallCur with codes := codes }, none, ?_,
        h.about (about_setHome ..) ((homes_setHome ..).symm ▸ hend)⟩
      simp only [AllocCore.carveBlock, ← hstart, if_neg hroom, hprepare]
  | true =>
      obtain ⟨flag, frontier, hhome⟩ := ensureCommitted_seg bd os c.smallCur
        (start + bd.small.sizes.blockSize cls) { c.homes c.smallCur with codes := codes }
      cases hpages : ensureCommitted bd os c.smallCur (start + bd.small.sizes.blockSize cls)
        { c.homes c.smallCur with codes := codes } with
      | mk home granted =>
      rw [hpages] at hhome
      dsimp only at hhome
      subst hhome
      cases granted with
      | false =>
          have hend : Kept bd { c.homes c.smallCur with
              decommitted := flag, committedPayloadEnd := frontier, codes := codes }
              (blocks c.smallCur) := hk.extend rfl rfl hone.slab hone.extend
          refine ⟨c.setHome c.smallCur { c.homes c.smallCur with
            decommitted := flag, committedPayloadEnd := frontier, codes := codes }, none, ?_,
            h.about (about_setHome ..) ((homes_setHome ..).symm ▸ hend)⟩
          simp only [AllocCore.carveBlock, ← hstart, if_neg hroom, hprepare, hpages]
      | true =>
          obtain ⟨hp, -⟩ := hone.published rfl start (List.mem_singleton_self _)
          have hroom' := not_lt.mp hroom
          have hsegment := SmallBatch.carveBlock_eq hk.represents hcls hroom'
          rw [← hstart] at hsegment
          set home : Home := { c.homes c.smallCur with
            seg := carved bd.small cls .live start 1 (c.homes c.smallCur).seg
            decommitted := flag
            committedPayloadEnd := frontier
            codes := codes.put (start / minBlock) cls } with hhome
          have hend : Kept bd home ((blocks c.smallCur).carveAll cls .live [start]) := by
            have hsingle : Segment.runOffsets bd.small cls start 1 = [start] := runOffsets_one start
            rw [← hsingle, World.carveAll_runOffsets]
            exact hk.carveOne hcls hstart hroom' hprepare rfl rfl rfl
          refine ⟨c.setHome c.smallCur home, some start, ?_,
            h.about (about_setHome ..) ((homes_setHome ..).symm ▸ hend)⟩
          simp only [AllocCore.carveBlock, ← hstart, if_neg hroom, hprepare, hpages, hsegment,
            Option.bind_eq_bind, Option.bind_some]
          rw [commitIssue_published (by exact hp) hcls]
          rfl

/-- The blocks of an outcome. -/
def handed (r : Except Unit (List ℕ)) : List ℕ := r.toOption.getD []

lemma slotOrder_slotOrder (st : BlockState) (offs : List ℕ) :
    slotOrder st (slotOrder st offs) = offs := by
  rw [slotOrder, slotOrder]
  split_ifs
  · exact List.reverse_reverse offs
  · rfl

lemma Sound.tryCarveBatch (h : c.Sound bd blocks) (hcls : cls < bd.small.sizes.count) (os : Os)
    (want : ℕ) {st : BlockState} (hst : st ≠ .free) :
    ∃ c' r, c.tryCarveBatch bd os cls want st = some (c', r) ∧ c'.Sound bd (Function.update blocks
      c.smallCur ((blocks c.smallCur).carveAll cls st (slotOrder st (handed r)))) := by
  have hk := h.kept _ h.current
  obtain ⟨⟨c', r⟩, he, hr⟩ := tryCarveBatch_carves hk hcls os want hst
  have hall : AllPrepared bd.small.sizes (c.homes c.smallCur).system cls (c.batchRun bd cls want)
      (c.homes c.smallCur).codes _ _ := prepareBatch_spec hk want
  refine ⟨c', r, he, ?_⟩
  have hnone : slotOrder st [] = [] := by rw [slotOrder, List.reverse_nil, ite_self]
  have hempty : Blocks.carveAll (blocks c.smallCur) cls st (slotOrder st []) =
      blocks c.smallCur := by
    rw [hnone]
    rfl
  obtain ⟨flag, frontier, hhome⟩ := ensureCommitted_seg bd os c.smallCur
    (c.batchStart bd cls + c.batchCount bd cls want * bd.small.sizes.blockSize cls)
    { c.homes c.smallCur with codes := (c.prepareBatch bd cls want).2.1 }
  change (c.commitBatch bd os cls want).1 = _ at hhome
  cases hr with
  | full _ =>
      change c.Sound bd (Function.update blocks c.smallCur (Blocks.carveAll _ cls st
        (slotOrder st [])))
      rw [hempty]
      exact h.about ⟨rfl, rfl, fun _ _ => rfl⟩ hk
  | noLeaf _ _ =>
      change Sound bd _ (Function.update blocks c.smallCur (Blocks.carveAll _ cls st
        (slotOrder st [])))
      rw [hempty]
      refine h.about (about_setHome ..) ?_
      rw [homes_setHome]
      exact hk.extend rfl rfl hall.slab hall.extend
  | noPages _ _ _ =>
      change Sound bd _ (Function.update blocks c.smallCur (Blocks.carveAll _ cls st
        (slotOrder st [])))
      rw [hempty, hhome]
      refine h.about (about_setHome ..) ?_
      rw [homes_setHome]
      exact hk.extend rfl rfl hall.slab hall.extend
  | issued hpos hleaves _ =>
      change Sound bd _ (Function.update blocks c.smallCur (Blocks.carveAll _ cls st
        (slotOrder st (slotOrder st (c.batchRun bd cls want)))))
      rw [slotOrder_slotOrder, hhome, batchRun, World.carveAll_runOffsets]
      refine h.about (about_setHome ..) ?_
      rw [homes_setHome]
      rw [hleaves] at hall
      refine hk.carveRun (alignUp_spec (bd.small.sizes.blockSize_granular cls).1).1 hall rfl rfl ?_
      exact carved_represents hk.represents hcls hst hpos (run_room rfl hpos)

/-! ## Pops -/

lemma Sound.unpoolIfPresent (h : c.Sound bd blocks) (he : c.unpoolIfPresent base = some c') :
    c'.Sound bd blocks ∧ c'.registered = c.registered ∧ c'.homes = c.homes := by
  rw [AllocCore.unpoolIfPresent] at he
  split_ifs at he
  · obtain rfl := Option.some.inj he
    exact ⟨h.beside rfl rfl rfl, rfl, rfl⟩
  · obtain rfl := Option.some.inj he
    exact ⟨h, rfl, rfl⟩

lemma Sound.popFree (h : c.Sound bd blocks) (hr : c.registered base = true) (cls : ℕ) :
    ∃ c' off, c.popFree bd base cls = some (c', .ok off) ∧ c'.Sound bd
      (Function.update blocks base ((blocks base).putAll off.toList .live)) := by
  have hk := h.kept _ hr
  have hlive : BlockState.live ≠ .free := by decide
  cases hhead : (c.homes base).seg.head cls with
  | none =>
      refine ⟨c, none, by simp only [AllocCore.popFree, hhead], ?_⟩
      rw [Option.toList_none, Blocks.putAll_nil]
      exact h.about ⟨rfl, rfl, fun _ _ => rfl⟩ hk
  | some x =>
      have hself : (c.homes base).seg = (c.homes base).seg.settle cls (some x)
          (c.homes base).seg.live := by
        rw [← hhead]
        exact (Segment.settle_self _ _).symm
      have hrep := hk.represents
      rw [hself] at hrep
      obtain ⟨-, -, -, -, hs⟩ := hrep.take hlive
      refine ⟨_, some x, popFree_eq hself hk, h.about (about_unlist ..) ?_⟩
      rw [homes_unlist, Option.toList_some, Blocks.putAll_singleton]
      exact hk.setSeg hs rfl

lemma Sound.tryDrainFreelistBatch (h : c.Sound bd blocks) (hr : c.registered base = true)
    (cls want : ℕ) {st : BlockState} (hst : st ≠ .free) :
    ∃ c' out, c.tryDrainFreelistBatch bd base cls want st = some (c', out) ∧ c'.Sound bd
      (Function.update blocks base ((blocks base).putAll out st)) := by
  have hk := h.kept _ hr
  obtain ⟨l, hl, -⟩ := hk.represents.lists cls
  have hself : Represents bd.small ((c.homes base).seg.settle cls ((c.homes base).seg.head cls)
      (c.homes base).seg.live) (blocks base) := by
    rw [Segment.settle_self]
    exact hk.represents
  obtain ⟨s', out, rest, hloop, -, -, -, -, hrep⟩ := drainLoop_spec hst want hself
  rw [drainLoop_eq hst want hself hl] at hloop
  obtain ⟨rfl, rfl, rfl⟩ : _ = s' ∧ l.take want = out ∧ (l.drop want).head? = rest := by
    simpa using hloop
  refine ⟨_, _, tryDrainFreelistBatch_eq hst want hk hl, ?_⟩
  split_ifs with hempty
  · rw [hempty, Blocks.putAll_nil]
    exact h.about ⟨rfl, rfl, fun _ _ => rfl⟩ hk
  · refine h.about (about_unlist ..) ?_
    rw [homes_unlist]
    exact hk.setSeg hrep rfl

/-! ## Frees -/

lemma Sound.dealloc {ps : List ℕ} (h : c.Sound bd blocks) (hf : c.Flushable blocks cls ps)
    (hlive : c.AllLive blocks ps) (he : AllocCore.deallocEach bd cls ps c = some c') :
    c'.Sound bd (World.freeAll blocks ps) := by
  rw [h.deallocEach ps hf hlive] at he
  obtain ⟨-, hafter⟩ := h.flush hf
  exact (hafter c' he).1

/-- The records of a cut: LIVE blocks of the segment, each once. -/
def Reclaimable (b : Blocks) (records : List (ℕ × ℕ)) : Prop :=
  (records.map Prod.fst).Nodup ∧ ∀ r ∈ records, r ∈ b.carved ∧ b.place r.1 = .live

instance (b : Blocks) (records : List (ℕ × ℕ)) : Decidable (Reclaimable b records) :=
  haveI := decidableCarved
  inferInstanceAs (Decidable (_ ∧ _))

lemma reclaimRecords_kept (records : List (ℕ × ℕ)) {c : AllocCore} {b : Blocks}
    (hk : Kept bd (c.homes base) b) (hrec : Reclaimable b records) :
    ∃ c' changed, reclaimRecords bd base records c = some (c', changed) ∧ c.About c' base ∧
      Kept bd (c'.homes base) (b.putAll (records.map Prod.fst) .free) := by
  induction records generalizing c b with
  | nil =>
      rw [List.map_nil, Blocks.putAll_nil]
      exact ⟨c, [], rfl, ⟨rfl, rfl, fun _ _ => rfl⟩, hk⟩
  | cons r records ih =>
      obtain ⟨off, cls⟩ := r
      obtain ⟨hnodup, hheld⟩ := hrec
      rw [List.map_cons, List.nodup_cons] at hnodup
      obtain ⟨hx, hlive⟩ := hheld _ List.mem_cons_self
      obtain ⟨s, he, hrep⟩ := reclaimSidecarRecord_spec hk.represents hx (.inl hlive)
      rw [if_pos hlive] at hrep
      have hk₁ : Kept bd ((c.setSeg base s).homes base) (b.put off .free) := by
        rw [setSeg, homes_setHome]
        exact hk.setSeg hrep rfl
      have hrec₁ : Reclaimable (b.put off .free) records := by
        refine ⟨hnodup.2, fun r hr => ?_⟩
        obtain ⟨hr₁, hr₂⟩ := hheld r (List.mem_cons_of_mem _ hr)
        have hne : r.1 ≠ off := fun he =>
          hnodup.1 (List.mem_map.mpr ⟨r, hr, he⟩)
        exact ⟨hr₁, by simpa [Blocks.put, hne] using hr₂⟩
      obtain ⟨c', changed, hrest, habout, hk'⟩ := ih hk₁ hrec₁
      refine ⟨c', cls :: changed, ?_, ⟨habout.registered, habout.current, fun x hx => ?_⟩, ?_⟩
      · simp [reclaimRecords, he, hlive, hrest]
      · exact (habout.homes x hx).trans (Function.update_of_ne hx _ _)
      · rw [List.map_cons, Blocks.putAll_cons]
        exact hk'

lemma syncClasses_beside (bd : Build) (base : ℕ) (classes : List ℕ) (c : AllocCore) :
    (classes.foldl (fun c cls => c.syncClass bd base cls) c).homes = c.homes ∧
      (classes.foldl (fun c cls => c.syncClass bd base cls) c).registered = c.registered ∧
      (classes.foldl (fun c cls => c.syncClass bd base cls) c).smallCur = c.smallCur := by
  induction classes generalizing c with
  | nil => exact ⟨rfl, rfl, rfl⟩
  | cons cls classes ih =>
      obtain ⟨h1, h2, h3⟩ := ih (c.syncClass bd base cls)
      rw [List.foldl_cons, h1, h2, h3, syncClass]
      split_ifs
      · exact ⟨rfl, rfl, rfl⟩
      · exact ⟨rfl, rfl, rfl⟩

lemma Sound.finishSmallDrain {changed : List ℕ} (h : c.Sound bd blocks)
    (he : c.finishSmallDrain bd base changed = some c') : c'.Sound bd blocks := by
  obtain ⟨h1, h2, h3⟩ := syncClasses_beside bd base
    ((List.range bd.small.sizes.count).filter (· ∈ changed)) c
  have hs := h.beside h1 h2 h3
  rw [AllocCore.finishSmallDrain] at he
  split_ifs at he
  · exact Option.some.inj he ▸ hs
  · obtain ⟨⟨c₁, gone⟩, hfin, rfl⟩ := Option.map_eq_some_iff.mp he
    exact hs.finished (finishFree_finished hfin)

/-! ## Segments come and go -/

lemma Sound.release (h : c.Sound bd blocks) (hne : base ≠ c.smallCur) :
    (c.releaseEmptySegment bd base).Sound bd blocks := by
  refine ⟨fun x hx => ?_, (Function.update_of_ne hne.symm _ _).trans h.current⟩
  have hxb : x ≠ base := by
    rintro rfl
    exact Bool.false_ne_true ((Function.update_self ..).symm.trans hx)
  have hx' : c.registered x = true := (Function.update_of_ne hxb _ _).symm.trans hx
  have hhome : (c.releaseEmptySegment bd base).homes x = c.homes x := Function.update_of_ne hxb _ _
  exact hhome ▸ h.kept x hx'

lemma kept_new (bd : Build) (kind : Kind) (at' : Placement) : Kept bd (.new bd kind at') .new :=
  ⟨World.represents_new bd.small kind, slab_init at'.system at'.memory, fun _ hp =>
    absurd hp List.not_mem_nil⟩

lemma Sound.reserve (h : c.Sound bd blocks) (hr : c.registered base = false) (at' : Placement)
    (he : c.reserveSmallSegment bd base at' = some c') :
    c'.Sound bd (Function.update blocks base .new) := by
  have hne : c.smallCur ≠ base := by
    rintro rfl
    exact Bool.false_ne_true (hr.symm.trans h.current)
  rw [reserveSmallSegment] at he
  set c₁ : AllocCore := { c with
    homes := Function.update c.homes base (.new bd .small at')
    registered := Function.update c.registered base true
    smallCur := base
    pool := { c.pool with
      next := Function.update c.pool.next base 0
      prev := Function.update c.pool.prev base 0 } } with hc₁
  have hs : c₁.Sound bd (Function.update blocks base .new) := by
    refine ⟨fun x hx => ?_, Function.update_self ..⟩
    by_cases hxb : x = base
    · subst hxb
      have hhome : c₁.homes x = .new bd .small at' := Function.update_self ..
      rw [hhome, Function.update_self]
      exact kept_new bd .small at'
    · have hhome : c₁.homes x = c.homes x := Function.update_of_ne hxb _ _
      rw [hhome, Function.update_of_ne hxb]
      exact h.kept x ((Function.update_of_ne hxb _ _).symm.trans hx)
  change c₁.finalizeOldCursorIfOrphaned bd c.smallCur = some c' at he
  rw [finalizeOldCursorIfOrphaned] at he
  split_ifs at he with hstay
  · exact Option.some.inj he ▸ hs
  · have hlive : (c₁.homes c.smallCur).seg.live = 0 := by
      by_contra hl
      exact hstay (.inl hl)
    exact hs.finished (releaseOrPoolEmptySegment_finished ⟨hlive, hne⟩ he)

lemma Sound.evict (h : c.Sound bd blocks) (hne : base ≠ c.smallCur)
    (he : c.evictPooled bd base = some c') : c'.Sound bd blocks := by
  rw [evictPooled] at he
  split_ifs at he
  have hs : ({ c with pool := c.pool.unlink base, pooledCount := c.pooledCount - 1 } :
      AllocCore).Sound bd blocks := h.beside rfl rfl rfl
  exact Option.some.inj he ▸ hs.release hne

lemma Sound.trim {primordial : ℕ} (h : c.Sound bd blocks) (hr : c.registered primordial = true)
    (hne : c.smallCur ≠ primordial)
    (he : c.releaseEmptyCurrentSmallForTrim bd primordial = some c') : c'.Sound bd blocks := by
  rw [releaseEmptyCurrentSmallForTrim] at he
  split_ifs at he
  · exact Option.some.inj he ▸ h
  · have hs : ({ c with smallCur := primordial } : AllocCore).Sound bd blocks := ⟨h.kept, hr⟩
    exact Option.some.inj he ▸ hs.release hne

end AllocCore

/-! ## Runs -/

/-- What callers ask of the core, and what the OS and the other threads do. -/
inductive Command where
  | carve (cls : ℕ) (os : Os)
  | carveBatch (cls want : ℕ) (st : BlockState) (os : Os)
  | popFree (base cls : ℕ)
  | drainBatch (base cls want : ℕ) (st : BlockState)
  | flush (cls : ℕ) (ps : List ℕ)
  | dealloc (cls : ℕ) (ps : List ℕ)
  | setState (base off cls : ℕ) (st : BlockState)
  | reclaim (base : ℕ) (records : List (ℕ × ℕ))
  | reserve (base : ℕ) (at' : Placement)
  | evict (base : ℕ)
  | trim (primordial : ℕ)

/-- The core and the record of its blocks. -/
structure State where
  core : AllocCore
  blocks : ℕ → Blocks

namespace State
open AllocCore

/-- A core that has only its primordial segment. -/
def init (bd : Build) (base : ℕ) (at' : Placement)
    (directory : Option Directory.SegmentDirectory) (poolCap : ℕ) : State where
  core :=
    { homes := fun _ => .new bd .primordial at'
      registered := fun x => x = base
      smallCur := base
      smallClassCursor := fun _ => none
      directory := directory
      pool := ⟨fun _ => 0, fun _ => 0, 0, 0⟩
      pooledCount := 0
      poolCap := poolCap }
  blocks _ := .new

/-- The record after blocks of a segment are carved. -/
def carved (w : State) (base cls : ℕ) (st : BlockState) (offs : List ℕ) : ℕ → Blocks :=
  Function.update w.blocks base ((w.blocks base).carveAll cls st offs)

/-- The record after blocks of a segment change their state. -/
def moved (w : State) (base : ℕ) (st : BlockState) (offs : List ℕ) : ℕ → Blocks :=
  Function.update w.blocks base ((w.blocks base).putAll offs st)

/-- The callers' contract. The pool gives up no segment that is the current one. -/
def Allowed (bd : Build) (w : State) : Command → Prop
  | .carve cls _ => cls < bd.small.sizes.count
  | .carveBatch cls _ st _ => cls < bd.small.sizes.count ∧ st ≠ .free
  | .popFree base _ => w.core.registered base = true
  | .drainBatch base _ _ st => w.core.registered base = true ∧ st ≠ .free
  | .flush cls ps => w.core.Flushable w.blocks cls ps
  | .dealloc cls ps => w.core.Flushable w.blocks cls ps ∧ w.core.AllLive w.blocks ps
  | .setState base off cls st => w.core.registered base = true ∧
      (off, cls) ∈ (w.blocks base).carved ∧ (w.blocks base).place off ≠ .free ∧ st ≠ .free
  | .reclaim base records => w.core.registered base = true ∧ Reclaimable (w.blocks base) records
  | .reserve base _ => w.core.registered base = false ∧ base % segment = 0 ∧ base ≠ 0
  | .evict base => base ≠ w.core.smallCur
  | .trim primordial => w.core.registered primordial = true ∧ w.core.smallCur ≠ primordial

instance (bd : Build) (w : State) : DecidablePred (w.Allowed bd)
  | .carve .. => inferInstanceAs (Decidable (_ < _))
  | .carveBatch .. | .drainBatch .. | .dealloc .. | .reclaim .. | .trim .. =>
      inferInstanceAs (Decidable (_ ∧ _))
  | .popFree .. => inferInstanceAs (Decidable (_ = _))
  | .flush cls ps => inferInstanceAs (Decidable (w.core.Flushable w.blocks cls ps))
  | .setState .. => inferInstanceAs (Decidable (_ ∧ _ ∧ _ ∧ _))
  | .reserve .. => inferInstanceAs (Decidable (_ ∧ _ ∧ _))
  | .evict .. => inferInstanceAs (Decidable (_ ≠ _))

/-- A command the contract allows; `none` is an abort. -/
def exec (bd : Build) (w : State) : Command → Option State
  | .carve cls os => do
      let (c, off) ← w.core.carveBlock bd os cls
      return ⟨c, w.carved w.core.smallCur cls .live off.toList⟩
  | .carveBatch cls want st os => do
      let (c, r) ← w.core.tryCarveBatch bd os cls want st
      return ⟨c, w.carved w.core.smallCur cls st (slotOrder st (handed r))⟩
  | .popFree base cls => do
      let c ← w.core.unpoolIfPresent base
      let (c, r) ← c.popFree bd base cls
      return ⟨c, w.moved base .live (r.toOption.join.toList)⟩
  | .drainBatch base cls want st => do
      let c ← w.core.unpoolIfPresent base
      let (c, out) ← c.tryDrainFreelistBatch bd base cls want st
      return ⟨c, w.moved base st out⟩
  | .flush cls ps => do
      let c ← flushClass bd cls ps [] w.core
      return ⟨c, World.freeAll w.blocks ps⟩
  | .dealloc cls ps => do
      let c ← deallocEach bd cls ps w.core
      return ⟨c, World.freeAll w.blocks ps⟩
  | .setState base off _ st =>
      some ⟨w.core.setSeg base ((w.core.homes base).seg.setState bd.small off st),
        w.moved base st [off]⟩
  | .reclaim base records => do
      let (c, changed) ← reclaimRecords bd base records w.core
      let c ← c.finishSmallDrain bd base changed
      return ⟨c, w.moved base .free (records.map Prod.fst)⟩
  | .reserve base at' => do
      let c ← w.core.reserveSmallSegment bd base at'
      return ⟨c, Function.update w.blocks base .new⟩
  | .evict base => do
      let c ← w.core.evictPooled bd base
      return ⟨c, w.blocks⟩
  | .trim primordial => do
      let c ← w.core.releaseEmptyCurrentSmallForTrim bd primordial
      return ⟨c, w.blocks⟩

def step (bd : Build) (w : State) (cmd : Command) : Option State :=
  if w.Allowed bd cmd then w.exec bd cmd else some w

def run (bd : Build) : List Command → State → Option State
  | [], w => some w
  | cmd :: cmds, w => do run bd cmds (← w.step bd cmd)

variable {bd : Build} {w w' : State}

/-- Every registered segment represents its blocks. -/
def Sound (bd : Build) (w : State) : Prop := w.core.Sound bd w.blocks

lemma sound_init (bd : Build) (base : ℕ) (at' : Placement)
    (directory : Option Directory.SegmentDirectory) (poolCap : ℕ) :
    (init bd base at' directory poolCap).Sound bd :=
  ⟨fun _ _ => kept_new bd .primordial at', decide_eq_true rfl⟩

/-- A command that ends keeps the state sound. -/
lemma Sound.exec (h : w.Sound bd) {cmd : Command} (ha : w.Allowed bd cmd)
    (he : w.exec bd cmd = some w') : w'.Sound bd := by
  cases cmd with
  | carve cls os =>
      obtain ⟨c, off, hc, hs⟩ := AllocCore.Sound.carveBlock h ha os
      simp only [State.exec, hc, Option.bind_eq_bind, Option.bind_some] at he
      exact Option.some.inj he ▸ hs
  | carveBatch cls want st os =>
      obtain ⟨c, r, hc, hs⟩ := AllocCore.Sound.tryCarveBatch h ha.1 os want ha.2
      simp only [State.exec, hc, Option.bind_eq_bind, Option.bind_some] at he
      exact Option.some.inj he ▸ hs
  | popFree base cls =>
      obtain ⟨c, hc, he⟩ := Option.bind_eq_some_iff.mp he
      obtain ⟨hs, hr, -⟩ := AllocCore.Sound.unpoolIfPresent h hc
      have hbase : c.registered base = true := by
        rw [hr]
        exact ha
      obtain ⟨c', off, hc', hs'⟩ := hs.popFree hbase cls
      simp only [hc', Option.bind_eq_bind, Option.bind_some] at he
      exact Option.some.inj he ▸ hs'
  | drainBatch base cls want st =>
      obtain ⟨c, hc, he⟩ := Option.bind_eq_some_iff.mp he
      obtain ⟨hs, hr, -⟩ := AllocCore.Sound.unpoolIfPresent h hc
      obtain ⟨c', out, hc', hs'⟩ := hs.tryDrainFreelistBatch (hr ▸ ha.1) cls want ha.2
      simp only [hc', Option.bind_eq_bind, Option.bind_some] at he
      exact Option.some.inj he ▸ hs'
  | flush cls ps =>
      obtain ⟨c, hc, he⟩ := Option.bind_eq_some_iff.mp he
      obtain ⟨heq, hafter⟩ := AllocCore.Sound.flush h ha
      exact Option.some.inj he ▸ (hafter c (heq ▸ hc)).1
  | dealloc cls ps =>
      obtain ⟨c, hc, he⟩ := Option.bind_eq_some_iff.mp he
      exact Option.some.inj he ▸ AllocCore.Sound.dealloc h ha.1 ha.2 hc
  | setState base off cls st =>
      obtain ⟨hr, hx, hne, hst⟩ := ha
      have hk := AllocCore.Sound.kept h base hr
      obtain rfl := Option.some.inj he
      refine AllocCore.Sound.about h (about_setHome ..) ?_
      rw [setSeg, homes_setHome, Blocks.putAll_singleton]
      exact hk.setSeg (setState_spec hk.represents hx hne hst) rfl
  | reclaim base records =>
      obtain ⟨hr, hrec⟩ := ha
      obtain ⟨c, changed, hc, habout, hk⟩ :=
        reclaimRecords_kept records (AllocCore.Sound.kept h base hr) hrec
      simp only [State.exec, hc, Option.bind_eq_bind, Option.bind_some] at he
      obtain ⟨c', hc', he⟩ := Option.bind_eq_some_iff.mp he
      exact Option.some.inj he ▸ (AllocCore.Sound.about h habout hk).finishSmallDrain hc'
  | reserve base at' =>
      obtain ⟨c, hc, he⟩ := Option.bind_eq_some_iff.mp he
      exact Option.some.inj he ▸ AllocCore.Sound.reserve h ha.1 at' hc
  | evict base =>
      obtain ⟨c, hc, he⟩ := Option.bind_eq_some_iff.mp he
      exact Option.some.inj he ▸ AllocCore.Sound.evict h ha hc
  | trim primordial =>
      obtain ⟨c, hc, he⟩ := Option.bind_eq_some_iff.mp he
      exact Option.some.inj he ▸ AllocCore.Sound.trim h ha.1 ha.2 hc

lemma Sound.run (cmds : List Command) {w w' : State} (h : w.Sound bd)
    (he : w.run bd cmds = some w') : w'.Sound bd := by
  induction cmds generalizing w with
  | nil => exact Option.some.inj he ▸ h
  | cons cmd cmds ih =>
      obtain ⟨w₁, hstep, hrun⟩ := Option.bind_eq_some_iff.mp he
      refine ih ?_ hrun
      rw [State.step] at hstep
      split_ifs at hstep with ha
      · exact h.exec ha hstep
      · exact Option.some.inj hstep ▸ h

end State

open AllocCore

/-! ## Batches -/

/-- A batch drain is single pops, and leaves its own state byte where they leave LIVE. -/
def DrainsExactly (bd : Build) (c : AllocCore) (base cls want : ℕ) : Prop :=
  ∃ l c', Chain (c.homes base).seg.next ((c.homes base).seg.head cls) l ∧
    popEach bd base cls (min want l.length) c = some (c', l.take want) ∧
    c.tryDrainFreelistBatch bd base cls want .live = some (c', l.take want) ∧
    ∀ st, st ≠ .free → c.tryDrainFreelistBatch bd base cls want st =
      some (c'.setSeg base (writeStates bd.small cls st (l.take want) (c'.homes base).seg),
        l.take want)

/-- A batch carve that is refused nothing is single carves, and leaves its own state byte where
they leave LIVE; a magazine batch is handed out from its end. -/
def CarvesExactly (bd : Build) (os : Os) (c : AllocCore) (cls want : ℕ) : Prop :=
  ∃ c' offs, carveEach bd os cls want c = some (c', offs) ∧
    c.tryCarveBatch bd os cls want .live = some (c', .ok offs) ∧
    ∀ st, st ≠ .free → c.tryCarveBatch bd os cls want st =
      some (c'.setSeg c.smallCur (writeStates bd.small cls st offs (c'.homes c.smallCur).seg),
        .ok (slotOrder st offs))

/-- A batch carve that is refused a leaf or a page hands out nothing, and one that hands out
nothing leaves the segment, the codes and the rest of the core as they were. -/
def RefusesCleanly (bd : Build) (os : Os) (c : AllocCore) (cls want : ℕ) (st : BlockState) : Prop :=
  ∃ c' r, c.tryCarveBatch bd os cls want st = some (c', r) ∧
    ((c.prepareBatch bd cls want).2.2 = false ∨ (c.commitBatch bd os cls want).2 = false →
      r = .error () ∨ r = .ok []) ∧
    (r = .error () ∨ r = .ok [] → c.Untouched c')

/-- Batches do what single operations do, in every state that a run reaches. Flushed arrays of
distinct blocks that the callers hold end as the calls of `dealloc_small` do that take back the
blocks one at a time, each MAG block LIVE again before its call. -/
theorem batches_exact (bd : Build) (base₀ : ℕ) (at' : Placement)
    (directory : Option Directory.SegmentDirectory) (poolCap : ℕ) (cmds : List Command) {w : State}
    (hrun : (State.init bd base₀ at' directory poolCap).run bd cmds = some w) :
    (∀ base cls want, w.core.registered base = true → DrainsExactly bd w.core base cls want) ∧
    (∀ os cls want, cls < bd.small.sizes.count → os.Grants w.core.smallCur →
      (w.core.prepareBatch bd cls want).2.2 = true → CarvesExactly bd os w.core cls want) ∧
    (∀ os cls want st, cls < bd.small.sizes.count → st ≠ .free →
      RefusesCleanly bd os w.core cls want st) ∧
    ∀ groups, w.core.AllFlushable w.blocks groups →
      flushAll bd groups w.core = freeAll bd groups w.core ∧
        (w.core.AllLive w.blocks (groups.flatMap Prod.snd) →
          flushAll bd groups w.core = deallocAll bd groups w.core) := by
  have hlive : BlockState.live ≠ .free := by decide
  have hs : w.core.Sound bd w.blocks :=
    State.Sound.run cmds (State.sound_init bd base₀ at' directory poolCap) hrun
  have hcur := hs.kept _ hs.current
  refine ⟨fun base cls want hr => ?_, fun os cls want hcls hos hleaves => ?_,
    fun os cls want st hcls hst => batch_refused hcur hcls os want hst, fun groups hf =>
      ⟨hs.flushAll groups hf, fun hl => (hs.deallocAll groups hf hl).symm⟩⟩
  · obtain ⟨l, c', hl, hpops, hself, hdrain⟩ := drain_eq_pops want (hs.kept base hr)
    refine ⟨l, c', hl, hpops, ?_, hdrain⟩
    rw [hdrain .live hlive, hself, setSeg_self]
  · obtain ⟨c', hcarves, hself, hbatch⟩ := batch_eq_carves hos hcur hcls want hleaves
    refine ⟨c', _, hcarves, ?_, hbatch⟩
    rw [hbatch .live hlive, hself, setSeg_self, slotOrder, if_neg (by decide)]

/-- The OS grants every page. -/
def grantAll : Os := ⟨fun _ => true, fun _ _ _ => true⟩

lemma grantAll_grants (base : ℕ) : grantAll.Grants base := ⟨rfl, fun _ _ => rfl⟩

lemma classes_fit : 49 ≤ 64 := by decide

/-- A release build with `misuse-checks`. -/
def misuseBuild : Build where
  small :=
    { sizes := .build .none
      smallMetaEnd := 270336
      primordialMetaEnd := 389120
      misuseChecks := true
      debugAssertions := false
      metaEnd_le := releaseBuild.metaEnd_le }
  directory := ⟨1, 49, classes_fit⟩
  lazySmall := false
  lazyPrimordial := false

/-! ## A run on two segments -/

/-- `misuseBuild` where the pages of a small segment are committed as they are carved. -/
def lazyMisuseBuild : Build := { misuseBuild with lazySmall := true }

/-- The OS refuses every page. -/
def refuseAll : Os := ⟨fun _ => false, fun _ _ _ => false⟩

/-- A core with a directory and a pool, before the run. -/
def twoSegmentStart : State :=
  .init lazyMisuseBuild segment ⟨0, 0, segment, packedSystem, fun _ => 0⟩ (some Directory.fresh) 1

/-- Two of the four blocks that the second segment hands to callers. -/
def givenBack : List ℕ := [2 * segment + 270352, 2 * segment + 270384]

/-- Three blocks of the primordial segment go to a magazine and four of a new segment to callers,
who give back two. -/
def twoSegmentRun : List Command :=
  [.carveBatch 0 3 .mag grantAll,
    .reserve (2 * segment) ⟨1, 0, 532480, packedSystem, fun _ => 0⟩,
    .carveBatch 0 4 .live grantAll,
    .dealloc 0 givenBack]

/-- Blocks of the magazine, with one of a caller between them. -/
def mixedBlocks : ℕ × List ℕ := (0, [segment + 389120, 2 * segment + 270336, segment + 389152])

/-- The blocks that callers have kept. -/
def keptBlocks : ℕ × List ℕ := (0, [2 * segment + 270336, 2 * segment + 270368])

lemma twoSegmentRun_result : (twoSegmentStart.run lazyMisuseBuild twoSegmentRun).map (fun w =>
    ((w.core.registered (2 * segment), (w.core.prepareBatch lazyMisuseBuild 0 3).2.2,
      (w.core.commitBatch lazyMisuseBuild refuseAll 48 2).2),
      (w.core.tryDrainFreelistBatch lazyMisuseBuild (2 * segment) 0 2 .mag).map Prod.snd)) =
    some ((true, true, false), some [270384, 270352]) := by
  decide +kernel

lemma twoSegmentRun_flush : (twoSegmentStart.run lazyMisuseBuild twoSegmentRun).map (fun w =>
    ((decide (w.core.AllFlushable w.blocks [mixedBlocks]),
      decide (w.core.AllFlushable w.blocks [keptBlocks]),
      decide (w.core.AllLive w.blocks keptBlocks.2)),
      (flushAll lazyMisuseBuild [mixedBlocks] w.core).map fun c =>
        ((c.homes segment).seg.live, (c.homes (2 * segment)).seg.live))) =
    some ((true, true, true), some (1, 1)) := by
  decide +kernel

/-- Two freed blocks are drained, three are carved, pages that the OS refuses leave a batch with
nothing, and flushes take back blocks of a magazine and of callers across both segments. -/
theorem batches_exact_twoSegments : ∃ w,
    twoSegmentStart.run lazyMisuseBuild twoSegmentRun = some w ∧
    (w.core.tryDrainFreelistBatch lazyMisuseBuild (2 * segment) 0 2 .mag).map Prod.snd =
      some [270384, 270352] ∧
    DrainsExactly lazyMisuseBuild w.core (2 * segment) 0 2 ∧
    CarvesExactly lazyMisuseBuild grantAll w.core 0 3 ∧
    (w.core.commitBatch lazyMisuseBuild refuseAll 48 2).2 = false ∧
    RefusesCleanly lazyMisuseBuild refuseAll w.core 48 2 .mag ∧
    flushAll lazyMisuseBuild [mixedBlocks] w.core = freeAll lazyMisuseBuild [mixedBlocks] w.core ∧
    ((flushAll lazyMisuseBuild [mixedBlocks] w.core).map fun c =>
      ((c.homes segment).seg.live, (c.homes (2 * segment)).seg.live)) = some (1, 1) ∧
    flushAll lazyMisuseBuild [keptBlocks] w.core =
      deallocAll lazyMisuseBuild [keptBlocks] w.core := by
  obtain ⟨w, hrun, hw⟩ := Option.map_eq_some_iff.mp twoSegmentRun_result
  have hf := twoSegmentRun_flush
  rw [hrun, Option.map_some] at hf
  have hf := Option.some.inj hf
  simp only [Prod.mk.injEq, decide_eq_true_eq] at hw hf
  obtain ⟨⟨hreg, hleaves, hrefused⟩, hdrained⟩ := hw
  obtain ⟨⟨hmixed, hkept, hlive⟩, hleft⟩ := hf
  obtain ⟨hdrain, hcarve, hrefuse, hflush⟩ :=
    batches_exact lazyMisuseBuild segment _ (some Directory.fresh) 1 twoSegmentRun hrun
  refine ⟨w, hrun, hdrained, hdrain (2 * segment) 0 2 hreg, ?_, hrefused, ?_, (hflush _ hmixed).1,
    hleft, (hflush _ hkept).2 ?_⟩
  · exact hcarve grantAll 0 3 (by decide +kernel) (grantAll_grants _) hleaves
  · exact hrefuse refuseAll 48 2 .mag (by decide +kernel) (by decide)
  · simpa using hlive

/-! ## What `dealloc_small` rejects -/

/-- A core of one segment, with a block of 16 bytes in a magazine and one with a caller. -/
def magazineRun : List Command := [.carveBatch 0 1 .mag grantAll, .carve 0 grantAll]

/-- The core before the run. -/
def magazineStart : State :=
  .init misuseBuild segment ⟨0, 0, segment, packedSystem, fun _ => 0⟩ none 0

/-- The block of the magazine. -/
def magazineBlock : ℕ × List ℕ := (0, [segment + 389120])

lemma magazineRun_result : (magazineStart.run misuseBuild magazineRun).map (fun w =>
    (decide (w.core.AllFlushable w.blocks [magazineBlock]),
      (flushAll misuseBuild [magazineBlock] w.core).map fun c => (c.homes segment).seg.live,
      (deallocAll misuseBuild [magazineBlock] w.core).map fun c => (c.homes segment).seg.live)) =
    some (true, some 1, some 2) := by
  decide +kernel

/-- A flush takes back a block of the magazine, which `dealloc_small` rejects. -/
theorem flush_ne_deallocs : ¬∀ (cmds : List Command) (w : State),
    magazineStart.run misuseBuild cmds = some w → ∀ groups, w.core.AllFlushable w.blocks groups →
      flushAll misuseBuild groups w.core = deallocAll misuseBuild groups w.core := by
  intro h
  obtain ⟨w, hrun, hw⟩ := Option.map_eq_some_iff.mp magazineRun_result
  simp only [Prod.mk.injEq, decide_eq_true_eq] at hw
  obtain ⟨hmag, hflushed, hrejected⟩ := hw
  rw [h magazineRun w hrun _ hmag, hrejected] at hflushed
  exact absurd hflushed (by decide)

end SmallBatch

end SeferAlloc
