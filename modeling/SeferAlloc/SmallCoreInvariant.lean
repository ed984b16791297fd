import SeferAlloc.SmallCoreTraffic
import SeferAlloc.SmallPoolRuns

/-!
# The invariant of the core

The segments represent their blocks, the pool is a queue of empty segments, the
table's slots and the headers agree, the published frees are of LIVE blocks, the
class cursors name segments, and the directory has the bit of a class and a slot
if and only if the slot's segment has a free block of the class.
-/
namespace SeferAlloc

namespace SmallPool
open LinkedDeque

/-- The pool does not see what happens to the segments outside it. -/
lemma Inv.congr {c c' : Core} {q : List ℕ} (h : Inv c q) (hp : c'.pool = c.pool)
    (hn : c'.pooledCount = c.pooledCount) (hcap : c'.poolCap = c.poolCap)
    (hr : c'.registered = c.registered) (hcur : c'.smallCur = c.smallCur)
    (hroot : c'.primordial = c.primordial)
    (hkind : ∀ b, c.registered b = true → (c'.header b).kind = (c.header b).kind)
    (hlive : ∀ b ∈ q, (c'.header b).liveCount = (c.header b).liveCount) : Inv c' q := by
  refine ⟨hp ▸ h.linked, hn ▸ h.count, hn ▸ hcap ▸ h.cap, fun b hb => ?_, fun b hb hq => ?_, ?_, ?_,
    hr ▸ h.null⟩
  · obtain ⟨hreg, hk, hl, hc⟩ := h.member b hb
    exact ⟨hr ▸ hreg, (hkind b hreg).trans hk, (hlive b hb).trans hl, hcur ▸ hc⟩
  · rw [hp]
    exact h.clear b (hr ▸ hb) hq
  · obtain ⟨hreg, hk⟩ := h.current
    rw [hcur, hkind _ hreg]
    exact ⟨hr ▸ hreg, hk⟩
  · obtain ⟨hreg, hk⟩ := h.root
    rw [hroot, hkind _ hreg]
    exact ⟨hr ▸ hreg, hk⟩

end SmallPool

namespace SmallCore
open Small SmallBatch SmallBatch.AllocCore ScanBackoff

/-! ## The pool -/

def poolKind : Kind → SegmentKind
  | .small => .small
  | .primordial => .primordial

/-- What the pool sees of the core. -/
def poolView (c : AllocCore) (root : ℕ) : SmallPool.Core where
  header b := ⟨poolKind (c.homes b).seg.kind, (c.homes b).seg.live, (c.homes b).decommitted⟩
  registered := c.registered
  primordial := root
  smallCur := c.smallCur
  pool := c.pool
  pooledCount := c.pooledCount
  poolCap := c.poolCap
  decayInterval := 0
  lastPoolDecayTick := none

lemma poolKind_small {kind : Kind} : poolKind kind = .small ↔ kind = .small := by
  cases kind <;> decide

section Pool
variable {bd : SmallBatch.Build} {c : AllocCore} {root base : ℕ} {q : List ℕ}

lemma isPooled_iff (h : SmallPool.Inv (poolView c root) q) (hr : c.registered base = true) :
    c.IsPooled base ↔ base ∈ q := h.isPooled_iff hr

lemma poolView_release (c : AllocCore) (root base : ℕ) :
    poolView (c.releaseEmptySegment bd base) root =
      (poolView c root).releaseEmptySegment base := by
  simp only [poolView, releaseEmptySegment, setHome, invalidateClassCursorForSlot,
    SmallPool.Core.releaseEmptySegment, SmallPool.Core.mk.injEq, and_true]
  funext x
  by_cases hx : x = base
  · subst hx
    simp
  · simp [Function.update_of_ne hx]

/-- A hit leaves the pool. -/
lemma unpool_spec (h : SmallPool.Inv (poolView c root) q) (hr : c.registered base = true) :
    ∃ pool n, c.unpoolIfPresent base = some { c with pool := pool, pooledCount := n } ∧
      SmallPool.Inv (poolView { c with pool := pool, pooledCount := n } root) (q.erase base) := by
  rw [unpoolIfPresent]
  split_ifs with hin hzero
  · have hq := (isPooled_iff h hr).mp hin
    rw [show c.pooledCount = q.length from h.count] at hzero
    exact absurd hq (List.length_eq_zero_iff.mp hzero ▸ List.not_mem_nil)
  · obtain ⟨p, hp, hinv, -⟩ := h.unlink ((isPooled_iff h hr).mp hin)
    rw [SmallPool.Core.poolUnlink,
      if_neg (show ¬(poolView c root).pooledCount = 0 from hzero)] at hp
    obtain rfl := Option.some.inj hp
    exact ⟨_, _, rfl, hinv⟩
  · have hq : base ∉ q := (isPooled_iff h hr).not.mp hin
    rw [List.erase_of_not_mem hq]
    exact ⟨_, _, rfl, h⟩

/-- An empty segment enters the pool or is released. -/
lemma releaseOrPool_spec (h : SmallPool.Inv (poolView c root) q) (hr : c.registered base = true)
    (hkind : (c.homes base).seg.kind = .small) (hlive : (c.homes base).seg.live = 0)
    (hcur : base ≠ c.smallCur) (hq : base ∉ q) :
    (∃ pool n, c.releaseOrPoolEmptySegment bd base =
        some { c with pool := pool, pooledCount := n } ∧
      SmallPool.Inv (poolView { c with pool := pool, pooledCount := n } root) (q ++ [base])) ∨
    (c.releaseOrPoolEmptySegment bd base = some (c.releaseEmptySegment bd base) ∧
      SmallPool.Inv (poolView (c.releaseEmptySegment bd base) root) q) := by
  have hkind' : ((poolView c root).header base).kind = .small := poolKind_small.mpr hkind
  have hin : ¬(bd.small.debugAssertions = true ∧ c.IsPooled base) := fun hb =>
    hq ((isPooled_iff h hr).mp hb.2)
  rw [releaseOrPoolEmptySegment, if_neg hin]
  split_ifs with hcap
  · exact .inl ⟨_, _, rfl, h.enter hr hkind' hlive hcur hq hcap⟩
  · refine .inr ⟨rfl, ?_⟩
    rw [poolView_release]
    exact h.release hq hcur (h.ne_primordial hkind')

end Pool

/-! ## The invariant -/

namespace Core

/-- The directory has the bit of a class and a slot if the slot's segment has a free block of the
class, and no other bit. -/
structure Lists (bd : Build) (c : Core) (d : Directory.SegmentDirectory) : Prop where
  counted : Directory.Counted bd.directory d
  exact : ∀ cls < bd.small.sizes.count, ∀ slot < maxSegments,
    d.get 0 cls slot = true ↔ c.baseAt slot ≠ 0 ∧ c.head (c.baseAt slot) cls ≠ none

/-- The core is sound, with the pool `q`. -/
structure Wf (bd : Build) (root : ℕ) (c : Core) (q : List ℕ) : Prop where
  sound : c.alloc.Sound bd.toBuild c.blocks
  pool : SmallPool.Inv (poolView c.alloc root) q
  committed : ∀ base, c.alloc.registered base = true → (c.alloc.homes base).decommitted = false
  placed : ∀ base, c.alloc.registered base = true →
    c.slots (c.alloc.homes base).segmentId = base ∧ (c.alloc.homes base).segmentId < c.count
  aligned : ∀ base, c.alloc.registered base = true → base % segment = 0
  count : c.count ≤ maxSegments
  root : (c.alloc.homes root).segmentId = 0
  pending : ∀ base, c.alloc.registered base = true →
    Reclaimable (c.blocks base) (c.pending base)
  cursors : ∀ cls slot, c.alloc.smallClassCursor cls = some slot → c.baseAt slot ≠ 0
  directory : ∀ d, c.alloc.directory = some d → c.Lists bd d
  frontier : bd.lazyCommit = true → ∀ base, c.alloc.registered base = true →
    (c.seg base).bump ≤ (c.alloc.homes base).committedPayloadEnd ∧
      (c.alloc.homes base).committedPayloadEnd ≤ segment

/-- A small segment without a block that is out is in the pool or the current one, or `x`. -/
def TidyBut (c : Core) (q : List ℕ) (x : ℕ) : Prop :=
  ∀ base, c.alloc.registered base = true → (c.seg base).kind = .small → (c.seg base).live = 0 →
    base ∈ q ∨ base = c.smallCur ∨ base = x

/-- No empty segment is lost. -/
def Tidy (c : Core) (q : List ℕ) : Prop := c.TidyBut q 0

section
variable {bd : Build} {root base slot cls x : ℕ} {c c' : Core} {q : List ℕ}

/-! ## Slots -/

lemma baseAt_ne (h : c.baseAt slot ≠ 0) : slot < c.count ∧ c.slots slot = c.baseAt slot ∧
    c.alloc.registered (c.baseAt slot) = true ∧ (c.alloc.homes (c.baseAt slot)).segmentId = slot := by
  unfold baseAt at *
  split_ifs at * with hs
  · exact ⟨hs.1, rfl, hs.2.1, hs.2.2⟩
  · exact absurd rfl h

lemma Wf.ne_zero (h : c.Wf bd root q) (hr : c.alloc.registered base = true) : base ≠ 0 :=
  h.pool.ne_zero hr

lemma Wf.baseAt_slot (h : c.Wf bd root q) (hr : c.alloc.registered base = true) :
    c.baseAt (c.alloc.homes base).segmentId = base := by
  obtain ⟨hs, hlt⟩ := h.placed base hr
  rw [baseAt, hs, if_pos ⟨hlt, hr, rfl⟩]

/-- Two slots are not of one segment. -/
lemma Wf.slot_unique (_ : c.Wf bd root q) (hr : c.baseAt slot = base) (h0 : base ≠ 0) :
    (c.alloc.homes base).segmentId = slot := by
  subst hr
  exact (baseAt_ne h0).2.2.2

lemma Wf.slot_lt (h : c.Wf bd root q) (hr : c.alloc.registered base = true) :
    (c.alloc.homes base).segmentId < maxSegments :=
  (h.placed base hr).2.trans_le h.count

lemma baseAt_congr (hs : c'.slots = c.slots) (hn : c'.count = c.count)
    (hr : c'.alloc.registered = c.alloc.registered)
    (hid : ∀ b, c.alloc.registered b = true →
      (c'.alloc.homes b).segmentId = (c.alloc.homes b).segmentId) (slot : ℕ) :
    c'.baseAt slot = c.baseAt slot := by
  rw [baseAt, baseAt, hs, hn, hr]
  by_cases hreg : c.alloc.registered (c.slots slot) = true
  · rw [hid _ hreg]
  · simp [hreg]

lemma Wf.current (h : c.Wf bd root q) : c.alloc.registered c.smallCur = true := h.sound.current

lemma Wf.current_notMem (h : c.Wf bd root q) : c.smallCur ∉ q := fun hq =>
  (h.pool.member _ hq).2.2.2 rfl

lemma Wf.kept (h : c.Wf bd root q) (hr : c.alloc.registered base = true) :
    Kept bd.toBuild (c.alloc.homes base) (c.blocks base) := h.sound.kept base hr

lemma Wf.live_pos (h : c.Wf bd root q) (hr : c.alloc.registered base = true) {off : ℕ}
    (hx : (off, cls) ∈ (c.blocks base).carved) (hne : (c.blocks base).place off ≠ .free) :
    (c.seg base).live ≠ 0 := by
  have hlive : (c.seg base).live = _ := (h.kept hr).represents.live
  rw [hlive, Blocks.liveCount]
  exact (List.countP_pos_iff.mpr ⟨_, hx, by simpa using hne⟩).ne'

/-- A segment in the pool has no block out. -/
lemma Wf.live_of_mem (h : c.Wf bd root q) (hq : base ∈ q) : (c.seg base).live = 0 :=
  (h.pool.member base hq).2.2.1

lemma Wf.registered_of_mem (h : c.Wf bd root q) (hq : base ∈ q) :
    c.alloc.registered base = true := (h.pool.member base hq).1

lemma Wf.notMem_of_live (h : c.Wf bd root q) (hl : (c.seg base).live ≠ 0) : base ∉ q := fun hq =>
  hl (h.live_of_mem hq)

/-- A segment of which blocks were freed by other threads is not in the pool. -/
lemma Wf.pending_nil (h : c.Wf bd root q) (hr : c.alloc.registered base = true)
    (hl : (c.seg base).live = 0) : c.pending base = [] := by
  refine List.eq_nil_iff_forall_not_mem.mpr fun r hmem => ?_
  obtain ⟨hx, hlive⟩ := (h.pending base hr).2 r hmem
  exact h.live_pos hr hx (by simp [hlive]) hl

end

end Core

end SmallCore

end SeferAlloc
