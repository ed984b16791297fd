import SeferAlloc.SmallCoreFrees

/-!
# Views of the core

The heap of segments, the pool and the scan backoff were modelled on their own;
each sees a part of the core. What the core does to that part is what their
operations do.
-/
namespace SeferAlloc
namespace SmallCore
open Small SmallBatch SmallBatch.AllocCore

/-! ## The heap of segments -/

/-- The heap agrees with the core on the segments that are registered, whose payload is there. -/
structure HeapView (c : AllocCore) (h : Heap) : Prop where
  mapped : h.mapped = c.registered
  current : h.smallCur = c.smallCur
  segs : ∀ base, c.registered base = true → h.segs base = (c.homes base).seg
  committed : ∀ base, c.registered base = true → (c.homes base).decommitted = false

section Heap
variable {bd : SmallBatch.Build} {c c' : AllocCore} {h : Heap} {base cls want : ℕ} {st : BlockState}

/-- Only the segment, its codes and its pages are written. -/
lemma HeapView.setHome (v : HeapView c h) (home : Home) (hd : home.decommitted = false) :
    HeapView (c.setHome base home) (h.set base home.seg) where
  mapped := v.mapped
  current := v.current
  segs x hx := by
    change Function.update h.segs base home.seg x = (Function.update c.homes base home x).seg
    by_cases hxb : x = base
    · rw [hxb, Function.update_self, Function.update_self]
    · rw [Function.update_of_ne hxb, Function.update_of_ne hxb]
      exact v.segs x hx
  committed x hx := by
    change (Function.update c.homes base home x).decommitted = false
    by_cases hxb : x = base
    · rw [hxb, Function.update_self, hd]
    · rw [Function.update_of_ne hxb]
      exact v.committed x hx

/-- The directory is not part of the view. -/
lemma HeapView.congr (v : HeapView c h) (hr : c'.registered = c.registered)
    (hc : c'.smallCur = c.smallCur) (hh : c'.homes = c.homes) : HeapView c' h where
  mapped := v.mapped.trans hr.symm
  current := v.current.trans hc.symm
  segs x hx := by rw [hh, v.segs x (hr ▸ hx)]
  committed x hx := by rw [hh, v.committed x (hr ▸ hx)]

/-- A batch drain of a list. -/
theorem HeapView.drain (v : HeapView c h) (hr : c.registered base = true) {out : List ℕ}
    (hd : c.tryDrainFreelistBatch bd base cls want st = some (c', out)) :
    ∃ h', h.drainFrom bd.small cls want st (some base) = some (h', out) ∧ HeapView c' h' := by
  have hsame : h.set base (h.segs base) = h := by simp [Heap.set]
  rw [Heap.drainFrom, if_pos (by rw [v.mapped, hr]), v.segs base hr]
  rw [AllocCore.tryDrainFreelistBatch] at hd
  split_ifs at hd with hnone
  · obtain ⟨rfl, rfl⟩ := Prod.mk.inj (Option.some.inj hd)
    rw [Segment.tryDrainFreelistBatch, if_pos hnone, ← v.segs base hr]
    exact ⟨h, by simp [hsame], v⟩
  · obtain ⟨⟨s, out'⟩, hs, hd⟩ := Option.bind_eq_some_iff.mp hd
    dsimp only at hd
    have hview : HeapView (c.setSeg base s) (h.set base s) :=
      v.setHome { c.homes base with seg := s } (v.committed base hr)
    split_ifs at hd with hcodes hempty <;>
      obtain ⟨rfl, rfl⟩ := Prod.mk.inj (Option.some.inj hd)
    · exact ⟨h.set base s, by rw [hs]; rfl, hview.congr rfl rfl rfl⟩
    · exact ⟨h.set base s, by rw [hs]; rfl, hview⟩

/-- Committing pages leaves the segment. -/
lemma ensureCommitted_seg {os : Os} {carveEnd : ℕ} {home home' : Home} {ok : Bool}
    (h : ensureCommitted bd os base carveEnd home = (home', ok)) (hd : home.decommitted = false) :
    home'.seg = home.seg ∧ home'.decommitted = false := by
  rw [ensureCommitted] at h
  dsimp only at h
  split_ifs at h <;> obtain ⟨rfl, -⟩ := Prod.mk.inj h <;> simp [hd]

/-- A batch carve, whatever the system grants. -/
theorem HeapView.carve (v : HeapView c h) (hr : c.registered c.smallCur = true) {os : Os}
    {r : Except Unit (List ℕ)} (hd : c.tryCarveBatch bd os cls want st = some (c', r)) :
    ∃ grant h', h.carveCurrent bd.small cls want st grant = some (h', r) ∧ HeapView c' h' := by
  set s := (c.homes c.smallCur).seg with hs
  have hseg : h.segs h.smallCur = s := by rw [v.current, v.segs _ hr]
  have hcommitted := v.committed _ hr
  have hself : ∀ home : Home, home.seg = s → home.decommitted = false →
      HeapView (c.setHome c.smallCur home) (h.set h.smallCur s) := fun home he hdec => by
    rw [v.current, ← he]
    exact v.setHome home hdec
  have hstay : h.set h.smallCur s = h := by simp [Heap.set, ← hseg]
  simp only [Heap.carveCurrent, hseg]
  rw [AllocCore.tryCarveBatch] at hd
  dsimp only at hd
  rw [← hs] at hd
  split_ifs at hd with hnone
  · obtain ⟨rfl, rfl⟩ := Prod.mk.inj (Option.some.inj hd)
    refine ⟨.ok, h, ?_, v⟩
    have hout : s.tryCarveBatch bd.small cls want st .ok = some (s, .ok []) := by
      rw [Segment.tryCarveBatch]
      obtain hw | hfull := hnone
      · rw [if_pos hw]
      · rw [if_pos hfull, ite_self]
    simp [hout, hstay]
  obtain ⟨hw, hroom⟩ := not_or.mp hnone
  split at hd
  · obtain ⟨rfl, rfl⟩ := Prod.mk.inj (Option.some.inj hd)
    refine ⟨.noLeaf, _, ?_, hself _ hs.symm hcommitted⟩
    rw [Segment.tryCarveBatch, if_neg hw, if_neg hroom]
    rfl
  · split at hd
    · obtain ⟨rfl, rfl⟩ := Prod.mk.inj (Option.some.inj hd)
      rename_i hpages
      obtain ⟨hsame, hdec⟩ := ensureCommitted_seg hpages hcommitted
      refine ⟨.noPages, _, ?_, hself _ (hsame.trans hs.symm) hdec⟩
      rw [Segment.tryCarveBatch, if_neg hw, if_neg hroom]
      rfl
    · rename_i home hpages
      obtain ⟨hsame, hdec⟩ := ensureCommitted_seg hpages hcommitted
      obtain ⟨⟨s', out⟩, hcarve, hd⟩ := Option.bind_eq_some_iff.mp hd
      obtain ⟨codes, -, hd⟩ := Option.bind_eq_some_iff.mp hd
      obtain ⟨rfl, rfl⟩ := Prod.mk.inj (Option.some.inj hd)
      rw [hsame] at hcarve
      refine ⟨.ok, h.set c.smallCur s', ?_,
        v.setHome { home with seg := s', codes := codes } hdec⟩
      rw [hcarve, v.current]
      rfl

/-! ### Flushes -/

lemma flushLoop_live {sb : Small.Build} (offs : List ℕ) {s s' : Segment} {prev prev' : Option ℕ}
    {n : ℕ} (hf : Segment.flushLoop sb cls offs prev s = some (s', prev', n)) :
    s'.live = s.live := by
  induction offs generalizing s prev n with
  | nil =>
      simp only [Segment.flushLoop, Option.some.injEq, Prod.mk.injEq] at hf
      rw [hf.1]
  | cons x offs ih =>
      simp only [Segment.flushLoop] at hf
      split_ifs at hf
      · exact ih hf
      · simp only [Option.bind_eq_bind, Option.bind_eq_some_iff] at hf
        obtain ⟨-, -, hloop⟩ := hf
        exact ih hloop
      · simp only [Option.bind_eq_bind, Option.bind_eq_some_iff] at hf
        obtain ⟨⟨s₁, prev₁, n₁⟩, hloop, he⟩ := hf
        simp only [Option.pure_def, Option.some.injEq, Prod.mk.injEq] at he
        rw [he.1, he.2.1] at hloop
        have hbyte : (((s.writeNext x prev).writeByte sb x cls .free)).live = s.live := by
          rw [Segment.writeByte]
          split_ifs <;> rfl
        rw [ih hloop, hbyte]

/-- A flush takes the blocks it accepts off the count. -/
lemma flushRun_live {sb : Small.Build} {s s' : Segment} {offs : List ℕ} {n : ℕ}
    (hf : s.flushRun sb cls offs = some (s', n)) : n ≤ s.live ∧ s'.live = s.live - n := by
  simp only [Segment.flushRun, Option.bind_eq_bind, Option.bind_eq_some_iff] at hf
  obtain ⟨⟨s₁, prev, accepted⟩, hloop, s₂, hsub, he⟩ := hf
  obtain ⟨rfl, rfl⟩ := Prod.mk.inj (Option.some.inj he)
  dsimp only at hsub
  have hset : (if accepted = 0 then s₁ else s₁.setHead cls prev).live = s.live := by
    rw [← flushLoop_live offs hloop]
    split_ifs <;> rfl
  rw [Segment.subLive, hset] at hsub
  by_cases hle : accepted ≤ s.live
  · rw [if_pos hle] at hsub
    exact ⟨hle, by rw [← Option.some.inj hsub]⟩
  · rw [if_neg hle] at hsub
    contradiction

/-- What the flush of a run does to the core: the segment is written, and may be gone after. -/
structure Flushed (bd : SmallBatch.Build) (c c' : AllocCore) (base cls : ℕ) (offs : List ℕ)
    (gone : Bool) (s : Segment) (n : ℕ) : Prop where
  run : (c.homes base).seg.flushRun bd.small cls offs = some (s, n)
  ended : gone = (c.setSeg base s).decLiveAndMaybeDecommit base n
  current : c'.smallCur = c.smallCur
  registered : ∀ x, x ≠ base ∨ gone = false → c'.registered x = c.registered x
  homes : ∀ x, c'.registered x = true →
    c.registered x = true ∧ c'.homes x = (c.setSeg base s).homes x

lemma flushRun_flushed {offs : List ℕ} {gone : Bool}
    (hd : c.flushRun bd base cls offs = some (c', gone)) :
    ∃ s n, Flushed bd c c' base cls offs gone s n := by
  rw [AllocCore.flushRun] at hd
  obtain ⟨⟨s, n⟩, hs, hd⟩ := Option.bind_eq_some_iff.mp hd
  dsimp only at hd
  set c₁ := if n ≠ 0 ∧ (c.homes base).seg.head cls = none
    then (c.setSeg base s).publishNonempty bd base cls else c.setSeg base s with hc₁
  have hsame : c₁.registered = c.registered ∧ c₁.smallCur = c.smallCur ∧
      c₁.homes = (c.setSeg base s).homes := by
    rw [hc₁]
    split_ifs <;> exact ⟨rfl, rfl, rfl⟩
  obtain ⟨hreg, hcur, hhomes⟩ := hsame
  have hdead : c₁.decLiveAndMaybeDecommit base n =
      (c.setSeg base s).decLiveAndMaybeDecommit base n := by
    rw [decLiveAndMaybeDecommit, decLiveAndMaybeDecommit, hhomes, hcur]
    rfl
  have hfin := finishFree_finished hd
  refine ⟨s, n, hs, ?_, hfin.current.trans hcur, fun x hx => ?_, fun x hx => ?_⟩
  · rw [finishFree, hdead] at hd
    split_ifs at hd with hcond
    · obtain ⟨c₂, -, he⟩ := Option.map_eq_some_iff.mp hd
      rw [hcond, ← (Prod.mk.inj he).2]
    · rw [Bool.eq_false_iff.mpr hcond, ← (Prod.mk.inj (Option.some.inj hd)).2]
  · rw [← hreg]
    obtain hx | hx := hx
    · exact hfin.registered x hx
    · rw [hfin.stays hx]
  · obtain ⟨hx₁, hh⟩ := hfin.homes x hx
    exact ⟨hreg ▸ hx₁, hhomes ▸ hh⟩

lemma setSeg_seg {s : Segment} : ((c.setSeg base s).homes base).seg = s :=
  (congrArg Home.seg (Function.update_self base _ c.homes) :)

/-- A segment without a block outside its lists is left as it is. -/
lemma Flushed.of_empty {offs : List ℕ} {gone : Bool} {s : Segment} {n : ℕ}
    (hf : Flushed bd c c' base cls offs gone s n) (hlive : (c.homes base).seg.live = 0) :
    gone = false ∧ s.live = 0 := by
  obtain ⟨hle, hs⟩ := flushRun_live hf.run
  rw [hlive, Nat.le_zero] at hle
  refine ⟨?_, by rw [hs, hlive, Nat.zero_sub]⟩
  rw [hf.ended, hle, decLiveAndMaybeDecommit]
  simp

/-- A flush registers nothing, and releases no segment that was empty before it. -/
lemma flushClass_registered (n : ℕ) : ∀ {c : AllocCore} {ps : List ℕ} (recycled : List ℕ),
    ps.length ≤ n → AllocCore.flushClass bd cls ps recycled c = some c' → ∀ x,
      (c'.registered x = true → c.registered x = true) ∧
      (c.registered x = true → (c.homes x).seg.live = 0 → c'.registered x = true) := by
  induction n with
  | zero =>
      intro c ps recycled hlen hd x
      obtain rfl := List.eq_nil_of_length_eq_zero (Nat.le_zero.mp hlen)
      rw [AllocCore.flushClass] at hd
      obtain rfl := Option.some.inj hd
      exact ⟨id, fun hx _ => hx⟩
  | succ n ih =>
      intro c ps recycled hlen hd x
      cases ps with
      | nil =>
          rw [AllocCore.flushClass] at hd
          obtain rfl := Option.some.inj hd
          exact ⟨id, fun hx _ => hx⟩
      | cons p rest =>
          have hlen' : rest.length ≤ n := Nat.le_of_succ_le_succ hlen
          have hdrop : (rest.dropWhile (Heap.sameSegment (segmentBaseOfPtr p))).length ≤ n :=
            (List.dropWhile_suffix _).length_le.trans hlen'
          rw [AllocCore.flushClass] at hd
          dsimp only at hd
          split_ifs at hd with hp hknown
          · exact ih recycled hlen' hd x
          · obtain ⟨⟨c₁, gone⟩, hrun, hd⟩ := Option.bind_eq_some_iff.mp hd
            obtain ⟨s, m, hf⟩ := flushRun_flushed hrun
            obtain ⟨hmono, hkeep⟩ := ih _ hdrop hd x
            refine ⟨fun hx => (hf.homes x (hmono hx)).1, fun hx hlive => ?_⟩
            by_cases hxb : x = segmentBaseOfPtr p
            · subst hxb
              obtain ⟨hgone, hs⟩ := hf.of_empty hlive
              have hx₁ := (hf.registered _ (.inr hgone)).trans hx
              refine hkeep hx₁ ?_
              rw [(hf.homes _ hx₁).2, setSeg_seg, hs]
            · have hx₁ := (hf.registered x (.inl hxb)).trans hx
              refine hkeep hx₁ ?_
              rw [(hf.homes x hx₁).2]
              exact (congrArg (fun home : Home => home.seg.live)
                (Function.update_of_ne hxb ..)).trans hlive
          · exact ih recycled hdrop hd x

/-- The heap retires a segment as the core does, once it is told which segments are pooled. -/
lemma HeapView.flushRun (v : HeapView c h) (hr : c.registered base = true) {offs : List ℕ}
    {gone pooled : Bool} {s : Segment} {n : ℕ} (hf : Flushed bd c c' base cls offs gone s n)
    (hp : gone = true → pooled = c'.registered base) :
    ∃ h', (if n = 0 then (h.set base s, false) else (h.set base s).retire base pooled) =
        (h', gone) ∧ HeapView c' h' := by
  have hset : HeapView (c.setSeg base s) (h.set base s) :=
    v.setHome { c.homes base with seg := s } (v.committed base hr)
  have hself : ((c.setSeg base s).homes base).seg = s := setSeg_seg
  have hseg : (h.set base s).segs base = s := (hset.segs base hr).trans hself
  have hdec : ((c.setSeg base s).homes base).decommitted = false := hset.committed base hr
  have view : ∀ mapped : ℕ → Bool, mapped = c'.registered →
      HeapView c' { h.set base s with mapped := mapped } := fun mapped hm =>
    ⟨hm, hset.current.trans hf.current.symm,
      fun x hx => by rw [(hf.homes x hx).2]; exact hset.segs x (hf.homes x hx).1,
      fun x hx => by rw [(hf.homes x hx).2]; exact hset.committed x (hf.homes x hx).1⟩
  have hended := hf.ended
  rw [decLiveAndMaybeDecommit, hself, hdec] at hended
  cases gone with
  | false =>
      have hstays : h.mapped = c'.registered :=
        v.mapped.trans (funext fun x => (hf.registered x (.inr rfl)).symm)
      refine ⟨h.set base s, ?_, view h.mapped hstays⟩
      split_ifs with hn
      · rfl
      · rw [Heap.retire, hseg, if_neg]
        rintro ⟨hlive, hcur, hkind⟩
        exact of_decide_eq_false hended.symm
          ⟨hn, hlive, fun he => hcur (he.trans hset.current.symm), rfl, hkind⟩
  | true =>
      obtain ⟨hn, hlive, hcur, -, hkind⟩ := of_decide_eq_true hended.symm
      rw [if_neg hn, Heap.retire, hseg, hp rfl,
        if_pos ⟨hlive, fun he => hcur (he.trans hset.current), hkind⟩]
      refine ⟨_, rfl, ?_⟩
      cases hpool : c'.registered base with
      | true =>
          refine view h.mapped (v.mapped.trans (funext fun x => ?_))
          by_cases hx : x = base
          · rw [hx, hr, hpool]
          · exact (hf.registered x (.inl hx)).symm
      | false =>
          refine view (Function.update h.mapped base false) (funext fun x => ?_)
          by_cases hx : x = base
          · rw [hx, Function.update_self, hpool]
          · rw [Function.update_of_ne hx, v.mapped]
            exact (hf.registered x (.inl hx)).symm

/-- A flush of the core is the flush of its heap, with the segments pooled that stay registered. -/
theorem HeapView.flushClass (n : ℕ) : ∀ {c : AllocCore} {h : Heap} {ps : List ℕ}
    (recycled : List ℕ), ps.length ≤ n → HeapView c h →
      AllocCore.flushClass bd cls ps recycled c = some c' →
      ∃ h', Heap.flushClass bd.small cls c'.registered ps recycled h = some h' ∧
        HeapView c' h' := by
  induction n with
  | zero =>
      intro c h ps recycled hlen v hd
      obtain rfl := List.eq_nil_of_length_eq_zero (Nat.le_zero.mp hlen)
      rw [AllocCore.flushClass] at hd
      obtain rfl := Option.some.inj hd
      exact ⟨h, by rw [Heap.flushClass], v⟩
  | succ n ih =>
      intro c h ps recycled hlen v hd
      cases ps with
      | nil =>
          rw [AllocCore.flushClass] at hd
          obtain rfl := Option.some.inj hd
          exact ⟨h, by rw [Heap.flushClass], v⟩
      | cons p rest =>
          have hlen' : rest.length ≤ n := Nat.le_of_succ_le_succ hlen
          have hdrop : (rest.dropWhile (Heap.sameSegment (segmentBaseOfPtr p))).length ≤ n :=
            (List.dropWhile_suffix _).length_le.trans hlen'
          rw [AllocCore.flushClass] at hd
          dsimp only at hd
          rw [Heap.flushClass]
          dsimp only
          rw [v.mapped]
          split_ifs at hd ⊢ with hp hknown
          · exact ih recycled hlen' v hd
          · obtain ⟨⟨c₁, gone⟩, hrun, hd⟩ := Option.bind_eq_some_iff.mp hd
            obtain ⟨s, m, hf⟩ := flushRun_flushed hrun
            have hkept : gone = true → c'.registered (segmentBaseOfPtr p) =
                c₁.registered (segmentBaseOfPtr p) := fun hgone => by
              obtain ⟨hmono, hkeep⟩ := flushClass_registered n _ hdrop hd (segmentBaseOfPtr p)
              refine Bool.eq_iff_iff.mpr ⟨hmono, fun hx => hkeep hx ?_⟩
              obtain ⟨-, hlive, -⟩ := of_decide_eq_true (hgone ▸ hf.ended).symm
              rw [(hf.homes _ hx).2]
              exact hlive
            obtain ⟨h₁, hretire, v₁⟩ := v.flushRun hknown.2 hf hkept
            rw [v.segs _ hknown.2, hf.run]
            simp only [Option.bind_eq_bind, Option.bind_some, hretire]
            exact ih _ hdrop v₁ hd
          · exact ih recycled hdrop v hd

end Heap

/-! ## The pool -/

namespace Core
variable {bd : Build} {root base : ℕ} {c c' : Core}

/-- What the pool sees, its clock included. -/
def decayView (bd : Build) (root : ℕ) (c : Core) : SmallPool.Core :=
  { poolView c.alloc root with
    decayInterval := bd.decayInterval
    lastPoolDecayTick := c.lastPoolDecayTick }

lemma decayView_release (alloc : AllocCore) :
    (c.withAlloc (alloc.releaseEmptySegment bd.toBuild base)).decayView bd root =
      ((c.withAlloc alloc).decayView bd root).releaseEmptySegment base := by
  have hview := @poolView_release bd.toBuild alloc root base
  rw [SmallPool.Core.releaseEmptySegment] at hview
  rw [decayView, withAlloc, hview]
  rfl

/-- A pooled segment is taken off its list and released. -/
lemma decayView_evict (root : ℕ) {c : Core} {alloc : AllocCore}
    (he : c.alloc.evictPooled bd.toBuild base = some alloc) :
    ((c.decayView bd root).poolUnlink base).map (·.releaseEmptySegment base) =
      some ((c.withAlloc alloc).decayView bd root) := by
  rw [evictPooled] at he
  split_ifs at he with hzero
  rw [← Option.some.inj he, decayView_release, SmallPool.Core.poolUnlink,
    if_neg (show ¬(c.decayView bd root).pooledCount = 0 from hzero)]
  rfl

/-- A segment that is found leaves the pool. -/
theorem decayView_unpool (hd : c.unpoolIfPresent base = some c') :
    ∃ es, (c.decayView bd root).unpoolIfPresent base = some (c'.decayView bd root, es) := by
  obtain ⟨alloc, he, rfl⟩ := Option.map_eq_some_iff.mp hd
  rw [AllocCore.unpoolIfPresent] at he
  rw [SmallPool.Core.unpoolIfPresent, SmallPool.Core.poolUnlink]
  by_cases hin : c.alloc.IsPooled base
  · rw [if_pos hin] at he
    rw [if_pos (show (c.decayView bd root).IsPooled base from hin)]
    split_ifs at he with hzero
    rw [if_neg (show ¬(c.decayView bd root).pooledCount = 0 from hzero), ← Option.some.inj he]
    exact ⟨_, rfl⟩
  · rw [if_neg hin] at he
    rw [if_neg (show ¬(c.decayView bd root).IsPooled base from hin), ← Option.some.inj he]
    exact ⟨_, rfl⟩

/-- An empty segment that is not pooled enters the pool or is released. -/
theorem decayView_releaseOrPool {alloc : AllocCore} (hout : ¬c.alloc.IsPooled base)
    (hd : c.alloc.releaseOrPoolEmptySegment bd.toBuild base = some alloc) :
    ∃ es, (c.decayView bd root).releaseOrPoolEmptySegment base =
      some ((c.withAlloc alloc).decayView bd root, es) := by
  rw [AllocCore.releaseOrPoolEmptySegment, if_neg fun hb => hout hb.2] at hd
  rw [SmallPool.Core.releaseOrPoolEmptySegment,
    if_neg (show ¬(c.decayView bd root).IsPooled base from hout)]
  by_cases hroom : c.alloc.pooledCount < c.alloc.poolCap
  · rw [if_pos hroom] at hd
    rw [if_pos (show (c.decayView bd root).pooledCount < (c.decayView bd root).poolCap from hroom),
      ← Option.some.inj hd]
    exact ⟨_, rfl⟩
  · rw [if_neg hroom] at hd
    rw [if_neg (show ¬(c.decayView bd root).pooledCount < (c.decayView bd root).poolCap from hroom),
      ← Option.some.inj hd, decayView_release]
    exact ⟨_, rfl⟩

/-- A tick of the decay. -/
theorem decayView_decay {now : ℕ} (hd : c.maybeDecaySmallPool bd now = some c') :
    ∃ es, (c.decayView bd root).maybeDecaySmallPool now = some (c'.decayView bd root, es) := by
  rw [maybeDecaySmallPool] at hd
  rw [SmallPool.Core.maybeDecaySmallPool]
  by_cases hzero : c.alloc.pooledCount = 0
  · rw [if_pos hzero] at hd
    rw [if_pos (show (c.decayView bd root).pooledCount = 0 from hzero), Option.some.inj hd]
    exact ⟨_, rfl⟩
  rw [if_neg hzero] at hd
  rw [if_neg (show ¬(c.decayView bd root).pooledCount = 0 from hzero)]
  rw [show (c.decayView bd root).lastPoolDecayTick = c.lastPoolDecayTick from rfl]
  cases htick : c.lastPoolDecayTick with
  | none =>
      simp only [htick, Option.some.injEq] at hd
      rw [← hd]
      exact ⟨_, rfl⟩
  | some t =>
      simp only [htick] at hd
      by_cases hsoon : now - t < bd.decayInterval
      · rw [if_pos hsoon] at hd
        refine ⟨[], ?_⟩
        dsimp only
        rw [if_pos (show now - t < (c.decayView bd root).decayInterval from hsoon),
          Option.some.inj hd]
      · rw [if_neg hsoon] at hd
        set ticked : Core := { c with lastPoolDecayTick := some now } with hticked
        split_ifs at hd with htail
        obtain ⟨alloc, he, rfl⟩ := Option.map_eq_some_iff.mp hd
        obtain ⟨p, hp, hrel⟩ := Option.map_eq_some_iff.mp
          (decayView_evict root (c := ticked) he)
        refine ⟨[.decayed c.alloc.pool.tail], ?_⟩
        dsimp only
        rw [if_neg (show ¬now - t < (c.decayView bd root).decayInterval from hsoon),
          if_neg (show ¬(c.decayView bd root).pool.tail = 0 from htail)]
        change Option.map _ ((ticked.decayView bd root).poolUnlink ticked.alloc.pool.tail) = _
        rw [hp, Option.map_some, ← hrel]
        rfl

/-- A drain of the pool. -/
theorem decayView_drainLoop (fuel : ℕ) : ∀ {c : Core}, c.drainLoop bd fuel = some c' →
    ∃ es, (c.decayView bd root).drainLoop fuel = some (c'.decayView bd root, es) := by
  induction fuel with
  | zero =>
      intro c hd
      contradiction
  | succ fuel ih =>
      intro c hd
      rw [drainLoop] at hd
      rw [SmallPool.Core.drainLoop, SmallPool.Core.popPooledSegment]
      by_cases hhead : c.alloc.pool.head = 0
      · rw [if_pos hhead] at hd
        rw [if_pos (show (c.decayView bd root).pool.head = 0 from hhead)]
        split_ifs at hd with hzero
        rw [if_pos (show (c.decayView bd root).pooledCount = 0 from hzero), Option.some.inj hd]
        exact ⟨_, rfl⟩
      · rw [if_neg hhead] at hd
        obtain ⟨alloc, he, hd⟩ := Option.bind_eq_some_iff.mp hd
        obtain ⟨p, hp, hrel⟩ := Option.map_eq_some_iff.mp (decayView_evict root he)
        obtain ⟨es, hes⟩ := ih hd
        rw [if_neg (show ¬(c.decayView bd root).pool.head = 0 from hhead)]
        rw [show (c.decayView bd root).pool.head = c.alloc.pool.head from rfl, hp]
        simp only [Option.map_some, hrel, hes]
        exact ⟨_, rfl⟩

/-! ## The scan backoff -/

/-- What the backoff sees; what a scan recorded beside the window is its own. -/
def backoffView (root : ℕ) (c : Core) : ScanBackoff.Core where
  world := ⟨⟨c.seg, c.alloc.registered, c.smallCur, []⟩, c.blocks⟩
  window := c.window
  slots := (List.range c.count).map fun i => if c.baseAt i = 0 then none else some (c.baseAt i)
  primordial := root
  owner := c.owner
  directory := c.alloc.directory.isSome
  missStreak := c.missStreak
  recorded _ := none

/-- Both find the same segment in a slot. -/
theorem backoffView_baseAt (slot : ℕ) : (c.backoffView root).baseAt slot =
    if c.baseAt slot = 0 then none else some (c.baseAt slot) := by
  rw [ScanBackoff.Core.baseAt, show (c.backoffView root).slots = (List.range c.count).map
    fun i => if c.baseAt i = 0 then none else some (c.baseAt i) from rfl]
  by_cases hslot : slot < c.count
  · rw [List.getD_eq_getElem?_getD, List.getElem?_map, List.getElem?_range hslot, Option.map_some,
      Option.getD_some]
    split_ifs with hzero
    · rfl
    · exact Option.filter_some_pos (baseAt_ne hzero).2.2.1
  · have hzero : c.baseAt slot = 0 := if_neg fun h => hslot h.1
    rw [if_pos hzero, List.getD_eq_getElem?_getD, List.getElem?_eq_none (by simpa using hslot)]
    rfl

/-- Both leave the drains out of the same searches. -/
theorem backoffView_deferDrains (cls : ℕ) (rescue : Bool) :
    (c.backoffView root).deferDrains bd.small cls rescue =
      ((!rescue && c.ingressArmed) || (!rescue && c.isRouted &&
        c.sidecarDrainsDeferred (bd.small.sizes.blockSize cls))) := by
  have hwindow : (c.backoffView root).sidecarDrainsDeferred (bd.small.sizes.blockSize cls) =
      c.sidecarDrainsDeferred (bd.small.sizes.blockSize cls) := by
    rw [ScanBackoff.Core.sidecarDrainsDeferred, sidecarDrainsDeferred]
    rfl
  have harmed : (c.backoffView root).ingressArmed = c.ingressArmed := rfl
  have hrouted : (c.backoffView root).isRouted = c.isRouted := rfl
  rw [ScanBackoff.Core.deferDrains, hwindow, harmed, hrouted]

lemma backoffView_setWindow (word : BitVec 32) (r : Option ScanBackoff.Recording) :
    (c.setWindow word).backoffView root =
      { (c.backoffView root).setWindow word r with recorded := fun _ => none } := rfl

/-- An empty scan moves the window of both alike. -/
theorem backoffView_note (drainedBytes : ℕ) :
    (c.noteEmptySidecarScan drainedBytes).backoffView root =
      { (c.backoffView root).noteEmptySidecarScan drainedBytes with recorded := fun _ => none } := by
  have hstreak : (c.backoffView root).window (c.backoffView root).smallCur =
      c.window c.smallCur := rfl
  have hbump : (c.backoffView root).seg (c.backoffView root).smallCur = c.seg c.smallCur := rfl
  rw [noteEmptySidecarScan, ScanBackoff.Core.noteEmptySidecarScan, hstreak, hbump]
  dsimp only
  split_ifs
  · exact backoffView_setWindow ..
  · exact backoffView_setWindow ..

/-- So does a drain that reclaimed something. -/
theorem backoffView_reset : c.resetSidecarDeferStreak.backoffView root =
    { (c.backoffView root).resetSidecarDeferStreak with recorded := fun _ => none } := by
  rw [resetSidecarDeferStreak, ScanBackoff.Core.resetSidecarDeferStreak]
  by_cases hw : c.window c.smallCur ≠ 0
  · rw [if_pos hw, if_pos (show (c.backoffView root).window (c.backoffView root).smallCur ≠ 0
      from hw)]
    exact backoffView_setWindow ..
  · rw [if_neg hw, if_neg (show ¬(c.backoffView root).window (c.backoffView root).smallCur ≠ 0
      from hw)]
    rfl

/-! ## A flush of a sound core -/

lemma Wf.heapView {q : List ℕ} (h : c.Wf bd root q) :
    HeapView c.alloc (c.backoffView root).world.heap where
  mapped := rfl
  current := rfl
  segs _ _ := rfl
  committed := h.committed

/-- The magazines may flush into the core as they flush into its heap of segments. -/
theorem Wf.flush_heap {q ps : List ℕ} {cls : ℕ} (h : c.Wf bd root q)
    (hd : c.flushClass bd cls ps = some c') :
    ∃ w, (c.backoffView root).world.flush bd.small cls ps c'.alloc.registered = some w ∧
      HeapView c'.alloc w.heap := by
  obtain ⟨alloc, hflush, he⟩ := Option.bind_eq_some_iff.mp hd
  obtain rfl := Option.some.inj he
  obtain ⟨h', hheap, hview⟩ := h.heapView.flushClass ps.length [] le_rfl hflush
  exact ⟨⟨h', _⟩, by rw [World.flush, hheap]; rfl, hview⟩

end Core

end SmallCore

end SeferAlloc
