import SeferAlloc.SmallCoreSteps

/-!
# Frees and drains of the core

A segment whose last block comes back enters the pool, or it is released: its
slot, its bits and the cursors that name it go with it. A drain takes back the
frees that other threads have published, all of them or those of one word.
-/
namespace SeferAlloc
namespace SmallCore
open Small SmallBatch SmallBatch.AllocCore ScanBackoff

/-- The block of a class that a pointer is to. -/
def blockOf (cls p : ℕ) : Block := (segmentBaseOfPtr p, p - segmentBaseOfPtr p, cls)

lemma ptr_of_blockOf {cls cls' p p' : ℕ} (h : blockOf cls p = blockOf cls' p') : p = p' := by
  obtain ⟨hb, ho, -⟩ : segmentBaseOfPtr p = segmentBaseOfPtr p' ∧
      p - segmentBaseOfPtr p = p' - segmentBaseOfPtr p' ∧ cls = cls' := by simpa [blockOf] using h
  have hle : segmentBaseOfPtr p ≤ p := Nat.sub_le ..
  have hle' : segmentBaseOfPtr p' ≤ p' := Nat.sub_le ..
  omega

namespace Core
variable {bd : Build} {env : ℕ → Answers} {root base slot cls off x : ℕ} {c c' : Core} {q q' : List ℕ}
  {b : Blocks} {alloc : AllocCore}

/-! ## Segments leave -/

section Release

lemma registered_release : (c.alloc.releaseEmptySegment bd.toBuild base).registered x = true ↔
    x ≠ base ∧ c.alloc.registered x = true := by
  change Function.update c.alloc.registered base false x = true ↔ _
  by_cases hx : x = base
  · subst hx
    simp
  · rw [Function.update_of_ne hx]
    exact (and_iff_right hx).symm

lemma homes_release (hx : x ≠ base) :
    (c.alloc.releaseEmptySegment bd.toBuild base).homes x = c.alloc.homes x :=
  Function.update_of_ne hx ..

lemma segmentId_release : ((c.alloc.releaseEmptySegment bd.toBuild base).homes x).segmentId =
    (c.alloc.homes x).segmentId := by
  by_cases hx : x = base
  · subst hx
    change (Function.update c.alloc.homes x _ x).segmentId = _
    rw [Function.update_self]
  · rw [homes_release hx]

lemma Wf.baseAt_release (h : c.Wf bd root q) (hr : c.alloc.registered base = true) (slot : ℕ) :
    (c.withAlloc (c.alloc.releaseEmptySegment bd.toBuild base)).baseAt slot =
      if slot = (c.alloc.homes base).segmentId then 0 else c.baseAt slot := by
  change (if slot < c.count ∧ (c.alloc.releaseEmptySegment bd.toBuild base).registered
      (c.slots slot) = true ∧ ((c.alloc.releaseEmptySegment bd.toBuild base).homes
        (c.slots slot)).segmentId = slot then c.slots slot else 0) = _
  simp only [registered_release, segmentId_release]
  by_cases hs : c.slots slot = base
  · have hnone : c.baseAt slot = if slot = (c.alloc.homes base).segmentId then base else 0 := by
      rw [baseAt, hs]
      by_cases hid : slot = (c.alloc.homes base).segmentId
      · rw [if_pos hid, if_pos ⟨hid ▸ (h.placed base hr).2, hr, hid.symm⟩]
      · rw [if_neg hid, if_neg fun hh => hid hh.2.2.symm]
    rw [if_neg (by simp [hs])]
    split_ifs with hid
    · rfl
    · rw [hnone, if_neg hid]
  · have hid : slot ≠ (c.alloc.homes base).segmentId := fun he => hs (he ▸ (h.placed base hr).1)
    rw [if_neg hid, baseAt]
    simp only [hs, ne_eq, not_false_eq_true, true_and]

/-- A segment without a block that is out has no part in the ledger. -/
lemma Wf.ledger_release (h : c.Wf bd root q) (hr : c.alloc.registered base = true)
    (hlive : (c.seg base).live = 0) :
    (c.withAlloc (c.alloc.releaseEmptySegment bd.toBuild base)).ledger = c.ledger := by
  refine Lending.Ledger.ext (funext fun p => ?_) (Set.ext fun p => ?_)
  · change (if (c.alloc.releaseEmptySegment bd.toBuild base).registered p.1 = true then
      heldIn (c.blocks p.1) p.2 else none) = c.held p
    simp only [registered_release]
    by_cases hp : p.1 = base
    · rw [if_neg fun hh => hh.1 hp]
      refine (not_ne_iff.mp fun hn => ?_).symm
      obtain ⟨-, hx, hne⟩ := held_ne_none.mp hn
      rw [hp] at hx hne
      exact h.live_pos hr hx hne hlive
    · simp only [hp, ne_eq, not_false_eq_true, true_and]
      rfl
  · change (c.alloc.releaseEmptySegment bd.toBuild base).registered p.1 = true ∧ p.2 ∈ c.pending p.1 ↔
      c.alloc.registered p.1 = true ∧ p.2 ∈ c.pending p.1
    rw [registered_release, and_assoc]
    refine and_iff_right_of_imp fun hh hp => ?_
    rw [hp, h.pending_nil hr hlive] at hh
    exact List.not_mem_nil hh.2

/-- A segment without a block that is out is released. -/
lemma Wf.release (h : c.Wf bd root q) (hr : c.alloc.registered base = true) (hq : base ∉ q)
    (hcur : base ≠ c.smallCur) (hkind : (c.seg base).kind = .small) :
    (c.withAlloc (c.alloc.releaseEmptySegment bd.toBuild base)).Wf bd root q := by
  set c' := c.withAlloc (c.alloc.releaseEmptySegment bd.toBuild base) with hc'
  have hreg : ∀ {x}, c'.alloc.registered x = true → x ≠ base ∧ c.alloc.registered x = true :=
    registered_release.mp
  have hhome : ∀ {x}, x ≠ base → c'.alloc.homes x = c.alloc.homes x := homes_release
  have hbase := h.baseAt_release hr
  refine ⟨h.sound.release hcur, ?_, fun x hx => ?_, fun x hx => ?_, fun x hx =>
    h.aligned x (hreg hx).2, h.count, segmentId_release.trans h.root, fun x hx =>
    h.pending x (hreg hx).2, fun k slot hk => ?_, fun d' hd' => ?_, fun hlazy x hx => ?_⟩
  · change SmallPool.Inv (poolView (c.alloc.releaseEmptySegment bd.toBuild base) root) q
    rw [poolView_release]
    exact h.pool.release hq hcur (h.pool.ne_primordial (poolKind_small.mpr hkind))
  · rw [hhome (hreg hx).1]
    exact h.committed x (hreg hx).2
  · rw [hhome (hreg hx).1]
    exact h.placed x (hreg hx).2
  · have hold : c.alloc.smallClassCursor k = some slot ∧
        slot ≠ (c.alloc.homes base).segmentId := by
      change (if c.alloc.smallClassCursor k = some (c.alloc.homes base).segmentId then none
        else c.alloc.smallClassCursor k) = some slot at hk
      split_ifs at hk with hcursor
      refine ⟨hk, fun he => hcursor (he ▸ hk)⟩
    rw [hbase, if_neg hold.2]
    exact h.cursors k slot hold.1
  · obtain ⟨d, hd, rfl⟩ := Option.map_eq_some_iff.mp hd'
    obtain ⟨hc, hget⟩ := clearSlot_get (h.directory d hd).counted (h.slot_lt hr)
    refine ⟨hc, fun k hk slot hs => ?_⟩
    rw [hget k hk, (h.directory d hd).exact k hk slot hs, hbase]
    split_ifs with he
    · simp [he]
    · rw [and_iff_left he]
      refine and_congr_right fun h0 => ?_
      have hne : c.baseAt slot ≠ base := fun hb => he ((h.slot_unique hb (hb ▸ h0)).symm)
      exact not_congr (iff_of_eq (congrArg (fun home : Home => home.seg.head k = none)
        (hhome hne).symm))
  · have hx' := hreg hx
    exact (congrArg (fun home : Home => home.seg.bump ≤ home.committedPayloadEnd ∧
      home.committedPayloadEnd ≤ segment) (hhome hx'.1)).mpr (h.frontier hlazy x hx'.2)

lemma TidyBut.release (h : c.TidyBut q base) :
    (c.withAlloc (c.alloc.releaseEmptySegment bd.toBuild base)).Tidy q := fun x hx hkind hlive => by
  obtain ⟨hne, hr⟩ := registered_release.mp hx
  have hhome : (c.alloc.releaseEmptySegment bd.toBuild base).homes x = c.alloc.homes x :=
    homes_release hne
  obtain hm | hm | hm := h x hr
    ((congrArg (fun home : Home => home.seg.kind) hhome).symm.trans hkind)
    ((congrArg (fun home : Home => home.seg.live) hhome).symm.trans hlive)
  · exact .inl hm
  · exact .inr (.inl hm)
  · exact absurd hm hne

end Release

/-! ## The pool -/

/-- The core with another pool. -/
def withPool (c : Core) (pool : LinkedDeque.Links ℕ) (n : ℕ) : Core :=
  c.withAlloc { c.alloc with pool := pool, pooledCount := n }

section Pool
variable {pool : LinkedDeque.Links ℕ} {n : ℕ}

lemma Wf.withPool (h : c.Wf bd root q)
    (hp : SmallPool.Inv (poolView (c.withPool pool n).alloc root) q') :
    (c.withPool pool n).Wf bd root q' :=
  ⟨h.sound.beside rfl rfl rfl, hp, h.committed, h.placed, h.aligned, h.count, h.root, h.pending,
    h.cursors, fun d hd => ⟨(h.directory d hd).counted, (h.directory d hd).exact⟩, h.frontier⟩

/-- A hit leaves the pool. -/
lemma Wf.unpool (h : c.Wf bd root q) (hr : c.alloc.registered base = true) :
    ∃ pool n, c.unpoolIfPresent base = some (c.withPool pool n) ∧
      (c.withPool pool n).Wf bd root (q.erase base) ∧ base ∉ q.erase base := by
  obtain ⟨pool, n, he, hp⟩ := unpool_spec h.pool hr
  exact ⟨pool, n, by rw [unpoolIfPresent, he]; rfl, h.withPool hp, h.pool.nodup.not_mem_erase⟩

lemma tidyBut_unpool (ht : c.TidyBut q base) :
    (c.withPool pool n).TidyBut (q.erase base) base := fun x hx hkind hlive => by
  obtain hm | hm | hm := ht x hx hkind hlive
  · by_cases hxb : x = base
    · exact .inr (.inr hxb)
    · exact .inl ((List.mem_erase_of_ne hxb).mpr hm)
  · exact .inr (.inl hm)
  · exact .inr (.inr hm)

/-- A segment of the pool is released. -/
lemma Wf.evict (h : c.Wf bd root q) (ht : c.Tidy q) (hm : base ∈ q) :
    ∃ alloc, c.alloc.evictPooled bd.toBuild base = some alloc ∧
      (c.withAlloc alloc).Wf bd root (q.erase base) ∧ (c.withAlloc alloc).Tidy (q.erase base) ∧
      (c.withAlloc alloc).ledger = c.ledger := by
  have hr := h.registered_of_mem hm
  obtain ⟨pool, n, he, hw, hout⟩ := h.unpool hr
  have hin : c.alloc.IsPooled base := (isPooled_iff h.pool hr).mpr hm
  have hzero : c.alloc.pooledCount ≠ 0 := by
    intro h0
    have hlen : c.alloc.pooledCount = q.length := h.pool.count
    rw [List.length_eq_zero_iff.mp (hlen.symm.trans h0)] at hm
    exact List.not_mem_nil hm
  rw [unpoolIfPresent, AllocCore.unpoolIfPresent, if_pos hin, if_neg hzero, Option.map_some] at he
  obtain ⟨-, hkind, hlive, hcur⟩ := h.pool.member base hm
  have hkind' : ((c.withPool pool n).seg base).kind = .small := poolKind_small.mp hkind
  have hsame := congrArg Core.alloc (Option.some.inj he)
  refine ⟨(c.withPool pool n).alloc.releaseEmptySegment bd.toBuild base, ?_,
    hw.release hr hout hcur hkind', (tidyBut_unpool (h.tidyBut ht base)).release,
    hw.ledger_release hr hlive⟩
  rw [evictPooled, if_neg hzero]
  exact congrArg (fun a => some (AllocCore.releaseEmptySegment bd.toBuild a base)) hsame

/-- An empty segment enters the pool or is released. -/
lemma Wf.releaseOrPool (h : c.Wf bd root q) (ht : c.TidyBut q base)
    (hr : c.alloc.registered base = true) (hq : base ∉ q) (hcur : base ≠ c.smallCur)
    (hkind : (c.seg base).kind = .small) (hlive : (c.seg base).live = 0) :
    ∃ alloc q', c.alloc.releaseOrPoolEmptySegment bd.toBuild base = some alloc ∧
      (c.withAlloc alloc).Wf bd root q' ∧ (c.withAlloc alloc).Tidy q' ∧
      (c.withAlloc alloc).ledger = c.ledger := by
  obtain ⟨pool, n, he, hp⟩ | ⟨he, -⟩ :=
    @releaseOrPool_spec bd.toBuild c.alloc root base q h.pool hr hkind hlive hcur hq
  · refine ⟨_, q ++ [base], he, h.withPool hp, fun x hx hk hl => ?_, rfl⟩
    obtain hm | hm | rfl := ht x hx hk hl
    · exact .inl (List.mem_append_left _ hm)
    · exact .inr (.inl hm)
    · exact .inl (List.mem_append_right _ (List.mem_singleton_self _))
  · exact ⟨_, q, he, h.release hr hq hcur hkind, ht.release, h.ledger_release hr hlive⟩

/-- The end of a free. -/
lemma Wf.finishFree (h : c.Wf bd root q) (ht : c.TidyBut q base)
    (hr : c.alloc.registered base = true) (hq : base ∉ q) :
    ∃ alloc gone q', c.alloc.finishFree bd.toBuild base 1 = some (alloc, gone) ∧
      gone = c.alloc.decLiveAndMaybeDecommit base 1 ∧ c.alloc.Finished alloc base gone ∧
      (c.withAlloc alloc).Wf bd root q' ∧ (c.withAlloc alloc).Tidy q' ∧
      (c.withAlloc alloc).ledger = c.ledger := by
  rw [AllocCore.finishFree]
  by_cases hdec : c.alloc.decLiveAndMaybeDecommit base 1 = true
  · obtain ⟨-, hlive, hcur, -, hkind⟩ := of_decide_eq_true hdec
    obtain ⟨alloc, q', he, hw, ht', hledger⟩ := h.releaseOrPool ht hr hq hcur hkind hlive
    refine ⟨alloc, true, q', by rw [if_pos hdec, he]; rfl, hdec.symm, ?_, hw, ht', hledger⟩
    exact releaseOrPoolEmptySegment_finished ⟨hlive, hcur⟩ he
  · refine ⟨c.alloc, false, q, if_neg hdec, (Bool.eq_false_iff.mpr hdec).symm,
      ⟨fun _ => rfl, by simp, rfl, fun _ _ => rfl, fun _ hx => ⟨hx, rfl⟩⟩, h,
      ht.tidy fun hr' hkind hlive => .inr ?_, rfl⟩
    by_contra hcur
    exact hdec (decide_eq_true ⟨one_ne_zero, hlive, hcur, h.committed base hr', hkind⟩)

end Pool

/-! ## Frees -/

lemma reclaimable_put {records : List (ℕ × ℕ)} (h : Reclaimable b records)
    (hout : off ∉ records.map Prod.fst) : Reclaimable (b.put off .free) records := by
  refine ⟨h.1, fun r hr => ?_⟩
  obtain ⟨hx, hlive⟩ := h.2 r hr
  have hne : r.1 ≠ off := fun he => hout (List.mem_map.mpr ⟨r, hr, he⟩)
  exact ⟨hx, by simpa [Blocks.put, hne] using hlive⟩

/-- A list of the segment gets a block. -/
lemma Wf.enlist (h : c.Wf bd root q) (hr : c.alloc.registered base = true) (hq : base ∉ q)
    (hcls : cls < bd.small.sizes.count) {s : Segment}
    (hrep : Represents bd.small s ((c.blocks base).put off .free))
    (hframe : (c.seg base).Framed s) (hother : ∀ k, k ≠ cls → s.head k = (c.seg base).head k)
    (hsome : s.head cls ≠ none) (hout : off ∉ (c.pending base).map Prod.fst) :
    Local c.alloc (c.alloc.enlist bd.toBuild base cls (c.head base cls) s) base ∧
      (c.touch (c.alloc.enlist bd.toBuild base cls (c.head base cls) s) base
        ((c.blocks base).put off .free)).Wf bd root q := by
  have hl : Local c.alloc (c.alloc.enlist bd.toBuild base cls (c.head base cls) s) base :=
    local_enlist hframe.kind _
  refine ⟨hl, h.touch hr hl ?_ (fun hm => absurd hm hq) (reclaimable_put (h.pending base hr) hout)
    (fun d' hd' => ?_) fun hlazy => ?_⟩
  · rw [homes_enlist]
    exact (h.kept hr).setSeg hrep rfl
  · have hid : ((c.alloc.setSeg base s).homes base).segmentId =
        (c.alloc.homes base).segmentId := by
      rw [setSeg, homes_setHome]
    rw [homes_enlist]
    rw [AllocCore.enlist] at hd'
    split_ifs at hd' with hnone
    · obtain ⟨d, hd, rfl⟩ := Option.map_eq_some_iff.mp hd'
      rw [hid]
      exact ⟨d, hd, .publishNonempty (h.directory d hd).counted (Lists.at h hr hd) hcls
        (h.slot_lt hr) hsome hother _⟩
    · refine ⟨d', hd', .same (h.directory d' hd').counted (Lists.at h hr hd') fun k => ?_⟩
      by_cases hk : k = cls
      · subst hk
        exact iff_of_false hsome hnone
      · rw [hother k hk]
  · rw [homes_enlist]
    exact hframe.bump ▸ h.frontier hlazy base hr

/-- The free of a block that is out and not published. -/
lemma Wf.free (h : c.Wf bd root q) (ht : c.Tidy q) {p : ℕ} (hp : p ≠ 0)
    (hbase : segmentBaseOfPtr p = base) (hr : c.alloc.registered base = true)
    (hx : (p - base, cls) ∈ (c.blocks base).carved)
    (hne : (c.blocks base).place (p - base) ≠ .free)
    (hout : p - base ∉ (c.pending base).map Prod.fst) :
    ∃ alloc q', (c.alloc.unpark bd.toBuild p).deallocPtr bd.toBuild cls p = some alloc ∧
      (c.touch alloc base ((c.blocks base).put (p - base) .free)).Wf bd root q' ∧
      (c.touch alloc base ((c.blocks base).put (p - base) .free)).Tidy q' ∧
      (c.touch alloc base ((c.blocks base).put (p - base) .free)).ledger =
        c.ledger.set (base, p - base, cls) none ∧
      alloc.smallCur = c.alloc.smallCur ∧
      ∀ x, alloc.registered x = true → c.alloc.registered x = true := by
  have hself : (c.alloc.homes base).seg = (c.alloc.homes base).seg.settle cls (c.head base cls)
      (c.seg base).live := (Segment.settle_self _ _).symm
  have hrep := (h.kept hr).represents
  rw [hself] at hrep
  obtain ⟨-, hgive⟩ := hrep.give hx hne
  set s := (((c.alloc.homes base).seg.writeNext (p - base) (c.head base cls)).writeByte bd.small
    (p - base) cls .free).settle cls (some (p - base)) ((c.seg base).live - 1) with hs
  have hq : base ∉ q := h.notMem_of_live (h.live_pos hr hx hne)
  have hframe : (c.seg base).Framed s := ⟨(writeByte_framed _ (p - base) cls .free).kind,
    (writeByte_framed _ (p - base) cls .free).bump⟩
  have hother : ∀ k, k ≠ cls → s.head k = (c.seg base).head k := fun k hk =>
    (Function.update_of_ne hk _ _).trans (congrFun (writeByte_frame _ (p - base) cls .free).1 k)
  have hsome : s.head cls ≠ none := by
    rw [hs, settle_head]
    exact Option.some_ne_none _
  obtain ⟨hl, hw⟩ := h.enlist hr hq (hrep.placed _ hx).1 hgive hframe hother hsome hout
  have hledger := h.ledger_put hr hl.about.registered hx
  set c₁ := c.touch (c.alloc.enlist bd.toBuild base cls (c.head base cls) s) base
    ((c.blocks base).put (p - base) .free) with hc₁
  have ht₁ : c₁.TidyBut q base := (h.tidyBut ht base).local hl
  obtain ⟨alloc, gone, q', he, -, hfin, hw', ht', hl'⟩ :=
    hw.finishFree ht₁ (hl.about.registered ▸ hr) hq
  refine ⟨alloc, q', ?_, hw', ht', hl'.trans hledger, hfin.current.trans hl.about.current,
    fun x hx => hl.about.registered ▸ (hfin.homes x hx).1⟩
  rw [free_eq hp hbase hr hself hrep hx hne]
  exact congrArg (Option.map Prod.fst) he

/-! ## Batches of frees -/

/-- The pointer is to a block that is out and not published. -/
structure Returnable (c : Core) (cls p : ℕ) : Prop where
  held : c.held (blockOf cls p) ≠ none
  own : blockOf cls p ∉ c.ledger.announced

/-- No block of the class of the record is published twice. -/
lemma Wf.notMem_pending (h : c.Wf bd root q) {p : ℕ} (hp : c.Returnable cls p) :
    p - segmentBaseOfPtr p ∉ (c.pending (segmentBaseOfPtr p)).map Prod.fst := fun hm => by
  obtain ⟨hr, hx, -⟩ := held_ne_none.mp hp.held
  obtain ⟨r, hr', he⟩ := List.mem_map.mp hm
  obtain ⟨hcarved, -⟩ := (h.pending _ hr).2 r hr'
  have hcls : r.2 = cls := (h.class_unique hr hx).mp (he ▸ hcarved)
  refine hp.own ⟨hr, ?_⟩
  rw [blockOf, ← he, ← hcls]
  exact hr'

/-- Single frees, of which those that are not `good` are of null or of unknown segments. -/
lemma Wf.freeEach (good : ℕ → Bool) (ps : List ℕ) (h : c.Wf bd root q) (ht : c.Tidy q)
    (hnodup : (ps.filter good).Nodup)
    (hgood : ∀ p ∈ ps, good p = true → p ≠ 0 ∧ c.Returnable cls p)
    (hbad : ∀ p ∈ ps, good p = false → p = 0 ∨ c.alloc.registered (segmentBaseOfPtr p) = false) :
    ∃ alloc q', AllocCore.freeEach bd.toBuild cls ps c.alloc = some alloc ∧
      ({ c with alloc := alloc, blocks := freed (ps.filter good) c.blocks } : Core).Wf bd root q' ∧
      ({ c with alloc := alloc, blocks := freed (ps.filter good) c.blocks } : Core).Tidy q' ∧
      Lending.Run (Clash bd) c.ledger ((ps.filter good).map fun p => .giveBack (blockOf cls p))
        ({ c with alloc := alloc, blocks := freed (ps.filter good) c.blocks } : Core).ledger := by
  induction ps generalizing c q with
  | nil => exact ⟨c.alloc, q, rfl, h, ht, .nil _⟩
  | cons p ps ih =>
      cases hp : good p with
      | false =>
          have hskip := hbad p List.mem_cons_self hp
          have hunpark : c.alloc.unpark bd.toBuild p = c.alloc := if_pos hskip
          rw [List.filter_cons_of_neg (by simp [hp])] at hnodup ⊢
          rw [AllocCore.freeEach, hunpark, deallocPtr, if_pos hskip]
          exact ih h ht hnodup (fun p hp => hgood p (List.mem_cons_of_mem _ hp)) fun p hp =>
            hbad p (List.mem_cons_of_mem _ hp)
      | true =>
          rw [List.filter_cons_of_pos hp, List.nodup_cons] at hnodup
          rw [List.filter_cons_of_pos hp]
          obtain ⟨hp0, hret⟩ := hgood p List.mem_cons_self hp
          obtain ⟨hr, hx, hne⟩ := held_ne_none.mp hret.held
          obtain ⟨alloc, q₁, he, hw, ht₁, hledger, -, hmono⟩ :=
            h.free ht hp0 rfl hr hx hne (h.notMem_pending hret)
          set c₁ := c.touch alloc (segmentBaseOfPtr p)
            ((c.blocks (segmentBaseOfPtr p)).put (p - segmentBaseOfPtr p) .free) with hc₁
          have hgood₁ : ∀ p' ∈ ps, good p' = true → p' ≠ 0 ∧ c₁.Returnable cls p' := by
            intro p' hp' hg
            obtain ⟨hp0', hret'⟩ := hgood p' (List.mem_cons_of_mem _ hp') hg
            have hother : blockOf cls p' ≠ blockOf cls p := fun he =>
              hnodup.1 (List.mem_filter.mpr ⟨ptr_of_blockOf he ▸ hp', hp⟩)
            refine ⟨hp0', ?_, ?_⟩
            · change c₁.ledger.held _ ≠ none
              rw [hledger]
              exact (Lending.set_held_of_ne hother).trans_ne hret'.held
            · rw [hledger]
              exact hret'.own
          have hbad₁ : ∀ p' ∈ ps, good p' = false →
              p' = 0 ∨ c₁.alloc.registered (segmentBaseOfPtr p') = false := by
            intro p' hp' hg
            refine (hbad p' (List.mem_cons_of_mem _ hp') hg).imp_right fun hno => ?_
            exact Bool.eq_false_iff.mpr fun hyes => Bool.eq_false_iff.mp hno (hmono _ hyes)
          obtain ⟨alloc', q', he', hw', ht', hrun⟩ := ih hw ht₁ hnodup.2 hgood₁ hbad₁
          refine ⟨alloc', q', ?_, hw', ht', .cons (.giveBack hret.held hret.own) ?_⟩
          · rw [AllocCore.freeEach, he]
            exact he'
          · exact hledger ▸ hrun

/-! ## Published frees -/

lemma Wf.withPending (h : c.Wf bd root q) {pending : ℕ → List (ℕ × ℕ)}
    (hp : ∀ base, c.alloc.registered base = true → Reclaimable (c.blocks base) (pending base)) :
    ({ c with pending := pending } : Core).Wf bd root q :=
  ⟨h.sound, h.pool, h.committed, h.placed, h.aligned, h.count, h.root, hp, h.cursors,
    fun d hd => ⟨(h.directory d hd).counted, (h.directory d hd).exact⟩, h.frontier⟩

/-- A free by another thread is published or was none of its blocks. -/
lemma Wf.post (h : c.Wf bd root q) (r : ℕ × ℕ × ℕ) :
    ∃ pending es, c.post r = { c with pending := pending } ∧
      ({ c with pending := pending } : Core).Wf bd root q ∧
      Lending.Run (Clash bd) c.ledger es ({ c with pending := pending } : Core).ledger ∧
      (∀ e ∈ es, e.Foreign) ∧ (es.filterMap Lending.Event.announced).Sublist [r] := by
  rw [Core.post]
  split_ifs with hr
  · obtain ⟨hreg, hlive, hx, hnew⟩ := hr
    have hmem : ∀ y, y ∈ (c.pending r.1).orderedInsert (fun p q => p.1 ≤ q.1) r.2 ↔
        y = r.2 ∨ y ∈ c.pending r.1 := fun y => List.mem_orderedInsert ..
    refine ⟨_, [.announce r], rfl, h.withPending fun base hbase => ?_, Lending.Step.run ?_, ?_, ?_⟩
    · by_cases hb : base = r.1
      · subst hb
        obtain ⟨hnodup, hheld⟩ := h.pending _ hbase
        rw [Function.update_self]
        refine ⟨?_, fun y hy => ?_⟩
        · have hperm := ((c.pending r.1).perm_orderedInsert (fun p q => p.1 ≤ q.1) r.2).map Prod.fst
          rw [hperm.nodup_iff, List.map_cons, List.nodup_cons]
          exact ⟨hnew, hnodup⟩
        · obtain rfl | hy := (hmem y).mp hy
          · exact ⟨hx, hlive⟩
          · exact hheld y hy
      · rw [Function.update_of_ne hb]
        exact h.pending base hbase
    · have hledger : ({ c with
          pending := Function.update c.pending r.1
            ((c.pending r.1).orderedInsert (fun p q => p.1 ≤ q.1) r.2) } : Core).ledger =
          { c.ledger with announced := insert r c.ledger.announced } := by
        refine Lending.Ledger.ext rfl (Set.ext fun p => ?_)
        rw [Set.mem_insert_iff]
        change c.alloc.registered p.1 = true ∧ p.2 ∈ Function.update c.pending r.1 _ p.1 ↔
          p = r ∨ c.alloc.registered p.1 = true ∧ p.2 ∈ c.pending p.1
        by_cases hp : p.1 = r.1
        · rw [hp, Function.update_self, hmem]
          have he : p = r ↔ p.2 = r.2 := ⟨fun he => he ▸ rfl, fun he => Prod.ext hp he⟩
          rw [he]
          simp [hreg]
        · have hne : p ≠ r := fun he => hp (he ▸ rfl)
          rw [Function.update_of_ne hp]
          simp [hne]
      rw [hledger]
      refine .announce (held_ne_none.mpr ⟨hreg, hx, by simp [hlive]⟩) fun hm => hnew ?_
      exact List.mem_map.mpr ⟨r.2, hm.2, rfl⟩
    · simp [Lending.Event.Foreign]
    · exact List.Sublist.refl _
  · exact ⟨c.pending, [], rfl, h, .nil _, by simp, List.nil_sublist _⟩

lemma Wf.posts (posts : List (ℕ × ℕ × ℕ)) (h : c.Wf bd root q) :
    ∃ pending es, posts.foldl Core.post c = { c with pending := pending } ∧
      ({ c with pending := pending } : Core).Wf bd root q ∧
      Lending.Run (Clash bd) c.ledger es ({ c with pending := pending } : Core).ledger ∧
      (∀ e ∈ es, e.Foreign) ∧ (es.filterMap Lending.Event.announced).Sublist posts := by
  induction posts generalizing c with
  | nil => exact ⟨c.pending, [], rfl, h, .nil _, by simp, List.nil_sublist _⟩
  | cons r posts ih =>
      obtain ⟨pending₁, es₁, he₁, hw₁, hrun₁, hf₁, hs₁⟩ := h.post r
      obtain ⟨pending, es, he, hw, hrun, hf, hs⟩ := ih hw₁
      refine ⟨pending, es₁ ++ es, ?_, hw, hrun₁.append hrun, fun e hm => ?_, ?_⟩
      · rw [List.foldl_cons, he₁]
        exact he
      · obtain hm | hm := List.mem_append.mp hm
        · exact hf₁ e hm
        · exact hf e hm
      · rw [List.filterMap_append]
        exact hs₁.append hs

end Core

/-! ## Reclaims -/

section Reclaim
variable {bd : Build} {c : AllocCore} {home : Home} {base cls : ℕ} {b : Blocks}

/-- A list is empty if no block of the class is free. -/
lemma head_eq_none (hk : Kept bd.toBuild home b) :
    home.seg.head cls = none ↔ ∀ x, (x, cls) ∈ b.carved → b.place x ≠ .free := by
  obtain ⟨l, hl, hmem⟩ := hk.represents.lists cls
  refine ⟨fun hnone x hx hfree => ?_, fun hall => ?_⟩
  · rw [hnone] at hl
    rw [IntrusiveList.chain_none.mp hl] at hmem
    exact List.not_mem_nil ((hmem x).mpr ⟨hx, hfree⟩)
  · have hnil : l = [] := List.eq_nil_iff_forall_not_mem.mpr fun x hx => by
      obtain ⟨hx, hfree⟩ := (hmem x).mp hx
      exact hall x hx hfree
    rw [hnil] at hl
    exact hl.head?_eq.symm

/-- The records of a cut go on the lists of their classes. -/
lemma reclaimRecords_spec (records : List (ℕ × ℕ)) {c : AllocCore} {b : Blocks}
    (hk : Kept bd.toBuild (c.homes base) b) (hrec : Reclaimable b records) :
    ∃ s, reclaimRecords bd.toBuild base records c =
        some (c.setSeg base s, records.map Prod.snd) ∧ (c.homes base).seg.Framed s ∧
      Represents bd.small s (b.putAll (records.map Prod.fst) .free) := by
  induction records generalizing c b with
  | nil =>
      refine ⟨(c.homes base).seg, ?_, ⟨rfl, rfl⟩, ?_⟩
      · rw [setSeg_self]
        rfl
      · rw [List.map_nil, Blocks.putAll_nil]
        exact hk.represents
  | cons r records ih =>
      obtain ⟨off, cls⟩ := r
      obtain ⟨hnodup, hheld⟩ := hrec
      rw [List.map_cons, List.nodup_cons] at hnodup
      obtain ⟨hx, hlive⟩ := hheld _ List.mem_cons_self
      obtain ⟨s₁, he, hrep⟩ := reclaimSidecarRecord_spec hk.represents hx (.inl hlive)
      rw [if_pos hlive] at hrep
      have hk₁ : Kept bd.toBuild ((c.setSeg base s₁).homes base) (b.put off .free) := by
        rw [setSeg, homes_setHome]
        exact hk.setSeg hrep rfl
      have hrec₁ : Reclaimable (b.put off .free) records := by
        refine ⟨hnodup.2, fun r hr => ?_⟩
        obtain ⟨hr₁, hr₂⟩ := hheld r (List.mem_cons_of_mem _ hr)
        have hne : r.1 ≠ off := fun he => hnodup.1 (List.mem_map.mpr ⟨r, hr, he⟩)
        exact ⟨hr₁, by simpa [Blocks.put, hne] using hr₂⟩
      obtain ⟨s, hrest, hframe, hrep'⟩ := ih hk₁ hrec₁
      rw [setSeg_setSeg] at hrest
      rw [setSeg, homes_setHome] at hframe
      refine ⟨s, ?_, (reclaimSidecarRecord_framed he).trans hframe, ?_⟩
      · simp [reclaimRecords, he, hlive, hrest]
      · rw [List.map_cons, Blocks.putAll_cons]
        exact hrep'

/-- The bits of classes whose lists are not empty are set. -/
lemma syncClasses_eq (classes : List ℕ) (hsome : ∀ cls ∈ classes, (c.homes base).seg.head cls ≠ none) :
    classes.foldl (fun c cls => c.syncClass bd.toBuild base cls) c = { c with
      directory := c.directory.map fun d => classes.foldl (fun d cls =>
        Directory.setBit bd.directory (c.homes base).nodeId cls (c.homes base).segmentId d) d } := by
  induction classes generalizing c with
  | nil => simp
  | cons cls classes ih =>
      have hone : c.syncClass bd.toBuild base cls = c.publishNonempty bd.toBuild base cls :=
        if_neg (hsome cls List.mem_cons_self)
      have hrest := @ih (c.publishNonempty bd.toBuild base cls) fun k hk =>
        hsome k (List.mem_cons_of_mem _ hk)
      rw [List.foldl_cons, hone, hrest]
      simp [publishNonempty, Option.map_map, Function.comp_def]

lemma setBits_get {slot : ℕ} (node : ℕ) (classes : List ℕ) {d : Directory.SegmentDirectory}
    (hd : Directory.Counted bd.directory d) (hcls : ∀ cls ∈ classes, cls < bd.small.sizes.count)
    (hslot : slot < maxSegments) :
    Directory.Counted bd.directory (classes.foldl (fun d cls =>
      Directory.setBit bd.directory node cls slot d) d) ∧ ∀ k s,
      (classes.foldl (fun d cls => Directory.setBit bd.directory node cls slot d) d).get 0 k s = true ↔
        (k ∈ classes ∧ s = slot) ∨ d.get 0 k s = true := by
  induction classes generalizing d with
  | nil => exact ⟨hd, by simp⟩
  | cons cls classes ih =>
      obtain ⟨hc, hget⟩ := setBit_get hd (hcls cls List.mem_cons_self) hslot node
      obtain ⟨hc', hget'⟩ := ih hc fun k hk => hcls k (List.mem_cons_of_mem _ hk)
      refine ⟨hc', fun k s => ?_⟩
      rw [List.foldl_cons, hget', hget, List.mem_cons]
      tauto

end Reclaim

/-- The directory brought in step with the classes that changed,
`sync_directory_for_segment_classes`. -/
def synced (bd : Build) (base : ℕ) (changed : List ℕ) (c : AllocCore) : AllocCore :=
  ((List.range bd.small.sizes.count).filter (· ∈ changed)).foldl
    (fun c cls => c.syncClass bd.toBuild base cls) c

/-- How the core moves while the frees of others are drained and nothing is handed out. -/
structure Seeks (bd : Build) (env : ℕ → Answers) (c c' : Core) : Prop where
  trace : ∃ es, Traced bd env c es c' ∧ ∀ e ∈ es, e.Foreign
  slots : c'.slots = c.slots
  count : c'.count = c.count
  current : c'.smallCur = c.smallCur
  owner : c'.owner = c.owner
  registered : ∀ x, c'.alloc.registered x = true → c.alloc.registered x = true
  slot : ∀ x, c'.alloc.registered x = true →
    (c'.alloc.homes x).segmentId = (c.alloc.homes x).segmentId
  carved : ∀ x, (c'.blocks x).carved = (c.blocks x).carved

/-- A drain of one segment. -/
structure Drained (bd : Build) (env : ℕ → Answers) (c c' : Core) (base : ℕ) (cut : ℕ × ℕ → Bool) :
    Prop extends Seeks bd env c c' where
  others : ∀ x, x ≠ base → c'.alloc.registered x = c.alloc.registered x ∧
    (c.alloc.registered x = true → c'.alloc.homes x = c.alloc.homes x)
  pending : c'.alloc.registered base = true → ∀ r ∈ c'.pending base, cut r = false

namespace Core
variable {bd : Build} {env : ℕ → Answers} {root base slot cls off x : ℕ} {c c' : Core} {q q' : List ℕ}
  {b : Blocks} {alloc : AllocCore}

/-- Records go back on the lists of their segment, and the directory learns of it. -/
lemma Wf.reclaim (h : c.Wf bd root q) (hr : c.alloc.registered base = true) (hq : base ∉ q)
    {records : List (ℕ × ℕ)} (hrec : Reclaimable (c.blocks base) records)
    (hout : ∀ r ∈ records, r.1 ∉ (c.pending base).map Prod.fst) :
    ∃ s, reclaimRecords bd.toBuild base records c.alloc =
        some (c.alloc.setSeg base s, records.map Prod.snd) ∧
      Local c.alloc (synced bd base (records.map Prod.snd) (c.alloc.setSeg base s)) base ∧
      (c.touch (synced bd base (records.map Prod.snd) (c.alloc.setSeg base s)) base
        ((c.blocks base).putAll (records.map Prod.fst) .free)).Wf bd root q := by
  obtain ⟨s, he, hframe, hrep⟩ := reclaimRecords_spec records (h.kept hr) hrec
  have hk : Kept bd.toBuild { c.alloc.homes base with seg := s }
      ((c.blocks base).putAll (records.map Prod.fst) .free) := (h.kept hr).setSeg hrep rfl
  set classes := (List.range bd.small.sizes.count).filter (· ∈ records.map Prod.snd) with hclasses
  have hmem : ∀ k, k ∈ classes ↔ k < bd.small.sizes.count ∧ k ∈ records.map Prod.snd := fun k => by
    simp [hclasses]
  have hsome : ∀ k ∈ records.map Prod.snd, s.head k ≠ none := fun k hk' hnone => by
    obtain ⟨r, hr', rfl⟩ := List.mem_map.mp hk'
    refine (head_eq_none hk).mp hnone r.1 (hrec.2 r hr').1 ?_
    simp only [Blocks.putAll, List.mem_map_of_mem hr', if_true]
  have hother : ∀ k, k ∉ records.map Prod.snd → (s.head k = none ↔ c.head base k = none) :=
    fun k hk' => by
      refine (head_eq_none hk).trans ((head_eq_none (h.kept hr)).trans ?_).symm
      refine forall_congr' fun x => forall_congr' fun hx => ?_
      have hnot : x ∉ records.map Prod.fst := fun hm => by
        obtain ⟨r, hr', rfl⟩ := List.mem_map.mp hm
        have hcls : k = r.2 := (h.class_unique hr (hrec.2 r hr').1).mp hx
        exact hk' (hcls ▸ List.mem_map_of_mem hr')
      simp only [Blocks.putAll, if_neg hnot]
  have hsync : synced bd base (records.map Prod.snd) (c.alloc.setSeg base s) =
      { c.alloc.setSeg base s with
        directory := c.alloc.directory.map fun d => classes.foldl (fun d cls =>
          Directory.setBit bd.directory (c.alloc.homes base).nodeId cls
            (c.alloc.homes base).segmentId d) d } := by
    rw [synced, ← hclasses, syncClasses_eq]
    · simp [setSeg, setHome]
    · rintro k hk'
      rw [setSeg, homes_setHome]
      exact hsome k ((hmem k).mp hk').2
  have hl : Local c.alloc (synced bd base (records.map Prod.snd) (c.alloc.setSeg base s)) base := by
    rw [hsync]
    exact (local_setSeg hframe.kind).trans (local_directory ..)
  have hhome : (synced bd base (records.map Prod.snd) (c.alloc.setSeg base s)).homes base =
      { c.alloc.homes base with seg := s } := by
    rw [hsync, setSeg]
    exact homes_setHome ..
  refine ⟨s, he, hl, h.touch hr hl (hhome ▸ hk) (fun hm => absurd hm hq) ?_ (fun d' hd' => ?_)
    fun hlazy => ?_⟩
  · obtain ⟨hnodup, hheld⟩ := h.pending base hr
    refine ⟨hnodup, fun r hr' => ?_⟩
    have hnot : r.1 ∉ records.map Prod.fst := fun hm => by
      obtain ⟨r', hr'', he⟩ := List.mem_map.mp hm
      exact hout r' hr'' (he ▸ List.mem_map_of_mem hr')
    simpa only [Blocks.putAll, if_neg hnot] using hheld r hr'
  · rw [hsync] at hd'
    obtain ⟨d, hd, rfl⟩ := Option.map_eq_some_iff.mp hd'
    obtain ⟨hc, hget⟩ := setBits_get (c.alloc.homes base).nodeId classes
      (h.directory d hd).counted (fun k hk' => ((hmem k).mp hk').1) (h.slot_lt hr)
    refine ⟨d, hd, hc, fun k hk' slot hs => ?_⟩
    rw [hget, hhome, hmem]
    split_ifs with he
    · rw [he, Lists.at h hr hd k hk']
      by_cases hin : k ∈ records.map Prod.snd
      · exact iff_of_true (.inl ⟨⟨hk', hin⟩, rfl⟩) (hsome k hin)
      · rw [ne_eq, ne_eq, hother k hin]
        simp only [hin, and_false, false_and, false_or]
        rfl
    · simp [he]
  · rw [hhome]
    exact hframe.bump ▸ h.frontier hlazy base hr

end Core

section
variable {bd : Build} {env : ℕ → Answers} {c c₁ c' : Core} {base slot : ℕ} {cut : ℕ × ℕ → Bool}

lemma Seeks.refl (c : Core) : Seeks bd env c c :=
  ⟨⟨[], .refl c, by simp⟩, rfl, rfl, rfl, rfl, fun _ h => h, fun _ _ => rfl, fun _ => rfl⟩

lemma Seeks.trans (h : Seeks bd env c c₁) (h' : Seeks bd env c₁ c') : Seeks bd env c c' := by
  obtain ⟨es, htrace, hf⟩ := h.trace
  obtain ⟨es', htrace', hf'⟩ := h'.trace
  refine ⟨⟨es ++ es', htrace.append htrace', fun e he => ?_⟩, h'.slots.trans h.slots,
    h'.count.trans h.count, h'.current.trans h.current, h'.owner.trans h.owner, fun x hx =>
    h.registered x (h'.registered x hx), fun x hx => (h'.slot x hx).trans (h.slot x (h'.registered x hx)),
    fun x => (h'.carved x).trans (h.carved x)⟩
  exact (List.mem_append.mp he).elim (hf e) (hf' e)

/-- A slot keeps its segment until the segment is released. -/
lemma Seeks.baseAt (h : Seeks bd env c c') (slot : ℕ) : c'.baseAt slot =
    if c'.alloc.registered (c.baseAt slot) = true then c.baseAt slot else 0 := by
  by_cases hs : slot < c.count ∧ c.alloc.registered (c.slots slot) = true ∧
      (c.alloc.homes (c.slots slot)).segmentId = slot
  · have hb : c.baseAt slot = c.slots slot := if_pos hs
    rw [hb, Core.baseAt, h.slots, h.count]
    split_ifs with hs' hr hr
    · rfl
    · exact absurd hs'.2.1 hr
    · exact absurd ⟨hs.1, hr, (h.slot _ hr).trans hs.2.2⟩ hs'
    · rfl
  · have hb : c.baseAt slot = 0 := if_neg hs
    rw [hb, ite_self, Core.baseAt, h.slots, h.count, if_neg]
    rintro ⟨hlt, hr, hid⟩
    exact hs ⟨hlt, h.registered _ hr, (h.slot _ hr).symm.trans hid⟩

lemma Seeks.baseAt_of_ne (h : Seeks bd env c c') (h0 : c'.baseAt slot ≠ 0) :
    c'.baseAt slot = c.baseAt slot := by
  rw [h.baseAt] at h0 ⊢
  split_ifs at h0 ⊢
  · rfl
  · exact absurd rfl h0

lemma Seeks.isRouted (h : Seeks bd env c c') : c'.isRouted = c.isRouted :=
  congrArg Option.isSome h.owner

lemma Seeks.ingressArmed (h : Seeks bd env c c') : c'.ingressArmed = c.ingressArmed := by
  rw [Core.ingressArmed, Core.ingressArmed, h.owner]

lemma Drained.head (h : Drained bd env c c' base cut) {x cls : ℕ} (hx : x ≠ base)
    (hr : c.alloc.registered x = true) : c'.head x cls = c.head x cls :=
  congrArg (fun home : Home => home.seg.head cls) ((h.others x hx).2 hr)

end

namespace Core
variable {bd : Build} {env : ℕ → Answers} {root base slot cls off x : ℕ} {c c' : Core} {q q' : List ℕ}
  {cut : ℕ × ℕ → Bool}

/-- A question. -/
lemma seeks_ask {pending : ℕ → List (ℕ × ℕ)}
    {es : List (Lending.Event Block BlockState)}
    (hrun : Lending.Run (Clash bd) c.ledger es ({ c with pending := pending } : Core).ledger)
    (hf : ∀ e ∈ es, e.Foreign)
    (hs : (es.filterMap Lending.Event.announced).Sublist (env c.clock).posts) :
    Seeks bd env c { c with clock := c.clock + 1, pending := pending } := by
  refine ⟨⟨es, ⟨hrun, Nat.le_succ _, ?_⟩, hf⟩, rfl, rfl, rfl, rfl, fun _ hx => hx, fun _ _ => rfl,
    fun _ => rfl⟩
  have hone : c.clock + 1 - c.clock = 1 := Nat.add_sub_cancel_left ..
  simpa only [hone, List.range'_one, List.flatMap_singleton] using hs

/-- The ledger after a cut was collected. -/
lemma Wf.ledger_reclaim (h : c.Wf bd root q) (hr : c.alloc.registered base = true)
    {alloc : AllocCore} (hreg : alloc.registered = c.alloc.registered) (cut : ℕ × ℕ → Bool) :
    ({ c.touch alloc base ((c.blocks base).putAll (((c.pending base).filter cut).map Prod.fst) .free)
        with pending := Function.update c.pending base ((c.pending base).filter (!cut ·)) } :
      Core).ledger = c.ledger.collectAll (((c.pending base).filter cut).map fun x => (base, x)) := by
  set records := (c.pending base).filter cut with hrecords
  have hmem : ∀ p : Block, p ∈ records.map (fun x => ((base, x) : Block)) ↔
      p.1 = base ∧ p.2 ∈ records := fun p => by
    refine ⟨fun hm => ?_, fun hm => List.mem_map.mpr ⟨p.2, hm.2, Prod.ext hm.1.symm rfl⟩⟩
    obtain ⟨x, hx, rfl⟩ := List.mem_map.mp hm
    exact ⟨rfl, hx⟩
  have hheld := (h.pending base hr).2
  refine Lending.Ledger.ext (funext fun p => ?_) (Set.ext fun p => ?_)
  · obtain ⟨y, x⟩ := p
    simp only [Lending.Ledger.collectAll, hmem]
    change (if alloc.registered y = true then heldIn (Function.update c.blocks base _ y) x else none) =
      if y = base ∧ x ∈ records then none else c.held (y, x)
    rw [hreg]
    by_cases hy : y = base
    · subst hy
      simp only [if_pos hr, Function.update_self, heldIn_putAll_free, true_and, held]
      by_cases hx : x ∈ records
      · rw [if_pos hx, if_pos (List.mem_map_of_mem hx)]
      · rw [if_neg hx]
        by_cases hoff : x.1 ∈ records.map Prod.fst
        · rw [if_pos hoff]
          -- The block at this offset is the one of the record.
          refine (not_ne_iff.mp fun hn => hx ?_).symm
          obtain ⟨r, hr', he⟩ := List.mem_map.mp hoff
          have hr₀ := hheld r (List.mem_of_mem_filter hr')
          obtain ⟨hcarved, -⟩ := heldIn_ne_none.mp hn
          have hcls : x.2 = r.2 := (h.class_unique hr hr₀.1).mp (he ▸ hcarved)
          exact Prod.ext he.symm hcls ▸ hr'
        · rw [if_neg hoff]
    · simp only [Function.update_of_ne hy, hy, false_and, if_false]
      rfl
  · change alloc.registered p.1 = true ∧ p.2 ∈ Function.update c.pending base _ p.1 ↔
      (c.alloc.registered p.1 = true ∧ p.2 ∈ c.pending p.1) ∧
        p ∉ records.map (fun x => ((base, x) : Block))
    rw [hreg, hmem, and_assoc]
    refine and_congr_right fun _ => ?_
    by_cases hp : p.1 = base
    · simp only [hp, Function.update_self, hrecords, List.mem_filter, true_and]
      cases cut p.2 <;> simp
    · rw [Function.update_of_ne hp]
      simp [hp]

end Core

namespace Core
variable {bd : Build} {env : ℕ → Answers} {root base slot cls off x : ℕ} {c c' : Core} {q q' : List ℕ}
  {cut : ℕ × ℕ → Bool}

lemma decLive_synced (changed : List ℕ) (k : ℕ) (alloc : AllocCore) :
    (synced bd base changed alloc).decLiveAndMaybeDecommit base k =
      alloc.decLiveAndMaybeDecommit base k := by
  obtain ⟨hhomes, -, hcur⟩ := syncClasses_beside bd.toBuild base
    ((List.range bd.small.sizes.count).filter (· ∈ changed)) alloc
  simp only [decLiveAndMaybeDecommit, synced, hhomes, hcur]

lemma Wf.pending_filter (h : c.Wf bd root q) (hr : c.alloc.registered base = true)
    (cut : ℕ × ℕ → Bool) :
    Reclaimable (c.blocks base) ((c.pending base).filter cut) ∧
      ∀ r ∈ (c.pending base).filter cut,
        r.1 ∉ ((c.pending base).filter (!cut ·)).map Prod.fst := by
  obtain ⟨hnodup, hheld⟩ := h.pending base hr
  refine ⟨⟨(List.filter_sublist.map Prod.fst).nodup hnodup, fun r hr' =>
    hheld r (List.mem_of_mem_filter hr')⟩, fun r hr' hm => ?_⟩
  obtain ⟨hr', hcut⟩ := List.mem_filter.mp hr'
  obtain ⟨r', hr'', he⟩ := List.mem_map.mp hm
  obtain ⟨hr'', hcut'⟩ := List.mem_filter.mp hr''
  obtain rfl := List.inj_on_of_nodup_map hnodup hr'' hr' he
  simp [hcut] at hcut'

/-- A drain of a segment, which may leave the table with it. -/
lemma Wf.drainCut (h : c.Wf bd root q) (ht : c.Tidy q) (hr : c.alloc.registered base = true)
    (env : ℕ → Answers) (cut : ℕ × ℕ → Bool) :
    ∃ c' out q', c.drainCut bd env base cut = some (c', out) ∧ c'.Wf bd root q' ∧ c'.Tidy q' ∧
      Drained bd env c c' base cut ∧
      (out = .decommitted false ↔ c'.alloc.registered base = false) := by
  have hclock : ({ c with clock := c.clock + 1 } : Core).Wf bd root q := h.congr rfl rfl rfl rfl rfl
  obtain ⟨pending, es, hposts, hw, hrun, hforeign, hsub⟩ := hclock.posts (env c.clock).posts
  have hseeks : Seeks bd env c { c with clock := c.clock + 1, pending := pending } :=
    seeks_ask hrun hforeign hsub
  set c₂ : Core := { c with clock := c.clock + 1, pending := pending } with hc₂
  have ht₂ : c₂.Tidy q := ht
  have hr₂ : c₂.alloc.registered base = true := hr
  rw [Core.drainCut, ask]
  simp only [hposts]
  by_cases hnil : (pending base).filter cut = []
  · refine ⟨c₂, .skipped, q, ?_, hw, ht₂, ⟨hseeks, fun x _ => ⟨rfl, fun _ => rfl⟩,
      fun _ r hm => ?_⟩, by simp [hr₂]⟩
    · have hself : (pending base).filter (!cut ·) = pending base :=
        List.filter_eq_self.mpr fun r hm => by
          simpa using List.filter_eq_nil_iff.mp hnil r hm
      change (reclaimRecords bd.toBuild base ((pending base).filter cut) c.alloc).bind _ = _
      rw [hnil, reclaimRecords, Option.bind_some]
      refine (if_pos rfl).trans (congrArg (fun c => some (c, SidecarDrainOutcome.skipped)) ?_)
      have hpending : Function.update pending base ((pending base).filter (!cut ·)) = pending := by
        rw [hself, Function.update_eq_self]
      have hblocks : Function.update c.blocks base ((c.blocks base).putAll [] .free) = c.blocks := by
        rw [Blocks.putAll_nil, Function.update_eq_self]
      exact congrArg₂ (fun b p => ({ c₂ with blocks := b, pending := p } : Core)) hblocks hpending
    · simpa using List.filter_eq_nil_iff.mp hnil r hm
  obtain ⟨hrec, hout⟩ := hw.pending_filter hr₂ cut
  obtain ⟨r, hr'⟩ := List.exists_mem_of_ne_nil _ hnil
  have hq : base ∉ q := hw.notMem_of_live
    (hw.live_pos hr₂ (hrec.2 r hr').1 (by simp [(hrec.2 r hr').2]))
  set rest := Function.update pending base ((pending base).filter (!cut ·)) with hrest
  have hw' : ({ c₂ with pending := rest } : Core).Wf bd root q := by
    refine hw.withPending fun y hy => ?_
    by_cases hyb : y = base
    · subst hyb
      rw [hrest, Function.update_self]
      exact (hw.pending_filter hy (!cut ·)).1
    · rw [hrest, Function.update_of_ne hyb]
      exact hw.pending y hy
  have hout' : ∀ r ∈ (pending base).filter cut, r.1 ∉ (rest base).map Prod.fst := by
    rw [hrest, Function.update_self]
    exact hout
  obtain ⟨s, hs, hl, hw₃⟩ := hw'.reclaim hr₂ hq hrec hout'
  set sync := synced bd base (((pending base).filter cut).map Prod.snd) (c.alloc.setSeg base s)
    with hsync
  set c₃ : Core := ({ c₂ with pending := rest } : Core).touch sync base
    ((c.blocks base).putAll (((pending base).filter cut).map Prod.fst) .free) with hc₃
  have hledger : c₃.ledger = c₂.ledger.collectAll
      (((pending base).filter cut).map fun x => (base, x)) :=
    hw.ledger_reclaim hr₂ hl.about.registered cut
  have ht₃ : c₃.TidyBut q base := (hw'.tidyBut ht base).local hl
  have hr₃ : c₃.alloc.registered base = true := hl.about.registered ▸ hr
  obtain ⟨alloc, gone, q', he, hgone, hfin, hw', ht', hl'⟩ := hw₃.finishFree ht₃ hr₃ hq
  have hne : ((pending base).filter cut).map Prod.snd ≠ [] := by simpa using hnil
  have hfinish : (c.alloc.setSeg base s).finishSmallDrain bd.toBuild base
      (((pending base).filter cut).map Prod.snd) = some alloc := by
    rw [AllocCore.finishSmallDrain, if_neg hne]
    exact congrArg (Option.map Prod.fst) he
  have hemptied : (c.alloc.setSeg base s).decLiveAndMaybeDecommit base 1 = gone :=
    (decLive_synced ..).symm.trans hgone.symm
  have hcollect : Lending.Run (Clash bd) c₂.ledger
      ((((pending base).filter cut).map fun x => ((base, x) : Block)).map .collect)
      (c₃.withAlloc alloc).ledger := by
    rw [hl', hledger]
    refine .collectAll ?_ fun p hp => ?_
    · exact (List.Nodup.of_map _ hrec.1).map fun x y hxy => (Prod.mk.inj hxy).2
    · obtain ⟨x, hx, rfl⟩ := List.mem_map.mp hp
      exact ⟨hr₂, List.mem_of_mem_filter hx⟩
  refine ⟨c₃.withAlloc alloc, if gone = true then .decommitted (alloc.registered base) else .drained,
    q', ?_, hw', ht', ⟨⟨⟨es ++ _, ⟨hrun.append hcollect, Nat.le_succ _, ?_⟩, fun e hm => ?_⟩, rfl,
    rfl, hfin.current.trans hl.about.current, rfl, fun x hx => ?_,
    fun x hx => ?_, fun x => ?_⟩, fun x hx => ?_, fun _ r hm => ?_⟩, ?_⟩
  · change (reclaimRecords bd.toBuild base ((pending base).filter cut) c.alloc).bind _ = _
    rw [show reclaimRecords bd.toBuild base ((pending base).filter cut) c.alloc = _ from hs,
      Option.bind_some]
    refine (if_neg hne).trans ?_
    change ((c.alloc.setSeg base s).finishSmallDrain bd.toBuild base
      (((pending base).filter cut).map Prod.snd)).bind _ = _
    rw [hfinish, Option.bind_some]
    exact congrArg (fun e : Bool => some (c₃.withAlloc alloc,
      if e = true then SidecarDrainOutcome.decommitted (alloc.registered base) else .drained))
      hemptied
  · have hnone : ((((pending base).filter cut).map fun x => ((base, x) : Block)).map
        (Lending.Event.collect (S := BlockState))).filterMap Lending.Event.announced = [] := by
      refine List.filterMap_eq_nil_iff.mpr fun e he => ?_
      obtain ⟨p, -, rfl⟩ := List.mem_map.mp he
      rfl
    have hone : c.clock + 1 - c.clock = 1 := Nat.add_sub_cancel_left ..
    rw [List.filterMap_append, hnone, List.append_nil]
    change List.Sublist _ ((List.range' c.clock (c.clock + 1 - c.clock)).flatMap _)
    simpa only [hone, List.range'_one, List.flatMap_singleton] using hsub
  · obtain hm | hm := List.mem_append.mp hm
    · exact hforeign e hm
    · obtain ⟨p, -, rfl⟩ := List.mem_map.mp hm
      trivial
  · exact hl.about.registered ▸ (hfin.homes x hx).1
  · rw [show (c₃.withAlloc alloc).alloc.homes x = sync.homes x from (hfin.homes x hx).2]
    by_cases hxb : x = base
    · subst hxb
      exact hl.slot
    · exact congrArg Home.segmentId (hl.about.homes x hxb)
  · change (Function.update c.blocks base _ x).carved = (c.blocks x).carved
    by_cases hxb : x = base
    · subst hxb
      rw [Function.update_self]
      rfl
    · rw [Function.update_of_ne hxb]
  · have hreg : alloc.registered x = c.alloc.registered x :=
      (hfin.registered x hx).trans (congrFun hl.about.registered x)
    exact ⟨hreg, fun hxr => ((hfin.homes x (hreg.trans hxr)).2).trans (hl.about.homes x hx)⟩
  · change r ∈ rest base at hm
    rw [hrest, Function.update_self, List.mem_filter] at hm
    simpa using hm.2
  · change _ ↔ alloc.registered base = false
    cases gone with
    | true => simp
    | false =>
        rw [hfin.stays rfl]
        simp only [Bool.false_eq_true, if_false, reduceCtorEq, false_iff]
        exact Bool.eq_false_iff.not.mpr (not_not_intro hr₃)

end Core

end SmallCore

end SeferAlloc
