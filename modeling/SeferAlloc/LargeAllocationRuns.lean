import SeferAlloc.LargeAllocation

/-!
# Large allocations over whole runs

In a run whose segments come from the reservations of the OS, every heap reached
keeps the geometry of its segments. So every allocation is from the entry it has
to choose or from the OS, and gives back what it does not use.
-/
namespace SeferAlloc
namespace AlignedVmem.Target

lemma pageSize_isPowerOfTwo (t : Target) : t.pageSize.isPowerOfTwo := by
  have hpage : page.isPowerOfTwo := ⟨12, rfl⟩
  rw [pageSize, pageSizeOrPoison]
  split_ifs with hq
  · rw [validatePageSizeImpl] at hq
    split_ifs at hq with hv
    · exact hv.2
    · exact hq ▸ hpage
  · exact hpage

end AlignedVmem.Target

namespace LargeHeap
open LargeCache CacheLedger
open AlignedVmem (Target Os World Unix target64)
open LargeCache.Cache (Quiet)

namespace Heap
variable {h h' : Heap} {b : Build} {base idx size align usable off : ℕ} {x y : CachedLarge}
  {o : Answers} {t : Target}

/-! ## The beginning of the slow path -/

lemma Chooses.unique {j : ℕ} (hx : h.Chooses size align idx x) (hy : h.Chooses size align j y) :
    idx = j ∧ x = y := by
  obtain ⟨u, hu, -, hx⟩ := hx
  obtain ⟨v, hv, -, hy⟩ := hy
  obtain rfl := Option.some.inj (hu.symm.trans hv)
  exact hx.unique hy

/-- Without an entry to choose, the slow path begins where the search ended. -/
lemma begun_miss {c : Cache} (hq : Quiet h.cache c)
    (hno : ∀ idx x, ¬h.Chooses size align idx x) : Begun size align none h (h.setCache c) := by
  refine ⟨rfl, rfl, ?_, fun _ _ => rfl, nofun, fun i y hy => ?_, fun x => ?_,
    fun idx x hx => absurd hx (hno idx x), fun _ => ⟨hq.slotGet, hq.usedBytes⟩⟩
  · exact (List.append_nil h.log).symm
  · rwa [← hq.slotGet]
  · exact iff_of_false nofun fun ⟨idx, hx⟩ => hno idx x hx

lemma Withdrawn.slot_of (hw : Withdrawn idx x h h') {i : ℕ} (hy : h'.cache.slotGet i = some y) :
    i ≠ idx ∧ h.cache.slotGet i = some y := by
  rw [hw.slots, Function.update_apply] at hy
  split_ifs at hy with hi
  exact ⟨hi, hy⟩

/-- No other entry is of the segment that left the cache. -/
lemma Withdrawn.base_ne (hw : Withdrawn idx x h h') (hi : h.Inv none)
    (hx : h.cache.slotGet idx = some x) {i : ℕ} (hy : h'.cache.slotGet i = some y) :
    y.base ≠ x.base := by
  obtain ⟨hne, hy⟩ := hw.slot_of hy
  exact fun hbase => hne (hi.wf.once i idx y x hy hx hbase)

/-- A hit that was not served is behind the slow path. -/
lemma Discarded.begun (hd : Discarded idx x h h') (hi : h.Inv none)
    (hx : h.Chooses size align idx x) : Begun size align (some x) h h' := by
  have hslot : h.cache.slotGet idx = some x := hx.choose_spec.2.2.slot
  refine ⟨hd.build, hd.registered, hd.log, fun a ha => hd.others a (Ne.symm (ha x rfl)),
    fun x' hx' => ?_, fun i y hy => (hd.withdrawn.slot_of hy).2, fun x' => ?_, fun j y hy => ?_,
    fun hno => absurd hx (hno idx x)⟩
  · obtain rfl := Option.some.inj hx'
    refine ⟨⟨?_, fun i y hy => hd.withdrawn.base_ne hi hslot hy⟩, hd.phase⟩
    rw [hd.registered]
    exact (hi.not_inUse hslot).1
  · constructor
    · rintro ⟨⟩
      exact ⟨idx, hx⟩
    · rintro ⟨j, hy⟩
      rw [(hx.unique hy).2]
  · obtain ⟨rfl, rfl⟩ := hx.unique hy
    exact hd.withdrawn

/-! ## Geometry -/

lemma Discarded.geometry (hd : Discarded idx x h h') (hi : h.Inv none)
    (hx : h.cache.slotGet idx = some x) (hg : h.Geometry b none) : h'.Geometry b none := by
  refine ⟨hd.build.trans hg.build, fun a ha => ?_, fun i y hy => ?_⟩
  · rw [hd.registered] at ha
    have hne : a ≠ x.base := by
      rintro rfl
      rw [(hi.not_inUse hx).1] at ha
      simp at ha
    rw [hd.others a hne]
    exact hg.mapped a ha
  · rw [hd.others y.base (hd.withdrawn.base_ne hi hx hy)]
    exact hg.cached i y (hd.withdrawn.slot_of hy).2

lemma Reused.geometry (hr : Reused idx x size align off h h') (hi : h.Inv none)
    (hx : h.cache.slotGet idx = some x) (hg : h.Geometry b none) : h'.Geometry b none := by
  refine ⟨hr.build.trans hg.build, fun a ha => ?_, fun i y hy => ?_⟩
  · by_cases hne : a = x.base
    · subst hne
      obtain ⟨hm, -, hseg⟩ := hg.cached idx x hx
      refine Mapped.congr ?_ hr.header
      exact ⟨hm.below, hm.span, hm.inside, hm.short, fun _ => hseg⟩
    · rw [hr.others a hne]
      rw [hr.registered, Function.update_of_ne hne] at ha
      exact hg.mapped a ha
  · rw [hr.others y.base (hr.withdrawn.base_ne hi hx hy)]
    exact hg.cached i y (hr.withdrawn.slot_of hy).2

lemma TurnedDown.geometry (ht : TurnedDown base h h') (hg : h.Geometry b none) :
    h'.Geometry b none := by
  apply hg.shrink ht.build
  · intro a
    rw [ht.header]
    exact SameBody.refl _
  · intro a ha
    rwa [ht.registered] at ha
  · intro i y hy
    rwa [ht.cache] at hy

lemma Obtained.geometry {r : Reservation} (hob : Obtained r size align usable off h h')
    (hg : h.Geometry b none) (hres : Reserved b usable align off r) : h'.Geometry b none := by
  refine ⟨hob.build.trans hg.build, fun a ha => ?_, fun i y hy => ?_⟩
  · by_cases hne : a = r.base
    · subst hne
      rw [hob.header, hg.build]
      exact ⟨hres.below, le_reservedCapacityTarget b usable, hres.inside, hres.short, hres.base⟩
    · rw [hob.others a hne]
      rw [hob.registered, Function.update_of_ne hne] at ha
      exact hg.mapped a ha
  · rw [hob.cache] at hy
    rw [hob.others y.base (hob.free.cache i y hy)]
    exact hg.cached i y hy

/-- An answer of the OS that keeps what a reservation promises. -/
def Promised (b : Build) (o : Answers) (size align : ℕ) : Prop :=
  ∀ usable r, spanOf b size align = some usable → o.reserved = some r →
    Reserved b usable align (largePayloadOffset b align) r

/-! ## One allocation -/

/-- An allocation fails at once, is served from the cache, or goes the slow path. -/
lemma serve_ends (hi : h.Inv none) (hg : h.Geometry b none) (o : Answers) (size align : ℕ) :
    (spanOf h.build size align = none ∧ h.serve o size align = some (none, h)) ∨
    ∃ usable, spanOf b size align = some usable ∧
      ((∃ idx x h', align < segment ∧ h.cache.Selects usable idx x ∧
          Reused idx x size align (largePayloadOffset b align) h h' ∧
          h.serve o size align = some (some (x.base + largePayloadOffset b align, false), h')) ∨
        ∃ lost h₁, Begun size align lost h h₁ ∧ h₁.cache.Wf ∧ h₁.Geometry b none ∧
          h.serve o size align = some
            (h₁.allocLargeSlow o size align usable (largePayloadOffset b align))) := by
  have hsize : ∀ j y, h.cache.slotGet j = some y → y.usableSize < usizeMax := by
    intro j y hy
    obtain ⟨hm, hc, -⟩ := hg.cached j y hy
    rw [hc.usableSize]
    exact hm.span.trans_lt hm.short
  rw [serve, hg.build]
  cases hspan : spanOf b size align with
  | none => exact .inl ⟨rfl, rfl⟩
  | some usable =>
      refine .inr ⟨usable, rfl, ?_⟩
      dsimp only
      by_cases halign : align < segment
      · rw [if_pos halign]
        obtain ⟨hnone, hno⟩ | ⟨idx, x, hsome, hx⟩ := hi.wf.bestFit hsize usable
        · rw [hnone]
          have hq : Quiet h.cache (h.cache.noteMiss usable) := (hi.wf.adaptiveExt _).1
          refine .inr ⟨none, _, begun_miss hq ?_, hq.wf, ?_, rfl⟩
          · rintro j y ⟨v, hv, -, hy⟩
            rw [hg.build, hspan] at hv
            obtain rfl := Option.some.inj hv
            exact hno j y hy.slot hy.fits
          · apply hg.shrink
            · rfl
            · exact fun a => SameBody.refl _
            · exact fun a ha => ha
            · intro i y hy
              rwa [← hq.slotGet]
        · rw [hsome]
          obtain ⟨h', heq, hr⟩ | ⟨h₁, hd, heq⟩ :=
            serveHit_ends hi o size align usable (largePayloadOffset b align) hx.slot
          · exact .inl ⟨idx, x, h', halign, hx, hr, heq⟩
          · exact .inr ⟨some x, h₁, hd.begun hi ⟨usable, by rwa [hg.build], halign, hx⟩, hd.wf,
              hd.geometry hi hx.slot hg, heq⟩
      · rw [if_neg halign]
        refine .inr ⟨none, h, begun_miss hi.wf.quiet ?_, hi.wf, hg, rfl⟩
        rintro j y ⟨v, hv, hlt, hy⟩
        exact halign hlt

lemma serve_allocated (hi : h.Inv none) (hg : h.Geometry b none) (ha : align.isPowerOfTwo)
    (hp : b.pageSize.isPowerOfTwo) (ho : Promised b o size align) :
    ∃ r, h.serve o size align = some r ∧ Allocated size align h r ∧ r.2.Geometry b none := by
  obtain ⟨hspan, heq⟩ | ⟨usable, hspan, hend⟩ := serve_ends hi hg o size align
  · exact ⟨_, heq, allocated_overflow hspan, hg⟩
  · obtain ⟨idx, x, h', halign, hx, hr, heq⟩ | ⟨lost, h₁, hb, hw, hg₁, heq⟩ := hend
    · exact ⟨_, heq, hr.allocated hg hx ha hp halign hspan, hr.geometry hi hx.slot hg⟩
    · refine ⟨_, heq, hb.allocated hw hg.build ha hp hspan (ho usable · hspan), ?_⟩
      obtain heq | ⟨base, h', heq, ht⟩ | ⟨r, h', heq, hr, hob⟩ :=
        allocLargeSlow_ends hw o size align usable (largePayloadOffset b align)
      · rwa [heq]
      · rw [heq]
        exact ht.geometry hg₁
      · rw [heq]
        exact hob.geometry hg₁ (ho usable r hspan hr)

/-! ## Runs -/

/-- The reservation comes from an attempt of `alloc_large_slow` to reserve. -/
def Grants (os : Os t) (b : Build) (o : Answers) (size align : ℕ) : Prop :=
  ∀ usable r, spanOf b size align = some usable → o.reserved = some r →
    ∃ w w', reserveLarge os b usable align (largePayloadOffset b align) w = some (some r, w')

lemma Grants.promised {os : Os t} (hg : Grants os b o size align) (ht : t.bits = 64)
    (ha : align.isPowerOfTwo) : Promised b o size align := by
  intro usable r hspan hr
  obtain ⟨w, w', heq⟩ := hg usable r hspan hr
  exact reserveLarge_reserved ht ha heq

end Heap

/-- A well-formed layout, answered by the OS. -/
def Command.GrantedBy (os : Os t) (b : Build) : Command → Prop
  | .alloc size align o => align.isPowerOfTwo ∧ Heap.Grants os b o size align
  | _ => True

namespace Heap
variable {h h' : Heap} {b : Build} {t : Target}

lemma step_geometry {os : Os t} (ht : t.bits = 64) (hp : b.pageSize.isPowerOfTwo)
    (hi : h.Inv none) (hg : h.Geometry b none) {cmd : Command} (hcmd : cmd.GrantedBy os b)
    (hs : h.step cmd = some h') : h'.Geometry b none := by
  cases cmd with
  | alloc size align o =>
      obtain ⟨ha, hgrants⟩ := hcmd
      obtain ⟨h₁, hdecay, hk⟩ := maybeDecayLargeCache_spec hi o.now
      obtain ⟨r, hr, -, hg'⟩ := serve_allocated hk.inv (hk.geometry hg) ha hp
        (hgrants.promised ht ha)
      rw [step, allocLarge, hdecay, Option.bind_some, hr] at hs
      obtain rfl := Option.some.inj hs
      exact hg'
  | dealloc base now grants =>
      rw [step] at hs
      split_ifs at hs with hreg
      · exact deallocLargeAtBase_geometry hi hg hreg hs
      · exact Option.some.inj hs ▸ hg
  | reclaim base now grants =>
      rw [step] at hs
      split_ifs at hs with hreg
      · exact reclaimLargeSegment_geometry hi hg hreg hs
      · exact Option.some.inj hs ▸ hg
  | grow base ptr oldSize newSize commits =>
      rw [step] at hs
      split_ifs at hs with hreg
      · obtain rfl := Option.some.inj hs
        cases hgrow : h.reallocLargeInplace base ptr oldSize newSize commits with
        | none => exact hg
        | some h₁ => exact reallocLargeInplace_geometry hi hg hreg hgrow
      · exact Option.some.inj hs ▸ hg
  | evictAll =>
      obtain ⟨h₁, heq, hk⟩ := evictAll_spec hi
      obtain rfl := Option.some.inj (heq.symm.trans hs)
      exact hk.geometry hg

lemma run_geometry {os : Os t} (ht : t.bits = 64) (hp : b.pageSize.isPowerOfTwo)
    (cmds : List Command) (hcmds : ∀ cmd ∈ cmds, cmd.GrantedBy os b) (hi : h.Inv none)
    (hg : h.Geometry b none) (hr : h.run cmds = some h') : h'.Inv none ∧ h'.Geometry b none := by
  induction cmds generalizing h with
  | nil => exact Option.some.inj hr ▸ ⟨hi, hg⟩
  | cons cmd cmds ih =>
      obtain ⟨hcmd, hcmds⟩ := List.forall_mem_cons.mp hcmds
      obtain ⟨h₁, hs, hi₁, -⟩ := step_spec hi cmd
      rw [run, hs, Option.bind_some] at hr
      exact ih hcmds hi₁ (step_geometry ht hp hi hg hcmd hs) hr

end Heap

/-- In every run, an allocation returns null or a well-placed block. It takes the smallest cached
span that is big enough and not wasteful, the first of these, as it is, and whatever it took and
did not return it gave back once, out of every record. -/
theorem allocLarge_exact {os : Os t} (ht : t.bits = 64) {h₀ h : Heap} (hf : h₀.Fresh)
    (hpage : h₀.build.pageSize = t.pageSize) {cmds : List Command}
    (hcmds : ∀ cmd ∈ cmds, cmd.GrantedBy os h₀.build) (hr : h₀.run cmds = some h) {size align : ℕ}
    (ha : align.isPowerOfTwo) {o : Heap.Answers} (ho : Heap.Grants os h₀.build o size align) :
    ∃ h₁ r, h.maybeDecayLargeCache o.now = some h₁ ∧ h.allocLarge o size align = some r ∧
      Heap.Allocated size align h₁ r := by
  have hp : h₀.build.pageSize.isPowerOfTwo := hpage ▸ t.pageSize_isPowerOfTwo
  obtain ⟨hi, hg⟩ := Heap.run_geometry ht hp cmds hcmds hf.inv hf.geometry hr
  obtain ⟨h₁, hdecay, hk⟩ := Heap.maybeDecayLargeCache_spec hi o.now
  obtain ⟨r, hserve, hall, -⟩ := Heap.serve_allocated hk.inv (hk.geometry hg) ha hp
    (ho.promised ht ha)
  exact ⟨h₁, r, hdecay, by rw [Heap.allocLarge, hdecay, Option.bind_some, hserve], hall⟩

/-- Each request is granted 4 GiB further on. -/
def steadyUnix : Unix target64 where
  mmap n len _ := if n < 16 ∧ len ≤ 2 ^ 32 then (n + 1) * 2 ^ 32 else target64.usizeMax
  placed n len _ h := by
    by_cases hn : n < 16 ∧ len ≤ 2 ^ 32
    · simp only [if_pos hn] at h ⊢
      have hmax : target64.usizeMax = 2 ^ 64 - 1 := rfl
      refine ⟨Dvd.dvd.mul_left ⟨2 ^ 20, rfl⟩ _, ?_⟩
      omega
    · exact absurd (if_neg hn) h

/-- The segment of the first request to the OS. -/
def firstSegment : Heap.Reservation := ⟨2 ^ 32, 2 ^ 32, 3 * segment⟩

/-- Two segments are obtained for 5 MB and freed into the cache. -/
def wastefulRun : List Command :=
  [.alloc 5000000 16 ⟨0, true, some firstSegment, true⟩, .dealloc (2 ^ 32) 0 fun _ => false]

def cacheOnly : Heap.Answers := ⟨0, true, none, true⟩

lemma wastefulRun_granted :
    ∀ cmd ∈ wastefulRun, cmd.GrantedBy (.unix steadyUnix) twoSegmentHeap.build := by
  have hspan : Heap.spanOf twoSegmentHeap.build 5000000 16 = some (2 * segment) := by
    decide +kernel
  have hattempt : (reserveLarge (.unix steadyUnix) twoSegmentHeap.build (2 * segment) 16
      (Heap.largePayloadOffset twoSegmentHeap.build 16) AlignedVmem.start).map Prod.fst =
        some (some firstSegment) := rfl
  obtain ⟨⟨answer, w'⟩, heq, hanswer⟩ := Option.map_eq_some_iff.mp hattempt
  obtain rfl : answer = some firstSegment := hanswer
  rw [wastefulRun, List.forall_mem_cons, List.forall_mem_singleton]
  refine ⟨⟨⟨4, rfl⟩, fun usable r husable hr => ?_⟩, trivial⟩
  obtain rfl := Option.some.inj (hspan.symm.trans husable)
  obtain rfl := Option.some.inj hr
  exact ⟨_, w', heq⟩

lemma cacheOnly_grants (b : Build) (size align : ℕ) :
    Heap.Grants (.unix steadyUnix) b cacheOnly size align := fun _ _ _ hr => nomatch hr

theorem allocLarge_exact_hit : ∃ h h₁ r, twoSegmentHeap.run wastefulRun = some h ∧
    h.maybeDecayLargeCache cacheOnly.now = some h₁ ∧ h.allocLarge cacheOnly 1000000 16 = some r ∧
      Heap.Allocated 1000000 16 h₁ r := by
  obtain ⟨h, hr, -⟩ := Heap.run_inv wastefulRun twoSegmentHeap_fresh.inv
  exact ⟨h, (allocLarge_exact rfl twoSegmentHeap_fresh rfl wastefulRun_granted hr ⟨4, rfl⟩
    (cacheOnly_grants _ _ _)).imp fun h₁ ⟨r, hout⟩ => ⟨r, hr, hout⟩⟩

/-- A request of 1 MB is served by 8 MiB, more than twice what it needs, because its span is
rounded up to 4 MiB first. -/
theorem allocLarge_wasteful : ∃ h x r, twoSegmentHeap.run wastefulRun = some h ∧
    h.cache.slotGet 0 = some x ∧ h.allocLarge cacheOnly 1000000 16 = some r ∧
      r.1 = some (x.base + Heap.largePayloadOffset h.build 16, false) ∧
      largeCacheSizeFactor * (Heap.largePayloadOffset h.build 16 + 1000000) < x.usableSize := by
  have hslot : ((twoSegmentHeap.run wastefulRun).bind fun h => (h.cache.slotGet 0).map fun x =>
      (h.build.pageSize, h.build.headerSize, x.base, x.usableSize)) =
        some (4096, 256, 2 ^ 32, 2 * segment) := by
    decide +kernel
  have halloc : ((twoSegmentHeap.run wastefulRun).bind fun h =>
      (h.allocLarge cacheOnly 1000000 16).map Prod.fst) =
        some (some (2 ^ 32 + 4096, false)) := by
    decide +kernel
  obtain ⟨h, hr, -⟩ := Heap.run_inv wastefulRun twoSegmentHeap_fresh.inv
  rw [hr, Option.bind_some] at hslot halloc
  obtain ⟨x, hx, hfields⟩ := Option.map_eq_some_iff.mp hslot
  obtain ⟨r, hserve, hblock⟩ := Option.map_eq_some_iff.mp halloc
  simp only [Prod.mk.injEq] at hfields
  obtain ⟨hpage, hheader, hbase, hsize⟩ := hfields
  have hoff : Heap.largePayloadOffset h.build 16 = 4096 := by
    rw [Heap.largePayloadOffset, hheader, hpage]
    decide
  refine ⟨h, x, r, hr, hx, hserve, ?_, ?_⟩
  · rw [hblock, hbase, hoff]
  · rw [hoff, hsize]
    decide

end LargeHeap
end SeferAlloc
