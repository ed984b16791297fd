import SeferAlloc.ClassLeavesSlab

/-!
# Runs over class leaves

A batch prepares all its blocks before it commits the first, and resolves a leaf
once for neighbouring blocks. A commit and a later promotion do not meet in
memory, so the batch ends as the blocks one at a time do. Over any run, the code
of a granule is that of the last class issued there.
-/
namespace SeferAlloc
open BitWord

namespace ClassLeaves

/-- The code of a granule is written in its leaf. -/
def put (granule cls : ℕ) (s : ClassLeaves) : ClassLeaves :=
  s.store (s.mixed (leafIndex granule) + granule % leafGranules) (cls + 1)

variable {sc : SizeClasses} {sys : System} {s s' : ClassLeaves} {leaf granule cls offset k n : ℕ}

lemma Extends.trans {s₁ s₂ s₃ : ClassLeaves} (h : Extends s₁ s₂) (h' : Extends s₂ s₃) :
    Extends s₁ s₃ where
  pointers l hl := by
    have h₂ := h.pointers l hl
    rw [h'.pointers l (h₂ ▸ hl), h₂]
  codes g := (h'.codes g).trans (h.codes g)

lemma Slab.put (h : s.Slab sys) (granule cls : ℕ) : (s.put granule cls).Slab sys :=
  ⟨h.nodup, h.lt, h.promoted, h.filled, h.chunks, h.mixed, h.present⟩

lemma Slab.encoded_put (h : s.Slab sys) (hleaf : s.mixed (leafIndex granule) ≠ 0) (cls g : ℕ) :
    (s.put granule cls).encoded g = if g = granule then cls + 1 else s.encoded g := by
  change (if s.mixed (leafIndex g) = 0 then 0 else Function.update s.memory
    (s.mixed (leafIndex granule) + granule % leafGranules) (cls + 1)
      (s.mixed (leafIndex g) + g % leafGranules)) = _
  by_cases hg : g = granule
  · subst g
    rw [if_neg hleaf, if_pos rfl, Function.update_self]
  · rw [if_neg hg, encoded]
    split_ifs with h0
    · rfl
    · exact Function.update_of_ne (h.code_ne hg h0 hleaf) _ _

/-! ## Preparation -/

/-- A refused request is no grant. -/
lemma Slab.refused (h : s.Slab sys) (ha : sys.answer s.requests = none) :
    ({ s with requests := s.requests + 1 } : ClassLeaves).Slab sys := by
  have hsame : granted sys (s.requests + 1) = granted sys s.requests := by
    rw [granted_succ, ha]
    exact List.append_nil _
  exact ⟨h.nodup, h.lt, h.promoted, hsame ▸ h.filled, hsame ▸ h.chunks, h.mixed, h.present⟩

lemma leafIndex_lt (h : inRange sc granule cls = true) : leafIndex granule < leafCount := by
  obtain ⟨h, -⟩ := of_decide_eq_true h
  simp only [leafCount, leafGranules] at h
  simp only [leafIndex, leafCount, leafGranules]
  omega

/-- How a preparation ends: the leaf is there, or the request is not for a granule and a class, or
System refused the chunk of the next slot. -/
inductive Prepared (sc : SizeClasses) (sys : System) (granule cls : ℕ) (s : ClassLeaves) :
    ClassLeaves × Bool → Prop where
  | ready {s' : ClassLeaves} (range : inRange sc granule cls = true) (slab : s'.Slab sys)
      (extend : Extends s s') (leaf : s'.mixed (leafIndex granule) ≠ 0)
      (promotions : s'.promotions = s.promotions ∨
        s'.promotions = s.promotions ++ [leafIndex granule]) :
      Prepared sc sys granule cls s (s', true)
  | outside (range : inRange sc granule cls = false) : Prepared sc sys granule cls s (s, false)
  | refused (range : inRange sc granule cls = true) (leaf : s.mixed (leafIndex granule) = 0)
      (full : s.promoted % chunkLeaves = 0) (answer : sys.answer s.requests = none) :
      Prepared sc sys granule cls s ({ s with requests := s.requests + 1 }, false)

lemma Slab.prepare (h : s.Slab sys) (sc : SizeClasses) (granule cls : ℕ) :
    Prepared sc sys granule cls s (s.prepare sc sys granule cls) := by
  unfold ClassLeaves.prepare
  cases hr : inRange sc granule cls with
  | false => exact .outside hr
  | true =>
      rw [if_neg Bool.true_eq_false.mp, prepared, hr, Bool.true_and]
      by_cases h0 : s.mixed (leafIndex granule) = 0
      · rw [decide_eq_false (by simpa using h0), if_neg Bool.false_ne_true]
        obtain ⟨he, hfull, ha⟩ | ⟨s', he, hs', hext, hp⟩ := h.promote (leafIndex_lt hr) h0
        · rw [he]
          exact .refused hr h0 hfull ha
        · rw [he]
          refine .ready hr hs' hext ?_ (.inr hp)
          rw [Ne, hs'.mixed_eq_zero, hp]
          simp
      · rw [decide_eq_true h0, if_pos rfl]
        exact .ready hr h (.refl s) h0 (.inl rfl)

/-- `prepare_leaf` is `prepare` with a cursor to the leaf. -/
lemma Slab.prepareLeaf (h : s.Slab sys) (sc : SizeClasses) (granule cls : ℕ) :
    s.prepareLeaf sc sys granule cls = ((s.prepare sc sys granule cls).1,
      if (s.prepare sc sys granule cls).2 then
        some ⟨leafIndex granule, (s.prepare sc sys granule cls).1.mixed (leafIndex granule)⟩
      else none) := by
  have hspec := h.prepare sc granule cls
  have hsame : inRange sc granule cls = true →
      (if s.prepared sc granule cls then (s, true) else s.promote sys (leafIndex granule)) =
        s.prepare sc sys granule cls := by
    intro hr
    rw [ClassLeaves.prepare, hr, if_neg Bool.true_eq_false.mp]
  unfold ClassLeaves.prepareLeaf
  generalize he : s.prepare sc sys granule cls = r at hspec hsame ⊢
  cases hspec with
  | ready range _ _ leaf _ => simp [range, hsame range, leaf]
  | outside range => simp [range]
  | refused range _ _ _ => simp [range, hsame range]

/-! ## Codes and promotions -/

lemma requestChunk_store {a : ℕ} (ha : ∀ g, sys.answer s.requests = some g → ¬ g.Spans a)
    (v chunk : ℕ) :
    (s.store a v).requestChunk sys chunk =
      ((s.requestChunk sys chunk).1.store a v, (s.requestChunk sys chunk).2) := by
  unfold requestChunk
  have hrequests : (s.store a v).requests = s.requests := rfl
  rw [hrequests]
  cases hans : sys.answer s.requests with
  | none => rfl
  | some g =>
      refine congrArg (·, true) (ClassLeaves.ext rfl rfl rfl rfl ?_ rfl rfl)
      ext x
      change (if g.Spans x then g.bytes (x - g.base) else Function.update s.memory a v x) =
        Function.update (fun x => if g.Spans x then g.bytes (x - g.base) else s.memory x) a v x
      by_cases hx : x = a
      · subst x
        rw [if_neg (ha g hans), Function.update_self, Function.update_self]
      · rw [Function.update_of_ne hx, Function.update_of_ne hx]

lemma install_store {a fresh : ℕ} (ha : ¬ (fresh ≤ a ∧ a < fresh + leafGranules)) (v leaf : ℕ) :
    (s.store a v).install leaf fresh = (s.install leaf fresh).store a v := by
  refine ClassLeaves.ext rfl rfl rfl rfl ?_ rfl rfl
  ext x
  change (if fresh ≤ x ∧ x < fresh + leafGranules then 0 else Function.update s.memory a v x) =
    Function.update (fun x => if fresh ≤ x ∧ x < fresh + leafGranules then 0 else s.memory x) a v x
  by_cases hx : x = a
  · subst x
    rw [if_neg ha, Function.update_self, Function.update_self]
  · rw [Function.update_of_ne hx, Function.update_of_ne hx]

/-- A byte of a slot in use and a promotion do not meet. -/
lemma Slab.promote_store (h : s.Slab sys) (hk : k < s.promoted) {i : ℕ} (hi : i < leafGranules)
    (v leaf : ℕ) :
    (s.store (s.slotAt k + i) v).promote sys leaf =
      ((s.promote sys leaf).1.store (s.slotAt k + i) v, (s.promote sys leaf).2) := by
  have hspan : ∀ g, sys.answer s.requests = some g → ¬ g.Spans (s.slotAt k + i) := by
    intro g hans
    obtain ⟨g', hg', he⟩ := h.slot hk
    obtain ⟨m, hm, hans'⟩ := mem_granted (List.mem_of_getElem? hg')
    have hapart := sys.apart hm hans' hans
    rw [he]
    simp only [Grant.Spans, chunkBytes, chunkLeaves, leafGranules] at hapart hi ⊢
    omega
  have hrequest := requestChunk_store hspan v (s.promoted / chunkLeaves)
  obtain ⟨hr, hfull, hans⟩ | ⟨s₁, hr, hready⟩ := h.request
  · have hr' := hr
    rw [if_pos hfull] at hr'
    rw [hr'] at hrequest
    have hstore : (s.store (s.slotAt k + i) v).promoted = s.promoted := rfl
    rw [ClassLeaves.promote, nextLeafSlot, hstore, if_pos hfull, hrequest, ClassLeaves.promote,
      nextLeafSlot, hr]
    rfl
  · have hr' : (if s.promoted % chunkLeaves = 0 then
        (s.store (s.slotAt k + i) v).requestChunk sys (s.promoted / chunkLeaves)
          else (s.store (s.slotAt k + i) v, true)) = (s₁.store (s.slotAt k + i) v, true) := by
      split_ifs at hr ⊢
      · rw [hrequest, hr]
      · obtain rfl := congrArg Prod.fst hr
        rfl
    have hfresh := hready.fresh_ne_zero
    have hapart := hready.fresh_apart hk
    rw [promote_eq hr hready.promoted hfresh]
    refine (promote_eq (s := s.store (s.slotAt k + i) v) hr' hready.promoted hfresh leaf).trans ?_
    have hnot : ¬ (s₁.slotAt s.promoted ≤ s.slotAt k + i ∧
        s.slotAt k + i < s₁.slotAt s.promoted + leafGranules) := by omega
    exact congrArg (·, true) (install_store hnot v leaf)

lemma Slab.promote_put (h : s.Slab sys) (hleaf : s.mixed (leafIndex granule) ≠ 0)
    (hnew : s.mixed leaf = 0) (hlt : leaf < leafCount) (cls : ℕ) :
    (s.put granule cls).promote sys leaf =
      ((s.promote sys leaf).1.put granule cls, (s.promote sys leaf).2) := by
  obtain ⟨k, hk, -, hslot⟩ := h.mixed_of_mem (not_not.mp (mt h.mixed_eq_zero.mpr hleaf))
  have hsame : (s.promote sys leaf).1.mixed (leafIndex granule) = s.mixed (leafIndex granule) := by
    obtain ⟨he, -, -⟩ | ⟨s', he, -, hext, -⟩ := h.promote hlt hnew
    · rw [he]
    · rw [he]
      exact hext.pointers _ hleaf
  rw [ClassLeaves.put, hslot, h.promote_store hk (Nat.mod_lt _ (by decide)), ClassLeaves.put, hsame,
    hslot]

lemma Slab.prepare_put (h : s.Slab sys) (hleaf : s.mixed (leafIndex granule) ≠ 0)
    (cls g d : ℕ) :
    (s.put granule cls).prepare sc sys g d =
      ((s.prepare sc sys g d).1.put granule cls, (s.prepare sc sys g d).2) := by
  unfold ClassLeaves.prepare
  cases hr : inRange sc g d with
  | false => rfl
  | true =>
      rw [if_neg Bool.true_eq_false.mp, if_neg Bool.true_eq_false.mp]
      have hprepared : (s.put granule cls).prepared sc g d = s.prepared sc g d := rfl
      rw [hprepared]
      by_cases h0 : s.mixed (leafIndex g) = 0
      · have hnot : ¬ s.prepared sc g d = true := by simp [prepared, h0]
        rw [if_neg hnot, if_neg hnot]
        exact h.promote_put hleaf h0 (leafIndex_lt hr) cls
      · have hyes : s.prepared sc g d = true := by simp [prepared, h0, hr]
        rw [if_pos hyes, if_pos hyes]

/-! ## One block -/

lemma granuleOf_eq {g : ℕ} (h : granuleOf offset = some g) : offset / minBlock = g := by
  unfold granuleOf at h
  split_ifs at h
  exact Option.some.inj h

/-- A preparation of the sidecar is one of its leaves. -/
lemma sidecar_prepare {g : ℕ} (h : granuleOf offset = some g) (sc : SizeClasses) (sys : System)
    (cls : ℕ) (s : ClassLeaves) :
    SmallSidecar.prepare sc sys offset cls s = s.prepare sc sys g cls := by
  rw [SmallSidecar.prepare, h]

lemma issue_of_ready (hr : inRange sc granule cls = true) (hleaf : s.mixed (leafIndex granule) ≠ 0) :
    s.issue sc granule cls = (s.put granule cls, true) := by
  rw [issue, hr, if_neg Bool.true_eq_false.mp]
  exact if_neg hleaf

/-- A block is issued where its leaf is ready, and nothing else can happen after a preparation. -/
lemma Slab.issueBlock (h : s.Slab sys) (sc : SizeClasses) (cls offset : ℕ) :
    issueBlock sc sys cls offset s =
      if (SmallSidecar.prepare sc sys offset cls s).2 then
        ((SmallSidecar.prepare sc sys offset cls s).1.put (offset / minBlock) cls, .issued)
      else ((SmallSidecar.prepare sc sys offset cls s).1, .refused) := by
  unfold SeferAlloc.issueBlock
  cases hg : granuleOf offset with
  | none => simp [SmallSidecar.prepare, hg]
  | some g =>
      rw [sidecar_prepare hg, granuleOf_eq hg]
      have hspec := h.prepare sc g cls
      generalize s.prepare sc sys g cls = r at hspec ⊢
      cases hspec with
      | outside _ => rfl
      | refused _ _ _ _ => rfl
      | @ready s' hr _ _ hleaf _ =>
          have hcls : ¬ sc.count ≤ cls := not_le.mpr (of_decide_eq_true hr).2
          have hprepared : SmallSidecar.prepared sc offset cls s' = true := by
            simp [SmallSidecar.prepared, hg, prepared, hr, hleaf]
          simp [hprepared, SmallSidecar.issue, SmallSidecar.bitmapIssue, hg, hcls,
            issue_of_ready hr hleaf]

end ClassLeaves

/-! ## Batches -/

namespace RoutedIssueRun
open ClassLeaves

variable {sc : SizeClasses} {sys : System} {s s' : ClassLeaves} {run : RoutedIssueRun}
  {granule offset : ℕ} {offsets : List ℕ}

/-- The cursor points into a published leaf. -/
def Fits (sc : SizeClasses) (run : RoutedIssueRun) (s : ClassLeaves) : Prop :=
  ∀ c, run.cursor = some c → c.leaf = s.mixed c.leafIdx ∧ c.leaf ≠ 0 ∧ run.cls < sc.count

/-- The cursor is in the leaf of this granule. -/
lemma Fits.same (h : run.Fits sc s) (hsame : run.sameLeaf granule = true) :
    ∃ c, run.cursor = some c ∧ c.leafIdx = leafIndex granule ∧
      c.leaf = s.mixed (leafIndex granule) ∧ s.mixed (leafIndex granule) ≠ 0 := by
  cases hc : run.cursor with
  | none => simp [sameLeaf, hc] at hsame
  | some c =>
      have hidx : c.leafIdx = leafIndex granule := by simpa [sameLeaf, hc] using hsame
      obtain ⟨hleaf, hne, -⟩ := h c hc
      rw [hidx] at hleaf
      exact ⟨c, rfl, hidx, hleaf, hleaf ▸ hne⟩

lemma Fits.mono (h : run.Fits sc s) (hkeep : ∀ l, s.mixed l ≠ 0 → s'.mixed l = s.mixed l) :
    run.Fits sc s' := by
  intro c hc
  obtain ⟨hleaf, hne, hcls⟩ := h c hc
  exact ⟨hleaf.trans (hkeep _ (hleaf ▸ hne)).symm, hne, hcls⟩

lemma granuleOf_lt (h : granuleOf offset = some granule) : granule < leafCount * leafGranules := by
  unfold granuleOf at h
  split_ifs at h with hlt
  obtain rfl := Option.some.inj h
  have := hlt.1
  simp only [segment, minBlock, leafCount, leafGranules] at this ⊢
  omega

/-- A block of a batch is prepared as a block of its own is; the cursor saves only the look-up. -/
lemma Fits.prepareFor (h : run.Fits sc s) (hs : s.Slab sys) (offset : ℕ) :
    ∃ run', run.prepareFor sc sys offset s =
        (run', SmallSidecar.prepare sc sys offset run.cls s) ∧ run'.cls = run.cls ∧
      run'.Fits sc (SmallSidecar.prepare sc sys offset run.cls s).1 := by
  unfold RoutedIssueRun.prepareFor
  cases hg : granuleOf offset with
  | none => exact ⟨run, by rw [SmallSidecar.prepare, hg], rfl, by rwa [SmallSidecar.prepare, hg]⟩
  | some granule =>
      rw [sidecar_prepare hg]
      dsimp only
      by_cases hsame : run.sameLeaf granule = true
      · obtain ⟨c, hc, -, -, hleaf⟩ := h.same hsame
        have hr : inRange sc granule run.cls = true :=
          decide_eq_true ⟨granuleOf_lt hg, (h c hc).2.2⟩
        have hprepare : s.prepare sc sys granule run.cls = (s, true) := by
          simp [prepare, prepared, hr, hleaf]
        rw [if_pos hsame, hprepare]
        exact ⟨run, rfl, rfl, h⟩
      · rw [if_neg hsame, hs.prepareLeaf]
        have hspec := hs.prepare sc granule run.cls
        generalize s.prepare sc sys granule run.cls = r at hspec ⊢
        cases hspec with
        | outside _ => exact ⟨run, rfl, rfl, h⟩
        | refused _ _ _ _ => exact ⟨run, rfl, rfl, h.mono fun _ _ => rfl⟩
        | ready hr _ _ hleaf _ =>
            refine ⟨_, rfl, rfl, fun c hc => ?_⟩
            obtain rfl := Option.some.inj hc
            exact ⟨rfl, hleaf, (of_decide_eq_true hr).2⟩

/-- A prepared block is committed into its leaf. -/
lemma Fits.commit (h : run.Fits sc s) (hcls : run.cls < sc.count)
    (hg : granuleOf offset = some granule) (hleaf : s.mixed (leafIndex granule) ≠ 0) :
    ∃ run', run.commit offset s = some (run', s.put granule run.cls) ∧ run'.cls = run.cls ∧
      run'.Fits sc (s.put granule run.cls) := by
  unfold RoutedIssueRun.commit
  rw [granuleOf_eq hg]
  dsimp only
  by_cases hsame : run.sameLeaf granule = true
  · obtain ⟨c, hc, -, hcl, -⟩ := h.same hsame
    rw [if_pos hsame, hc]
    refine ⟨⟨run.cls, some c⟩, by rw [Option.map_some, issueIn, hcl]; rfl, rfl, fun c' hc' => ?_⟩
    exact h c' (hc.trans hc')
  · have hlt := granuleOf_lt hg
    rw [if_neg hsame, resolveLeaf, if_neg (not_le.mpr hlt)]
    dsimp only
    rw [if_neg hleaf]
    refine ⟨_, rfl, rfl, fun c hc => ?_⟩
    obtain rfl := Option.some.inj hc
    exact ⟨rfl, hleaf, hcls⟩

/-- The codes of a batch. -/
def putAll (cls : ℕ) (offsets : List ℕ) (s : ClassLeaves) : ClassLeaves :=
  offsets.foldl (fun s offset => s.put (offset / minBlock) cls) s

lemma putAll_mixed (cls : ℕ) (offsets : List ℕ) (s : ClassLeaves) :
    (putAll cls offsets s).mixed = s.mixed := by
  induction offsets generalizing s with
  | nil => rfl
  | cons o offsets ih => exact ih _

lemma slab_putAll (cls : ℕ) (offsets : List ℕ) (h : s.Slab sys) : (putAll cls offsets s).Slab sys := by
  induction offsets generalizing s with
  | nil => exact h
  | cons o offsets ih => exact ih (h.put _ _)

/-- The leaf of the block is published. -/
def Published (s : ClassLeaves) (offset : ℕ) : Prop :=
  ∃ granule, granuleOf offset = some granule ∧ s.mixed (leafIndex granule) ≠ 0

/-- What the preparations of a batch keep, and what they give when none is refused. -/
structure AllPrepared (sc : SizeClasses) (sys : System) (cls : ℕ) (offsets : List ℕ)
    (s s' : ClassLeaves) (ok : Bool) : Prop where
  slab : s'.Slab sys
  extend : Extends s s'
  promotions : s.promotions <+: s'.promotions
  published : ok = true → ∀ o ∈ offsets, Published s' o ∧ cls < sc.count

lemma Published.extend (hp : Published s offset) (h : Extends s s') : Published s' offset := by
  obtain ⟨g, hg, hne⟩ := hp
  exact ⟨g, hg, by rwa [h.pointers _ hne]⟩

/-- What one preparation keeps and gives. -/
lemma prepared_one (hs : s.Slab sys) (sc : SizeClasses) (cls offset : ℕ) :
    AllPrepared sc sys cls [offset] s (SmallSidecar.prepare sc sys offset cls s).1
      (SmallSidecar.prepare sc sys offset cls s).2 := by
  cases hg : granuleOf offset with
  | none =>
      rw [SmallSidecar.prepare, hg]
      exact ⟨hs, .refl s, List.prefix_rfl, by simp⟩
  | some g =>
      rw [sidecar_prepare hg]
      have hspec := hs.prepare sc g cls
      generalize s.prepare sc sys g cls = r at hspec ⊢
      cases hspec with
      | outside _ => exact ⟨hs, .refl s, List.prefix_rfl, by simp⟩
      | refused _ _ _ ha => exact ⟨hs.refused ha, ⟨fun _ _ => rfl, fun _ => rfl⟩, List.prefix_rfl,
          by simp⟩
      | ready hr slab extend hleaf hp =>
          refine ⟨slab, extend, ?_, fun _ o ho => ?_⟩
          · obtain hp | hp := hp
            · rw [hp]
            · rw [hp]
              exact List.prefix_append _ _
          · rw [List.mem_singleton.mp ho]
            exact ⟨⟨g, hg, hleaf⟩, (of_decide_eq_true hr).2⟩

lemma Fits.prepareAll (h : run.Fits sc s) (hs : s.Slab sys) (offsets : List ℕ) :
    ∃ run' s' ok, run.prepareAll sc sys offsets s = (run', s', ok) ∧ run'.cls = run.cls ∧
      run'.Fits sc s' ∧ AllPrepared sc sys run.cls offsets s s' ok := by
  induction offsets generalizing run s with
  | nil => exact ⟨run, s, true, rfl, rfl, h, hs, .refl s, List.prefix_rfl, by simp⟩
  | cons o offsets ih =>
      obtain ⟨run₁, he, hcls, hfit⟩ := h.prepareFor hs o
      have hone := prepared_one hs sc run.cls o
      rw [RoutedIssueRun.prepareAll, he]
      generalize SmallSidecar.prepare sc sys o run.cls s = r at hone hfit
      obtain ⟨s₁, ok⟩ := r
      cases ok with
      | false => exact ⟨run₁, s₁, false, rfl, hcls, hfit, hone.slab, hone.extend, hone.promotions,
          by simp⟩
      | true =>
          obtain ⟨run₂, s₂, ok, he₂, hcls₂, hfit₂, hall⟩ := ih hfit hone.slab
          refine ⟨run₂, s₂, ok, he₂, hcls₂.trans hcls, hfit₂, hall.slab,
            hone.extend.trans hall.extend, hone.promotions.trans hall.promotions,
            fun hok o' ho' => ?_⟩
          rw [hcls] at hall
          obtain rfl | ho' := List.mem_cons.mp ho'
          · obtain ⟨hp, hlt⟩ := hone.published rfl o' (List.mem_singleton_self _)
            exact ⟨hp.extend hall.extend, hlt⟩
          · exact hall.published hok o' ho'

/-- A code that is written before the preparations of other blocks may be written after them. -/
lemma Fits.prepareAll_put (h : run.Fits sc s) (hs : s.Slab sys) (offsets : List ℕ)
    (hleaf : s.mixed (leafIndex granule) ≠ 0) (cls : ℕ) :
    run.prepareAll sc sys offsets (s.put granule cls) =
      ((run.prepareAll sc sys offsets s).1,
        (run.prepareAll sc sys offsets s).2.1.put granule cls,
        (run.prepareAll sc sys offsets s).2.2) := by
  induction offsets generalizing run s with
  | nil => rfl
  | cons o offsets ih =>
      have hput : run.prepareFor sc sys o (s.put granule cls) =
          ((run.prepareFor sc sys o s).1, (run.prepareFor sc sys o s).2.1.put granule cls,
            (run.prepareFor sc sys o s).2.2) := by
        unfold RoutedIssueRun.prepareFor
        cases hg : granuleOf o with
        | none => rfl
        | some g =>
            dsimp only
            split_ifs
            · rfl
            · rw [(hs.put granule cls).prepareLeaf, hs.prepareLeaf, hs.prepare_put hleaf]
              cases (s.prepare sc sys g run.cls).2 <;> rfl
      obtain ⟨run₁, he, -, hfit⟩ := h.prepareFor hs o
      have hone := prepared_one hs sc run.cls o
      rw [RoutedIssueRun.prepareAll, RoutedIssueRun.prepareAll, hput, he]
      generalize SmallSidecar.prepare sc sys o run.cls s = r at hone hfit
      obtain ⟨s₁, ok⟩ := r
      cases ok with
      | false => rfl
      | true => exact ih hfit hone.slab (by rwa [hone.extend.pointers _ hleaf])

lemma Fits.commitAll (h : run.Fits sc s)
    (hall : ∀ o ∈ offsets, Published s o ∧ run.cls < sc.count) :
    run.commitAll offsets s = some (putAll run.cls offsets s) := by
  induction offsets generalizing run s with
  | nil => rfl
  | cons o offsets ih =>
      obtain ⟨⟨g, hg, hleaf⟩, hlt⟩ := hall o List.mem_cons_self
      obtain ⟨run₁, he, hcls, hfit⟩ := h.commit hlt hg hleaf
      rw [RoutedIssueRun.commitAll, he]
      dsimp only
      rw [ih hfit fun o' ho' => ?_, hcls, putAll, putAll, List.foldl_cons, granuleOf_eq hg]
      rw [hcls]
      exact hall o' (List.mem_cons_of_mem _ ho')

/-- The blocks one at a time end as the batch does. -/
lemma Fits.issueEach (h : run.Fits sc s) (hs : s.Slab sys) (offsets : List ℕ) :
    (issueEach sc sys run.cls offsets s).2 =
        (if (run.prepareAll sc sys offsets s).2.2 then .issued else .refused) ∧
      ((run.prepareAll sc sys offsets s).2.2 = true →
        (issueEach sc sys run.cls offsets s).1 =
          putAll run.cls offsets (run.prepareAll sc sys offsets s).2.1) := by
  induction offsets generalizing run s with
  | nil => exact ⟨rfl, fun _ => rfl⟩
  | cons o offsets ih =>
      obtain ⟨run₁, he, hcls, hfit⟩ := h.prepareFor hs o
      have hone := prepared_one hs sc run.cls o
      rw [RoutedIssueRun.prepareAll, he, SeferAlloc.issueEach, hs.issueBlock]
      generalize SmallSidecar.prepare sc sys o run.cls s = r at hone hfit ⊢
      obtain ⟨s₁, ok⟩ := r
      cases ok with
      | false => exact ⟨rfl, by simp⟩
      | true =>
          obtain ⟨⟨g, hg, hleaf⟩, -⟩ := hone.published rfl o (List.mem_singleton_self _)
          have hfit' : run₁.Fits sc (s₁.put g run.cls) := hfit
          have hput := hfit.prepareAll_put hone.slab offsets hleaf run.cls
          have hih := ih hfit' (hone.slab.put g run.cls)
          rw [hput, hcls] at hih
          simp only [if_true, granuleOf_eq hg]
          refine ⟨hih.1, fun hok => (hih.2 hok).trans ?_⟩
          rw [putAll, putAll, List.foldl_cons, granuleOf_eq hg]

end RoutedIssueRun

/-! ## Runs -/

namespace ClassLeaves
open RoutedIssueRun

variable {sc : SizeClasses} {sys : System} {s s' : ClassLeaves} {offsets : List ℕ}
  {granule cls offset : ℕ}

/-- A batch and its blocks one at a time: never fatal, and the same state when all are issued. -/
lemma Slab.issueRun (h : s.Slab sys) (sc : SizeClasses) (cls : ℕ) (offsets : List ℕ) :
    ∃ s₁ ok, issueRun sc sys cls offsets s =
        (if ok then (putAll cls offsets s₁, .issued) else (s₁, .refused)) ∧
      (issueEach sc sys cls offsets s).2 = (if ok then .issued else .refused) ∧
      (ok = true → (issueEach sc sys cls offsets s).1 = putAll cls offsets s₁) ∧
      AllPrepared sc sys cls offsets s s₁ ok := by
  have hfit : (⟨cls, none⟩ : RoutedIssueRun).Fits sc s := fun _ hc => by contradiction
  obtain ⟨heach, hstate⟩ := hfit.issueEach h offsets
  obtain ⟨run', s₁, ok, he, hcls, hfit', hall⟩ := hfit.prepareAll h offsets
  rw [he] at heach hstate
  refine ⟨s₁, ok, ?_, heach, hstate, hall⟩
  unfold SeferAlloc.issueRun
  rw [he]
  cases ok with
  | false => rfl
  | true =>
      have hcommit := hfit'.commitAll fun o ho => hcls ▸ hall.published rfl o ho
      dsimp only
      rw [hcommit, hcls]
      rfl

/-- What the owner does with the leaves of a route. -/
inductive Op where
  | prepare (offset cls : ℕ)
  | issue (offset cls : ℕ)
  | batch (cls : ℕ) (offsets : List ℕ)

/-- An operation, and whether it was done. -/
def step (sc : SizeClasses) (sys : System) (s : ClassLeaves) : Op → ClassLeaves × Bool
  | .prepare offset cls => SmallSidecar.prepare sc sys offset cls s
  | .issue offset cls => SmallSidecar.issue sc sys offset cls s
  | .batch cls offsets =>
      ((SeferAlloc.issueRun sc sys cls offsets s).1,
        decide ((SeferAlloc.issueRun sc sys cls offsets s).2 = .issued))

/-- The granules and classes that an operation issues when it is done. -/
def Op.issues : Op → List (ℕ × ℕ)
  | .prepare _ _ => []
  | .issue offset cls => [(offset / minBlock, cls)]
  | .batch cls offsets => offsets.map fun offset => (offset / minBlock, cls)

/-- The leaves after a run, and what was issued, in order. -/
def run (sc : SizeClasses) (sys : System) (memory : ℕ → ℕ) (ops : List Op) :
    ClassLeaves × List (ℕ × ℕ) :=
  ops.foldl (fun r op =>
    let (s, done) := r.1.step sc sys op
    (s, r.2 ++ if done then op.issues else [])) (init memory, [])

/-- The last class issued at the granule, plus one; 0 if there is none. -/
def codeAfter (history : List (ℕ × ℕ)) (granule : ℕ) : ℕ :=
  match history.reverse.find? fun p => p.1 == granule with
  | none => 0
  | some p => p.2 + 1

lemma codeAfter_append (history : List (ℕ × ℕ)) (p : ℕ × ℕ) (g : ℕ) :
    codeAfter (history ++ [p]) g = if g = p.1 then p.2 + 1 else codeAfter history g := by
  rw [codeAfter, List.reverse_append, List.reverse_singleton, List.singleton_append,
    List.find?_cons]
  by_cases h : g = p.1
  · simp [h]
  · have hne : (p.1 == g) = false := by simpa using fun he => h he.symm
    rw [hne, if_neg h, codeAfter]

/-- The codes are those of the history. -/
def Coded (s : ClassLeaves) (history : List (ℕ × ℕ)) : Prop :=
  ∀ g, s.encoded g = codeAfter history g

lemma Coded.extend {history : List (ℕ × ℕ)} (h : s.Coded history) (he : Extends s s') :
    s'.Coded history :=
  fun g => (he.codes g).trans (h g)

lemma Coded.put {history : List (ℕ × ℕ)} (h : s.Coded history) (hs : s.Slab sys)
    (hleaf : s.mixed (leafIndex granule) ≠ 0) (cls : ℕ) :
    (s.put granule cls).Coded (history ++ [(granule, cls)]) := by
  intro g
  rw [hs.encoded_put hleaf, codeAfter_append, h g]

lemma Coded.putAll {history : List (ℕ × ℕ)} (h : s.Coded history) (hs : s.Slab sys)
    (hall : ∀ o ∈ offsets, Published s o) :
    (putAll cls offsets s).Coded (history ++ offsets.map fun o => (o / minBlock, cls)) := by
  induction offsets generalizing s history with
  | nil => simpa [RoutedIssueRun.putAll] using h
  | cons o offsets ih =>
      obtain ⟨g, hg, hleaf⟩ := hall o List.mem_cons_self
      have hput := h.put hs hleaf cls
      have hih := ih hput (hs.put g cls) fun o' ho' => hall o' (List.mem_cons_of_mem _ ho')
      rw [List.append_assoc, List.singleton_append] at hih
      rwa [List.map_cons, granuleOf_eq hg, RoutedIssueRun.putAll, List.foldl_cons, granuleOf_eq hg]

/-- What an operation does to the slab and the codes. -/
structure Stepped (sys : System) (s s' : ClassLeaves) : Prop where
  slab : s'.Slab sys
  pointers : ∀ l, s.mixed l ≠ 0 → s'.mixed l = s.mixed l
  promotions : s.promotions <+: s'.promotions

/-- An issue of the sidecar prepares the leaf where the block has none. -/
lemma Slab.issue (h : s.Slab sys) (sc : SizeClasses) (offset cls : ℕ) :
    ∃ s₁ ok, AllPrepared sc sys cls [offset] s s₁ ok ∧
      SmallSidecar.issue sc sys offset cls s =
        if ok then (s₁.put (offset / minBlock) cls, true) else (s₁, false) := by
  have hone := prepared_one h sc cls offset
  cases hg : granuleOf offset with
  | none =>
      refine ⟨s, false, ⟨h, .refl s, List.prefix_rfl, by simp⟩, ?_⟩
      simp [SmallSidecar.issue, SmallSidecar.prepared, SmallSidecar.prepare, hg]
  | some g =>
      have hsame : (if SmallSidecar.prepared sc offset cls s then (s, true)
          else SmallSidecar.prepare sc sys offset cls s) =
            SmallSidecar.prepare sc sys offset cls s := by
        split_ifs with hp
        · rw [sidecar_prepare hg]
          simp only [SmallSidecar.prepared, hg] at hp
          have hr : inRange sc g cls = true := by
            simp only [prepared, Bool.and_eq_true] at hp
            exact hp.1
          rw [ClassLeaves.prepare, hr, if_neg Bool.true_eq_false.mp, if_pos hp]
        · rfl
      rw [SmallSidecar.issue, hsame, granuleOf_eq hg]
      generalize SmallSidecar.prepare sc sys offset cls s = r at hone
      obtain ⟨t, ok⟩ := r
      refine ⟨t, ok, hone, ?_⟩
      cases ok with
      | false => rfl
      | true =>
          obtain ⟨⟨g', hg', hleaf⟩, hlt⟩ := hone.published rfl offset (List.mem_singleton_self _)
          rw [hg] at hg'
          obtain rfl := Option.some.inj hg'
          dsimp only
          rw [SmallSidecar.bitmapIssue, hg]
          dsimp only
          rw [if_neg (not_le.mpr hlt)]
          exact issue_of_ready (decide_eq_true ⟨granuleOf_lt hg, hlt⟩) hleaf

lemma Slab.step (h : s.Slab sys) (sc : SizeClasses) (op : Op) :
    Stepped sys s (s.step sc sys op).1 ∧
      ((s.step sc sys op).2 = false → ∀ g, (s.step sc sys op).1.encoded g = s.encoded g) ∧
      ∀ history, s.Coded history → (s.step sc sys op).1.Coded
        (history ++ if (s.step sc sys op).2 then op.issues else []) := by
  cases op with
  | prepare offset cls =>
      have hone := prepared_one h sc cls offset
      refine ⟨⟨hone.slab, hone.extend.pointers, hone.promotions⟩, fun _ => hone.extend.codes,
        fun history hc => ?_⟩
      change (SmallSidecar.prepare sc sys offset cls s).1.Coded (history ++ if _ then [] else [])
      rw [ite_self, List.append_nil]
      exact hc.extend hone.extend
  | issue offset cls =>
      obtain ⟨s₁, ok, hone, he⟩ := h.issue sc offset cls
      simp only [ClassLeaves.step, he]
      cases ok with
      | false =>
          refine ⟨⟨hone.slab, hone.extend.pointers, hone.promotions⟩, fun _ => hone.extend.codes,
            fun history hc => ?_⟩
          simpa using hc.extend hone.extend
      | true =>
          obtain ⟨⟨g, hg, hleaf⟩, -⟩ := hone.published rfl offset (List.mem_singleton_self _)
          rw [← granuleOf_eq hg] at hleaf
          refine ⟨⟨hone.slab.put _ _, hone.extend.pointers, hone.promotions⟩, by simp,
            fun history hc => ?_⟩
          exact (hc.extend hone.extend).put hone.slab hleaf cls
  | batch cls offsets =>
      obtain ⟨s₁, ok, he, -, -, hall⟩ := h.issueRun sc cls offsets
      simp only [ClassLeaves.step, he]
      cases ok with
      | false =>
          refine ⟨⟨hall.slab, hall.extend.pointers, hall.promotions⟩, fun _ => hall.extend.codes,
            fun history hc => ?_⟩
          simpa using hc.extend hall.extend
      | true =>
          have hmixed := putAll_mixed cls offsets s₁
          refine ⟨⟨slab_putAll cls offsets hall.slab, fun l hl => ?_, ?_⟩, by simp,
            fun history hc => ?_⟩
          · exact (congrFun hmixed l).trans (hall.extend.pointers l hl)
          · have hp : (putAll cls offsets s₁).promotions = s₁.promotions := by
              clear he hall hmixed
              induction offsets generalizing s₁ with
              | nil => rfl
              | cons o offsets ih => exact ih _
            exact hp ▸ hall.promotions
          · exact (hc.extend hall.extend).putAll hall.slab fun o ho => (hall.published rfl o ho).1

lemma run_spec (sc : SizeClasses) (sys : System) (memory : ℕ → ℕ) (ops : List Op) :
    (run sc sys memory ops).1.Slab sys ∧
      (run sc sys memory ops).1.Coded (run sc sys memory ops).2 := by
  have hfold : ∀ (ops : List Op) (r : ClassLeaves × List (ℕ × ℕ)), r.1.Slab sys →
      r.1.Coded r.2 →
        let r' := ops.foldl (fun r op =>
          let (s, done) := r.1.step sc sys op
          (s, r.2 ++ if done then op.issues else [])) r
        r'.1.Slab sys ∧ r'.1.Coded r'.2 := by
    intro ops
    induction ops with
    | nil => exact fun _ hs hc => ⟨hs, hc⟩
    | cons op ops ih =>
        intro r hs hc
        obtain ⟨hstep, -, hcoded⟩ := hs.step sc op
        exact ih _ hstep.slab (hcoded r.2 hc)
  exact hfold ops (init memory, []) (slab_init sys memory) fun _ => rfl

/-! ## What the leaves promise -/

/-- The slab: a leaf is promoted at most once, and owns its slot alone. -/
structure OwnSlots (sys : System) (s : ClassLeaves) : Prop where
  once : s.promotions.Nodup
  promotions : s.promotions.length = s.promoted ∧ s.promoted ≤ leafCount
  requests : (granted sys s.requests).length ≤ chunkCount
  published : ∀ l, s.mixed l ≠ 0 ↔ l ∈ s.promotions
  present : ∀ l, member s.present l = true ↔ s.mixed l ≠ 0
  inside : ∀ l, s.mixed l ≠ 0 → ∃ g ∈ granted sys s.requests,
    g.base ≤ s.mixed l ∧ s.mixed l + leafGranules ≤ g.base + chunkBytes
  apart : ∀ l m, l ≠ m → s.mixed l ≠ 0 → s.mixed m ≠ 0 →
    s.mixed l + leafGranules ≤ s.mixed m ∨ s.mixed m + leafGranules ≤ s.mixed l

/-- A preparation that System refuses changes nothing but the place in its answers, and takes the
slot it was to take when System grants the chunk. -/
def Retries (sc : SizeClasses) (sys : System) (s : ClassLeaves) : Prop :=
  ∀ offset cls granule s', granuleOf offset = some granule → cls < sc.count →
    SmallSidecar.prepare sc sys offset cls s = (s', false) →
      s' = { s with requests := s.requests + 1 } ∧
        ∀ r g, sys.answer r = some g →
          ∃ t, SmallSidecar.prepare sc sys offset cls { s with requests := r } = (t, true) ∧
            t.promotions = s.promotions ++ [leafIndex granule] ∧
            t.mixed (leafIndex granule) = t.slotAt s.promoted ∧
            t.chunks (s.promoted / chunkLeaves) = g.base

lemma Slab.ownSlots (h : s.Slab sys) : OwnSlots sys s where
  once := h.nodup
  promotions := ⟨h.promoted.symm, h.promoted_le⟩
  requests := by
    have := h.promoted_le
    rw [h.filled]
    simp only [chunkLeaves, chunkCount, leafCount] at this ⊢
    omega
  published l := by
    rw [Ne, h.mixed_eq_zero, not_not]
  present l := by
    rw [h.present, Ne, h.mixed_eq_zero, not_not, decide_eq_true_eq]
  inside l hl := by
    obtain ⟨k, hk, -, hslot⟩ := h.mixed_of_mem (not_not.mp (mt h.mixed_eq_zero.mpr hl))
    obtain ⟨g, hg, he⟩ := h.slot hk
    refine ⟨g, List.mem_of_getElem? hg, ?_⟩
    rw [hslot, he]
    simp only [chunkBytes, chunkLeaves, leafGranules]
    omega
  apart l m hlm hl hm := by
    have hml := not_not.mp (mt h.mixed_eq_zero.mpr hl)
    obtain ⟨k, hk, hkl, hsk⟩ := h.mixed_of_mem hml
    obtain ⟨j, hj, hjm, hsj⟩ := h.mixed_of_mem (not_not.mp (mt h.mixed_eq_zero.mpr hm))
    have hkj : k ≠ j := by
      rintro rfl
      exact hlm ((List.idxOf_inj hml).mp (hkl.trans hjm.symm))
    rw [hsk, hsj]
    exact h.slots_apart hkj hk hj

lemma Slab.retries (h : s.Slab sys) (sc : SizeClasses) : Retries sc sys s := by
  intro offset cls granule s' hg hcls he
  have hr : inRange sc granule cls = true := decide_eq_true ⟨granuleOf_lt hg, hcls⟩
  rw [sidecar_prepare hg] at he
  have hspec := h.prepare sc granule cls
  rw [he] at hspec
  cases hspec with
  | outside range =>
      rw [hr] at range
      contradiction
  | refused range hleaf hfull _ =>
      refine ⟨rfl, fun r g ha => ?_⟩
      have hmem := h.mixed_eq_zero.mp hleaf
      have hrequest : ({ s with requests := r } : ClassLeaves).requestChunk sys
          (s.promoted / chunkLeaves) =
            ({ s with
              requests := r + 1
              memory := fun a => if g.Spans a then g.bytes (a - g.base) else s.memory a
              chunks := Function.update s.chunks (s.promoted / chunkLeaves) g.base }, true) := by
        simp only [requestChunk, ha]
      set s₁ : ClassLeaves := { s with
        requests := r + 1
        memory := fun a => if g.Spans a then g.bytes (a - g.base) else s.memory a
        chunks := Function.update s.chunks (s.promoted / chunkLeaves) g.base }
      have hchunk : s₁.chunks (s.promoted / chunkLeaves) = g.base := Function.update_self _ _ _
      have hfresh : s₁.slotAt s.promoted ≠ 0 := by
        have := sys.ne_null ha
        rw [slotAt, hchunk]
        omega
      have hpromote := promote_eq (s := { s with requests := r })
        ((if_pos hfull).trans hrequest) rfl hfresh (leafIndex granule)
      refine ⟨s₁.install (leafIndex granule) (s₁.slotAt s.promoted), ?_, rfl,
        Function.update_self _ _ _, hchunk⟩
      rw [sidecar_prepare hg, ClassLeaves.prepare, hr, if_neg Bool.true_eq_false.mp]
      have hprepared : ¬ prepared sc granule cls { s with requests := r } = true := by
        simp [prepared, hleaf]
      rw [if_neg hprepared]
      exact hpromote

/-- Over every run, whatever System refuses: the slots are disjoint, the codes are those of the
last issues, a refused operation changes no code, and a batch ends as its blocks one at a time. -/
theorem leaves_exact (sc : SizeClasses) (sys : System) (memory : ℕ → ℕ) (ops : List Op) :
    let s := (run sc sys memory ops).1
    let history := (run sc sys memory ops).2
    OwnSlots sys s ∧
      (∀ granule < leafCount * leafGranules, s.encoded granule = codeAfter history granule) ∧
      (∀ op, let r := s.step sc sys op
        (∀ l, s.mixed l ≠ 0 → r.1.mixed l = s.mixed l) ∧ s.promotions <+: r.1.promotions ∧
          (r.2 = false → ∀ granule, r.1.encoded granule = s.encoded granule)) ∧
      (∀ cls offsets, (issueRun sc sys cls offsets s).2 ≠ .fatal ∧
        ((issueRun sc sys cls offsets s).2 = (issueEach sc sys cls offsets s).2) ∧
        ((issueRun sc sys cls offsets s).2 = .issued →
          (issueRun sc sys cls offsets s).1 = (issueEach sc sys cls offsets s).1)) ∧
      Retries sc sys s := by
  intro s history
  obtain ⟨hslab, hcoded⟩ := run_spec sc sys memory ops
  refine ⟨hslab.ownSlots, fun g _ => hcoded g, fun op => ?_, fun cls offsets => ?_,
    hslab.retries sc⟩
  · obtain ⟨hstep, hcodes, -⟩ := hslab.step sc op
    exact ⟨hstep.pointers, hstep.promotions, hcodes⟩
  · obtain ⟨s₁, ok, hrun, heach, hstate, -⟩ := hslab.issueRun sc cls offsets
    rw [hrun, heach]
    cases ok with
    | false => exact ⟨by simp, rfl, by simp⟩
    | true => exact ⟨by simp, rfl, fun _ => (hstate rfl).symm⟩

/-- System refuses the first request and then grants one chunk behind the other. -/
def lateSystem : System where
  answer i := if i = 0 then none else packedAnswer i
  ne_null {i g} h := by
    split_ifs at h
    exact packedAnswer_ne_null h
  apart {i j g h} hij hg hh := by
    split_ifs at hg hh
    exact packedAnswer_apart hij hg hh

/-- A block that is refused its leaf and issued again, and a batch in the next leaf. -/
def lateOps : List Op := [.issue 0 3, .issue 0 3, .batch 5 [4096, 4112]]

lemma lateOps_result : ((run (.build .none) lateSystem (fun _ => 0) lateOps).2,
    (run (.build .none) lateSystem (fun _ => 0) lateOps).1.promotions,
    (run (.build .none) lateSystem (fun _ => 0) lateOps).1.requests) =
    ([(0, 3), (256, 5), (257, 5)], [0, 1], 2) := by
  decide +kernel

/-- The code of the last block of the batch, in the second slot of the one chunk. -/
theorem leaves_exact_lateOps :
    let s := (run (.build .none) lateSystem (fun _ => 0) lateOps).1
    OwnSlots lateSystem s ∧ s.promotions = [0, 1] ∧ s.requests = 2 ∧ s.encoded 257 = 6 ∧
      Retries (.build .none) lateSystem s := by
  intro s
  obtain ⟨hslots, hcodes, -, -, hretries⟩ :=
    leaves_exact (.build .none) lateSystem (fun _ => 0) lateOps
  have hresult := lateOps_result
  simp only [Prod.mk.injEq] at hresult
  obtain ⟨hhistory, hpromotions, hrequests⟩ := hresult
  refine ⟨hslots, hpromotions, hrequests, ?_, hretries⟩
  rw [hcodes 257 (by decide), hhistory]
  decide

end ClassLeaves

end SeferAlloc
