import SeferAlloc.MaintenanceDrain

/-!
# What a drain takes

A word of a sidecar holds frees of live blocks. Consuming it clears the word and
puts exactly these blocks on their lists.
-/
namespace SeferAlloc
namespace MaintenanceDrain
open SeferAlloc.Small BitWord

variable {bd : Build}

/-! ## Words -/

/-- The block of a granule is live, and the sidecar knows its class. -/
def Held (bm : Sidecar.Bitmap) (b : Blocks) (g : ℕ) : Prop :=
  ∃ cls, bm.encoded g = cls + 1 ∧ (g * minBlock, cls) ∈ b.carved ∧
    b.place (g * minBlock) = .live

def recordAt (bm : Sidecar.Bitmap) (g : ℕ) : Sidecar.Record := ⟨g * minBlock, bm.encoded g - 1⟩

/-- The records of a word, in the order they are popped. -/
def wordRecords (bm : Sidecar.Bitmap) (w : ℕ) : List Sidecar.Record :=
  (bits (bm.pending w)).map fun i => recordAt bm (w * 64 + i)

lemma Held.put {bm : Sidecar.Bitmap} {b : Blocks} {g g' : ℕ} (h : Held bm b g) (hne : g ≠ g')
    (st : BlockState) : Held bm (b.put (g' * minBlock) st) g := by
  obtain ⟨cls, henc, hin, hlive⟩ := h
  refine ⟨cls, henc, hin, ?_⟩
  have hoff : g * minBlock ≠ g' * minBlock := by
    simp only [minBlock]
    omega
  simpa [Blocks.put, hoff] using hlive

lemma consumeCut_spec {bm : Sidecar.Bitmap} {w : ℕ} (n : ℕ) :
    ∀ (cut : Word) {s : Segment} {b : Blocks}, Represents bd s b →
      (∀ i, cut.getLsbD i = true → 64 ≤ i + n) →
      (∀ i, cut.getLsbD i = true → Held bm b (w * 64 + i)) →
      ∃ s', consumeCut bd bm n ⟨w, cut⟩ s =
          some (s', (bitsFrom n cut).map fun i => recordAt bm (w * 64 + i)) ∧
        s.Framed s' ∧
        Represents bd s' (b.putAll ((bitsFrom n cut).map fun i => (w * 64 + i) * minBlock)
          .free) := by
  induction n with
  | zero =>
      intro cut s b h hn _
      have hzero : cut = 0 := by
        rw [eq_zero_iff]
        intro i hi
        by_contra hbit
        have := hn i (by simpa using hbit)
        omega
      refine ⟨s, ?_, ⟨rfl, rfl⟩, ?_⟩
      · rw [consumeCut, Sidecar.Cut.pop, if_pos hzero]
        rfl
      · rw [bitsFrom, List.map_nil, Blocks.putAll_nil]
        exact h
  | succ n ih =>
      intro cut s b h hn hheld
      by_cases hzero : cut = 0
      · refine ⟨s, ?_, ⟨rfl, rfl⟩, ?_⟩
        · rw [consumeCut, Sidecar.Cut.pop, if_pos hzero, bitsFrom, if_pos hzero]
          rfl
        · rw [bitsFrom, if_pos hzero, List.map_nil, Blocks.putAll_nil]
          exact h
      · obtain ⟨cls, henc, hin, hlive⟩ := hheld _ (getLsbD_trailingZeros hzero)
        have hcls := (h.placed _ hin).1
        set g := w * 64 + trailingZeros cut with hg
        have hpop : Sidecar.Cut.pop (sidecarBuild bd) bm ⟨w, cut⟩ =
            some (some (⟨g * minBlock, cls⟩, ⟨w, cut &&& (cut - 1)⟩)) := by
          have hnot : ¬(bm.encoded g = 0 ∨ bd.sizes.count < bm.encoded g) := by
            dsimp only at hcls
            omega
          rw [Sidecar.Cut.pop, if_neg hzero]
          simp only [← hg, sidecarBuild]
          rw [if_neg hnot, henc, Nat.add_sub_cancel]
        obtain ⟨s₁, hrec, hrep⟩ := reclaimSidecarRecord_spec h hin (.inl hlive)
        rw [if_pos hlive] at hrep
        obtain ⟨s₂, hrest, hframe, hrep₂⟩ := ih (cut &&& (cut - 1)) hrep
          (fun i hi => by
            obtain ⟨hne, hi⟩ := (getLsbD_clear_lowest hzero i).mp hi
            have hle := trailingZeros_le hi
            have := hn _ (getLsbD_trailingZeros hzero)
            omega)
          (fun i hi => by
            obtain ⟨hne, hi⟩ := (getLsbD_clear_lowest hzero i).mp hi
            exact (hheld i hi).put (by omega) .free)
        refine ⟨s₂, ?_, (reclaimSidecarRecord_framed hrec).trans hframe, ?_⟩
        · have hfirst : recordAt bm g = ⟨g * minBlock, cls⟩ := by
            rw [recordAt, henc, Nat.add_sub_cancel]
          rw [consumeCut, hpop, bitsFrom, if_neg hzero, List.map_cons, ← hg, hfirst]
          simp only [hrec, hlive, decide_true, if_true, Option.bind_eq_bind, Option.bind_some,
            hrest, Option.pure_def]
        · rw [bitsFrom, if_neg hzero, List.map_cons, Blocks.putAll_cons]
          exact hrep₂

lemma consumeWord_spec {bm : Sidecar.Bitmap} {s : Segment} {b : Blocks} (h : Represents bd s b)
    {w : ℕ} (hheld : ∀ g, g / 64 = w → member bm.pending g = true → Held bm b g) :
    ∃ s', consumeWord bd w bm s = some (bm.clearWord w, s', wordRecords bm w) ∧ s.Framed s' ∧
      Represents bd s' (b.putAll ((wordRecords bm w).map (·.offset)) .free) := by
  have hword : ∀ i, (bm.pending w).getLsbD i = true → Held (bm.clearWord w) b (w * 64 + i) := by
    intro i hi
    have hlt := lt_of_mem_bits (mem_bits.mpr hi)
    exact hheld _ (by omega) (by rwa [member_at _ _ hlt])
  obtain ⟨s', hcut, hframe, hrep⟩ := consumeCut_spec 64 _ h (fun i _ => Nat.le_add_left _ _) hword
  refine ⟨s', ?_, hframe, ?_⟩
  · rw [consumeWord, hcut]
    rfl
  · rw [wordRecords, List.map_map]
    exact hrep

lemma mem_wordRecords {bm : Sidecar.Bitmap} {w : ℕ} {r : Sidecar.Record} :
    r ∈ wordRecords bm w ↔ ∃ g, g / 64 = w ∧ member bm.pending g = true ∧ r = recordAt bm g := by
  rw [wordRecords, List.mem_map]
  constructor
  · rintro ⟨i, hi, rfl⟩
    have hlt := lt_of_mem_bits hi
    exact ⟨w * 64 + i, by omega, by rw [member_at _ _ hlt]; exact mem_bits.mp hi, rfl⟩
  · rintro ⟨g, rfl, hg, rfl⟩
    refine ⟨g % 64, mem_bits.mpr hg, ?_⟩
    rw [Nat.div_add_mod']

lemma recordAt_inj {bm bm' : Sidecar.Bitmap} {g g' : ℕ} (h : recordAt bm g = recordAt bm' g') :
    g = g' := by
  have := congrArg Sidecar.Record.offset h
  simp only [recordAt, minBlock] at this
  omega

lemma nodup_wordRecords (bm : Sidecar.Bitmap) (w : ℕ) : (wordRecords bm w).Nodup := by
  refine List.Nodup.map (fun i j hij => ?_) ((pairwise_bits _).imp ne_of_lt)
  have := recordAt_inj hij
  omega

/-- The words of a scan are consumed one after the other. -/
lemma consumeWords_spec (ws : List ℕ) :
    ∀ (bm : Sidecar.Bitmap) {s : Segment} {b : Blocks}, ws.Nodup → Represents bd s b →
      (∀ g, g / 64 ∈ ws → member bm.pending g = true → Held bm b g) →
      ∃ bm' s', consumeWords bd ws bm s = some (bm', s', ws.flatMap (wordRecords bm)) ∧
        s.Framed s' ∧ bm'.encoded = bm.encoded ∧
        (∀ g, member bm'.pending g = true ↔ member bm.pending g = true ∧ g / 64 ∉ ws) ∧
        Represents bd s' (b.putAll ((ws.flatMap (wordRecords bm)).map (·.offset)) .free) := by
  induction ws with
  | nil =>
      intro bm s b _ h _
      refine ⟨bm, s, rfl, ⟨rfl, rfl⟩, rfl, by simp, ?_⟩
      rw [List.flatMap_nil, List.map_nil, Blocks.putAll_nil]
      exact h
  | cons w ws ih =>
      intro bm s b hn h hheld
      obtain ⟨hw, hn⟩ := List.nodup_cons.mp hn
      obtain ⟨s₁, hword, hframe, hrep⟩ := consumeWord_spec (w := w) h fun g hg =>
        hheld g (by rw [hg]; exact List.mem_cons_self)
      have hother : ∀ g, g / 64 ∈ ws → g / 64 ≠ w := fun g hg he => hw (he ▸ hg)
      have hsame : ∀ v ∈ ws, wordRecords (bm.clearWord w) v = wordRecords bm v := by
        intro v hv
        have hne : v ≠ w := fun he => hw (he ▸ hv)
        have hpending : (bm.clearWord w).pending v = bm.pending v := by
          simp [Sidecar.Bitmap.clearWord, hne]
        rw [wordRecords, hpending]
        rfl
      obtain ⟨bm', s', hrest, hframe', henc, hmem, hrep'⟩ := ih (bm.clearWord w) hn hrep
        (fun g hg hm => by
          rw [Sidecar.member_clearWord] at hm
          simp only [hother g hg, decide_false, Bool.not_false, Bool.true_and] at hm
          obtain ⟨cls, hcode, hin, hlive⟩ := hheld g (List.mem_cons_of_mem _ hg) hm
          refine ⟨cls, hcode, hin, ?_⟩
          have hnot : g * minBlock ∉ (wordRecords bm w).map (·.offset) := by
            intro hoff
            obtain ⟨r, hr, he⟩ := List.mem_map.mp hoff
            obtain ⟨g', hg', -, rfl⟩ := mem_wordRecords.mp hr
            have : g = g' := by
              simp only [recordAt, minBlock] at he
              omega
            exact hother g hg (this ▸ hg')
          simpa only [Blocks.putAll, if_neg hnot] using hlive)
      have hrecords : ws.flatMap (wordRecords (bm.clearWord w)) = ws.flatMap (wordRecords bm) :=
        List.flatMap_congr hsame
      rw [hrecords] at hrest hrep'
      refine ⟨bm', s', ?_, hframe.trans hframe', henc, fun g => ?_, ?_⟩
      · simp [consumeWords, hword, hrest]
      · rw [hmem, Sidecar.member_clearWord, List.mem_cons]
        by_cases hg : g / 64 = w
        · simp [hg]
        · simp [hg]
      · rw [List.flatMap_cons, List.map_append, Blocks.putAll_append]
        exact hrep'

/-! ## Slots that are vacated -/

/-- One slot of a table is vacated. -/
structure Vacated (t t' : SegmentTable) (i : ℕ) : Prop where
  slots : t'.slots = Function.update t.slots i 0
  count : t'.count = t.count
  routes : t'.routes.isSome = t.routes.isSome

lemma Vacated.live_iff {t t' : SegmentTable} {i : ℕ} (h : Vacated t t' i) (j : ℕ) :
    t'.Live j ↔ t.Live j ∧ j ≠ i := by
  rw [SegmentTable.Live, SegmentTable.Live, h.slots, h.count]
  by_cases hj : j = i
  · simp [hj]
  · simp [hj]

lemma Vacated.slot {t t' : SegmentTable} {i : ℕ} (h : Vacated t t' i) {j : ℕ} (hj : t'.Live j) :
    t'.slots j = t.slots j := by
  rw [h.slots, Function.update_of_ne ((h.live_iff j).mp hj).2]

lemma removeRoute_routes {t t' : SegmentTable} {i : ℕ} (h : t.removeRoute i = some t') :
    t'.routes.isSome = t.routes.isSome := by
  rw [SegmentTable.removeRoute] at h
  cases hr : t.routes with
  | none =>
      rw [hr] at h
      obtain rfl := Option.some.inj h
      rw [hr]
  | some rs =>
      rw [hr] at h
      obtain ⟨rs', -, rfl⟩ := Option.map_eq_some_iff.mp h
      rfl

lemma unregister_vacated {t : SegmentTable} {mem : ℕ → SegmentHeader} (h : t.Inv mem) {i : ℕ}
    (hi : t.Live i) (h0 : i ≠ 0) :
    ∃ t', t.unregister mem (t.slots i) = some t' ∧ t'.Inv mem ∧ Vacated t t' i := by
  obtain ⟨routes, a, hash, he, hinv⟩ := SegmentTable.unregister_spec h hi h0
  refine ⟨_, he, hinv, rfl, rfl, ?_⟩
  simp only [SegmentTable.unregister, SegmentTable.unregisterSlot, h.ids i hi, hi.baseAt, if_true,
    Option.bind_eq_bind, Option.bind_some, Option.bind_eq_some_iff] at he
  obtain ⟨t₁, hroute, a', -, hash', -, he⟩ := he
  have hsome := removeRoute_routes hroute
  rw [← Option.some.inj he]
  exact hsome

lemma recycle_vacated {t : SegmentTable} {mem : ℕ → SegmentHeader} (h : t.Inv mem) {i : ℕ}
    (hi : t.Live i) (h0 : i ≠ 0) (hkey : t.key mem i = t.slots i) :
    ∃ p, t.recycle mem (t.slots i) = some p ∧ p.1.Inv mem ∧ Vacated t p.1 i := by
  obtain ⟨routes, a, hash, hr, ha, hh, hinv⟩ := h.vacate hi h0
  have hfind := h.find_key hi
  rw [hkey] at hh hfind
  have hsome := removeRoute_routes hr
  refine ⟨(t.vacated i (t.slots i) routes a hash,
    some ((mem (t.slots i)).reservation, (mem (t.slots i)).reservationLen)), ?_, hinv, rfl, rfl,
    hsome⟩
  simp [SegmentTable.recycle, hfind, h.ids i hi, hi.baseAt, hr, ha, hh, SegmentTable.vacated,
    SegmentTable.ownCacheClear, SegmentTable.freeListPush]

/-! ## Cores -/

def SmallKind (k : SegmentKind) : Prop := k = .small ∨ k = .primordial

def Freed.index : Freed → ℕ
  | .small index .. | .large index _ => index

namespace Core

/-- A free that no drain has seen yet. -/
def Pending (c : Core) : Freed → Prop
  | .small i base off cls => c.table.Live i ∧ c.table.slots i = base ∧ SmallKind (c.kindAt base) ∧
      ∃ g, member (c.bitmap base).pending g = true ∧ recordAt (c.bitmap base) g = ⟨off, cls⟩
  | .large i base => c.table.Live i ∧ c.table.slots i = base ∧ c.kindAt base = .large ∧
      c.largePending base = true

/-- The table is consistent, its small segments represent their blocks, other threads have freed
live blocks only, and the segments of the pool are empty. -/
structure Valid (bd : Build) (c : Core) : Prop where
  table : c.table.Inv c.mem
  first : c.kindAt (c.table.slots 0) = .primordial
  roots : ∀ i, c.table.Live i → c.kindAt (c.table.slots i) = .small →
    c.table.key c.mem i = c.table.slots i
  segments : ∀ i, c.table.Live i → SmallKind (c.kindAt (c.table.slots i)) →
    Represents bd (c.segs (c.table.slots i)) (c.blocks (c.table.slots i)) ∧
    ((c.segs (c.table.slots i)).kind = .primordial ↔
      c.kindAt (c.table.slots i) = .primordial)
  held : ∀ i, c.table.Live i → SmallKind (c.kindAt (c.table.slots i)) → ∀ g,
    member (c.bitmap (c.table.slots i)).pending g = true →
    Held (c.bitmap (c.table.slots i)) (c.blocks (c.table.slots i)) g
  pooled : ∀ base ∈ c.pool, ∃ i, c.table.Live i ∧ c.table.slots i = base ∧
    c.kindAt base = .small ∧ (c.segs base).live = 0
  pool_nodup : c.pool.Nodup

/-- A piece of work reclaims pending frees, and leaves the others pending. -/
structure Took (bd : Build) (c c' : Core) (out : List Freed) : Prop where
  valid : c'.Valid bd
  count : c'.table.count = c.table.count
  routes : c'.table.routes.isSome = c.table.routes.isSome
  nodup : out.Nodup
  taken : ∀ x ∈ out, c.Pending x
  rest : ∀ x, c'.Pending x ↔ c.Pending x ∧ x ∉ out

variable {c c₁ c₂ : Core}

lemma Took.refl (h : c.Valid bd) : c.Took bd c [] where
  valid := h
  count := rfl
  routes := rfl
  nodup := List.nodup_nil
  taken x hx := absurd hx List.not_mem_nil
  rest x := by simp

lemma Took.trans {out₁ out₂ : List Freed} (h₁ : c.Took bd c₁ out₁) (h₂ : c₁.Took bd c₂ out₂) :
    c.Took bd c₂ (out₁ ++ out₂) where
  valid := h₂.valid
  count := h₂.count.trans h₁.count
  routes := h₂.routes.trans h₁.routes
  nodup := by
    rw [List.nodup_append]
    refine ⟨h₁.nodup, h₂.nodup, fun x hx y hy he => ?_⟩
    subst he
    exact ((h₁.rest x).mp (h₂.taken x hy)).2 hx
  taken x hx := by
    obtain hx | hx := List.mem_append.mp hx
    · exact h₁.taken x hx
    · exact ((h₁.rest x).mp (h₂.taken x hx)).1
  rest x := by
    rw [h₂.rest, h₁.rest, List.mem_append, not_or, and_assoc]

/-- An empty segment has no pending frees. -/
lemma Valid.no_pending (h : c.Valid bd) {i : ℕ} (hi : c.table.Live i)
    (hk : SmallKind (c.kindAt (c.table.slots i))) (hlive : (c.segs (c.table.slots i)).live = 0)
    (g : ℕ) : member (c.bitmap (c.table.slots i)).pending g = false := by
  by_contra hg
  obtain ⟨cls, -, hin, hplace⟩ := h.held i hi hk g (by simpa using hg)
  have hcount := (h.segments i hi hk).1.live
  rw [hlive] at hcount
  have hpos : 0 < (c.blocks (c.table.slots i)).liveCount :=
    List.countP_pos_iff.mpr ⟨_, hin, by simp [hplace]⟩
  omega

/-! ### Segments that leave the table -/

/-- The core after slot `i` was vacated, with what may change besides. -/
lemma Valid.vacate (h : c.Valid bd) {t : SegmentTable} {i : ℕ} (ht : t.Inv c.mem)
    (hv : Vacated c.table t i) (h0 : i ≠ 0) {pool : List ℕ} (hsub : pool.Sublist c.pool)
    (hnot : c.table.slots i ∉ pool) (largePending decommitted : ℕ → Bool) (tick : Option ℕ) :
    ({ c with
      table := t
      pool := pool
      largePending := largePending
      decommitted := decommitted
      lastPoolDecayTick := tick } : Core).Valid bd where
  table := ht
  first := by
    change c.kindAt (t.slots 0) = .primordial
    rw [hv.slots, Function.update_of_ne (Ne.symm h0)]
    exact h.first
  roots j hj hk := by
    have hs := hv.slot hj
    change (c.kindAt (t.slots j)) = .small at hk
    change t.key c.mem j = t.slots j
    rw [SegmentTable.key, hs] at *
    exact h.roots j ((hv.live_iff j).mp hj).1 hk
  segments j hj hk := by
    change SmallKind (c.kindAt (t.slots j)) at hk
    change Represents bd (c.segs (t.slots j)) (c.blocks (t.slots j)) ∧
      ((c.segs (t.slots j)).kind = .primordial ↔ c.kindAt (t.slots j) = .primordial)
    rw [hv.slot hj] at *
    exact h.segments j ((hv.live_iff j).mp hj).1 hk
  held j hj hk g hg := by
    change SmallKind (c.kindAt (t.slots j)) at hk
    change member (c.bitmap (t.slots j)).pending g = true at hg
    change Held (c.bitmap (t.slots j)) (c.blocks (t.slots j)) g
    rw [hv.slot hj] at *
    exact h.held j ((hv.live_iff j).mp hj).1 hk g hg
  pooled base hb := by
    obtain ⟨j, hj, hs, hk, hlive⟩ := h.pooled base (hsub.subset hb)
    have hji : j ≠ i := by
      rintro rfl
      exact hnot (hs ▸ hb)
    have hj' := (hv.live_iff j).mpr ⟨hj, hji⟩
    exact ⟨j, hj', (hv.slot hj').trans hs, hk, hlive⟩
  pool_nodup := h.pool_nodup.sublist hsub

/-- A released segment had nothing pending. -/
lemma Valid.releaseEmpty (h : c.Valid bd) {i : ℕ} (hi : c.table.Live i)
    (hk : c.kindAt (c.table.slots i) = .small) (hlive : (c.segs (c.table.slots i)).live = 0)
    {pool : List ℕ} (hsub : pool.Sublist c.pool) (hnot : c.table.slots i ∉ pool)
    (tick : Option ℕ) :
    ∃ c', ({ c with pool := pool, lastPoolDecayTick := tick } : Core).releaseEmptySegment
        (c.table.slots i) = some c' ∧ c.Took bd c' [] ∧ c'.mem = c.mem ∧
      c'.largePending = c.largePending ∧ Vacated c.table c'.table i := by
  have h0 : i ≠ 0 := by
    rintro rfl
    rw [h.first] at hk
    contradiction
  obtain ⟨p, he, ht, hv⟩ := recycle_vacated h.table hi h0 (h.roots i hi hk)
  have hvalid := h.vacate ht hv h0 hsub hnot c.largePending
    (Function.update c.decommitted (c.table.slots i) true) tick
  have hrelease : ({ c with pool := pool, lastPoolDecayTick := tick } : Core).releaseEmptySegment
      (c.table.slots i) = some
        { c with
          table := p.1
          pool := pool
          largePending := c.largePending
          decommitted := Function.update c.decommitted (c.table.slots i) true
          lastPoolDecayTick := tick } := by
    rw [releaseEmptySegment, he]
    rfl
  refine ⟨_, hrelease, ⟨hvalid, hv.count, hv.routes, List.nodup_nil, by simp, fun x => ?_⟩, rfl,
    rfl, hv⟩
  simp only [List.not_mem_nil, not_false_eq_true, and_true]
  cases x with
  | small j base off cls =>
      constructor
      · rintro ⟨hj, hs, hkj, hg⟩
        exact ⟨((hv.live_iff j).mp hj).1, (hv.slot hj).symm.trans hs, hkj, hg⟩
      · rintro ⟨hj, hs, hkj, g, hg, hrec⟩
        have hji : j ≠ i := by
          rintro rfl
          subst hs
          rw [h.no_pending hj hkj hlive g] at hg
          contradiction
        have hj' := (hv.live_iff j).mpr ⟨hj, hji⟩
        exact ⟨hj', (hv.slot hj').trans hs, hkj, g, hg, hrec⟩
  | large j base =>
      constructor
      · rintro ⟨hj, hs, hkj, hp⟩
        exact ⟨((hv.live_iff j).mp hj).1, (hv.slot hj).symm.trans hs, hkj, hp⟩
      · rintro ⟨hj, hs, hkj, hp⟩
        have hji : j ≠ i := by
          rintro rfl
          rw [← hs, hk] at hkj
          contradiction
        have hj' := (hv.live_iff j).mpr ⟨hj, hji⟩
        exact ⟨hj', (hv.slot hj').trans hs, hkj, hp⟩

/-- A Large segment is registered in the slot. -/
def IsLarge (c : Core) (i : ℕ) : Prop := c.table.Live i ∧ c.kindAt (c.table.slots i) = .large

lemma isLarge_of_vacated {i : ℕ} (hv : Vacated c.table c₁.table i) (hmem : c₁.mem = c.mem) (j : ℕ) :
    c₁.IsLarge j ↔ c.IsLarge j ∧ j ≠ i := by
  constructor
  · rintro ⟨hj, hk⟩
    rw [hv.slot hj, kindAt, hmem] at hk
    exact ⟨⟨((hv.live_iff j).mp hj).1, hk⟩, ((hv.live_iff j).mp hj).2⟩
  · rintro ⟨⟨hj, hk⟩, hji⟩
    have hj' := (hv.live_iff j).mpr ⟨hj, hji⟩
    refine ⟨hj', ?_⟩
    rw [hv.slot hj', kindAt, hmem]
    exact hk

/-- A decay tick releases the tail of the pool at most. -/
lemma Valid.maybeDecay (h : c.Valid bd) (now : ℕ) :
    ∃ c', c.maybeDecaySmallPool now = some c' ∧ c.Took bd c' [] ∧ c'.mem = c.mem ∧
      c'.largePending = c.largePending ∧ (∀ j, c'.IsLarge j ↔ c.IsLarge j) ∧
      ∀ j, c'.IsLarge j → c'.table.slots j = c.table.slots j := by
  rw [maybeDecaySmallPool]
  cases hlast : c.pool.getLast? with
  | none => exact ⟨c, rfl, .refl h, rfl, rfl, fun _ => Iff.rfl, fun _ _ => rfl⟩
  | some base =>
      dsimp only
      cases c.lastPoolDecayTick with
      | none =>
          refine ⟨_, rfl, ⟨?_, rfl, rfl, List.nodup_nil, by simp, ?_⟩, rfl, rfl,
            fun _ => Iff.rfl, fun _ _ => rfl⟩
          · exact ⟨h.table, h.first, h.roots, h.segments, h.held, h.pooled, h.pool_nodup⟩
          · intro x
            cases x <;> simp [Pending, kindAt]
      | some t =>
          dsimp only
          split_ifs with hearly
          · exact ⟨c, rfl, .refl h, rfl, rfl, fun _ => Iff.rfl, fun _ _ => rfl⟩
          · obtain ⟨front, hpool⟩ := List.getLast?_eq_some_iff.mp hlast
            have hdrop : c.pool.dropLast = front := by
              rw [hpool, List.dropLast_concat]
            have hsub : front.Sublist c.pool := by
              rw [hpool]
              exact List.sublist_append_left _ _
            have hnot : base ∉ front := by
              have hn := h.pool_nodup
              rw [hpool, List.nodup_append] at hn
              exact fun hb => hn.2.2 base hb base List.mem_cons_self rfl
            obtain ⟨i, hi, rfl, hk, hlive⟩ := h.pooled base (by rw [hpool]; simp)
            obtain ⟨c', he, htook, hmem, hlp, hv⟩ := h.releaseEmpty hi hk hlive hsub hnot (some now)
            refine ⟨c', by rw [hdrop]; exact he, htook, hmem, hlp, fun j => ?_, fun j hj =>
              hv.slot hj.1⟩
            rw [isLarge_of_vacated hv hmem]
            refine and_iff_left_of_imp ?_
            rintro ⟨-, hkj⟩ rfl
            rw [hk] at hkj
            contradiction

/-! ### Pieces of work -/

/-- The frees of some words of a small segment. -/
def wordFrees (c : Core) (i base : ℕ) (ws : List ℕ) : List Freed :=
  (ws.flatMap (wordRecords (c.bitmap base))).map fun r => .small i base r.offset r.cls

lemma mem_wordFrees {i base : ℕ} {ws : List ℕ} {x : Freed} :
    x ∈ c.wordFrees i base ws ↔ ∃ g, g / 64 ∈ ws ∧ member (c.bitmap base).pending g = true ∧
      x = .small i base (recordAt (c.bitmap base) g).offset (recordAt (c.bitmap base) g).cls := by
  simp only [wordFrees, List.mem_map, List.mem_flatMap, mem_wordRecords]
  constructor
  · rintro ⟨r, ⟨w, hw, g, rfl, hg, rfl⟩, rfl⟩
    exact ⟨g, hw, hg, rfl⟩
  · rintro ⟨g, hw, hg, rfl⟩
    exact ⟨_, ⟨g / 64, hw, g, rfl, hg, rfl⟩, rfl⟩

lemma nodup_wordFrees (i base : ℕ) {ws : List ℕ} (hn : ws.Nodup) :
    (c.wordFrees i base ws).Nodup := by
  apply List.Nodup.map
  · intro r r' h
    injection h with _ _ hoff hcls
    cases r
    cases r'
    simp_all
  · rw [List.nodup_flatMap]
    refine ⟨fun w _ => nodup_wordRecords _ w, hn.imp fun {w w'} hne r hr hr' => ?_⟩
    obtain ⟨g, rfl, -, rfl⟩ := mem_wordRecords.mp hr
    obtain ⟨g', rfl, -, he⟩ := mem_wordRecords.mp hr'
    exact hne (congrArg (· / 64) (recordAt_inj he))

/-- Consuming some words takes what they hold, and no other segment changes. -/
lemma Valid.consume (h : c.Valid bd) {i : ℕ} (hi : c.table.Live i)
    (hk : SmallKind (c.kindAt (c.table.slots i))) {ws : List ℕ} (hn : ws.Nodup) :
    ∃ c', c.consume bd i (c.table.slots i) ws =
        some (c', c.wordFrees i (c.table.slots i) ws) ∧
      c.Took bd c' (c.wordFrees i (c.table.slots i) ws) ∧ c'.table = c.table ∧
      c'.mem = c.mem ∧ c'.pool = c.pool ∧
      (c'.segs (c.table.slots i)).bump = (c.segs (c.table.slots i)).bump ∧
      ∀ g, member (c'.bitmap (c.table.slots i)).pending g = true ↔
        member (c.bitmap (c.table.slots i)).pending g = true ∧ g / 64 ∉ ws := by
  set base := c.table.slots i with hbase
  obtain ⟨hrep, hkind⟩ := h.segments i hi hk
  obtain ⟨bm, s, he, hframe, henc, hmem, hrep'⟩ := consumeWords_spec ws _ hn hrep
    fun g _ hg => h.held i hi hk g hg
  rw [← hbase] at he hframe henc hmem hrep'
  set records := ws.flatMap (wordRecords (c.bitmap base)) with hrecords
  have hsame : ∀ j, c.table.Live j → c.table.slots j = base → j = i := fun j hj hs =>
    h.table.slots_inj j i hj hi hs
  set c' : Core := { c with
    bitmap := Function.update c.bitmap base bm
    segs := Function.update c.segs base s
    blocks := Function.update c.blocks base
      ((c.blocks base).putAll (records.map (·.offset)) .free) } with hc'
  have hconsume : c.consume bd i base ws = some (c', c.wordFrees i base ws) := by
    rw [Core.consume, he]
    rfl
  refine ⟨c', hconsume, ⟨?_, rfl, rfl, nodup_wordFrees i base hn, fun x hx => ?_, fun x => ?_⟩,
    rfl, rfl, rfl, ?_, fun g => ?_⟩
  · refine ⟨h.table, h.first, h.roots, fun j hj hkj => ?_, fun j hj hkj g hg => ?_,
      fun b hb => ?_, h.pool_nodup⟩
    · by_cases hji : c.table.slots j = base
      · have hseg : c'.segs (c.table.slots j) = s := by simp [hc', hji]
        have hblk : c'.blocks (c.table.slots j) =
            (c.blocks base).putAll (records.map (·.offset)) .free := by simp [hc', hji]
        change Represents bd (c'.segs (c.table.slots j)) (c'.blocks (c.table.slots j)) ∧
          ((c'.segs (c.table.slots j)).kind = .primordial ↔ _)
        rw [hseg, hblk, hframe.kind, hji]
        exact ⟨hrep', hkind⟩
      · have := h.segments j hj hkj
        simpa [hc', hji, kindAt] using this
    · by_cases hji : c.table.slots j = base
      · have hbm : c'.bitmap (c.table.slots j) = bm := by simp [hc', hji]
        have hblk : c'.blocks (c.table.slots j) =
            (c.blocks base).putAll (records.map (·.offset)) .free := by simp [hc', hji]
        change member (c'.bitmap (c.table.slots j)).pending g = true at hg
        change Held (c'.bitmap (c.table.slots j)) (c'.blocks (c.table.slots j)) g
        rw [hbm] at hg
        rw [hbm, hblk]
        obtain ⟨hg, hws⟩ := (hmem g).mp hg
        obtain ⟨cls, hcode, hin, hlive⟩ := h.held i hi hk g hg
        refine ⟨cls, by rw [henc]; exact hcode, hin, ?_⟩
        have hnot : g * minBlock ∉ records.map (·.offset) := by
          intro hoff
          obtain ⟨r, hr, hro⟩ := List.mem_map.mp hoff
          obtain ⟨w, hw, hr⟩ := List.mem_flatMap.mp hr
          obtain ⟨g', rfl, -, rfl⟩ := mem_wordRecords.mp hr
          have : g = g' := by
            simp only [recordAt, minBlock] at hro
            omega
          exact hws (this ▸ hw)
        simpa only [Blocks.putAll, if_neg hnot] using hlive
      · have := h.held j hj hkj g (by simpa [hc', hji] using hg)
        simpa [hc', hji] using this
    · obtain ⟨j, hj, hs, hkj, hlive⟩ := h.pooled b hb
      refine ⟨j, hj, hs, hkj, ?_⟩
      by_cases hbb : b = base
      · -- A pooled segment had nothing to take, so its counter is still zero.
        have hnone : records = [] := by
          rw [List.eq_nil_iff_forall_not_mem]
          intro r hr
          obtain ⟨w, -, hr⟩ := List.mem_flatMap.mp hr
          obtain ⟨g, -, hg, -⟩ := mem_wordRecords.mp hr
          rw [h.no_pending hi hk (by rw [← hbase, ← hbb]; exact hlive) g] at hg
          contradiction
        rw [hnone, List.map_nil, Blocks.putAll_nil] at hrep'
        have hcount := hrep'.live.trans hrep.live.symm
        have hseg : c'.segs b = s := by simp [hc', hbb]
        rw [hseg, hcount, ← hbase, ← hbb]
        exact hlive
      · simpa [hc', hbb] using hlive
  · obtain ⟨g, -, hg, rfl⟩ := mem_wordFrees.mp hx
    exact ⟨hi, rfl, hk, g, hg, rfl⟩
  · cases x with
    | small j b off cls =>
        by_cases hb : b = base
        · subst hb
          constructor
          · rintro ⟨hj, hs, hkj, g, hg, hrec⟩
            have hbm : c'.bitmap base = bm := by simp [hc']
            rw [hbm] at hg hrec
            obtain ⟨hg, hws⟩ := (hmem g).mp hg
            have hrec' : recordAt (c.bitmap base) g = ⟨off, cls⟩ := by
              rw [← hrec, recordAt, recordAt, henc]
            refine ⟨⟨hj, hs, hkj, g, hg, hrec'⟩, fun hx => ?_⟩
            obtain ⟨g', hw, -, he'⟩ := mem_wordFrees.mp hx
            injection he' with _ _ hoff _
            have : g = g' := by
              rw [Sidecar.Record.mk.injEq] at hrec'
              simp only [recordAt, minBlock] at hoff hrec'
              omega
            exact hws (this ▸ hw)
          · rintro ⟨⟨hj, hs, hkj, g, hg, hrec⟩, hx⟩
            have hji := hsame j hj hs
            have hws : g / 64 ∉ ws := by
              intro hw
              refine hx (mem_wordFrees.mpr ⟨g, hw, hg, ?_⟩)
              rw [hrec, hji]
            have hbm : c'.bitmap base = bm := by simp [hc']
            refine ⟨hj, hs, hkj, g, ?_, ?_⟩
            · rw [hbm, hmem]
              exact ⟨hg, hws⟩
            · rw [hbm, recordAt, henc]
              exact hrec
        · have hnot : Freed.small j b off cls ∉ c.wordFrees i base ws := by
            intro hx
            obtain ⟨g, -, -, he'⟩ := mem_wordFrees.mp hx
            injection he' with _ hb' _ _
            exact hb hb'
          have hbm : c'.bitmap b = c.bitmap b := by simp [hc', hb]
          simp only [Pending, hbm, hnot, not_false_eq_true, and_true]
          rfl
    | large j b =>
        have hnot : Freed.large j b ∉ c.wordFrees i base ws := by
          intro hx
          obtain ⟨g, -, -, he'⟩ := mem_wordFrees.mp hx
          contradiction
        simp only [hnot, not_false_eq_true, and_true]
        rfl
  · simpa [hc'] using hframe.bump
  · have hbm : c'.bitmap base = bm := by simp [hc']
    rw [hbm]
    exact hmem g

/-- An emptied segment is pooled or released, and nothing of it is pending. -/
lemma Valid.finishSmall (h : c.Valid bd) {i : ℕ} (hi : c.table.Live i) (changed : Bool)
    (hpool : changed = true → c.table.slots i ∉ c.pool) :
    ∃ c' fate, c.finishSmallDrain (c.table.slots i) changed = some (c', fate) ∧
      c.Took bd c' [] ∧ (fate ≠ .live → ∀ x, c'.Pending x → x.index ≠ i) := by
  set base := c.table.slots i with hbase
  rw [finishSmallDrain]
  split_ifs with hc
  swap
  · exact ⟨c, .live, rfl, .refl h, fun hne => absurd rfl hne⟩
  obtain ⟨hchanged, hempty⟩ := Bool.and_eq_true_iff.mp hc
  simp only [decLiveAndMaybeDecommit, decide_eq_true_eq] at hempty
  obtain ⟨hlive, -, -, hk⟩ := hempty
  have hgone : ∀ x, c.Pending x → x.index ≠ i := by
    intro x hx he
    cases x with
    | small j b off cls =>
        obtain ⟨hj, hs, hkj, g, hg, -⟩ := hx
        obtain rfl : j = i := he
        rw [← hs] at hkj hg
        rw [h.no_pending hj hkj hlive g] at hg
        contradiction
    | large j b =>
        obtain ⟨hj, hs, hkj, -⟩ := hx
        obtain rfl : j = i := he
        rw [← hs] at hkj
        rw [← hbase, hk] at hkj
        contradiction
  rw [releaseOrPoolEmptySegment, if_neg (hpool hchanged)]
  split_ifs with hroom
  · refine ⟨_, _, rfl, ⟨?_, rfl, rfl, List.nodup_nil, by simp, fun x => ?_⟩, fun _ x hx =>
      hgone x ?_⟩
    · refine ⟨h.table, h.first, h.roots, h.segments, h.held, fun b hb => ?_, ?_⟩
      · obtain rfl | hb := List.mem_cons.mp hb
        · exact ⟨i, hi, rfl, hk, hlive⟩
        · exact h.pooled b hb
      · exact List.nodup_cons.mpr ⟨hpool hchanged, h.pool_nodup⟩
    · cases x <;> simp [Pending, kindAt]
    · cases x <;> exact hx
  · obtain ⟨c', he, htook, -, -, -⟩ := h.releaseEmpty hi hk hlive (List.Sublist.refl _)
      (hpool hchanged) c.lastPoolDecayTick
    have he' : c.releaseEmptySegment base = some c' := he
    refine ⟨c', .released, by rw [he']; rfl, htook, fun _ x hx => hgone x ?_⟩
    exact ((htook.rest x).mp hx).1

/-- A segment from which something was taken is not in the pool. -/
lemma Valid.not_pooled (h : c.Valid bd) {i : ℕ} (hi : c.table.Live i)
    (hk : SmallKind (c.kindAt (c.table.slots i))) {ws : List ℕ}
    (hne : c.wordFrees i (c.table.slots i) ws ≠ []) : c.table.slots i ∉ c.pool := by
  intro hb
  obtain ⟨x, hx⟩ := List.exists_mem_of_ne_nil _ hne
  obtain ⟨g, -, hg, -⟩ := mem_wordFrees.mp hx
  obtain ⟨j, hj, hs, -, hlive⟩ := h.pooled _ hb
  rw [h.no_pending hi hk hlive g] at hg
  contradiction

/-- Retiring a Large route takes its free, if it has one, and its slot. -/
lemma Valid.retireLarge (h : c.Valid bd) {i : ℕ} (hl : c.IsLarge i) (now : ℕ) :
    ∃ c' out, c.retireLargeRoute i (c.table.slots i) now = some (c', out) ∧ c.Took bd c' out ∧
      out = (if c.largePending (c.table.slots i) then [.large i (c.table.slots i)] else []) ∧
      c'.mem = c.mem ∧
      (∀ j, c'.IsLarge j ↔ c.IsLarge j ∧ (j = i → c.largePending (c.table.slots i) = false)) ∧
      (∀ j, c'.IsLarge j → c'.table.slots j = c.table.slots j) ∧
      ∀ base, base ≠ c.table.slots i → c'.largePending base = c.largePending base := by
  obtain ⟨hi, hk⟩ := hl
  set base := c.table.slots i with hbase
  rw [retireLargeRoute]
  cases hp : c.largePending base with
  | false =>
      refine ⟨c, [], rfl, .refl h, rfl, rfl, fun j => ?_, fun _ _ => rfl, fun _ _ => rfl⟩
      exact ⟨fun hj => ⟨hj, fun _ => rfl⟩, And.left⟩
  | true =>
      have h0 : i ≠ 0 := by
        rintro rfl
        rw [h.first] at hk
        contradiction
      obtain ⟨t, he, ht, hv⟩ := unregister_vacated h.table hi h0
      rw [← hbase] at he
      have hnot : base ∉ c.pool := by
        intro hb
        obtain ⟨j, -, -, hkj, -⟩ := h.pooled base hb
        rw [hk] at hkj
        contradiction
      set c₁ : Core := { c with
        table := t
        pool := c.pool
        largePending := Function.update c.largePending base false
        decommitted := c.decommitted
        lastPoolDecayTick := c.lastPoolDecayTick } with hc₁
      have hvalid : c₁.Valid bd := h.vacate ht hv h0 (List.Sublist.refl _) hnot _ _ _
      have hsame : ∀ j, c.table.Live j → c.table.slots j = base → j = i := fun j hj hs =>
        h.table.slots_inj j i hj hi hs
      have htook : c.Took bd c₁ [.large i base] := by
        refine ⟨hvalid, hv.count, hv.routes, List.nodup_singleton _, ?_, fun x => ?_⟩
        · intro x hx
          obtain rfl := List.mem_singleton.mp hx
          exact ⟨hi, rfl, hk, hp⟩
        · rw [List.mem_singleton]
          cases x with
          | small j b off cls =>
              simp only [reduceCtorEq, not_false_eq_true, and_true]
              constructor
              · rintro ⟨hj, hs, hkj, hg⟩
                exact ⟨((hv.live_iff j).mp hj).1, (hv.slot hj).symm.trans hs, hkj, hg⟩
              · rintro ⟨hj, hs, hkj, hg⟩
                have hji : j ≠ i := by
                  rintro rfl
                  rw [← hs, ← hbase, hk] at hkj
                  obtain hkj | hkj := hkj <;> contradiction
                have hj' := (hv.live_iff j).mpr ⟨hj, hji⟩
                exact ⟨hj', (hv.slot hj').trans hs, hkj, hg⟩
          | large j b =>
              constructor
              · rintro ⟨hj, hs, hkj, hpj⟩
                obtain ⟨hj₀, hji⟩ := (hv.live_iff j).mp hj
                have hs₀ := (hv.slot hj).symm.trans hs
                have hb : b ≠ base := fun he' => hji (hsame j hj₀ (hs₀.trans he'))
                refine ⟨⟨hj₀, hs₀, hkj, ?_⟩, fun he' => hji ?_⟩
                · simpa [hc₁, hb] using hpj
                · injection he'
              · rintro ⟨⟨hj, hs, hkj, hpj⟩, hx⟩
                have hb : b ≠ base := by
                  rintro rfl
                  exact hx (by rw [hsame j hj hs])
                have hji : j ≠ i := fun he' => hb (by rw [← hs, he'])
                have hj' := (hv.live_iff j).mpr ⟨hj, hji⟩
                exact ⟨hj', (hv.slot hj').trans hs, hkj, by simpa [hc₁, hb] using hpj⟩
      obtain ⟨c', hdecay, htook', hmem, hlp, hlarge, hslots⟩ := hvalid.maybeDecay now
      have hretire : (if true = false then some (c, []) else do
          let t ← c.table.unregister c.mem base
          let c ← ({ c with
            largePending := Function.update c.largePending base false
            table := t } : Core).maybeDecaySmallPool now
          return (c, [Freed.large i base])) = some (c', [.large i base]) := by
        rw [if_neg (by simp), he, Option.bind_eq_bind, Option.bind_some]
        change (c₁.maybeDecaySmallPool now).bind _ = _
        rw [hdecay]
        rfl
      refine ⟨c', [.large i base], hretire, ?_, rfl, hmem, fun j => ?_, fun j hj => ?_,
        fun b hb => ?_⟩
      · have := htook.trans htook'
        rwa [List.append_nil] at this
      · rw [hlarge, isLarge_of_vacated hv (show c₁.mem = c.mem from rfl)]
        simp
      · have hj₁ := (hlarge j).mp hj
        rw [hslots j hj, hv.slot hj₁.1]
      · rw [hlp]
        simp [hc₁, hb]

end Core

end MaintenanceDrain

end SeferAlloc
