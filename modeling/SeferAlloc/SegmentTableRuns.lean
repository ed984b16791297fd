import SeferAlloc.SegmentTableInvariant

/-!
# Runs of the segment table

Each call either fails without touching the four views or moves the invariant
along. The run theorem reads the consistency of every reached table off it.
-/
namespace SeferAlloc
namespace SegmentTable
open LinearProbing

/-- The slot array, free list, hash and active-kind index are unchanged. -/
structure SameViews (t t' : SegmentTable) : Prop where
  slots : t'.slots = t.slots
  count : t'.count = t.count
  freeList : t'.freeList = t.freeList
  freeTop : t'.freeTop = t.freeTop
  hashSlots : t'.hashSlots = t.hashSlots
  activeKind : t'.activeKind = t.activeKind

lemma prepareRoute_sameViews (t : SegmentTable) (needed base : ℕ) (kind : SegmentKind)
    (payload target : ℕ) (o : PrepareOracle) :
    SameViews t (t.prepareRoute needed base kind payload target o).1 := by
  rw [prepareRoute]
  cases t.routes <;> exact ⟨rfl, rfl, rfl, rfl, rfl, rfl⟩

/-- A registration that answers `None` leaves every view as it was. -/
theorem registerPayload_none {t t' : SegmentTable} {base payload : ℕ} {kind : SegmentKind}
    {o : PrepareOracle} (h : t.registerPayload base kind payload o = some (none, t')) :
    SameViews t t' := by
  have hp := t.prepareRoute_sameViews (t.count + (!decide (t.freeTop ≠ 0)).toNat) base kind
    payload (t.nextRegisterSlot (decide (t.freeTop ≠ 0))) o
  simp only [registerPayload] at h
  split_ifs at h with hkind hfull
  · obtain rfl : t = t' := by simpa using h
    exact ⟨rfl, rfl, rfl, rfl, rfl, rfl⟩
  · obtain rfl : t = t' := by simpa using h
    exact ⟨rfl, rfl, rfl, rfl, rfl, rfl⟩
  · split at h
    · rename_i t₁ heq
      obtain rfl : t₁ = t' := by simpa using h
      rwa [heq] at hp
    · rename_i t₁ route heq
      rw [heq] at hp
      split at h
      · simp at h
      · rename_i t₂ hpop
        split_ifs at h
        · obtain rfl : t₂ = t' := by simpa using h
          have htop : t₁.freeTop = 0 := by
            by_contra hne
            simp [freeListPop, hne] at hpop
          have h₂ : t₁ = t₂ := by simpa [freeListPop, htop] using hpop
          rwa [← h₂]
        · simp at h

lemma freeListPop_of_empty {t : SegmentTable} (h : t.freeTop = 0) : t.freeListPop = (none, t) :=
  if_pos h

lemma freeListPop_of_ne {t : SegmentTable} (h : t.freeTop ≠ 0) : t.freeListPop =
    (some (t.freeList (t.freeTop - 1)), { t with freeTop := t.freeTop - 1 }) :=
  if_neg h

/-- What a route preparation answers about the handle array. -/
lemma RouteSlots.prepare_spec (rs : RouteSlots) (needed base : ℕ) (kind : SegmentKind)
    (payload slot : ℕ) (o : PrepareOracle) :
    (rs.prepare needed base kind payload slot o).1.slots = rs.slots ∧
      rs.cap ≤ (rs.prepare needed base kind payload slot o).1.cap ∧
      ((rs.prepare needed base kind payload slot o).2.isSome →
        needed ≤ (rs.prepare needed base kind payload slot o).1.cap) := by
  have hcap : ∀ rs', rs.ensureCapacity needed o = some rs' →
      rs'.slots = rs.slots ∧ rs.cap ≤ rs'.cap ∧ needed ≤ rs'.cap := by
    intro rs' h
    simp only [RouteSlots.ensureCapacity] at h
    split_ifs at h with hle _ _
    · obtain rfl := Option.some.inj h
      exact ⟨rfl, le_rfl, hle⟩
    · obtain rfl := Option.some.inj h
      have hpow := Nat.le_pow_clog (b := 2) (by decide) needed
      refine ⟨rfl, ?_, ?_⟩ <;> simp only [] <;> omega
  rw [RouteSlots.prepare]
  cases he : rs.ensureCapacity needed o with
  | none => simp
  | some rs' =>
      obtain ⟨hs, hc, hn⟩ := hcap rs' he
      simp only
      split_ifs
      · exact ⟨hs, hc, fun _ => hn⟩
      · exact ⟨hs, hc, fun _ => hn⟩

/-- The table after a route preparation: routes apart, nothing moved. -/
lemma prepareRoute_spec {t : SegmentTable} {mem : ℕ → SegmentHeader} (h : t.Inv mem)
    (needed base : ℕ) (kind : SegmentKind) (payload target : ℕ) (o : PrepareOracle) :
    ∃ routes, (t.prepareRoute needed base kind payload target o).1 = { t with routes := routes } ∧
      (∀ rs, routes = some rs → t.count ≤ rs.cap ∧ ∀ i, (rs.slots i).isSome = true ↔ t.Live i) ∧
      ∀ route, (t.prepareRoute needed base kind payload target o).2 = some route →
        (routes = none → route = none) ∧
        ∀ rs, routes = some rs → route.isSome = true ∧ needed ≤ rs.cap := by
  rw [prepareRoute]
  cases hrs : t.routes with
  | none =>
      refine ⟨none, by cases t; subst hrs; rfl, fun rs h => by simp at h, fun route hr => ?_⟩
      obtain rfl : none = route := by simpa using hr
      exact ⟨fun _ => rfl, fun rs h => by simp at h⟩
  | some rs =>
      obtain ⟨hs, hc, hn⟩ := RouteSlots.prepare_spec rs needed base kind payload target o
      obtain ⟨hcap, hslots⟩ := h.routed rs hrs
      refine ⟨some (rs.prepare needed base kind payload target o).1, rfl, ?_, fun route hr => ?_⟩
      · rintro _ ⟨rfl⟩
        exact ⟨hcap.trans hc, fun i => by rw [hs, hslots]⟩
      · refine ⟨fun h => by simp at h, ?_⟩
        rintro _ ⟨rfl⟩
        obtain ⟨r, hr', rfl⟩ := Option.map_eq_some_iff.mp hr
        exact ⟨rfl, hn (by rw [hr']; rfl)⟩

lemma Inv.withRoutes {t : SegmentTable} {mem : ℕ → SegmentHeader} (h : t.Inv mem)
    {routes : Option RouteSlots} (hr : ∀ rs, routes = some rs →
      t.count ≤ rs.cap ∧ ∀ i, (rs.slots i).isSome = true ↔ t.Live i) :
    ({ t with routes := routes } : SegmentTable).Inv mem :=
  ⟨h.count_pos, h.count_le, h.free_nodup, h.mem_free, h.slots_inj, h.ids, h.hash, h.exact,
    h.active, h.known, h.root, hr⟩

/-- The segment a registration may add: a non-null root that no live slot holds,
under a payload key that no live slot uses. -/
structure FreshSegment (t : SegmentTable) (mem : ℕ → SegmentHeader) (base payload : ℕ) : Prop where
  base_ne : base ≠ 0
  payload_le : base ≤ payload
  root : ∀ j, t.Live j → t.slots j ≠ base
  key : ∀ j, t.Live j → t.key mem j ≠ segmentBaseOfPtr payload

/-- A registration of a fresh segment fails in place or fills the slot it names. -/
theorem registerPayload_spec {t : SegmentTable} {mem : ℕ → SegmentHeader} (h : t.Inv mem)
    {base payload : ℕ} (hf : t.FreshSegment mem base payload) (kind : SegmentKind)
    (o : PrepareOracle) :
    (∃ t', t.registerPayload base kind payload o = some (none, t') ∧ t'.Inv mem) ∨
    ∃ i t', t.registerPayload base kind payload o = some (some i, t') ∧ i ≠ 0 ∧ ¬t.Live i ∧
      i < t'.count ∧ t'.slots = Function.update t.slots i base ∧
      ∀ hdr : SegmentHeader, hdr.segmentId = i → hdr.kind = kind →
        base + hdr.payloadOffset = payload → t'.Inv (Function.update mem base hdr) := by
  simp only [registerPayload]
  split_ifs with hkind hfull
  · exact .inl ⟨t, rfl, h⟩
  · exact .inl ⟨t, rfl, h⟩
  obtain ⟨lane, hlane⟩ : ∃ lane, ActiveKindIndex.offsets kind = some lane := by
    cases kind with
    | unknown => simp at hkind
    | primordial => simp at hkind
    | small => exact ⟨_, rfl⟩
    | large => exact ⟨_, rfl⟩
  set hasFree : Bool := decide (t.freeTop ≠ 0) with hhas
  obtain ⟨routes, hp, hrt, hroute⟩ := prepareRoute_spec h (t.count + (!hasFree).toNat) base
    kind payload (t.nextRegisterSlot hasFree) o
  have h₁ := h.withRoutes hrt
  split
  · rename_i t₁ heq
    rw [heq] at hp
    exact .inl ⟨t₁, rfl, by rw [show t₁ = _ from hp]; exact h₁⟩
  rename_i t₁ route heq
  rw [heq] at hp hroute
  obtain rfl : t₁ = { t with routes := routes } := hp
  obtain ⟨hnone, hsome⟩ := hroute route rfl
  right
  by_cases htop : t.freeTop = 0
  · -- Append past the high-water mark.
    have hcount : t.count < maxSegments := by
      by_contra hc
      exact hfull ⟨by simp [hhas, htop], not_lt.mp hc⟩
    have hdead : ¬t.Live t.count := fun hl => lt_irrefl _ hl.1
    have hstack := freeStack_eq_nil htop
    rw [freeListPop_of_empty (t := { t with routes := routes }) htop]
    simp only [not_le.mpr hcount, if_false]
    have fill := fun (hdr : SegmentHeader) (hid : hdr.segmentId = t.count) (hk : hdr.kind = kind)
        (hpay : base + hdr.payloadOffset = payload) =>
      Inv.fill h { t with
          routes := routes
          slots := Function.update t.slots t.count base
          count := t.count + 1 } route lane hdead
        ⟨rfl, Nat.lt_succ_self _, fun j hj => by simp only; omega⟩ hf.base_ne hf.root
        (fun j hj => by rw [hpay]; exact hf.key j hj) hid (by rw [hk, hlane])
        ⟨Nat.le_succ _, hcount⟩
        ⟨by simpa [freeStack] using h.free_nodup, fun j => by
          have := h.mem_free j
          simp only [hstack, List.not_mem_nil, false_iff, not_and] at this
          simpa [freeStack, htop] using fun _ => this⟩
        rfl rfl
        (fun rs hrs => ⟨(hsome rs hrs).1, by
          have := (hsome rs hrs).2
          simpa [hhas, htop] using this, (hrt rs hrs).2⟩)
        hnone
    obtain ⟨t', ht', -, hslots, hcount'⟩ := fill ⟨t.count, kind, payload - base, 0, 0⟩ rfl rfl
      (by have := hf.payload_le; simp only; omega)
    have hpay : base + (payload - base) = payload := by have := hf.payload_le; omega
    simp only [hpay] at ht'
    refine ⟨t.count, t', by rw [ht']; rfl, (Nat.ne_of_gt h.count_pos), hdead,
      by rw [hcount']; exact Nat.lt_succ_self _, hslots, fun hdr hid hk hp' => ?_⟩
    obtain ⟨t'', ht'', hinv, -, -⟩ := fill hdr hid hk hp'
    rw [hp', hk, ht'] at ht''
    rw [Option.some.inj ht'']
    exact hinv
  · -- Reuse the top of the free list.
    set i := t.freeList (t.freeTop - 1) with hi
    have hstack := freeStack_pop htop
    have hmem : i ∈ t.freeStack := by
      rw [hstack]
      exact List.mem_append_right _ (List.mem_singleton_self _)
    obtain ⟨hlt, hnull⟩ := (h.mem_free i).mp hmem
    have hdead : ¬t.Live i := fun hl => hl.2 hnull
    have hnodup := h.free_nodup
    rw [hstack, List.nodup_append] at hnodup
    rw [freeListPop_of_ne (t := { t with routes := routes }) htop]
    simp only [← hi]
    have fill := fun (hdr : SegmentHeader) (hid : hdr.segmentId = i) (hk : hdr.kind = kind)
        (hpay : base + hdr.payloadOffset = payload) =>
      Inv.fill h { t with
          routes := routes
          slots := Function.update t.slots i base
          freeTop := t.freeTop - 1 } route lane hdead
        ⟨rfl, hlt, fun j _ => Iff.rfl⟩ hf.base_ne hf.root
        (fun j hj => by rw [hpay]; exact hf.key j hj) hid (by rw [hk, hlane])
        ⟨le_rfl, h.count_le⟩
        ⟨by simpa [freeStack, freeListPop, htop] using hnodup.1, fun j => by
          have hj := h.mem_free j
          rw [hstack, List.mem_append, List.mem_singleton] at hj
          have hji : j ∈ (t.freeListPop.2).freeStack → j ≠ i :=
            fun hm => hnodup.2.2 j hm i (by simp [hi])
          have hpop : (t.freeListPop.2).freeStack =
              (List.range (t.freeTop - 1)).map t.freeList := by
            simp [freeStack, freeListPop, htop]
          change j ∈ (List.range (t.freeTop - 1)).map t.freeList ↔ _
          rw [← hpop]
          constructor
          · exact fun hm => ⟨hji hm, hj.mp (.inl hm)⟩
          · rintro ⟨hne, hjj⟩
            rcases hj.mpr hjj with hm | he
            · exact hm
            · exact absurd he hne⟩
        rfl rfl
        (fun rs hrs => ⟨(hsome rs hrs).1, hrt rs hrs⟩)
        hnone
    obtain ⟨t', ht', -, hslots, hcount'⟩ := fill ⟨i, kind, payload - base, 0, 0⟩ rfl rfl
      (by have := hf.payload_le; simp only; omega)
    have hpay : base + (payload - base) = payload := by have := hf.payload_le; omega
    simp only [hpay] at ht'
    refine ⟨i, t', by rw [ht']; rfl, fun h0 => h.root (h0 ▸ hnull), hdead,
      by rw [hcount']; exact hlt, hslots, fun hdr hid hk hp' => ?_⟩
    obtain ⟨t'', ht'', hinv, -, -⟩ := fill hdr hid hk hp'
    rw [hp', hk, ht'] at ht''
    rw [Option.some.inj ht'']
    exact hinv

/-- Removing a registered segment other than the primordial vacates its slot. -/
theorem unregister_spec {t : SegmentTable} {mem : ℕ → SegmentHeader} (h : t.Inv mem) {i : ℕ}
    (hi : t.Live i) (h0 : i ≠ 0) :
    ∃ routes a hash, t.unregister mem (t.slots i) =
        some (t.vacated i (t.slots i) routes a hash) ∧
      (t.vacated i (t.slots i) routes a hash).Inv mem := by
  obtain ⟨routes, a, hash, hr, ha, hh, hinv⟩ := h.vacate hi h0
  refine ⟨routes, a, hash, ?_, hinv⟩
  have hh' : hashRemove t.hashSlots
      (segmentBaseOfPtr (t.slots i + (mem (t.slots i)).payloadOffset)) = some hash := hh
  simp [unregister, unregisterSlot, h.ids i hi, hi.baseAt, hr, ha, hh', vacated]

lemma scanSlot_eq_none {t : SegmentTable} {base : ℕ} (h0 : base ≠ 0)
    (h : ∀ i, t.Live i → t.slots i ≠ base) : t.scanSlot base = none := by
  rw [scanSlot, List.find?_eq_none]
  intro i _ hi
  obtain ⟨hl, he⟩ := (baseAt_eq_iff h0).mp (by simpa using hi)
  exact h i hl he

/-- `recycle` answers for every base: a live one is vacated and its reservation
released, anything else changes nothing. -/
theorem recycle_spec {t : SegmentTable} {mem : ℕ → SegmentHeader} (h : t.Inv mem) {base : ℕ}
    (h0 : base ≠ 0) (hroot : base ≠ t.slots 0)
    (hkey : ∀ i, t.Live i → t.slots i = base → t.key mem i = base) :
    t.recycle mem base = some (t, none) ∨
    ∃ i routes a hash, t.Live i ∧ i ≠ 0 ∧ t.slots i = base ∧
      t.recycle mem base = some (t.vacated i base routes a hash,
        some ((mem base).reservation, (mem base).reservationLen)) ∧
      (t.vacated i base routes a hash).Inv mem := by
  by_cases hlive : ∃ i, t.Live i ∧ t.slots i = base
  · right
    obtain ⟨i, hi, rfl⟩ := hlive
    have hne : i ≠ 0 := by rintro rfl; exact hroot rfl
    have hk := hkey i hi rfl
    obtain ⟨routes, a, hash, hr, ha, hh, hinv⟩ := h.vacate hi hne
    rw [hk] at hh
    have hfind := h.find_key hi
    rw [hk] at hfind
    refine ⟨i, routes, a, hash, hi, hne, rfl, ?_, hinv⟩
    simp [recycle, hfind, h.ids i hi, hi.baseAt, hr, ha, hh, vacated, ownCacheClear, freeListPush]
  · left
    push Not at hlive
    obtain ⟨r, hr⟩ := hashFind_total t.baseAt t.hashSlots base
    have hid : t.baseAt (mem base).segmentId ≠ base := fun he => by
      obtain ⟨hl, hs⟩ := (baseAt_eq_iff h0).mp he
      exact hlive _ hl hs
    cases r with
    | none => simp [recycle, hr]
    | some root => simp [recycle, hr, hid, scanSlot_eq_none h0 hlive]

/-- No call recycles the primordial slot: the source aborts instead. -/
theorem unregister_primordial {t : SegmentTable} {mem : ℕ → SegmentHeader} (h : t.Inv mem) :
    t.unregister mem (t.slots 0) = none := by
  have hz := h.live_zero
  simp only [unregister, unregisterSlot, h.ids 0 hz, hz.baseAt, if_true, Option.bind_eq_bind,
    Option.bind_some]
  cases hr : t.removeRoute 0 <;> simp

theorem recycle_primordial {t : SegmentTable} {mem : ℕ → SegmentHeader} (h : t.Inv mem)
    (hkey : t.key mem 0 = t.slots 0) : t.recycle mem (t.slots 0) = none := by
  have hz := h.live_zero
  have hfind := h.find_key hz
  rw [hkey] at hfind
  simp only [recycle, hfind, h.ids 0 hz, hz.baseAt, if_true, Option.bind_eq_bind, Option.bind_some]
  cases hr : t.removeRoute 0 <;> simp

/-! ## The freshly built table -/

/-- The memory at the primordial base when the table is built. -/
structure PrimordialHeader (mem : ℕ → SegmentHeader) (base : ℕ) : Prop where
  aligned : base % segment = 0
  ne : base ≠ 0
  segmentId : (mem base).segmentId = 0
  kind : (mem base).kind = .primordial
  payloadOffset : (mem base).payloadOffset = 0

lemma PrimordialHeader.key {mem : ℕ → SegmentHeader} {base : ℕ} (h : PrimordialHeader mem base)
    {t : SegmentTable} {i : ℕ} (hi : t.slots i = base) : t.key mem i = base := by
  rw [SegmentTable.key, hi, h.payloadOffset, Nat.add_zero, segmentBaseOfPtr_of_aligned h.aligned]

lemma hashRefines_bootstrap {base : ℕ} (ha : base % segment = 0) :
    HashRefines (bootstrapHash base) ((∅ : KeyMap).insert base 1) := by
  obtain ⟨h', hh', hr⟩ := hashRefines_empty.insert 1 (by decide) ha (by decide)
    (Nat.succ_ne_zero base) Finmap.notMem_empty
  have hh : h' = bootstrapHash base := by
    have hstep : hashInsertLoop (fun _ => 0) (base + 1) hashCapacity (hashIndex base) =
        some (bootstrapHash base) := by
      rw [show hashCapacity = 8191 + 1 from rfl, hashInsertLoop, if_pos rfl, bootstrapHash,
        aligned_or ha (by decide)]
    rw [hstep] at hh'
    exact (Option.some.inj hh').symm
  rwa [← hh]

/-- The table of `fromPrimordial` over the index `a`. -/
def primordialTable (base : ℕ) (a : ActiveKindIndex) : SegmentTable where
  routes := none
  slots := Function.update (fun _ => 0) 0 base
  activeKind := a
  ownCache _ := (emptyKey, 0)
  lastKey := emptyKey
  lastRoot := 0
  count := 1
  hashSlots := bootstrapHash base
  freeList _ := 0
  freeTop := 0

lemma primordialTable_slots (base : ℕ) (a : ActiveKindIndex) :
    (primordialTable base a).slots 0 = base := by
  simp [primordialTable]

lemma live_primordialTable {base : ℕ} (h0 : base ≠ 0) (a : ActiveKindIndex) (i : ℕ) :
    (primordialTable base a).Live i ↔ i = 0 := by
  rw [Live, show (primordialTable base a).count = 1 from rfl, Nat.lt_one_iff]
  refine and_iff_left_of_imp ?_
  rintro rfl
  rwa [primordialTable_slots]

theorem fromPrimordial_spec {mem : ℕ → SegmentHeader} {base : ℕ} (h : PrimordialHeader mem base) :
    ∃ t, fromPrimordial base = some t ∧ t.Inv mem ∧ t.slots 0 = base := by
  obtain ⟨a, ha, hex, hc⟩ := ActiveKindIndex.initInPlace_spec
  have hlive := live_primordialTable h.ne a
  have hs := primordialTable_slots base a
  have hkind : ActiveKindIndex.offsets (mem base).kind = some .small := by
    rw [h.kind, ActiveKindIndex.offsets]
  refine ⟨primordialTable base a, by rw [fromPrimordial, ha]; rfl, ?_, hs⟩
  refine ⟨Nat.one_pos, by simp [primordialTable, maxSegments], List.nodup_nil, fun i => ?_,
    fun i j hi hj _ => ?_, fun i hi => ?_, ⟨_, hashRefines_bootstrap h.aligned, fun k v => ?_⟩,
    hex, fun lane i => ?_, fun i hi => ?_, by rw [hs]; exact h.ne, fun rs hrs => ?_⟩
  · have hcount : (primordialTable base a).count = 1 := rfl
    rw [freeStack_eq_nil rfl, hcount, Nat.lt_one_iff]
    refine iff_of_false List.not_mem_nil ?_
    rintro ⟨rfl, hz⟩
    exact h.ne (hs.symm.trans hz)
  · rw [(hlive i).mp hi, (hlive j).mp hj]
  · obtain rfl := (hlive i).mp hi
    rw [hs, h.segmentId]
  · simp only [hlive, exists_eq_left, h.key hs]
    by_cases hkb : k = base
    · subst k
      rw [Finmap.lookup_insert]
      simp [eq_comm]
    · rw [Finmap.lookup_insert_of_ne _ hkb]
      simp [hkb]
  · change a.contains lane i = true ↔ _
    rw [hc, hlive, decide_eq_true_eq, and_comm]
    refine and_congr_right ?_
    rintro rfl
    rw [hs, hkind, Option.some.injEq, eq_comm]
  · obtain rfl := (hlive i).mp hi
    exact ⟨.small, by rw [hs, hkind]⟩
  · simp [primordialTable] at hrs

/-- Attaching the owner of a routed heap keeps the four views. -/
theorem attachOwner_spec {t t' : SegmentTable} {mem : ℕ → SegmentHeader} (h : t.Inv mem)
    {owner base : ℕ} {o : PrepareOracle} (ha : t.attachOwner owner base o = some t') :
    t'.Inv mem ∧ t'.slots = t.slots := by
  simp only [attachOwner] at ha
  split_ifs at ha with hc
  push Not at hc
  obtain ⟨-, hcount, -⟩ := hc
  obtain ⟨rs, hrs, rfl⟩ := Option.map_eq_some_iff.mp ha
  refine ⟨h.withRoutes ?_, rfl⟩
  rintro _ ⟨rfl⟩
  rw [RouteSlots.new] at hrs
  obtain ⟨hslots, -, hneeded⟩ := RouteSlots.prepare_spec ⟨fun _ => none, 0, owner⟩ 1 base
    .primordial base 0 o
  split at hrs
  · simp at hrs
  · rename_i rs₁ route heq
    rw [heq] at hslots hneeded
    simp only at hslots hneeded
    have hcap : 0 < rs₁.cap := hneeded rfl
    rw [RouteSlots.put, if_neg (not_le.mpr hcap), hslots, if_neg (by simp)] at hrs
    obtain rfl := Option.some.inj hrs
    refine ⟨by simp only; omega, fun i => ?_⟩
    have hz := h.live_zero
    by_cases hi : i = 0
    · subst i; simp [hz]
    · have hdead : ¬t.Live i := fun hl => hi (by have := hl.1; omega)
      simp [Function.update_of_ne hi, hdead]

/-! ## Whole runs -/

/-- A table together with the headers its owner has written. -/
structure World where
  table : SegmentTable
  mem : ℕ → SegmentHeader

/-- Calls on the table; a registration carries the header of the new segment. -/
inductive Call where
  | register (base payload : ℕ) (kind : SegmentKind) (reservation : ℕ × ℕ) (o : PrepareOracle)
  | unregister (base : ℕ)
  | recycle (base : ℕ)

/-- A successful registration is stamped into the segment's header by the caller. -/
def Call.run : Call → World → Option World
  | .register base payload kind reservation o, w =>
      (w.table.registerPayload base kind payload o).map fun
        | (none, t) => ⟨t, w.mem⟩
        | (some id, t) => ⟨t, Function.update w.mem base
            ⟨id, kind, payload - base, reservation.1, reservation.2⟩⟩
  | .unregister base, w => (w.table.unregister w.mem base).map fun t => ⟨t, w.mem⟩
  | .recycle base, w => (w.table.recycle w.mem base).map fun p => ⟨p.1, w.mem⟩

/-- The callers' contracts: a registered reservation is disjoint from the live ones,
`unregister` is given a live segment other than the primordial, and a live segment
given to `recycle` is a small one, keyed by its own base. Any other non-null address
may be recycled as well. -/
def Call.Legal (w : World) : Call → Prop
  | .register base payload _ _ _ => w.table.FreshSegment w.mem base payload
  | .unregister base => ∃ i, w.table.Live i ∧ i ≠ 0 ∧ w.table.slots i = base
  | .recycle base => base ≠ 0 ∧ base ≠ w.table.slots 0 ∧
      ∀ i, w.table.Live i → w.table.slots i = base → w.table.key w.mem i = base

def runCalls : List Call → World → Option World
  | [], w => some w
  | c :: cs, w => (c.run w).bind (runCalls cs)

/-- Every call meets its contract when it is made. -/
def LegalCalls : List Call → World → Prop
  | [], _ => True
  | c :: cs, w => c.Legal w ∧ ∀ w', c.run w = some w' → LegalCalls cs w'

/-- A table fresh from the bootstrap, standalone or with its owner attached. -/
def FreshTable (base : ℕ) (w : World) : Prop :=
  PrimordialHeader w.mem base ∧ ∃ t, fromPrimordial base = some t ∧
    (w.table = t ∨ ∃ owner o, t.attachOwner owner base o = some w.table)

/-- The four views of the table agree, and the primordial is in place. -/
structure Consistent (base : ℕ) (w : World) : Prop where
  /-- The free list is the set of null slots below `count`, each once. -/
  free_nodup : w.table.freeStack.Nodup
  mem_free : ∀ i, i ∈ w.table.freeStack ↔ i < w.table.count ∧ w.table.slots i = 0
  /-- A live slot has exactly one hash cell that stores its id, under its key. -/
  entry : ∀ i, w.table.Live i →
    ∃! x, x < hashCapacity ∧ entryId (w.table.hashSlots x) = i + 1
  entry_key : ∀ i, w.table.Live i → ∀ x < hashCapacity,
    entryId (w.table.hashSlots x) = i + 1 → segmentBaseOfPtr (w.table.hashSlots x) =
      w.table.key w.mem i
  /-- Every non-empty hash cell is the entry of a live slot. -/
  cells : ∀ x < hashCapacity, w.table.hashSlots x ≠ 0 →
    ∃ i, w.table.Live i ∧ entryId (w.table.hashSlots x) = i + 1
  found : ∀ i, w.table.Live i →
    hashFind w.table.baseAt w.table.hashSlots (w.table.key w.mem i) = some (some (w.table.slots i))
  /-- The bit of slot `i` is set in the set of its kind alone, and only while it is live. -/
  active : ∀ lane i, w.table.activeKind.contains lane i = true ↔
    w.table.Live i ∧ ActiveKindIndex.offsets (w.mem (w.table.slots i)).kind = some lane
  kind : ∀ i, w.table.Live i →
    ∃ lane, ActiveKindIndex.offsets (w.mem (w.table.slots i)).kind = some lane
  /-- Ids are the slot numbers, so no two live slots share one. -/
  ids : ∀ i, w.table.Live i → (w.mem (w.table.slots i)).segmentId = i
  ids_inj : ∀ i j, w.table.Live i → w.table.Live j →
    (w.mem (w.table.slots i)).segmentId = (w.mem (w.table.slots j)).segmentId → i = j
  primordial : w.table.Live 0 ∧ w.table.slots 0 = base

lemma Inv.entries {t : SegmentTable} {mem : ℕ → SegmentHeader} (h : t.Inv mem) :
    ∃ m, ExactMap t.hashSlots m ∧
      ∀ k v, m.lookup k = some v ↔ ∃ i, t.Live i ∧ v = i + 1 ∧ k = t.key mem i := by
  obtain ⟨m, hr, hm⟩ := h.hash
  exact ⟨m, hr.exactMap (lt_of_le_of_lt ((card_keys_le hm).trans h.count_le) (by decide)), hm⟩

theorem Inv.consistent {base : ℕ} {w : World} (h : w.table.Inv w.mem)
    (hbase : w.table.slots 0 = base) : Consistent base w := by
  obtain ⟨m, hx, hm⟩ := h.entries
  have hcell : ∀ x < hashCapacity, w.table.hashSlots x ≠ 0 → ∃ i, w.table.Live i ∧
      entryId (w.table.hashSlots x) = i + 1 ∧
      segmentBaseOfPtr (w.table.hashSlots x) = w.table.key w.mem i := fun x hlt hne =>
    (hm _ _).mp (hx.cells x hlt hne)
  have hne : ∀ x i, entryId (w.table.hashSlots x) = i + 1 → w.table.hashSlots x ≠ 0 := by
    intro x i he h0
    simp [h0, entryId] at he
  have hkey : ∀ i, w.table.Live i → ∀ x < hashCapacity,
      entryId (w.table.hashSlots x) = i + 1 → segmentBaseOfPtr (w.table.hashSlots x) =
        w.table.key w.mem i := by
    intro i _ x hlt he
    obtain ⟨j, _, hj, hk⟩ := hcell x hlt (hne x i he)
    obtain rfl : j = i := by omega
    exact hk
  refine ⟨h.free_nodup, h.mem_free, fun i hi => ?_, hkey, fun x hlt h0 => ?_, fun i hi =>
    h.find_key hi, h.active, h.known, h.ids, fun i j hi hj he => ?_, h.live_zero, hbase⟩
  · have hl := (hm _ _).mpr ⟨i, hi, rfl, rfl⟩
    obtain ⟨x, hlt, hxe, -⟩ := hx.reach _ _ hl
    have haligned : w.table.key w.mem i % segment = 0 := segmentBaseOfPtr_aligned _
    have hid : i + 1 < segment := by
      have := h.live_lt hi
      simp only [maxSegments, segment] at *
      omega
    have hx' : entryId (w.table.hashSlots x) = i + 1 := by
      rw [hxe, entryId_add haligned hid]
    refine ⟨x, ⟨hlt, hx'⟩, fun y hy => ?_⟩
    obtain ⟨hylt, hye⟩ := hy
    exact hx.nodup y hylt x hlt (hne y i hye) (hne x i hx')
      ((hkey i hi y hylt hye).trans (hkey i hi x hlt hx').symm)
  · obtain ⟨i, hi, he, -⟩ := hcell x hlt h0
    exact ⟨i, hi, he⟩
  · rwa [h.ids i hi, h.ids j hj] at he

/-- The primordial slot and its header are the same in both worlds. -/
def SamePrimordial (w w' : World) : Prop :=
  w'.table.slots 0 = w.table.slots 0 ∧ w'.mem (w.table.slots 0) = w.mem (w.table.slots 0)

/-- One legal call: it does not abort and keeps the invariant and the primordial. -/
theorem Call.run_spec (c : Call) {w : World} (h : w.table.Inv w.mem) (hl : c.Legal w) :
    ∃ w', c.run w = some w' ∧ w'.table.Inv w'.mem ∧ SamePrimordial w w' := by
  cases c with
  | register base payload kind reservation o =>
      rcases registerPayload_spec h hl kind o with ⟨t', hr, hinv⟩ | ⟨i, t', hr, h0, -, -, hs, hinv⟩
      · refine ⟨⟨t', w.mem⟩, by rw [Call.run, hr]; rfl, hinv, ?_, rfl⟩
        exact congrFun (registerPayload_none hr).slots 0
      · have hpay : base + (payload - base) = payload := Nat.add_sub_cancel' hl.payload_le
        refine ⟨_, by rw [Call.run, hr]; rfl, hinv _ rfl rfl hpay, ?_, ?_⟩
        · rw [hs, Function.update_of_ne (Ne.symm h0)]
        · exact Function.update_of_ne (hl.root 0 h.live_zero) _ _
  | unregister base =>
      obtain ⟨i, hi, h0, rfl⟩ := hl
      obtain ⟨routes, a, hash, hr, hinv⟩ := unregister_spec h hi h0
      exact ⟨⟨_, w.mem⟩, by rw [Call.run, hr]; rfl, hinv,
        Function.update_of_ne (Ne.symm h0) _ _, rfl⟩
  | recycle base =>
      obtain ⟨hne, hroot, hkey⟩ := hl
      rcases recycle_spec h hne hroot hkey with hr | ⟨i, routes, a, hash, -, h0, -, hr, hinv⟩
      · exact ⟨w, by rw [Call.run, hr]; rfl, h, rfl, rfl⟩
      · exact ⟨⟨_, w.mem⟩, by rw [Call.run, hr]; rfl, hinv,
          Function.update_of_ne (Ne.symm h0) _ _, rfl⟩

theorem runCalls_spec (cs : List Call) {w : World} (h : w.table.Inv w.mem)
    (hl : LegalCalls cs w) :
    ∃ w', runCalls cs w = some w' ∧ w'.table.Inv w'.mem ∧ SamePrimordial w w' := by
  induction cs generalizing w with
  | nil => exact ⟨w, rfl, h, rfl, rfl⟩
  | cons c cs ih =>
      obtain ⟨w₁, hr, h₁, hs₁, hm₁⟩ := c.run_spec h hl.1
      obtain ⟨w₂, hr₂, h₂, hs₂, hm₂⟩ := ih h₁ (hl.2 w₁ hr)
      rw [hs₁] at hm₂
      exact ⟨w₂, by rw [runCalls, hr, Option.bind_some, hr₂], h₂, hs₂.trans hs₁, hm₂.trans hm₁⟩

theorem FreshTable.inv {base : ℕ} {w : World} (h : FreshTable base w) :
    w.table.Inv w.mem ∧ w.table.slots 0 = base := by
  obtain ⟨hp, t, ht, hw⟩ := h
  obtain ⟨t', ht', hinv, hs⟩ := fromPrimordial_spec hp
  obtain rfl : t' = t := Option.some.inj (ht'.symm.trans ht)
  rcases hw with hw | ⟨owner, o, ha⟩
  · rw [hw]
    exact ⟨hinv, hs⟩
  · obtain ⟨hinv', hs'⟩ := attachOwner_spec hinv ha
    exact ⟨hinv', by rw [hs', hs]⟩

/-- After every legal run on a fresh table the views agree; the primordial cannot be
removed; and a registration that fails leaves all four views as they were. -/
theorem runCalls_consistent (cs : List Call) {base : ℕ} {w : World} (hf : FreshTable base w)
    (hl : LegalCalls cs w) :
    ∃ w', runCalls cs w = some w' ∧ Consistent base w' ∧
      w'.table.unregister w'.mem base = none ∧ w'.table.recycle w'.mem base = none ∧
      ∀ root payload kind o t, w'.table.registerPayload root kind payload o = some (none, t) →
        SameViews w'.table t := by
  obtain ⟨hinv, hs⟩ := hf.inv
  obtain ⟨w', hr, hinv', hs', hm⟩ := runCalls_spec cs hinv hl
  obtain rfl : w'.table.slots 0 = base := hs'.trans hs
  rw [hs] at hm
  have hkey : w'.table.key w'.mem 0 = w'.table.slots 0 := by
    rw [SegmentTable.key, hm, hf.1.payloadOffset, Nat.add_zero,
      segmentBaseOfPtr_of_aligned hf.1.aligned]
  exact ⟨w', hr, hinv'.consistent rfl, unregister_primordial hinv',
    recycle_primordial hinv' hkey, fun _ _ _ _ _ => registerPayload_none⟩

/-- Headers of a standalone heap whose primordial segment is at `segment`. -/
def primordialMem (_ : ℕ) : SegmentHeader := ⟨0, .primordial, 0, segment, segment⟩

/-- A small segment is registered and recycled on a standalone heap. -/
def recycleRun : List Call :=
  [.register (2 * segment) (2 * segment) .small (2 * segment, segment) ⟨true, none⟩,
    .recycle (2 * segment)]

theorem recycleRun_consistent : ∃ a w', ActiveKindIndex.initInPlace = some a ∧
    runCalls recycleRun ⟨primordialTable segment a, primordialMem⟩ = some w' ∧
    Consistent segment w' ∧ w'.table.unregister w'.mem segment = none ∧
    w'.table.recycle w'.mem segment = none ∧
    ∀ root payload kind o t, w'.table.registerPayload root kind payload o = some (none, t) →
      SameViews w'.table t := by
  obtain ⟨a, ha, -⟩ := ActiveKindIndex.initInPlace_spec
  have hs0 := primordialTable_slots segment a
  have hlive := live_primordialTable (show segment ≠ 0 by decide) a
  have hf : FreshTable segment ⟨primordialTable segment a, primordialMem⟩ :=
    ⟨⟨by decide, by decide, rfl, rfl, rfl⟩, _, by rw [fromPrimordial, ha]; rfl, .inl rfl⟩
  have hfresh : (primordialTable segment a).FreshSegment primordialMem (2 * segment)
      (2 * segment) := by
    refine ⟨by decide, le_rfl, fun j hj => ?_, fun j hj => ?_⟩ <;> rw [(hlive j).mp hj]
    · rw [hs0]
      decide
    · rw [key, hs0]
      decide
  have hl : LegalCalls recycleRun ⟨primordialTable segment a, primordialMem⟩ := by
    refine ⟨hfresh, fun w₁ hr => ⟨?_, fun _ _ => trivial⟩⟩
    obtain ⟨w, hw, -, hs, -⟩ := Call.run_spec (.register (2 * segment) (2 * segment) .small
      (2 * segment, segment) ⟨true, none⟩) hf.inv.1 hfresh
    obtain rfl : w = w₁ := Option.some.inj (hw.symm.trans hr)
    refine ⟨by decide, by rw [hs, hs0]; decide, fun i hi he => ?_⟩
    obtain ⟨⟨r, t⟩, ht, rfl⟩ := Option.map_eq_some_iff.mp hw
    cases r with
    | some id => rw [key, he]; simp only [Function.update_self]; decide
    | none =>
        have hv := registerPayload_none ht
        simp only [Live, hv.count, hv.slots] at hi he
        rw [(hlive i).mp hi, hs0] at he
        exact absurd he (by decide)
  obtain ⟨w', hr⟩ := runCalls_consistent recycleRun hf hl
  exact ⟨a, w', ha, hr⟩

end SegmentTable

end SeferAlloc
