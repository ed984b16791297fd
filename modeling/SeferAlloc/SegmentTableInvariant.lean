import SeferAlloc.SegmentTable

/-!
# Consistency of the segment table

One invariant ties the slot array to the free list, the hash, the active-kind
index and the route handles. Registration fills one dead slot and removal
vacates one live slot; each is one lemma, and every table call is an instance.
-/
namespace SeferAlloc
namespace SegmentTable
open LinearProbing

/-- Slot `i` is below the high-water mark and holds a segment. -/
def Live (t : SegmentTable) (i : ℕ) : Prop := i < t.count ∧ t.slots i ≠ 0

/-- The payload key of the segment in slot `i`. -/
def key (t : SegmentTable) (mem : ℕ → SegmentHeader) (i : ℕ) : ℕ :=
  segmentBaseOfPtr (t.slots i + (mem (t.slots i)).payloadOffset)

/-- The recycled ids, bottom of the stack first. -/
def freeStack (t : SegmentTable) : List ℕ := (List.range t.freeTop).map t.freeList

instance (t : SegmentTable) (i : ℕ) : Decidable (t.Live i) := inferInstanceAs (Decidable (_ ∧ _))

lemma live_iff_baseAt (t : SegmentTable) (i : ℕ) : t.Live i ↔ t.baseAt i ≠ 0 := by
  simp only [Live, baseAt]
  split_ifs with h
  · simp [not_lt.mpr h]
  · simp [not_le.mp h]

lemma Live.baseAt {t : SegmentTable} {i : ℕ} (h : t.Live i) : t.baseAt i = t.slots i :=
  if_neg (not_le.mpr h.1)

lemma baseAt_eq_iff {t : SegmentTable} {i base : ℕ} (h0 : base ≠ 0) :
    t.baseAt i = base ↔ t.Live i ∧ t.slots i = base := by
  constructor
  · intro h
    have hl := (t.live_iff_baseAt i).mpr (by rwa [h])
    exact ⟨hl, by rw [← h, hl.baseAt]⟩
  · rintro ⟨hl, rfl⟩
    exact hl.baseAt

/-! ## The free-list stack -/

lemma freeStack_push (t : SegmentTable) (i : ℕ) :
    (t.freeListPush i).freeStack = t.freeStack ++ [i] := by
  have h : (List.range t.freeTop).map (Function.update t.freeList t.freeTop i) =
      (List.range t.freeTop).map t.freeList :=
    List.map_congr_left fun p hp =>
      Function.update_of_ne (Nat.ne_of_lt (List.mem_range.mp hp)) _ _
  simp only [freeStack, freeListPush, List.range_succ, List.map_append, h, List.map_singleton,
    Function.update_self]

lemma freeStack_pop {t : SegmentTable} (h : t.freeTop ≠ 0) :
    t.freeStack = (t.freeListPop.2).freeStack ++ [t.freeList (t.freeTop - 1)] := by
  obtain ⟨n, hn⟩ := Nat.exists_eq_succ_of_ne_zero h
  simp [freeStack, freeListPop, hn, List.range_succ]

lemma freeStack_eq_nil {t : SegmentTable} (h : t.freeTop = 0) : t.freeStack = [] := by
  simp [freeStack, h]

/-! ## The invariant -/

/-- The hash holds exactly the live slots, each under its own key. -/
def HashExact (t : SegmentTable) (mem : ℕ → SegmentHeader) : Prop :=
  ∃ m, HashRefines t.hashSlots m ∧
    ∀ k v, m.lookup k = some v ↔ ∃ i, t.Live i ∧ v = i + 1 ∧ k = t.key mem i

/-- Mutual consistency of all views of the table. -/
structure Inv (t : SegmentTable) (mem : ℕ → SegmentHeader) : Prop where
  count_pos : 0 < t.count
  count_le : t.count ≤ maxSegments
  free_nodup : t.freeStack.Nodup
  mem_free : ∀ i, i ∈ t.freeStack ↔ i < t.count ∧ t.slots i = 0
  slots_inj : ∀ i j, t.Live i → t.Live j → t.slots i = t.slots j → i = j
  ids : ∀ i, t.Live i → (mem (t.slots i)).segmentId = i
  hash : t.HashExact mem
  exact : t.activeKind.Exact
  active : ∀ lane i, t.activeKind.contains lane i = true ↔
    t.Live i ∧ ActiveKindIndex.offsets (mem (t.slots i)).kind = some lane
  known : ∀ i, t.Live i → ∃ lane, ActiveKindIndex.offsets (mem (t.slots i)).kind = some lane
  root : t.slots 0 ≠ 0
  routed : ∀ rs, t.routes = some rs →
    t.count ≤ rs.cap ∧ ∀ i, (rs.slots i).isSome = true ↔ t.Live i

lemma removeRoute_none {t : SegmentTable} (h : t.routes = none) (i : ℕ) :
    t.removeRoute i = some { t with routes := none } := by
  cases t
  subst h
  rfl

/-- The slots differ at `i` only, and the marks around it agree. -/
structure SlotWrite (t t' : SegmentTable) (i v : ℕ) : Prop where
  slots : t'.slots = Function.update t.slots i v
  lt : i < t'.count
  count : ∀ j, j ≠ i → (j < t'.count ↔ j < t.count)

namespace SlotWrite
variable {t t' : SegmentTable} {i v : ℕ}

lemma slots_ne (h : SlotWrite t t' i v) {j : ℕ} (hj : j ≠ i) : t'.slots j = t.slots j := by
  rw [h.slots, Function.update_of_ne hj]

lemma slots_self (h : SlotWrite t t' i v) : t'.slots i = v := by
  rw [h.slots, Function.update_self]

lemma live_ne (h : SlotWrite t t' i v) {j : ℕ} (hj : j ≠ i) : t'.Live j ↔ t.Live j := by
  simp only [Live, h.slots_ne hj, h.count j hj]

lemma live_self (h : SlotWrite t t' i v) : t'.Live i ↔ v ≠ 0 := by
  simp only [Live, h.slots_self, h.lt, true_and]

end SlotWrite

lemma card_keys_le {t : SegmentTable} {mem : ℕ → SegmentHeader} {m : KeyMap}
    (hm : ∀ k v, m.lookup k = some v ↔ ∃ i, t.Live i ∧ v = i + 1 ∧ k = t.key mem i) :
    m.keys.card ≤ t.count := by
  have hle : m.keys.card ≤ (Finset.range t.count).card := by
    apply Finset.card_le_card_of_injOn fun k => (m.lookup k).getD 0 - 1
    · intro k hk
      obtain ⟨v, hv⟩ := Option.isSome_iff_exists.mp
        (Finmap.lookup_isSome.mpr (Finmap.mem_keys.mp hk))
      obtain ⟨i, hi, rfl, -⟩ := (hm k v).mp hv
      simpa [hv] using hi.1
    · intro k hk l hl heq
      obtain ⟨v, hv⟩ := Option.isSome_iff_exists.mp
        (Finmap.lookup_isSome.mpr (Finmap.mem_keys.mp hk))
      obtain ⟨w, hw⟩ := Option.isSome_iff_exists.mp
        (Finmap.lookup_isSome.mpr (Finmap.mem_keys.mp hl))
      obtain ⟨i, -, rfl, rfl⟩ := (hm k v).mp hv
      obtain ⟨j, -, rfl, rfl⟩ := (hm l w).mp hw
      simp only [hv, hw, Option.getD_some, Nat.add_sub_cancel] at heq
      rw [heq]
  simpa using hle

namespace Inv
variable {t : SegmentTable} {mem : ℕ → SegmentHeader}

lemma live_zero (h : t.Inv mem) : t.Live 0 := ⟨h.count_pos, h.root⟩

lemma live_lt (h : t.Inv mem) {i : ℕ} (hi : t.Live i) : i < maxSegments :=
  lt_of_lt_of_le hi.1 h.count_le

lemma contains_false (h : t.Inv mem) {i : ℕ} (hi : ¬t.Live i) (lane : ActiveLane) :
    t.activeKind.contains lane i = false := by
  rw [← Bool.not_eq_true, h.active]
  exact fun hl => hi hl.1

/-- Two live slots under one key are the same slot. -/
lemma key_inj (h : t.Inv mem) {i j : ℕ} (hi : t.Live i) (hj : t.Live j)
    (hk : t.key mem i = t.key mem j) : i = j := by
  obtain ⟨m, _, hm⟩ := h.hash
  have h1 := (hm (t.key mem i) (i + 1)).mpr ⟨i, hi, rfl, rfl⟩
  have h2 := (hm (t.key mem i) (j + 1)).mpr ⟨j, hj, rfl, hk⟩
  rw [h1] at h2
  simpa using h2

/-- A lookup by payload key answers the root registered under it. -/
lemma find_key (h : t.Inv mem) {i : ℕ} (hi : t.Live i) :
    hashFind t.baseAt t.hashSlots (t.key mem i) = some (some (t.slots i)) := by
  obtain ⟨m, hr, hm⟩ := h.hash
  have hcard : m.keys.card < hashCapacity :=
    lt_of_le_of_lt ((card_keys_le hm).trans h.count_le) (by decide)
  have hx := hr.exactMap hcard
  have := hx.find_live t.baseAt _ _ ((hm _ _).mpr ⟨i, hi, rfl, rfl⟩)
    ((t.live_iff_baseAt i).mp hi)
  rwa [hi.baseAt] at this

end Inv

/-- Filling one dead slot with a fresh root under a fresh key. -/
theorem Inv.fill {t : SegmentTable} {mem : ℕ → SegmentHeader} (h : t.Inv mem)
    (t₁ : SegmentTable) (route : Option Route) (lane : ActiveLane) {i base : ℕ}
    {hdr : SegmentHeader} (hlive : ¬t.Live i) (hw : SlotWrite t t₁ i base) (hbase : base ≠ 0)
    (hroot : ∀ j, t.Live j → t.slots j ≠ base)
    (hkey : ∀ j, t.Live j → t.key mem j ≠ segmentBaseOfPtr (base + hdr.payloadOffset))
    (hid : hdr.segmentId = i) (hkind : ActiveKindIndex.offsets hdr.kind = some lane)
    (hcount : t.count ≤ t₁.count ∧ t₁.count ≤ maxSegments)
    (hfree : t₁.freeStack.Nodup ∧ ∀ j, j ∈ t₁.freeStack ↔ j ≠ i ∧ j < t.count ∧ t.slots j = 0)
    (hhash : t₁.hashSlots = t.hashSlots) (hactive : t₁.activeKind = t.activeKind)
    (hroutes : ∀ rs, t₁.routes = some rs → route.isSome ∧ t₁.count ≤ rs.cap ∧
      ∀ j, (rs.slots j).isSome = true ↔ t.Live j)
    (hnone : t₁.routes = none → route = none) :
    ∃ t', finishRegister t₁ i (segmentBaseOfPtr (base + hdr.payloadOffset)) route hdr.kind =
        some t' ∧ t'.Inv (Function.update mem base hdr) ∧ t'.slots = t₁.slots ∧
        t'.count = t₁.count := by
  set key' := segmentBaseOfPtr (base + hdr.payloadOffset) with hkey'
  have hi : i < maxSegments := lt_of_lt_of_le hw.lt hcount.2
  -- The hash.
  obtain ⟨m, hr, hm⟩ := h.hash
  have hcard : m.keys.card < hashCapacity :=
    lt_of_le_of_lt ((card_keys_le hm).trans h.count_le) (by decide)
  have hfresh : key' ∉ m := fun hmem => by
    obtain ⟨v, hv⟩ := Option.isSome_iff_exists.mp (Finmap.lookup_isSome.mpr hmem)
    obtain ⟨j, hj, -, hk⟩ := (hm _ _).mp hv
    exact hkey j hj hk.symm
  have hid' : i + 1 < segment := by simp only [maxSegments, segment] at *; omega
  obtain ⟨hash', hins, hr'⟩ := hr.insert (i + 1) hcard (segmentBaseOfPtr_aligned _) hid' (by omega) hfresh
  have hins' : hashInsertIdentity t₁.hashSlots key' i = some hash' := by
    rw [hhash, hashInsertIdentity, aligned_or (segmentBaseOfPtr_aligned _) hid', hins]
  -- The active-kind index.
  obtain ⟨a', ha', hex, hc⟩ := ActiveKindIndex.set_spec h.exact hi hkind (h.contains_false hlive)
  -- The route.
  obtain ⟨routes', hput, hrt⟩ : ∃ routes', putRoute { t₁ with hashSlots := hash' } i route =
      some { t₁ with hashSlots := hash', routes := routes' } ∧
      ∀ rs, routes' = some rs → t₁.count ≤ rs.cap ∧
        ∀ j, (rs.slots j).isSome = true ↔ t.Live j ∨ j = i := by
    cases hrs : t₁.routes with
    | none => exact ⟨none, by simp [putRoute, hnone hrs, ← hrs], fun rs hrs' => by simp at hrs'⟩
    | some rs =>
        obtain ⟨hsome, hcap, hslots⟩ := hroutes rs hrs
        obtain ⟨r, hr⟩ := Option.isSome_iff_exists.mp hsome
        have hempty : (rs.slots i).isSome = false := by
          rw [← Bool.not_eq_true, hslots]; exact hlive
        have hlt := hw.lt
        refine ⟨some { rs with slots := Function.update rs.slots i (some r) }, ?_, ?_⟩
        · simp [putRoute, hr, RouteSlots.put, hempty, not_le.mpr (lt_of_lt_of_le hlt hcap)]
        · rintro _ ⟨rfl⟩
          refine ⟨hcap, fun j => ?_⟩
          by_cases hj : j = i
          · subst j; simp
          · simp only [Function.update_of_ne hj, hslots, hj, or_false]
  have hmem : ∀ j, j ≠ i → t.Live j →
      Function.update mem base hdr (t.slots j) = mem (t.slots j) := fun j _ hj =>
    Function.update_of_ne (hroot j hj) _ _
  have hlive' : ∀ j, t₁.Live j ↔ t.Live j ∨ j = i := fun j => by
    by_cases hj : j = i
    · subst j; simp [hw.live_self, hbase]
    · simp [hw.live_ne hj, hj]
  refine ⟨{ t₁ with hashSlots := hash', routes := routes', activeKind := a' }, ?_, ?_, rfl, rfl⟩
  · have ha₁ : t₁.activeKind.set i hdr.kind = some a' := by rw [hactive, ha']
    simp [finishRegister, hins', hput, ha₁]
  refine ⟨lt_of_lt_of_le h.count_pos hcount.1, hcount.2, hfree.1, fun j => ?_, fun j k hj hk => ?_,
    fun j hj => ?_, ⟨m.insert key' (i + 1), hr', fun k v => ?_⟩, hex, fun l j => ?_, fun j hj => ?_,
    ?_, fun rs hrs => ?_⟩
  · change j ∈ t₁.freeStack ↔ j < t₁.count ∧ t₁.slots j = 0
    rw [hfree.2 j]
    by_cases hj : j = i
    · subst j; simp [hw.slots_self, hbase]
    · simp [hj, hw.slots_ne hj, hw.count j hj]
  · change t₁.Live j at hj
    change t₁.Live k at hk
    change t₁.slots j = t₁.slots k → j = k
    by_cases hji : j = i <;> by_cases hki : k = i
    · rw [hji, hki]; exact fun _ => rfl
    · rw [hji, hw.slots_self, hw.slots_ne hki]
      exact fun he => absurd he.symm (hroot k ((hw.live_ne hki).mp hk))
    · rw [hki, hw.slots_self, hw.slots_ne hji]
      exact fun he => absurd he (hroot j ((hw.live_ne hji).mp hj))
    · rw [hw.slots_ne hji, hw.slots_ne hki]
      exact h.slots_inj j k ((hw.live_ne hji).mp hj) ((hw.live_ne hki).mp hk)
  · change t₁.Live j at hj
    change (Function.update mem base hdr (t₁.slots j)).segmentId = j
    by_cases hji : j = i
    · rw [hji, hw.slots_self, Function.update_self, hid]
    · have hl := (hw.live_ne hji).mp hj
      rw [hw.slots_ne hji, hmem j hji hl, h.ids j hl]
  · change _ ↔ ∃ j, t₁.Live j ∧ v = j + 1 ∧
      k = segmentBaseOfPtr (t₁.slots j + (Function.update mem base hdr (t₁.slots j)).payloadOffset)
    by_cases hk : k = key'
    · subst k
      rw [Finmap.lookup_insert]
      constructor
      · intro hv
        refine ⟨i, (hlive' i).mpr (.inr rfl), (Option.some.inj hv).symm, ?_⟩
        rw [hw.slots_self, Function.update_self]
      · rintro ⟨j, hj, rfl, hkj⟩
        by_cases hji : j = i
        · rw [hji]
        · have hl := (hw.live_ne hji).mp hj
          rw [hw.slots_ne hji, hmem j hji hl] at hkj
          exact absurd hkj.symm (hkey j hl)
    · rw [Finmap.lookup_insert_of_ne _ hk, hm]
      constructor
      · rintro ⟨j, hj, hv, hkj⟩
        have hji : j ≠ i := fun e => hlive (e ▸ hj)
        refine ⟨j, (hlive' j).mpr (.inl hj), hv, ?_⟩
        rw [hw.slots_ne hji, hmem j hji hj]
        exact hkj
      · rintro ⟨j, hj, hv, hkj⟩
        by_cases hji : j = i
        · subst j
          rw [hw.slots_self, Function.update_self] at hkj
          exact absurd hkj hk
        · have hl := (hw.live_ne hji).mp hj
          rw [hw.slots_ne hji, hmem j hji hl] at hkj
          exact ⟨j, hl, hv, hkj⟩
  · change a'.contains l j = true ↔ t₁.Live j ∧
      ActiveKindIndex.offsets (Function.update mem base hdr (t₁.slots j)).kind = some l
    rw [hc l j]
    by_cases hji : j = i
    · subst j
      rw [h.contains_false hlive, hw.live_self, hw.slots_self, Function.update_self, hkind]
      simp [hbase, eq_comm]
    · simp only [hji, and_false, decide_false, Bool.false_or, h.active, hw.live_ne hji,
        hw.slots_ne hji]
      exact and_congr_right fun hl => by rw [hmem j hji hl]
  · change t₁.Live j at hj
    change ∃ l, ActiveKindIndex.offsets (Function.update mem base hdr (t₁.slots j)).kind = some l
    by_cases hji : j = i
    · exact ⟨lane, by rw [hji, hw.slots_self, Function.update_self, hkind]⟩
    · have hl := (hw.live_ne hji).mp hj
      rw [hw.slots_ne hji, hmem j hji hl]
      exact h.known j hl
  · change t₁.slots 0 ≠ 0
    have h0 : (0 : ℕ) ≠ i := fun e => hlive (e ▸ h.live_zero)
    rw [hw.slots_ne h0]
    exact h.root
  · obtain ⟨hcap, hslots⟩ := hrt rs hrs
    exact ⟨hcap, fun j => (hslots j).trans (hlive' j).symm⟩

/-- The table after slot `i`, which held `base`, is vacated. -/
def vacated (t : SegmentTable) (i base : ℕ) (routes : Option RouteSlots) (a : ActiveKindIndex)
    (hash : HashSlots) : SegmentTable :=
  (({ t with
      routes := routes
      activeKind := a
      slots := Function.update t.slots i 0
      hashSlots := hash } : SegmentTable).ownCacheClear base).freeListPush i

/-- Vacating a live slot other than the primordial's. -/
theorem Inv.vacate {t : SegmentTable} {mem : ℕ → SegmentHeader} (h : t.Inv mem) {i : ℕ}
    (hi : t.Live i) (h0 : i ≠ 0) :
    ∃ routes a hash, t.removeRoute i = some { t with routes := routes } ∧
      t.activeKind.clear i (mem (t.slots i)).kind = some a ∧
      hashRemove t.hashSlots (t.key mem i) = some hash ∧
      (t.vacated i (t.slots i) routes a hash).Inv mem := by
  obtain ⟨m, hr, hm⟩ := h.hash
  have hcard : m.keys.card < hashCapacity :=
    lt_of_le_of_lt ((card_keys_le hm).trans h.count_le) (by decide)
  obtain ⟨hash', hrem, hr'⟩ := hr.remove hcard (t.key mem i)
  obtain ⟨lane, hlane⟩ := h.known i hi
  obtain ⟨a', ha', hex, hc⟩ := ActiveKindIndex.clear_spec h.exact h0 (h.live_lt hi) hlane
    ((h.active lane i).mpr ⟨hi, hlane⟩)
  obtain ⟨routes', hremove, hrt⟩ : ∃ routes', t.removeRoute i = some { t with routes := routes' } ∧
      ∀ rs, routes' = some rs → t.count ≤ rs.cap ∧
        ∀ j, (rs.slots j).isSome = true ↔ t.Live j ∧ j ≠ i := by
    cases hrs : t.routes with
    | none => exact ⟨none, removeRoute_none hrs i, fun rs hrs' => by simp at hrs'⟩
    | some rs =>
        obtain ⟨hcap, hslots⟩ := h.routed rs hrs
        have hheld : (rs.slots i).isNone = false := by
          rw [← Option.not_isSome, (hslots i).mpr hi]; rfl
        refine ⟨some { rs with slots := Function.update rs.slots i none }, ?_, ?_⟩
        · simp [removeRoute, hrs, RouteSlots.remove, hheld,
            not_le.mpr (lt_of_lt_of_le hi.1 hcap)]
        · rintro _ ⟨rfl⟩
          refine ⟨hcap, fun j => ?_⟩
          by_cases hj : j = i
          · subst j; simp
          · simp only [Function.update_of_ne hj, hslots, hj, ne_eq, not_false_eq_true, and_true]
  refine ⟨routes', a', hash', hremove, ha', hrem, ?_⟩
  have hw : SlotWrite t (t.vacated i (t.slots i) routes' a' hash') i 0 :=
    ⟨rfl, hi.1, fun _ _ => Iff.rfl⟩
  have hlive' : ∀ j, (t.vacated i (t.slots i) routes' a' hash').Live j ↔ t.Live j ∧ j ≠ i :=
    fun j => by
      by_cases hj : j = i
      · subst j; simp [hw.live_self]
      · simp [hw.live_ne hj, hj]
  have hkey' : ∀ j, j ≠ i →
      (t.vacated i (t.slots i) routes' a' hash').key mem j = t.key mem j := fun j hj => by
    rw [key, key, hw.slots_ne hj]
  have hstack : (t.vacated i (t.slots i) routes' a' hash').freeStack = t.freeStack ++ [i] :=
    freeStack_push _ _
  refine ⟨h.count_pos, h.count_le, ?_, fun j => ?_, fun j k hj hk => ?_, fun j hj => ?_,
    ⟨m.erase (t.key mem i), hr', fun k v => ?_⟩, hex, fun l j => ?_, fun j hj => ?_, ?_,
    fun rs hrs => ?_⟩
  · rw [hstack, List.nodup_append]
    refine ⟨h.free_nodup, List.nodup_singleton i, fun a ha b hb => ?_⟩
    rw [List.mem_singleton] at hb
    rintro rfl
    exact hi.2 ((h.mem_free i).mp (hb ▸ ha)).2
  · rw [hstack, List.mem_append, List.mem_singleton, h.mem_free]
    by_cases hj : j = i
    · subst j
      exact iff_of_true (.inr rfl) ⟨hi.1, hw.slots_self⟩
    · simp only [hj, or_false, hw.slots_ne hj]
      rfl
  · obtain ⟨hj, hji⟩ := (hlive' j).mp hj
    obtain ⟨hk, hki⟩ := (hlive' k).mp hk
    rw [hw.slots_ne hji, hw.slots_ne hki]
    exact h.slots_inj j k hj hk
  · obtain ⟨hj, hji⟩ := (hlive' j).mp hj
    rw [hw.slots_ne hji]
    exact h.ids j hj
  · by_cases hk : k = t.key mem i
    · rw [hk, Finmap.lookup_erase]
      simp only [reduceCtorEq, false_iff]
      rintro ⟨j, hj, -, hkj⟩
      obtain ⟨hj, hji⟩ := (hlive' j).mp hj
      rw [hkey' j hji] at hkj
      exact hji (h.key_inj hj hi hkj.symm)
    · rw [Finmap.lookup_erase_ne hk, hm]
      constructor
      · rintro ⟨j, hj, hv, hkj⟩
        have hji : j ≠ i := by rintro rfl; exact hk hkj
        exact ⟨j, (hlive' j).mpr ⟨hj, hji⟩, hv, by rw [hkey' j hji, hkj]⟩
      · rintro ⟨j, hj, hv, hkj⟩
        obtain ⟨hj, hji⟩ := (hlive' j).mp hj
        exact ⟨j, hj, hv, by rw [hkj, hkey' j hji]⟩
  · change a'.contains l j = true ↔ _
    rw [hc l j]
    by_cases hji : j = i
    · subst j
      rw [hlive']
      simp only [ne_eq, not_true_eq_false, and_false, false_and, iff_false]
      by_cases hl : l = lane
      · simp [hl]
      · have hnot : t.activeKind.contains l i = false := by
          rw [← Bool.not_eq_true, h.active]
          rintro ⟨-, he⟩
          rw [hlane] at he
          exact hl (Option.some.inj he).symm
        simp [hnot]
    · simp only [hji, and_false, decide_false, Bool.not_false, Bool.true_and, h.active, hlive',
        hw.slots_ne hji, ne_eq, not_false_eq_true, and_true]
  · obtain ⟨hj, hji⟩ := (hlive' j).mp hj
    rw [hw.slots_ne hji]
    exact h.known j hj
  · rw [hw.slots_ne (Ne.symm h0)]
    exact h.root
  · obtain ⟨hcap, hslots⟩ := hrt rs hrs
    exact ⟨hcap, fun j => (hslots j).trans (hlive' j).symm⟩

end SegmentTable

end SeferAlloc
