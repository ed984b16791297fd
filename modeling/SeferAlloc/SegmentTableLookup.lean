import SeferAlloc.SegmentTableRuns

/-!
# Cached ownership lookup

The memo of the last exact hit and the direct-mapped owner cache stand before
the hash. Both only ever hold pairs that the hash would answer: a registration
adds a key no entry can hold, and a removal clears every entry of its root.
-/
namespace SeferAlloc
namespace SegmentTable

/-- `index_of`: the direct-mapped cache line of an address. -/
def cacheIndex (addr : ℕ) : ℕ := (addr >>> segmentShift) &&& (ownCacheSize - 1)

lemma cacheIndex_lt (addr : ℕ) : cacheIndex addr < ownCacheSize :=
  lt_of_le_of_lt Nat.and_le_right (by decide)

/-- The read-only lookup: memo, owner cache, hash. -/
def canonicalBaseOf (t : SegmentTable) (key : ℕ) : Option (Option ℕ) :=
  if t.lastKey = key then some (some t.lastRoot)
  else
    let cached := t.ownCache (cacheIndex key)
    if cached.1 = key then some (some cached.2)
    else hashFind t.baseAt t.hashSlots key

/-- The same lookup on the owner's table. An exact cache hit arms the memo, and a
successful probe of the hash fills the cache. -/
def canonicalBaseOfMut (t : SegmentTable) (key : ℕ) : Option (Option ℕ × SegmentTable) :=
  if t.lastKey = key then some (some t.lastRoot, t)
  else
    let cached := t.ownCache (cacheIndex key)
    if cached.1 = key then
      if cached.2 = key then some (some cached.2, { t with lastKey := key, lastRoot := cached.2 })
      else some (some cached.2, t)
    else
      (hashFind t.baseAt t.hashSlots key).map fun
        | none => (none, t)
        | some root => (some root,
            { t with ownCache := Function.update t.ownCache (cacheIndex key) (key, root) })

def containsBase (t : SegmentTable) (base : ℕ) : Option (Bool × SegmentTable) :=
  (t.canonicalBaseOfMut base).map fun p => (p.1.isSome, p.2)

def containsBaseRo (t : SegmentTable) (base : ℕ) : Option Bool :=
  (t.canonicalBaseOf base).map Option.isSome

/-- The memo of the own-free lane. -/
def memo (t : SegmentTable) : ℕ × ℕ := (t.lastKey, t.lastRoot)

/-- The second chance of the own-free lane after a memo miss. -/
def probeArm (t : SegmentTable) (key : ℕ) : Option ℕ × SegmentTable :=
  let cached := t.ownCache (cacheIndex key)
  if cached.1 = key ∧ cached.2 = key then
    (some cached.2, { t with lastKey := key, lastRoot := cached.2 })
  else (none, t)

/-- `root` is the base of a live segment registered under `key`. -/
def Names (t : SegmentTable) (mem : ℕ → SegmentHeader) (key root : ℕ) : Prop :=
  ∃ i, t.Live i ∧ t.key mem i = key ∧ t.slots i = root

/-- The hash answers a root exactly for the keys of the live segments. -/
theorem Inv.hashFind_iff {t : SegmentTable} {mem : ℕ → SegmentHeader} (h : t.Inv mem)
    (key root : ℕ) :
    hashFind t.baseAt t.hashSlots key = some (some root) ↔ t.Names mem key root := by
  constructor
  · intro hf
    obtain ⟨m, hx, hm⟩ := h.entries
    cases hl : m.lookup key with
    | none => simp [hx.find_absent t.baseAt key hl] at hf
    | some v =>
        obtain ⟨i, hi, -, rfl⟩ := (hm key v).mp hl
        rw [h.find_key hi] at hf
        exact ⟨i, hi, rfl, by simpa using hf⟩
  · rintro ⟨i, hi, rfl, rfl⟩
    exact h.find_key hi

/-! ## The entries -/

/-- Every filled cache line and an armed memo name a live segment. -/
structure CacheExact (t : SegmentTable) (mem : ℕ → SegmentHeader) : Prop where
  own : ∀ i < ownCacheSize, (t.ownCache i).1 ≠ emptyKey →
     t.Names mem (t.ownCache i).1 (t.ownCache i).2
  memo : t.lastKey ≠ emptyKey → t.Names mem t.lastKey t.lastRoot

/-- Cache and memo are unchanged. -/
structure SameCaches (t t' : SegmentTable) : Prop where
  ownCache : t'.ownCache = t.ownCache
  lastKey : t'.lastKey = t.lastKey
  lastRoot : t'.lastRoot = t.lastRoot

lemma SameCaches.refl (t : SegmentTable) : SameCaches t t := ⟨rfl, rfl, rfl⟩

lemma SameCaches.trans {t₁ t₂ t₃ : SegmentTable} (h : SameCaches t₁ t₂) (h' : SameCaches t₂ t₃) :
    SameCaches t₁ t₃ :=
  ⟨h'.ownCache.trans h.ownCache, h'.lastKey.trans h.lastKey, h'.lastRoot.trans h.lastRoot⟩

/-- A change that keeps every live segment under its key keeps exact caches exact. -/
lemma CacheExact.of_names {t t' : SegmentTable} {mem mem' : ℕ → SegmentHeader}
    (h : t.CacheExact mem) (hs : SameCaches t t')
    (hn : ∀ k r, t.Names mem k r → t'.Names mem' k r) : t'.CacheExact mem' := by
  constructor
  · intro i hi hne
    rw [hs.ownCache] at hne ⊢
    exact hn _ _ (h.own i hi hne)
  · intro hne
    rw [hs.lastKey] at hne ⊢
    rw [hs.lastRoot]
    exact hn _ _ (h.memo hne)

/-! ## Lookups -/

section Lookup
variable {t : SegmentTable} {mem : ℕ → SegmentHeader} {key : ℕ}

theorem canonicalBaseOf_eq (h : t.Inv mem) (hc : t.CacheExact mem) (hk : key ≠ emptyKey) :
    t.canonicalBaseOf key = hashFind t.baseAt t.hashSlots key := by
  simp only [canonicalBaseOf]
  split_ifs with hmemo hown
  · obtain rfl := hmemo
    exact ((h.hashFind_iff _ _).mpr (hc.memo hk)).symm
  · have hn := hc.own (cacheIndex key) (cacheIndex_lt key) (by rwa [hown])
    rw [hown] at hn
    exact ((h.hashFind_iff _ _).mpr hn).symm
  · rfl

/-- The owner's lookup answers like the read-only one. -/
theorem canonicalBaseOfMut_fst (t : SegmentTable) (key : ℕ) :
    (t.canonicalBaseOfMut key).map Prod.fst = t.canonicalBaseOf key := by
  simp only [canonicalBaseOfMut, canonicalBaseOf]
  split_ifs
  · rfl
  · rfl
  · rfl
  · cases hashFind t.baseAt t.hashSlots key with
    | none => rfl
    | some r => cases r <;> rfl

/-- A hit of the second chance is what the hash answers. -/
theorem probeArm_fst {root : ℕ} (h : t.Inv mem) (hc : t.CacheExact mem) (hk : key ≠ emptyKey)
    (hr : (t.probeArm key).1 = some root) :
    hashFind t.baseAt t.hashSlots key = some (some root) := by
  simp only [probeArm] at hr
  split_ifs at hr with hhit
  have hn := hc.own (cacheIndex key) (cacheIndex_lt key) (by rwa [hhit.1])
  rw [hhit.1, Option.some.inj hr] at hn
  exact (h.hashFind_iff _ _).mpr hn

/-- What a lookup may change: cache and memo, to exact values. -/
structure LookupStep (t t' : SegmentTable) (mem : ℕ → SegmentHeader) : Prop where
  views : SameViews t t'
  routes : t'.routes = t.routes
  exact : t'.CacheExact mem

lemma LookupStep.inv {t' : SegmentTable} (hs : LookupStep t t' mem) (h : t.Inv mem) :
    t'.Inv mem := by
  obtain ⟨r, s, a, o, k, l, c, hs', f, n⟩ := t
  obtain ⟨r', s', a', o', k', l', c', hs'', f', n'⟩ := t'
  obtain ⟨⟨rfl, rfl, rfl, rfl, rfl, rfl⟩, rfl, -⟩ := hs
  exact ⟨h.count_pos, h.count_le, h.free_nodup, h.mem_free, h.slots_inj, h.ids, h.hash, h.exact,
    h.active, h.known, h.root, h.routed⟩

lemma CacheExact.lookupStep (hc : t.CacheExact mem) : LookupStep t t mem :=
  ⟨⟨rfl, rfl, rfl, rfl, rfl, rfl⟩, rfl, hc⟩

/-- Arming the memo from an exact cache line. -/
lemma CacheExact.arm (hc : t.CacheExact mem) (hown : (t.ownCache (cacheIndex key)).1 = key) :
    LookupStep t { t with lastKey := key, lastRoot := (t.ownCache (cacheIndex key)).2 } mem := by
  refine ⟨⟨rfl, rfl, rfl, rfl, rfl, rfl⟩, rfl, hc.own, fun hk => ?_⟩
  have hn := hc.own (cacheIndex key) (cacheIndex_lt key) (by rwa [hown])
  rwa [hown] at hn

theorem canonicalBaseOfMut_spec (h : t.Inv mem) (hc : t.CacheExact mem) (key : ℕ) :
    ∃ r t', t.canonicalBaseOfMut key = some (r, t') ∧ LookupStep t t' mem := by
  simp only [canonicalBaseOfMut]
  split_ifs with hmemo hown hexact
  · exact ⟨_, _, rfl, hc.lookupStep⟩
  · exact ⟨_, _, rfl, hc.arm hown⟩
  · exact ⟨_, _, rfl, hc.lookupStep⟩
  · obtain ⟨r, hr⟩ := hashFind_total t.baseAt t.hashSlots key
    rw [hr]
    cases r with
    | none => exact ⟨_, _, rfl, hc.lookupStep⟩
    | some root =>
        refine ⟨_, _, rfl, ⟨rfl, rfl, rfl, rfl, rfl, rfl⟩, rfl, fun i hi hne => ?_, hc.memo⟩
        change t.Names mem (Function.update t.ownCache (cacheIndex key) (key, root) i).1
          (Function.update t.ownCache (cacheIndex key) (key, root) i).2
        by_cases hx : i = cacheIndex key
        · rw [hx, Function.update_self]
          exact (h.hashFind_iff key root).mp hr
        · simp only [Function.update_of_ne hx] at hne ⊢
          exact hc.own i hi hne

theorem probeArm_spec (hc : t.CacheExact mem) (key : ℕ) :
    LookupStep t (t.probeArm key).2 mem := by
  simp only [probeArm]
  split_ifs with hhit
  · exact hc.arm hhit.1
  · exact hc.lookupStep

end Lookup

/-! ## Registration and removal -/

lemma finishRegister_frame {t t' : SegmentTable} {i key : ℕ} {route : Option Route}
    {kind : SegmentKind} (h : finishRegister t i key route kind = some t') :
    SameCaches t t' ∧ t'.count = t.count := by
  simp only [finishRegister, Option.bind_eq_bind, Option.bind_eq_some_iff, putRoute] at h
  obtain ⟨hash, -, t₁, ht₁, active, -, hret⟩ := h
  obtain rfl := Option.some.inj hret
  split at ht₁
  · obtain rfl := Option.some.inj ht₁
    exact ⟨⟨rfl, rfl, rfl⟩, rfl⟩
  · simp at ht₁
  · obtain ⟨rs, -, rfl⟩ := Option.map_eq_some_iff.mp ht₁
    exact ⟨⟨rfl, rfl, rfl⟩, rfl⟩

lemma prepareRoute_frame (t : SegmentTable) (needed base : ℕ) (kind : SegmentKind)
    (payload target : ℕ) (o : PrepareOracle) :
    SameCaches t (t.prepareRoute needed base kind payload target o).1 := by
  rw [prepareRoute]
  cases t.routes <;> exact ⟨rfl, rfl, rfl⟩

lemma freeListPop_frame (t : SegmentTable) :
    SameCaches t t.freeListPop.2 ∧ t.freeListPop.2.count = t.count := by
  simp only [freeListPop]
  split_ifs <;> exact ⟨⟨rfl, rfl, rfl⟩, rfl⟩

/-- A registration touches neither cache nor memo and never lowers the mark. -/
theorem registerPayload_frame {t t' : SegmentTable} {base payload : ℕ} {kind : SegmentKind}
    {o : PrepareOracle} {r : Option ℕ} (h : t.registerPayload base kind payload o = some (r, t')) :
    SameCaches t t' ∧ t.count ≤ t'.count := by
  have hp := t.prepareRoute_frame (t.count + (!decide (t.freeTop ≠ 0)).toNat) base kind
    payload (t.nextRegisterSlot (decide (t.freeTop ≠ 0))) o
  have hv := t.prepareRoute_sameViews (t.count + (!decide (t.freeTop ≠ 0)).toNat) base kind
    payload (t.nextRegisterSlot (decide (t.freeTop ≠ 0))) o
  simp only [registerPayload] at h
  split_ifs at h
  · obtain ⟨-, rfl⟩ := Prod.mk.inj (Option.some.inj h)
    exact ⟨.refl t, le_rfl⟩
  · obtain ⟨-, rfl⟩ := Prod.mk.inj (Option.some.inj h)
    exact ⟨.refl t, le_rfl⟩
  · split at h
    · rename_i t₁ heq
      obtain ⟨-, rfl⟩ := Prod.mk.inj (Option.some.inj h)
      rw [heq] at hp hv
      exact ⟨hp, hv.count.ge⟩
    · rename_i t₁ route heq
      rw [heq] at hp hv
      obtain ⟨hpop, hcount⟩ := t₁.freeListPop_frame
      split at h
      · rename_i i t₂ heq₂
        rw [heq₂] at hpop hcount
        obtain ⟨t₃, ht₃, he⟩ := Option.map_eq_some_iff.mp h
        obtain ⟨-, rfl⟩ := Prod.mk.inj he
        obtain ⟨hf, hc⟩ := finishRegister_frame ht₃
        refine ⟨(hp.trans hpop).trans ⟨hf.ownCache, hf.lastKey, hf.lastRoot⟩, ?_⟩
        rw [hc]
        exact (hcount.trans hv.count).ge
      · rename_i t₂ heq₂
        rw [heq₂] at hpop hcount
        split_ifs at h
        · obtain ⟨-, rfl⟩ := Prod.mk.inj (Option.some.inj h)
          exact ⟨hp.trans hpop, (hcount.trans hv.count).ge⟩
        · obtain ⟨t₃, ht₃, he⟩ := Option.map_eq_some_iff.mp h
          obtain ⟨-, rfl⟩ := Prod.mk.inj he
          obtain ⟨hf, hc⟩ := finishRegister_frame ht₃
          refine ⟨(hp.trans hpop).trans ⟨hf.ownCache, hf.lastKey, hf.lastRoot⟩, ?_⟩
          rw [hc]
          exact ((hcount.trans hv.count).ge).trans (Nat.le_succ _)

/-- A slot filled beside the live ones leaves every live segment under its key. -/
lemma Names.fill {t t' : SegmentTable} {mem : ℕ → SegmentHeader} {i base : ℕ}
    {hdr : SegmentHeader} (hdead : ¬t.Live i) (hs : t'.slots = Function.update t.slots i base)
    (hcount : t.count ≤ t'.count) (hroot : ∀ j, t.Live j → t.slots j ≠ base) {k r : ℕ}
    (h : t.Names mem k r) : t'.Names (Function.update mem base hdr) k r := by
  obtain ⟨j, hj, rfl, rfl⟩ := h
  have hji : j ≠ i := by
    rintro rfl
    exact hdead hj
  have hslot : t'.slots j = t.slots j := by rw [hs, Function.update_of_ne hji]
  refine ⟨j, ⟨lt_of_lt_of_le hj.1 hcount, by rw [hslot]; exact hj.2⟩, ?_, hslot⟩
  rw [key, key, hslot, Function.update_of_ne (hroot j hj)]

/-- Clearing by root: what is left names a live segment other than the removed one. -/
lemma CacheExact.vacated {t : SegmentTable} {mem : ℕ → SegmentHeader} (hc : t.CacheExact mem)
    (i : ℕ) (routes : Option RouteSlots) (a : ActiveKindIndex) (hash : HashSlots) :
    (t.vacated i (t.slots i) routes a hash).CacheExact mem := by
  set t' := t.vacated i (t.slots i) routes a hash with ht'
  have hkeep : ∀ {k r}, t.Names mem k r → r ≠ t.slots i → t'.Names mem k r := by
    rintro k r ⟨j, hj, rfl, rfl⟩ hne
    have hji : j ≠ i := by
      rintro rfl
      exact hne rfl
    have hslot : t'.slots j = t.slots j := Function.update_of_ne hji _ _
    exact ⟨j, ⟨hj.1, by rw [hslot]; exact hj.2⟩, by rw [key, key, hslot], hslot⟩
  have hownCache : ∀ l, t'.ownCache l = if l < ownCacheSize ∧ (t.ownCache l).2 = t.slots i
      then (emptyKey, 0) else t.ownCache l := fun _ => rfl
  constructor
  · intro l hl hne
    rw [hownCache] at hne ⊢
    split_ifs at hne ⊢ with hclear
    · exact absurd rfl hne
    · exact hkeep (hc.own l hl hne) fun he => hclear ⟨hl, he⟩
  · intro hne
    change (if t.lastRoot = t.slots i then emptyKey else t.lastKey) ≠ emptyKey at hne
    change t'.Names mem (if t.lastRoot = t.slots i then emptyKey else t.lastKey)
      (if t.lastRoot = t.slots i then 0 else t.lastRoot)
    split_ifs at hne ⊢ with hroot
    · exact absurd rfl hne
    · exact hkeep (hc.memo hne) hroot

/-- One legal call keeps every cache line and the memo exact. -/
theorem Call.run_cacheExact (c : Call) {w w' : World} (h : w.table.Inv w.mem) (hl : c.Legal w)
    (hc : w.table.CacheExact w.mem) (hr : c.run w = some w') : w'.table.CacheExact w'.mem := by
  cases c with
  | register base payload kind reservation o =>
      obtain ⟨⟨r, t⟩, ht, rfl⟩ := Option.map_eq_some_iff.mp hr
      obtain ⟨hsame, hcount⟩ := registerPayload_frame ht
      cases r with
      | none =>
          have hv := registerPayload_none ht
          refine hc.of_names hsame ?_
          rintro k r ⟨j, hj, rfl, rfl⟩
          refine ⟨j, ?_, ?_, congrFun hv.slots j⟩
          · simpa only [Live, hv.count, hv.slots] using hj
          · simp only [key, hv.slots]
      | some id =>
          rcases registerPayload_spec h hl kind o with ⟨t', ht', -⟩ | ⟨i, t', ht', -, hdead, -, hs, -⟩
          · simp [ht] at ht'
          · obtain ⟨rfl, rfl⟩ : id = i ∧ t = t' := by simpa [ht] using ht'
            exact hc.of_names hsame fun k r hn => hn.fill hdead hs hcount hl.root
  | unregister base =>
      obtain ⟨i, hi, h0, rfl⟩ := hl
      obtain ⟨routes, a, hash, hu, -⟩ := unregister_spec h hi h0
      rw [Call.run, hu] at hr
      obtain rfl := Option.some.inj hr
      exact hc.vacated i routes a hash
  | recycle base =>
      obtain ⟨hne, hroot, hkey⟩ := hl
      rcases recycle_spec h hne hroot hkey with hu | ⟨i, routes, a, hash, -, -, rfl, hu, -⟩
      · rw [Call.run, hu] at hr
        obtain rfl := Option.some.inj hr
        exact hc
      · rw [Call.run, hu] at hr
        obtain rfl := Option.some.inj hr
        exact hc.vacated i routes a hash

/-! ## Whole runs with lookups -/

/-- A call on the table or one of its cached lookups. -/
inductive Access where
  | call (c : Call)
  | canonicalBaseOf (key : ℕ)
  | canonicalBaseOfMut (key : ℕ)
  | containsBase (base : ℕ)
  | probeArm (key : ℕ)

def Access.run : Access → World → Option World
  | .call c, w => c.run w
  | .canonicalBaseOf key, w => (w.table.canonicalBaseOf key).map fun _ => w
  | .canonicalBaseOfMut key, w => (w.table.canonicalBaseOfMut key).map fun p => ⟨p.2, w.mem⟩
  | .containsBase base, w => (w.table.containsBase base).map fun p => ⟨p.2, w.mem⟩
  | .probeArm key, w => some ⟨(w.table.probeArm key).2, w.mem⟩

/-- Any key may be looked up. -/
def Access.Legal (w : World) : Access → Prop
  | .call c => c.Legal w
  | _ => True

def runAccesses : List Access → World → Option World
  | [], w => some w
  | a :: as, w => (a.run w).bind (runAccesses as)

def LegalAccesses : List Access → World → Prop
  | [], _ => True
  | a :: as, w => a.Legal w ∧ ∀ w', a.run w = some w' → LegalAccesses as w'

theorem canonicalBaseOf_total (t : SegmentTable) (key : ℕ) : ∃ r, t.canonicalBaseOf key = some r := by
  simp only [canonicalBaseOf]
  split_ifs
  · exact ⟨_, rfl⟩
  · exact ⟨_, rfl⟩
  · exact hashFind_total _ _ _

theorem Access.run_spec (a : Access) {w : World} (h : w.table.Inv w.mem)
    (hc : w.table.CacheExact w.mem) (hl : a.Legal w) :
    ∃ w', a.run w = some w' ∧ w'.table.Inv w'.mem ∧ w'.table.CacheExact w'.mem := by
  cases a with
  | call c =>
      obtain ⟨w', hr, hinv, -⟩ := c.run_spec h hl
      exact ⟨w', hr, hinv, c.run_cacheExact h hl hc hr⟩
  | canonicalBaseOf key =>
      obtain ⟨r, hr⟩ := w.table.canonicalBaseOf_total key
      exact ⟨w, by rw [Access.run, hr]; rfl, h, hc⟩
  | canonicalBaseOfMut key =>
      obtain ⟨r, t', hr, hs⟩ := canonicalBaseOfMut_spec h hc key
      exact ⟨⟨t', w.mem⟩, by rw [Access.run, hr]; rfl, hs.inv h, hs.exact⟩
  | containsBase base =>
      obtain ⟨r, t', hr, hs⟩ := canonicalBaseOfMut_spec h hc base
      exact ⟨⟨t', w.mem⟩, by rw [Access.run, SegmentTable.containsBase, hr]; rfl, hs.inv h, hs.exact⟩
  | probeArm key =>
      have hs := probeArm_spec hc key
      exact ⟨_, rfl, hs.inv h, hs.exact⟩

theorem runAccesses_spec (as : List Access) {w : World} (h : w.table.Inv w.mem)
    (hc : w.table.CacheExact w.mem) (hl : LegalAccesses as w) :
    ∃ w', runAccesses as w = some w' ∧ w'.table.Inv w'.mem ∧ w'.table.CacheExact w'.mem := by
  induction as generalizing w with
  | nil => exact ⟨w, rfl, h, hc⟩
  | cons a as ih =>
      obtain ⟨w₁, hr, h₁, hc₁⟩ := a.run_spec h hc hl.1
      obtain ⟨w₂, hr₂, h₂, hc₂⟩ := ih h₁ hc₁ (hl.2 w₁ hr)
      exact ⟨w₂, by rw [runAccesses, hr, Option.bind_some, hr₂], h₂, hc₂⟩

lemma FreshTable.cacheExact {base : ℕ} {w : World} (h : FreshTable base w) :
    w.table.CacheExact w.mem := by
  obtain ⟨-, t, ht, hw⟩ := h
  obtain ⟨a, ha, -⟩ := ActiveKindIndex.initInPlace_spec
  have hown : w.table.ownCache = (fun _ => (emptyKey, 0)) ∧ w.table.lastKey = emptyKey := by
    rw [fromPrimordial, ha] at ht
    obtain rfl := Option.some.inj ht
    rcases hw with hw | ⟨owner, o, ho⟩
    · rw [hw]
      exact ⟨rfl, rfl⟩
    · simp only [attachOwner] at ho
      split_ifs at ho
      obtain ⟨rs, -, hrs⟩ := Option.map_eq_some_iff.mp ho
      rw [← hrs]
      exact ⟨rfl, rfl⟩
  exact ⟨fun i _ hne => absurd (by rw [hown.1]) hne, fun hne => absurd hown.2 hne⟩

/-- The key of a pointer is a segment boundary, so never the empty mark. -/
lemma segmentBaseOfPtr_ne_emptyKey (ptr : ℕ) : segmentBaseOfPtr ptr ≠ emptyKey := by
  intro h
  have := segmentBaseOfPtr_aligned ptr
  rw [h] at this
  exact absurd this (by decide)

/-- What every cached lookup of `key` answers, against the plain hash. -/
structure LookupExact (w : World) (key : ℕ) : Prop where
  readOnly : w.table.canonicalBaseOf key = hashFind w.table.baseAt w.table.hashSlots key
  owner : (w.table.canonicalBaseOfMut key).map Prod.fst =
    hashFind w.table.baseAt w.table.hashSlots key
  contains : (w.table.containsBase key).map Prod.fst =
    (hashFind w.table.baseAt w.table.hashSlots key).map Option.isSome
  containsRo : w.table.containsBaseRo key =
    (hashFind w.table.baseAt w.table.hashSlots key).map Option.isSome
  memo : w.table.memo.1 = key →
    hashFind w.table.baseAt w.table.hashSlots key = some (some w.table.memo.2)
  probeArm : ∀ root, (w.table.probeArm key).1 = some root →
    hashFind w.table.baseAt w.table.hashSlots key = some (some root)
  /-- The hash itself answers the root registered under the key, and no other. -/
  hash : ∀ root, hashFind w.table.baseAt w.table.hashSlots key = some (some root) ↔
    w.table.Names w.mem key root

theorem lookupExact {w : World} (h : w.table.Inv w.mem) (hc : w.table.CacheExact w.mem)
    {key : ℕ} (hk : key ≠ emptyKey) : LookupExact w key := by
  have hro := canonicalBaseOf_eq h hc hk
  have howner := (canonicalBaseOfMut_fst w.table key).trans hro
  refine ⟨hro, howner, ?_, by rw [containsBaseRo, hro], ?_,
    fun root hr => probeArm_fst h hc hk hr, h.hashFind_iff key⟩
  · rw [← howner, containsBase, Option.map_map, Option.map_map]
    rfl
  · rintro rfl
    exact (h.hashFind_iff _ _).mpr (hc.memo hk)

/-- After every legal run of registrations, removals and lookups, each cached lookup
answers what the hash answers, for every key but the mark of an empty line, which is
no pointer's key; and every cache line and the memo name a segment still live. -/
theorem runAccesses_lookupExact (as : List Access) {base : ℕ} {w : World}
    (hf : FreshTable base w) (hl : LegalAccesses as w) :
    ∃ w', runAccesses as w = some w' ∧ w'.table.CacheExact w'.mem ∧
      (∀ key, key ≠ emptyKey → LookupExact w' key) ∧
      ∀ ptr, LookupExact w' (segmentBaseOfPtr ptr) := by
  obtain ⟨w', hr, hinv, hc⟩ := runAccesses_spec as hf.inv.1 hf.cacheExact hl
  exact ⟨w', hr, hc, fun key hk => lookupExact hinv hc hk,
    fun ptr => lookupExact hinv hc (segmentBaseOfPtr_ne_emptyKey ptr)⟩

/-- A large segment registered under a biased key, looked up, and removed: the root
is one segment below its key. -/
def biasedRun : List Access :=
  [.call (.register (2 * segment) (3 * segment) .large (2 * segment, 2 * segment) ⟨true, none⟩),
    .canonicalBaseOfMut (3 * segment), .probeArm (3 * segment), .call (.unregister (2 * segment)),
    .canonicalBaseOf (3 * segment)]

theorem biasedRun_lookupExact : ∃ a w', ActiveKindIndex.initInPlace = some a ∧
    runAccesses biasedRun ⟨primordialTable segment a, primordialMem⟩ = some w' ∧
    w'.table.CacheExact w'.mem ∧ (∀ key, key ≠ emptyKey → LookupExact w' key) ∧
    ∀ ptr, LookupExact w' (segmentBaseOfPtr ptr) := by
  obtain ⟨a, ha, -⟩ := ActiveKindIndex.initInPlace_spec
  have hs0 := primordialTable_slots segment a
  have hlive := live_primordialTable (show segment ≠ 0 by decide) a
  have hf : FreshTable segment ⟨primordialTable segment a, primordialMem⟩ :=
    ⟨⟨by decide, by decide, rfl, rfl, rfl⟩, _, by rw [fromPrimordial, ha]; rfl, .inl rfl⟩
  have hfresh : (primordialTable segment a).FreshSegment primordialMem (2 * segment)
      (3 * segment) := by
    refine ⟨by decide, by decide, fun j hj => ?_, fun j hj => ?_⟩ <;> rw [(hlive j).mp hj]
    · rw [hs0]
      decide
    · rw [key, hs0]
      decide
  have hsome : ∀ t, (primordialTable segment a).registerPayload (2 * segment) .large (3 * segment)
      ⟨true, none⟩ ≠ some (none, t) := by
    simp [registerPayload, primordialTable, prepareRoute, freeListPop, maxSegments]
  -- The registration fills a slot, which the lookups leave in place.
  have hl : LegalAccesses biasedRun ⟨primordialTable segment a, primordialMem⟩ := by
    refine ⟨hfresh, fun w₁ h₁ => ⟨trivial, fun w₂ h₂ => ⟨trivial, fun w₃ h₃ => ⟨?_, fun _ _ =>
      ⟨trivial, fun _ _ => trivial⟩⟩⟩⟩⟩
    rcases registerPayload_spec hf.inv.1 hfresh .large ⟨true, none⟩ with
      ⟨t, ht, -⟩ | ⟨i, t, ht, h0, -, hlt, hs, hinv⟩
    · exact absurd ht (hsome t)
    · rw [Access.run, Call.run, ht] at h₁
      obtain rfl := Option.some.inj h₁
      have hinv₁ := hinv ⟨i, .large, 3 * segment - 2 * segment, 2 * segment, 2 * segment⟩ rfl rfl
        (show 2 * segment + (3 * segment - 2 * segment) = 3 * segment by decide)
      have hc₁ := Call.run_cacheExact (.register (2 * segment) (3 * segment) .large
        (2 * segment, 2 * segment) ⟨true, none⟩) hf.inv.1 hfresh hf.cacheExact
        (by rw [Call.run, ht]; rfl)
      obtain ⟨r, t₂, hr, hs₂⟩ := canonicalBaseOfMut_spec hinv₁ hc₁ (3 * segment)
      rw [Access.run, hr] at h₂
      obtain rfl := Option.some.inj h₂
      have hs₃ := probeArm_spec hs₂.exact (3 * segment)
      obtain rfl := Option.some.inj h₃
      have hslots := (hs₃.views.slots.trans hs₂.views.slots).trans hs
      refine ⟨i, ⟨?_, ?_⟩, h0, ?_⟩
      · simp only [hs₃.views.count, hs₂.views.count]
        exact hlt
      · simp only [hslots, Function.update_self]
        decide
      · simp only [hslots, Function.update_self]
  obtain ⟨w', hr⟩ := runAccesses_lookupExact biasedRun hf hl
  exact ⟨a, w', ha, hr⟩

end SegmentTable

end SeferAlloc
