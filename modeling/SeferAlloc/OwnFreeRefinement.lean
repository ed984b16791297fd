import SeferAlloc.OwnFreeLane

/-!
# The lane refines the routing chain

The memo is armed with exact bases only, so its root is the base of the pointer
it answers for. From there the lane takes the same offset as the chain, and
what it accepts the guard accepts as the same class.
-/
namespace SeferAlloc
namespace SegmentTable

/-! ## The memo -/

/-- An armed memo holds a base under itself. -/
def MemoExact (t : SegmentTable) : Prop := t.lastKey ≠ emptyKey → t.lastRoot = t.lastKey

section
variable {t t' : SegmentTable} {key : ℕ} {r : Option ℕ}

lemma MemoExact.same (h : t.MemoExact) (hs : SameCaches t t') : t'.MemoExact := by
  unfold MemoExact
  rw [hs.lastKey, hs.lastRoot]
  exact h

lemma MemoExact.canonicalBaseOfMut (h : t.MemoExact)
    (hr : t.canonicalBaseOfMut key = some (r, t')) : t'.MemoExact := by
  simp only [SegmentTable.canonicalBaseOfMut] at hr
  split_ifs at hr with hmemo hown hexact
  · obtain ⟨-, rfl⟩ := Prod.mk.inj (Option.some.inj hr)
    exact h
  · obtain ⟨-, rfl⟩ := Prod.mk.inj (Option.some.inj hr)
    exact fun _ => hexact
  · obtain ⟨-, rfl⟩ := Prod.mk.inj (Option.some.inj hr)
    exact h
  · obtain ⟨x, -, hx⟩ := Option.map_eq_some_iff.mp hr
    cases x with
    | none =>
        obtain ⟨-, rfl⟩ := Prod.mk.inj hx
        exact h
    | some root =>
        obtain ⟨-, rfl⟩ := Prod.mk.inj hx
        exact h

lemma MemoExact.probeArm (h : t.MemoExact) (key : ℕ) : (t.probeArm key).2.MemoExact := by
  simp only [SegmentTable.probeArm]
  split_ifs with hhit
  · exact fun _ => hhit.2
  · exact h

/-- A removal clears the memo where it holds the removed root. -/
lemma MemoExact.vacated (h : t.MemoExact) (i base : ℕ) (routes : Option RouteSlots)
    (a : ActiveKindIndex) (hash : HashSlots) : (t.vacated i base routes a hash).MemoExact := by
  intro hne
  change (if t.lastRoot = base then emptyKey else t.lastKey) ≠ emptyKey at hne
  change (if t.lastRoot = base then 0 else t.lastRoot) =
    if t.lastRoot = base then emptyKey else t.lastKey
  split_ifs at hne ⊢
  · contradiction
  · exact h hne

end

lemma Access.run_memoExact (a : Access) {w w' : World} (hi : w.table.Inv w.mem) (hl : a.Legal w)
    (h : w.table.MemoExact) (hr : a.run w = some w') : w'.table.MemoExact := by
  cases a with
  | call c =>
      cases c with
      | register base payload kind reservation o =>
          obtain ⟨⟨r, t⟩, ht, rfl⟩ := Option.map_eq_some_iff.mp hr
          have hs := (registerPayload_frame ht).1
          cases r <;> exact h.same hs
      | unregister base =>
          obtain ⟨i, hi', h0, rfl⟩ := hl
          obtain ⟨routes, a, hash, hu, -⟩ := unregister_spec hi hi' h0
          rw [Access.run, Call.run, hu] at hr
          obtain rfl := Option.some.inj hr
          exact h.vacated i _ routes a hash
      | recycle base =>
          obtain ⟨hne, hroot, hkey⟩ := hl
          rcases recycle_spec hi hne hroot hkey with hu | ⟨i, routes, a, hash, -, -, rfl, hu, -⟩
          · rw [Access.run, Call.run, hu] at hr
            obtain rfl := Option.some.inj hr
            exact h
          · rw [Access.run, Call.run, hu] at hr
            obtain rfl := Option.some.inj hr
            exact h.vacated i _ routes a hash
  | canonicalBaseOf key =>
      obtain ⟨-, -, rfl⟩ := Option.map_eq_some_iff.mp hr
      exact h
  | canonicalBaseOfMut key =>
      obtain ⟨p, hp, rfl⟩ := Option.map_eq_some_iff.mp hr
      exact h.canonicalBaseOfMut hp
  | containsBase base =>
      obtain ⟨p, hp, rfl⟩ := Option.map_eq_some_iff.mp hr
      obtain ⟨q, hq, rfl⟩ := Option.map_eq_some_iff.mp hp
      exact h.canonicalBaseOfMut hq
  | probeArm key =>
      obtain rfl := Option.some.inj hr
      exact h.probeArm key

lemma runAccesses_memoExact (as : List Access) {w w' : World} (hi : w.table.Inv w.mem)
    (hc : w.table.CacheExact w.mem) (hl : LegalAccesses as w) (h : w.table.MemoExact)
    (hr : runAccesses as w = some w') : w'.table.MemoExact := by
  induction as generalizing w with
  | nil =>
      obtain rfl := Option.some.inj hr
      exact h
  | cons a as ih =>
      obtain ⟨w₁, hr₁, hi₁, hc₁⟩ := a.run_spec hi hc hl.1
      rw [runAccesses, hr₁, Option.bind_some] at hr
      exact ih hi₁ hc₁ (hl.2 w₁ hr₁) (a.run_memoExact hi hl.1 h hr₁) hr

lemma FreshTable.memoExact {base : ℕ} {w : World} (h : FreshTable base w) :
    w.table.MemoExact := by
  obtain ⟨-, t, ht, hw⟩ := h
  obtain ⟨a, ha, -⟩ := ActiveKindIndex.initInPlace_spec
  have hkey : w.table.lastKey = emptyKey := by
    rw [fromPrimordial, ha] at ht
    obtain rfl := Option.some.inj ht
    rcases hw with hw | ⟨owner, o, ho⟩
    · rw [hw]
    · rw [attachOwner] at ho
      split_ifs at ho
      obtain ⟨rs, -, hrs⟩ := Option.map_eq_some_iff.mp ho
      rw [← hrs]
  exact fun hne => absurd hkey hne

end SegmentTable

namespace Small
open SegmentTable

/-! ## Tags and offsets -/

lemma liveTagByte_eq (c : ℕ) : liveTagByte c = encode c .live := by
  simp [liveTagByte, encode, BlockState.code]

/-- A pointer and the base of its segment. -/
lemma wrappingSub_base {ptr : ℕ} (h : ptr < 2 ^ 64) :
    wrappingSub ptr (segmentBaseOfPtr ptr) = ptr - segmentBaseOfPtr ptr := by
  unfold wrappingSub segmentBaseOfPtr
  omega

lemma wrappingAdd_base {ptr : ℕ} (h : ptr < 2 ^ 64) :
    wrappingAdd (segmentBaseOfPtr ptr) (ptr - segmentBaseOfPtr ptr) = ptr := by
  unfold wrappingAdd segmentBaseOfPtr
  omega

lemma sub_base_lt (ptr : ℕ) : ptr - segmentBaseOfPtr ptr = ptr % segment ∧
    ptr - segmentBaseOfPtr ptr < segment := by
  unfold segmentBaseOfPtr segment
  omega

/-- A granule below the cursor comes from an aligned offset below it. -/
lemma rotateGranule_lt {off bump : ℕ} (h : rotateGranule off < bump % 2 ^ 64 / minBlock) :
    off % minBlock = 0 ∧ rotateGranule off = off / minBlock ∧ off < bump := by
  unfold rotateGranule minBlock at *
  omega

/-- The seed of the lane is the bucket of the chain. -/
lemma seed_eq {size : ℕ} (h : size < 2 ^ 63) {len : ℕ} (hlen : len ≤ 2 ^ 59)
    (hs : wrappingSub size 1 / minBlock < len) :
    (max size minBlock - 1) / minBlock = wrappingSub size 1 / minBlock := by
  unfold wrappingSub minBlock at *
  omega

/-! ## The steps after the root -/

namespace FreeHeap
variable {bd : Build} {h : FreeHeap} {ptr c : ℕ} {layout : Layout}

/-- The write of the lane is the write of the chain. -/
lemma writeGranule_eq (bd : Build) (w : World) (p c : ℕ)
    (hoff : (p - segmentBaseOfPtr p) % minBlock = 0) :
    w.writeGranule bd (segmentBaseOfPtr p) ((p - segmentBaseOfPtr p) / minBlock)
      (liveTagMagByte c) = w.writeState bd p c .mag := by
  have hback : (p - segmentBaseOfPtr p) / minBlock * minBlock = p - segmentBaseOfPtr p := by
    unfold minBlock at *
    omega
  unfold World.writeGranule World.writeState
  rw [hback]
  rfl

/-- The commit of the lane is the push of the chain. -/
lemma lanePush_eq (bd : Build) (env : Surroundings) (heap : HeapCore) (p c : ℕ)
    (hoff : (p - segmentBaseOfPtr p) % minBlock = 0) :
    lanePush bd env c (segmentBaseOfPtr p) p ((p - segmentBaseOfPtr p) / minBlock) heap =
      heap.pushFreed bd env c p := by
  unfold lanePush HeapCore.pushFreed
  dsimp only
  by_cases hroom : (heap.tcache c).count < bd.sizes.freeParkCap c
  · have hcap := (refillNForClass_bounds (bd.sizes.blockSize c)).2
    unfold SizeClasses.freeParkCap at hroom
    rw [if_pos (show _ < bd.sizes.freeParkCap c from hroom), if_neg (by
      unfold SizeClasses.freeParkCap
      omega), writeGranule_eq bd _ p c hoff]
    unfold PerClass.push
    rw [PerClass.and_pred_tcacheCap (by omega)]
    rfl
  · rw [if_neg hroom, if_pos (by omega)]

/-- Only kinds with a payload pass the bound of the lane. -/
lemma lanePs_pass {kind : SegmentKind} {off : ℕ} (hps : ¬off < bd.lanePs kind)
    (hoff : off < segment) : kind ≠ .large ∧ kind ≠ .unknown ∧ bd.guardStart kind ≤ off := by
  unfold segment at hoff
  cases kind with
  | large | unknown =>
      simp only [Build.lanePs] at hps
      omega
  | small | primordial =>
      simp only [Build.lanePs] at hps
      simpa [Build.guardStart] using hps

/-- What passes the checks of the lane passes the guard. -/
lemma guard_accept {kind : SegmentKind} {interior : Bool} {s : Segment} {off : ℕ}
    (hps : ¬off < bd.lanePs kind) (hoff : off < segment)
    (hg : rotateGranule off < s.bump % 2 ^ 64 / minBlock)
    (hbyte : s.byte (rotateGranule off) = liveTagByte c) :
    smallFreeGuard bd kind interior s off c = some .accept := by
  obtain ⟨hl, hu, hstart⟩ := lanePs_pass hps hoff
  obtain ⟨hmod, hdiv, hlt⟩ := rotateGranule_lt hg
  rw [hdiv, liveTagByte_eq] at hbyte
  unfold smallFreeGuard
  rw [if_neg hl, if_neg hu, if_neg (by omega)]
  dsimp only
  rw [if_neg (by omega), if_neg (by simp [hbyte]), if_neg (by omega)]

/-- The chain once the lookup has answered the base of the pointer. -/
lemma canonicalBlockOf_base {table : SegmentTable} (hp : ptr < 2 ^ 64)
    (hk : (h.headers (segmentBaseOfPtr ptr)).kind ≠ .large)
    (hr : h.table.canonicalBaseOfMut (segmentBaseOfPtr ptr) =
      some (some (segmentBaseOfPtr ptr), table)) :
    h.canonicalBlockOf ptr = some ({ h with table := table }, some (segmentBaseOfPtr ptr, ptr)) := by
  have hback := wrappingAdd_base hp
  rw [(sub_base_lt ptr).1] at hback
  unfold canonicalBlockOf
  rw [hr]
  simp only [Option.bind_eq_bind, Option.bind_some, if_neg hk, hback]
  rfl

/-- With the base of the pointer as its root the lane does what the chain does. -/
lemma laneSteps_eq (env : Surroundings) (cold : ColdCallees) (ht : bd.tracked = true)
    (hp : ptr < 2 ^ 64) (hr : h.table.canonicalBaseOfMut (segmentBaseOfPtr ptr) =
      some (some (segmentBaseOfPtr ptr), h.table))
    (hc : bd.sizes.classFor (max layout.size minBlock) layout.align = some c) :
    h.laneSteps bd env cold ptr c (segmentBaseOfPtr ptr) layout =
      h.deallocRouting bd env cold ptr layout := by
  unfold laneSteps
  dsimp only
  rw [wrappingSub_base hp, wrappingAdd_base hp]
  split_ifs with hps hbump hbyte
  · rfl
  · rfl
  · rfl
  · have hg : rotateGranule (ptr - segmentBaseOfPtr ptr) <
        (h.heap.core.world.heap.segs (segmentBaseOfPtr ptr)).bump % 2 ^ 64 / minBlock := by
      by_contra hge
      exact hbump ⟨ht, by omega⟩
    have hb : (h.heap.core.world.heap.segs (segmentBaseOfPtr ptr)).byte
        (rotateGranule (ptr - segmentBaseOfPtr ptr)) = liveTagByte c := by
      by_contra hne
      exact hbyte ⟨ht, hne⟩
    have hoff := (sub_base_lt ptr).2
    obtain ⟨hl, -, -⟩ := lanePs_pass hps hoff
    obtain ⟨hmod, hdiv, -⟩ := rotateGranule_lt hg
    have hguard : smallFreeGuard bd _ (h.largePayloadMismatch (segmentBaseOfPtr ptr) ptr) _ _ c =
        some .accept := guard_accept hps hoff hg hb
    unfold deallocRouting
    rw [canonicalBlockOf_base hp hl hr]
    simp only [Option.bind_eq_bind, Option.bind_some]
    unfold deallocOwnThreadWithBase
    rw [hc]
    dsimp only
    rw [hguard, hdiv, lanePush_eq bd env h.heap ptr c hmod]
    simp only [Option.bind_eq_bind, Option.bind_some]
    cases h.heap.pushFreed bd env c ptr <;> rfl

/-- A second chance that hits arms the memo as the lookup of the chain does. -/
lemma laneSecondChance_eq (env : Surroundings) (cold : ColdCallees) (ht : bd.tracked = true)
    (hp : ptr < 2 ^ 64) (hmiss : h.table.lastKey ≠ segmentBaseOfPtr ptr)
    (hc : bd.sizes.classFor (max layout.size minBlock) layout.align = some c) :
    h.laneSecondChance bd env cold ptr c layout = h.deallocRouting bd env cold ptr layout := by
  set key := segmentBaseOfPtr ptr with hkey
  unfold laneSecondChance probeArm
  dsimp only
  rw [← hkey]
  by_cases hhit : (h.table.ownCache (cacheIndex key)).1 = key ∧
      (h.table.ownCache (cacheIndex key)).2 = key
  · rw [if_pos hhit]
    dsimp only
    rw [hhit.2]
    set t' : SegmentTable := { h.table with lastKey := key, lastRoot := key } with ht'
    -- The chain arms the memo with the same pair, from either state.
    have harmed : t'.canonicalBaseOfMut key = some (some key, t') := by
      simp [canonicalBaseOfMut, ht']
    have hplain : h.table.canonicalBaseOfMut key = some (some key, t') := by
      simp [canonicalBaseOfMut, hmiss, hhit.1, hhit.2, ht']
    have hstep := laneSteps_eq (h := { h with table := t' }) env cold ht hp harmed hc
    rw [← hkey] at hstep
    rw [hstep]
    have hblock : FreeHeap.canonicalBlockOf ptr { h with table := t' } = h.canonicalBlockOf ptr := by
      unfold canonicalBlockOf
      rw [← hkey, hplain]
      dsimp only
      rw [harmed]
    unfold deallocRouting
    rw [hblock]
  · rw [if_neg hhit]

/-- The table and the headers are those of a legal run. -/
def Reachable (h : FreeHeap) : Prop :=
  ∃ base w as w', FreshTable base w ∧ LegalAccesses as w ∧ runAccesses as w = some w' ∧
    h.table = w'.table ∧ h.headers = w'.mem

lemma Reachable.memoExact (hr : h.Reachable) : h.table.MemoExact := by
  obtain ⟨base, w, as, w', hf, hl, hw, ht, -⟩ := hr
  rw [ht]
  exact runAccesses_memoExact as hf.inv.1 hf.cacheExact hl hf.memoExact hw

lemma build_smallMax_lt (m : MediumClasses) : (SizeClasses.build m).smallMax < segment := by
  cases m <;> decide +kernel

/-- The fast lane refines the routing chain. For every pointer and every layout, and every state
of magazines, depot, segments and state bytes over the table and headers of a legal run, the
free through the lane with its second chance ends as the chain ends, on the same heap. -/
theorem deallocFast_refines (env : Surroundings) (cold : ColdCallees) {m : MediumClasses}
    (hsizes : bd.sizes = .build m) (hm : bd.misuseChecks = true) (hr : h.Reachable)
    (ptr : BitVec 64) (layout : Layout) :
    h.deallocFast bd env cold ptr layout = h.deallocRouting bd env cold ptr.toNat layout := by
  have ht : bd.tracked = true := by simp [Build.tracked, hm]
  unfold deallocFast
  dsimp only
  split_ifs with hlane hmemo
  · rfl
  all_goals
    push Not at hlane
    obtain ⟨halign, hseed⟩ := hlane
    have hmax : bd.sizes.s2cLen - 1 < 2 ^ 59 := by
      have := build_smallMax_lt m
      rw [← hsizes] at this
      unfold SizeClasses.s2cLen minBlock
      unfold segment at this
      omega
    have hc := bd.sizes.classFor_of_seed halign (seed_eq layout.size_lt hmax.le hseed) hseed
  · exact laneSecondChance_eq env cold ht ptr.isLt hmemo hc
  · -- The memo answers, with the base itself.
    have hkey : h.table.lastKey = segmentBaseOfPtr ptr.toNat := not_not.mp hmemo
    have hroot : h.table.memo.2 = segmentBaseOfPtr ptr.toNat := by
      have hne := segmentBaseOfPtr_ne_emptyKey ptr.toNat
      rw [← hkey] at hne ⊢
      exact hr.memoExact hne
    rw [hroot]
    apply laneSteps_eq env cold ht ptr.isLt _ hc
    have hlast : h.table.lastRoot = segmentBaseOfPtr ptr.toNat := hroot
    unfold canonicalBaseOfMut
    rw [if_pos hkey, hlast]

/-! ## A free that the lane accepts -/

def checkedBuild : Build := { releaseBuild with misuseChecks := true }

lemma fourKiB_pos : 0 < 4096 := by decide

/-- A refill carves what is asked from the current segment, and the OS grants every page. -/
def carving : Surroundings :=
  ⟨4096, fourKiB_pos, fun _ => List.replicate 2 ⟨none, none, .ok, none, false, .ok, none⟩,
    fun _ _ => false, fun _ => true, fun _ => true⟩

/-- The cold callees leave the heap alone. -/
def idleCallees : ColdCallees := ⟨fun _ _ h => some h, fun _ _ h => some h⟩

/-- A request for 16 bytes, of the first class. -/
def granule : Layout := ⟨16, 8, ⟨3, rfl⟩, by decide⟩

/-- The fresh table once a lookup of its segment has probed the hash. -/
def cachedTable (a : ActiveKindIndex) : SegmentTable :=
  { primordialTable segment a with
    ownCache := Function.update (primordialTable segment a).ownCache (cacheIndex segment)
      (segment, segment) }

/-- The same table once a second lookup has hit the owner cache. -/
def armedTable (a : ActiveKindIndex) : SegmentTable :=
  { cachedTable a with lastKey := segment, lastRoot := segment }

lemma freshTable_primordial {a : ActiveKindIndex} (ha : ActiveKindIndex.initInPlace = some a) :
    FreshTable segment ⟨primordialTable segment a, primordialMem⟩ :=
  ⟨⟨by decide, by decide, rfl, rfl, rfl⟩, _, by rw [fromPrimordial, ha]; rfl, .inl rfl⟩

lemma lookup_cached {a : ActiveKindIndex} (ha : ActiveKindIndex.initInPlace = some a) :
    (primordialTable segment a).canonicalBaseOfMut segment = some (some segment, cachedTable a) := by
  have hslot := primordialTable_slots segment a
  have hlive := live_primordialTable (show segment ≠ 0 by decide) a
  have hkey : (primordialTable segment a).key primordialMem 0 = segment := by
    rw [SegmentTable.key, hslot]
    change segmentBaseOfPtr (segment + 0) = segment
    decide
  have hfind := ((freshTable_primordial ha).inv.1.hashFind_iff segment segment).mpr
    ⟨0, (hlive 0).mpr rfl, hkey, hslot⟩
  have hmemo : (primordialTable segment a).lastKey ≠ segment := by
    simp [primordialTable, emptyKey, segment]
  have hown : ((primordialTable segment a).ownCache (cacheIndex segment)).1 ≠ segment := by
    simp [primordialTable, emptyKey, segment]
  rw [canonicalBaseOfMut, if_neg hmemo]
  dsimp only
  rw [if_neg hown]
  dsimp only at hfind
  rw [hfind]
  rfl

lemma lookup_armed (a : ActiveKindIndex) :
    (cachedTable a).canonicalBaseOfMut segment = some (some segment, armedTable a) := by
  have hmemo : (cachedTable a).lastKey ≠ segment := by
    simp [cachedTable, primordialTable, emptyKey, segment]
  rw [canonicalBaseOfMut, if_neg hmemo]
  simp [cachedTable, armedTable]

/-- The heap of a checked build over a table of its primordial segment. -/
def heapOver (heap : HeapCore) (t : SegmentTable) : FreeHeap :=
  ⟨heap, t, primordialMem, fun _ => 0, 0⟩

lemma reachable_cached {a : ActiveKindIndex} (ha : ActiveKindIndex.initInPlace = some a)
    (heap : HeapCore) : (heapOver heap (cachedTable a)).Reachable :=
  ⟨_, _, [.canonicalBaseOfMut segment], ⟨cachedTable a, primordialMem⟩, freshTable_primordial ha,
    ⟨trivial, fun _ _ => trivial⟩, by simp [runAccesses, Access.run, lookup_cached ha], rfl, rfl⟩

lemma reachable_armed {a : ActiveKindIndex} (ha : ActiveKindIndex.initInPlace = some a)
    (heap : HeapCore) : (heapOver heap (armedTable a)).Reachable :=
  ⟨_, _, [.canonicalBaseOfMut segment, .canonicalBaseOfMut segment],
    ⟨armedTable a, primordialMem⟩, freshTable_primordial ha,
    ⟨trivial, fun _ _ => ⟨trivial, fun _ _ => trivial⟩⟩,
    by simp [runAccesses, Access.run, lookup_cached ha, lookup_armed], rfl, rfl⟩

/-- The magazine of the first class, and the state bytes of the primordial segment. -/
def lane (h : FreeHeap) (block : ℕ) : ℕ × BitVec 8 :=
  ((h.heap.tcache 0).count,
    (h.heap.core.world.heap.segs segment).byte (block % segment / minBlock))

/-- The first block of a new heap and its free, on a table with the memo armed and on one where
only the owner cache answers. -/
lemma lane_accepts : (ActiveKindIndex.initInPlace.bind fun a =>
    ((HeapCore.new checkedBuild segment 0).alloc checkedBuild carving 0).map fun r =>
      let freed := fun t => ((heapOver r.1 t).deallocFast checkedBuild carving idleCallees
        (BitVec.ofNat 64 r.2) granule).map fun h => (h.lane r.2, h.localRejectFrees)
      (((armedTable a).lastKey, r.2, (heapOver r.1 (armedTable a)).lane r.2),
        freed (armedTable a), freed (cachedTable a))) =
    some ((segment, segment + checkedBuild.primordialMetaEnd, 15, liveTagByte 0),
      some ((16, liveTagMagByte 0), 0), some ((16, liveTagMagByte 0), 0)) := by
  decide +kernel

/-- The block that a new heap hands out goes back through the memo, and through the second chance:
15 blocks in the magazine become 16, and LIVE becomes MAG. -/
theorem deallocFast_refines_firstBlock : ∃ a heap block,
    ActiveKindIndex.initInPlace = some a ∧
    (HeapCore.new checkedBuild segment 0).alloc checkedBuild carving 0 = some (heap, block) ∧
    (armedTable a).lastKey = segmentBaseOfPtr block ∧
    (heapOver heap (armedTable a)).lane block = (15, liveTagByte 0) ∧
    ∀ t ∈ [armedTable a, cachedTable a],
      ((heapOver heap t).deallocFast checkedBuild carving idleCallees (BitVec.ofNat 64 block)
        granule).map (fun h => h.lane block) = some (16, liveTagMagByte 0) ∧
      (heapOver heap t).deallocFast checkedBuild carving idleCallees (BitVec.ofNat 64 block)
          granule =
        (heapOver heap t).deallocRouting checkedBuild carving idleCallees
          (BitVec.ofNat 64 block).toNat granule := by
  obtain ⟨a, ha, hrun⟩ := Option.bind_eq_some_iff.mp lane_accepts
  obtain ⟨⟨heap, block⟩, halloc, hr⟩ := Option.map_eq_some_iff.mp hrun
  simp only [Prod.mk.injEq] at hr
  obtain ⟨⟨hkey, rfl, hlane⟩, harmed, hcached⟩ := hr
  refine ⟨a, heap, _, ha, halloc, by rw [hkey]; decide, hlane, fun t ht => ?_⟩
  have hreach : (heapOver heap t).Reachable := by
    obtain rfl | rfl : t = armedTable a ∨ t = cachedTable a := by simpa using ht
    · exact reachable_armed ha heap
    · exact reachable_cached ha heap
  refine ⟨?_, deallocFast_refines _ _ (m := .none) rfl rfl hreach _ _⟩
  obtain rfl | rfl : t = armedTable a ∨ t = cachedTable a := by simpa using ht
  · obtain ⟨h, hh, hl⟩ := Option.map_eq_some_iff.mp harmed
    rw [hh, Option.map_some, (Prod.mk.inj hl).1]
  · obtain ⟨h, hh, hl⟩ := Option.map_eq_some_iff.mp hcached
    rw [hh, Option.map_some, (Prod.mk.inj hl).1]

end FreeHeap

end Small

end SeferAlloc
