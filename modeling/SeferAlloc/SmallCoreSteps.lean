import SeferAlloc.SmallCoreLedger

/-!
# Steps on one segment

Pops, carves and frees change one segment and tell the directory when a list
becomes empty or stops being empty. A segment that has become empty enters the
pool or leaves the table.
-/
namespace SeferAlloc
namespace SmallCore
open Small IntrusiveList ClassLeaves RoutedIssueRun SmallBatch SmallBatch.AllocCore ScanBackoff

/-! ## The bits of one slot -/

/-- The directory after the lists of the slot have got new heads. -/
structure Relists (bd : Build) (slot : ℕ) (head : ℕ → Option ℕ)
    (d d' : Directory.SegmentDirectory) : Prop where
  counted : Directory.Counted bd.directory d'
  get : ∀ cls < bd.small.sizes.count, ∀ s < maxSegments,
    d'.get 0 cls s = true ↔ if s = slot then head cls ≠ none else d.get 0 cls s = true

section Bits
variable {bd : Build} {slot cls : ℕ} {head head' : ℕ → Option ℕ} {d d' : Directory.SegmentDirectory}

/-- The bits of the slot are those of the lists with these heads. -/
def ListsAt (bd : Build) (slot : ℕ) (head : ℕ → Option ℕ) (d : Directory.SegmentDirectory) : Prop :=
  ∀ cls < bd.small.sizes.count, d.get 0 cls slot = true ↔ head cls ≠ none

lemma Build.class_lt_directory (bd : Build) (h : cls < bd.small.sizes.count) :
    cls < bd.directory.classes := bd.classes_eq ▸ h

/-- The lists that were empty still are, and so on. -/
lemma Relists.same (hd : Directory.Counted bd.directory d) (ha : ListsAt bd slot head d)
    (hh : ∀ cls, head' cls = none ↔ head cls = none) : Relists bd slot head' d d := by
  refine ⟨hd, fun cls hcls s _ => ?_⟩
  split_ifs with hs
  · rw [hs, ha cls hcls, ne_eq, ne_eq, hh]
  · rfl

lemma setBit_get (hd : Directory.Counted bd.directory d) (hcls : cls < bd.small.sizes.count)
    (hslot : slot < maxSegments) (node : ℕ) :
    Directory.Counted bd.directory (Directory.setBit bd.directory node cls slot d) ∧
      ∀ k s, (Directory.setBit bd.directory node cls slot d).get 0 k s = true ↔
        (k = cls ∧ s = slot) ∨ d.get 0 k s = true := by
  obtain ⟨nb, hnb, hc, -, hget, -⟩ :=
    Directory.setBit_spec hd (bd.class_lt_directory hcls) hslot node
  obtain rfl : nb = 0 := by
    rw [bd.shared] at hnb
    exact Nat.le_zero.mp hnb
  exact ⟨hc, fun k s => by rw [hget]; simp⟩

lemma clearBit_get (hd : Directory.Counted bd.directory d) (hcls : cls < bd.small.sizes.count)
    (hslot : slot < maxSegments) :
    Directory.Counted bd.directory (Directory.clearBitAllNodes bd.directory cls slot d) ∧
      ∀ k s, (Directory.clearBitAllNodes bd.directory cls slot d).get 0 k s = true ↔
        d.get 0 k s = true ∧ ¬(k = cls ∧ s = slot) := by
  have hclear := Directory.clearBitAllNodes_clears hd (bd.class_lt_directory hcls) hslot
  exact ⟨hclear.counted, fun k s => by rw [hclear.get]; simp⟩

lemma clearSlot_get (hd : Directory.Counted bd.directory d) (hslot : slot < maxSegments) :
    Directory.Counted bd.directory (Directory.clearSlot bd.directory slot d) ∧
      ∀ k < bd.small.sizes.count, ∀ s, (Directory.clearSlot bd.directory slot d).get 0 k s = true ↔
        d.get 0 k s = true ∧ s ≠ slot := by
  have hclear := Directory.clearSlot_clears hd hslot
  exact ⟨hclear.counted, fun k hk s => by
    rw [hclear.get]
    simp [bd.class_lt_directory hk]⟩

/-- A list becomes empty. -/
lemma Relists.publishEmpty (hd : Directory.Counted bd.directory d) (ha : ListsAt bd slot head d)
    (hcls : cls < bd.small.sizes.count) (hslot : slot < maxSegments) (hnone : head' cls = none)
    (hh : ∀ k, k ≠ cls → head' k = head k) :
    Relists bd slot head' d (Directory.clearBitAllNodes bd.directory cls slot d) := by
  obtain ⟨hc, hget⟩ := clearBit_get hd hcls hslot
  refine ⟨hc, fun k hk s _ => ?_⟩
  rw [hget]
  split_ifs with hs
  · subst hs
    by_cases hkc : k = cls
    · subst hkc
      simp [hnone]
    · rw [hh k hkc, ha k hk]
      simp [hkc]
  · simp [hs]

/-- A list is not empty. -/
lemma Relists.publishNonempty (hd : Directory.Counted bd.directory d)
    (ha : ListsAt bd slot head d) (hcls : cls < bd.small.sizes.count) (hslot : slot < maxSegments)
    (hsome : head' cls ≠ none) (hh : ∀ k, k ≠ cls → head' k = head k) (node : ℕ) :
    Relists bd slot head' d (Directory.setBit bd.directory node cls slot d) := by
  obtain ⟨hc, hget⟩ := setBit_get hd hcls hslot node
  refine ⟨hc, fun k hk s _ => ?_⟩
  rw [hget]
  split_ifs with hs
  · subst hs
    by_cases hkc : k = cls
    · subst hkc
      simp [hsome]
    · rw [hh k hkc, ha k hk]
      simp [hkc]
  · simp [hs]

lemma Relists.trans {d'' : Directory.SegmentDirectory} (h : Relists bd slot head d d')
    (h' : Relists bd slot head' d' d'') : Relists bd slot head' d d'' := by
  refine ⟨h'.counted, fun cls hcls s hs => ?_⟩
  rw [h'.get cls hcls s hs]
  split_ifs with he
  · rfl
  · rw [h.get cls hcls s hs, if_neg he]

end Bits

/-! ## Operations on one segment -/

lemma writeStates_frame {bd : Small.Build} {cls : ℕ} {st : BlockState} (offs : List ℕ)
    (s : Segment) : (writeStates bd cls st offs s).kind = s.kind ∧
      (writeStates bd cls st offs s).bump = s.bump ∧
      (writeStates bd cls st offs s).head = s.head := by
  rw [writeStates_eq]
  split_ifs <;> exact ⟨rfl, rfl, rfl⟩

/-- An operation on one segment that leaves its slot and the pool alone. -/
structure Local (c c' : AllocCore) (base : ℕ) : Prop where
  about : c.About c' base
  pool : c'.pool = c.pool
  pooledCount : c'.pooledCount = c.pooledCount
  poolCap : c'.poolCap = c.poolCap
  cursor : c'.smallClassCursor = c.smallClassCursor
  kind : (c'.homes base).seg.kind = (c.homes base).seg.kind
  slot : (c'.homes base).segmentId = (c.homes base).segmentId
  committed : (c.homes base).decommitted = false → (c'.homes base).decommitted = false

section LocalSteps
variable {bd : Build} {c : AllocCore} {base cls : ℕ}

lemma Local.refl (c : AllocCore) (base : ℕ) : Local c c base :=
  ⟨⟨rfl, rfl, fun _ _ => rfl⟩, rfl, rfl, rfl, rfl, rfl, rfl, id⟩

lemma Local.trans {c₁ c₂ : AllocCore} (h : Local c c₁ base) (h' : Local c₁ c₂ base) :
    Local c c₂ base where
  about := ⟨h'.about.registered.trans h.about.registered, h'.about.current.trans h.about.current,
    fun x hx => (h'.about.homes x hx).trans (h.about.homes x hx)⟩
  pool := h'.pool.trans h.pool
  pooledCount := h'.pooledCount.trans h.pooledCount
  poolCap := h'.poolCap.trans h.poolCap
  cursor := h'.cursor.trans h.cursor
  kind := h'.kind.trans h.kind
  slot := h'.slot.trans h.slot
  committed hc := h'.committed (h.committed hc)

lemma local_setHome {home : Home} (hk : home.seg.kind = (c.homes base).seg.kind)
    (hs : home.segmentId = (c.homes base).segmentId)
    (hc : (c.homes base).decommitted = false → home.decommitted = false) :
    Local c (c.setHome base home) base := by
  refine ⟨about_setHome c base home, rfl, rfl, rfl, rfl, ?_, ?_, ?_⟩
  all_goals rw [homes_setHome]
  exacts [hk, hs, hc]

lemma local_setSeg {s : Segment} (hk : s.kind = (c.homes base).seg.kind) :
    Local c (c.setSeg base s) base := local_setHome hk rfl id

/-- The directory moves alone. -/
lemma local_directory (c : AllocCore) (base : ℕ) (d : Option Directory.SegmentDirectory) :
    Local c { c with directory := d } base :=
  ⟨⟨rfl, rfl, fun _ _ => rfl⟩, rfl, rfl, rfl, rfl, rfl, rfl, id⟩

lemma local_unlist {s : Segment} (hk : s.kind = (c.homes base).seg.kind) :
    Local c (c.unlist bd.toBuild base cls s) base := by
  rw [unlist]
  split_ifs
  · exact (local_setSeg hk).trans (local_directory ..)
  · exact local_setSeg hk

lemma local_enlist {s : Segment} (hk : s.kind = (c.homes base).seg.kind) (oldHead : Option ℕ) :
    Local c (c.enlist bd.toBuild base cls oldHead s) base := by
  rw [enlist]
  split_ifs
  · exact (local_setSeg hk).trans (local_directory ..)
  · exact local_setSeg hk

end LocalSteps

namespace Core
variable {bd : Build} {root base slot cls x : ℕ} {c : Core} {q : List ℕ} {alloc : AllocCore}
  {b : Blocks}

lemma Lists.at (h : c.Wf bd root q) (hr : c.alloc.registered base = true)
    {d : Directory.SegmentDirectory} (hd : c.alloc.directory = some d) :
    ListsAt bd (c.alloc.homes base).segmentId (c.seg base).head d := fun cls hcls => by
  rw [(h.directory d hd).exact cls hcls _ (h.slot_lt hr), h.baseAt_slot hr]
  exact and_iff_right (h.ne_zero hr)

lemma baseAt_touch (hl : Local c.alloc alloc base) (slot : ℕ) :
    (c.touch alloc base b).baseAt slot = c.baseAt slot := by
  refine baseAt_congr ?_ ?_ hl.about.registered (fun x _ => ?_) slot
  · rfl
  · rfl
  by_cases hx : x = base
  · subst hx
    exact hl.slot
  · exact congrArg Home.segmentId (hl.about.homes x hx)

@[simp] lemma touch_blocks_self (c : Core) (alloc : AllocCore) (base : ℕ) (b : Blocks) :
    (c.touch alloc base b).blocks base = b := Function.update_self ..

lemma touch_blocks_of_ne (hx : x ≠ base) : (c.touch alloc base b).blocks x = c.blocks x :=
  Function.update_of_ne hx ..

/-- A step on one segment keeps the invariant. -/
lemma Wf.touch (h : c.Wf bd root q) (hr : c.alloc.registered base = true)
    (hl : Local c.alloc alloc base) (hk : Kept bd.toBuild (alloc.homes base) b)
    (hlive : base ∈ q → (alloc.homes base).seg.live = (c.seg base).live)
    (hp : Reclaimable b (c.pending base))
    (hd : ∀ d', alloc.directory = some d' → ∃ d, c.alloc.directory = some d ∧
      Relists bd (c.alloc.homes base).segmentId (alloc.homes base).seg.head d d')
    (hf : bd.lazyCommit = true →
      (alloc.homes base).seg.bump ≤ (alloc.homes base).committedPayloadEnd ∧
        (alloc.homes base).committedPayloadEnd ≤ segment) :
    (c.touch alloc base b).Wf bd root q := by
  have hbase := fun slot => baseAt_touch (b := b) hl slot
  have hreg : (c.touch alloc base b).alloc.registered = c.alloc.registered := hl.about.registered
  refine ⟨h.sound.about hl.about hk, ?_, fun x hx => ?_, fun x hx => ?_, fun x hx =>
    h.aligned x (hreg ▸ hx), h.count, ?_, fun x hx => ?_, fun k slot hs => ?_, fun d' hd' => ?_,
    fun hlazy x hx => ?_⟩
  · refine h.pool.congr hl.pool hl.pooledCount hl.poolCap hl.about.registered hl.about.current rfl
      (fun x hx => ?_) fun x hx => ?_
    · by_cases hxb : x = base
      · subst hxb
        exact congrArg poolKind hl.kind
      · exact congrArg (fun home => poolKind home.seg.kind) (hl.about.homes x hxb)
    · by_cases hxb : x = base
      · subst hxb
        exact hlive hx
      · exact congrArg (fun home => home.seg.live) (hl.about.homes x hxb)
  · rw [hreg] at hx
    by_cases hxb : x = base
    · subst hxb
      exact hl.committed (h.committed x hx)
    · exact (congrArg Home.decommitted (hl.about.homes x hxb)).trans (h.committed x hx)
  · rw [hreg] at hx
    by_cases hxb : x = base
    · subst hxb
      exact (congrArg (fun i => c.slots i = x ∧ i < c.count) hl.slot).mpr (h.placed x hx)
    · exact (congrArg (fun home : Home => c.slots home.segmentId = x ∧ home.segmentId < c.count)
        (hl.about.homes x hxb)).mpr (h.placed x hx)
  · by_cases hxb : root = base
    · subst hxb
      exact hl.slot.trans h.root
    · exact (congrArg Home.segmentId (hl.about.homes root hxb)).trans h.root
  · rw [hreg] at hx
    by_cases hxb : x = base
    · subst hxb
      rw [touch_blocks_self]
      exact hp
    · rw [touch_blocks_of_ne hxb]
      exact h.pending x hx
  · rw [hbase]
    exact h.cursors k slot (hl.cursor ▸ hs)
  · obtain ⟨d, hd, hrel⟩ := hd d' hd'
    refine ⟨hrel.counted, fun k hk s hs => ?_⟩
    rw [hrel.get k hk s hs, hbase]
    split_ifs with he
    · subst he
      rw [h.baseAt_slot hr]
      exact (and_iff_right (h.ne_zero hr)).symm
    · rw [(h.directory d hd).exact k hk s hs]
      refine and_congr_right fun h0 => ?_
      have hxb : c.baseAt s ≠ base := fun hb => he ((h.slot_unique hb (hb ▸ h0)).symm)
      exact not_congr (iff_of_eq (congrArg (fun home : Home => home.seg.head k = none)
        (hl.about.homes _ hxb).symm))
  · rw [hreg] at hx
    by_cases hxb : x = base
    · subst hxb
      exact hf hlazy
    · exact (congrArg (fun home : Home => home.seg.bump ≤ home.committedPayloadEnd ∧
        home.committedPayloadEnd ≤ segment) (hl.about.homes x hxb)).mpr (h.frontier hlazy x hx)

/-! ## Pops -/

/-- Blocks that were not free before stay reclaimable. -/
lemma reclaimable_putAll {records : List (ℕ × ℕ)} {out : List ℕ} (h : Reclaimable b records)
    (hout : ∀ x ∈ out, b.place x ≠ .live) (st : BlockState) :
    Reclaimable (b.putAll out st) records := by
  refine ⟨h.1, fun r hr => ?_⟩
  obtain ⟨hx, hlive⟩ := h.2 r hr
  have hnot : r.1 ∉ out := fun hm => hout _ hm hlive
  exact ⟨hx, by simp [Blocks.putAll, hnot, hlive]⟩

/-- A list of the segment loses blocks from its front. -/
lemma Wf.unlist (h : c.Wf bd root q) (hr : c.alloc.registered base = true) (hq : base ∉ q)
    (hcls : cls < bd.small.sizes.count) {s : Segment} {out : List ℕ} {st : BlockState}
    (hout : ∀ x ∈ out, (c.blocks base).place x = .free)
    (hrep : Represents bd.small s ((c.blocks base).putAll out st))
    (hframe : (c.seg base).Framed s) (hother : ∀ k, k ≠ cls → s.head k = (c.seg base).head k)
    (hsome : (c.seg base).head cls ≠ none) :
    Local c.alloc (c.alloc.unlist bd.toBuild base cls s) base ∧
      (c.touch (c.alloc.unlist bd.toBuild base cls s) base ((c.blocks base).putAll out st)).Wf bd
        root q := by
  have hl : Local c.alloc (c.alloc.unlist bd.toBuild base cls s) base := local_unlist hframe.kind
  refine ⟨hl, h.touch hr hl ?_ (fun hm => absurd hm hq) ?_ (fun d' hd' => ?_) fun hlazy => ?_⟩
  · rw [homes_unlist]
    exact (h.kept hr).setSeg hrep rfl
  · exact reclaimable_putAll (h.pending base hr) (fun x hx => by simp [hout x hx]) st
  · have hid : ((c.alloc.setSeg base s).homes base).segmentId =
        (c.alloc.homes base).segmentId := by
      rw [setSeg, homes_setHome]
    rw [homes_unlist]
    rw [AllocCore.unlist] at hd'
    split_ifs at hd' with hnone
    · obtain ⟨d, hd, rfl⟩ := Option.map_eq_some_iff.mp hd'
      rw [hid]
      exact ⟨d, hd, .publishEmpty (h.directory d hd).counted (Lists.at h hr hd) hcls
        (h.slot_lt hr) hnone hother⟩
    · refine ⟨d', hd', .same (h.directory d' hd').counted (Lists.at h hr hd') fun k => ?_⟩
      by_cases hk : k = cls
      · subst hk
        exact iff_of_false hnone hsome
      · rw [hother k hk]
  · rw [homes_unlist]
    exact hframe.bump ▸ h.frontier hlazy base hr

/-- A pop of an empty list changes nothing. -/
lemma popFree_none (hnone : c.head base cls = none) :
    c.popFree bd base cls = some (c, .ok none) := by
  have hhead : (c.alloc.homes base).seg.head cls = none := hnone
  rw [popFree, AllocCore.popFree]
  simp only [hhead, Option.bind_eq_bind, Option.bind_some]
  rw [show (Except.toOption (Except.ok none : Except Unit (Option ℕ))).join = none from rfl,
    Option.toList_none, Blocks.putAll_nil, touch, Function.update_eq_self]
  rfl

end Core

/-- Blocks of a class leave the list of a segment, or are carved in it. -/
structure Issued (bd : Build) (root : ℕ) (c c' : Core) (q : List ℕ) (base cls : ℕ) (out : List ℕ)
    (st : BlockState) : Prop where
  wf : c'.Wf bd root q
  step : Local c.alloc c'.alloc base
  clock : c.clock ≤ c'.clock
  ledger : c'.ledger = c.ledger.setAll (out.map fun x => (base, x, cls)) (some st)
  fresh : ∀ x ∈ out, c.held (base, x, cls) = none
  nodup : out.Nodup
  live : out ≠ [] → (c'.seg base).live ≠ 0
  slots : c'.slots = c.slots ∧ c'.count = c.count

/-- The events of a batch. -/
def issues (base cls : ℕ) (st : BlockState) (out : List ℕ) :
    List (Lending.Event Block BlockState) :=
  out.map fun x => .issue (base, x, cls) st

namespace Core
variable {bd : Build} {root base slot cls x : ℕ} {c c' : Core} {q : List ℕ} {alloc : AllocCore}
  {b : Blocks} {out : List ℕ} {st : BlockState}

lemma Wf.tidyBut (h : c.Wf bd root q) (ht : c.Tidy q) (x : ℕ) : c.TidyBut q x :=
  fun y hy hkind hlive => by
    obtain hm | hm | hm := ht y hy hkind hlive
    · exact .inl hm
    · exact .inr (.inl hm)
    · exact absurd hm (h.ne_zero hy)

/-- The segment that was left out is in its place after all. -/
lemma TidyBut.tidy (h : c.TidyBut q x) (hx : c.alloc.registered x = true →
      (c.seg x).kind = .small → (c.seg x).live = 0 → x ∈ q ∨ x = c.smallCur) :
    c.Tidy q := fun y hy hkind hlive => by
  obtain hm | hm | rfl := h y hy hkind hlive
  · exact .inl hm
  · exact .inr (.inl hm)
  · exact (hx hy hkind hlive).imp_right .inl

/-- An operation on one segment leaves the others in their place. -/
lemma TidyBut.local (h : c.TidyBut q base) (hl : Local c.alloc c'.alloc base) :
    c'.TidyBut q base := fun y hy hkind hlive => by
  by_cases hyb : y = base
  · exact .inr (.inr hyb)
  · have hcur : c'.smallCur = c.smallCur := hl.about.current
    have hhome := hl.about.homes y hyb
    rw [hcur]
    refine h y (hl.about.registered ▸ hy) ?_ ?_
    · exact (congrArg (fun home : Home => home.seg.kind) hhome).symm.trans hkind
    · exact (congrArg (fun home : Home => home.seg.live) hhome).symm.trans hlive

end Core

section
variable {bd : Build} {root base slot cls x : ℕ} {c c' : Core} {q : List ℕ} {alloc : AllocCore}
  {b : Blocks} {out : List ℕ} {st : BlockState}

lemma Issued.tidy (h : Issued bd root c c' q base cls out st) (ht : c.TidyBut q base)
    (hout : out ≠ [] ∨ base = c.smallCur) : c'.Tidy q := by
  refine (ht.local h.step).tidy fun _ _ hlive => .inr ?_
  obtain hne | hcur := hout
  · exact absurd hlive (h.live hne)
  · exact hcur.trans h.step.about.current.symm

lemma block_injective (base cls : ℕ) :
    Function.Injective fun x => ((base, x, cls) : Block) := fun _ _ h => by simpa using h

lemma Issued.traced (h : Issued bd root c c' q base cls out st) (env : ℕ → Answers) :
    Traced bd env c (issues base cls st out) c' := by
  have hmap : issues base cls st out =
      (out.map fun x => ((base, x, cls) : Block)).map (.issue · st) := by
    rw [List.map_map]
    rfl
  have hapart := h.wf.apart
  rw [h.ledger] at hapart
  refine .quiet ?_ h.clock ?_
  · rw [h.ledger, hmap]
    refine .issueAll (h.nodup.map (block_injective base cls)) (fun p hp => ?_) hapart
    obtain ⟨x, hx, rfl⟩ := List.mem_map.mp hp
    exact h.fresh x hx
  · refine List.filterMap_eq_nil_iff.mpr fun e he => ?_
    obtain ⟨x, -, rfl⟩ := List.mem_map.mp he
    rfl

lemma Issued.nil (h : c.Wf bd root q) : Issued bd root c c q base cls [] st :=
  ⟨h, .refl _ _, le_rfl, (Lending.setAll_nil _).symm, by simp, List.nodup_nil, absurd rfl,
    rfl, rfl⟩

end

namespace Core
variable {bd : Build} {root base slot cls x : ℕ} {c c' : Core} {q : List ℕ} {alloc : AllocCore}
  {b : Blocks} {out : List ℕ} {st : BlockState}

/-- A pop of a list that is not empty. -/
lemma Wf.popFree (h : c.Wf bd root q) (hr : c.alloc.registered base = true) (hq : base ∉ q)
    (hsome : c.head base cls ≠ none) :
    ∃ c' x, c.popFree bd base cls = some (c', .ok (some (base + x))) ∧
      Issued bd root c c' q base cls [x] .live := by
  obtain ⟨x, hx⟩ := Option.ne_none_iff_exists'.mp hsome
  have hk := h.kept hr
  have hself : (c.alloc.homes base).seg = (c.alloc.homes base).seg.settle cls (some x)
      (c.alloc.homes base).seg.live := by
    rw [← show (c.alloc.homes base).seg.head cls = some x from hx]
    exact (Segment.settle_self _ _).symm
  have hrep := hk.represents
  rw [hself] at hrep
  have hlive : BlockState.live ≠ .free := by decide
  obtain ⟨hcarved, hfree, -, -, hs⟩ := hrep.take hlive
  set s := ((c.alloc.homes base).seg.writeByte bd.small x cls .live).settle cls
    ((c.alloc.homes base).seg.next x) ((c.alloc.homes base).seg.live + 1) with hsdef
  have hframe : (c.seg base).Framed s :=
    ⟨(writeByte_framed _ x cls .live).kind, (writeByte_framed _ x cls .live).bump⟩
  have hother : ∀ k, k ≠ cls → s.head k = (c.seg base).head k := fun k hk =>
    (Function.update_of_ne hk _ _).trans (congrFun (writeByte_frame _ x cls .live).1 k)
  rw [← Blocks.putAll_singleton] at hs
  have hout : ∀ y ∈ [x], (y, cls) ∈ (c.blocks base).carved ∧ (c.blocks base).place y = .free :=
    fun y hy => List.mem_singleton.mp hy ▸ ⟨hcarved, hfree⟩
  obtain ⟨hl, hwf⟩ := h.unlist hr hq (hrep.placed _ hcarved).1 (fun y hy => (hout y hy).2) hs hframe
    hother hsome
  refine ⟨_, x, ?_, hwf, hl, le_rfl, h.ledger_putAll hr hl.about.registered hlive fun y hy =>
    (hout y hy).1, fun y hy => ?_, List.nodup_singleton x, fun _ => ?_, rfl, rfl⟩
  · rw [Core.popFree, popFree_eq hself hk]
    rfl
  · exact not_ne_iff.mp fun hn => (held_ne_none.mp hn).2.2 (hout y hy).2
  · change ((c.alloc.unlist bd.toBuild base cls s).homes base).seg.live ≠ 0
    rw [homes_unlist]
    exact Nat.succ_ne_zero _

lemma touch_self (c : Core) (base : ℕ) : c.touch c.alloc base (c.blocks base) = c := by
  rw [touch, Function.update_eq_self]

/-- A batch drain takes the first blocks of a list. -/
lemma Wf.tryDrainFreelistBatch (h : c.Wf bd root q) (hr : c.alloc.registered base = true)
    (hq : base ∉ q) (cls want : ℕ) (hst : st ≠ .free) :
    ∃ c' out, c.tryDrainFreelistBatch bd base cls want st = some (c', out.map (base + ·)) ∧
      Issued bd root c c' q base cls out st ∧ out.length ≤ want ∧
      (out = [] ↔ want = 0 ∨ c.head base cls = none) := by
  have hk := h.kept hr
  obtain ⟨l, hl, hmem⟩ := hk.represents.lists cls
  have heq := tryDrainFreelistBatch_eq hst want hk hl
  have hempty : l.take want = [] ↔ want = 0 ∨ c.head base cls = none := by
    rw [List.take_eq_nil_iff]
    refine or_congr_right ⟨fun hl0 => ?_, fun hnone => ?_⟩
    · rw [hl0] at hl
      exact hl.head?_eq.symm
    · rw [show (c.alloc.homes base).seg.head cls = none from hnone] at hl
      exact IntrusiveList.chain_none.mp hl
  by_cases hnil : l.take want = []
  · rw [if_pos hnil, hnil] at heq
    refine ⟨c, [], ?_, .nil h, Nat.zero_le _, by simp [← hempty, hnil]⟩
    rw [Core.tryDrainFreelistBatch, heq]
    simp only [Option.bind_eq_bind, Option.bind_some]
    rw [Blocks.putAll_nil, touch_self]
    rfl
  rw [if_neg hnil] at heq
  have hself : Represents bd.small ((c.alloc.homes base).seg.settle cls
      ((c.alloc.homes base).seg.head cls) (c.alloc.homes base).seg.live) (c.blocks base) := by
    rw [Segment.settle_self]
    exact hk.represents
  obtain ⟨s', out, rest, hloop, -, -, hnodup, hfree, hrep⟩ := drainLoop_spec hst want hself
  rw [drainLoop_eq hst want hself hl] at hloop
  obtain ⟨rfl, rfl, rfl⟩ : _ = s' ∧ l.take want = out ∧ (l.drop want).head? = rest := by
    simpa using hloop
  obtain ⟨x, hx⟩ := List.exists_mem_of_ne_nil _ hnil
  have hframe := @writeStates_frame bd.small cls st (l.take want) (c.alloc.homes base).seg
  obtain ⟨hlocal, hwf⟩ := h.unlist hr hq (hk.represents.placed _ (hfree x hx).1).1
    (fun y hy => (hfree y hy).2) hrep ⟨hframe.1, hframe.2.1⟩ (fun k hk =>
      (Function.update_of_ne hk _ _).trans (congrFun hframe.2.2 k))
    fun hnone => hnil (hempty.mpr (.inr hnone))
  refine ⟨_, l.take want, ?_, ⟨hwf, hlocal, le_rfl, h.ledger_putAll hr hlocal.about.registered hst
    fun y hy => (hfree y hy).1, fun y hy => ?_, hnodup, fun _ => ?_, rfl, rfl⟩,
    List.length_take_le .., hempty⟩
  · rw [Core.tryDrainFreelistBatch, heq]
    rfl
  · exact not_ne_iff.mp fun hn => (held_ne_none.mp hn).2.2 (hfree y hy).2
  · change ((c.alloc.unlist bd.toBuild base cls _).homes base).seg.live ≠ 0
    rw [homes_unlist]
    change (c.alloc.homes base).seg.live + (l.take want).length ≠ 0
    have := List.length_pos_iff.mpr hnil
    omega

end Core

/-! ## Carves -/

/-- A segment of which blocks were carved, or that only got leaves or pages for them. -/
structure Grown (bd : Build) (home home' : Home) (b : Blocks) : Prop where
  kept : Kept bd.toBuild home' b
  kind : home'.seg.kind = home.seg.kind
  head : home'.seg.head = home.seg.head
  slot : home'.segmentId = home.segmentId
  committed : home.decommitted = false → home'.decommitted = false
  frontier : bd.lazyCommit = true → home.seg.bump ≤ home.committedPayloadEnd →
    home.committedPayloadEnd ≤ segment → home'.seg.bump ≤ home'.committedPayloadEnd ∧
      home.committedPayloadEnd ≤ home'.committedPayloadEnd ∧ home'.committedPayloadEnd ≤ segment

section Carves
variable {bd : Build} {os : Os} {home : Home} {base cls want : ℕ} {b : Blocks} {c : AllocCore}
  {st : BlockState}

lemma le_alignUp_growChunk (e : ℕ) : e ≤ alignUp e growChunk := by
  simp only [alignUp, growChunk]
  omega

/-- The pages of a carve: the frontier does not fall, and passes the carve when they are granted. -/
lemma ensureCommitted_spec (bd : SmallBatch.Build) (os : Os) (base e : ℕ) (home : Home) :
    ∃ flag frontier ok, ensureCommitted bd os base e home =
        ({ home with decommitted := flag, committedPayloadEnd := frontier }, ok) ∧
      (home.decommitted = false → flag = false) ∧
      (bd.lazyCommit = true → e ≤ segment → home.committedPayloadEnd ≤ segment →
        home.committedPayloadEnd ≤ frontier ∧ frontier ≤ segment ∧ (ok = true → e ≤ frontier)) := by
  simp only [ensureCommitted]
  split_ifs with hrec hgrow hcommit
  · exact ⟨home.decommitted, home.committedPayloadEnd, false, rfl, id, fun _ _ h => ⟨le_rfl, h, by simp⟩⟩
  · exact ⟨false, home.committedPayloadEnd, false, rfl, fun _ => rfl, fun _ _ h => ⟨le_rfl, h, by simp⟩⟩
  · refine ⟨false, _, true, rfl, fun _ => rfl, fun _ he _ => ⟨?_, min_le_right _ _, fun _ => ?_⟩⟩
    · exact hgrow.2.le.trans (le_min (le_alignUp_growChunk e) he)
    · exact le_min (le_alignUp_growChunk e) he
  · refine ⟨false, home.committedPayloadEnd, true, rfl, fun _ => rfl, fun hlazy _ h =>
      ⟨le_rfl, h, fun _ => ?_⟩⟩
    exact not_lt.mp fun hlt => hgrow ⟨hlazy, hlt⟩

lemma Grown.refl (hk : Kept bd.toBuild home b) : Grown bd home home b :=
  ⟨hk, rfl, rfl, rfl, id, fun _ h h' => ⟨h, le_rfl, h'⟩⟩

/-- The pages are asked for once the leaves are there. -/
lemma pages_grown (hk : Kept bd.toBuild home b) {codes : ClassLeaves}
    (hslab : codes.Slab home.system) (hext : Extends home.codes codes) {e : ℕ} (he : e ≤ segment)
    (os : Os) (base : ℕ) :
    ∃ home' ok, ensureCommitted bd.toBuild os base e { home with codes := codes } = (home', ok) ∧
      Grown bd home home' b ∧ home'.seg = home.seg ∧ home'.system = home.system ∧
      home'.codes = codes ∧ (bd.lazyCommit = true → home.committedPayloadEnd ≤ segment →
        ok = true → e ≤ home'.committedPayloadEnd) := by
  obtain ⟨flag, frontier, ok, hpages, hflag, hgrow⟩ :=
    ensureCommitted_spec bd.toBuild os base e { home with codes := codes }
  refine ⟨_, ok, hpages, ⟨hk.extend rfl rfl hslab hext, rfl, rfl, rfl, hflag, fun hl h h' => ?_⟩,
    rfl, rfl, rfl, fun hl h' => (hgrow hl he h').2.2⟩
  obtain ⟨hle, hseg, -⟩ := hgrow hl he h'
  exact ⟨h.trans hle, hle, hseg⟩

/-- The blocks are carved below the frontier. -/
lemma Grown.carved {home' : Home} {codes : ClassLeaves} {b' : Blocks} {start n : ℕ}
    (h : Grown bd home home' b)
    (hpages : bd.lazyCommit = true → home.committedPayloadEnd ≤ segment →
      start + n * bd.small.sizes.blockSize cls ≤ home'.committedPayloadEnd)
    (hk : Kept bd.toBuild { home' with
      seg := carved bd.small cls st start n home.seg
      codes := codes } b') :
    Grown bd home { home' with
      seg := carved bd.small cls st start n home.seg
      codes := codes } b' := by
  have hframe := @writeStates_frame bd.small cls st (Segment.runOffsets bd.small cls start n)
    home.seg
  refine ⟨hk, ?_, ?_, h.slot, h.committed, fun hl hb h' => ?_⟩
  · rw [carved_eq]
    exact hframe.1
  · rw [carved_eq]
    exact hframe.2.2
  · obtain ⟨-, hle, hend⟩ := h.frontier hl hb h'
    rw [carved_eq]
    exact ⟨hpages hl h', hle, hend⟩

lemma carved_live (start n : ℕ) (s : Segment) :
    (SmallBatch.carved bd.small cls st start n s).live = s.live + n := by
  rw [carved_eq]

/-- A carve takes the block at the cursor or none. -/
lemma carveBlock_grown (hk : Kept bd.toBuild (c.homes c.smallCur) b)
    (hcls : cls < bd.small.sizes.count) (os : Os) :
    ∃ home off, c.carveBlock bd.toBuild os cls = some (c.setHome c.smallCur home, off) ∧
      Grown bd (c.homes c.smallCur) home (b.carveAll cls .live off.toList) ∧
      ∀ x ∈ off, home.seg.live ≠ 0 ∧ (c.homes c.smallCur).seg.bump ≤ x := by
  set start := alignUp (c.homes c.smallCur).seg.bump (bd.small.sizes.blockSize cls) with hstart
  by_cases hroom : segment < start + bd.small.sizes.blockSize cls
  · refine ⟨c.homes c.smallCur, none, ?_, .refl hk, by simp⟩
    rw [setHome_self]
    simp only [AllocCore.carveBlock, ← hstart, if_pos hroom]
  have hroom' := not_lt.mp hroom
  have hone := prepared_one hk.slab bd.small.sizes cls start
  cases hprepare : SmallSidecar.prepare bd.small.sizes (c.homes c.smallCur).system start cls
    (c.homes c.smallCur).codes with
  | mk codes ok =>
  rw [hprepare] at hone
  cases ok with
  | false =>
      refine ⟨{ c.homes c.smallCur with codes := codes }, none, ?_, ⟨hk.extend rfl rfl hone.slab
        hone.extend, rfl, rfl, rfl, id, fun _ h h' => ⟨h, le_rfl, h'⟩⟩, by simp⟩
      simp only [AllocCore.carveBlock, ← hstart, if_neg hroom, hprepare]
  | true =>
      obtain ⟨home, granted, hpages, hgrown, hseg, hsystem, hcodes, hfront⟩ :=
        pages_grown hk hone.slab hone.extend hroom' os c.smallCur
      cases granted with
      | false =>
          refine ⟨home, none, ?_, hgrown, by simp⟩
          simp only [AllocCore.carveBlock, ← hstart, if_neg hroom, hprepare, hpages]
      | true =>
          obtain ⟨hp, -⟩ := hone.published rfl start (List.mem_singleton_self _)
          have hsegment := SmallBatch.carveBlock_eq hk.represents hcls hroom'
          rw [← hstart, ← hseg] at hsegment
          have hkept : Kept bd.toBuild { home with
              seg := carved bd.small cls .live start 1 (c.homes c.smallCur).seg
              codes := codes.put (start / minBlock) cls } (b.carveAll cls .live [start]) := by
            rw [← show Segment.runOffsets bd.small cls start 1 = [start] from runOffsets_one start,
              World.carveAll_runOffsets]
            exact hk.carveOne hcls hstart hroom' hprepare hsystem rfl rfl
          refine ⟨_, some start, ?_, hgrown.carved (fun hl h => ?_) hkept, ?_⟩
          · simp only [AllocCore.carveBlock, ← hstart, if_neg hroom, hprepare, hpages, hsegment,
              Option.bind_eq_bind, Option.bind_some]
            rw [commitIssue_published (hcodes ▸ hp) hcls, hcodes, hseg]
            rfl
          · rw [Nat.one_mul]
            exact hfront hl h rfl
          · rintro x ⟨rfl⟩
            refine ⟨?_, (alignUp_spec (bd.small.sizes.blockSize_granular cls).1).1⟩
            rw [carved_live]
            exact Nat.succ_ne_zero _

/-- A batch carve takes the blocks behind the cursor or none. -/
lemma tryCarveBatch_grown (hk : Kept bd.toBuild (c.homes c.smallCur) b)
    (hcls : cls < bd.small.sizes.count) (os : Os) (want : ℕ) (hst : st ≠ .free) :
    ∃ home r, c.tryCarveBatch bd.toBuild os cls want st = some (c.setHome c.smallCur home, r) ∧
      Grown bd (c.homes c.smallCur) home (b.carveAll cls st (slotOrder st (handed r))) ∧
      (handed r).length ≤ want ∧ (handed r).Nodup ∧
      ∀ x ∈ handed r, home.seg.live ≠ 0 ∧ (c.homes c.smallCur).seg.bump ≤ x := by
  obtain ⟨⟨c', r⟩, he, hr⟩ := tryCarveBatch_carves hk hcls os want hst
  have hall : AllPrepared bd.small.sizes (c.homes c.smallCur).system cls (c.batchRun bd.toBuild cls want)
      (c.homes c.smallCur).codes _ _ := prepareBatch_spec hk want
  have hnone : b.carveAll cls st (slotOrder st []) = b := by
    rw [slotOrder, List.reverse_nil, ite_self]
    rfl
  have hpage : 0 < c.batchCount bd.toBuild cls want → ∃ home ok,
      c.commitBatch bd.toBuild os cls want = (home, ok) ∧ Grown bd (c.homes c.smallCur) home b ∧
      home.seg = (c.homes c.smallCur).seg ∧ home.system = (c.homes c.smallCur).system ∧
      home.codes = (c.prepareBatch bd.toBuild cls want).2.1 ∧
      (bd.lazyCommit = true → (c.homes c.smallCur).committedPayloadEnd ≤ segment → ok = true →
        c.batchStart bd.toBuild cls + c.batchCount bd.toBuild cls want *
          bd.small.sizes.blockSize cls ≤ home.committedPayloadEnd) := fun hpos =>
    pages_grown hk hall.slab hall.extend (run_room rfl hpos) os c.smallCur
  cases hr with
  | full _ =>
      refine ⟨c.homes c.smallCur, .ok [], by rw [setHome_self, he], ?_, Nat.zero_le _,
        List.nodup_nil, fun x hx => absurd hx List.not_mem_nil⟩
      exact hnone.symm ▸ Grown.refl hk
  | noLeaf _ _ =>
      refine ⟨_, .error (), he, ?_, Nat.zero_le _, List.nodup_nil,
        fun x hx => absurd hx List.not_mem_nil⟩
      refine hnone.symm ▸ ⟨hk.extend rfl rfl hall.slab hall.extend, rfl, rfl, rfl, id, ?_⟩
      exact fun _ h h' => ⟨h, le_rfl, h'⟩
  | noPages hpos _ hpages =>
      obtain ⟨home, ok, hcommit, hgrown, -⟩ := hpage hpos
      refine ⟨home, .ok [], by rw [he, hcommit], ?_, Nat.zero_le _, List.nodup_nil,
        fun x hx => absurd hx List.not_mem_nil⟩
      exact hnone.symm ▸ hgrown
  | issued hpos hleaves hpages =>
      obtain ⟨home, ok, hcommit, hgrown, hseg, hsystem, hcodes, hfront⟩ := hpage hpos
      rw [hcommit] at he hpages
      rw [hleaves] at hall
      have hround : slotOrder st (handed (.ok (slotOrder st (c.batchRun bd.toBuild cls want)))) =
          c.batchRun bd.toBuild cls want := slotOrder_slotOrder ..
      have hmem : ∀ x, x ∈ handed (.ok (slotOrder st (c.batchRun bd.toBuild cls want))) ↔
          x ∈ c.batchRun bd.toBuild cls want := fun x => by
        change x ∈ slotOrder st _ ↔ _
        rw [slotOrder]
        split_ifs
        · exact List.mem_reverse
        · rfl
      refine ⟨_, _, he, ?_, ?_, ?_, fun x hx => ⟨?_, ?_⟩⟩
      · rw [hround]
        refine hgrown.carved (fun hl h => hfront hl h hpages) ?_
        rw [batchRun, World.carveAll_runOffsets]
        refine hk.carveRun (alignUp_spec (bd.small.sizes.blockSize_granular cls).1).1 hall hsystem
          rfl ?_
        exact carved_represents hk.represents hcls hst hpos (run_room rfl hpos)
      · change (slotOrder st _).length ≤ want
        rw [slotOrder]
        have hlen : (c.batchRun bd.toBuild cls want).length = c.batchCount bd.toBuild cls want := by
          simp [batchRun, Segment.runOffsets]
        split_ifs
        · rw [List.length_reverse, hlen]
          exact min_le_left ..
        · rw [hlen]
          exact min_le_left ..
      · have hnodup : (c.batchRun bd.toBuild cls want).Nodup := by
          refine List.Nodup.map_on (fun i _ j _ hij => ?_) List.nodup_range
          have hpos' := (bd.small.sizes.blockSize_granular cls).1
          exact Nat.eq_of_mul_eq_mul_right hpos' (Nat.add_left_cancel hij)
        change (slotOrder st _).Nodup
        rw [slotOrder]
        split_ifs
        · exact List.nodup_reverse.mpr hnodup
        · exact hnodup
      · rw [carved_live]
        omega
      · obtain ⟨i, -, rfl⟩ := List.mem_map.mp ((hmem x).mp hx)
        have hle := (alignUp_spec (n := (c.homes c.smallCur).seg.bump)
          (bd.small.sizes.blockSize_granular cls).1).1
        exact hle.trans (Nat.le_add_right _ _)

end Carves

namespace Core
variable {bd : Build} {env : ℕ → Answers} {root base slot cls x : ℕ} {c c' : Core} {q : List ℕ}
  {b : Blocks} {out : List ℕ} {st : BlockState}

/-- What the invariant does not read. -/
lemma Wf.congr (h : c.Wf bd root q) (ha : c'.alloc = c.alloc) (hb : c'.blocks = c.blocks)
    (hs : c'.slots = c.slots) (hn : c'.count = c.count) (hp : c'.pending = c.pending) :
    c'.Wf bd root q := by
  have hbase : ∀ slot, c'.baseAt slot = c.baseAt slot := fun slot => by
    rw [baseAt, baseAt, ha, hs, hn]
  refine ⟨by rw [ha, hb]; exact h.sound, by rw [ha]; exact h.pool, by rw [ha]; exact h.committed,
    by rw [ha, hs, hn]; exact h.placed, by rw [ha]; exact h.aligned, hn ▸ h.count,
    by rw [ha]; exact h.root, by rw [ha, hb, hp]; exact h.pending, fun k slot hk => ?_,
    fun d hd => ?_, by unfold seg; rw [ha]; exact h.frontier⟩
  · rw [hbase]
    exact h.cursors k slot (ha ▸ hk)
  · obtain ⟨hc, he⟩ := h.directory d (ha ▸ hd)
    refine ⟨hc, fun k hk slot hslot => ?_⟩
    rw [hbase, head, seg, ha]
    exact he k hk slot hslot

lemma reclaimable_carveAll {records : List (ℕ × ℕ)} (h : Reclaimable b records)
    (hout : ∀ x ∈ out, ∀ k, (x, k) ∉ b.carved) : Reclaimable (b.carveAll cls st out) records := by
  refine ⟨h.1, fun r hr => ?_⟩
  obtain ⟨hx, hlive⟩ := h.2 r hr
  obtain ⟨hmem, hplace⟩ := @mem_carveAll b cls st out r
  have hnot : r.1 ∉ out := fun hm => hout _ hm r.2 hx
  exact ⟨hmem.mpr (.inl hx), by rw [hplace, if_neg hnot, hlive]⟩

/-- Nothing is carved behind the cursor. -/
lemma Wf.notMem_carved (h : c.Wf bd root q) (hr : c.alloc.registered base = true)
    (hx : (c.seg base).bump ≤ x) (k : ℕ) : (x, k) ∉ (c.blocks base).carved := fun hm => by
  obtain ⟨-, -, -, hend, -⟩ := h.placed_block (p := (base, x, k)) hr hm
  have hpos := (bd.small.sizes.blockSize_granular k).1
  dsimp only at *
  omega

/-- The current segment is carved. -/
lemma Wf.carve (h : c.Wf bd root q) {home : Home}
    (hg : Grown bd (c.alloc.homes c.smallCur) home ((c.blocks c.smallCur).carveAll cls st out))
    (hst : st ≠ .free) (hnodup : out.Nodup)
    (hout : ∀ x ∈ out, home.seg.live ≠ 0 ∧ (c.seg c.smallCur).bump ≤ x) :
    Issued bd root c (c.touch (c.alloc.setHome c.smallCur home) c.smallCur
      ((c.blocks c.smallCur).carveAll cls st out)) q c.smallCur cls out st := by
  have hr := h.current
  have hl : Local c.alloc (c.alloc.setHome c.smallCur home) c.smallCur :=
    local_setHome hg.kind hg.slot hg.committed
  have hnew : ∀ x ∈ out, ∀ k, (x, k) ∉ (c.blocks c.smallCur).carved := fun x hx k =>
    h.notMem_carved hr (hout x hx).2 k
  refine ⟨h.touch hr hl ?_ (fun hm => absurd hm h.current_notMem)
    (reclaimable_carveAll (h.pending _ hr) hnew) (fun d' hd' => ⟨d', hd', ?_⟩) fun hlazy => ?_, hl,
    le_rfl, h.ledger_carveAll hr rfl hst fun x hx => (hout x hx).2, fun x hx => ?_, hnodup,
    fun hne => ?_, rfl, rfl⟩
  · rw [homes_setHome]
    exact hg.kept
  · refine .same (h.directory d' hd').counted (Lists.at h hr hd') fun k => ?_
    rw [homes_setHome, hg.head]
    rfl
  · obtain ⟨hb, he⟩ := h.frontier hlazy _ hr
    obtain ⟨hb', -, he'⟩ := hg.frontier hlazy hb he
    rw [homes_setHome]
    exact ⟨hb', he'⟩
  · exact not_ne_iff.mp fun hn => hnew x hx cls (held_ne_none.mp hn).2.1
  · obtain ⟨x, hx⟩ := List.exists_mem_of_ne_nil _ hne
    change ((c.alloc.setHome c.smallCur home).homes c.smallCur).seg.live ≠ 0
    rw [homes_setHome]
    exact (hout x hx).1

lemma Wf.carveBlock (h : c.Wf bd root q) (hcls : cls < bd.small.sizes.count)
    (env : ℕ → Answers) :
    ∃ c' off, c.carveBlock bd env cls = some (c', off) ∧
      Issued bd root c c' q c.smallCur cls off.toList .live ∧
      (c'.seg c.smallCur).head = (c.seg c.smallCur).head := by
  set c₁ : Core := { c with clock := c.clock + 1 } with hc₁
  have h₁ : c₁.Wf bd root q := h.congr rfl rfl rfl rfl rfl
  obtain ⟨home, off, he, hg, hout⟩ := carveBlock_grown (h₁.kept h₁.current) hcls (env c.clock).os
  have hlive : BlockState.live ≠ .free := by decide
  have hi := h₁.carve hg hlive (by cases off <;> simp) fun x hx =>
    hout x (Option.mem_toList.mp hx)
  refine ⟨_, off, ?_, ⟨hi.wf, hi.step, c.clock.le_succ, hi.ledger, hi.fresh, hi.nodup, hi.live,
    hi.slots⟩, ?_⟩
  · simp only [Core.carveBlock, ask, Option.bind_eq_bind]
    rw [show c.alloc.carveBlock bd.toBuild (env c.clock).os cls = _ from he]
    rfl
  · change ((c.alloc.setHome c.smallCur home).homes c.smallCur).seg.head = _
    rw [homes_setHome]
    exact hg.head

lemma slotOrder_perm (st : BlockState) (offs : List ℕ) : (slotOrder st offs).Perm offs := by
  rw [slotOrder]
  split_ifs
  · exact List.reverse_perm offs
  · exact .refl offs

lemma Wf.tryCarveBatch (h : c.Wf bd root q) (hcls : cls < bd.small.sizes.count)
    (env : ℕ → Answers) (want : ℕ) (hst : st ≠ .free) :
    ∃ c' r, c.tryCarveBatch bd env cls want st = some (c', r.map fun offs =>
        offs.map (c.smallCur + ·)) ∧
      Issued bd root c c' q c.smallCur cls (slotOrder st (handed r)) st ∧
      (handed r).length ≤ want ∧ (c'.seg c.smallCur).head = (c.seg c.smallCur).head := by
  set c₁ : Core := { c with clock := c.clock + 1 } with hc₁
  have h₁ : c₁.Wf bd root q := h.congr rfl rfl rfl rfl rfl
  obtain ⟨home, r, he, hg, hlen, hnodup, hout⟩ :=
    tryCarveBatch_grown (h₁.kept h₁.current) hcls (env c.clock).os want hst
  have hperm := slotOrder_perm st (handed r)
  have hi := h₁.carve hg hst (hperm.nodup_iff.mpr hnodup) fun x hx => hout x (hperm.mem_iff.mp hx)
  refine ⟨_, r, ?_, ⟨hi.wf, hi.step, c.clock.le_succ, hi.ledger, hi.fresh, hi.nodup, hi.live,
    hi.slots⟩, hlen, ?_⟩
  · simp only [Core.tryCarveBatch, ask, Option.bind_eq_bind]
    rw [show c.alloc.tryCarveBatch bd.toBuild (env c.clock).os cls want st = _ from he]
    rfl
  · change ((c.alloc.setHome c.smallCur home).homes c.smallCur).seg.head = _
    rw [homes_setHome]
    exact hg.head

lemma Wf.prepareCurrentCarve (h : c.Wf bd root q) (cls : ℕ) :
    Issued bd root c (c.prepareCurrentCarve bd cls).1 q c.smallCur cls [] .live ∧
      ((c.prepareCurrentCarve bd cls).1.seg c.smallCur).head = (c.seg c.smallCur).head := by
  have hk := h.kept h.current
  simp only [Core.prepareCurrentCarve]
  split_ifs
  · exact ⟨.nil h, rfl⟩
  · have hone := prepared_one hk.slab bd.small.sizes cls
      (alignUp (c.alloc.homes c.smallCur).seg.bump (bd.small.sizes.blockSize cls))
    have hg : Grown bd (c.alloc.homes c.smallCur) { c.alloc.homes c.smallCur with
        codes := (SmallSidecar.prepare bd.small.sizes (c.alloc.homes c.smallCur).system
          (alignUp (c.alloc.homes c.smallCur).seg.bump (bd.small.sizes.blockSize cls)) cls
          (c.alloc.homes c.smallCur).codes).1 }
        ((c.blocks c.smallCur).carveAll cls .live []) :=
      ⟨hk.extend rfl rfl hone.slab hone.extend, rfl, rfl, rfl, id, fun _ hb he => ⟨hb, le_rfl, he⟩⟩
    have hi := h.carve hg (by decide) List.nodup_nil fun x hx => absurd hx List.not_mem_nil
    rw [show (c.blocks c.smallCur).carveAll cls .live [] = c.blocks c.smallCur from rfl] at hi
    rw [Core.touch, Function.update_eq_self] at hi
    refine ⟨hi, ?_⟩
    change ((c.alloc.setHome c.smallCur _).homes c.smallCur).seg.head = _
    rw [homes_setHome]
    rfl

end Core

end SmallCore

end SeferAlloc
