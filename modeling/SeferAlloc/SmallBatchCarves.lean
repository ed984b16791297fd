import SeferAlloc.SmallBatchDrains
import SeferAlloc.SmallHeapTraffic

/-!
# Batch carves

A batch carve prepares all its leaves and commits its pages before it moves the
cursor. The cursor, the frontier and the codes it leaves are those of single
carves; a refusal comes before anything but a leaf or the frontier has moved.
-/
namespace SeferAlloc
namespace SmallBatch
open Small IntrusiveList ClassLeaves RoutedIssueRun

/-! ## Segments -/

section
variable {bd : Small.Build} {s : Segment} {cls start n : ℕ} {st : BlockState}

/-- A segment after a run of `n` blocks is carved from `start` on. -/
def carved (bd : Small.Build) (cls : ℕ) (st : BlockState) (start n : ℕ) (s : Segment) : Segment :=
  writeStates bd cls st (Segment.runOffsets bd cls start n)
    { s with bump := start + n * bd.sizes.blockSize cls, live := s.live + n }

lemma runOffsets_succ (start n : ℕ) : Segment.runOffsets bd cls start (n + 1) =
    start :: Segment.runOffsets bd cls (start + bd.sizes.blockSize cls) n := by
  rw [Segment.runOffsets, List.range_succ_eq_map, List.map_cons, List.map_map, Nat.zero_mul,
    Nat.add_zero, Segment.runOffsets]
  congr 1
  apply List.map_congr_left
  intro i _
  simp only [Function.comp_apply]
  rw [Nat.succ_mul, Nat.add_assoc, Nat.add_comm (bd.sizes.blockSize cls)]

lemma runOffsets_one (start : ℕ) : Segment.runOffsets bd cls start 1 = [start] := by
  rw [runOffsets_succ]
  rfl

lemma writeRun_eq (start : ℕ) (s : Segment) (n : ℕ) : Segment.writeRun bd cls st start s n =
    writeStates bd cls st (Segment.runOffsets bd cls start n) s := by
  induction n with
  | zero => rfl
  | succ n ih =>
      have hoffs : Segment.runOffsets bd cls start (n + 1) =
          Segment.runOffsets bd cls start n ++ [start + n * bd.sizes.blockSize cls] := by
        rw [Segment.runOffsets, List.range_succ, List.map_append]
        rfl
      rw [Segment.writeRun, ih, hoffs, writeStates, writeStates, List.foldl_append]
      rfl

/-- The bytes of blocks are written beside the cursor and the counter. -/
lemma writeStates_move (offs : List ℕ) (s : Segment) (bump live : ℕ) :
    writeStates bd cls st offs { s with bump := bump, live := live } =
      { writeStates bd cls st offs s with bump := bump, live := live } := by
  simp only [writeStates_eq]
  split_ifs <;> rfl

lemma writeStates_cons (off : ℕ) (offs : List ℕ) (s : Segment) :
    writeStates bd cls st (off :: offs) s =
      writeStates bd cls st offs (s.writeByte bd off cls st) := rfl

lemma carved_eq (start n : ℕ) (s : Segment) : carved bd cls st start n s =
    { writeStates bd cls st (Segment.runOffsets bd cls start n) s with
      bump := start + n * bd.sizes.blockSize cls, live := s.live + n } :=
  writeStates_move ..

lemma writeStates_carved (st st' : BlockState) (start n : ℕ) (s : Segment) :
    writeStates bd cls st' (Segment.runOffsets bd cls start n) (carved bd cls st start n s) =
      carved bd cls st' start n s :=
  writeStates_writeStates ..

/-- A run is its first block and the run behind it. -/
lemma carved_carved (start n : ℕ) (s : Segment) :
    carved bd cls st (start + bd.sizes.blockSize cls) n (carved bd cls st start 1 s) =
      carved bd cls st start (n + 1) s := by
  have hone : Segment.runOffsets bd cls start 1 = [start] := runOffsets_one start
  have hbump : start + bd.sizes.blockSize cls + n * bd.sizes.blockSize cls =
      start + (n + 1) * bd.sizes.blockSize cls := by
    rw [Nat.succ_mul]
    omega
  simp only [carved_eq, writeStates_move, runOffsets_succ start n, hone, hbump]
  rw [writeStates_cons, writeStates_cons, Nat.add_assoc, Nat.add_comm 1]
  rfl

lemma alignUp_of_mod {m a : ℕ} (ha : 0 < a) (h : m % a = 0) : alignUp m a = m := by
  obtain ⟨k, rfl⟩ := Nat.dvd_of_mod_eq_zero h
  rw [alignUp, Nat.add_sub_assoc ha, Nat.mul_add_div ha, Nat.div_eq_of_lt (by omega), Nat.add_zero,
    Nat.mul_comm]

/-- No block is left when the rest is shorter than one. -/
lemma room_eq_zero : (segment - start) / bd.sizes.blockSize cls = 0 ↔
    segment < start + bd.sizes.blockSize cls := by
  have hpos := (bd.sizes.blockSize_granular cls).1
  rw [Nat.div_eq_zero_iff]
  omega

/-- The blocks of a batch fit. -/
lemma run_room {want : ℕ} (hn : n = min want ((segment - start) / bd.sizes.blockSize cls))
    (hpos : 0 < n) : start + n * bd.sizes.blockSize cls ≤ segment := by
  have hle : n ≤ (segment - start) / bd.sizes.blockSize cls := hn ▸ min_le_right _ _
  have hmul := Nat.mul_le_mul_right (bd.sizes.blockSize cls) hle
  have hrest := Nat.div_mul_le_self (segment - start) (bd.sizes.blockSize cls)
  have hone := Nat.mul_le_mul_right (bd.sizes.blockSize cls) (Nat.succ_le_of_lt hpos)
  have := (bd.sizes.blockSize_granular cls).1
  omega

lemma carved_represents {b : Blocks} (h : Represents bd s b) (hcls : cls < bd.sizes.count)
    (hst : st ≠ .free) (hn : 0 < n)
    (hroom : alignUp s.bump (bd.sizes.blockSize cls) + n * bd.sizes.blockSize cls ≤ segment) :
    Represents bd (carved bd cls st (alignUp s.bump (bd.sizes.blockSize cls)) n s)
      (b.carveRun bd cls st (alignUp s.bump (bd.sizes.blockSize cls)) n) := by
  obtain ⟨hle, hgrid⟩ := alignUp_spec (n := s.bump) (bd.sizes.blockSize_granular cls).1
  rw [carved, ← writeRun_eq]
  exact writeRun_spec hst h hcls hle hgrid n hroom hn

lemma carveBlock_eq {b : Blocks} (h : Represents bd s b) (hcls : cls < bd.sizes.count)
    (hroom : alignUp s.bump (bd.sizes.blockSize cls) + bd.sizes.blockSize cls ≤ segment) :
    s.carveBlock bd cls true =
      some (carved bd cls .live (alignUp s.bump (bd.sizes.blockSize cls)) 1 s,
        some (alignUp s.bump (bd.sizes.blockSize cls))) := by
  have hlive : BlockState.live ≠ .free := by decide
  have hle := (carved_represents h hcls hlive one_pos (by rwa [Nat.one_mul])).live_le
  rw [carved_eq] at hle
  simp only [Segment.carveBlock]
  rw [if_neg (not_lt.mpr hroom), if_pos trivial, Segment.addLive, if_pos hle, carved,
    runOffsets_one, Nat.one_mul]
  rfl

/-- The blocks of a batch in the order of the slots. -/
def slotOrder (st : BlockState) (offs : List ℕ) : List ℕ := if st = .mag then offs.reverse else offs

lemma tryCarveBatch_eq {b : Blocks} {want : ℕ} (h : Represents bd s b)
    (hcls : cls < bd.sizes.count) (hst : st ≠ .free) (hwant : want ≠ 0)
    (hroom : alignUp s.bump (bd.sizes.blockSize cls) + bd.sizes.blockSize cls ≤ segment)
    (hn : n = min want ((segment - alignUp s.bump (bd.sizes.blockSize cls)) /
      bd.sizes.blockSize cls)) :
    s.tryCarveBatch bd cls want st .ok =
      some (carved bd cls st (alignUp s.bump (bd.sizes.blockSize cls)) n s,
        .ok (slotOrder st (Segment.runOffsets bd cls (alignUp s.bump (bd.sizes.blockSize cls))
          n))) := by
  have hpos : 0 < n := by
    have := mt room_eq_zero.mp (not_lt.mpr hroom)
    omega
  have hle := (carved_represents h hcls hst hpos (run_room hn hpos)).live_le
  rw [carved_eq] at hle
  simp only [Segment.tryCarveBatch]
  rw [if_neg hwant, if_neg (not_lt.mpr hroom), ← hn, Segment.addLive, if_pos hle]
  simp only [Option.bind_eq_bind, Option.bind_some, writeRun_eq]
  rfl

end

/-! ## Pages -/

/-- The frontier after the pages below `carve_end` are committed. -/
def grow (bd : Build) (carveEnd frontier : ℕ) : ℕ :=
  if bd.lazyCommit = true ∧ frontier < carveEnd then min (alignUp carveEnd growChunk) segment
  else frontier

/-- A run of requests ends at the frontier of the last one. -/
lemma grow_grow (bd : Build) {e e' : ℕ} (he : e ≤ e') (f : ℕ) :
    grow bd e' (grow bd e f) = grow bd e' f := by
  unfold grow
  cases bd.lazyCommit with
  | false => simp
  | true =>
      simp only [true_and, alignUp, growChunk, segment]
      split_ifs <;> omega

lemma ensureCommitted_granted {os : Os} {base : ℕ} (hos : os.Grants base) (bd : Build) (e : ℕ)
    (home : Home) :
    AllocCore.ensureCommitted bd os base e home = ({ home with
      decommitted := false
      committedPayloadEnd := grow bd e home.committedPayloadEnd }, true) := by
  simp only [AllocCore.ensureCommitted, hos.recommits, hos.commits, grow]
  simp only [Bool.true_eq_false, and_false, if_false]
  split_ifs <;> rfl

/-! ## One block -/

namespace AllocCore

variable {bd : Build} {os : Os} {c : AllocCore} {cls n : ℕ} {b : Blocks}

lemma commitIssue_published {home : Home} {off : ℕ} (hp : Published home.codes off)
    (hcls : cls < bd.small.sizes.count) :
    commitIssue bd home cls off = some (home.codes.put (off / minBlock) cls) := by
  obtain ⟨g, hg, hleaf⟩ := hp
  have hr : inRange bd.small.sizes g cls = true := decide_eq_true ⟨granuleOf_lt hg, hcls⟩
  have hprepared : SmallSidecar.prepared bd.small.sizes off cls home.codes = true := by
    rw [SmallSidecar.prepared, hg]
    simp only [ClassLeaves.prepared, hr, Bool.true_and]
    exact decide_eq_true hleaf
  have hissue : SmallSidecar.issue bd.small.sizes home.system off cls home.codes =
      (home.codes.put g cls, true) := by
    rw [SmallSidecar.issue, if_pos hprepared]
    simp only [SmallSidecar.bitmapIssue, hg]
    rw [if_neg (not_le.mpr hcls), issue_of_ready hr hleaf]
  rw [commitIssue, if_neg (by simp [hprepared]), hissue, granuleOf_eq hg]

/-- A home after a run of blocks is carved. -/
def carvedHome (bd : Build) (cls : ℕ) (st : BlockState) (start n : ℕ) (codes : ClassLeaves)
    (home : Home) : Home :=
  { home with
    seg := carved bd.small cls st start n home.seg
    decommitted := false
    committedPayloadEnd :=
      grow bd (start + n * bd.small.sizes.blockSize cls) home.committedPayloadEnd
    codes := codes }

lemma carvedHome_carvedHome (st : BlockState) (start n : ℕ) (codes codes' : ClassLeaves)
    (home : Home) :
    carvedHome bd cls st (start + bd.small.sizes.blockSize cls) n codes'
        (carvedHome bd cls st start 1 codes home) =
      carvedHome bd cls st start (n + 1) codes' home := by
  have hend : start + bd.small.sizes.blockSize cls + n * bd.small.sizes.blockSize cls =
      start + (n + 1) * bd.small.sizes.blockSize cls := by
    rw [Nat.succ_mul]
    omega
  have hle : start + 1 * bd.small.sizes.blockSize cls ≤
      start + (n + 1) * bd.small.sizes.blockSize cls :=
    Nat.add_le_add_left (Nat.mul_le_mul_right _ (Nat.le_add_left 1 n)) _
  simp only [carvedHome, carved_carved, hend, grow_grow bd hle]

lemma carveBlock_eq (hos : os.Grants c.smallCur) (h : Kept bd (c.homes c.smallCur) b)
    (hcls : cls < bd.small.sizes.count) {start : ℕ}
    (hstart : start = alignUp (c.homes c.smallCur).seg.bump (bd.small.sizes.blockSize cls))
    (hroom : start + bd.small.sizes.blockSize cls ≤ segment) {codes : ClassLeaves}
    (hprepare : SmallSidecar.prepare bd.small.sizes (c.homes c.smallCur).system start cls
      (c.homes c.smallCur).codes = (codes, true)) :
    c.carveBlock bd os cls = some (c.setHome c.smallCur (carvedHome bd cls .live start 1
      (codes.put (start / minBlock) cls) (c.homes c.smallCur)), some start) := by
  have hone := prepared_one h.slab bd.small.sizes cls start
  rw [hprepare] at hone
  obtain ⟨hp, -⟩ := hone.published rfl start (List.mem_singleton_self _)
  have hsegment := SmallBatch.carveBlock_eq h.represents hcls (hstart ▸ hroom)
  rw [← hstart] at hsegment
  simp only [carveBlock, ← hstart, if_neg (not_lt.mpr hroom), hprepare,
    ensureCommitted_granted hos, hsegment, Option.bind_eq_bind, Option.bind_some]
  rw [commitIssue_published (by exact hp) hcls, carvedHome, Nat.one_mul]
  rfl

lemma encoded_putAll {sys : System} {s : ClassLeaves} {offs : List ℕ} (hs : s.Slab sys)
    (hp : ∀ o ∈ offs, Published s o) (g : ℕ) :
    (putAll cls offs s).encoded g =
      if g ∈ offs.map (· / minBlock) then cls + 1 else s.encoded g := by
  induction offs generalizing s with
  | nil => simp [putAll]
  | cons o offs ih =>
      have hleaf : s.mixed (leafIndex (o / minBlock)) ≠ 0 := by
        obtain ⟨g, hg, hleaf⟩ := hp o List.mem_cons_self
        rwa [granuleOf_eq hg]
      rw [putAll, List.foldl_cons]
      refine (ih (hs.put _ cls) fun o' ho' => hp o' (List.mem_cons_of_mem _ ho')).trans ?_
      simp only [List.map_cons, List.mem_cons, hs.encoded_put hleaf]
      by_cases hg : g = o / minBlock
      · simp [hg]
      · simp only [hg, false_or, if_false]

/-- Codes are written for a run of new blocks, and those of the others stay. -/
lemma Kept.carveRun {home home' : Home} {start : ℕ} {st : BlockState} (h : Kept bd home b)
    (hstart : home.seg.bump ≤ start) {codes : ClassLeaves} (hall : AllPrepared bd.small.sizes home.system cls
      (Segment.runOffsets bd.small cls start n) home.codes codes true)
    (hsystem : home'.system = home.system)
    (hcodes : home'.codes = putAll cls (Segment.runOffsets bd.small cls start n) codes)
    (hrep : Represents bd.small home'.seg (b.carveRun bd.small cls st start n)) :
    Kept bd home' (b.carveRun bd.small cls st start n) := by
  have hpub : ∀ o ∈ Segment.runOffsets bd.small cls start n, Published codes o := fun o ho =>
    (hall.published rfl o ho).1
  have hmem : ∀ off d, (off, d) ∈ (b.carveRun bd.small cls st start n).carved ↔
      (off, d) ∈ b.carved ∨ off ∈ Segment.runOffsets bd.small cls start n ∧ d = cls :=
    (World.carveRun_blocks b cls st start n).1
  have hencoded : ∀ g, (putAll cls (Segment.runOffsets bd.small cls start n) codes).encoded g =
      if g ∈ (Segment.runOffsets bd.small cls start n).map (· / minBlock) then cls + 1
      else codes.encoded g := encoded_putAll hall.slab hpub
  have hmixed := putAll_mixed cls (Segment.runOffsets bd.small cls start n) codes
  refine ⟨hrep, ?_, fun p hp => ?_⟩
  · rw [hcodes, hsystem]
    exact slab_putAll _ _ hall.slab
  obtain ⟨off, d⟩ := p
  obtain hold | ⟨hnew, rfl⟩ := (hmem off d).mp hp
  · obtain ⟨⟨g, hg, hleaf⟩, henc⟩ := h.coded _ hold
    refine ⟨⟨g, hg, ?_⟩, ?_⟩
    · rw [hcodes, hmixed, hall.extend.pointers _ hleaf]
      exact hleaf
    · have hout : off / minBlock ∉ (Segment.runOffsets bd.small cls start n).map (· / minBlock) := by
        intro hin
        obtain ⟨o, ho, he⟩ := List.mem_map.mp hin
        have hpo : (o, cls) ∈ (b.carveRun bd.small cls st start n).carved :=
          (hmem o cls).mpr (.inr ⟨ho, rfl⟩)
        by_cases hoff : o = off
        · subst hoff
          obtain ⟨i, -, rfl⟩ := List.mem_map.mp ho
          have := (h.represents.placed _ hold).2.2.2
          have := (bd.small.sizes.blockSize_granular d).1
          dsimp only at *
          omega
        · exact hrep.granule_ne hpo hp hoff he
      rw [hcodes, hencoded, if_neg hout, hall.extend.codes, henc]
  · obtain ⟨g, hg, hleaf⟩ := hpub off hnew
    refine ⟨⟨g, hg, ?_⟩, ?_⟩
    · rw [hcodes, hmixed]
      exact hleaf
    · rw [hcodes, hencoded, if_pos (List.mem_map_of_mem hnew)]

lemma Kept.carveOne {home : Home} {start : ℕ} (h : Kept bd home b)
    (hcls : cls < bd.small.sizes.count)
    (hstart : start = alignUp home.seg.bump (bd.small.sizes.blockSize cls))
    (hroom : start + bd.small.sizes.blockSize cls ≤ segment) {codes : ClassLeaves}
    (hprepare : SmallSidecar.prepare bd.small.sizes home.system start cls home.codes =
      (codes, true)) {home' : Home} (hsystem : home'.system = home.system)
    (hseg : home'.seg = carved bd.small cls .live start 1 home.seg)
    (hcodes : home'.codes = codes.put (start / minBlock) cls) :
    Kept bd home' (b.carveRun bd.small cls .live start 1) := by
  have hlive : BlockState.live ≠ .free := by decide
  have hone := prepared_one h.slab bd.small.sizes cls start
  have hsingle : Segment.runOffsets bd.small cls start 1 = [start] := runOffsets_one start
  rw [hprepare, ← hsingle] at hone
  have hle := (alignUp_spec (n := home.seg.bump) (bd.small.sizes.blockSize_granular cls).1).1
  refine h.carveRun (hstart ▸ hle) hone hsystem ?_ ?_
  · rw [hcodes, hsingle]
    rfl
  · rw [hseg, hstart]
    exact carved_represents h.represents hcls hlive one_pos (by
      rw [← hstart, Nat.one_mul]
      exact hroom)

/-- Single carves, when nothing is refused. -/
lemma carveEach_eq (hcls : cls < bd.small.sizes.count) (want : ℕ) {c : AllocCore} {b : Blocks}
    {start n : ℕ} (hos : os.Grants c.smallCur) (h : Kept bd (c.homes c.smallCur) b)
    (hstart : start = alignUp (c.homes c.smallCur).seg.bump (bd.small.sizes.blockSize cls))
    (hn : n = min want ((segment - start) / bd.small.sizes.blockSize cls))
    (hissued : (issueEach bd.small.sizes (c.homes c.smallCur).system cls
      (Segment.runOffsets bd.small cls start n) (c.homes c.smallCur).codes).2 = .issued) :
    carveEach bd os cls want c = some (if n = 0 then c else c.setHome c.smallCur
      (carvedHome bd cls .live start n (issueEach bd.small.sizes (c.homes c.smallCur).system cls
        (Segment.runOffsets bd.small cls start n) (c.homes c.smallCur).codes).1
          (c.homes c.smallCur)), Segment.runOffsets bd.small cls start n) := by
  induction want generalizing c b start n with
  | zero =>
      rw [Nat.zero_min] at hn
      subst hn
      rfl
  | succ want ih =>
      by_cases hroom : segment < start + bd.small.sizes.blockSize cls
      · rw [room_eq_zero.mpr hroom, Nat.min_zero] at hn
        subst hn
        have hnone : c.carveBlock bd os cls = some (c, none) := by
          simp only [carveBlock, ← hstart, if_pos hroom]
        rw [carveEach, hnone]
        rfl
      have hroom' := not_lt.mp hroom
      have hpos := (bd.small.sizes.blockSize_granular cls).1
      have hgrid := (alignUp_spec (n := (c.homes c.smallCur).seg.bump) hpos).2
      rw [← hstart] at hgrid
      obtain ⟨m, rfl, hm⟩ : ∃ m, n = m + 1 ∧ m = min want
          ((segment - (start + bd.small.sizes.blockSize cls)) / bd.small.sizes.blockSize cls) := by
        refine ⟨_, ?_, rfl⟩
        rw [hn, Nat.div_eq_sub_div hpos (by omega), Nat.sub_sub, Nat.succ_min_succ]
      rw [runOffsets_succ, issueEach, h.slab.issueBlock] at hissued
      rw [runOffsets_succ, issueEach, h.slab.issueBlock]
      have hone := prepared_one h.slab bd.small.sizes cls start
      cases hprepare : SmallSidecar.prepare bd.small.sizes (c.homes c.smallCur).system start cls
        (c.homes c.smallCur).codes with
      | mk codes₁ ok =>
      rw [hprepare] at hissued hone
      cases ok with
      | false => simp at hissued
      | true =>
          obtain ⟨hp, -⟩ := hone.published rfl start (List.mem_singleton_self _)
          set home₁ := carvedHome bd cls .live start 1 (codes₁.put (start / minBlock) cls)
            (c.homes c.smallCur) with hhome₁
          have hfirst := carveBlock_eq hos h hcls hstart hroom' hprepare
          have hkept : Kept bd home₁ (b.carveRun bd.small cls .live start 1) :=
            h.carveOne hcls hstart hroom' hprepare rfl rfl rfl
          set c₁ := c.setHome c.smallCur home₁ with hc₁
          have hhome : c₁.homes c₁.smallCur = home₁ := homes_setHome c c.smallCur home₁
          have hstart₁ : start + bd.small.sizes.blockSize cls =
              alignUp (c₁.homes c₁.smallCur).seg.bump (bd.small.sizes.blockSize cls) := by
            have hbump : home₁.seg.bump = start + bd.small.sizes.blockSize cls := by
              rw [hhome₁, carvedHome, carved_eq, Nat.one_mul]
            rw [hhome, hbump, alignUp_of_mod hpos (by rw [Nat.add_mod_right, hgrid])]
          have hos₁ : os.Grants c₁.smallCur := hos
          have heach := ih hos₁ (hhome ▸ hkept) hstart₁ hm (by rw [hhome]; exact hissued)
          rw [hhome] at heach
          rw [carveEach, hfirst]
          simp only [Option.bind_eq_bind, Option.bind_some, heach, Option.pure_def]
          congr 2
          rw [if_neg m.succ_ne_zero]
          split_ifs with h0
          · subst h0
            rfl
          · rw [hc₁, hhome₁, carvedHome_carvedHome]
            exact setHome_setHome ..

/-! ## A batch -/

lemma ensureCommitted_seg (bd : Build) (os : Os) (base e : ℕ) (home : Home) :
    ∃ flag frontier, (ensureCommitted bd os base e home).1 =
      { home with decommitted := flag, committedPayloadEnd := frontier } := by
  simp only [ensureCommitted]
  split_ifs
  · exact ⟨_, _, rfl⟩
  · exact ⟨_, _, rfl⟩
  · exact ⟨_, _, rfl⟩
  · exact ⟨_, _, rfl⟩

/-- Where a batch starts. -/
def batchStart (bd : Build) (c : AllocCore) (cls : ℕ) : ℕ :=
  alignUp (c.homes c.smallCur).seg.bump (bd.small.sizes.blockSize cls)

/-- How many blocks a batch carves. -/
def batchCount (bd : Build) (c : AllocCore) (cls want : ℕ) : ℕ :=
  min want ((segment - c.batchStart bd cls) / bd.small.sizes.blockSize cls)

/-- The blocks of a batch. -/
def batchRun (bd : Build) (c : AllocCore) (cls want : ℕ) : List ℕ :=
  Segment.runOffsets bd.small cls (c.batchStart bd cls) (c.batchCount bd cls want)

/-- The leaves of a batch after their preparation, and whether all of them are there. -/
def prepareBatch (bd : Build) (c : AllocCore) (cls want : ℕ) :
    RoutedIssueRun × ClassLeaves × Bool :=
  RoutedIssueRun.prepareAll bd.small.sizes (c.homes c.smallCur).system (c.batchRun bd cls want)
    ⟨cls, none⟩ (c.homes c.smallCur).codes

/-- The pages of a batch, once its leaves are prepared. -/
def commitBatch (bd : Build) (os : Os) (c : AllocCore) (cls want : ℕ) : Home × Bool :=
  ensureCommitted bd os c.smallCur
    (c.batchStart bd cls + c.batchCount bd cls want * bd.small.sizes.blockSize cls)
    { c.homes c.smallCur with codes := (c.prepareBatch bd cls want).2.1 }

/-- How a batch carve ends. -/
inductive Carves (bd : Build) (os : Os) (c : AllocCore) (cls want : ℕ) (st : BlockState) :
    AllocCore × Except Unit (List ℕ) → Prop where
  | full (count : c.batchCount bd cls want = 0) : Carves bd os c cls want st (c, .ok [])
  | noLeaf (count : 0 < c.batchCount bd cls want)
      (leaves : (c.prepareBatch bd cls want).2.2 = false) :
      Carves bd os c cls want st (c.setHome c.smallCur { c.homes c.smallCur with
        codes := (c.prepareBatch bd cls want).2.1 }, .error ())
  | noPages (count : 0 < c.batchCount bd cls want)
      (leaves : (c.prepareBatch bd cls want).2.2 = true)
      (pages : (c.commitBatch bd os cls want).2 = false) :
      Carves bd os c cls want st
        (c.setHome c.smallCur (c.commitBatch bd os cls want).1, .ok [])
  | issued (count : 0 < c.batchCount bd cls want)
      (leaves : (c.prepareBatch bd cls want).2.2 = true)
      (pages : (c.commitBatch bd os cls want).2 = true) :
      Carves bd os c cls want st (c.setHome c.smallCur { (c.commitBatch bd os cls want).1 with
        seg := carved bd.small cls st (c.batchStart bd cls) (c.batchCount bd cls want)
          (c.homes c.smallCur).seg
        codes := putAll cls (c.batchRun bd cls want) (c.prepareBatch bd cls want).2.1 },
        .ok (slotOrder st (c.batchRun bd cls want)))

lemma tryCarveBatch_carves (h : Kept bd (c.homes c.smallCur) b)
    (hcls : cls < bd.small.sizes.count) (os : Os) (want : ℕ) {st : BlockState} (hst : st ≠ .free) :
    ∃ r, c.tryCarveBatch bd os cls want st = some r ∧ Carves bd os c cls want st r := by
  have hcount : (want = 0 ∨ segment < c.batchStart bd cls + bd.small.sizes.blockSize cls) ↔
      c.batchCount bd cls want = 0 := by
    rw [← room_eq_zero, batchCount, Nat.min_eq_zero_iff]
  have hstart : alignUp (c.homes c.smallCur).seg.bump (bd.small.sizes.blockSize cls) =
      c.batchStart bd cls := rfl
  have hcarve : min want ((segment - c.batchStart bd cls) / bd.small.sizes.blockSize cls) =
      c.batchCount bd cls want := rfl
  have hoffs : Segment.runOffsets bd.small cls (c.batchStart bd cls) (c.batchCount bd cls want) =
      c.batchRun bd cls want := rfl
  simp only [tryCarveBatch, hstart, hcarve, hoffs, hcount]
  by_cases hzero : c.batchCount bd cls want = 0
  · exact ⟨_, if_pos hzero, .full hzero⟩
  have hpos := Nat.pos_of_ne_zero hzero
  obtain ⟨hwant, hroom⟩ := not_or.mp (mt hcount.mp hzero)
  have hfit : (⟨cls, none⟩ : RoutedIssueRun).Fits bd.small.sizes (c.homes c.smallCur).codes :=
    fun _ hc => by contradiction
  obtain ⟨run, codes, ok, hprepare, hrun, hfit', hall⟩ :=
    hfit.prepareAll h.slab (c.batchRun bd cls want)
  rw [if_neg hzero, hprepare]
  change c.prepareBatch bd cls want = _ at hprepare
  cases ok with
  | false =>
      have hend : Carves bd os c cls want st _ := .noLeaf hpos (by rw [hprepare])
      rw [hprepare] at hend
      exact ⟨_, rfl, hend⟩
  | true =>
      have hleaves : (c.prepareBatch bd cls want).2.2 = true := by rw [hprepare]
      have hcommit : c.commitBatch bd os cls want = ensureCommitted bd os c.smallCur
          (c.batchStart bd cls + c.batchCount bd cls want * bd.small.sizes.blockSize cls)
          { c.homes c.smallCur with codes := codes } := by
        rw [commitBatch, hprepare]
      obtain ⟨flag, frontier, hhome⟩ := ensureCommitted_seg bd os c.smallCur
        (c.batchStart bd cls + c.batchCount bd cls want * bd.small.sizes.blockSize cls)
        { c.homes c.smallCur with codes := codes }
      dsimp only
      rw [← hcommit] at hhome ⊢
      cases hpages : c.commitBatch bd os cls want with
      | mk home granted =>
      rw [hpages] at hhome
      dsimp only at hhome
      subst hhome
      cases granted with
      | false =>
          have hend : Carves bd os c cls want st _ := .noPages hpos hleaves (by rw [hpages])
          rw [hpages] at hend
          exact ⟨_, rfl, hend⟩
      | true =>
          have hend : Carves bd os c cls want st _ := .issued hpos hleaves (by rw [hpages])
          rw [hpages, hprepare] at hend
          have hsegment := SmallBatch.tryCarveBatch_eq h.represents hcls hst hwant
            (not_lt.mp hroom) (n := c.batchCount bd cls want) rfl
          have hcommitAll := hfit'.commitAll fun o ho => hrun ▸ hall.published rfl o ho
          refine ⟨_, ?_, hend⟩
          simp only [hsegment, hcommitAll, hrun, Option.bind_eq_bind, Option.bind_some]
          rfl

lemma batchRun_of_zero {want : ℕ} (h0 : c.batchCount bd cls want = 0) :
    c.batchRun bd cls want = [] := by
  rw [batchRun, h0]
  rfl

/-- A batch carve is as many single carves, when nothing is refused; with another state than LIVE
it leaves that state in the bytes of the blocks. -/
lemma batch_eq_carves (hos : os.Grants c.smallCur) (h : Kept bd (c.homes c.smallCur) b)
    (hcls : cls < bd.small.sizes.count) (want : ℕ)
    (hleaves : (c.prepareBatch bd cls want).2.2 = true) :
    ∃ c', carveEach bd os cls want c = some (c', c.batchRun bd cls want) ∧
      writeStates bd.small cls .live (c.batchRun bd cls want) (c'.homes c.smallCur).seg =
        (c'.homes c.smallCur).seg ∧
      ∀ st, st ≠ .free → c.tryCarveBatch bd os cls want st =
        some (c'.setSeg c.smallCur (writeStates bd.small cls st (c.batchRun bd cls want)
          (c'.homes c.smallCur).seg), .ok (slotOrder st (c.batchRun bd cls want))) := by
  have hfit : (⟨cls, none⟩ : RoutedIssueRun).Fits bd.small.sizes (c.homes c.smallCur).codes :=
    fun _ hc => by contradiction
  obtain ⟨heach, hcodes⟩ := hfit.issueEach h.slab (c.batchRun bd cls want)
  change _ = (if (c.prepareBatch bd cls want).2.2 = true then _ else _) at heach
  rw [if_pos hleaves] at heach
  have hsingle := carveEach_eq hcls want hos h rfl rfl heach
  have hputAll : (issueEach bd.small.sizes (c.homes c.smallCur).system cls
      (c.batchRun bd cls want) (c.homes c.smallCur).codes).1 =
        putAll cls (c.batchRun bd cls want) (c.prepareBatch bd cls want).2.1 := hcodes hleaves
  change carveEach bd os cls want c = some (if c.batchCount bd cls want = 0 then c else
    c.setHome c.smallCur (carvedHome bd cls .live (c.batchStart bd cls)
      (c.batchCount bd cls want) (issueEach bd.small.sizes (c.homes c.smallCur).system cls
        (c.batchRun bd cls want) (c.homes c.smallCur).codes).1 (c.homes c.smallCur)),
      c.batchRun bd cls want) at hsingle
  refine ⟨_, hsingle, ?_, fun st hst => ?_⟩
  · split_ifs with h0
    · rw [batchRun_of_zero h0]
      rfl
    · rw [homes_setHome]
      exact writeStates_carved ..
  · obtain ⟨r, he, hr⟩ := tryCarveBatch_carves h hcls os want hst
    rw [he]
    cases hr with
    | full h0 =>
        rw [if_pos h0, batchRun_of_zero h0, slotOrder, List.reverse_nil, ite_self]
        exact congrArg (fun c => some (c, _)) (c.setSeg_self c.smallCur).symm
    | noLeaf _ hno => rw [hleaves] at hno; contradiction
    | noPages _ _ hno =>
        rw [commitBatch, ensureCommitted_granted hos] at hno
        contradiction
    | issued hpos _ _ =>
        rw [if_neg hpos.ne', hputAll, setSeg, homes_setHome, setHome_setHome, commitBatch,
          ensureCommitted_granted hos]
        dsimp only [carvedHome]
        rw [batchRun, writeStates_carved]

/-- What a carve that hands out nothing leaves: the segment, the codes of all granules, and
everything outside the current segment. -/
structure Untouched (c c' : AllocCore) : Prop where
  frame : c' = c.setHome c.smallCur (c'.homes c.smallCur)
  seg : (c'.homes c.smallCur).seg = (c.homes c.smallCur).seg
  codes : ∀ g, (c'.homes c.smallCur).codes.encoded g = (c.homes c.smallCur).codes.encoded g

lemma prepareBatch_spec (h : Kept bd (c.homes c.smallCur) b) (want : ℕ) :
    AllPrepared bd.small.sizes (c.homes c.smallCur).system cls (c.batchRun bd cls want)
      (c.homes c.smallCur).codes (c.prepareBatch bd cls want).2.1
        (c.prepareBatch bd cls want).2.2 := by
  have hfit : (⟨cls, none⟩ : RoutedIssueRun).Fits bd.small.sizes (c.homes c.smallCur).codes :=
    fun _ hc => by contradiction
  obtain ⟨run, codes, ok, he, -, -, hall⟩ := hfit.prepareAll h.slab (c.batchRun bd cls want)
  have hprepare : c.prepareBatch bd cls want = (run, codes, ok) := he
  rwa [hprepare]

/-- A batch that is refused a leaf or a page hands out nothing, and one that hands out nothing
leaves the segment and the codes as they were. -/
lemma batch_refused (h : Kept bd (c.homes c.smallCur) b) (hcls : cls < bd.small.sizes.count)
    (os : Os) (want : ℕ) {st : BlockState} (hst : st ≠ .free) :
    ∃ c' r, c.tryCarveBatch bd os cls want st = some (c', r) ∧
      ((c.prepareBatch bd cls want).2.2 = false ∨ (c.commitBatch bd os cls want).2 = false →
        r = .error () ∨ r = .ok []) ∧
      (r = .error () ∨ r = .ok [] → c.Untouched c') := by
  obtain ⟨⟨c', r⟩, he, hr⟩ := tryCarveBatch_carves h hcls os want hst
  have hall : AllPrepared bd.small.sizes (c.homes c.smallCur).system cls (c.batchRun bd cls want)
      (c.homes c.smallCur).codes _ _ := prepareBatch_spec h want
  refine ⟨c', r, he, ?_⟩
  cases hr with
  | full _ => exact ⟨fun _ => .inr rfl, fun _ => ⟨(c.setHome_self _).symm, rfl, fun _ => rfl⟩⟩
  | noLeaf _ _ =>
      refine ⟨fun _ => .inl rfl, fun _ => ⟨?_, ?_, ?_⟩⟩
      · rw [homes_setHome]
      · rw [homes_setHome]
      · rw [homes_setHome]
        exact hall.extend.codes
  | noPages _ _ _ =>
      obtain ⟨flag, frontier, hhome⟩ := ensureCommitted_seg bd os c.smallCur
        (c.batchStart bd cls + c.batchCount bd cls want * bd.small.sizes.blockSize cls)
        { c.homes c.smallCur with codes := (c.prepareBatch bd cls want).2.1 }
      change (c.commitBatch bd os cls want).1 = _ at hhome
      refine ⟨fun _ => .inr rfl, fun _ => ⟨?_, ?_, ?_⟩⟩
      · rw [homes_setHome]
      · rw [homes_setHome, hhome]
      · rw [homes_setHome, hhome]
        exact hall.extend.codes
  | issued hpos hleaves hpages =>
      refine ⟨fun hno => ?_, fun hnone => ?_⟩
      · rw [hleaves, hpages] at hno
        simp at hno
      · have hne : c.batchRun bd cls want ≠ [] := by
          rw [batchRun, Segment.runOffsets]
          simpa using hpos.ne'
        simp only [reduceCtorEq, Except.ok.injEq, false_or, slotOrder] at hnone
        split_ifs at hnone
        · exact absurd (List.reverse_eq_nil_iff.mp hnone) hne
        · exact absurd hnone hne

end AllocCore

end SmallBatch

end SeferAlloc
