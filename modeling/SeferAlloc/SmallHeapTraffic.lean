import Mathlib.Data.List.TakeWhile
import SeferAlloc.SmallHeap

/-!
# What a heap hands out and takes back

Beside the heap runs the record of the blocks of each segment. A refill adds
the blocks it issues to those that are out and moves no other; a flush takes
its pointers back and moves no other. A segment with a block that is out stays
mapped.
-/
namespace SeferAlloc
namespace Small

structure World where
  heap : Heap
  blocks : ℕ → Blocks

namespace World

/-- The heap of a primordial segment. -/
def init (bd : Build) (base : ℕ) : World where
  heap := ⟨fun _ => .new bd .primordial, fun x => x = base, base, []⟩
  blocks _ := .new

def put (w : World) (base : ℕ) (s : Segment) (b : Blocks) : World :=
  ⟨w.heap.set base s, Function.update w.blocks base b⟩

def retire (w : World) (base : ℕ) (pooled : Bool) : World :=
  ⟨(w.heap.retire base pooled).1, w.blocks⟩

/-- Flushed pointers become free. -/
def freeAll (blocks : ℕ → Blocks) (ps : List ℕ) : ℕ → Blocks := fun base =>
  (blocks base).putAll ((ps.filter (Heap.sameSegment base)).map (· - base)) .free

/-- The heap after an operation, with its events recorded. -/
def record (w : World) (cls : ℕ) (st : BlockState) (h : Heap) (es : List Event) : World :=
  ⟨h, es.foldl (Event.record cls st) w.blocks⟩

/-- Collects up to `want` blocks for a magazine. -/
def refill (bd : Build) (w : World) (cls want : ℕ) (st : BlockState) (rounds : List RefillRound) :
    Option (World × List Event) := do
  let (h, es) ← Heap.refillLoop bd cls st rounds want false w.heap
  return (w.record cls st h es, es)

/-- Frees the blocks a magazine gives back. -/
def flush (bd : Build) (w : World) (cls : ℕ) (ps : List ℕ) (pooled : ℕ → Bool) : Option World := do
  let h ← w.heap.flushClass bd cls pooled ps []
  return ⟨h, freeAll w.blocks ps⟩

/-- The pointers a caller may flush: each once, of the class, and held by the caller. -/
def Flushable (w : World) (cls : ℕ) (ps : List ℕ) : Prop :=
  (ps.filter (· ≠ 0)).Nodup ∧ ∀ p ∈ ps, p ≠ 0 →
    w.heap.mapped (segmentBaseOfPtr p) = true ∧
    (p - segmentBaseOfPtr p, cls) ∈ (w.blocks (segmentBaseOfPtr p)).carved ∧
    (w.blocks (segmentBaseOfPtr p)).place (p - segmentBaseOfPtr p) ≠ .free

instance (w : World) (cls : ℕ) (ps : List ℕ) : Decidable (w.Flushable cls ps) :=
  inferInstanceAs (Decidable (_ ∧ _))

/-- Every mapped segment represents its blocks. -/
structure Sound (bd : Build) (w : World) : Prop where
  represents : ∀ base, w.heap.mapped base = true → Represents bd (w.heap.segs base) (w.blocks base)
  current : w.heap.mapped w.heap.smallCur = true

/-- A mapped segment has a block of the class, in the state, at the offset. -/
def Holds (w : World) (base off cls : ℕ) (st : BlockState) : Prop :=
  w.heap.mapped base = true ∧ (off, cls) ∈ (w.blocks base).carved ∧ (w.blocks base).place off = st

variable {bd : Build} {w : World}

lemma represents_new (bd : Build) (kind : Kind) : Represents bd (.new bd kind) .new where
  lists _ := ⟨[], by simp [Segment.new], by simp [Blocks.new]⟩
  live := rfl
  placed := by simp [Blocks.new]
  apart := List.Pairwise.nil
  cursor := by
    cases kind with
    | small => exact ⟨le_rfl, bd.metaEnd_le.1⟩
    | primordial => exact ⟨le_rfl, bd.metaEnd_le.2⟩
  room := by simp [Blocks.new]
  bytes := by simp [Blocks.new]
  blank _ _ _ := rfl

lemma Sound.put (h : w.Sound bd) {base : ℕ} {s : Segment} {b : Blocks} (hs : Represents bd s b) :
    (w.put base s b).Sound bd := by
  refine ⟨fun x hx => ?_, h.current⟩
  by_cases hxb : x = base
  · subst x
    simpa [World.put, Heap.set] using hs
  · simpa [World.put, Heap.set, hxb] using h.represents x hx

lemma Sound.retire (h : w.Sound bd) (base : ℕ) (pooled : Bool) : (w.retire base pooled).Sound bd := by
  simp only [World.retire, Heap.retire]
  split_ifs with hc hp
  · exact h
  · refine ⟨fun x hx => h.represents x ?_, ?_⟩
    · by_cases hxb : x = base
      · subst x
        simp at hx
      · simpa [hxb] using hx
    · simpa [Ne.symm hc.2.1] using h.current
  · exact h

lemma Sound.reserve (h : w.Sound bd) (base : ℕ) (pooled : Bool) :
    (⟨w.heap.reserve bd base pooled, Function.update w.blocks base .new⟩ : World).Sound bd := by
  have hs : (⟨{ w.heap with
      segs := Function.update w.heap.segs base (.new bd .small)
      mapped := Function.update w.heap.mapped base true
      smallCur := base },
      Function.update w.blocks base .new⟩ : World).Sound bd := by
    refine ⟨fun x hx => ?_, by simp⟩
    by_cases hxb : x = base
    · subst x
      simpa using represents_new bd .small
    · simp only [Function.update_of_ne hxb] at hx ⊢
      exact h.represents x hx
  exact hs.retire w.heap.smallCur pooled

/-- A block has one class and one state. -/
lemma Sound.holds_unique (h : w.Sound bd) {base off c d : ℕ} {st t : BlockState}
    (hc : w.Holds base off c st) (hd : w.Holds base off d t) : c = d ∧ st = t :=
  ⟨(h.represents base hc.1).class_unique hc.2.1 hd.2.1, hc.2.2.symm.trans hd.2.2⟩

/-- A segment with a block that is not free has a live block. -/
lemma live_ne_zero {s : Segment} {b : Blocks} (h : Represents bd s b) {x cls : ℕ}
    (hx : (x, cls) ∈ b.carved) (hne : b.place x ≠ .free) : s.live ≠ 0 := by
  have : 0 < b.liveCount := List.countP_pos_iff.mpr ⟨_, hx, by simpa using hne⟩
  rw [h.live]
  omega

/-! ## Refill -/

/-- From one world to another these events issued the blocks they name and moved no other. -/
structure Issues (bd : Build) (w w' : World) (cls : ℕ) (st : BlockState) (es : List Event) :
    Prop where
  sound : w'.Sound bd
  nodup : (issuedBlocks es).Nodup
  fresh : ∀ q ∈ issuedBlocks es, ∀ d t, w.Holds q.1 q.2 d t → t = .free
  issued : ∀ q ∈ issuedBlocks es, w'.Holds q.1 q.2 cls st
  kept : ∀ base off d t, t ≠ .free → (base, off) ∉ issuedBlocks es →
    (w'.Holds base off d t ↔ w.Holds base off d t)
  carved : ∀ q ∈ carvedBlocks es, q.1 ∉ reservedBases es →
    w.heap.mapped q.1 = true ∧ (w.heap.segs q.1).bump ≤ q.2
  cursor : ∀ base, w'.heap.mapped base = true → base ∉ reservedBases es →
    w.heap.mapped base = true ∧ (w.heap.segs base).bump ≤ (w'.heap.segs base).bump
  granted : ∀ base ∈ reservedBases es, base % segment = 0 ∧ base ≠ 0 ∧
    (∀ range ∈ w.heap.others, range.1 + range.2 ≤ base ∨ base + segment ≤ range.1) ∧
    ∀ off d t, w.Holds base off d t → t = .free
  others : w'.heap.others = w.heap.others

variable {w₁ w₂ : World} {cls : ℕ} {st : BlockState}

lemma Issues.refl (h : w.Sound bd) (cls : ℕ) (st : BlockState) : Issues bd w w cls st [] := by
  constructor <;> simp [issuedBlocks, carvedBlocks, reservedBases, h]

/-- Events that issue, carve and reserve the same serve as well. -/
lemma Issues.congr {es es' : List Event} (h : Issues bd w w₁ cls st es)
    (hb : issuedBlocks es' = issuedBlocks es) (hc : carvedBlocks es' = carvedBlocks es)
    (hr : reservedBases es' = reservedBases es) : Issues bd w w₁ cls st es' := by
  constructor
  · exact h.sound
  · rw [hb]
    exact h.nodup
  · rw [hb]
    exact h.fresh
  · rw [hb]
    exact h.issued
  · rw [hb]
    exact h.kept
  · rw [hc, hr]
    exact h.carved
  · rw [hr]
    exact h.cursor
  · rw [hr]
    exact h.granted
  · exact h.others

lemma Issues.trans {es₁ es₂ : List Event} (hst : st ≠ .free) (h₁ : Issues bd w w₁ cls st es₁)
    (h₂ : Issues bd w₁ w₂ cls st es₂) : Issues bd w w₂ cls st (es₁ ++ es₂) := by
  -- What the first part issued is out, so the second part does not issue it again.
  have hdisj : ∀ q ∈ issuedBlocks es₁, q ∉ issuedBlocks es₂ := fun q hq hq₂ =>
    hst (h₂.fresh q hq₂ _ _ (h₁.issued q hq))
  have hmono : ∀ base off d t, w.Holds base off d t → t ≠ .free → w₁.Holds base off d t :=
    fun base off d t hh ht => (h₁.kept base off d t ht fun hq =>
      ht (h₁.fresh (base, off) hq d t hh)).mpr hh
  have happ : issuedBlocks (es₁ ++ es₂) = issuedBlocks es₁ ++ issuedBlocks es₂ :=
    List.flatMap_append
  have happr : reservedBases (es₁ ++ es₂) = reservedBases es₁ ++ reservedBases es₂ :=
    List.flatMap_append
  have happc : carvedBlocks (es₁ ++ es₂) = carvedBlocks es₁ ++ carvedBlocks es₂ :=
    List.flatMap_append
  constructor
  · exact h₂.sound
  · rw [happ, List.nodup_append]
    exact ⟨h₁.nodup, h₂.nodup, fun q hq q' hq' he => hdisj q hq (he ▸ hq')⟩
  · intro q hq d t hh
    rw [happ, List.mem_append] at hq
    obtain hq | hq := hq
    · exact h₁.fresh q hq d t hh
    · by_contra ht
      exact ht (h₂.fresh q hq d t (hmono _ _ _ _ hh ht))
  · intro q hq
    rw [happ, List.mem_append] at hq
    obtain hq | hq := hq
    · exact (h₂.kept q.1 q.2 cls st hst (hdisj q hq)).mpr (h₁.issued q hq)
    · exact h₂.issued q hq
  · intro base off d t ht hq
    rw [happ, List.mem_append, not_or] at hq
    exact (h₂.kept base off d t ht hq.2).trans (h₁.kept base off d t ht hq.1)
  · intro q hq hr
    rw [happr, List.mem_append, not_or] at hr
    rw [happc, List.mem_append] at hq
    obtain hq | hq := hq
    · exact h₁.carved q hq hr.1
    · obtain ⟨hm, hle⟩ := h₂.carved q hq hr.2
      obtain ⟨hm', hle'⟩ := h₁.cursor q.1 hm hr.1
      exact ⟨hm', hle'.trans hle⟩
  · intro base hm hr
    rw [happr, List.mem_append, not_or] at hr
    obtain ⟨hm₁, hle₁⟩ := h₂.cursor base hm hr.2
    obtain ⟨hm₀, hle₀⟩ := h₁.cursor base hm₁ hr.1
    exact ⟨hm₀, hle₀.trans hle₁⟩
  · intro base hr
    rw [happr, List.mem_append] at hr
    obtain hr | hr := hr
    · exact h₁.granted base hr
    · obtain ⟨h1, h2, h3, h4⟩ := h₂.granted base hr
      rw [h₁.others] at h3
      refine ⟨h1, h2, h3, fun off d t hh => ?_⟩
      by_contra ht
      exact ht (h4 off d t (hmono _ _ _ _ hh ht))
  · rw [h₂.others, h₁.others]

/-- Blocks of one segment are issued. -/
lemma Issues.put (h : w.Sound bd) {base : ℕ} (hm : w.heap.mapped base = true) {s : Segment}
    {b : Blocks} {offs : List ℕ} {e : Event} (hrep : Represents bd s b) (hnodup : offs.Nodup)
    (hfresh : ∀ off ∈ offs, ∀ d, (off, d) ∈ (w.blocks base).carved →
      (w.blocks base).place off = .free)
    (hissued : ∀ off ∈ offs, (off, cls) ∈ b.carved ∧ b.place off = st)
    (hkept : ∀ off ∉ offs, (∀ d, (off, d) ∈ b.carved ↔ (off, d) ∈ (w.blocks base).carved) ∧
      b.place off = (w.blocks base).place off)
    (hbump : (w.heap.segs base).bump ≤ s.bump) (hblocks : e.blocks = offs.map (base, ·))
    (hres : e.reservations = [])
    (hcarve : ∀ q ∈ e.carvings, q.1 = base ∧ (w.heap.segs base).bump ≤ q.2) :
    Issues bd w (w.put base s b) cls st [e] := by
  have hb : issuedBlocks [e] = offs.map (base, ·) := by simp [issuedBlocks, hblocks]
  have hr : reservedBases [e] = [] := by simp [reservedBases, hres]
  have hholds : ∀ x off d t, (w.put base s b).Holds x off d t ↔ if x = base
      then (off, d) ∈ b.carved ∧ b.place off = t else w.Holds x off d t := by
    intro x off d t
    by_cases hx : x = base
    · subst x
      simp [Holds, World.put, Heap.set, hm]
    · simp [Holds, World.put, Heap.set, hx]
  constructor
  · exact h.put hrep
  · rw [hb]
    exact hnodup.map fun x y hxy => (Prod.mk.inj hxy).2
  · intro q hq d t hh
    rw [hb] at hq
    obtain ⟨off, hoff, rfl⟩ := List.mem_map.mp hq
    rw [← hh.2.2]
    exact hfresh off hoff d hh.2.1
  · intro q hq
    rw [hb] at hq
    obtain ⟨off, hoff, rfl⟩ := List.mem_map.mp hq
    rw [hholds, if_pos rfl]
    exact hissued off hoff
  · intro x off d t _ hq
    rw [hholds]
    split_ifs with hx
    · subst x
      have hoff : off ∉ offs := fun hoff => hq (hb ▸ List.mem_map_of_mem hoff)
      obtain ⟨hcarved, hplace⟩ := hkept off hoff
      rw [hcarved, hplace]
      exact ⟨fun hh => ⟨hm, hh⟩, fun hh => hh.2⟩
    · exact Iff.rfl
  · intro q hq _
    obtain ⟨h1, h2⟩ := hcarve q (by simpa [carvedBlocks] using hq)
    rw [h1]
    exact ⟨hm, h2⟩
  · intro x hx _
    refine ⟨hx, ?_⟩
    by_cases hxb : x = base
    · subst x
      simpa [World.put, Heap.set] using hbump
    · simp [World.put, Heap.set, hxb]
  · simp [hr]
  · rfl

/-- A newly reserved segment has no block. -/
lemma Issues.reserve (cls : ℕ) (st : BlockState) (h : w.Sound bd) {base : ℕ}
    (hg : w.heap.Grantable base) (pooled : Bool) :
    Issues bd w ⟨w.heap.reserve bd base pooled, Function.update w.blocks base .new⟩ cls st
      [.reserved base] := by
  obtain ⟨hun, hal, hne, hrange⟩ := hg
  set w' : World := ⟨w.heap.reserve bd base pooled, Function.update w.blocks base .new⟩ with hw'
  have hcur : w.heap.smallCur ≠ base := by
    intro he
    rw [← he, h.current] at hun
    exact Bool.noConfusion hun
  have hvacant : ∀ off d t, ¬w.Holds base off d t := by
    rintro off d t ⟨hm, -⟩
    rw [hun] at hm
    exact Bool.noConfusion hm
  -- Only the segment of the old cursor can have been unmapped, and it has no live block.
  have hseg : ∀ x ≠ base, w'.heap.segs x = w.heap.segs x := by
    intro x hx
    simp only [hw', Heap.reserve, Heap.retire]
    split_ifs <;> simp [hx]
  have hmapped : ∀ x ≠ base, w'.heap.mapped x = true → w.heap.mapped x = true := by
    intro x hx
    simp only [hw', Heap.reserve, Heap.retire]
    split_ifs
    · simp [hx]
    · by_cases hxc : x = w.heap.smallCur
      · simp [hxc]
      · simp [hx, hxc]
    · simp [hx]
  have hstay : ∀ x ≠ base, w.heap.mapped x = true → w'.heap.mapped x = false →
      (w.heap.segs x).live = 0 := by
    intro x hx hm hm'
    simp only [hw', Heap.reserve, Heap.retire] at hm'
    split_ifs at hm' with hc hp
    · simp [hx, hm] at hm'
    · by_cases hxc : x = w.heap.smallCur
      · subst x
        simpa [hcur] using hc.1
      · simp [hx, hxc, hm] at hm'
    · simp [hx, hm] at hm'
  constructor
  · exact h.reserve base pooled
  · simp [issuedBlocks, Event.blocks]
  · simp [issuedBlocks, Event.blocks]
  · simp [issuedBlocks, Event.blocks]
  · intro x off d t ht _
    by_cases hx : x = base
    · subst x
      refine ⟨fun hh => ?_, fun hh => (hvacant off d t hh).elim⟩
      have := hh.2.1
      simp [hw', Blocks.new] at this
    · simp only [Holds, hw', Function.update_of_ne hx]
      refine ⟨fun hh => ⟨hmapped x hx hh.1, hh.2⟩, fun hh => ⟨?_, hh.2⟩⟩
      by_contra hm'
      exact live_ne_zero (h.represents x hh.1) hh.2.1 (by rw [hh.2.2]; exact ht)
        (hstay x hx hh.1 (Bool.eq_false_iff.mpr hm'))
  · simp [carvedBlocks, Event.carvings]
  · intro x hm hx
    have hx : x ≠ base := by simpa [reservedBases, Event.reservations] using hx
    rw [hseg x hx]
    exact ⟨hmapped x hx hm, le_rfl⟩
  · intro x hx
    obtain rfl : x = base := by simpa [reservedBases, Event.reservations] using hx
    exact ⟨hal, hne, hrange, fun off d t hh => (hvacant off d t hh).elim⟩
  · simp only [hw', Heap.reserve, Heap.retire]
    split_ifs <;> rfl

/-- A phase of a refill runs to its end, and its events issued at most the blocks wanted. -/
def Refills (bd : Build) (w : World) (cls want : ℕ) (st : BlockState)
    (r : Option (Heap × List Event × ℕ)) : Prop :=
  ∃ h es, r = some (h, es, (issuedBlocks es).length) ∧ (issuedBlocks es).length ≤ want ∧
    Issues bd w (w.record cls st h es) cls st es

lemma record_append (w : World) (h₁ h₂ : Heap) (es₁ es₂ : List Event) :
    (w.record cls st h₁ es₁).record cls st h₂ es₂ = w.record cls st h₂ (es₁ ++ es₂) := by
  simp [World.record]

lemma Issues.record_trans {h₁ h₂ : Heap} {es₁ es₂ : List Event} (hst : st ≠ .free)
    (i₁ : Issues bd w (w.record cls st h₁ es₁) cls st es₁)
    (i₂ : Issues bd (w.record cls st h₁ es₁)
      ((w.record cls st h₁ es₁).record cls st h₂ es₂) cls st es₂) :
    Issues bd w (w.record cls st h₂ (es₁ ++ es₂)) cls st (es₁ ++ es₂) := by
  rw [record_append] at i₂
  exact i₁.trans hst i₂

/-- A drain that yields nothing leaves the record as it is. -/
lemma record_drained_nil (w : World) (h : Heap) (base : ℕ) :
    w.record cls st h [.drained base []] = ⟨h, w.blocks⟩ := by
  simp [World.record, Event.record, Blocks.putAll_nil]

lemma record_carved_nil (w : World) (h : Heap) (base : ℕ) (virgin : Bool) :
    w.record cls st h [.carved base [] virgin] = ⟨h, w.blocks⟩ := by
  simp [World.record, Event.record, Blocks.carveAll]

lemma carveAll_runOffsets (b : Blocks) (cls : ℕ) (st : BlockState) (start n : ℕ) :
    b.carveAll cls st (Segment.runOffsets bd cls start n) = b.carveRun bd cls st start n := by
  induction n with
  | zero => rfl
  | succ n ih =>
      rw [Segment.runOffsets, List.range_succ, List.map_append, Blocks.carveAll,
        List.foldl_append, Blocks.carveRun, ← ih]
      rfl

/-- A carved run adds its offsets and no other. -/
lemma carveRun_blocks (b : Blocks) (cls : ℕ) (st : BlockState) (start n : ℕ) :
    (∀ off d, (off, d) ∈ (b.carveRun bd cls st start n).carved ↔ (off, d) ∈ b.carved ∨
      off ∈ Segment.runOffsets bd cls start n ∧ d = cls) ∧
    ∀ off, (b.carveRun bd cls st start n).place off =
      if off ∈ Segment.runOffsets bd cls start n then st else b.place off := by
  induction n with
  | zero => simp [Blocks.carveRun, Segment.runOffsets]
  | succ n ih =>
      have hmem : ∀ off, off ∈ Segment.runOffsets bd cls start (n + 1) ↔
          off ∈ Segment.runOffsets bd cls start n ∨ off = start + n * bd.sizes.blockSize cls := by
        intro off
        simp [Segment.runOffsets, List.range_succ]
      refine ⟨fun off d => ?_, fun off => ?_⟩
      · rw [Blocks.carveRun, Blocks.carve, List.mem_cons, ih.1, hmem, Prod.mk.injEq]
        tauto
      · simp only [Blocks.carveRun, Blocks.carve]
        by_cases he : off = start + n * bd.sizes.blockSize cls
        · rw [he, Function.update_self, if_pos ((hmem _).mpr (.inr rfl))]
        · rw [Function.update_of_ne he, ih.2]
          simp only [hmem, he, or_false]

lemma runOffsets_nodup (bd : Build) (cls start n : ℕ) :
    (Segment.runOffsets bd cls start n).Nodup := by
  have hpos := (bd.sizes.blockSize_granular cls).1
  refine List.nodup_range.map fun i j hij => ?_
  exact Nat.eq_of_mul_eq_mul_right hpos (Nat.add_left_cancel hij)

lemma le_of_mem_runOffsets {start n off : ℕ} (h : off ∈ Segment.runOffsets bd cls start n) :
    start ≤ off := by
  obtain ⟨i, -, rfl⟩ := List.mem_map.mp h
  exact Nat.le_add_right _ _

lemma Sound.drainFrom (h : w.Sound bd) (cls want : ℕ) (hst : st ≠ .free) (source : Option ℕ) :
    ∃ h' out, w.heap.drainFrom bd cls want st source = some (h', out) ∧ out.length ≤ want ∧
      Issues bd w (w.record cls st h' [.drained (source.getD w.heap.smallCur) out]) cls st
        [.drained (source.getD w.heap.smallCur) out] := by
  have stay : ∀ base, Issues bd w (w.record cls st w.heap [.drained base []]) cls st
      [.drained base []] := by
    intro base
    rw [record_drained_nil]
    exact (Issues.refl h cls st).congr rfl rfl rfl
  cases source with
  | none => exact ⟨w.heap, [], rfl, Nat.zero_le _, stay _⟩
  | some base =>
      rw [Heap.drainFrom]
      split_ifs with hm
      · obtain ⟨s, out, hd, hlen, hnodup, hout, hbump, hrep⟩ :=
          tryDrainFreelistBatch_spec (h.represents base hm) cls want hst
        refine ⟨w.heap.set base s, out, by simp [hd], hlen, ?_⟩
        refine Issues.put h hm hrep hnodup (fun off hoff _ _ => (hout off hoff).2)
          (fun off hoff => ⟨(hout off hoff).1, if_pos hoff⟩)
          (fun off hoff => ⟨fun _ => Iff.rfl, if_neg hoff⟩) hbump.ge rfl rfl ?_
        simp [Event.carvings]
      · exact ⟨w.heap, [], rfl, Nat.zero_le _, stay base⟩

lemma Sound.carveCurrent (h : w.Sound bd) (hcls : cls < bd.sizes.count) (want : ℕ)
    (hst : st ≠ .free) (grant : Grant) :
    (∃ h' offs, w.heap.carveCurrent bd cls want st grant = some (h', .ok offs) ∧
      offs.length ≤ want ∧ ∀ virgin,
        Issues bd w (w.record cls st h' [.carved w.heap.smallCur offs virgin]) cls st
          [.carved w.heap.smallCur offs virgin]) ∨
      w.heap.carveCurrent bd cls want st grant = some (w.heap, .error ()) := by
  have hcur := h.represents _ h.current
  obtain ⟨start, n, s, hc, hn, hstart, hbump, hrep⟩ | herr :=
    tryCarveBatch_spec hcur hcls want hst grant
  · set run := Segment.runOffsets bd cls start n with hrun
    set offs := if st = .mag then run.reverse else run with hoffs
    have hmem : ∀ off, off ∈ offs ↔ off ∈ run := by
      intro off
      rw [hoffs]
      split_ifs <;> simp
    have hlen : offs.length = n := by
      rw [hoffs]
      split_ifs <;> simp [hrun, Segment.runOffsets]
    have horder : (if st = .mag then offs.reverse else offs) = run := by
      rw [hoffs]
      split_ifs
      · exact List.reverse_reverse _
      · rfl
    have hnodup : offs.Nodup := by
      rw [hoffs]
      split_ifs
      · exact List.nodup_reverse.mpr (runOffsets_nodup bd cls start n)
      · exact runOffsets_nodup bd cls start n
    obtain ⟨hcarved, hplace⟩ := carveRun_blocks (w.blocks w.heap.smallCur) cls st start n
    refine .inl ⟨w.heap.set w.heap.smallCur s, offs, by simp [Heap.carveCurrent, hc], by omega,
      fun virgin => ?_⟩
    rw [World.record, List.foldl_cons, List.foldl_nil, Event.record, horder, carveAll_runOffsets]
    refine Issues.put h h.current hrep hnodup (fun off hoff d hd => ?_) (fun off hoff => ?_)
      (fun off hoff => ?_) hbump rfl rfl ?_
    · -- A carved block ends below the cursor, where the run begins.
      have h1 := (hcur.placed _ hd).2.2.2
      have h2 := le_of_mem_runOffsets ((hmem off).mp hoff)
      have h3 := (bd.sizes.blockSize_granular d).1
      simp only at h1
      omega
    · rw [hmem] at hoff
      exact ⟨(hcarved off cls).mpr (.inr ⟨hoff, rfl⟩), by rw [hplace, if_pos hoff]⟩
    · rw [hmem] at hoff
      exact ⟨fun d => by simp [hcarved, hoff, ← hrun], by rw [hplace, if_neg hoff]⟩
    · intro q hq
      obtain ⟨off, hoff, rfl⟩ := List.mem_map.mp hq
      exact ⟨rfl, hstart.trans (le_of_mem_runOffsets ((hmem off).mp hoff))⟩
  · refine .inr ?_
    simp [Heap.carveCurrent, herr, Heap.set]

lemma Refills.drained (h : w.Sound bd) (cls want : ℕ) (hst : st ≠ .free) (source : Option ℕ) :
    Refills bd w cls want st (do
      let (h', out) ← w.heap.drainFrom bd cls want st source
      return (h', [.drained (source.getD w.heap.smallCur) out], out.length)) := by
  obtain ⟨h', out, hd, hlen, hi⟩ := h.drainFrom cls want hst source
  have hout : (issuedBlocks [.drained (source.getD w.heap.smallCur) out]).length = out.length := by
    simp [issuedBlocks, Event.blocks]
  refine ⟨h', _, ?_, by rw [hout]; exact hlen, hi⟩
  rw [hd, hout]
  rfl

lemma Sound.drainSources (h : w.Sound bd) (cls want : ℕ) (hst : st ≠ .free)
    (sources : List (Option ℕ)) :
    Refills bd w cls want st (Heap.drainSources bd cls want st sources w.heap) := by
  induction sources generalizing w with
  | nil => exact ⟨w.heap, [], rfl, Nat.zero_le _, Issues.refl h cls st⟩
  | cons source rest ih =>
      obtain ⟨h', out, hd, hlen, hi⟩ := h.drainFrom cls want hst source
      rw [Heap.drainSources, hd]
      simp only [Option.bind_eq_bind, Option.bind_some]
      split_ifs with hout
      · subst hout
        have hs := hi.sound
        rw [record_drained_nil] at hs
        obtain ⟨h₂, es, he, hle, hi₂⟩ := ih hs
        refine ⟨h₂, es, he, hle, ?_⟩
        rw [record_drained_nil] at hi
        exact (hi.trans hst hi₂).congr rfl rfl rfl
      · refine ⟨h', _, ?_, ?_, hi⟩
        · simp [issuedBlocks, Event.blocks]
        · simpa [issuedBlocks, Event.blocks] using hlen

lemma Sound.refillFree (h : w.Sound bd) (cls want : ℕ) (hst : st ≠ .free) (round : RefillRound)
    (freeExhausted : Bool) :
    Refills bd w cls want st (Heap.refillFree bd cls want st round freeExhausted w.heap) := by
  rw [Heap.refillFree]
  split_ifs
  · exact ⟨w.heap, [], rfl, Nat.zero_le _, Issues.refl h cls st⟩
  · exact h.drainSources cls want hst _

lemma Sound.refillLast (h : w.Sound bd) (hcls : cls < bd.sizes.count) (want : ℕ)
    (hst : st ≠ .free) (round : RefillRound) :
    Refills bd w cls want st (Heap.refillLast bd cls want st round w.heap) := by
  rw [Heap.refillLast]
  cases round.reserved with
  | none => exact Refills.drained h cls want hst round.forced
  | some base =>
      simp only
      split_ifs with hg
      · have hr := Issues.reserve cls st h hg round.pooled
        have hcur : (w.heap.reserve bd base round.pooled).smallCur = base := by
          simp only [Heap.reserve, Heap.retire]
          split_ifs <;> rfl
        obtain ⟨h', offs, hc, hlen, hi⟩ | hc :=
          hr.sound.carveCurrent hcls want hst round.reservedGrant
        · simp only at hc
          rw [hc]
          simp only [hcur] at hi
          set virgin := ((w.heap.reserve bd base round.pooled).segs base).payloadVirgin with hv
          refine ⟨h', [.reserved base, .carved base offs virgin], ?_, ?_, hr.trans hst (hi virgin)⟩
          · simp [issuedBlocks, Event.blocks, hcur, hv]
          · simpa [issuedBlocks, Event.blocks] using hlen
        · simp only at hc
          rw [hc]
          exact ⟨w.heap.reserve bd base round.pooled, [.reserved base], rfl, Nat.zero_le _, hr⟩
      · exact ⟨w.heap, [], rfl, Nat.zero_le _, Issues.refl h cls st⟩

lemma Sound.refillFresh (h : w.Sound bd) (hcls : cls < bd.sizes.count) (want : ℕ)
    (hst : st ≠ .free) (round : RefillRound) :
    Refills bd w cls want st (Heap.refillFresh bd cls want st round w.heap) := by
  rw [Heap.refillFresh]
  obtain ⟨h', offs, hc, hlen, hi⟩ | hc := h.carveCurrent hcls want hst round.grant
  · rw [hc]
    cases offs with
    | nil =>
        have hi := hi true
        rw [record_carved_nil] at hi
        obtain ⟨h₂, es, he, hle, hi₂⟩ := hi.sound.refillLast hcls want hst round
        exact ⟨h₂, es, he, hle, (hi.trans hst hi₂).congr rfl rfl rfl⟩
    | cons off offs =>
        set virgin := (w.heap.segs w.heap.smallCur).payloadVirgin with hv
        refine ⟨h', [.carved w.heap.smallCur (off :: offs) virgin], ?_, ?_, hi virgin⟩
        · simp [issuedBlocks, Event.blocks]
        · simpa [issuedBlocks, Event.blocks] using hlen
  · rw [hc]
    exact ⟨w.heap, [], rfl, Nat.zero_le _, Issues.refl h cls st⟩

lemma Sound.refillLoop (h : w.Sound bd) (hcls : cls < bd.sizes.count) (hst : st ≠ .free)
    (rounds : List RefillRound) (want : ℕ) (freeExhausted : Bool) :
    ∃ h' es, Heap.refillLoop bd cls st rounds want freeExhausted w.heap = some (h', es) ∧
      (issuedBlocks es).length ≤ want ∧ Issues bd w (w.record cls st h' es) cls st es := by
  induction rounds generalizing w want freeExhausted with
  | nil => exact ⟨w.heap, [], rfl, Nat.zero_le _, Issues.refl h cls st⟩
  | cons round rounds ih =>
      rw [Heap.refillLoop]
      split_ifs with hwant
      · exact ⟨w.heap, [], rfl, Nat.zero_le _, Issues.refl h cls st⟩
      obtain ⟨h₁, drained, hd, hle₁, hi₁⟩ := h.refillFree cls want hst round freeExhausted
      rw [hd]
      simp only [Option.bind_eq_bind, Option.bind_some]
      have happ : ∀ es₁ es₂ : List Event, (issuedBlocks (es₁ ++ es₂)).length =
          (issuedBlocks es₁).length + (issuedBlocks es₂).length := by
        intro es₁ es₂
        rw [issuedBlocks, List.flatMap_append, List.length_append]
        rfl
      split_ifs with hn
      · obtain ⟨h₂, es, hl, hle₂, hi₂⟩ := ih hi₁.sound (want - (issuedBlocks drained).length) false
        have hl' : Heap.refillLoop bd cls st rounds (want - (issuedBlocks drained).length) false h₁ =
          some (h₂, es) := hl
        rw [hl']
        exact ⟨h₂, drained ++ es, rfl, by rw [happ]; omega, hi₁.record_trans hst hi₂⟩
      · obtain ⟨h₂, fresh, hf, hle₂, hi₂⟩ := hi₁.sound.refillFresh hcls want hst round
        have hf' : Heap.refillFresh bd cls want st round h₁ =
          some (h₂, fresh, (issuedBlocks fresh).length) := hf
        rw [hf']
        simp only [Option.bind_some]
        have hi₁₂ := hi₁.record_trans hst hi₂
        split_ifs
        · exact ⟨h₂, drained ++ fresh, rfl, by rw [happ]; omega, hi₁₂⟩
        · obtain ⟨h₃, es, hl, hle₃, hi₃⟩ :=
            ih hi₁₂.sound (want - (issuedBlocks fresh).length) true
          have hl' : Heap.refillLoop bd cls st rounds (want - (issuedBlocks fresh).length) true h₂ =
            some (h₃, es) := hl
          rw [hl']
          exact ⟨h₃, drained ++ fresh ++ es, rfl, by rw [happ, happ]; omega,
            hi₁₂.record_trans hst hi₃⟩
/-! ## Flush -/

lemma sameSegment_iff {c p : ℕ} : Heap.sameSegment c p = true ↔ p ≠ 0 ∧ segmentBaseOfPtr p = c := by
  simp [Heap.sameSegment]

lemma offset_injective {c p q : ℕ} (hp : segmentBaseOfPtr p = c) (hq : segmentBaseOfPtr q = c)
    (h : p - c = q - c) : p = q := by
  simp only [segmentBaseOfPtr] at hp hq
  omega

lemma freeAll_nil (blocks : ℕ → Blocks) : freeAll blocks [] = blocks := by
  funext base
  simp [freeAll, Blocks.putAll_nil]

lemma freeAll_cons_null (blocks : ℕ → Blocks) (ps : List ℕ) :
    freeAll blocks (0 :: ps) = freeAll blocks ps := by
  funext base
  simp [freeAll, Heap.sameSegment]

/-- A run of one segment is freed there, and the rest afterwards. -/
lemma freeAll_append (blocks : ℕ → Blocks) {c : ℕ} {run : List ℕ}
    (hrun : ∀ q ∈ run, Heap.sameSegment c q = true) (rest : List ℕ) :
    freeAll blocks (run ++ rest) = freeAll (Function.update blocks c
      ((blocks c).putAll (run.map (· - c)) .free)) rest := by
  funext base
  simp only [freeAll, List.filter_append, List.map_append]
  by_cases hb : base = c
  · subst base
    rw [List.filter_eq_self.mpr hrun, Function.update_self, Blocks.putAll_append]
  · have hnil : run.filter (Heap.sameSegment base) = [] := by
      refine List.filter_eq_nil_iff.mpr fun q hq hs => hb ?_
      rw [← (sameSegment_iff.mp hs).2, (sameSegment_iff.mp (hrun q hq)).2]
    rw [hnil, Function.update_of_ne hb]
    rfl

lemma freeAll_frame (blocks : ℕ → Blocks) (ps : List ℕ) (base : ℕ) :
    (freeAll blocks ps base).carved = (blocks base).carved ∧
      ∀ off, (freeAll blocks ps base).place off ≠ .free → (blocks base).place off ≠ .free := by
  refine ⟨rfl, fun off h => ?_⟩
  simp only [freeAll, Blocks.putAll] at h
  split_ifs at h
  · exact (h rfl).elim
  · exact h

/-- From one world to another a flush took these pointers back: a segment with a block that is
out stays mapped. -/
structure Returns (bd : Build) (w w' : World) (ps : List ℕ) : Prop where
  sound : w'.Sound bd
  blocks : w'.blocks = freeAll w.blocks ps
  mapped : ∀ base, w'.heap.mapped base = true → w.heap.mapped base = true
  kept : ∀ base off d, w.heap.mapped base = true → (off, d) ∈ (w.blocks base).carved →
    (w'.blocks base).place off ≠ .free → w'.heap.mapped base = true
  bump : ∀ base, (w'.heap.segs base).bump = (w.heap.segs base).bump
  others : w'.heap.others = w.heap.others

lemma Returns.refl (h : w.Sound bd) : Returns bd w w [] :=
  ⟨h, (freeAll_nil w.blocks).symm, fun _ => id, fun _ _ _ hm _ _ => hm, fun _ => rfl, rfl⟩

lemma Returns.null {w' : World} {ps : List ℕ} (h : Returns bd w w' ps) : Returns bd w w' (0 :: ps) :=
  { h with blocks := by rw [h.blocks, freeAll_cons_null] }

lemma retire_spec (h : Heap) (c : ℕ) (pooled : Bool) :
    (∀ x ≠ c, (h.retire c pooled).1.mapped x = h.mapped x) ∧
      ((h.retire c pooled).2 = false → (h.retire c pooled).1 = h) ∧
      ((h.retire c pooled).2 = true → (h.segs c).live = 0) ∧
      ((h.retire c pooled).1.mapped c = true → h.mapped c = true) ∧
      (h.retire c pooled).1.segs = h.segs ∧ (h.retire c pooled).1.others = h.others := by
  simp only [Heap.retire]
  split_ifs with hc hp
  · exact ⟨fun _ _ => rfl, fun _ => rfl, fun _ => hc.1, id, rfl, rfl⟩
  · exact ⟨fun x hx => by simp [hx], by simp, fun _ => hc.1, by simp, rfl, rfl⟩
  · exact ⟨fun _ _ => rfl, fun _ => rfl, by simp, id, rfl, rfl⟩

/-- A run of one segment is taken back and the segment perhaps released; then the rest. -/
lemma Returns.run {c : ℕ} {run rest : List ℕ} {s : Segment} {h : Heap} {w' : World}
    (hc : w.heap.mapped c = true) (hrun : ∀ q ∈ run, Heap.sameSegment c q = true)
    (hrep : Represents bd s ((w.blocks c).putAll (run.map (· - c)) .free))
    (hbump : s.bump = (w.heap.segs c).bump)
    (hmapped : ∀ x ≠ c, h.mapped x = w.heap.mapped x)
    (hkept : s.live ≠ 0 → h.mapped c = true) (hsegs : h.segs = Function.update w.heap.segs c s)
    (hothers : h.others = w.heap.others)
    (hrest : Returns bd ⟨h, Function.update w.blocks c
      ((w.blocks c).putAll (run.map (· - c)) .free)⟩ w' rest) :
    Returns bd w w' (run ++ rest) := by
  refine ⟨hrest.sound, ?_, fun x hx => ?_, fun x off d hm hd hplace => ?_, fun x => ?_, ?_⟩
  · rw [hrest.blocks, freeAll_append w.blocks hrun]
  · by_cases hxc : x = c
    · rw [hxc]
      exact hc
    · rw [← hmapped x hxc]
      exact hrest.mapped x hx
  · have hd' : (off, d) ∈ (Function.update w.blocks c
        ((w.blocks c).putAll (run.map (· - c)) .free) x).carved := by
      by_cases hxc : x = c
      · subst x
        simpa [Blocks.putAll] using hd
      · simpa [hxc] using hd
    refine hrest.kept x off d ?_ hd' hplace
    by_cases hxc : x = c
    · subst x
      rw [hrest.blocks] at hplace
      have hout := (freeAll_frame _ rest c).2 off hplace
      simp only [Function.update_self] at hout hd'
      exact hkept (live_ne_zero hrep hd' hout)
    · simp only [hmapped x hxc]
      exact hm
  · rw [hrest.bump]
    by_cases hxc : x = c
    · subst x
      simp [hsegs, hbump]
    · simp [hsegs, hxc]
  · rw [hrest.others, hothers]

lemma Sound.flushClass {cls : ℕ} (pooled : ℕ → Bool) (n : ℕ) :
    ∀ {w : World} {ps : List ℕ} (recycled : List ℕ), ps.length ≤ n → w.Sound bd →
      w.Flushable cls ps →
      (∀ p ∈ ps, p ≠ 0 → segmentBaseOfPtr p ∉ recycled) →
      ∃ h', Heap.flushClass bd cls pooled ps recycled w.heap = some h' ∧
        Returns bd w ⟨h', freeAll w.blocks ps⟩ ps := by
  induction n with
  | zero =>
      intro w ps _ hlen h _ _
      obtain rfl := List.eq_nil_of_length_eq_zero (Nat.le_zero.mp hlen)
      refine ⟨w.heap, by rw [Heap.flushClass], ?_⟩
      rw [freeAll_nil]
      exact Returns.refl h
  | succ n ih =>
      intro w ps recycled hlen h hf hrec
      cases ps with
      | nil =>
          refine ⟨w.heap, by rw [Heap.flushClass], ?_⟩
          rw [freeAll_nil]
          exact Returns.refl h
      | cons p rest =>
          rw [Heap.flushClass]
          by_cases hp0 : p = 0
          · subst hp0
            rw [if_pos rfl, freeAll_cons_null]
            have hf' : w.Flushable cls rest :=
              ⟨by simpa using hf.1, fun q hq => hf.2 q (by simp [hq])⟩
            obtain ⟨h', he, hr⟩ := ih recycled (by simpa using hlen) h hf'
              fun q hq => hrec q (by simp [hq])
            exact ⟨h', he, hr.null⟩
          rw [if_neg hp0]
          set c := segmentBaseOfPtr p with hc
          set run := p :: rest.takeWhile (Heap.sameSegment c) with hrundef
          set rest' := rest.dropWhile (Heap.sameSegment c) with hrestdef
          have hsplit : p :: rest = run ++ rest' := by
            rw [hrundef, hrestdef, List.cons_append, List.takeWhile_append_dropWhile]
          have hrun : ∀ q ∈ run, Heap.sameSegment c q = true := by
            intro q hq
            obtain rfl | hq := List.mem_cons.mp hq
            · exact sameSegment_iff.mpr ⟨hp0, hc.symm⟩
            · exact List.mem_takeWhile_imp hq
          have hlen' : rest'.length ≤ n := by
            have := (List.dropWhile_suffix (l := rest) (Heap.sameSegment c)).length_le
            rw [hrestdef]
            simp only [List.length_cons] at hlen
            omega
          obtain ⟨hnodup, hheld⟩ := hf
          rw [hsplit] at hnodup hheld hrec
          have hrunself : run.filter (· ≠ 0) = run := List.filter_eq_self.mpr fun q hq => by
            simpa using (sameSegment_iff.mp (hrun q hq)).1
          rw [List.filter_append, hrunself, List.nodup_append] at hnodup
          have hpm := hheld p (by simp [hrundef]) hp0
          have hrecp := hrec p (by simp [hrundef]) hp0
          rw [← hc] at hpm hrecp
          rw [if_pos ⟨hrecp, hpm.1⟩]
          have hbase : ∀ q ∈ run, segmentBaseOfPtr q = c := fun q hq =>
            (sameSegment_iff.mp (hrun q hq)).2
          -- The run is freeable in its segment.
          have hfree : Freeable bd (w.blocks c) cls (run.map (· - c)) := by
            refine ⟨fun x hx => ?_, .inr ⟨?_, fun x hx => ?_⟩⟩
            · obtain ⟨q, hq, rfl⟩ := List.mem_map.mp hx
              have := hheld q (by simp [hq]) (sameSegment_iff.mp (hrun q hq)).1
              rw [hbase q hq] at this
              exact this.2.1
            · exact List.Nodup.map_on (fun q hq q' hq' he =>
                offset_injective (hbase q hq) (hbase q' hq') he) hnodup.1
            · obtain ⟨q, hq, rfl⟩ := List.mem_map.mp hx
              have := hheld q (by simp [hq]) (sameSegment_iff.mp (hrun q hq)).1
              rw [hbase q hq] at this
              exact this.2.2
          obtain ⟨s', accepted, hflush, hbump, hrep⟩ := flushRun_spec (h.represents c hpm.1) hfree
          rw [hflush, hsplit, freeAll_append w.blocks hrun]
          simp only [Option.bind_eq_bind, Option.bind_some]
          set w₁ : World := w.put c s' ((w.blocks c).putAll (run.map (· - c)) .free)
          have hs₁ : w₁.Sound bd := h.put hrep
          -- What is left to flush is still held.
          have hleft : ∀ q ∈ rest', q ≠ 0 → w₁.heap.mapped (segmentBaseOfPtr q) = true ∧
              (q - segmentBaseOfPtr q, cls) ∈ (w₁.blocks (segmentBaseOfPtr q)).carved ∧
              (w₁.blocks (segmentBaseOfPtr q)).place (q - segmentBaseOfPtr q) ≠ .free := by
            intro q hq hq0
            obtain ⟨h1, h2, h3⟩ := hheld q (by simp [hq]) hq0
            refine ⟨h1, ?_⟩
            by_cases hqc : segmentBaseOfPtr q = c
            · rw [hqc] at h2 h3 ⊢
              have hmem : q - c ∉ run.map (· - c) := by
                intro hm
                obtain ⟨q', hq', he⟩ := List.mem_map.mp hm
                have := offset_injective (hbase q' hq') hqc he
                exact hnodup.2.2 q' hq' q (List.mem_filter.mpr ⟨hq, by simpa using hq0⟩) this
              simp only [w₁, World.put, Function.update_self, Blocks.putAll, if_neg hmem]
              exact ⟨h2, h3⟩
            · simp only [w₁, World.put, Function.update_of_ne hqc]
              exact ⟨h2, h3⟩
          have hlive : ∀ q ∈ rest', q ≠ 0 → segmentBaseOfPtr q = c → s'.live ≠ 0 := by
            intro q hq hq0 hqc
            obtain ⟨-, h2, h3⟩ := hleft q hq hq0
            rw [hqc] at h2 h3
            simp only [w₁, World.put, Function.update_self] at h2 h3
            exact live_ne_zero hrep h2 h3
          set r := (if accepted = 0 then (w₁.heap, false) else w₁.heap.retire c (pooled c)) with hr
          obtain ⟨hs₂, hmapped, hkept, hgone, hsegs, hothers⟩ :
              (⟨r.1, w₁.blocks⟩ : World).Sound bd ∧
              (∀ x ≠ c, r.1.mapped x = w₁.heap.mapped x) ∧ (r.2 = false → r.1 = w₁.heap) ∧
              (r.2 = true → s'.live = 0) ∧ r.1.segs = w₁.heap.segs ∧
              r.1.others = w₁.heap.others := by
            rw [hr]
            split_ifs
            · exact ⟨hs₁, fun _ _ => rfl, fun _ => rfl, by simp, rfl, rfl⟩
            · obtain ⟨h1, h2, h3, -, h5, h6⟩ := retire_spec w₁.heap c (pooled c)
              refine ⟨hs₁.retire c (pooled c), h1, h2, fun h => ?_, h5, h6⟩
              simpa [w₁, World.put, Heap.set] using h3 h
          have hnot : ∀ q ∈ rest', q ≠ 0 → segmentBaseOfPtr q = c → r.2 = false := by
            intro q hq hq0 hqc
            cases h2 : r.2 with
            | false => rfl
            | true => exact (hlive q hq hq0 hqc (hgone h2)).elim
          have hf₂ : (⟨r.1, w₁.blocks⟩ : World).Flushable cls rest' := by
            refine ⟨hnodup.2.1, fun q hq hq0 => ⟨?_, (hleft q hq hq0).2⟩⟩
            by_cases hqc : segmentBaseOfPtr q = c
            · rw [hkept (hnot q hq hq0 hqc)]
              exact (hleft q hq hq0).1
            · rw [hmapped _ hqc]
              exact (hleft q hq hq0).1
          have hrec₂ : ∀ q ∈ rest', q ≠ 0 → segmentBaseOfPtr q ∉ (if r.2 = true ∧
              recycled.length < Heap.recycledCap then c :: recycled else recycled) := by
            intro q hq hq0
            have hold := hrec q (List.mem_append_right _ hq) hq0
            by_cases hqc : segmentBaseOfPtr q = c
            · rw [if_neg fun hP => Bool.false_ne_true ((hnot q hq hq0 hqc).symm.trans hP.1)]
              exact hold
            · have hnew : segmentBaseOfPtr q ∉ c :: recycled := by simp [hqc, hold]
              split_ifs
              · exact hnew
              · exact hold
          obtain ⟨h', he, hret⟩ := ih _ hlen' hs₂ hf₂ hrec₂
          refine ⟨h', he, Returns.run hpm.1 hrun hrep hbump (fun x hx => ?_) (fun hl => ?_) ?_ ?_ hret⟩
          · exact hmapped x hx
          · cases h2 : r.2 with
            | false =>
                rw [hkept h2]
                exact hpm.1
            | true => exact (hl (hgone h2)).elim
          · exact hsegs
          · exact hothers

/-- A refill of at most the slots wanted. -/
lemma Sound.refill (h : w.Sound bd) (hcls : cls < bd.sizes.count) (want : ℕ) (hst : st ≠ .free)
    (rounds : List RefillRound) :
    ∃ w' es, w.refill bd cls want st rounds = some (w', es) ∧ (issuedBlocks es).length ≤ want ∧
      Issues bd w w' cls st es := by
  obtain ⟨h', es, he, hlen, hi⟩ := h.refillLoop hcls hst rounds want false
  exact ⟨_, es, by simp [World.refill, he], hlen, hi⟩

lemma Sound.flush (h : w.Sound bd) {ps : List ℕ} (hf : w.Flushable cls ps) (pooled : ℕ → Bool) :
    ∃ w', w.flush bd cls ps pooled = some w' ∧ Returns bd w w' ps := by
  obtain ⟨h', he, hr⟩ := Sound.flushClass pooled ps.length [] le_rfl h hf
    (fun p _ _ => List.not_mem_nil (a := segmentBaseOfPtr p))
  exact ⟨_, by simp [World.flush, he], hr⟩

end World
end Small
end SeferAlloc
