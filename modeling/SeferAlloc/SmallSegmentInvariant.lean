import SeferAlloc.IntrusiveList
import SeferAlloc.SmallSegment

/-!
# The four representations of a small segment

The abstract segment is a set of carved blocks, each live, in a magazine, or
free. A segment represents it when the list of each class is a chain through
its free blocks, the state bytes encode the states, the counter counts the
blocks that are not free, and the blocks lie apart below the bump cursor.

A batch writes links and bytes as it goes and stores the head and the counter
at its end, so its loop is followed through `settle`: the segment as it would
be if both were stored now.
-/
namespace SeferAlloc
namespace Small
open IntrusiveList

/-! ## State bytes -/

lemma encode_class {cls : ℕ} (h : cls < 63) (st : BlockState) :
    encode cls st &&& 0x3F = BitVec.ofNat 8 (cls + 1) := by
  have all : ∀ c < 63, ∀ st, encode c st &&& 0x3F = BitVec.ofNat 8 (c + 1) := by
    intro c hc st
    cases st <;> revert c <;> decide
  exact all cls h st

lemma encode_state {cls : ℕ} (h : cls < 63) (st : BlockState) :
    encode cls st >>> 6 = BitVec.ofNat 8 st.code := by
  have all : ∀ c < 63, ∀ st, encode c st >>> 6 = BitVec.ofNat 8 st.code := by
    intro c hc st
    cases st <;> revert c <;> decide
  exact all cls h st

lemma code_injective {st st' : BlockState}
    (h : BitVec.ofNat 8 st.code = BitVec.ofNat 8 st'.code) : st = st' := by
  cases st <;> cases st' <;> first | rfl | (revert h; decide)

lemma encode_injective {c d : ℕ} (hc : c < 63) (hd : d < 63) {st st' : BlockState}
    (h : encode c st = encode d st') : c = d ∧ st = st' := by
  constructor
  · have hcls := encode_class hc st
    rw [h, encode_class hd st'] at hcls
    have := congrArg BitVec.toNat hcls
    simp only [BitVec.toNat_ofNat] at this
    omega
  · apply code_injective
    rw [← encode_state hc, ← encode_state hd, h]

lemma encode_ne_zero {cls : ℕ} (h : cls < 63) (st : BlockState) : encode cls st ≠ 0 := by
  intro h0
  have := encode_class h st
  rw [h0] at this
  have := congrArg BitVec.toNat this
  simp only [BitVec.toNat_ofNat] at this
  simp at this
  omega

/-- `set_state` keeps the class bits. -/
lemma encode_setState {cls : ℕ} (h : cls < 63) (st st' : BlockState) :
    (encode cls st &&& (0x3F : BitVec 8)) ||| (BitVec.ofNat 8 st'.code <<< 6) = encode cls st' := by
  rw [encode_class h, encode]

/-! ## Abstract segments -/

/-- The carved blocks, with their offset and class, and the state of each. -/
structure Blocks where
  carved : List (ℕ × ℕ)
  place : ℕ → BlockState

namespace Blocks

def new : Blocks := ⟨[], fun _ => .live⟩

def put (b : Blocks) (off : ℕ) (st : BlockState) : Blocks :=
  { b with place := Function.update b.place off st }

def carve (b : Blocks) (off cls : ℕ) (st : BlockState) : Blocks :=
  ⟨(off, cls) :: b.carved, Function.update b.place off st⟩

/-- The blocks that are not on a free list. -/
def liveCount (b : Blocks) : ℕ := b.carved.countP fun p => b.place p.1 ≠ .free

end Blocks

/-- Two blocks do not overlap. -/
def Apart (bd : Build) (p q : ℕ × ℕ) : Prop :=
  p.1 + bd.sizes.blockSize p.2 ≤ q.1 ∨ q.1 + bd.sizes.blockSize q.2 ≤ p.1

/-- A segment represents an abstract one. -/
structure Represents (bd : Build) (s : Segment) (b : Blocks) : Prop where
  lists : ∀ cls, ∃ l, Chain s.next (s.head cls) l ∧
    ∀ x, x ∈ l ↔ (x, cls) ∈ b.carved ∧ b.place x = .free
  live : s.live = b.liveCount
  placed : ∀ p ∈ b.carved, p.2 < bd.sizes.count ∧ bd.payloadStart s.kind ≤ p.1 ∧
    p.1 % bd.sizes.blockSize p.2 = 0 ∧ p.1 + bd.sizes.blockSize p.2 ≤ s.bump
  apart : b.carved.Pairwise (Apart bd)
  cursor : bd.payloadStart s.kind ≤ s.bump ∧ s.bump ≤ segment
  room : b.carved.length * minBlock ≤ s.bump
  bytes : bd.tracked = true → ∀ p ∈ b.carved,
    s.byte (p.1 / minBlock) = encode p.2 (b.place p.1)
  blank : bd.tracked = true → ∀ g, (∀ p ∈ b.carved, p.1 ≠ g * minBlock) → s.byte g = 0

/-- The segment with a head and a counter stored. -/
def Segment.settle (s : Segment) (cls : ℕ) (head : Option ℕ) (live : ℕ) : Segment :=
  { s with head := Function.update s.head cls head, live := live }

lemma Segment.settle_self (s : Segment) (cls : ℕ) : s.settle cls (s.head cls) s.live = s := by
  simp [Segment.settle]

section
variable {bd : Build} {s : Segment} {b : Blocks} {cls : ℕ}

lemma Build.class_lt (bd : Build) (h : cls < bd.sizes.count) : cls < 63 :=
  lt_of_lt_of_le h bd.sizes.count_le

lemma Represents.offset_nodup (h : Represents bd s b) : (b.carved.map Prod.fst).Nodup := by
  rw [List.Nodup, List.pairwise_map]
  refine h.apart.imp fun {p q} hpq heq => ?_
  have hp := (bd.sizes.blockSize_granular p.2).1
  have hq := (bd.sizes.blockSize_granular q.2).1
  rcases hpq with hpq | hpq <;> omega

/-- The class of a carved block is determined by its offset. -/
lemma Represents.class_unique (h : Represents bd s b) {x c d : ℕ} (hc : (x, c) ∈ b.carved)
    (hd : (x, d) ∈ b.carved) : c = d :=
  congrArg Prod.snd (List.inj_on_of_nodup_map h.offset_nodup hc hd rfl)

/-- Carved blocks start on granules. -/
lemma Represents.granular (h : Represents bd s b) {p : ℕ × ℕ} (hp : p ∈ b.carved) :
    p.1 % minBlock = 0 := by
  have h1 := Nat.dvd_of_mod_eq_zero (h.placed p hp).2.2.1
  have h2 := Nat.dvd_of_mod_eq_zero (bd.sizes.blockSize_granular p.2).2
  exact Nat.mod_eq_zero_of_dvd (h2.trans h1)

lemma Represents.granule_ne (h : Represents bd s b) {p q : ℕ × ℕ} (hp : p ∈ b.carved)
    (hq : q ∈ b.carved) (hne : p.1 ≠ q.1) : p.1 / minBlock ≠ q.1 / minBlock := by
  have h1 := h.granular hp
  have h2 := h.granular hq
  simp only [minBlock] at h1 h2 ⊢
  omega

/-! ## Counting -/

lemma countP_update {l : List (ℕ × ℕ)} (hn : (l.map Prod.fst).Nodup) {p : ℕ × ℕ} (hp : p ∈ l)
    (place : ℕ → BlockState) (st : BlockState) :
    l.countP (fun q => Function.update place p.1 st q.1 ≠ .free) +
        (if place p.1 = .free then 0 else 1) =
      l.countP (fun q => place q.1 ≠ .free) + (if st = .free then 0 else 1) := by
  induction l with
  | nil => simp at hp
  | cons q l ih =>
      rw [List.map_cons, List.nodup_cons] at hn
      rw [List.countP_cons, List.countP_cons]
      obtain rfl | hp := List.mem_cons.mp hp
      · have hrest : l.countP (fun q => Function.update place p.1 st q.1 ≠ .free) =
            l.countP (fun q => place q.1 ≠ .free) := by
          refine List.countP_congr fun q hq => ?_
          have hne : q.1 ≠ p.1 := fun he => hn.1 (he ▸ List.mem_map_of_mem hq)
          simp [hne]
        rw [hrest]
        by_cases h1 : place p.1 = .free <;> by_cases h2 : st = .free <;> simp [h1, h2]
      · have hne : q.1 ≠ p.1 := fun he => hn.1 (he ▸ List.mem_map_of_mem hp)
        have := ih hn.2 hp
        simp only [Function.update_of_ne hne]
        omega

lemma Represents.liveCount_put (h : Represents bd s b) {x : ℕ} (hx : (x, cls) ∈ b.carved)
    (st : BlockState) : (b.put x st).liveCount + (if b.place x = .free then 0 else 1) =
      b.liveCount + (if st = .free then 0 else 1) :=
  countP_update h.offset_nodup hx b.place st

/-- The counter cannot exceed the number of granules. -/
lemma Represents.live_le (h : Represents bd s b) : s.live ≤ segment / minBlock := by
  have h1 : b.liveCount ≤ b.carved.length := List.countP_le_length
  have h2 := h.live
  have h3 := h.room
  have h4 := h.cursor.2
  simp only [minBlock, segment] at h3 h4 ⊢
  omega

/-! ## Bytes -/

lemma Represents.bytes_put (h : Represents bd s b) {x : ℕ} (hx : (x, cls) ∈ b.carved)
    (st : BlockState) (ht : bd.tracked = true) :
    ∀ p ∈ b.carved, Function.update s.byte (x / minBlock) (encode cls st) (p.1 / minBlock) =
      encode p.2 ((b.put x st).place p.1) := by
  intro p hp
  by_cases he : p.1 = x
  · obtain ⟨y, c⟩ := p
    obtain rfl : y = x := he
    rw [Function.update_self, h.class_unique hx hp]
    simp [Blocks.put]
  · rw [Function.update_of_ne (h.granule_ne hp hx he), h.bytes ht p hp]
    simp [Blocks.put, he]

lemma Represents.blank_put (h : Represents bd s b) {x : ℕ} (hx : (x, cls) ∈ b.carved)
    (byte : BitVec 8) (ht : bd.tracked = true) {g : ℕ} (hg : ∀ p ∈ b.carved, p.1 ≠ g * minBlock) :
    Function.update s.byte (x / minBlock) byte g = 0 := by
  have hne : g ≠ x / minBlock := by
    have h1 := hg _ hx
    have h2 := h.granular hx
    simp only [minBlock] at h1 h2 ⊢
    omega
  rw [Function.update_of_ne hne]
  exact h.blank ht g hg

/-! ## One block at a time -/

/-- The head of a free list is handed out. -/
lemma Represents.take {x L : ℕ} {st : BlockState}
    (h : Represents bd (s.settle cls (some x) L) b) (hst : st ≠ .free) :
    (x, cls) ∈ b.carved ∧ b.place x = .free ∧
      (bd.tracked = true → s.byte (x / minBlock) = encode cls .free) ∧
      s.continuation bd x = some (s.next x) ∧
      Represents bd ((s.writeByte bd x cls st).settle cls (s.next x) (L + 1)) (b.put x st) := by
  obtain ⟨l₀, hchain, hmem⟩ := h.lists cls
  simp only [Segment.settle, Function.update_self] at hchain
  obtain ⟨l, rfl, hl⟩ := chain_some hchain
  have hnodup := hchain.nodup
  rw [List.nodup_cons] at hnodup
  obtain ⟨hx, hfree⟩ := (hmem x).mp (by simp)
  have hplaced := h.placed _ hx
  have hcount := h.liveCount_put hx st
  rw [if_pos hfree, if_neg hst] at hcount
  have hlive : L = b.liveCount := h.live
  have hkind : (s.writeByte bd x cls st).kind = s.kind := by
    simp only [Segment.writeByte]
    split_ifs <;> rfl
  refine ⟨hx, hfree, fun ht => hfree ▸ h.bytes ht _ hx, ?_, ?_⟩
  · rw [Segment.continuation]
    cases hn : s.next x with
    | none => rfl
    | some n =>
        rw [hn] at hl
        obtain ⟨l', rfl, -⟩ := chain_some hl
        obtain ⟨hn', -⟩ := (hmem n).mp (by simp)
        have h1 := h.placed _ hn'
        have h2 := h.granular hn'
        have h3 := h.cursor.2
        have h4 := (bd.sizes.blockSize_granular cls).1
        simp only [Segment.settle] at h1 h2 h3
        simp only
        rw [if_pos ⟨h1.2.1, by omega, h2⟩]
  · refine ⟨fun d => ?_, ?_, ?_, h.apart, ?_, ?_, fun ht => ?_, fun ht g hg => ?_⟩
    · by_cases hd : d = cls
      · subst d
        refine ⟨l, ?_, fun y => ?_⟩
        · simp only [Segment.settle, Segment.writeByte, Function.update_self]
          split_ifs <;> exact hl
        · by_cases hy : y = x
          · subst y
            simp [Blocks.put, hst, hnodup.1]
          · have := hmem y
            simp only [List.mem_cons, hy, false_or] at this
            simp only [Blocks.put, Function.update_of_ne hy]
            exact this
      · obtain ⟨l', hc', hm'⟩ := h.lists d
        refine ⟨l', ?_, fun y => ?_⟩
        · simp only [Segment.settle, Segment.writeByte, Function.update_of_ne hd] at hc' ⊢
          split_ifs <;> exact hc'
        · rw [hm' y]
          by_cases hy : y = x
          · subst y
            refine iff_of_false (fun hc => hd (h.class_unique hc.1 hx)) fun hc => ?_
            exact hd (h.class_unique hc.1 hx)
          · simp only [Blocks.put, Function.update_of_ne hy]
    · simp only [Segment.settle]
      omega
    · intro p hp
      have := h.placed p hp
      simp only [Segment.settle, Segment.writeByte] at this ⊢
      split_ifs <;> exact this
    · simp only [Segment.settle, Segment.writeByte]
      split_ifs <;> exact h.cursor
    · simp only [Segment.settle, Segment.writeByte]
      split_ifs <;> exact h.room
    · intro p hp
      simp only [Segment.settle, Segment.writeByte, if_pos ht]
      exact h.bytes_put hx st ht p hp
    · simp only [Segment.settle, Segment.writeByte, if_pos ht]
      exact h.blank_put hx _ ht hg

/-- A block that is not free is put on the list of its class. -/
lemma Represents.give {x L : ℕ} {hd : Option ℕ} (h : Represents bd (s.settle cls hd L) b)
    (hx : (x, cls) ∈ b.carved) (hne : b.place x ≠ .free) :
    1 ≤ L ∧ Represents bd (((s.writeNext x hd).writeByte bd x cls .free).settle cls (some x)
      (L - 1)) (b.put x .free) := by
  have hcount := h.liveCount_put hx .free
  rw [if_neg hne, if_pos rfl] at hcount
  have hlive : L = b.liveCount := h.live
  obtain ⟨l, hl, hmem⟩ := h.lists cls
  simp only [Segment.settle, Function.update_self] at hl
  have hxl : x ∉ l := fun hm => hne ((hmem x).mp hm).2
  refine ⟨by omega, fun d => ?_, ?_, ?_, h.apart, ?_, ?_, fun ht => ?_, fun ht g hg => ?_⟩
  · by_cases hd' : d = cls
    · subst d
      refine ⟨x :: l, ?_, fun y => ?_⟩
      · simp only [Segment.settle, Segment.writeByte, Segment.writeNext, Function.update_self]
        split_ifs <;> exact hl.push hxl
      · by_cases hy : y = x
        · subst y
          simpa [Blocks.put] using hx
        · simp only [List.mem_cons, hy, false_or, Blocks.put, Function.update_of_ne hy]
          exact hmem y
    · obtain ⟨l', hc', hm'⟩ := h.lists d
      have hxl' : x ∉ l' := fun hm => hd' (h.class_unique ((hm' x).mp hm).1 hx)
      refine ⟨l', ?_, fun y => ?_⟩
      · simp only [Segment.settle, Segment.writeByte, Segment.writeNext,
          Function.update_of_ne hd'] at hc' ⊢
        split_ifs <;> exact hc'.update hxl' _
      · rw [hm' y]
        by_cases hy : y = x
        · subst y
          refine iff_of_false (fun hc => hd' (h.class_unique hc.1 hx)) fun hc => ?_
          exact hd' (h.class_unique hc.1 hx)
        · simp only [Blocks.put, Function.update_of_ne hy]
  · simp only [Segment.settle]
    omega
  · intro p hp
    have := h.placed p hp
    simp only [Segment.settle, Segment.writeByte, Segment.writeNext] at this ⊢
    split_ifs <;> exact this
  · simp only [Segment.settle, Segment.writeByte, Segment.writeNext]
    split_ifs <;> exact h.cursor
  · simp only [Segment.settle, Segment.writeByte, Segment.writeNext]
    split_ifs <;> exact h.room
  · intro p hp
    simp only [Segment.settle, Segment.writeByte, Segment.writeNext, if_pos ht]
    exact h.bytes_put hx .free ht p hp
  · simp only [Segment.settle, Segment.writeByte, Segment.writeNext, if_pos ht]
    exact h.blank_put hx _ ht hg

/-- A block is carved at or above the bump cursor, on the grid of its class. -/
lemma Represents.carve {off : ℕ} {st : BlockState} (h : Represents bd s b)
    (hcls : cls < bd.sizes.count) (hoff : s.bump ≤ off) (hgrid : off % bd.sizes.blockSize cls = 0)
    (hend : off + bd.sizes.blockSize cls ≤ segment) (hst : st ≠ .free) :
    Represents bd (({ s with bump := off + bd.sizes.blockSize cls, live := s.live + 1 }
      : Segment).writeByte bd off cls st) (b.carve off cls st) := by
  have hsize := bd.sizes.minBlock_le_blockSize cls
  have hpos := (bd.sizes.blockSize_granular cls).1
  -- Nothing carved before starts at the new offset.
  have hfresh : ∀ p ∈ b.carved, p.1 ≠ off := by
    intro p hp he
    have h1 := (h.placed p hp).2.2.2
    have h2 := (bd.sizes.blockSize_granular p.2).1
    omega
  have hgran : off % minBlock = 0 := Nat.mod_eq_zero_of_dvd
    ((Nat.dvd_of_mod_eq_zero (bd.sizes.blockSize_granular cls).2).trans
      (Nat.dvd_of_mod_eq_zero hgrid))
  have hroom := h.room
  have hcarved : (b.carve off cls st).liveCount = b.liveCount + 1 := by
    simp only [Blocks.liveCount, Blocks.carve, List.countP_cons, Function.update_self]
    rw [if_pos (by simpa using hst)]
    congr 1
    exact List.countP_congr fun p hp => by simp [hfresh p hp]
  refine ⟨fun d => ?_, ?_, ?_, ?_, ?_, ?_, fun ht => ?_, fun ht g hg => ?_⟩
  · obtain ⟨l, hl, hmem⟩ := h.lists d
    refine ⟨l, ?_, fun y => ?_⟩
    · simp only [Segment.writeByte]
      split_ifs <;> exact hl
    · rw [hmem y]
      by_cases hy : y = off
      · subst y
        simp only [Blocks.carve, Function.update_self, hst, and_false, iff_false, not_and]
        exact fun hc => (hfresh _ hc rfl).elim
      · simp only [Blocks.carve, List.mem_cons, Prod.mk.injEq, hy, false_and, false_or,
          Function.update_of_ne hy]
  · rw [hcarved, ← h.live]
    simp only [Segment.writeByte]
    split_ifs <;> rfl
  · intro p hp
    have hkeep : ∀ s' : Segment, (s'.writeByte bd off cls st).kind = s'.kind ∧
        (s'.writeByte bd off cls st).bump = s'.bump := by
      intro s'
      simp only [Segment.writeByte]
      split_ifs <;> exact ⟨rfl, rfl⟩
    rw [(hkeep _).1, (hkeep _).2]
    obtain rfl | hp := List.mem_cons.mp hp
    · exact ⟨hcls, h.cursor.1.trans hoff, hgrid, le_rfl⟩
    · obtain ⟨h1, h2, h3, h4⟩ := h.placed p hp
      exact ⟨h1, h2, h3, by dsimp only; omega⟩
  · refine List.pairwise_cons.mpr ⟨fun p hp => .inr ?_, h.apart⟩
    exact (h.placed p hp).2.2.2.trans hoff
  · have hc := h.cursor
    simp only [Segment.writeByte]
    split_ifs <;> exact ⟨by dsimp only; omega, hend⟩
  · simp only [Segment.writeByte, Blocks.carve, List.length_cons]
    split_ifs <;> dsimp only <;> rw [Nat.succ_mul] <;> omega
  · intro p hp
    simp only [Segment.writeByte, if_pos ht]
    obtain rfl | hp := List.mem_cons.mp hp
    · simp [Blocks.carve]
    · have hne := hfresh p hp
      have hgp := h.granular hp
      have hg : p.1 / minBlock ≠ off / minBlock := by
        simp only [minBlock] at hgran hgp ⊢
        omega
      rw [Function.update_of_ne hg, h.bytes ht p hp]
      simp [Blocks.carve, hne]
  · simp only [Segment.writeByte, if_pos ht]
    have hg' : g ≠ off / minBlock := by
      have := hg (off, cls) (by simp [Blocks.carve])
      simp only [minBlock] at hgran this ⊢
      omega
    rw [Function.update_of_ne hg']
    exact h.blank ht g fun p hp => hg p (by simp [Blocks.carve, hp])

end

end Small

end SeferAlloc
