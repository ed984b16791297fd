import Mathlib.Tactic
import SeferAlloc.LargeCache

/-!
# What the slot operations of the Large cache preserve

Occupancy bits, slots, scan bound and byte counter agree: a bit is set exactly
when its slot holds an entry, every entry lies below the scan bound, and the
counter is the sum over the slots. Each operation on the slots is described
once, by what it does to the contents of the slots, and keeps the agreement.
-/
namespace SeferAlloc
namespace LargeCache
namespace Cache
open BitWord

def usableAt (c : Cache) (i : ℕ) : ℕ := (c.slotGet i).elim 0 CachedLarge.usableSize

def sumUsable (c : Cache) : ℕ := ∑ i ∈ Finset.range totalSlots, c.usableAt i

/-- Occupancy bits and slots agree, and every entry is below the scan bound. -/
structure Placed (c : Cache) : Prop where
  bit : ∀ i < totalSlots, member c.occWords i = (c.slotGet i).isSome
  below : ∀ i x, c.slotGet i = some x → i < c.scanBound
  active : ∀ e, c.extension = some e → e.active ≤ largeCacheExtendedSlots

/-- Occupancy bits, slots, scan bound and byte counter agree, and the counter is within the
effective budget. -/
structure Wf (c : Cache) : Prop where
  bit : ∀ i < totalSlots, member c.occWords i = (c.slotGet i).isSome
  below : ∀ i x, c.slotGet i = some x → i < c.scanBound
  active : ∀ e, c.extension = some e → e.active ≤ largeCacheExtendedSlots
  used : c.usedBytes = c.sumUsable
  budget : ∀ b, c.effectiveBudget = some b → c.usedBytes ≤ b
  /-- Each reservation sits in one slot. -/
  once : ∀ i j x y, c.slotGet i = some x → c.slotGet j = some y → x.base = y.base → i = j

lemma Wf.placed {c : Cache} (h : c.Wf) : c.Placed := ⟨h.bit, h.below, h.active⟩

/-- What the slot operations leave alone. -/
structure Frame (c c' : Cache) : Prop where
  config : c'.config = c.config
  usedBytes : c'.usedBytes = c.usedBytes
  seq : c'.seq = c.seq
  active : c'.extension.map Extension.active = c.extension.map Extension.active
  adapt : c'.extension.map Extension.adapt = c.extension.map Extension.adapt

variable {c c' : Cache} {i j : ℕ} {x y : CachedLarge}

/-! ## Bounds and bits -/

lemma scanBound_eq (c : Cache) : c.scanBound = largeCacheSlots +
    (c.extension.map Extension.active).elim 0 fun a =>
      if c.config.adaptive then a else extendedSlotsInitial := by
  rw [scanBound]
  cases c.extension with
  | none => rfl
  | some e => simp only [Option.map_some, Option.elim_some]; split_ifs <;> rfl

lemma Frame.scanBound (h : Frame c c') : c'.scanBound = c.scanBound := by
  rw [scanBound_eq, scanBound_eq, h.active, h.config]

lemma Frame.effectiveBudget (h : Frame c c') : c'.effectiveBudget = c.effectiveBudget := by
  rw [Cache.effectiveBudget, h.config, Cache.effectiveBudget]

lemma Frame.active_le (h : Frame c c')
    (ha : ∀ e, c.extension = some e → e.active ≤ largeCacheExtendedSlots) :
    ∀ e, c'.extension = some e → e.active ≤ largeCacheExtendedSlots := by
  intro e he
  have hm := h.active
  rw [he, Option.map_some] at hm
  obtain ⟨d, hd, hde⟩ := Option.map_eq_some_iff.mp hm.symm
  exact hde ▸ ha d hd

lemma Frame.rfl (c : Cache) : Frame c c := ⟨.refl _, .refl _, .refl _, .refl _, .refl _⟩

lemma Placed.scanBound_le (h : c.Placed) : c.scanBound ≤ totalSlots := by
  rw [scanBound, totalSlots]
  split
  · exact Nat.le_add_right _ _
  · rename_i e he
    split_ifs
    · exact Nat.add_le_add_left (h.active e he) _
    · decide

lemma Placed.lt_total (h : c.Placed) (hx : c.slotGet i = some x) : i < totalSlots :=
  lt_of_lt_of_le (h.below i x hx) h.scanBound_le

lemma Wf.scanBound_le (h : c.Wf) : c.scanBound ≤ totalSlots := h.placed.scanBound_le

lemma Wf.lt_total (h : c.Wf) (hx : c.slotGet i = some x) : i < totalSlots := h.placed.lt_total hx

/-! ## Taking an entry out of a slot -/

lemma slotGet_base {i : ℕ} (hi : i < largeCacheSlots) : c.slotGet i = c.slots i := if_pos hi

lemma slotGet_extension {i : ℕ} (hi : ¬ i < largeCacheSlots) :
    c.slotGet i = c.extension.bind fun e => e.slots (i - largeCacheSlots) := if_neg hi

/-- Slot and bit of an entry of the base array change together. -/
lemma slotGet_update_base {i : ℕ} (hi : i < largeCacheSlots) (v : Option CachedLarge) (w : Word) :
    slotGet { c with slots := Function.update c.slots i v, occupied := w } =
      Function.update c.slotGet i v := by
  funext j
  by_cases hj : j < largeCacheSlots
  · rw [slotGet_base hj]
    simp only [Function.update_apply, slotGet_base hj]
  · have hji : j ≠ i := by rintro rfl; exact hj hi
    rw [Function.update_of_ne hji, slotGet_extension hj, slotGet_extension hj]

lemma slotGet_update_extension {e : Extension} (he : c.extension = some e) {i : ℕ}
    (hi : ¬ i < largeCacheSlots) (v : Option CachedLarge) (hi' : ℕ → Word) (w : Word) :
    slotGet { c with
      extension := some { e with
        slots := Function.update e.slots (i - largeCacheSlots) v, occHi := hi' }
      occupied := w } = Function.update c.slotGet i v := by
  funext j
  by_cases hj : j < largeCacheSlots
  · have hji : j ≠ i := by rintro rfl; exact hi hj
    rw [Function.update_of_ne hji, slotGet_base hj, slotGet_base hj]
  · have hiff : j - largeCacheSlots = i - largeCacheSlots ↔ j = i := by omega
    rw [slotGet_extension hj, Option.bind_some]
    simp only [Function.update_apply, hiff, slotGet_extension hj, he, Option.bind_some]

lemma occWords_low {d : Cache} (i : ℕ) (hi : i < 64) (w : Word)
    (hocc : d.occupied = w) (hext : ∀ k, d.occWords (k + 1) = c.occWords (k + 1)) :
    d.occWords = Function.update c.occWords (i / 64) w := by
  funext k
  rw [Nat.div_eq_of_lt hi]
  cases k with
  | zero => rw [Function.update_self]; exact hocc
  | succ k => rw [Function.update_of_ne (Nat.succ_ne_zero k)]; exact hext k

lemma occWords_high {d : Cache} {e : Extension} (he : c.extension = some e) (i : ℕ) (hi : 64 ≤ i)
    (w : Word) (hocc : d.occupied = c.occupied)
    (hext : ∀ k, d.occWords (k + 1) = Function.update e.occHi (i / 64 - 1) w k) :
    d.occWords = Function.update c.occWords (i / 64) w := by
  funext k
  cases k with
  | zero =>
      have hne : 0 ≠ i / 64 := by omega
      rw [Function.update_of_ne hne]
      exact hocc
  | succ k =>
      have hiff : k = i / 64 - 1 ↔ k + 1 = i / 64 := by omega
      rw [hext, Function.update_apply, Function.update_apply, occWords,
        if_neg (Nat.succ_ne_zero k), he]
      simp only [hiff]
      rfl

lemma occWords_zero (c : Cache) {i : ℕ} (hi : i < 64) : c.occWords (i / 64) = c.occupied := by
  rw [Nat.div_eq_of_lt hi]
  rfl

lemma occWords_div {e : Extension} (he : c.extension = some e) {i : ℕ} (hi : 64 ≤ i) :
    c.occWords (i / 64) = e.occHi (i / 64 - 1) := by
  rw [occWords, if_neg (by omega), he]

lemma slotTake_spec (hx : c.slotGet i = some x) :
    ∃ c', c.slotTake i = some (x, c') ∧ c'.slotGet = Function.update c.slotGet i none ∧
      c'.occWords =
        Function.update c.occWords (i / 64) (c.occWords (i / 64) &&& ~~~bit (i % 64)) ∧
      Frame c c' := by
  by_cases hi : i < largeCacheSlots
  · have hi64 : i < 64 := lt_trans hi (by decide)
    rw [slotGet_base hi] at hx
    refine ⟨_, by rw [slotTake, if_pos hi, hx]; rfl, slotGet_update_base hi none _, ?_,
      ⟨rfl, rfl, rfl, rfl, rfl⟩⟩
    rw [occWords_zero c hi64, Nat.mod_eq_of_lt hi64]
    exact occWords_low i hi64 _ rfl fun _ => rfl
  · rw [slotGet_extension hi, Option.bind_eq_some_iff] at hx
    obtain ⟨e, he, hx⟩ := hx
    have hframe : ∀ (s : ℕ → Option CachedLarge) (o : ℕ → Word) (w : Word), Frame c { c with
        extension := some { e with slots := s, occHi := o }, occupied := w } := fun s o w =>
      ⟨rfl, rfl, rfl, by rw [he]; rfl, by rw [he]; rfl⟩
    by_cases h64 : 64 ≤ i
    · refine ⟨_, by rw [slotTake, if_neg hi, he, Option.bind_some, hx, Option.map_some,
        if_pos h64], slotGet_update_extension he hi none _ _, ?_, hframe _ _ _⟩
      rw [occWords_div he h64]
      exact occWords_high he i h64 _ rfl fun _ => rfl
    · have hi64 : i < 64 := not_le.mp h64
      refine ⟨_, by rw [slotTake, if_neg hi, he, Option.bind_some, hx, Option.map_some,
        if_neg h64], slotGet_update_extension he hi none _ _, ?_, hframe _ _ _⟩
      rw [occWords_zero c hi64, Nat.mod_eq_of_lt hi64]
      exact occWords_low i hi64 _ rfl fun k => by simp [occWords, he]

lemma slotSet_spec (hi : i < c.scanBound) (hle : c.scanBound ≤ totalSlots) :
    ∃ c', c.slotSet i x = some c' ∧ c'.slotGet = Function.update c.slotGet i (some x) ∧
      c'.occWords =
        Function.update c.occWords (i / 64) (c.occWords (i / 64) ||| bit (i % 64)) ∧
      Frame c c' := by
  by_cases hb : i < largeCacheSlots
  · have hi64 : i < 64 := lt_trans hb (by decide)
    refine ⟨_, by rw [slotSet, if_pos hb], slotGet_update_base hb _ _, ?_,
      ⟨rfl, rfl, rfl, rfl, rfl⟩⟩
    rw [occWords_zero c hi64, Nat.mod_eq_of_lt hi64]
    exact occWords_low i hi64 _ rfl fun _ => rfl
  · obtain ⟨e, he⟩ : ∃ e, c.extension = some e := by
      cases he : c.extension with
      | none => rw [scanBound, he] at hi; exact absurd hi hb
      | some e => exact ⟨e, rfl⟩
    have hin : ¬ largeCacheSlots + largeCacheExtendedSlots ≤ i :=
      not_le.mpr (lt_of_lt_of_le hi hle)
    have hframe : ∀ (s : ℕ → Option CachedLarge) (o : ℕ → Word) (w : Word), Frame c { c with
        extension := some { e with slots := s, occHi := o }, occupied := w } := fun s o w =>
      ⟨rfl, rfl, rfl, by rw [he]; rfl, by rw [he]; rfl⟩
    by_cases h64 : 64 ≤ i
    · refine ⟨_, by rw [slotSet, if_neg hb, if_neg hin, he, Option.map_some, if_pos h64],
        slotGet_update_extension he hb _ _ _, ?_, hframe _ _ _⟩
      rw [occWords_div he h64]
      exact occWords_high he i h64 _ rfl fun _ => rfl
    · have hi64 : i < 64 := not_le.mp h64
      refine ⟨_, by rw [slotSet, if_neg hb, if_neg hin, he, Option.map_some, if_neg h64],
        slotGet_update_extension he hb _ _ _, ?_, hframe _ _ _⟩
      rw [occWords_zero c hi64, Nat.mod_eq_of_lt hi64]
      exact occWords_low i hi64 _ rfl fun k => by simp [occWords, he]

/-! ## Withdrawal and deposit -/

lemma sumUsable_update {v : Option CachedLarge} (hget : c'.slotGet = Function.update c.slotGet i v)
    (hi : i < totalSlots) :
    c'.sumUsable + c.usableAt i = c.sumUsable + v.elim 0 CachedLarge.usableSize := by
  have hmem : i ∈ Finset.range totalSlots := Finset.mem_range.mpr hi
  have hself : c'.usableAt i = v.elim 0 CachedLarge.usableSize := by
    rw [usableAt, hget, Function.update_self]
  have hrest : ∑ j ∈ (Finset.range totalSlots).erase i, c'.usableAt j =
      ∑ j ∈ (Finset.range totalSlots).erase i, c.usableAt j := by
    refine Finset.sum_congr (Eq.refl _) fun j hj => ?_
    rw [usableAt, hget, Function.update_of_ne (Finset.ne_of_mem_erase hj), usableAt]
  rw [sumUsable, sumUsable, ← Finset.add_sum_erase _ c'.usableAt hmem,
    ← Finset.add_sum_erase _ c.usableAt hmem, hrest, hself]
  omega

lemma Placed.take (h : c.Placed) (hget : c'.slotGet = Function.update c.slotGet i none)
    (hocc : c'.occWords =
      Function.update c.occWords (i / 64) (c.occWords (i / 64) &&& ~~~BitWord.bit (i % 64)))
    (hf : Frame c c') : c'.Placed := by
  refine ⟨fun j hj => ?_, fun j y hy => ?_, hf.active_le h.active⟩
  · rw [hocc, hget, member_clear, Function.update_apply, h.bit j hj]
    split_ifs with hji <;> simp [hji]
  · rw [hget, Function.update_apply] at hy
    split_ifs at hy
    rw [hf.scanBound]
    exact h.below j y hy

lemma Placed.set (h : c.Placed) (hi : i < c.scanBound)
    (hget : c'.slotGet = Function.update c.slotGet i (some x))
    (hocc : c'.occWords =
      Function.update c.occWords (i / 64) (c.occWords (i / 64) ||| BitWord.bit (i % 64)))
    (hf : Frame c c') : c'.Placed := by
  refine ⟨fun j hj => ?_, fun j y hy => ?_, hf.active_le h.active⟩
  · rw [hocc, hget, member_set, Function.update_apply, h.bit j hj]
    split_ifs with hji <;> simp [hji]
  · rw [hf.scanBound]
    rw [hget, Function.update_apply] at hy
    split_ifs at hy with hji
    · exact hji ▸ hi
    · exact h.below j y hy

/-- An entry leaves its slot, and its bytes leave the counter without saturation. -/
lemma Wf.withdraw (h : c.Wf) (hx : c.slotGet i = some x) :
    ∃ c', c.slotTake i = some (x, c') ∧ (c'.subUsed x.usableSize).Wf ∧
      x.usableSize ≤ c.usedBytes ∧ c'.slotGet = Function.update c.slotGet i none ∧
      Frame c c' := by
  obtain ⟨c', htake, hget, hocc, hf⟩ := slotTake_spec hx
  have hsum := sumUsable_update hget (h.lt_total hx)
  have hat : c.usableAt i = x.usableSize := by rw [usableAt, hx]; rfl
  have hused : c.usedBytes = c'.sumUsable + x.usableSize := by
    rw [hat, Option.elim_none, Nat.add_zero] at hsum
    exact h.used.trans hsum.symm
  have hne : ∀ {j y}, c'.slotGet j = some y → c.slotGet j = some y := by
    intro j y hy
    rw [hget, Function.update_apply] at hy
    split_ifs at hy
    exact hy
  have hp := h.placed.take hget hocc hf
  refine ⟨c', htake, ⟨hp.bit, hp.below, hp.active, ?_, fun b hb => ?_,
    fun j k y z hy hz => h.once j k y z (hne hy) (hne hz)⟩, by omega, hget, hf⟩
  · change c'.usedBytes - x.usableSize = c'.sumUsable
    rw [hf.usedBytes]
    omega
  · have hb' : c'.effectiveBudget = some b := hb
    rw [hf.effectiveBudget] at hb'
    have hle := h.budget b hb'
    change c'.usedBytes - x.usableSize ≤ b
    rw [hf.usedBytes]
    omega

/-- An entry of a reservation outside the cache enters a free slot within the budget. -/
lemma Wf.deposit (h : c.Wf) (hi : i < c.scanBound) (hfree : c.slotGet i = none)
    (hnew : ∀ j y, c.slotGet j = some y → y.base ≠ x.base)
    (hb : c.budgetOk x.usableSize = true) :
    ∃ c', c.slotSet i x = some c' ∧ (c'.addUsed x.usableSize).Wf ∧
      c'.slotGet = Function.update c.slotGet i (some x) ∧ Frame c c' := by
  obtain ⟨c', hset, hget, hocc, hf⟩ := slotSet_spec (x := x) hi h.scanBound_le
  have hsum := sumUsable_update hget (lt_of_lt_of_le hi h.scanBound_le)
  have hat : c.usableAt i = 0 := by rw [usableAt, hfree]; rfl
  have hcases : ∀ {j y}, c'.slotGet j = some y →
      j = i ∧ y = x ∨ j ≠ i ∧ c.slotGet j = some y := by
    intro j y hy
    rw [hget, Function.update_apply] at hy
    split_ifs at hy with hji
    · exact .inl ⟨hji, (Option.some.inj hy).symm⟩
    · exact .inr ⟨hji, hy⟩
  have hp := h.placed.set hi hget hocc hf
  refine ⟨c', hset, ⟨hp.bit, hp.below, hp.active, ?_, fun b hb' => ?_,
    fun j k y z hy hz hyz => ?_⟩, hget, hf⟩
  · change c'.usedBytes + x.usableSize = c'.sumUsable
    rw [hat, Option.elim_some, Nat.add_zero] at hsum
    rw [hf.usedBytes, h.used]
    exact hsum.symm
  · have hb'' : c'.effectiveBudget = some b := hb'
    rw [hf.effectiveBudget] at hb''
    rw [budgetOk, hb'', Option.all_some, decide_eq_true_eq] at hb
    change c'.usedBytes + x.usableSize ≤ b
    rw [hf.usedBytes]
    exact hb
  · obtain ⟨rfl, rfl⟩ | ⟨-, hy'⟩ := hcases hy <;> obtain ⟨rfl, rfl⟩ | ⟨-, hz'⟩ := hcases hz
    · rfl
    · exact absurd hyz.symm (hnew k z hz')
    · exact absurd hyz (hnew j y hy')
    · exact h.once j k y z hy' hz' hyz

/-! ## Scans -/

lemma getLsbD_maskWord {bound w b : ℕ} (hb : b < 64) (v : Word) :
    (maskWord bound w v).getLsbD b = (v.getLsbD b && decide (w * 64 + b < bound)) := by
  rw [maskWord]
  split_ifs with hle hlt
  · have : ¬ w * 64 + b < bound := by omega
    simp [this]
  · rw [BitVec.getLsbD_and, getLsbD_bit_sub_one (by omega)]
    have : b < bound - w * 64 ↔ w * 64 + b < bound := by omega
    simp only [this]
  · have : w * 64 + b < bound := by omega
    simp [this]

lemma mem_occupiedSlots : i ∈ c.occupiedSlots ↔
    i < largeCacheOccWords * 64 ∧ member c.occWords i = true ∧ i < c.scanBound := by
  simp only [occupiedSlots, List.mem_flatMap, List.mem_map, List.mem_range, mem_bits]
  constructor
  · rintro ⟨w, hw, b, hbit, rfl⟩
    have hb : b < 64 := lt_of_mem_bits (mem_bits.mpr hbit)
    rw [getLsbD_maskWord hb, Bool.and_eq_true, decide_eq_true_eq] at hbit
    rw [member_at _ _ hb]
    exact ⟨by omega, hbit⟩
  · rintro ⟨hi, hmem, hbound⟩
    have hb : i % 64 < 64 := Nat.mod_lt _ (by decide)
    have hsum : i / 64 * 64 + i % 64 = i := Nat.div_add_mod' i 64
    refine ⟨i / 64, by omega, i % 64, ?_, hsum⟩
    rw [getLsbD_maskWord hb, hsum, decide_eq_true hbound, Bool.and_true]
    exact hmem

/-- The iterator visits the occupied slots. -/
lemma Placed.mem_occupiedSlots (h : c.Placed) : i ∈ c.occupiedSlots ↔ (c.slotGet i).isSome = true := by
  rw [Cache.mem_occupiedSlots]
  constructor
  · rintro ⟨hi, hmem, -⟩
    rwa [← h.bit i hi]
  · intro hi
    obtain ⟨x, hx⟩ := Option.isSome_iff_exists.mp hi
    exact ⟨h.lt_total hx, by rwa [h.bit i (h.lt_total hx)], h.below i x hx⟩

lemma Wf.mem_occupiedSlots (h : c.Wf) : i ∈ c.occupiedSlots ↔ (c.slotGet i).isSome = true :=
  h.placed.mem_occupiedSlots

lemma pairwise_occupiedSlots (c : Cache) : c.occupiedSlots.Pairwise (· < ·) := by
  rw [occupiedSlots, List.pairwise_flatMap]
  refine ⟨fun w _ => ?_, List.pairwise_lt_range.imp fun {v w} hvw a ha b hb => ?_⟩
  · rw [List.pairwise_map]
    exact (pairwise_bits _).imp fun h => Nat.add_lt_add_left h _
  · obtain ⟨k, hk, rfl⟩ := List.mem_map.mp ha
    obtain ⟨m, -, rfl⟩ := List.mem_map.mp hb
    have := lt_of_mem_bits hk
    omega

/-- The last slot the iterator visits is the highest one. -/
lemma Placed.le_highestOccupied (h : c.Placed) (hx : c.slotGet i = some x) :
    ∃ k, c.highestOccupied = some k ∧ i ≤ k := by
  have hi : i ∈ c.occupiedSlots := h.mem_occupiedSlots.mpr (by rw [hx]; rfl)
  obtain ⟨k, hk⟩ : ∃ k, c.occupiedSlots.getLast? = some k := by
    cases hl : c.occupiedSlots.getLast? with
    | none => rw [List.getLast?_eq_none_iff.mp hl] at hi; simp at hi
    | some k => exact ⟨k, rfl⟩
  refine ⟨k, hk, ?_⟩
  obtain ⟨ys, hys⟩ := List.getLast?_eq_some_iff.mp hk
  have hp := c.pairwise_occupiedSlots
  rw [hys, List.pairwise_append] at hp
  rw [hys, List.mem_append, List.mem_singleton] at hi
  obtain hi | rfl := hi
  · exact (hp.2.2 i hi k (List.mem_singleton_self k)).le
  · exact le_refl _

/-- A scan ends with what it started with, or with an entry older than all it has seen. -/
lemma oldestScan_spec (slot : ℕ → Option CachedLarge) (is : List ℕ) {best : Option ℕ}
    {bestSeq k : ℕ} (hs : oldestScan slot is best bestSeq = some k) :
    (best = some k ∧ ∀ j ∈ is, ∀ y, slot j = some y → bestSeq ≤ y.seq) ∨
      ∃ x, slot k = some x ∧ x.seq < bestSeq ∧ ∀ j ∈ is, ∀ y, slot j = some y → x.seq ≤ y.seq := by
  induction is generalizing best bestSeq with
  | nil => exact .inl ⟨hs, by simp⟩
  | cons i is ih =>
      rw [oldestScan] at hs
      cases hi : slot i with
      | none =>
          rw [hi] at hs
          have hskip : ∀ y, slot i ≠ some y := by simp [hi]
          obtain ⟨hb, hall⟩ | ⟨x, hx, hlt, hall⟩ := ih hs
          · exact .inl ⟨hb, List.forall_mem_cons.mpr ⟨fun y hy => absurd hy (hskip y), hall⟩⟩
          · exact .inr ⟨x, hx, hlt, List.forall_mem_cons.mpr ⟨fun y hy => absurd hy (hskip y), hall⟩⟩
      | some c =>
          simp only [hi] at hs
          have hown : ∀ {n}, n ≤ c.seq → ∀ y, slot i = some y → n ≤ y.seq := by
            intro n hn y hy
            rw [hi, Option.some.injEq] at hy
            exact hy ▸ hn
          split_ifs at hs with hlt hzero
          · obtain rfl := Option.some.inj hs
            exact .inr ⟨c, hi, hlt, fun j _ y _ => by rw [hzero]; exact Nat.zero_le _⟩
          · obtain ⟨hb, hall⟩ | ⟨x, hx, hxc, hall⟩ := ih hs
            · obtain rfl := Option.some.inj hb
              exact .inr ⟨c, hi, hlt, List.forall_mem_cons.mpr ⟨hown (le_refl _), hall⟩⟩
            · exact .inr ⟨x, hx, hxc.trans hlt, List.forall_mem_cons.mpr ⟨hown hxc.le, hall⟩⟩
          · obtain ⟨hb, hall⟩ | ⟨x, hx, hxb, hall⟩ := ih hs
            · exact .inl ⟨hb, List.forall_mem_cons.mpr ⟨hown (not_lt.mp hlt), hall⟩⟩
            · exact .inr ⟨x, hx, hxb, List.forall_mem_cons.mpr
                ⟨hown (hxb.le.trans (not_lt.mp hlt)), hall⟩⟩

/-- The victim of an eviction has the smallest sequence number in the cache. -/
lemma Wf.oldestOccupiedSlot (h : c.Wf) (hk : c.oldestOccupiedSlot = some i) :
    ∃ x, c.slotGet i = some x ∧ ∀ j y, c.slotGet j = some y → x.seq ≤ y.seq := by
  obtain ⟨hb, -⟩ | ⟨x, hx, -, hall⟩ := oldestScan_spec _ _ hk
  · cases hb
  · exact ⟨x, hx, fun j y hy => hall j (h.mem_occupiedSlots.mpr (by rw [hy]; rfl)) y hy⟩

/-- A hit is an occupied slot whose segment is large enough. -/
lemma bestFitScan_spec (slot : ℕ → Option CachedLarge) (usable : ℕ) (is : List ℕ)
    {best : Option ℕ} {bestUsable k : ℕ}
    (hs : bestFitScan slot usable is best bestUsable = some k) :
    best = some k ∨ ∃ x, slot k = some x ∧ usable ≤ x.usableSize := by
  induction is generalizing best bestUsable with
  | nil => exact .inl hs
  | cons i is ih =>
      rw [bestFitScan] at hs
      cases hi : slot i with
      | none =>
          rw [hi] at hs
          exact ih hs
      | some c =>
          simp only [hi] at hs
          split_ifs at hs with hfit hexact
          · obtain rfl := Option.some.inj hs
            exact .inr ⟨c, hi, hfit.1⟩
          · obtain hb | hk := ih hs
            · obtain rfl := Option.some.inj hb
              exact .inr ⟨c, hi, hfit.1⟩
            · exact .inr hk
          · exact ih hs

lemma bestFit_spec {usable : ℕ} (hk : c.bestFit usable = some i) :
    ∃ x, c.slotGet i = some x ∧ usable ≤ x.usableSize := by
  obtain hb | hx := bestFitScan_spec _ _ _ hk
  · cases hb
  · exact hx

/-! ## Operations that leave the slots alone -/

/-- The slots, the counter and the sequence number are unchanged, and all still agrees. -/
structure Quiet (c c' : Cache) : Prop where
  wf : c'.Wf
  slotGet : c'.slotGet = c.slotGet
  config : c'.config = c.config
  usedBytes : c'.usedBytes = c.usedBytes
  seq : c'.seq = c.seq

lemma Wf.quiet (h : c.Wf) : Quiet c c := ⟨h, rfl, rfl, rfl, rfl⟩

lemma sumUsable_congr (hget : c'.slotGet = c.slotGet) : c'.sumUsable = c.sumUsable := by
  simp only [sumUsable, usableAt, hget]

/-- Slots may have opened or closed, but the entries and their bits stand where they stood. -/
structure Rearranged (c c' : Cache) : Prop where
  slotGet : c'.slotGet = c.slotGet
  occWords : c'.occWords = c.occWords
  config : c'.config = c.config
  usedBytes : c'.usedBytes = c.usedBytes
  seq : c'.seq = c.seq
  active : ∀ e, c'.extension = some e → e.active ≤ largeCacheExtendedSlots
  below : ∀ i x, c.slotGet i = some x → i < c'.scanBound

lemma Placed.rearranged (h : c.Placed) : Rearranged c c :=
  ⟨rfl, rfl, rfl, rfl, rfl, h.active, h.below⟩

lemma Rearranged.placed (r : Rearranged c c') (h : c.Placed) : c'.Placed := by
  constructor
  · intro i hi
    rw [r.occWords, r.slotGet]
    exact h.bit i hi
  · intro i x hx
    rw [r.slotGet] at hx
    exact r.below i x hx
  · exact r.active

lemma Rearranged.quiet (r : Rearranged c c') (h : c.Wf) : Quiet c c' := by
  have hp := r.placed h.placed
  refine ⟨⟨hp.bit, hp.below, hp.active, ?_, fun b hb => ?_, fun i j x y hx hy => ?_⟩,
    r.slotGet, r.config, r.usedBytes, r.seq⟩
  · rw [r.usedBytes, sumUsable_congr r.slotGet]
    exact h.used
  · rw [r.usedBytes]
    apply h.budget b
    rwa [Cache.effectiveBudget, r.config] at hb
  · rw [r.slotGet] at hx hy
    exact h.once i j x y hx hy

lemma firstFreeFrom_spec {bound n : ℕ} (hj : c.firstFreeFrom bound n i = some j) :
    j < bound ∧ member c.occWords j = false := by
  induction n generalizing i with
  | zero => cases hj
  | succ n ih =>
      rw [firstFreeFrom] at hj
      split_ifs at hj with hi
      dsimp only at hj
      split_ifs at hj with hfree hlt
      · obtain rfl := Option.some.inj hj
        refine ⟨hlt, ?_⟩
        have hbit := getLsbD_trailingZeros hfree
        rw [BitVec.getLsbD_and, BitVec.getLsbD_not, Bool.and_eq_true, Bool.and_eq_true] at hbit
        rw [member_at _ _ (trailingZeros_lt hfree)]
        simpa using hbit.1.2
      · exact ih hj

lemma Wf.firstFree (h : c.Wf) {start bound : ℕ} (hbound : bound ≤ totalSlots)
    (hj : c.firstFree start bound = some j) : j < bound ∧ c.slotGet j = none := by
  obtain ⟨hlt, hm⟩ := firstFreeFrom_spec hj
  rw [h.bit j (lt_of_lt_of_le hlt hbound)] at hm
  exact ⟨hlt, Option.not_isSome_iff_eq_none.mp (by rw [hm]; exact Bool.false_ne_true)⟩

/-- The extension is there, or is created without entries. -/
lemma Placed.materialise (h : c.Placed) :
    Rearranged c { c with extension := some (c.extension.getD .new) } := by
  cases he : c.extension with
  | some e =>
      rw [Option.getD_some, ← he]
      exact h.rearranged
  | none =>
      refine ⟨?_, ?_, rfl, rfl, rfl, fun e he' => ?_, fun i x hx => ?_⟩
      · funext j
        by_cases hj : j < largeCacheSlots
        · rw [slotGet_base hj, slotGet_base hj]
        · rw [slotGet_extension hj, slotGet_extension hj, he]
          rfl
      · funext w
        simp only [occWords, he]
        rfl
      · obtain rfl := Option.some.inj he'
        exact Nat.zero_le _
      · have hi := h.below i x hx
        rw [scanBound, he] at hi
        rw [scanBound]
        split_ifs
        · exact lt_of_lt_of_le hi (Nat.le_add_right _ _)
        · exact lt_of_lt_of_le hi (Nat.le_add_right _ _)

lemma Placed.findFreeSlot (h : c.Placed) (grants : Bool) :
    Rearranged c (c.findFreeSlot grants).2 := by
  rw [Cache.findFreeSlot]
  split
  · exact h.rearranged
  · split_ifs
    · exact h.rearranged
    · exact h.materialise

def active (c : Cache) : ℕ := c.extension.elim 0 Extension.active

/-- The free slot an admission finds, and the extension it may have created. -/
lemma Wf.findFreeSlot (h : c.Wf) (grants : Bool) :
    Quiet c (c.findFreeSlot grants).2 ∧ (c.findFreeSlot grants).2.active = c.active ∧
      (c.findFreeSlot grants).2.live = c.live ∧
      (c.extension.isSome = true → (c.findFreeSlot grants).2.extension.isSome = true) ∧
      ∀ i, (c.findFreeSlot grants).1 = some i →
        i < (c.findFreeSlot grants).2.scanBound ∧ (c.findFreeSlot grants).2.slotGet i = none := by
  rw [Cache.findFreeSlot]
  split
  · rename_i i hi
    obtain ⟨hlt, hget⟩ := h.firstFree (by decide) hi
    refine ⟨h.quiet, rfl, rfl, id, fun k hk => ?_⟩
    obtain rfl := Option.some.inj hk
    refine ⟨lt_of_lt_of_le hlt ?_, hget⟩
    rw [scanBound_eq]
    exact Nat.le_add_right _ _
  · split_ifs
    · exact ⟨h.quiet, rfl, rfl, id, by simp⟩
    · have hq := h.placed.materialise.quiet h
      refine ⟨hq, ?_, ?_, fun _ => rfl, fun k hk => hq.wf.firstFree hq.wf.scanBound_le hk⟩
      · rw [Cache.active, Cache.active]
        cases c.extension <;> rfl
      · rw [Cache.live, Cache.live]
        cases c.extension <;> rfl

lemma Placed.adaptiveExt (h : c.Placed) (f : AdaptiveState → AdaptiveState) :
    Rearranged c (c.adaptiveExt f) := by
  rw [Cache.adaptiveExt]
  split_ifs
  · refine ⟨?_, ?_, rfl, rfl, rfl, fun e he => ?_, fun i x hx => ?_⟩
    · funext j
      by_cases hj : j < largeCacheSlots
      · rw [slotGet_base hj, slotGet_base hj]
      · rw [slotGet_extension hj, slotGet_extension hj]
        cases c.extension <;> rfl
    · funext w
      simp only [occWords]
      cases c.extension <;> rfl
    · obtain ⟨d, hd, rfl⟩ := Option.map_eq_some_iff.mp he
      exact h.active d hd
    · have hi := h.below i x hx
      rw [scanBound] at hi ⊢
      cases he : c.extension <;> rw [he] at hi <;> exact hi
  · exact h.rearranged

lemma Wf.adaptiveExt (h : c.Wf) (f : AdaptiveState → AdaptiveState) :
    Quiet c (c.adaptiveExt f) ∧ (c.adaptiveExt f).active = c.active := by
  refine ⟨(h.placed.adaptiveExt f).quiet h, ?_⟩
  rw [Cache.adaptiveExt]
  split_ifs
  · rw [Cache.active, Cache.active]
    cases c.extension <;> rfl
  · rfl

lemma live_adaptiveExt {f : AdaptiveState → AdaptiveState} (hf : ∀ a, (f a).live = a.live) :
    (c.adaptiveExt f).live = c.live := by
  rw [Cache.adaptiveExt]
  split_ifs
  · rw [Cache.live, Cache.live]
    cases c.extension with
    | none => rfl
    | some e => exact hf e.adapt
  · rfl

lemma extension_adaptiveExt (c : Cache) (f : AdaptiveState → AdaptiveState) :
    (c.adaptiveExt f).extension.isSome = c.extension.isSome := by
  rw [Cache.adaptiveExt]
  split_ifs
  · exact Option.isSome_map
  · rfl

lemma adaptiveRef_eq {e : Extension} (he : c.adaptiveRef = some e) :
    c.config.adaptive = true ∧ c.extension = some e := by
  rw [adaptiveRef] at he
  split_ifs at he with ha
  exact ⟨ha, he⟩

/-- Changing how many slots of the extension are open. -/
lemma setActive {e : Extension} (he : c.adaptiveRef = some e) (adapt : AdaptiveState)
    {n : ℕ} (hn : n ≤ largeCacheExtendedSlots)
    (hbelow : ∀ i x, c.slotGet i = some x → i < largeCacheSlots + n) :
    Rearranged c { c with extension := some { e with adapt := adapt, active := n } } := by
  obtain ⟨ha, he⟩ := adaptiveRef_eq he
  refine ⟨?_, ?_, rfl, rfl, rfl, fun d hd => ?_, fun i x hx => ?_⟩
  · funext j
    by_cases hj : j < largeCacheSlots
    · rw [slotGet_base hj, slotGet_base hj]
    · rw [slotGet_extension hj, slotGet_extension hj, he]
      rfl
  · funext w
    simp only [occWords, he]
  · obtain rfl := Option.some.inj hd
    exact hn
  · rw [scanBound]
    simp only [ha, if_true]
    exact hbelow i x hx

lemma Placed.below_active (h : c.Placed) {e : Extension} (he : c.adaptiveRef = some e)
    (hx : c.slotGet i = some x) : i < largeCacheSlots + e.active := by
  obtain ⟨ha, he⟩ := adaptiveRef_eq he
  have hi := h.below i x hx
  rw [scanBound, he] at hi
  simpa only [ha, if_true] using hi

/-- A growth opens at least one more slot. -/
lemma Placed.tryGrowSlots (h : c.Placed) {used usable : ℕ}
    (hc : c.tryGrowSlots used usable = some c') :
    Rearranged c c' ∧ c.active < c'.active ∧ c'.active ≤ largeCacheExtendedSlots ∧
      c'.live = c.live ∧ c'.extension.isSome = c.extension.isSome := by
  obtain ⟨e, he, hc⟩ := Option.bind_eq_some_iff.mp hc
  dsimp only at hc
  split_ifs at hc with hno
  obtain rfl := Option.some.inj hc
  have hlt : e.active < largeCacheExtendedSlots := not_le.mp fun hge => hno (.inr (.inr hge))
  refine ⟨setActive he e.adapt (Nat.min_le_right _ _) fun i x hx =>
    lt_of_lt_of_le (h.below_active he hx) ?_, ?_, Nat.min_le_right _ _, ?_, ?_⟩
  · have := Nat.le_add_right e.active slotStep
    omega
  · rw [Cache.active, Cache.active, (adaptiveRef_eq he).2]
    change e.active < min (e.active + slotStep) largeCacheExtendedSlots
    simp only [slotStep]
    omega
  · rw [Cache.live, Cache.live, (adaptiveRef_eq he).2]
    rfl
  · rw [(adaptiveRef_eq he).2]
    rfl

lemma Wf.tryGrowSlots (h : c.Wf) {used usable : ℕ} (hc : c.tryGrowSlots used usable = some c') :
    Quiet c c' ∧ c.active < c'.active ∧ c'.active ≤ largeCacheExtendedSlots ∧
      c'.live = c.live ∧ c'.extension.isSome = c.extension.isSome := by
  obtain ⟨hr, hrest⟩ := h.placed.tryGrowSlots hc
  exact ⟨hr.quiet h, hrest⟩

lemma le_nextMultipleOf (n : ℕ) {k : ℕ} (hk : 0 < k) : n ≤ nextMultipleOf n k := by
  have := Nat.div_add_mod' (n + (k - 1)) k
  have := Nat.mod_lt (n + (k - 1)) hk
  rw [nextMultipleOf]
  omega

/-- Closing slots spares the occupied ones. -/
lemma Placed.adaptiveInterval (h : c.Placed) : Rearranged c c.adaptiveInterval := by
  rw [Cache.adaptiveInterval]
  split
  · exact h.rearranged
  · rename_i e he
    have hle : e.active ≤ largeCacheExtendedSlots := h.active e (adaptiveRef_eq he).2
    apply setActive he _ _ fun i x hx => ?_
    · split_ifs
      · exact hle
      · exact (Nat.min_le_left _ _).trans hle
    · have hi := h.below_active he hx
      obtain ⟨k, hk, hik⟩ := h.le_highestOccupied hx
      rw [hk, Option.elim_some]
      split_ifs
      · exact hi
      · have := le_nextMultipleOf (k + 1 - largeCacheSlots) (k := slotStep) (by decide)
        omega

lemma Wf.adaptiveInterval (h : c.Wf) :
    Quiet c c.adaptiveInterval ∧ c.adaptiveInterval.live = c.live ∧
      c.adaptiveInterval.extension.isSome = c.extension.isSome := by
  refine ⟨h.placed.adaptiveInterval.quiet h, ?_⟩
  rw [Cache.adaptiveInterval]
  split
  · exact ⟨rfl, rfl⟩
  · rename_i e he
    rw [Cache.live, Cache.live, (adaptiveRef_eq he).2]
    exact ⟨rfl, rfl⟩

/-! ## Counting the occupied slots -/

def occupiedCount (c : Cache) : ℕ :=
  ((Finset.range totalSlots).filter fun i => (c.slotGet i).isSome = true).card

lemma occupiedCount_le (c : Cache) : c.occupiedCount ≤ totalSlots := by
  rw [occupiedCount]
  exact (Finset.card_filter_le _ _).trans (Finset.card_range _).le

lemma Wf.occupiedCount_withdraw (h : c.Wf) (hx : c.slotGet i = some x)
    (hget : c'.slotGet = Function.update c.slotGet i none) :
    c'.occupiedCount + 1 = c.occupiedCount := by
  have hmem : i ∈ (Finset.range totalSlots).filter fun j => (c.slotGet j).isSome = true := by
    rw [Finset.mem_filter, Finset.mem_range, hx]
    exact ⟨h.lt_total hx, rfl⟩
  have herase : ((Finset.range totalSlots).filter fun j => (c'.slotGet j).isSome = true) =
      ((Finset.range totalSlots).filter fun j => (c.slotGet j).isSome = true).erase i := by
    ext j
    rw [Finset.mem_filter, Finset.mem_erase, Finset.mem_filter, hget, Function.update_apply]
    split_ifs with hj <;> simp [hj]
  rw [occupiedCount, occupiedCount, herase, Finset.card_erase_add_one hmem]

end Cache
end LargeCache
end SeferAlloc
