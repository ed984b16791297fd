import SeferAlloc.CellCount
import SeferAlloc.EpochRegion

/-!
# The stages of a slot

At every moment a slot is at one stage: its index is in one of the lists, it
holds a value, it is in the hands of one call, or it is not used again. The
calls that hold the slots and the writer mutex are the only ones that change
what these guard.
-/
namespace SeferAlloc
namespace Epoch
open Interleaving

/-- What a call has done to the slot in its hands: an insert stored the value, and counted it; a
removal won it, took the value, and uncounted it. -/
inductive Mode where
  | storing
  | counted
  | won
  | taken
  | spare
deriving DecidableEq

/-- The stage of a slot. -/
inductive Stage (ι : Type*) where
  | free
  | scratch
  | queued
  | live
  | held (i : ι) (m : Mode)
  | retired
deriving DecidableEq

variable {ι V : Type*}

/-- Whether the slot is in `len`. -/
def Stage.counted : Stage ι → Bool
  | .live | .held _ .counted | .held _ .won | .held _ .taken => true
  | _ => false

/-- Whether the slot has a value. -/
def Stage.full : Stage ι → Bool
  | .live | .held _ .storing | .held _ .counted | .held _ .won => true
  | _ => false

/-- The slot at a stage: its value is there or not, and its generation is the last one only where
the slot is not used again. -/
def Stage.Fits (s : AtomicSlot V) (st : Stage ι) : Prop :=
  s.value.isSome = st.full ∧
    match st with
    | .held _ .won | .held _ .taken => s.generation ≤ maxGeneration
    | .retired => s.generation = maxGeneration
    | _ => s.generation < maxGeneration

/-- The removal that a drain is part of. -/
def After.handle : After V → Option EpochHandle
  | .insert _ _ => none
  | .remove h => some h

/-- The handle whose removal the call won. -/
def Frame.winner : Frame V → Option EpochHandle
  | .hint k | .lockQueue k | .clearHint k | .swapQueue k | .drainNext k _ => k.handle
  | .swapValue h _ | .uncount h _ | .lockRemove h | .giveBack h | .enqueue h | .setPending h =>
    some h
  | _ => none

/-- The slot of a handle, if it is used again. -/
def EpochHandle.spare (h : EpochHandle) : Option (ℕ × Mode) :=
  if h.reusable then some (h.index, .spare) else none

/-- The stage of the slot, after its removal uncounted it. -/
def EpochHandle.spareStage (h : EpochHandle) (j : ι) : Stage ι :=
  if h.reusable then .held j .spare else .retired

/-- The slot in the hands of a call. -/
def Frame.holding : Frame V → Option (ℕ × Mode)
  | .loadGeneration i _ | .count i _ _ => some (i, .storing)
  | .unlockInsert h _ => some (h.index, .counted)
  | .swapValue h _ => some (h.index, .won)
  | .uncount h _ => some (h.index, .taken)
  | .hint k | .lockQueue k | .clearHint k | .swapQueue k | .drainNext k _ =>
    k.handle.bind EpochHandle.spare
  | .lockRemove h | .giveBack h | .enqueue h => h.spare
  | _ => none

/-- Whether the call has the writer mutex. -/
def Frame.locks : Frame V → Bool
  | .hint _ | .lockQueue _ | .clearHint _ | .swapQueue _ | .drainNext _ _ | .pop _ _
  | .loadGeneration _ _ | .count _ _ _ | .unlockInsert _ _ | .giveBack _ => true
  | _ => false

/-- The slots and their stages. -/
structure Agrees (r : Region V) (loc : ι → Thread V) (stage : ℕ → Stage ι) : Prop where
  bound : ∀ i, stage i ≠ .retired → i < r.capacity
  free : ∀ i, i ∈ r.free ↔ stage i = .free
  scratch : ∀ i, i ∈ r.drainScratch ↔ stage i = .scratch
  queued : ∀ i, i ∈ r.remoteFree ↔ stage i = .queued
  freeNodup : r.free.Nodup
  scratchNodup : r.drainScratch.Nodup
  queueNodup : r.remoteFree.Nodup
  fits : ∀ i < r.capacity, (stage i).Fits (r.slots i)
  held : ∀ j i m, (loc j).frame.holding = some (i, m) ↔ stage i = .held j m
  len : r.len = ((Finset.range r.capacity).filter fun i => (stage i).counted = true).card
  small : r.capacity < 2 ^ 32
  known : ∀ p ∈ r.inserted, p.1.regionId = r.regionId ∧ p.1.index < r.capacity ∧
    (p.1.generation < (r.slots p.1.index).generation ∨
      p.1.generation = (r.slots p.1.index).generation ∧ stage p.1.index = .live ∧
        (r.slots p.1.index).value = some p.2)
  live : ∀ i, stage i = .live → ∃ v, (⟨r.regionId, i, (r.slots i).generation⟩, v) ∈ r.inserted
  distinct : r.handles.Nodup

variable {r r' : Region V} {loc : ι → Thread V} {stage : ℕ → Stage ι} {j : ι} {i : ℕ} {m : Mode}

/-- The number of counted slots after one slot changed its stage. -/
lemma card_counted [DecidableEq ι] (stage : ℕ → Stage ι) {n : ℕ} (hi : i < n) (st : Stage ι) :
    ((Finset.range n).filter fun k => (Function.update stage i st k).counted = true).card +
        (stage i).counted.toNat =
      ((Finset.range n).filter fun k => (stage k).counted = true).card + st.counted.toNat :=
  CellCount.count_update (p := Stage.counted) hi st

/-- There are fewer counted slots than 32 bits can number. -/
lemma Agrees.len_lt (h : Agrees r loc stage) : r.len < 2 ^ 32 := by
  rw [h.len]
  refine (Finset.card_filter_le _ _).trans_lt ?_
  rw [Finset.card_range]
  exact h.small

/-- A counted slot is in `len`. -/
lemma Agrees.len_pos (h : Agrees r loc stage) (hi : i < r.capacity)
    (hc : (stage i).counted = true) : 0 < r.len := by
  rw [h.len]
  exact Finset.card_pos.mpr ⟨i, by simp [hi, hc]⟩

/-! ## One slot moves -/

/-- The lists differ at most at `i`, which is in the second one iff `p`. -/
structure OnlyAt (l l' : List ℕ) (i : ℕ) (p : Prop) : Prop where
  others : ∀ k, k ≠ i → (k ∈ l' ↔ k ∈ l)
  here : i ∈ l' ↔ p
  nodup : l'.Nodup

lemma OnlyAt.same {l : List ℕ} {p q : Prop} (hn : l.Nodup) (hl : i ∈ l ↔ q) (hq : ¬ q)
    (hp : ¬ p) : OnlyAt l l i p :=
  ⟨fun _ _ => Iff.rfl, hl.trans (iff_of_false hq hp), hn⟩

lemma OnlyAt.push {l : List ℕ} {p : Prop} (hn : l.Nodup) (hi : i ∉ l) (hp : p) :
    OnlyAt l (i :: l) i p :=
  ⟨fun k hk => by simp [hk], iff_of_true (List.mem_cons_self ..) hp,
    List.nodup_cons.mpr ⟨hi, hn⟩⟩

lemma OnlyAt.append {l : List ℕ} {p : Prop} (hn : l.Nodup) (hi : i ∉ l) (hp : p) :
    OnlyAt l (l ++ [i]) i p := by
  refine ⟨fun k hk => by simp [hk], iff_of_true (by simp) hp, ?_⟩
  rw [← List.concat_eq_append]
  exact hn.concat hi

lemma OnlyAt.pop {l : List ℕ} {p : Prop} (hn : (i :: l).Nodup) (hp : ¬ p) :
    OnlyAt (i :: l) l i p := by
  obtain ⟨hi, hn⟩ := List.nodup_cons.mp hn
  exact ⟨fun k hk => by simp [hk], iff_of_false hi hp, hn⟩

/-- Thread `j` moves slot `i` to the stage `st`. -/
structure Moves (r r' : Region V) (loc : ι → Thread V) (stage : ℕ → Stage ι) (j : ι) (t' : Thread V)
    (i : ℕ) (st : Stage ι) : Prop where
  regionId : r'.regionId = r.regionId
  capacity : r'.capacity = r.capacity
  index : i < r.capacity
  free : OnlyAt r.free r'.free i (st = .free)
  scratch : OnlyAt r.drainScratch r'.drainScratch i (st = .scratch)
  queued : OnlyAt r.remoteFree r'.remoteFree i (st = .queued)
  slots : ∀ k, k ≠ i → r'.slots k = r.slots k
  fits : st.Fits (r'.slots i)
  holds : ∀ k m, t'.frame.holding = some (k, m) ↔
    (k = i ∧ st = .held j m) ∨ (k ≠ i ∧ (loc j).frame.holding = some (k, m))
  before : ∀ k m, stage i = .held k m → k = j
  after : ∀ k m, st = .held k m → k = j
  len : r'.len + (stage i).counted.toNat = r.len + st.counted.toNat

variable [DecidableEq ι] {t' : Thread V} {st : Stage ι}

lemma mem_update {l l' : List ℕ} {tag : Stage ι} (hl : ∀ k, k ∈ l ↔ stage k = tag)
    (h : OnlyAt l l' i (st = tag)) (k : ℕ) : k ∈ l' ↔ Function.update stage i st k = tag := by
  by_cases hk : k = i
  · subst k
    rw [Function.update_self, h.here]
  · rw [Function.update_of_ne hk, h.others k hk, hl]

/-- A move keeps the agreement, if the handles still agree. -/
lemma Agrees.move (h : Agrees r loc stage) (hm : Moves r r' loc stage j t' i st)
    (hknown : ∀ p ∈ r'.inserted, p.1.regionId = r.regionId ∧ p.1.index < r.capacity ∧
      (p.1.generation < (r'.slots p.1.index).generation ∨
        p.1.generation = (r'.slots p.1.index).generation ∧
          Function.update stage i st p.1.index = .live ∧
          (r'.slots p.1.index).value = some p.2))
    (hlive : ∀ k, Function.update stage i st k = .live →
      ∃ v, (⟨r.regionId, k, (r'.slots k).generation⟩, v) ∈ r'.inserted)
    (hdistinct : r'.handles.Nodup) :
    Agrees r' (Function.update loc j t') (Function.update stage i st) where
  bound k hk := by
    rw [hm.capacity]
    by_cases hki : k = i
    · exact hki ▸ hm.index
    · rw [Function.update_of_ne hki] at hk
      exact h.bound k hk
  free := mem_update h.free hm.free
  scratch := mem_update h.scratch hm.scratch
  queued := mem_update h.queued hm.queued
  freeNodup := hm.free.nodup
  scratchNodup := hm.scratch.nodup
  queueNodup := hm.queued.nodup
  fits k hk := by
    by_cases hki : k = i
    · subst k
      rw [Function.update_self]
      exact hm.fits
    · rw [Function.update_of_ne hki, hm.slots k hki]
      exact h.fits k (hm.capacity ▸ hk)
  held j' k m := by
    by_cases hj : j' = j
    · subst j'
      rw [Function.update_self, hm.holds]
      by_cases hki : k = i
      · subst k
        simp
      · rw [Function.update_of_ne hki, h.held]
        simp [hki]
    · rw [Function.update_of_ne hj, h.held]
      by_cases hki : k = i
      · subst k
        rw [Function.update_self]
        exact iff_of_false (fun hs => hj (hm.before j' m hs)) fun hs => hj (hm.after j' m hs)
      · rw [Function.update_of_ne hki]
  len := by
    have hcard := card_counted stage hm.index st
    have hlen := hm.len
    rw [h.len] at hlen
    rw [hm.capacity]
    omega
  small := hm.capacity ▸ h.small
  known p hp := by
    rw [hm.regionId, hm.capacity]
    exact hknown p hp
  live k hk := by
    rw [hm.regionId]
    exact hlive k hk
  distinct := hdistinct

/-- A move between stages that are not live. -/
lemma Agrees.move_dead (h : Agrees r loc stage) (hm : Moves r r' loc stage j t' i st)
    (hins : r'.inserted = r.inserted)
    (hgen : (r'.slots i).generation = (r.slots i).generation) (hwas : stage i ≠ .live)
    (hst : st ≠ .live) : Agrees r' (Function.update loc j t') (Function.update stage i st) := by
  have hlive : ∀ k, Function.update stage i st k = .live → k ≠ i := by
    rintro k hk rfl
    rw [Function.update_self] at hk
    exact hst hk
  have hgens : ∀ k, (r'.slots k).generation = (r.slots k).generation := by
    intro k
    by_cases hk : k = i
    · exact hk ▸ hgen
    · rw [hm.slots k hk]
  refine h.move hm (fun p hp => ?_) (fun k hk => ?_) ?_
  · rw [hins] at hp
    obtain ⟨hid, hidx, hor⟩ := h.known p hp
    refine ⟨hid, hidx, ?_⟩
    rw [hgens]
    refine hor.imp_right ?_
    rintro ⟨hg, hl, hv⟩
    have hne : p.1.index ≠ i := fun he => hwas (he ▸ hl)
    rw [Function.update_of_ne hne, hm.slots _ hne]
    exact ⟨hg, hl, hv⟩
  · have hne := hlive k hk
    rw [Function.update_of_ne hne] at hk
    rw [hgens, hins]
    exact h.live k hk
  · rw [Region.handles, hins]
    exact h.distinct

/-- Where no slot moves, the agreement stays. -/
lemma Agrees.stay (h : Agrees r loc stage) (hid : r'.regionId = r.regionId)
    (hcap : r'.capacity = r.capacity) (hfree : r'.free = r.free)
    (hscratch : r'.drainScratch = r.drainScratch) (hqueue : r'.remoteFree = r.remoteFree)
    (hslots : r'.slots = r.slots) (hlen : r'.len = r.len) (hins : r'.inserted = r.inserted)
    (hhold : t'.frame.holding = (loc j).frame.holding) :
    Agrees r' (Function.update loc j t') stage where
  bound := hcap ▸ h.bound
  free := hfree ▸ h.free
  scratch := hscratch ▸ h.scratch
  queued := hqueue ▸ h.queued
  freeNodup := hfree ▸ h.freeNodup
  scratchNodup := hscratch ▸ h.scratchNodup
  queueNodup := hqueue ▸ h.queueNodup
  fits := by
    rw [hcap, hslots]
    exact h.fits
  held j' k m := by
    rw [← h.held]
    by_cases hj : j' = j
    · subst j'
      rw [Function.update_self, hhold]
    · rw [Function.update_of_ne hj]
  len := by
    rw [hlen, hcap]
    exact h.len
  small := hcap ▸ h.small
  known := by
    rw [hins, hid, hcap, hslots]
    exact h.known
  live := by
    rw [hid, hslots, hins]
    exact h.live
  distinct := by
    rw [Region.handles, hins]
    exact h.distinct

end Epoch

end SeferAlloc
