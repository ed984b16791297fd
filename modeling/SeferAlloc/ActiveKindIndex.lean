import SeferAlloc.BitWord
import SeferAlloc.SegmentHash

/-!
# The active-kind index

Two bitsets over slot ids, one for small segments (the primordial one included)
and one for large segments, each with a summary word. A misuse that the source
answers with `fatal` is the outcome `none`.
-/
namespace SeferAlloc
open BitWord

/-- What a registered segment holds, as its header says. -/
inductive SegmentKind where
  | unknown
  | primordial
  | small
  | large
  deriving DecidableEq, Repr

/-- Which pair of arrays a kind selects in `ActiveKindIndex::offsets`. -/
inductive ActiveLane where
  | small
  | large
  deriving DecidableEq, Repr

structure ActiveKindIndex where
  leaf : ActiveLane → ℕ → Word
  summary : ActiveLane → Word

namespace ActiveKindIndex

def offsets : SegmentKind → Option ActiveLane
  | .small => some .small
  | .primordial => some .small
  | .large => some .large
  | .unknown => none

/-- The lane of `other_off` in `set`. -/
def otherLane : ActiveLane → ActiveLane
  | .small => .large
  | .large => .small

/-- Write one leaf word and one summary word of a lane. -/
def write (a : ActiveKindIndex) (lane : ActiveLane) (w : ℕ) (leaf summary : Word) :
    ActiveKindIndex :=
  { leaf := Function.update a.leaf lane (Function.update (a.leaf lane) w leaf)
    summary := Function.update a.summary lane summary }

def set (a : ActiveKindIndex) (slot : ℕ) (kind : SegmentKind) : Option ActiveKindIndex :=
  if maxSegments ≤ slot then none
  else match offsets kind with
    | none => none
    | some lane =>
        let w := slot / 64
        let mask := bit (slot % 64)
        let old := a.leaf lane w
        if old &&& mask ≠ 0 ∨ a.leaf (otherLane lane) w &&& mask ≠ 0 then none
        else some (a.write lane w (old ||| mask)
          (if old = 0 then a.summary lane ||| bit w else a.summary lane))

def clear (a : ActiveKindIndex) (slot : ℕ) (kind : SegmentKind) : Option ActiveKindIndex :=
  if slot = 0 ∨ maxSegments ≤ slot then none
  else match offsets kind with
    | none => none
    | some lane =>
        let w := slot / 64
        let mask := bit (slot % 64)
        let old := a.leaf lane w
        if old &&& mask = 0 then none
        else
          let new := old &&& ~~~mask
          some (a.write lane w new
            (if new = 0 then a.summary lane &&& ~~~bit w else a.summary lane))

/-- All words zero. -/
def zeroed : ActiveKindIndex := ⟨fun _ _ => 0, fun _ => 0⟩

/-- `init_in_place`: zero every word, then set bit 0 of the small lane. -/
def initInPlace : Option ActiveKindIndex := zeroed.set 0 .primordial

/-- Membership of a slot id in one lane. -/
def contains (a : ActiveKindIndex) (lane : ActiveLane) (slot : ℕ) : Bool :=
  member (a.leaf lane) slot

/-- Both summary words are exact. -/
def Exact (a : ActiveKindIndex) : Prop := ∀ lane, SummaryExact (a.leaf lane) (a.summary lane)

lemma eq_otherLane {lane l : ActiveLane} (h : l ≠ lane) : l = otherLane lane := by
  cases lane <;> cases l <;> first | rfl | exact absurd rfl h

lemma set_eq {a : ActiveKindIndex} {slot : ℕ} {kind : SegmentKind} {lane : ActiveLane}
    (hs : slot < maxSegments) (hk : offsets kind = some lane)
    (hfree : ∀ l, a.contains l slot = false) :
    a.set slot kind = some (a.write lane (slot / 64)
      (a.leaf lane (slot / 64) ||| bit (slot % 64))
      (if a.leaf lane (slot / 64) = 0 then a.summary lane ||| bit (slot / 64)
        else a.summary lane)) := by
  have hclear : ∀ l, a.leaf l (slot / 64) &&& bit (slot % 64) = 0 :=
    fun l => (and_bit_eq_zero (Nat.mod_lt _ (by decide))).mpr (hfree l)
  rw [set, if_neg (not_le.mpr hs), hk]
  simp only [hclear, ne_eq, not_true_eq_false, or_self, if_false]

lemma clear_eq {a : ActiveKindIndex} {slot : ℕ} {kind : SegmentKind} {lane : ActiveLane}
    (h0 : slot ≠ 0) (hs : slot < maxSegments) (hk : offsets kind = some lane)
    (hheld : a.contains lane slot = true) :
    a.clear slot kind = some (a.write lane (slot / 64)
      (a.leaf lane (slot / 64) &&& ~~~bit (slot % 64))
      (if a.leaf lane (slot / 64) &&& ~~~bit (slot % 64) = 0
        then a.summary lane &&& ~~~bit (slot / 64) else a.summary lane)) := by
  have hset : a.leaf lane (slot / 64) &&& bit (slot % 64) ≠ 0 := fun h => by
    have := (and_bit_eq_zero (Nat.mod_lt _ (by decide))).mp h
    simp [contains, member, this] at hheld
  rw [clear, if_neg (not_or.mpr ⟨h0, not_le.mpr hs⟩), hk]
  simp only [hset, if_false]

/-- A set on a slot that neither lane holds succeeds and adds exactly it. -/
theorem set_spec {a : ActiveKindIndex} (ha : a.Exact) {slot : ℕ} {kind : SegmentKind}
    {lane : ActiveLane} (hs : slot < maxSegments) (hk : offsets kind = some lane)
    (hfree : ∀ l, a.contains l slot = false) :
    ∃ a', a.set slot kind = some a' ∧ a'.Exact ∧
      ∀ l j, a'.contains l j = (decide (l = lane ∧ j = slot) || a.contains l j) := by
  have hw : slot / 64 < 64 := by simp only [maxSegments] at hs; omega
  refine ⟨_, set_eq hs hk hfree, ?_, ?_⟩
  · intro l
    by_cases hl : l = lane
    · subst l
      simpa only [write, Function.update_self] using (ha lane).set hw
    · simpa only [write, Function.update_of_ne hl] using ha l
  · intro l j
    by_cases hl : l = lane
    · subst l
      simp only [contains, write, Function.update_self, true_and]
      exact member_set _ _ _
    · simp only [contains, write, Function.update_of_ne hl, hl, false_and, decide_false,
        Bool.false_or]

/-- A clear of a held non-zero slot succeeds and drops exactly it. -/
theorem clear_spec {a : ActiveKindIndex} (ha : a.Exact) {slot : ℕ} {kind : SegmentKind}
    {lane : ActiveLane} (h0 : slot ≠ 0) (hs : slot < maxSegments)
    (hk : offsets kind = some lane) (hheld : a.contains lane slot = true) :
    ∃ a', a.clear slot kind = some a' ∧ a'.Exact ∧
      ∀ l j, a'.contains l j = (!decide (l = lane ∧ j = slot) && a.contains l j) := by
  have hw : slot / 64 < 64 := by simp only [maxSegments] at hs; omega
  refine ⟨_, clear_eq h0 hs hk hheld, ?_, ?_⟩
  · intro l
    by_cases hl : l = lane
    · subst l
      simpa only [write, Function.update_self] using
        (ha lane).clear slot hw (word_ne_zero_of_member hheld)
    · simpa only [write, Function.update_of_ne hl] using ha l
  · intro l j
    by_cases hl : l = lane
    · subst l
      simp only [contains, write, Function.update_self, true_and]
      exact member_clear _ _ _
    · simp only [contains, write, Function.update_of_ne hl, hl, false_and, decide_false,
        Bool.not_false, Bool.true_and]

/-- The primordial slot can never be cleared. -/
@[simp] theorem clear_zero (a : ActiveKindIndex) (kind : SegmentKind) : a.clear 0 kind = none := by
  simp [clear]

theorem initInPlace_spec : ∃ a, initInPlace = some a ∧ a.Exact ∧
    ∀ l j, a.contains l j = decide (l = .small ∧ j = 0) := by
  have hz : zeroed.Exact := fun lane w _ => by simp [zeroed]
  have hnone : ∀ l j, zeroed.contains l j = false := fun l j => by
    simp [contains, member, zeroed]
  obtain ⟨a, ha, hex, hc⟩ := set_spec hz (show 0 < maxSegments by decide)
    (show offsets .primordial = some .small from rfl)
    (fun l => hnone l 0)
  exact ⟨a, ha, hex, fun l j => by rw [hc, hnone, Bool.or_false]⟩

end ActiveKindIndex

end SeferAlloc
