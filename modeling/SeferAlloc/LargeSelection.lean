import SeferAlloc.LargeCacheSlots

/-!
# The choice of a cached span

The scan of the occupied slots ends at the first of the smallest entries among
those that are big enough and not wasteful.
-/
namespace SeferAlloc
namespace LargeCache

/-- Big enough for a span of `usable` bytes, and at most `LARGE_CACHE_SIZE_FACTOR` times it. -/
def CachedLarge.FitsSpan (x : CachedLarge) (usable : ℕ) : Prop :=
  usable ≤ x.usableSize ∧ x.usableSize ≤ largeCacheSizeFactor * usable

/-- Smaller than the other entry, or as small and not behind it. -/
def Precedes (idx : ℕ) (x : CachedLarge) (j : ℕ) (y : CachedLarge) : Prop :=
  x.usableSize < y.usableSize ∨ x.usableSize = y.usableSize ∧ idx ≤ j

lemma compatible_iff {x : CachedLarge} {usable : ℕ} (hx : x.usableSize < usizeMax) :
    usable ≤ x.usableSize ∧ x.usableSize ≤ satMul usable largeCacheSizeFactor ↔
      x.FitsSpan usable := by
  rw [CachedLarge.FitsSpan, satMul, le_min_iff, Nat.mul_comm usable]
  constructor
  · exact fun h => ⟨h.1, h.2.1⟩
  · exact fun h => ⟨h.1, h.2, hx.le⟩

namespace Cache

/-- Either nothing in the rest of the scan beats what was found before it, or the first of the
smallest fitting entries of the rest does. -/
lemma bestFitScan_least {slot : ℕ → Option CachedLarge}
    (hsize : ∀ j y, slot j = some y → y.usableSize < usizeMax) (is : List ℕ)
    (hsorted : is.Pairwise (· < ·)) (usable : ℕ) (hit : Option ℕ) (best : ℕ) :
    (bestFitScan slot usable is hit best = hit ∧
      ∀ j ∈ is, ∀ y, slot j = some y → y.FitsSpan usable → best ≤ y.usableSize) ∨
    ∃ k x, bestFitScan slot usable is hit best = some k ∧ slot k = some x ∧ x.FitsSpan usable ∧
      x.usableSize < best ∧
      ∀ j ∈ is, ∀ y, slot j = some y → y.FitsSpan usable → Precedes k x j y := by
  induction is generalizing hit best with
  | nil => exact .inl ⟨rfl, by simp⟩
  | cons i is ih =>
      obtain ⟨hhead, htail⟩ := List.pairwise_cons.mp hsorted
      rw [bestFitScan]
      cases hi : slot i with
      | none =>
          have hskip : ∀ y, slot i ≠ some y := by simp [hi]
          obtain ⟨heq, hall⟩ | ⟨k, x, heq, hx, hfit, hlt, hall⟩ := ih htail hit best
          · exact .inl ⟨heq, List.forall_mem_cons.mpr ⟨fun y hy => absurd hy (hskip y), hall⟩⟩
          · exact .inr ⟨k, x, heq, hx, hfit, hlt,
              List.forall_mem_cons.mpr ⟨fun y hy => absurd hy (hskip y), hall⟩⟩
      | some c =>
          have hown : ∀ {P : CachedLarge → Prop}, P c → ∀ y, slot i = some y → P y := by
            intro P hc y hy
            rw [hi, Option.some.injEq] at hy
            exact hy ▸ hc
          dsimp only
          by_cases htake : usable ≤ c.usableSize ∧
              c.usableSize ≤ satMul usable largeCacheSizeFactor ∧ c.usableSize < best
          · have hfit : c.FitsSpan usable :=
              (compatible_iff (hsize i c hi)).mp ⟨htake.1, htake.2.1⟩
            have hself : Precedes i c i c := .inr ⟨rfl, le_rfl⟩
            rw [if_pos htake]
            by_cases hexact : c.usableSize = usable
            · rw [if_pos hexact]
              refine .inr ⟨i, c, rfl, hi, hfit, htake.2.2, List.forall_mem_cons.mpr
                ⟨hown fun _ => hself, fun j hj y _ hy => ?_⟩⟩
              rcases (hexact ▸ hy.1 : c.usableSize ≤ y.usableSize).lt_or_eq with hlt | heq
              · exact .inl hlt
              · exact .inr ⟨heq, (hhead j hj).le⟩
            · rw [if_neg hexact]
              obtain ⟨heq, hall⟩ | ⟨k, x, heq, hx, hfit', hlt, hall⟩ :=
                ih htail (some i) c.usableSize
              · refine .inr ⟨i, c, heq, hi, hfit, htake.2.2, List.forall_mem_cons.mpr
                  ⟨hown fun _ => hself, fun j hj y hy hyfit => ?_⟩⟩
                rcases (hall j hj y hy hyfit).lt_or_eq with hlt | heq
                · exact .inl hlt
                · exact .inr ⟨heq, (hhead j hj).le⟩
              · exact .inr ⟨k, x, heq, hx, hfit', hlt.trans htake.2.2,
                  List.forall_mem_cons.mpr ⟨hown fun _ => .inl hlt, hall⟩⟩
          · rw [if_neg htake]
            have hnot : c.FitsSpan usable → best ≤ c.usableSize := by
              intro hfit
              have hcompat := (compatible_iff (hsize i c hi)).mpr hfit
              exact not_lt.mp fun hlt => htake ⟨hcompat.1, hcompat.2, hlt⟩
            obtain ⟨heq, hall⟩ | ⟨k, x, heq, hx, hfit, hlt, hall⟩ := ih htail hit best
            · exact .inl ⟨heq, List.forall_mem_cons.mpr ⟨hown hnot, hall⟩⟩
            · exact .inr ⟨k, x, heq, hx, hfit, hlt, List.forall_mem_cons.mpr
                ⟨hown fun hc => .inl (hlt.trans_le (hnot hc)), hall⟩⟩

/-- The smallest of the entries that fit, and the first of these. -/
structure Selects (c : Cache) (usable idx : ℕ) (x : CachedLarge) : Prop where
  slot : c.slotGet idx = some x
  fits : x.FitsSpan usable
  first : ∀ j y, c.slotGet j = some y → y.FitsSpan usable → Precedes idx x j y

lemma Selects.unique {c : Cache} {usable i j : ℕ} {x y : CachedLarge}
    (hx : c.Selects usable i x) (hy : c.Selects usable j y) : i = j ∧ x = y := by
  have hij : i = j := by
    have hle := hx.first j y hy.slot hy.fits
    have hge := hy.first i x hx.slot hx.fits
    unfold Precedes at hle hge
    omega
  subst hij
  exact ⟨rfl, Option.some.inj (hx.slot.symm.trans hy.slot)⟩

/-- The scan finds the selected entry, unless none fits. -/
lemma Wf.bestFit {c : Cache} (h : c.Wf)
    (hsize : ∀ j y, c.slotGet j = some y → y.usableSize < usizeMax) (usable : ℕ) :
    (c.bestFit usable = none ∧ ∀ j y, c.slotGet j = some y → ¬y.FitsSpan usable) ∨
      ∃ idx x, c.bestFit usable = some idx ∧ c.Selects usable idx x := by
  have hmem : ∀ {j y}, c.slotGet j = some y → j ∈ c.occupiedSlots := fun hy =>
    h.mem_occupiedSlots.mpr (by rw [hy]; rfl)
  obtain ⟨heq, hall⟩ | ⟨k, x, heq, hx, hfit, -, hall⟩ :=
    bestFitScan_least hsize c.occupiedSlots c.pairwise_occupiedSlots usable none usizeMax
  · refine .inl ⟨heq, fun j y hy hyfit => ?_⟩
    exact absurd (hall j (hmem hy) y hy hyfit) (not_le.mpr (hsize j y hy))
  · exact .inr ⟨k, x, heq, hx, hfit, fun j y hy => hall j (hmem hy) y hy⟩

end Cache
end LargeCache
end SeferAlloc
