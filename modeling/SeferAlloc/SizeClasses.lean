import SeferAlloc.SegmentLayout

/-!
# Size classes

The table merges a geometric run, grown by 5/4 and rounded up to granules, with
a list of extra sizes; the features `medium-classes` and `medium-classes-wide`
lengthen the extras.
-/
namespace SeferAlloc

/-- Which of the features `medium-classes` and `medium-classes-wide` are on. -/
inductive MediumClasses where
  | none
  | medium
  | wide

/-- The geometric classes. -/
def geoCount : ℕ := 40

def smallExtra : List ℕ := [256, 512, 1024, 2048, 4096, 6144, 8192, 12288, 16384]

/-- The `MEDIUM_EXTRA` sizes. -/
def mediumExtra : List ℕ :=
  [256 * 1024, 320 * 1024, 384 * 1024, 512 * 1024, 768 * 1024, 1024 * 1024]

/-- The `WIDE_MEDIUM_EXTRA` sizes. -/
def wideMediumExtra : List ℕ := [1280 * 1024, 1536 * 1024, 1792 * 1024]

/-- The extra classes of a build, wider ones with its features. -/
def extras : MediumClasses → List ℕ
  | .none => smallExtra
  | .medium => smallExtra ++ mediumExtra
  | .wide => smallExtra ++ mediumExtra ++ wideMediumExtra

/-- One step of the geometric run of `build_table`. -/
def nextGeometric (cur : ℕ) : ℕ :=
  let scaled := (cur * 5 + 3) / 4
  let rounded := (scaled + minBlock - 1) / minBlock * minBlock
  if rounded ≤ cur then cur + minBlock else rounded

def geometric : ℕ → ℕ → List ℕ
  | 0, _ => []
  | n + 1, cur => cur :: geometric n (nextGeometric cur)

/-- The merge of `build_table`: the extras that are not larger go before a geometric size. -/
def mergeExtras : List ℕ → List ℕ → List ℕ
  | [], extras => extras
  | cur :: geo, extras =>
      extras.takeWhile (· ≤ cur) ++ cur :: mergeExtras geo (extras.dropWhile (· ≤ cur))

/-- The table of class sizes, in increasing order. -/
def sizeClassTable (m : MediumClasses) : List ℕ :=
  mergeExtras (geometric geoCount minBlock) (extras m)

/-- A table as `SizeClasses::build` checks it: increasing multiples of the granule, few
enough for the six class bits of a state byte. -/
structure SizeClasses where
  table : List ℕ
  granular : ∀ s ∈ table, 0 < s ∧ s % minBlock = 0
  increasing : table.Pairwise (· < ·)
  count_le : table.length ≤ 63

def SizeClasses.build (m : MediumClasses) : SizeClasses where
  table := sizeClassTable m
  granular := by cases m <;> decide +kernel
  increasing := by cases m <;> decide +kernel
  count_le := by cases m <;> decide +kernel

namespace SizeClasses
variable (sc : SizeClasses)

/-- The number of classes. -/
def count : ℕ := sc.table.length

/-- The size of a class. -/
def blockSize (idx : ℕ) : ℕ := sc.table.getD idx minBlock

lemma blockSize_granular (idx : ℕ) : 0 < sc.blockSize idx ∧ sc.blockSize idx % minBlock = 0 := by
  rw [blockSize, List.getD_eq_getElem?_getD]
  cases h : sc.table[idx]? with
  | none => exact ⟨by decide, by decide⟩
  | some s => exact sc.granular s (List.mem_of_getElem? h)

lemma minBlock_le_blockSize (idx : ℕ) : minBlock ≤ sc.blockSize idx := by
  obtain ⟨h0, h1⟩ := sc.blockSize_granular idx
  exact Nat.le_of_dvd h0 (Nat.dvd_of_mod_eq_zero h1)

end SizeClasses

end SeferAlloc
