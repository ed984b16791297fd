import SeferAlloc.SizeClasses

/-!
# From sizes to classes

A table with one entry for each 16-byte bucket answers the class of a size. A
larger alignment walks on to a class whose block size it divides.
-/
namespace SeferAlloc
namespace SizeClasses
variable (sc : SizeClasses)

/-- The size of the largest small class. -/
def smallMax : ℕ := sc.blockSize (sc.count - 1)

/-- The length of the size-to-class table. -/
def s2cLen : ℕ := sc.smallMax / minBlock + 1

/-- `SIZE2CLASS` at bucket `k`: the cursor of `build_size2class` stops at the first class with
room. -/
def size2class (k : ℕ) : ℕ :=
  let need := if (k + 1) * minBlock < sc.smallMax then (k + 1) * minBlock else sc.smallMax
  (sc.table.takeWhile (· < need)).length

/-- The class for a size with no alignment beyond the granule: one read of the table. -/
def classForSmallAlign (size : ℕ) : Option ℕ :=
  let seed := if size = 0 then 0 else (size - 1) / minBlock
  if sc.s2cLen - 1 ≤ seed then none else some (sc.size2class seed)

/-- The walk of `SC.class_for` from class `i`; each round reaches a later class. -/
def classWalk (align : ℕ) : ℕ → ℕ → Option ℕ
  | 0, _ => none
  | rounds + 1, i =>
      if i < sc.count then
        let block := sc.blockSize i
        if block &&& (align - 1) = 0 then some i
        else
          let next := (block ||| (align - 1)) / minBlock
          if sc.s2cLen - 1 ≤ next then none else classWalk align rounds (sc.size2class next)
      else none

/-- The smallest class that holds the size and whose blocks are all aligned to `align`. -/
def classFor (size align : ℕ) : Option ℕ :=
  if align ≤ minBlock then sc.classForSmallAlign size
  else
    let seed := (max size align - 1) / minBlock
    if sc.s2cLen - 1 ≤ seed then none
    else sc.classWalk align sc.count (sc.size2class seed)

example : (SizeClasses.build .none).classFor 100 8 = some 5 ∧
    (SizeClasses.build .none).classFor 100 64 = some 7 := by decide +kernel

/-- Under a small alignment the class is an entry of the table. -/
lemma classFor_of_seed {size align seed : ℕ} (ha : align ≤ minBlock)
    (hs : (max size minBlock - 1) / minBlock = seed) (h : seed < sc.s2cLen - 1) :
    sc.classFor (max size minBlock) align = some (sc.size2class seed) := by
  have h0 : max size minBlock ≠ 0 := by
    unfold minBlock
    omega
  unfold classFor classForSmallAlign
  rw [if_pos ha, if_neg h0, hs]
  dsimp only
  rw [if_neg (by omega)]

end SizeClasses

end SeferAlloc
