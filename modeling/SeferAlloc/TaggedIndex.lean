import Mathlib.Data.Nat.Bitwise
import Mathlib.Tactic.Common

/-!
# Tagged index words

The head of an index stack is one 64-bit word: an index of 1 to 16 bits below a
tag that fills the rest.
-/

namespace SeferAlloc

/-- An accepted `INDEX_BITS`. -/
structure TaggedIndex where
  indexBits : ℕ
  checkBits : 1 ≤ indexBits ∧ indexBits ≤ 16
  deriving DecidableEq

namespace TaggedIndex
variable (t : TaggedIndex)

/-- A head word. -/
abbrev Word := BitVec 64

/-- The link of the last index, `u32::MAX`. -/
def TAIL : ℕ := 2 ^ 32 - 1

def indexMask : ℕ := 2 ^ t.indexBits - 1

def tagBits : ℕ := 64 - t.indexBits

def tagMax : ℕ := 2 ^ t.tagBits - 1

/-- The index that stands for an empty stack. -/
def emptyIndex : ℕ := t.indexMask

def packTruncating (index tag : ℕ) : Word :=
  BitVec.ofNat 64 tag <<< t.indexBits ||| BitVec.ofNat 64 index

def pack (index tag : ℕ) : Option Word :=
  if index ≥ 2 ^ t.indexBits ∨ tag ≥ 2 ^ t.tagBits then none
  else some (t.packTruncating index tag)

/-- The index and the tag of a word. -/
def unpack (word : Word) : ℕ × ℕ :=
  ((word &&& BitVec.ofNat 64 t.indexMask).toNat, (word >>> t.indexBits).toNat)

def bootstrapEmpty : Word := t.packTruncating t.emptyIndex 0

def isEmpty (word : Word) : Bool :=
  word &&& BitVec.ofNat 64 t.indexMask == BitVec.ofNat 64 t.indexMask

/-- How many pushes a stack with this head still takes. -/
def pushesRemaining (word : Word) : ℕ := t.tagMax - (t.unpack word).2

/-! ## Sizes -/

lemma two_pow_indexBits_le : 2 ^ t.indexBits ≤ 2 ^ 16 :=
  Nat.pow_le_pow_right (by omega) t.checkBits.2

lemma two_pow_mul : 2 ^ t.tagBits * 2 ^ t.indexBits = 2 ^ 64 := by
  have := t.checkBits
  rw [← Nat.pow_add, tagBits]
  congr 1
  omega

lemma indexMask_lt_TAIL : t.indexMask < TAIL := by
  have := t.two_pow_indexBits_le
  unfold indexMask TAIL
  omega

lemma lt_two_pow_indexBits {i : ℕ} : i < 2 ^ t.indexBits ↔ i ≤ t.indexMask := by
  have := Nat.two_pow_pos t.indexBits
  unfold indexMask
  omega

lemma lt_two_pow_tagBits {n : ℕ} : n < 2 ^ t.tagBits ↔ n ≤ t.tagMax := by
  have := Nat.two_pow_pos t.tagBits
  unfold tagMax
  omega

/-! ## Halves of a word -/

/-- The index never reaches into the tag, and no bit of the tag is lost. -/
lemma toNat_packTruncating {i n : ℕ} (hi : i ≤ t.indexMask) (hn : n ≤ t.tagMax) :
    (t.packTruncating i n).toNat = n * 2 ^ t.indexBits + i := by
  rw [← lt_two_pow_indexBits] at hi
  rw [← lt_two_pow_tagBits] at hn
  have hmul := t.two_pow_mul
  have hle := t.two_pow_indexBits_le
  have hn64 : n * 2 ^ t.indexBits < 2 ^ 64 := by
    rw [← hmul]
    exact Nat.mul_lt_mul_of_pos_right hn (Nat.two_pow_pos _)
  have hn' : n < 2 ^ 64 := (Nat.le_mul_of_pos_right n (Nat.two_pow_pos _)).trans_lt hn64
  have hi' : i < 2 ^ 64 := by omega
  rw [packTruncating, BitVec.toNat_or, BitVec.toNat_shiftLeft, BitVec.toNat_ofNat,
    BitVec.toNat_ofNat, Nat.mod_eq_of_lt hn', Nat.mod_eq_of_lt hi', Nat.shiftLeft_eq,
    Nat.mod_eq_of_lt hn64, ← Nat.shiftLeft_eq, ← Nat.shiftLeft_add_eq_or_of_lt hi]

lemma unpack_fst (w : Word) : (t.unpack w).1 = w.toNat % 2 ^ t.indexBits := by
  have hle := t.two_pow_indexBits_le
  have hm : t.indexMask < 2 ^ 64 := by unfold indexMask; omega
  rw [unpack, BitVec.toNat_and, BitVec.toNat_ofNat, Nat.mod_eq_of_lt hm, indexMask,
    Nat.and_two_pow_sub_one_eq_mod]

lemma unpack_snd (w : Word) : (t.unpack w).2 = w.toNat / 2 ^ t.indexBits := by
  rw [unpack, BitVec.toNat_ushiftRight, Nat.shiftRight_eq_div_pow]

/-- A packed word has the halves it was packed from. -/
lemma unpack_packTruncating {i n : ℕ} (hi : i ≤ t.indexMask) (hn : n ≤ t.tagMax) :
    t.unpack (t.packTruncating i n) = (i, n) := by
  have hlt := t.lt_two_pow_indexBits.mpr hi
  refine Prod.ext ?_ ?_
  · rw [unpack_fst, t.toNat_packTruncating hi hn, Nat.mul_add_mod_of_lt hlt]
  · rw [unpack_snd, t.toNat_packTruncating hi hn, Nat.mul_comm,
      Nat.mul_add_div (Nat.two_pow_pos _), Nat.div_eq_of_lt hlt, Nat.add_zero]

lemma isEmpty_iff (w : Word) : t.isEmpty w = true ↔ (t.unpack w).1 = t.emptyIndex := by
  have hle := t.two_pow_indexBits_le
  have hm : t.indexMask < 2 ^ 64 := by unfold indexMask; omega
  rw [isEmpty, beq_iff_eq, unpack, emptyIndex, ← BitVec.toNat_inj, BitVec.toNat_ofNat,
    Nat.mod_eq_of_lt hm]

end TaggedIndex

end SeferAlloc
