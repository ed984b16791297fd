import Mathlib.Tactic

/-!
# Segment geometry

Addresses and offsets are natural numbers. A segment is an aligned 4 MiB span;
small blocks are multiples of 16-byte granules.
-/
namespace SeferAlloc

/-- The binary logarithm of a segment's bytes. -/
def segmentShift : ℕ := 22

/-- `SEGMENT`: bytes of one segment, and its alignment. -/
def segment : ℕ := 4194304

/-- `MIN_BLOCK`: bytes of one granule. -/
def minBlock : ℕ := 16

/-- `segment_base_of_ptr`: the masking `a & !(SEGMENT - 1)`. -/
def segmentBaseOfPtr (a : ℕ) : ℕ := a - a % segment

lemma segment_eq_two_pow : segment = 2 ^ segmentShift := by decide

lemma shiftRight_segmentShift (a : ℕ) : a >>> segmentShift = a / segment := by
  rw [Nat.shiftRight_eq_div_pow, segment_eq_two_pow]

lemma segmentBaseOfPtr_of_aligned {a : ℕ} (h : a % segment = 0) : segmentBaseOfPtr a = a := by
  simp [segmentBaseOfPtr, h]

lemma segmentBaseOfPtr_aligned (a : ℕ) : segmentBaseOfPtr a % segment = 0 := by
  simp only [segmentBaseOfPtr, segment]
  omega

/-- Low bits may be packed under an aligned address. -/
lemma aligned_or {a b : ℕ} (ha : a % segment = 0) (hb : b < segment) : a ||| b = a + b := by
  obtain ⟨c, rfl⟩ := Nat.dvd_of_mod_eq_zero ha
  rw [segment_eq_two_pow] at hb ⊢
  exact (Nat.two_pow_add_eq_or_of_lt hb c).symm

end SeferAlloc
