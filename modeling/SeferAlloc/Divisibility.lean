import SeferAlloc.BitWord
import SeferAlloc.NewtonInverse
import SeferAlloc.SizeClasses

/-!
# Divisibility by a multiplication

Whether a size class divides an offset is tested with the inverse of its odd
part: the wrapped product, rotated by the number of trailing zeros, is the
quotient when there is one, and is above every quotient otherwise.
-/
namespace SeferAlloc
namespace Divisibility
open BitWord NewtonInverse

/-- The loop of `reciprocal`, `x = x * (2 - odd * x)` with the wrapping operations. -/
def newtonLoop (odd : Word) : ℕ → Word → Word
  | 0, x => x
  | i + 1, x => newtonLoop odd i (x * (2 - odd * x))

/-- The odd part, `d >> d.trailing_zeros()`. -/
def oddPart (d : Word) : Word := d >>> trailingZeros d

/-- The inverse of the odd part of `d` modulo `2 ^ 64`, by Newton's steps. -/
def reciprocal (d : Word) : Word := newtonLoop (oddPart d) 6 1

/-- An entry of `DIVISIBILITY`. -/
structure Params where
  inv : Word
  limit : Word
  shift : ℕ

/-- The entry that `divisibility_table` makes for `d`. -/
def params (d : Word) : Params := ⟨reciprocal d, BitVec.allOnes 64 / d, trailingZeros d⟩

/-- The divisibility test by a multiplication, a rotation and a comparison. -/
def dividesWith (p : Params) (off : Word) : Bool :=
  decide ((off * p.inv).rotateRight p.shift ≤ p.limit)

/-- `divisor`: the entry of a class. -/
def divisor (sc : SizeClasses) (idx : ℕ) : Params := params (BitVec.ofNat 64 (sc.blockSize idx))

/-- The test with the constants of class `idx`. -/
def divides (sc : SizeClasses) (idx : ℕ) (off : Word) : Bool := dividesWith (divisor sc idx) off

lemma newtonLoop_eq (odd : Word) (i : ℕ) (x : Word) : newtonLoop odd i x = steps odd i x := by
  induction i generalizing x with
  | zero => rfl
  | succ i ih => exact ih _

lemma mul_newtonLoop {odd : Word} (h : odd.toNat % 2 = 1) : odd * newtonLoop odd 6 1 = 1 := by
  rw [newtonLoop_eq]
  exact mul_steps_one h (by decide)

variable {d : Word}

/-- A divisor is its odd part times a power of two. -/
lemma toNat_eq (h : d ≠ 0) :
    d.toNat = 2 ^ trailingZeros d * (oddPart d).toNat ∧ (oddPart d).toNat % 2 = 1 := by
  obtain ⟨m, hm⟩ := toNat_eq_of_trailingZeros h
  have hodd : (oddPart d).toNat = 2 * m + 1 := by
    rw [oddPart, BitVec.toNat_ushiftRight, Nat.shiftRight_eq_div_pow, hm,
      Nat.mul_div_cancel_left _ (Nat.two_pow_pos _)]
  exact ⟨by rw [hodd, hm], by omega⟩

lemma mul_reciprocal (h : d ≠ 0) : oddPart d * reciprocal d = 1 := mul_newtonLoop (toNat_eq h).2

/-- The test computes the quotient of a multiple of `d`. -/
lemma rotate_multiple (h : d ≠ 0) {q : ℕ} (hq : d.toNat * q < 2 ^ 64) :
    ((BitVec.ofNat 64 (d.toNat * q) * reciprocal d).rotateRight (trailingZeros d)).toNat = q := by
  obtain ⟨hd, hodd⟩ := toNat_eq h
  refine rotateRight_mul (trailingZeros_lt h) ?_
  have hproduct : BitVec.ofNat 64 (d.toNat * q) * reciprocal d =
      BitVec.ofNat 64 (2 ^ trailingZeros d * q) := by
    have hsplit : BitVec.ofNat 64 (d.toNat * q) =
        BitVec.ofNat 64 (2 ^ trailingZeros d * q) * oddPart d := by
      apply BitVec.eq_of_toNat_eq
      rw [BitVec.toNat_mul, BitVec.toNat_ofNat, BitVec.toNat_ofNat, Nat.mod_mul_mod, hd]
      congr 1
      ring
    rw [hsplit, mul_assoc, mul_reciprocal h, mul_one]
  have hle : 2 ^ trailingZeros d * q ≤ d.toNat * q := by
    apply Nat.mul_le_mul_right
    rw [hd]
    exact Nat.le_mul_of_pos_right _ (by omega)
  rw [hproduct, BitVec.toNat_ofNat, Nat.mod_eq_of_lt (by omega)]

lemma toNat_limit (d : Word) : (params d).limit.toNat = (2 ^ 64 - 1) / d.toNat := by
  change (BitVec.allOnes 64 / d).toNat = _
  rw [BitVec.toNat_udiv, BitVec.toNat_allOnes]

lemma dividesWith_iff (h : d ≠ 0) (off : Word) :
    dividesWith (params d) off = true ↔ d.toNat ∣ off.toNat := by
  have hpos : 0 < d.toNat := Nat.pos_of_ne_zero fun h0 => h (BitVec.eq_of_toNat_eq h0)
  have hquotient : ∀ q, q ≤ (params d).limit.toNat ↔ d.toNat * q < 2 ^ 64 := by
    intro q
    rw [toNat_limit, Nat.le_div_iff_mul_le hpos, Nat.mul_comm]
    omega
  rw [dividesWith, decide_eq_true_eq, BitVec.le_def]
  constructor
  · intro hle
    -- The offset has the rotated product of the multiple that the product names.
    set z := (off * (params d).inv).rotateRight (params d).shift with hz
    have hlt := (hquotient z.toNat).mp hle
    have hrotate := rotate_multiple h hlt
    have hword : BitVec.ofNat 64 (d.toNat * z.toNat) * reciprocal d = off * reciprocal d :=
      rotateRight_injective (trailingZeros_lt h) (BitVec.eq_of_toNat_eq hrotate)
    have hoff : BitVec.ofNat 64 (d.toNat * z.toNat) = off := by
      have := congrArg (fun x => x * oddPart d) hword
      simpa only [mul_assoc, mul_comm (reciprocal d), mul_reciprocal h, mul_one] using this
    rw [← hoff, BitVec.toNat_ofNat, Nat.mod_eq_of_lt hlt]
    exact Nat.dvd_mul_right ..
  · rintro ⟨q, hq⟩
    have hlt : d.toNat * q < 2 ^ 64 := hq ▸ off.isLt
    have hoff : off = BitVec.ofNat 64 (d.toNat * q) := by
      rw [← hq, BitVec.ofNat_toNat, BitVec.setWidth_eq]
    have hrotate := rotate_multiple h hlt
    rw [← hoff] at hrotate
    rw [show ((off * (params d).inv).rotateRight (params d).shift).toNat = q from hrotate]
    exact (hquotient q).mpr hlt

/-- The test of a class is about its block size. -/
lemma divides_iff {sc : SizeClasses} {idx : ℕ} (h : sc.blockSize idx < 2 ^ 64) (off : Word) :
    divides sc idx off = true ↔ sc.blockSize idx ∣ off.toNat := by
  have hsize : (BitVec.ofNat 64 (sc.blockSize idx)).toNat = sc.blockSize idx := by
    rw [BitVec.toNat_ofNat, Nat.mod_eq_of_lt h]
  have hne : BitVec.ofNat 64 (sc.blockSize idx) ≠ 0 := by
    intro h0
    have hzero := congrArg BitVec.toNat h0
    rw [hsize] at hzero
    exact absurd hzero (Nat.ne_of_gt (sc.blockSize_granular idx).1)
  rw [divides, divisor, dividesWith_iff hne, hsize]

/-- The loop inverts every odd number, the test is exact for every divisor, and so is the one of a
class for its block size. -/
theorem reciprocal_exact :
    (∀ odd : Word, odd.toNat % 2 = 1 → odd * newtonLoop odd 6 1 = 1) ∧
    (∀ d : Word, d ≠ 0 → oddPart d * reciprocal d = 1 ∧
      ∀ off, dividesWith (params d) off = true ↔ d.toNat ∣ off.toNat) ∧
    ∀ (sc : SizeClasses) (idx : ℕ), sc.blockSize idx < 2 ^ 64 → ∀ off : Word,
      divides sc idx off = true ↔ sc.blockSize idx ∣ off.toNat :=
  ⟨fun _ => mul_newtonLoop, fun _ h => ⟨mul_reciprocal h, dividesWith_iff h⟩,
    fun _ _ h => divides_iff h⟩

example : dividesWith (params 48) 144 = true ∧ dividesWith (params 48) 160 = false := by
  decide +kernel

end Divisibility

end SeferAlloc
