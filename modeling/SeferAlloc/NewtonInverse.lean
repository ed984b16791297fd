import Mathlib.Data.BitVec
import Mathlib.Tactic.Ring
import Mathlib.Tactic.LinearCombination

/-!
# Inverses by Newton's iteration

One step squares the error of an approximate inverse. Modulo a power of two the
error of an odd number is even, so its powers vanish and a few steps are enough.
Rotating the bits of a word is injective.
-/
namespace NewtonInverse

section Ring
variable {R : Type*} [CommRing R]

/-- One step towards the inverse of `a`. -/
def step (a x : R) : R := x * (2 - a * x)

/-- `n` steps. -/
def steps (a : R) : ℕ → R → R
  | 0, x => x
  | n + 1, x => steps a n (step a x)

lemma error_step (a x : R) : 1 - a * step a x = (1 - a * x) ^ 2 := by
  unfold step
  ring

lemma error_steps (a : R) (n : ℕ) (x : R) : 1 - a * steps a n x = (1 - a * x) ^ 2 ^ n := by
  induction n generalizing x with
  | zero => simp [steps]
  | succ n ih => rw [steps, ih, error_step, ← pow_mul, ← pow_succ']

/-- Enough steps for a nilpotent error reach the inverse. -/
theorem mul_steps {a x : R} {k n : ℕ} (h : (1 - a * x) ^ k = 0) (hk : k ≤ 2 ^ n) :
    a * steps a n x = 1 := by
  have herror : (1 - a * x) ^ 2 ^ n = 0 := pow_eq_zero_of_le hk h
  rw [← error_steps, sub_eq_zero] at herror
  exact herror.symm

end Ring

section Words
variable {w : ℕ}

/-- The powers of an even word vanish. -/
lemma pow_width {x : BitVec w} (h : x.toNat % 2 = 0) : x ^ w = 0 := by
  obtain ⟨m, hm⟩ := Nat.dvd_of_mod_eq_zero h
  have hx : x = ((2 * m : ℕ) : BitVec w) := by
    rw [← hm, BitVec.natCast_eq_ofNat, BitVec.ofNat_toNat, BitVec.setWidth_eq]
  rw [hx, ← Nat.cast_pow, Nat.mul_pow]
  apply BitVec.eq_of_toNat_eq
  rw [BitVec.natCast_eq_ofNat, BitVec.toNat_ofNat, Nat.mul_mod_right]
  exact BitVec.toNat_zero.symm

/-- The iteration from 1 inverts an odd word. -/
theorem mul_steps_one {a : BitVec w} {n : ℕ} (ha : a.toNat % 2 = 1) (hn : w ≤ 2 ^ n) :
    a * steps a n 1 = 1 := by
  refine mul_steps (k := w) (pow_width ?_) hn
  have hlt := a.isLt
  have hpos : w ≠ 0 := by
    rintro rfl
    rw [pow_zero] at hlt
    omega
  have heven : 2 ∣ 2 ^ w := dvd_pow_self 2 hpos
  have hone : (1 : BitVec w).toNat = 1 := by
    change (BitVec.ofNat w 1).toNat = 1
    rw [BitVec.toNat_ofNat, Nat.mod_eq_of_lt (Nat.one_lt_two_pow hpos)]
  rw [mul_one, BitVec.toNat_sub, hone, Nat.mod_mod_of_dvd _ heven]
  omega

/-- A word is determined by its rotation. -/
theorem rotateRight_injective {k : ℕ} (hk : k < w) :
    Function.Injective fun x : BitVec w => x.rotateRight k := by
  intro x y h
  have hbit : ∀ i, (x.rotateRight k).getLsbD i = (y.rotateRight k).getLsbD i := fun i =>
    congrArg (fun z : BitVec w => z.getLsbD i) h
  apply BitVec.eq_of_getLsbD_eq
  intro i hi
  by_cases hik : k ≤ i
  · have := hbit (i - k)
    rw [BitVec.getLsbD_rotateRight_of_lt hk, BitVec.getLsbD_rotateRight_of_lt hk] at this
    simpa [show i - k < w - k by omega, Nat.add_sub_of_le hik] using this
  · have := hbit (w - k + i)
    rw [BitVec.getLsbD_rotateRight_of_lt hk, BitVec.getLsbD_rotateRight_of_lt hk] at this
    simpa [show w - k + i < w by omega] using this

/-- The rotation of a multiple of `2 ^ k`. -/
lemma rotateRight_mul {k q : ℕ} (hk : k < w) {x : BitVec w} (hx : x.toNat = 2 ^ k * q) :
    (x.rotateRight k).toNat = q := by
  have hlow : x.toNat <<< (w - k) % 2 ^ w = 0 := by
    have hsplit : 2 ^ k * q * 2 ^ (w - k) = 2 ^ w * q := by
      rw [show 2 ^ w = 2 ^ k * 2 ^ (w - k) by rw [← pow_add, Nat.add_sub_of_le hk.le]]
      ring
    rw [hx, Nat.shiftLeft_eq, hsplit, Nat.mul_mod_right]
  rw [BitVec.toNat_rotateRight, Nat.mod_eq_of_lt hk, hlow, Nat.or_zero, hx, Nat.shiftRight_eq_div_pow,
    Nat.mul_div_cancel_left _ (Nat.two_pow_pos k)]

end Words

end NewtonInverse
