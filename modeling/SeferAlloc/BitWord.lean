import Mathlib.Tactic

/-!
# 64-bit words as sets of bits

Single-bit masks, the words they are or-ed into and cleared from, and arrays of
such words read as sets of indices.
-/
namespace BitWord

/-- A machine word. -/
abbrev Word := BitVec 64

/-- The mask `1 << b`. -/
def bit (b : ℕ) : Word := 1#64 <<< b

/-- Index of the least set bit. -/
def trailingZeros (w : Word) : ℕ := w.ctz.toNat

@[simp] lemma getLsbD_bit (b i : ℕ) : (bit b).getLsbD i = (decide (i = b) && decide (i < 64)) := by
  simp only [bit, BitVec.getLsbD_shiftLeft, BitVec.getLsbD_one]
  by_cases h : i = b
  · subst i; simp
  · by_cases hb : i < b
    · simp [h, hb]
    · have : i - b ≠ 0 := by omega
      simp [h, this]

lemma getLsbD_or_bit {w : Word} {b : ℕ} (hb : b < 64) (i : ℕ) :
    (w ||| bit b).getLsbD i = (decide (i = b) || w.getLsbD i) := by
  rw [BitVec.getLsbD_or, getLsbD_bit]
  by_cases h : i = b
  · subst i; simp [hb]
  · simp [h]

lemma getLsbD_clear_bit {w : Word} {b : ℕ} (i : ℕ) :
    (w &&& ~~~bit b).getLsbD i = (!decide (i = b) && w.getLsbD i) := by
  rw [BitVec.getLsbD_and, BitVec.getLsbD_not, getLsbD_bit]
  by_cases hi : i < 64
  · by_cases h : i = b <;> simp [h, hi]
  · simp [BitVec.getLsbD_of_ge w i (not_lt.mp hi)]

lemma eq_zero_iff {w : Word} : w = 0 ↔ ∀ i < 64, w.getLsbD i = false := by
  constructor
  · rintro rfl i _
    simp
  · intro h
    apply BitVec.eq_of_getLsbD_eq
    intro i hi
    simp [h i hi]

lemma ne_zero_of_getLsbD {w : Word} {i : ℕ} (h : w.getLsbD i = true) : w ≠ 0 := by
  rintro rfl
  simp at h

lemma and_bit_eq_zero {w : Word} {b : ℕ} (hb : b < 64) : w &&& bit b = 0 ↔ w.getLsbD b = false := by
  rw [eq_zero_iff]
  constructor
  · intro h
    have hbb := h b hb
    rwa [BitVec.getLsbD_and, getLsbD_bit, decide_eq_true rfl, decide_eq_true hb, Bool.and_self,
      Bool.and_true] at hbb
  · intro h i _
    rw [BitVec.getLsbD_and, getLsbD_bit]
    by_cases hib : i = b
    · subst i; simp [h]
    · simp [hib]

lemma getLsbD_trailingZeros {w : Word} (h : w ≠ 0) : w.getLsbD (trailingZeros w) = true :=
  BitVec.getLsbD_true_ctz_of_ne_zero h

lemma trailingZeros_lt {w : Word} (h : w ≠ 0) : trailingZeros w < 64 := by
  by_contra hge
  have := getLsbD_trailingZeros h
  rw [BitVec.getLsbD_of_ge w _ (not_lt.mp hge)] at this
  contradiction

lemma trailingZeros_le {w : Word} {b : ℕ} (h : w.getLsbD b = true) : trailingZeros w ≤ b := by
  by_contra hlt
  rw [BitVec.getLsbD_false_of_lt_ctz (not_le.mp hlt)] at h
  contradiction

/-- Subtracting one from `2 ^ k * odd` clears bit `k` and sets the bits below it. -/
lemma testBit_and_pred (m k i : ℕ) :
    (2 ^ k * (2 * m + 1) &&& (2 ^ k * (2 * m + 1) - 1)).testBit i =
      (decide (i ≠ k) && (2 ^ k * (2 * m + 1)).testBit i) := by
  have hpos : 0 < 2 ^ k := Nat.two_pow_pos k
  have h1 : 2 ^ k * (2 * m + 1) - 1 = 2 ^ k * (2 * m) + (2 ^ k - 1) := by
    rw [Nat.mul_add, Nat.mul_one, Nat.add_sub_assoc hpos]
  rw [Nat.testBit_and, h1, Nat.testBit_two_pow_mul_add _ (by omega), Nat.testBit_two_pow_mul]
  by_cases hlt : i < k
  · simp [hlt, Nat.not_le.mpr hlt]
  · obtain ⟨j, rfl⟩ := Nat.exists_eq_add_of_le (not_lt.mp hlt)
    cases j with
    | zero => simp
    | succ j =>
        have hne : k + (j + 1) ≠ k := by omega
        simp only [hlt, if_false, hne, ne_eq, not_false_eq_true, decide_true, Bool.true_and,
          Nat.add_sub_cancel_left]
        have : (2 * m + 1).testBit (j + 1) = (2 * m).testBit (j + 1) := by
          rw [Nat.testBit_succ, Nat.testBit_succ]
          congr 1
          omega
        simp [this]

lemma toNat_eq_of_trailingZeros {w : Word} (h : w ≠ 0) :
    ∃ m, w.toNat = 2 ^ trailingZeros w * (2 * m + 1) := by
  set k := trailingZeros w with hk
  have hlow : w.toNat % 2 ^ k = 0 := by
    apply Nat.eq_of_testBit_eq
    intro i
    rw [Nat.testBit_mod_two_pow, Nat.zero_testBit]
    by_cases hi : i < k
    · have := BitVec.getLsbD_false_of_lt_ctz (x := w) hi
      simp [hi, ← BitVec.testBit_toNat] at this ⊢
      exact this
    · simp [hi]
  have hbit : w.toNat.testBit k = true := by
    rw [BitVec.testBit_toNat]
    exact getLsbD_trailingZeros h
  obtain ⟨q, hq⟩ := Nat.dvd_of_mod_eq_zero hlow
  rw [hq, Nat.testBit_two_pow_mul] at hbit
  simp only [ge_iff_le, le_refl, decide_true, Nat.sub_self, Nat.testBit_zero, Bool.true_and,
    decide_eq_true_eq] at hbit
  exact ⟨q / 2, by rw [hq]; congr 1; omega⟩

/-- `w & (w - 1)` clears the least set bit. -/
lemma clear_lowest {w : Word} (h : w ≠ 0) : w &&& (w - 1) = w &&& ~~~bit (trailingZeros w) := by
  obtain ⟨m, hm⟩ := toNat_eq_of_trailingZeros h
  apply BitVec.eq_of_getLsbD_eq
  intro i hi
  rw [getLsbD_clear_bit, ← BitVec.testBit_toNat, ← BitVec.testBit_toNat, BitVec.toNat_and]
  have hpos : 1 ≤ w.toNat := by
    rw [hm]
    exact Nat.mul_pos (Nat.two_pow_pos _) (by omega)
  have hsub : (w - 1).toNat = w.toNat - 1 := by
    rw [BitVec.toNat_sub_of_le]
    · rfl
    · exact hpos
  rw [hsub, hm, testBit_and_pred]
  simp
/-! ## Iterating over a word -/

/-- The set bits of `w` from the least one up, `n` of them at most. -/
def bitsFrom : ℕ → Word → List ℕ
  | 0, _ => []
  | n + 1, w => if w = 0 then [] else trailingZeros w :: bitsFrom n (w &&& (w - 1))

/-- The set bits of a word in increasing order: take the least one and clear it. -/
def bits (w : Word) : List ℕ := bitsFrom 64 w

lemma getLsbD_clear_lowest {w : Word} (h : w ≠ 0) (i : ℕ) :
    (w &&& (w - 1)).getLsbD i = true ↔ i ≠ trailingZeros w ∧ w.getLsbD i = true := by
  rw [clear_lowest h, getLsbD_clear_bit]
  simp

lemma getLsbD_of_mem_bitsFrom {n i : ℕ} {w : Word} (h : i ∈ bitsFrom n w) :
    w.getLsbD i = true := by
  induction n generalizing w with
  | zero => simp [bitsFrom] at h
  | succ n ih =>
      rw [bitsFrom] at h
      split_ifs at h with hw
      · simp at h
      · obtain rfl | h := List.mem_cons.mp h
        · exact getLsbD_trailingZeros hw
        · exact ((getLsbD_clear_lowest hw i).mp (ih h)).2

lemma mem_bitsFrom {n : ℕ} {w : Word} (hn : ∀ i, w.getLsbD i = true → 64 ≤ i + n) {i : ℕ}
    (h : w.getLsbD i = true) : i ∈ bitsFrom n w := by
  induction n generalizing w with
  | zero =>
      have := hn i h
      rw [BitVec.getLsbD_of_ge w i (by omega)] at h
      contradiction
  | succ n ih =>
      have hw := ne_zero_of_getLsbD h
      rw [bitsFrom, if_neg hw, List.mem_cons]
      by_cases hi : i = trailingZeros w
      · exact .inl hi
      · refine .inr (ih (fun j hj => ?_) ((getLsbD_clear_lowest hw i).mpr ⟨hi, h⟩))
        obtain ⟨hne, hj⟩ := (getLsbD_clear_lowest hw j).mp hj
        have hle := trailingZeros_le hj
        have := hn _ (getLsbD_trailingZeros hw)
        omega

lemma pairwise_bitsFrom (n : ℕ) (w : Word) : (bitsFrom n w).Pairwise (· < ·) := by
  induction n generalizing w with
  | zero => exact .nil
  | succ n ih =>
      rw [bitsFrom]
      split_ifs with hw
      · exact .nil
      · refine .cons (fun i hi => ?_) (ih _)
        obtain ⟨hne, hi⟩ := (getLsbD_clear_lowest hw i).mp (getLsbD_of_mem_bitsFrom hi)
        exact lt_of_le_of_ne (trailingZeros_le hi) (Ne.symm hne)

lemma mem_bits {w : Word} {i : ℕ} : i ∈ bits w ↔ w.getLsbD i = true :=
  ⟨getLsbD_of_mem_bitsFrom, mem_bitsFrom fun _ _ => Nat.le_add_left _ _⟩

lemma lt_of_mem_bits {w : Word} {i : ℕ} (h : i ∈ bits w) : i < 64 := by
  by_contra hge
  have := mem_bits.mp h
  rw [BitVec.getLsbD_of_ge w i (not_lt.mp hge)] at this
  contradiction

lemma pairwise_bits (w : Word) : (bits w).Pairwise (· < ·) := pairwise_bitsFrom 64 w

/-- The mask `(1 << k) - 1`. -/
lemma getLsbD_bit_sub_one {k : ℕ} (hk : k < 64) (i : ℕ) :
    (bit k - 1).getLsbD i = decide (i < k) := by
  have hbit : (bit k).toNat = 2 ^ k := by
    rw [bit, BitVec.toNat_shiftLeft, BitVec.toNat_one (by decide), Nat.one_shiftLeft]
    exact Nat.mod_eq_of_lt (Nat.pow_lt_pow_right (by decide) hk)
  have hsub : (bit k - 1).toNat = 2 ^ k - 1 := by
    rw [BitVec.toNat_sub_of_le, hbit]
    · rfl
    · rw [BitVec.le_def, hbit]
      exact Nat.one_le_two_pow
  rw [← BitVec.testBit_toNat, hsub, Nat.testBit_two_pow_sub_one]

/-- `u64::MAX << b`: the bits from `b` on. -/
def maskFrom (b : ℕ) : Word := BitVec.allOnes 64 <<< b

lemma getLsbD_and_maskFrom (w : Word) (b i : ℕ) :
    (w &&& maskFrom b).getLsbD i = (decide (b ≤ i) && w.getLsbD i) := by
  by_cases hi : i < 64
  · have hib : i - b < 64 := by omega
    rw [BitVec.getLsbD_and, maskFrom, BitVec.getLsbD_shiftLeft, BitVec.getLsbD_allOnes]
    by_cases hb : b ≤ i
    · simp [hi, hb, hib, not_lt.mpr hb]
    · simp [hb, not_le.mp hb]
  · simp [BitVec.getLsbD_of_ge w i (not_lt.mp hi)]

/-- The lowest bit of a masked word is the least bit of the word from the mask on. -/
lemma trailingZeros_maskFrom {w : Word} {b : ℕ} (h : w &&& maskFrom b ≠ 0) :
    IsLeast {i | b ≤ i ∧ w.getLsbD i = true} (trailingZeros (w &&& maskFrom b)) := by
  constructor
  · have hbit := getLsbD_trailingZeros h
    rw [getLsbD_and_maskFrom, Bool.and_eq_true, decide_eq_true_eq] at hbit
    exact hbit
  · intro i hi
    apply trailingZeros_le
    rw [getLsbD_and_maskFrom, Bool.and_eq_true, decide_eq_true_eq]
    exact hi

lemma getLsbD_eq_false_of_maskFrom {w : Word} {b i : ℕ} (h : w &&& maskFrom b = 0) (hb : b ≤ i) :
    w.getLsbD i = false := by
  have hbit := getLsbD_and_maskFrom w b i
  rw [h] at hbit
  simpa [hb] using hbit.symm

/-! ## Arrays of words -/

/-- Index `i` is in the set stored in `words`. -/
def member (words : ℕ → Word) (i : ℕ) : Bool := (words (i / 64)).getLsbD (i % 64)

lemma member_set (words : ℕ → Word) (i j : ℕ) :
    member (Function.update words (i / 64) (words (i / 64) ||| bit (i % 64))) j =
      (decide (j = i) || member words j) := by
  simp only [member]
  by_cases hw : j / 64 = i / 64
  · have hij : j % 64 = i % 64 ↔ j = i := by omega
    rw [hw, Function.update_self, getLsbD_or_bit (Nat.mod_lt _ (by decide))]
    simp only [hij]
  · have hji : j ≠ i := by rintro rfl; exact hw rfl
    rw [Function.update_of_ne hw]
    simp [hji]

lemma member_clear (words : ℕ → Word) (i j : ℕ) :
    member (Function.update words (i / 64) (words (i / 64) &&& ~~~bit (i % 64))) j =
      (!decide (j = i) && member words j) := by
  simp only [member]
  by_cases hw : j / 64 = i / 64
  · have hij : j % 64 = i % 64 ↔ j = i := by omega
    rw [hw, Function.update_self, getLsbD_clear_bit]
    simp only [hij]
  · have hji : j ≠ i := by rintro rfl; exact hw rfl
    rw [Function.update_of_ne hw]
    simp [hji]

/-- Clearing bit `b` of word `w` removes the index `w * 64 + b`. -/
lemma member_clear_at (words : ℕ → Word) (w : ℕ) {b : ℕ} (hb : b < 64) (j : ℕ) :
    member (Function.update words w (words w &&& ~~~bit b)) j =
      (!decide (j = w * 64 + b) && member words j) := by
  have hw : (w * 64 + b) / 64 = w := by omega
  have hb' : (w * 64 + b) % 64 = b := by omega
  have h := member_clear words (w * 64 + b) j
  rwa [hw, hb'] at h

lemma member_at (words : ℕ → Word) (w : ℕ) {b : ℕ} (hb : b < 64) :
    member words (w * 64 + b) = (words w).getLsbD b := by
  rw [member, show (w * 64 + b) / 64 = w by omega, show (w * 64 + b) % 64 = b by omega]

lemma word_ne_zero_of_member {words : ℕ → Word} {i : ℕ} (h : member words i = true) :
    words (i / 64) ≠ 0 := ne_zero_of_getLsbD h

/-- The summary word marks exactly the non-zero words of the array. -/
def SummaryExact (words : ℕ → Word) (summary : Word) : Prop :=
  ∀ w < 64, summary.getLsbD w = true ↔ words w ≠ 0

lemma SummaryExact.set {words : ℕ → Word} {summary : Word} (h : SummaryExact words summary)
    {i : ℕ} (hi : i / 64 < 64) :
    SummaryExact (Function.update words (i / 64) (words (i / 64) ||| bit (i % 64)))
      (if words (i / 64) = 0 then summary ||| bit (i / 64) else summary) := by
  intro w hw
  have hset : words (i / 64) ||| bit (i % 64) ≠ 0 := by
    apply ne_zero_of_getLsbD (i := i % 64)
    rw [getLsbD_or_bit (Nat.mod_lt _ (by decide))]
    simp
  by_cases hwi : w = i / 64
  · subst w
    rw [Function.update_self]
    split_ifs with h0
    · rw [getLsbD_or_bit hi]
      exact iff_of_true (by simp) hset
    · exact iff_of_true ((h _ hi).mpr h0) hset
  · rw [Function.update_of_ne hwi, ← h w hw]
    split_ifs
    · rw [getLsbD_or_bit hi]
      simp [hwi]
    · rfl

lemma SummaryExact.clear {words : ℕ → Word} {summary : Word} (h : SummaryExact words summary)
    (i : ℕ) (hi : i / 64 < 64) (h0 : words (i / 64) ≠ 0) :
    SummaryExact (Function.update words (i / 64) (words (i / 64) &&& ~~~bit (i % 64)))
      (if words (i / 64) &&& ~~~bit (i % 64) = 0 then summary &&& ~~~bit (i / 64)
        else summary) := by
  intro w hw
  by_cases hwi : w = i / 64
  · subst w
    rw [Function.update_self]
    split_ifs with hz
    · rw [getLsbD_clear_bit]
      simp [hz]
    · exact iff_of_true ((h _ hi).mpr h0) hz
  · rw [Function.update_of_ne hwi, ← h w hw]
    split_ifs
    · rw [getLsbD_clear_bit]
      simp [hwi]
    · rfl

end BitWord
