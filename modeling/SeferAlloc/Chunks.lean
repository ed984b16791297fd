import Mathlib.Data.List.Basic
import Mathlib.Order.Nat
import Mathlib.Tactic.Common

/-!
# Lists in chunks

A list cut into chunks of `n`, the last of which may be shorter: which chunk an
element is in, and what the chunks become when the list changes at one place or
grows at its end.
-/
namespace Chunks

variable {α β : Type*} {n : ℕ}

/-- The chunks of `n` elements. -/
def chunks (n : ℕ) (xs : List α) : List (List α) :=
  (List.range ((xs.length + n - 1) / n)).map fun i => (xs.drop (n * i)).take n

lemma lt_ceil_iff (hn : 0 < n) (l i : ℕ) : i < (l + n - 1) / n ↔ n * i < l := by
  rw [Nat.lt_iff_add_one_le, Nat.le_div_iff_mul_le hn, Nat.add_mul, Nat.mul_comm i n]
  omega

lemma getElem?_chunks (hn : 0 < n) (xs : List α) (i : ℕ) :
    (chunks n xs)[i]? = if n * i < xs.length then some ((xs.drop (n * i)).take n) else none := by
  unfold chunks
  rw [List.getElem?_map]
  by_cases hi : n * i < xs.length
  · rw [if_pos hi, List.getElem?_range ((lt_ceil_iff hn _ _).mpr hi)]
    rfl
  · rw [if_neg hi, List.getElem?_eq_none]
    · rfl
    · rw [List.length_range]
      exact Nat.not_lt.mp fun h => hi ((lt_ceil_iff hn _ _).mp h)

@[simp] lemma length_chunks (n : ℕ) (xs : List α) :
    (chunks n xs).length = (xs.length + n - 1) / n := by
  simp [chunks]

@[simp] lemma chunks_nil (n : ℕ) : chunks n ([] : List α) = [] := by
  rw [← List.length_eq_zero_iff, length_chunks, List.length_nil, Nat.zero_add]
  cases n with
  | zero => rfl
  | succ n => exact Nat.div_eq_of_lt (Nat.lt_succ_self n)

/-- A list that is no longer than a chunk is one. -/
lemma chunks_of_length_le (xs : List α) (hne : xs ≠ []) (hl : xs.length ≤ n) :
    chunks n xs = [xs] := by
  have hpos := List.length_pos_iff.mpr hne
  have hn : 0 < n := hpos.trans_le hl
  apply List.ext_getElem?
  intro i
  rw [getElem?_chunks hn]
  cases i with
  | zero => simp [hpos, List.take_of_length_le hl]
  | succ i =>
    have hge : ¬ n * (i + 1) < xs.length := by
      have hmul : n * 1 ≤ n * (i + 1) := Nat.mul_le_mul_left n (by omega)
      omega
    simp [hge]

/-- The first chunk, and those of the rest. -/
lemma chunks_eq_cons (hn : 0 < n) (xs : List α) (hne : xs ≠ []) :
    chunks n xs = xs.take n :: chunks n (xs.drop n) := by
  apply List.ext_getElem?
  intro i
  rw [getElem?_chunks hn]
  cases i with
  | zero => simp [List.length_pos_iff.mpr hne]
  | succ i =>
    rw [List.getElem?_cons_succ, getElem?_chunks hn, List.length_drop, List.drop_drop, Nat.mul_succ,
      Nat.add_comm (n * i) n]
    refine if_congr ?_ rfl rfl
    omega

lemma chunks_map (f : α → β) (n : ℕ) (xs : List α) :
    chunks n (xs.map f) = (chunks n xs).map (List.map f) := by
  simp [chunks, List.map_drop, List.map_take, Function.comp_def]

lemma drop_chunks (hn : 0 < n) (xs : List α) (k : ℕ) :
    (chunks n xs).drop k = chunks n (xs.drop (n * k)) := by
  apply List.ext_getElem?
  intro i
  rw [List.getElem?_drop, getElem?_chunks hn, getElem?_chunks hn, List.length_drop, List.drop_drop,
    Nat.mul_add]
  refine if_congr ?_ rfl rfl
  omega

/-- The chunks before another one have `n` elements each. -/
lemma length_of_mem_take (hn : 0 < n) {xs c : List α} {k : ℕ} (hk : n * k ≤ xs.length)
    (hc : c ∈ (chunks n xs).take k) : c.length = n := by
  obtain ⟨i, hi⟩ := List.mem_iff_getElem?.mp hc
  rw [List.getElem?_take, getElem?_chunks hn] at hi
  split_ifs at hi with hik hlt
  obtain rfl := Option.some.inj hi
  have hmul : n * (i + 1) ≤ n * k := Nat.mul_le_mul_left n hik
  rw [Nat.mul_succ] at hmul
  rw [List.length_take, List.length_drop]
  omega

/-- Chunks of chunks. -/
lemma chunks_chunks (hn : 0 < n) {m : ℕ} (hm : 0 < m) (xs : List α) :
    chunks m (chunks n xs) = (chunks (n * m) xs).map (chunks n) := by
  apply List.ext_getElem?
  intro i
  rw [getElem?_chunks hm, List.getElem?_map, getElem?_chunks (Nat.mul_pos hn hm), length_chunks,
    Nat.mul_assoc]
  simp only [lt_ceil_iff hn]
  by_cases hi : n * (m * i) < xs.length
  · rw [if_pos hi, if_pos hi, Option.map_some]
    congr 1
    apply List.ext_getElem?
    intro k
    rw [List.getElem?_take, List.getElem?_drop, getElem?_chunks hn, getElem?_chunks hn,
      List.length_take, List.length_drop, Nat.mul_add]
    by_cases hk : k < m
    · have hmul : n * k + n ≤ n * m := by
        rw [← Nat.mul_succ]
        exact Nat.mul_le_mul_left n hk
      rw [if_pos hk, List.drop_take, List.take_take, List.drop_drop,
        Nat.min_eq_left (by omega : n ≤ n * m - n * k)]
      refine if_congr ?_ rfl rfl
      omega
    · have hmul : n * m ≤ n * k := Nat.mul_le_mul_left n (by omega)
      rw [if_neg hk, if_neg (by omega)]
  · rw [if_neg hi, if_neg hi, Option.map_none]

/-- A change of one element is one of its chunk. -/
lemma chunks_set (hn : 0 < n) (xs : List α) (i : ℕ) (a : α) :
    chunks n (xs.set i a) =
      (chunks n xs).set (i / n) (((xs.drop (n * (i / n))).take n).set (i % n) a) := by
  apply List.ext_getElem?
  intro k
  rw [List.getElem?_set, getElem?_chunks hn, getElem?_chunks hn, List.length_set, length_chunks,
    List.drop_set]
  have hdiv := Nat.div_add_mod i n
  have hmod := Nat.mod_lt i hn
  by_cases hk : i / n = k
  · subst k
    rw [if_pos rfl, if_neg (by omega : ¬ i < n * (i / n)), List.take_set,
      (by omega : i - n * (i / n) = i % n)]
    simp only [lt_ceil_iff hn]
  · rw [if_neg hk]
    refine if_congr Iff.rfl ?_ rfl
    congr 1
    by_cases hlt : i < n * k
    · rw [if_pos hlt]
    · -- The element is beyond this chunk.
      have hle : k ≤ i / n := (Nat.le_div_iff_mul_le hn).mpr (Nat.mul_comm k n ▸ Nat.not_lt.mp hlt)
      have hlt' : k < i / n := lt_of_le_of_ne hle (Ne.symm hk)
      have hmul : n * (k + 1) ≤ n * (i / n) := Nat.mul_le_mul_left n hlt'
      rw [Nat.mul_succ] at hmul
      rw [if_neg hlt, List.take_set, List.set_eq_of_length_le]
      exact (List.length_take_le _ _).trans (by omega)

/-- A new element joins the last chunk, or is one. -/
lemma chunks_concat (hn : 0 < n) (xs : List α) (a : α) :
    chunks n (xs ++ [a]) = (chunks n xs).take (xs.length / n) ++
      [xs.drop (n * (xs.length / n)) ++ [a]] := by
  have hdiv := Nat.div_add_mod xs.length n
  have hmod := Nat.mod_lt xs.length hn
  have hlen : ((chunks n xs).take (xs.length / n)).length = xs.length / n := by
    rw [List.length_take, length_chunks]
    exact Nat.min_eq_left (Nat.div_le_div_right (by omega))
  apply List.ext_getElem?
  intro k
  rw [getElem?_chunks hn, List.length_append, List.length_singleton]
  obtain hk | hk | hk := Nat.lt_trichotomy k (xs.length / n)
  · have hmul : n * (k + 1) ≤ n * (xs.length / n) := Nat.mul_le_mul_left n hk
    rw [Nat.mul_succ] at hmul
    rw [if_pos (by omega), List.getElem?_append_left (by omega), List.getElem?_take, if_pos hk,
      getElem?_chunks hn, if_pos (by omega), List.drop_append_of_le_length (by omega),
      List.take_append_of_le_length (by rw [List.length_drop]; omega)]
  · subst k
    rw [if_pos (by omega), List.getElem?_append_right hlen.le, hlen, Nat.sub_self,
      List.drop_append_of_le_length (by omega), List.take_of_length_le]
    · rfl
    · rw [List.length_append, List.length_drop, List.length_singleton]
      omega
  · have hmul : n * (xs.length / n + 1) ≤ n * k := Nat.mul_le_mul_left n hk
    rw [Nat.mul_succ] at hmul
    rw [if_neg (by omega), List.getElem?_eq_none]
    rw [List.length_append, hlen, List.length_singleton]
    exact hk

end Chunks
