import Mathlib.Data.Finset.Card
import Mathlib.Tactic

/-!
# Counting cells

The number of cells of an array with a property, after one cell has changed.
-/
namespace CellCount
variable {α : Type*} {p : α → Bool} {t : ℕ → α} {i n : ℕ}

/-- The number of the first `n` cells with the property `p`. -/
def count (p : α → Bool) (t : ℕ → α) (n : ℕ) : ℕ :=
  ((Finset.range n).filter fun k => p (t k) = true).card

/-- One cell takes part in the count by its own value. -/
lemma count_eq_erase (hi : i < n) :
    count p t n =
      (((Finset.range n).erase i).filter fun k => p (t k) = true).card + (p (t i)).toNat := by
  have hins : Finset.range n = insert i ((Finset.range n).erase i) :=
    (Finset.insert_erase (Finset.mem_range.mpr hi)).symm
  unfold count
  rw [hins, Finset.filter_insert, Finset.erase_insert (Finset.notMem_erase _ _)]
  cases hp : p (t i) with
  | false => simp
  | true =>
    rw [if_pos rfl, Finset.card_insert_of_notMem (by simp)]
    simp

/-- The count after one cell has changed. -/
theorem count_update (hi : i < n) (v : α) :
    count p (Function.update t i v) n + (p (t i)).toNat = count p t n + (p v).toNat := by
  have hrest : ((Finset.range n).erase i).filter
      (fun k => p (Function.update t i v k) = true) =
        ((Finset.range n).erase i).filter fun k => p (t k) = true := by
    refine Finset.filter_congr fun k hk => ?_
    rw [Function.update_of_ne (Finset.ne_of_mem_erase hk)]
  rw [count_eq_erase hi, count_eq_erase (t := t) hi, hrest, Function.update_self]
  omega

lemma count_succ : count p t (n + 1) = count p t n + (p (t n)).toNat := by
  unfold count
  rw [Finset.range_add_one, Finset.filter_insert]
  cases hp : p (t n) with
  | false => simp
  | true =>
    rw [if_pos rfl, Finset.card_insert_of_notMem (by simp)]
    simp

lemma count_le : count p t n ≤ n :=
  (Finset.card_filter_le _ _).trans_eq (Finset.card_range n)

lemma count_congr {q : α → Bool} (h : ∀ k < n, p (t k) = q (t k)) : count p t n = count q t n := by
  unfold count
  rw [Finset.filter_congr fun k hk => by rw [h k (Finset.mem_range.mp hk)]]

/-- What implies another property of the cells is counted less often. -/
lemma count_mono {q : α → Bool} (h : ∀ a, p a = true → q a = true) : count p t n ≤ count q t n :=
  Finset.card_le_card fun k hk => by
    rw [Finset.mem_filter] at hk ⊢
    exact ⟨hk.1, h _ hk.2⟩

/-- A count below the number of cells leaves a cell without the property. -/
lemma exists_of_count_lt (h : count p t n < n) : ∃ i < n, p (t i) = false := by
  by_contra hall
  have hfull : (Finset.range n).filter (fun k => p (t k) = true) = Finset.range n :=
    Finset.filter_true_of_mem fun k hk => by
      by_contra hp
      exact hall ⟨k, Finset.mem_range.mp hk, by simpa using hp⟩
  unfold count at h
  rw [hfull, Finset.card_range] at h
  omega

end CellCount
