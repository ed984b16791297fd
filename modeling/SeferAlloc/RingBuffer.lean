import Mathlib.Data.List.Range
import Mathlib.Logic.Function.Basic
import Mathlib.Tactic.SplitIfs

/-!
# Ring buffers

A ring is an array of `cap` cells with a head and a length. The youngest entry
is at the far end, so it can be read as a stack there and as a queue at the
head. Cells outside the window are unrestricted.
-/
namespace RingBuffer

variable {α : Type*}

/-- Cell `i` behind the head: one wrap and no division. -/
def cell (cap head i : ℕ) : ℕ := if cap ≤ head + i then head + i - cap else head + i

/-- The entries, oldest first. -/
def entries (cells : ℕ → α) (cap head n : ℕ) : List α :=
  (List.range n).map fun i => cells (cell cap head i)

variable {cap head i j n : ℕ}

lemma cell_lt (hh : head < cap) (hi : i < cap) : cell cap head i < cap := by
  unfold cell
  split_ifs <;> omega

lemma cell_inj (hi : i < cap) (hj : j < cap) (h : cell cap head i = cell cap head j) : i = j := by
  unfold cell at h
  split_ifs at h <;> omega

lemma cell_zero (hh : head < cap) : cell cap head 0 = head := by
  unfold cell
  split_ifs <;> omega

lemma cell_one_lt (hh : head < cap) : cell cap head 1 < cap := by
  unfold cell
  split_ifs <;> omega

lemma cell_one (hh : head < cap) (hi : i + 1 < cap) :
    cell cap (cell cap head 1) i = cell cap head (i + 1) := by
  unfold cell
  split_ifs <;> omega

/-- Cells outside the window do not matter. -/
lemma entries_congr {cells cells' : ℕ → α}
    (h : ∀ i < n, cells' (cell cap head i) = cells (cell cap head i)) :
    entries cells' cap head n = entries cells cap head n :=
  List.map_congr_left fun i hi => h i (List.mem_range.mp hi)

lemma entries_succ (cells : ℕ → α) (cap head n : ℕ) :
    entries cells cap head (n + 1) = entries cells cap head n ++ [cells (cell cap head n)] := by
  simp [entries, List.range_succ]

/-- A write to the cell behind the window appends an entry. -/
lemma entries_push (cells : ℕ → α) (x : α) (hn : n < cap) :
    entries (Function.update cells (cell cap head n) x) cap head (n + 1) =
      entries cells cap head n ++ [x] := by
  rw [entries_succ, Function.update_self, entries_congr fun i hi => ?_]
  apply Function.update_of_ne
  intro he
  have := cell_inj (hi.trans hn) hn he
  omega

/-- The oldest entry leaves when the head moves on. -/
lemma entries_shift (cells : ℕ → α) (hh : head < cap) (hn : n < cap) :
    entries cells cap head (n + 1) =
      cells head :: entries cells cap (cell cap head 1) n := by
  simp only [entries, List.range_succ_eq_map, List.map_cons, List.map_map, cell_zero hh]
  congr 1
  apply List.map_congr_left
  intro i hi
  have hi := List.mem_range.mp hi
  simp only [Function.comp, Nat.succ_eq_add_one]
  rw [cell_one hh (by omega)]

end RingBuffer
