import Mathlib.Tactic
import Mathlib.Data.Nat.Digits.Lemmas

/-!
# Text as bytes

ASCII classes, the position at which a scan stops, and the value of a run of
digits read from the left. Nothing is assumed about the encoding of the rest.
-/
namespace ByteText

abbrev Bytes := List UInt8

def isAsciiDigit (b : UInt8) : Bool := 48 ≤ b && b ≤ 57

/-- Space, tab, line feed, form feed and carriage return. -/
def isAsciiWhitespace (b : UInt8) : Bool := b == 32 || b == 9 || b == 10 || b == 12 || b == 13

lemma not_digit_of_whitespace {b : UInt8} (h : isAsciiWhitespace b = true) :
    isAsciiDigit b = false := by
  simp only [isAsciiWhitespace, Bool.or_eq_true, beq_iff_eq] at h
  rcases h with (((rfl | rfl) | rfl) | rfl) | rfl <;> decide

/-! ## Where a scan stops -/

section
variable {α : Type*} {p : α → Bool}

lemma findIdx?_append_cons {a : List α} {x : α} (b : List α) (ha : ∀ y ∈ a, p y = false)
    (hx : p x = true) : (a ++ x :: b).findIdx? p = some a.length := by
  rw [List.findIdx?_append, List.findIdx?_eq_none_iff.mpr ha]
  simp [List.findIdx?_cons, hx]

lemma exists_of_findIdx? {l : List α} {i : ℕ} (h : l.findIdx? p = some i) :
    ∃ a x b, l = a ++ x :: b ∧ a.length = i ∧ (∀ y ∈ a, p y = false) ∧ p x = true := by
  obtain ⟨hi, hp, hbefore⟩ := List.findIdx?_eq_some_iff_getElem.mp h
  refine ⟨l.take i, l[i], l.drop (i + 1), ?_, by simp [hi.le], fun y hy => ?_, hp⟩
  · rw [← List.drop_eq_getElem_cons hi, List.take_append_drop]
  · obtain ⟨j, hj, rfl⟩ := List.mem_take_iff_getElem.mp hy
    have hji : j < i := (lt_min_iff.mp hj).1
    simpa using hbefore j hji

/-- A run of `p` and what follows it. -/
lemma exists_run (p : α → Bool) (l : List α) :
    ∃ a b, l = a ++ b ∧ (∀ y ∈ a, p y = true) ∧ ∀ x ∈ b.head?, p x = false := by
  refine ⟨l.takeWhile p, l.dropWhile p, (List.takeWhile_append_dropWhile).symm,
    fun y hy => List.all_eq_true.mp List.all_takeWhile y hy, fun x hx => ?_⟩
  obtain ⟨t, ht⟩ := List.head?_eq_some_iff.mp hx
  have hne : l.dropWhile p ≠ [] := by simp [ht]
  have hhead := List.head_dropWhile_not p hne
  simpa [ht] using hhead

/-- The end of a run of `p` is where `p` first fails, or the end of the list. -/
lemma findIdx?_not_run {a b : List α} (ha : ∀ y ∈ a, p y = true) (hb : ∀ x ∈ b.head?, p x = false) :
    ((a ++ b).findIdx? fun x => !p x).getD (a ++ b).length = a.length := by
  have hfalse : ∀ y ∈ a, (!p y) = false := fun y hy => by simp [ha y hy]
  cases b with
  | nil =>
      rw [List.append_nil, List.findIdx?_eq_none_iff.mpr hfalse]
      rfl
  | cons x t =>
      have hx : (!p x) = true := by simp [hb x rfl]
      rw [findIdx?_append_cons (p := fun x => !p x) t hfalse hx]
      rfl

end

/-! ## Values of digit runs -/

/-- The value of a run whose first digit is the most significant one. -/
def valueOf (base : ℕ) (digit : UInt8 → ℕ) (ds : Bytes) : ℕ :=
  Nat.ofDigits base (ds.map digit).reverse

@[simp] lemma valueOf_nil (base : ℕ) (digit : UInt8 → ℕ) : valueOf base digit [] = 0 := rfl

lemma valueOf_append_singleton (base : ℕ) (digit : UInt8 → ℕ) (ds : Bytes) (b : UInt8) :
    valueOf base digit (ds ++ [b]) = valueOf base digit ds * base + digit b := by
  simp only [valueOf, List.map_append, List.map_cons, List.map_nil, List.reverse_append,
    List.reverse_singleton, List.singleton_append, Nat.ofDigits_cons]
  ring

lemma valueOf_lt {base : ℕ} {digit : UInt8 → ℕ} (hb : 1 < base) {ds : Bytes}
    (hd : ∀ b ∈ ds, digit b < base) : valueOf base digit ds < base ^ ds.length := by
  have h := Nat.ofDigits_lt_base_pow_length (b := base) (l := (ds.map digit).reverse) hb
    fun x hx => by
      obtain ⟨b, hm, rfl⟩ := List.mem_map.mp (List.mem_reverse.mp hx)
      exact hd b hm
  rw [List.length_reverse, List.length_map] at h
  exact h

end ByteText
