import Mathlib.Data.List.Count
import Mathlib.Data.List.Pairwise
import Mathlib.Tactic.Cases

/-!
# Rising paths

A log of events, each of which takes a number from one value to a larger one,
is a path from the first value to the last. It enters and leaves every value at
most once.
-/
namespace RisingPath

variable {ε : Type*} {before after : ε → ℕ}

/-- The events lead from `v` to `u` in their order. -/
def Path (before after : ε → ℕ) : ℕ → List ε → ℕ → Prop
  | v, [], u => v = u
  | v, e :: es, u => v = before e ∧ Path before after (after e) es u

lemma Path.append {v u : ℕ} {es : List ε} (h : Path before after v es u) {e : ε}
    (he : before e = u) : Path before after v (es ++ [e]) (after e) := by
  induction es generalizing v with
  | nil => exact ⟨h.trans he.symm, rfl⟩
  | cons f es ih => exact ⟨h.1, ih h.2⟩

section
variable (rising : ∀ e, before e < after e)
include rising

lemma Path.le {v u : ℕ} {es : List ε} (h : Path before after v es u) : v ≤ u := by
  induction es generalizing v with
  | nil => exact Nat.le_of_eq h
  | cons e es ih =>
      have h1 := rising e
      have h2 := ih h.2
      have h3 := h.1
      omega

lemma Path.within {v u : ℕ} {es : List ε} (h : Path before after v es u) {e : ε} (he : e ∈ es) :
    v ≤ before e ∧ after e ≤ u := by
  induction es generalizing v with
  | nil => simp at he
  | cons f es ih =>
      have h1 := rising f
      have h2 := h.1
      have h3 := h.2.le rising
      obtain rfl | he := List.mem_cons.mp he
      · exact ⟨Nat.le_of_eq h2, h3⟩
      · obtain ⟨h4, h5⟩ := ih h.2 he
        exact ⟨by omega, h5⟩

/-- An earlier event ends where or before a later one begins. -/
lemma Path.pairwise {v u : ℕ} {es : List ε} (h : Path before after v es u) :
    es.Pairwise fun e f => after e ≤ before f := by
  induction es generalizing v with
  | nil => exact List.Pairwise.nil
  | cons e es ih =>
      exact List.pairwise_cons.mpr ⟨fun f hf => (h.2.within rising hf).1, ih h.2⟩

/-- Events that overlap pairwise occur at most once among them. -/
lemma Path.countP_le_one {v u : ℕ} {es : List ε} (h : Path before after v es u) {P : ε → Bool}
    (hP : ∀ e f, P e = true → P f = true → before f < after e) : es.countP P ≤ 1 := by
  have hfilter := (h.pairwise rising).filter P
  rw [List.countP_eq_length_filter]
  match hl : es.filter P with
  | [] => simp
  | [_] => simp
  | e :: f :: rest =>
      rw [hl] at hfilter
      have hle := (List.pairwise_cons.mp hfilter).1 f (by simp)
      have he : e ∈ es.filter P := by simp [hl]
      have hf : f ∈ es.filter P := by simp [hl]
      have := hP e f (List.mem_filter.mp he).2 (List.mem_filter.mp hf).2
      omega

end

/-- A value the path enters is left, unless it is the last. -/
lemma Path.leaves {v u x : ℕ} {es : List ε} (h : Path before after v es u)
    (hx : x = v ∨ ∃ e ∈ es, after e = x) : x = u ∨ ∃ e ∈ es, before e = x := by
  induction es generalizing v with
  | nil =>
      obtain rfl | ⟨e, he, -⟩ := hx
      · exact .inl h
      · simp at he
  | cons f es ih =>
      obtain rfl | ⟨e, he, rfl⟩ := hx
      · exact .inr ⟨f, by simp, h.1.symm⟩
      · have hrest : after e = after f ∨ ∃ e' ∈ es, after e' = after e := by
          obtain rfl | he := List.mem_cons.mp he
          · exact .inl rfl
          · exact .inr ⟨e, he, rfl⟩
        obtain hu | ⟨e', he', hb⟩ := ih h.2 hrest
        · exact .inl hu
        · exact .inr ⟨e', by simp [he'], hb⟩

end RisingPath
