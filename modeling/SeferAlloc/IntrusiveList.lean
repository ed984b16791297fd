import Mathlib.Data.List.Nodup
import Mathlib.Logic.Function.Basic

/-!
# Intrusive lists

A list threaded through the cells it is made of: `next` is the link stored in
each cell and a head points at the first one. A finite chain visits no cell
twice, so acyclicity needs no proof of its own.
-/
namespace IntrusiveList

variable {α : Type*} {next : α → Option α}

/-- The links lead from the head through exactly these cells. -/
def Chain (next : α → Option α) : Option α → List α → Prop
  | none, l => l = []
  | some _, [] => False
  | some a, b :: l => a = b ∧ Chain next (next a) l

@[simp] lemma chain_none {l : List α} : Chain next none l ↔ l = [] := by
  cases l <;> simp [Chain]

lemma chain_some {a : α} {l : List α} (h : Chain next (some a) l) :
    ∃ l', l = a :: l' ∧ Chain next (next a) l' := by
  cases l with
  | nil => exact h.elim
  | cons b l => exact ⟨l, by rw [h.1], h.2⟩

/-- The head is the first cell. -/
lemma Chain.head?_eq {head : Option α} {l : List α} (h : Chain next head l) : l.head? = head := by
  cases head with
  | none => rw [chain_none.mp h, List.head?_nil]
  | some a =>
      obtain ⟨l, rfl, -⟩ := chain_some h
      rfl

/-- A head has one chain. -/
lemma Chain.unique {head : Option α} {l l' : List α} (h : Chain next head l)
    (h' : Chain next head l') : l = l' := by
  induction l generalizing head l' with
  | nil =>
      cases head with
      | none => exact (chain_none.mp h').symm
      | some a => exact h.elim
  | cons b l ih =>
      cases head with
      | none => simp at h
      | some a =>
          obtain ⟨l'', rfl, h''⟩ := chain_some h'
          rw [← h.1, ih h.2 h'']

/-- The rest of a chain from one of its cells. -/
lemma Chain.suffix {head : Option α} {l : List α} (h : Chain next head l) {a : α} (ha : a ∈ l) :
    ∃ l₁ l₂, l = l₁ ++ a :: l₂ ∧ Chain next (some a) (a :: l₂) := by
  induction l generalizing head with
  | nil => simp at ha
  | cons b l ih =>
      cases head with
      | none => simp at h
      | some c =>
          obtain ⟨rfl, h⟩ := h
          obtain rfl | ha := List.mem_cons.mp ha
          · exact ⟨[], l, rfl, rfl, h⟩
          · obtain ⟨l₁, l₂, rfl, hs⟩ := ih h ha
            exact ⟨c :: l₁, l₂, rfl, hs⟩

/-- Finite chains are acyclic. -/
lemma Chain.nodup {head : Option α} {l : List α} (h : Chain next head l) : l.Nodup := by
  induction l generalizing head with
  | nil => exact List.nodup_nil
  | cons b l ih =>
      cases head with
      | none => simp at h
      | some a =>
          have hb : Chain next (some b) (b :: l) := by
            obtain ⟨rfl, h⟩ := h
            exact ⟨rfl, h⟩
          refine List.nodup_cons.mpr ⟨fun hmem => ?_, ih h.2⟩
          -- A second visit would start a shorter chain from the same cell.
          obtain ⟨l₁, l₂, rfl, hs⟩ := h.2.suffix hmem
          have := congrArg List.length (hb.unique hs)
          simp only [List.length_cons, List.length_append] at this
          omega

/-- Cells that are linked in order. -/
lemma chain_range' {next : ℕ → Option ℕ} {a n : ℕ}
    (hstep : ∀ i, a ≤ i → i < a + n → next i = some (i + 1)) (hlast : next (a + n) = none) :
    Chain next (some a) (List.range' a (n + 1)) := by
  induction n generalizing a with
  | zero =>
      refine ⟨rfl, ?_⟩
      rw [Nat.add_zero] at hlast
      rw [hlast]
      rfl
  | succ n ih =>
      refine ⟨rfl, ?_⟩
      rw [hstep a (Nat.le_refl a) (by omega)]
      exact ih (fun i h₁ h₂ => hstep i (by omega) (by omega)) (by rw [← hlast]; congr 1; omega)

variable [DecidableEq α]

lemma Chain.update {head : Option α} {l : List α} (h : Chain next head l) {a : α} (ha : a ∉ l)
    (v : Option α) : Chain (Function.update next a v) head l := by
  induction l generalizing head with
  | nil =>
      cases head with
      | none => rfl
      | some b => exact h.elim
  | cons b l ih =>
      cases head with
      | none => simp at h
      | some c =>
          obtain ⟨rfl, h⟩ := h
          rw [List.mem_cons, not_or] at ha
          refine ⟨rfl, ?_⟩
          rw [Function.update_of_ne (Ne.symm ha.1)]
          exact ih h ha.2

/-- Pushing a cell stores the old head in it. -/
lemma Chain.push {head : Option α} {l : List α} (h : Chain next head l) {a : α} (ha : a ∉ l) :
    Chain (Function.update next a head) (some a) (a :: l) := by
  refine ⟨rfl, ?_⟩
  rw [Function.update_self]
  exact h.update ha head

end IntrusiveList
