import Mathlib.Data.List.Chain
import Mathlib.Data.List.Pairwise
import Mathlib.Data.List.Flatten
import Mathlib.Logic.Function.Basic
import Mathlib.Tactic.Common

/-!
# Bisection and sorted sequences of blocks

A bisection whose test may fail, and sequences cut into blocks of bounded length
such that two neighbouring blocks would not fit into half a block.
-/

/-! ## Bisection -/

namespace Bisection

/-- The first place from `lo` to `hi` where the test fails, when it fails at all places after;
no place when the test has no answer. -/
def search (p : ℕ → Option Bool) (lo hi : ℕ) : Option ℕ :=
  if lo < hi then
    match p (lo + (hi - lo) / 2) with
    | none => none
    | some true => search p (lo + (hi - lo) / 2 + 1) hi
    | some false => search p lo (lo + (hi - lo) / 2)
  else some lo
termination_by hi - lo

/-- A test that holds up to some place and fails from there on is bisected at that place. -/
theorem search_eq {p : ℕ → Option Bool} {lo hi cut : ℕ} (hlo : lo ≤ cut) (hhi : cut ≤ hi)
    (hbelow : ∀ i, i < cut → lo ≤ i → p i = some true)
    (habove : ∀ i, cut ≤ i → i < hi → p i = some false) : search p lo hi = some cut := by
  fun_induction search p lo hi with
  | case1 lo hi h hp =>
      obtain hc | hc := Nat.lt_or_ge (lo + (hi - lo) / 2) cut
      · have := hbelow _ hc (by omega)
        simp [this] at hp
      · have := habove _ hc (by omega)
        simp [this] at hp
  | case2 lo hi h hp ih =>
      obtain hc | hc := Nat.lt_or_ge (lo + (hi - lo) / 2) cut
      · exact ih (by omega) hhi (fun i h₁ h₂ => hbelow i h₁ (by omega)) habove
      · have := habove _ hc (by omega)
        simp [this] at hp
  | case3 lo hi h hp ih =>
      obtain hc | hc := Nat.lt_or_ge (lo + (hi - lo) / 2) cut
      · have := hbelow _ hc (by omega)
        simp [this] at hp
      · exact ih hlo hc hbelow fun i h₁ h₂ => habove i h₁ (by omega)
  | case4 lo hi h =>
      congr 1
      omega

/-- In a list the test fails on a tail, and its head is as long as the place says. -/
lemma search_append {E : Type*} {p : ℕ → Option Bool} {q : E → Bool} {l m : List E}
    (hp : ∀ i e, (l ++ m)[i]? = some e → p i = some (q e)) (hl : ∀ e ∈ l, q e = true)
    (hm : ∀ e ∈ m, q e = false) : search p 0 (l ++ m).length = some l.length := by
  refine search_eq (Nat.zero_le _) (by simp) (fun i hi _ => ?_) fun i h₁ h₂ => ?_
  · have hget : (l ++ m)[i]? = some l[i] := by
      rw [List.getElem?_append_left hi, List.getElem?_eq_getElem hi]
    rw [hp i _ hget, hl _ (List.getElem_mem hi)]
  · have hlen : i - l.length < m.length := by
      rw [List.length_append] at h₂
      omega
    have hget : (l ++ m)[i]? = some m[i - l.length] := by
      rw [List.getElem?_append_right h₁, List.getElem?_eq_getElem hlen]
    rw [hp i _ hget, hm _ (List.getElem_mem hlen)]

/-- What is true of an element only if of all before it is true on a head of the list. -/
lemma exists_cut {E : Type*} {R : E → E → Prop} {q : E → Bool} {b : List E} (hs : b.Pairwise R)
    (hq : ∀ e ∈ b, ∀ f ∈ b, R e f → q f = true → q e = true) :
    ∃ l m, b = l ++ m ∧ (∀ e ∈ l, q e = true) ∧ ∀ e ∈ m, q e = false := by
  induction b with
  | nil => exact ⟨[], [], rfl, by simp, by simp⟩
  | cons x b ih =>
      obtain ⟨hx, hs⟩ := List.pairwise_cons.mp hs
      by_cases hqx : q x = true
      · obtain ⟨l, m, rfl, hl, hm⟩ := ih hs fun e he f hf =>
          hq e (List.mem_cons_of_mem _ he) f (List.mem_cons_of_mem _ hf)
        refine ⟨x :: l, m, rfl, fun e he => ?_, hm⟩
        obtain rfl | he := List.mem_cons.mp he
        · exact hqx
        · exact hl e he
      · refine ⟨[], x :: b, rfl, by simp, fun e he => ?_⟩
        by_contra hqe
        obtain rfl | he := List.mem_cons.mp he
        · simp_all
        · exact hqx (hq x List.mem_cons_self e (List.mem_cons_of_mem _ he) (hx e he)
            (by simpa using hqe))

end Bisection

namespace SortedBlocks
variable {E : Type*} {key : E → ℕ} {a b : List E} {x : E}

lemma insertIdx_append_length : (a ++ b).insertIdx a.length x = a ++ x :: b := by
  induction a with
  | nil => rfl
  | cons y a ih => simp [ih]

lemma eraseIdx_append_length : (a ++ x :: b).eraseIdx a.length = a ++ b := by
  induction a with
  | nil => rfl
  | cons y a ih => simp [ih]

/-! ## Associations -/

/-- The element with a key. -/
def assoc (key : E → ℕ) (l : List E) (k : ℕ) : Option E := l.find? fun e => key e == k

lemma assoc_eq_some {l : List E} {k : ℕ} (h : assoc key l k = some x) : x ∈ l ∧ key x = k := by
  obtain ⟨hk, hmem⟩ := List.find?_eq_some_iff_append.mp h
  obtain ⟨as, bs, rfl, -⟩ := hmem
  exact ⟨by simp, by simpa using hk⟩

lemma assoc_eq_none {l : List E} {k : ℕ} (h : ∀ e ∈ l, key e ≠ k) : assoc key l k = none := by
  simpa [assoc] using h

/-- An element before which its key does not occur is found. -/
lemma assoc_insert (ha : ∀ e ∈ a, key e ≠ key x) :
    assoc key (a ++ x :: b) = Function.update (assoc key (a ++ b)) (key x) (some x) := by
  funext k
  by_cases hk : k = key x
  · subst k
    rw [Function.update_self, assoc, List.find?_append]
    simp [show a.find? _ = none from assoc_eq_none ha]
  · rw [Function.update_of_ne hk]
    simp [assoc, List.find?_append, List.find?_cons_of_neg, Ne.symm hk]

/-- Without the only element of a key, the key is not found, and all else is. -/
lemma assoc_erase (ha : ∀ e ∈ a, key e ≠ key x) (hb : ∀ e ∈ b, key e ≠ key x) :
    assoc key (a ++ b) = Function.update (assoc key (a ++ x :: b)) (key x) none := by
  rw [assoc_insert ha, Function.update_idem, eq_comm, Function.update_eq_self_iff]
  symm
  refine assoc_eq_none fun e he => ?_
  obtain he | he := List.mem_append.mp he
  · exact ha e he
  · exact hb e he

/-! ## Blocks -/

/-- Together too long for half a block. -/
def Apart (half : ℕ) (l m : List E) : Prop := half < l.length + m.length

/-- Nonempty blocks of at most `2 * half` elements, in the order `R` through all of them, and no
two neighbours of which fit into half a block. -/
structure Blocks (half : ℕ) (R : E → E → Prop) (B : List (List E)) : Prop where
  nonempty : ∀ l ∈ B, l ≠ []
  short : ∀ l ∈ B, l.length ≤ 2 * half
  apart : B.IsChain (Apart half)
  sorted : B.flatten.Pairwise R

namespace Blocks
variable {half : ℕ} {R : E → E → Prop} {P Q : List (List E)} {l m : List E}

lemma nil : Blocks half R [] where
  nonempty := by simp
  short := by simp
  apart := List.isChain_nil
  sorted := by simp

lemma singleton (hpos : 0 < half) (x : E) : Blocks half R [[x]] where
  nonempty := by simp
  short := by simp; omega
  apart := List.isChain_singleton _
  sorted := by simp

/-- Blocks that grow stay apart on the right. -/
lemma apart_grow_head (h : (l :: Q).IsChain (Apart half)) (hle : l.length ≤ m.length) :
    (m :: Q).IsChain (Apart half) := by
  cases Q with
  | nil => exact List.isChain_singleton _
  | cons q Q =>
      rw [List.isChain_cons_cons] at h ⊢
      refine ⟨?_, h.2⟩
      have := h.1
      unfold Apart at this ⊢
      omega

/-- Blocks that grow stay apart on the left. -/
lemma apart_grow_last (h : (P ++ [l]).IsChain (Apart half)) (hle : l.length ≤ m.length) :
    (P ++ [m]).IsChain (Apart half) := by
  rw [List.isChain_append] at h ⊢
  refine ⟨h.1, List.isChain_singleton _, fun p hp q hq => ?_⟩
  have := h.2.2 p hp l rfl
  simp only [List.head?_cons, Option.mem_some_iff] at hq
  subst q
  unfold Apart at this ⊢
  omega

/-- An element enters a block that has room, in its place. -/
lemma insert (h : Blocks half R (P ++ (a ++ b) :: Q)) (hroom : (a ++ b).length < 2 * half)
    (hlow : ∀ e ∈ P.flatten ++ a, R e x) (hhigh : ∀ e ∈ b ++ Q.flatten, R x e) :
    Blocks half R (P ++ (a ++ x :: b) :: Q) where
  nonempty l hl := by
    simp only [List.mem_append, List.mem_cons] at hl
    obtain hl | rfl | hl := hl
    · exact h.nonempty l (by simp [hl])
    · simp
    · exact h.nonempty l (by simp [hl])
  short l hl := by
    simp only [List.mem_append, List.mem_cons] at hl
    obtain hl | rfl | hl := hl
    · exact h.short l (by simp [hl])
    · simp only [List.length_append, List.length_cons] at hroom ⊢
      omega
    · exact h.short l (by simp [hl])
  apart := by
    have := h.apart
    rw [List.isChain_split] at this ⊢
    exact ⟨apart_grow_last this.1 (by simp), apart_grow_head this.2 (by simp)⟩
  sorted := by
    have hs := h.sorted
    simp only [List.flatten_append, List.flatten_cons, List.append_assoc] at hs ⊢
    rw [← List.append_assoc, List.pairwise_append] at hs ⊢
    obtain ⟨h₁, h₂, h₃⟩ := hs
    refine ⟨h₁, List.pairwise_cons.mpr ⟨hhigh, h₂⟩, fun e he f hf => ?_⟩
    obtain rfl | hf := List.mem_cons.mp hf
    · exact hlow e he
    · exact h₃ e he f hf

/-- A full block may be cut into halves. -/
lemma split (h : Blocks half R (P ++ (a ++ b) :: Q)) (hpos : 0 < half) (ha : a.length = half)
    (hb : b.length = half) : Blocks half R (P ++ a :: b :: Q) where
  nonempty l hl := by
    simp only [List.mem_append, List.mem_cons] at hl
    obtain hl | rfl | rfl | hl := hl
    · exact h.nonempty l (by simp [hl])
    · exact List.ne_nil_of_length_pos (by omega)
    · exact List.ne_nil_of_length_pos (by omega)
    · exact h.nonempty l (by simp [hl])
  short l hl := by
    simp only [List.mem_append, List.mem_cons] at hl
    obtain hl | rfl | rfl | hl := hl
    · exact h.short l (by simp [hl])
    · omega
    · omega
    · exact h.short l (by simp [hl])
  apart := by
    have hne : ∀ l, l ∈ P ∨ l ∈ Q → 0 < l.length := fun l hl =>
      List.length_pos_iff.mpr (h.nonempty l (by simp; tauto))
    have := h.apart
    rw [List.isChain_append] at this ⊢
    refine ⟨this.1, ?_, fun p hp q hq => ?_⟩
    · rw [List.isChain_cons_cons]
      refine ⟨by unfold Apart; omega, ?_⟩
      rw [List.isChain_cons] at this ⊢
      refine ⟨fun q hq => ?_, this.2.1.2⟩
      have := hne q (.inr (List.mem_of_mem_head? hq))
      unfold Apart
      omega
    · simp only [List.head?_cons, Option.mem_some_iff] at hq
      subst q
      have := hne p (.inl (List.mem_of_mem_getLast? hp))
      unfold Apart
      omega
  sorted := by
    have hs := h.sorted
    simpa using hs

end Blocks

/-- Blocks of which one, `l`, may fit into half a block together with a neighbour. -/
structure Loose (half : ℕ) (R : E → E → Prop) (P : List (List E)) (l : List E)
    (Q : List (List E)) : Prop where
  nonempty : ∀ m ∈ P ++ l :: Q, m ≠ []
  short : ∀ m ∈ P ++ l :: Q, m.length ≤ 2 * half
  left : P.IsChain (Apart half)
  right : Q.IsChain (Apart half)
  sorted : (P ++ l :: Q).flatten.Pairwise R

section Loose
variable {half : ℕ} {R : E → E → Prop} {P Q : List (List E)} {l m : List E}

/-- A block that loses one element of several may become loose. -/
lemma Blocks.erase (h : Blocks half R (P ++ (a ++ x :: b) :: Q)) (hne : a ++ b ≠ []) :
    Loose half R P (a ++ b) Q where
  nonempty m hm := by
    simp only [List.mem_append, List.mem_cons] at hm
    obtain hm | rfl | hm := hm
    · exact h.nonempty m (by simp [hm])
    · exact hne
    · exact h.nonempty m (by simp [hm])
  short m hm := by
    simp only [List.mem_append, List.mem_cons] at hm
    obtain hm | rfl | hm := hm
    · exact h.short m (by simp [hm])
    · have := h.short (a ++ x :: b) (by simp)
      simp only [List.length_append, List.length_cons] at this ⊢
      omega
    · exact h.short m (by simp [hm])
  left := (List.isChain_append.mp h.apart).1
  right := (List.isChain_append.mp h.apart).2.1.of_cons
  sorted := by
    refine h.sorted.sublist ?_
    simp only [List.flatten_append, List.flatten_cons, List.append_assoc, List.cons_append]
    exact (List.Sublist.refl _).append ((List.Sublist.refl _).append (List.sublist_cons_self _ _))

/-- A block that loses its only element may be taken out. -/
lemma Blocks.erase_single (h : Blocks half R (P ++ [x] :: Q)) (hpos : 0 < half) :
    Blocks half R (P ++ Q) where
  nonempty m hm := h.nonempty m (by simp only [List.mem_append, List.mem_cons] at hm ⊢; tauto)
  short m hm := h.short m (by simp only [List.mem_append, List.mem_cons] at hm ⊢; tauto)
  apart := by
    have := h.apart
    rw [List.isChain_append, List.isChain_cons] at this
    rw [List.isChain_append]
    refine ⟨this.1, this.2.1.2, fun p hp q hq => ?_⟩
    have hl := this.2.2 p hp [x] rfl
    have hr := this.2.1.1 q hq
    simp only [Apart, List.length_singleton] at hl hr ⊢
    omega
  sorted := by
    refine h.sorted.sublist ?_
    simp only [List.flatten_append, List.flatten_cons]
    exact (List.Sublist.refl _).append (List.sublist_append_right _ _)

namespace Loose

/-- The loose block absorbs its right neighbour. -/
lemma absorb_right (h : Loose half R P l (m :: Q)) (hle : l.length + m.length ≤ half) :
    Loose half R P (l ++ m) Q ∧ ((l ++ m) :: Q).IsChain (Apart half) := by
  refine ⟨⟨fun k hk => ?_, fun k hk => ?_, h.left, h.right.of_cons, ?_⟩, ?_⟩
  · simp only [List.mem_append, List.mem_cons] at hk
    obtain hk | rfl | hk := hk
    · exact h.nonempty k (by simp [hk])
    · simp [h.nonempty l (by simp)]
    · exact h.nonempty k (by simp [hk])
  · simp only [List.mem_append, List.mem_cons] at hk
    obtain hk | rfl | hk := hk
    · exact h.short k (by simp [hk])
    · rw [List.length_append]
      omega
    · exact h.short k (by simp [hk])
  · have hs := h.sorted
    simpa using hs
  · exact Blocks.apart_grow_head h.right (by simp)

/-- The loose block is apart from its right neighbour, if it has one. -/
lemma keep_right (h : Loose half R P l Q) (hlt : ∀ m ∈ Q.head?, half < l.length + m.length) :
    (l :: Q).IsChain (Apart half) :=
  List.isChain_cons.mpr ⟨hlt, h.right⟩

/-- The left neighbour absorbs the loose block. -/
lemma absorb_left (h : Loose half R (P ++ [m]) l Q) (hr : (l :: Q).IsChain (Apart half))
    (hle : m.length + l.length ≤ half) : Blocks half R (P ++ (m ++ l) :: Q) := by
  refine ⟨fun k hk => ?_, fun k hk => ?_, ?_, ?_⟩
  · simp only [List.mem_append, List.mem_cons] at hk
    obtain hk | rfl | hk := hk
    · exact h.nonempty k (by simp [hk])
    · simp [h.nonempty m (by simp)]
    · exact h.nonempty k (by simp [hk])
  · simp only [List.mem_append, List.mem_cons] at hk
    obtain hk | rfl | hk := hk
    · exact h.short k (by simp [hk])
    · rw [List.length_append]
      omega
    · exact h.short k (by simp [hk])
  · rw [List.isChain_split]
    exact ⟨Blocks.apart_grow_last h.left (by simp), Blocks.apart_grow_head hr (by simp)⟩
  · have hs := h.sorted
    simpa using hs

/-- The loose block is apart from its left neighbour, if it has one. -/
lemma keep_left (h : Loose half R P l Q) (hr : (l :: Q).IsChain (Apart half))
    (hlt : ∀ m ∈ P.getLast?, half < m.length + l.length) : Blocks half R (P ++ l :: Q) := by
  refine ⟨h.nonempty, h.short, ?_, h.sorted⟩
  rw [List.isChain_append]
  refine ⟨h.left, hr, fun m hm k hk => ?_⟩
  simp only [List.head?_cons, Option.mem_some_iff] at hk
  subst k
  exact hlt m hm

end Loose

end Loose

end SortedBlocks
