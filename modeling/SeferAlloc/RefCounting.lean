import Mathlib.Algebra.BigOperators.Group.Finset.Basic
import Mathlib.Algebra.Order.BigOperators.Group.Finset
import Mathlib.Data.Fintype.BigOperators
import SeferAlloc.Interleaving

/-!
# Reference counting

Resources carry a count of the references to them. Any number of actors hold
references, hand them on among themselves and drop them; whoever drops the last
one has to reclaim the resource, in an action of its own. As long as every
action is one of the effects below, the count of a resource is what the actors
hold of it, and a resource is reclaimed once, after the last reference.
-/
namespace RefCounting
open Interleaving

/-- Changing one place changes one summand. -/
lemma sum_update {ι α : Type*} [Fintype ι] [DecidableEq ι] (f : α → ℕ) (g : ι → α) (i : ι) (x : α) :
    ∑ j, f (Function.update g i x j) + f (g i) = ∑ j, f (g j) + f x := by
  rw [← Finset.add_sum_erase _ _ (Finset.mem_univ i),
    ← Finset.add_sum_erase _ (fun j => f (g j)) (Finset.mem_univ i), Function.update_self]
  have h : ∑ j ∈ Finset.univ.erase i, f (Function.update g i x j) =
      ∑ j ∈ Finset.univ.erase i, f (g j) :=
    Finset.sum_congr rfl fun j hj => by rw [Function.update_of_ne (Finset.ne_of_mem_erase hj)]
  rw [h]
  omega

section Total
variable {ι σ L κ : Type*} [Fintype ι]

/-- What the actors have of something together. -/
def total (f : L → ℕ) (w : World ι σ L) : ℕ := ∑ i, f (w.loc i)

lemma le_total (f : L → ℕ) (w : World ι σ L) (i : ι) : f (w.loc i) ≤ total f w :=
  Finset.single_le_sum (f := fun j => f (w.loc j)) (fun _ _ => Nat.zero_le _) (Finset.mem_univ i)

lemma total_eq_zero {f : L → ℕ} {w : World ι σ L} : total f w = 0 ↔ ∀ i, f (w.loc i) = 0 := by
  simp [total]

variable [DecidableEq ι]

lemma add_le_total (f : L → ℕ) (w : World ι σ L) {i j : ι} (h : i ≠ j) :
    f (w.loc i) + f (w.loc j) ≤ total f w := by
  rw [total, ← Finset.add_sum_erase _ _ (Finset.mem_univ i)]
  have hj : j ∈ Finset.univ.erase i := by simp [h.symm]
  have := Finset.single_le_sum (f := fun j => f (w.loc j)) (fun _ _ => Nat.zero_le _) hj
  omega

lemma total_step (f : L → ℕ) (act : κ → σ → L → σ × L) (w : World ι σ L) (i : ι) (c : κ) :
    total f (w.step act i c) + f (w.loc i) = total f w + f (act c w.shared (w.loc i)).2 :=
  sum_update f w.loc i _

end Total

/-- How the counters are read off a state: which resources exist, their counts, how often each
was reclaimed, the references an actor holds and the reclaims it owes. -/
structure View (σ L R : Type*) where
  born : σ → R → Bool
  count : σ → R → ℕ
  freed : σ → R → ℕ
  held : L → R → ℕ
  ending : L → R → ℕ

/-- The counters of one resource: what is held of it and what is owed. A resource whose count is
zero has been reclaimed, or one reclaim is owed. -/
structure Tally (born : Bool) (count freed held ending : ℕ) : Prop where
  counted : count = held
  alive : 0 < count → freed + ending = 0
  dead : born = true → count = 0 → freed + ending = 1
  unborn : born = false → count = 0 ∧ freed + ending = 0

namespace Tally
variable {born : Bool} {count freed held ending : ℕ}

lemma birth (h : Tally false count freed held ending) : Tally true 1 freed (held + 1) ending := by
  obtain ⟨h0, h1⟩ := h.unborn rfl
  have h2 := h.counted
  exact ⟨by omega, fun _ => h1, fun _ h3 => by omega, fun h3 => by simp at h3⟩

lemma retain (h : Tally born count freed held ending) (hpos : 0 < count) :
    Tally born (count + 1) freed (held + 1) ending := by
  refine ⟨by rw [h.counted], fun _ => h.alive hpos, fun _ h0 => by omega, fun h0 => ?_⟩
  exact absurd (h.unborn h0).1 (Nat.ne_of_gt hpos)

/-- The one who drops the last reference owes the reclaim. -/
lemma release (h : Tally born count freed (held + 1) ending) :
    Tally born (count - 1) freed held (ending + if count = 1 then 1 else 0) := by
  have h1 := h.counted
  have h2 := h.alive (by omega)
  refine ⟨by omega, fun h3 => ?_, fun _ h3 => ?_, fun h3 => ?_⟩
  · rw [if_neg (by omega)]
    exact h2
  · rw [if_pos (by omega)]
    omega
  · exact absurd (h.unborn h3).1 (by omega)

lemma reclaim (h : Tally born count freed held (ending + 1)) :
    Tally born count (freed + 1) held ending := by
  refine ⟨h.counted, fun h1 => ?_, fun h1 h2 => ?_, fun h1 => ⟨(h.unborn h1).1, ?_⟩⟩
  · have := h.alive h1
    omega
  · have := h.dead h1 h2
    omega
  · have := (h.unborn h1).2
    omega

end Tally

section Balance
variable {ι σ L κ R : Type*} [Fintype ι]

/-- The counters of a resource agree with what all actors hold and owe. -/
def Balanced (v : View σ L R) (w : World ι σ L) (a : R) : Prop :=
  Tally (v.born w.shared a) (v.count w.shared a) (v.freed w.shared a) (total (v.held · a) w)
    (total (v.ending · a) w)

namespace Balanced
variable {v : View σ L R} {w : World ι σ L} {a : R}

/-- A resource somebody holds exists and has not been reclaimed. -/
lemma of_held (h : Balanced v w a) {i : ι} (hi : 0 < v.held (w.loc i) a) :
    v.born w.shared a = true ∧ 0 < v.count w.shared a ∧ v.freed w.shared a = 0 := by
  have hpos : 0 < v.count w.shared a :=
    h.counted ▸ lt_of_lt_of_le hi (le_total (v.held · a) w i)
  refine ⟨?_, hpos, (Nat.add_eq_zero_iff.mp (h.alive hpos)).1⟩
  by_contra hb
  exact absurd (h.unborn (by simpa using hb)).1 (Nat.ne_of_gt hpos)

/-- Two actors that hold a resource are counted twice. -/
lemma two_le [DecidableEq ι] (h : Balanced v w a) {i j : ι} (hij : i ≠ j)
    (hi : 0 < v.held (w.loc i) a) (hj : 0 < v.held (w.loc j) a) : 2 ≤ v.count w.shared a := by
  have h1 := add_le_total (v.held · a) w hij
  have h2 := h.counted
  omega

lemma freed_le_one (h : Balanced v w a) : v.freed w.shared a ≤ 1 := by
  cases hb : v.born w.shared a with
  | false =>
      have := (h.unborn hb).2
      omega
  | true =>
      by_cases hc : v.count w.shared a = 0
      · have := h.dead hb hc
        omega
      · have := h.alive (Nat.pos_of_ne_zero hc)
        omega

/-- What was reclaimed is held by nobody. -/
lemma of_freed (h : Balanced v w a) (hf : 0 < v.freed w.shared a) :
    v.count w.shared a = 0 ∧ ∀ i, v.held (w.loc i) a = 0 := by
  have hc : v.count w.shared a = 0 := by
    by_contra hc
    have := h.alive (Nat.pos_of_ne_zero hc)
    omega
  exact ⟨hc, fun i => total_eq_zero.mp (h.counted.symm.trans hc) i⟩

/-- A resource nobody holds and nobody is reclaiming was reclaimed. -/
lemma freed_of_dropped (h : Balanced v w a) (hb : v.born w.shared a = true)
    (hheld : ∀ i, v.held (w.loc i) a = 0) (hend : ∀ i, v.ending (w.loc i) a = 0) :
    v.freed w.shared a = 1 := by
  have hc : v.count w.shared a = 0 := h.counted.trans (total_eq_zero.mpr hheld)
  have hdead := h.dead hb hc
  rwa [total_eq_zero.mpr hend] at hdead

end Balanced
end Balance

/-! ## Effects -/

section Effects
variable {ι σ L κ R : Type*} [DecidableEq R]

/-- One unit of the resource `a`. -/
def one (a b : R) : ℕ := if a = b then 1 else 0

@[simp] lemma one_self (a : R) : one a a = 1 := if_pos rfl

lemma one_of_ne {a b : R} (h : b ≠ a) : one a b = 0 := if_neg h.symm

/-- What one action may do to the counters. -/
inductive Effect (v : View σ L R) (x x' : σ) (l l' : L) : Prop
  | keep (hb : v.born x' = v.born x) (hc : v.count x' = v.count x) (hf : v.freed x' = v.freed x)
      (hh : v.held l' = v.held l) (he : v.ending l' = v.ending l)
  | birth (a : R) (hnew : v.born x a = false) (hb : v.born x' = Function.update (v.born x) a true)
      (hc : v.count x' = Function.update (v.count x) a 1) (hf : v.freed x' = v.freed x)
      (hh : ∀ b, v.held l' b = v.held l b + one a b) (he : v.ending l' = v.ending l)
  | retain (a : R) (hpos : 0 < v.count x a) (hb : v.born x' = v.born x)
      (hc : v.count x' = Function.update (v.count x) a (v.count x a + 1))
      (hf : v.freed x' = v.freed x)
      (hh : ∀ b, v.held l' b = v.held l b + one a b) (he : v.ending l' = v.ending l)
  | release (a : R) (hb : v.born x' = v.born x)
      (hc : v.count x' = Function.update (v.count x) a (v.count x a - 1))
      (hf : v.freed x' = v.freed x)
      (hh : ∀ b, v.held l b = v.held l' b + one a b)
      (he : ∀ b, v.ending l' b = v.ending l b + if v.count x a = 1 then one a b else 0)
  | reclaim (a : R) (hb : v.born x' = v.born x) (hc : v.count x' = v.count x)
      (hf : v.freed x' = Function.update (v.freed x) a (v.freed x a + 1))
      (hh : v.held l' = v.held l) (he : ∀ b, v.ending l b = v.ending l' b + one a b)

variable [Fintype ι] [DecidableEq ι] {v : View σ L R} {w : World ι σ L}
  {act : κ → σ → L → σ × L} {i : ι} {c : κ}

/-- Every effect keeps every resource balanced. -/
theorem Balanced.step (h : ∀ a, Balanced v w a)
    (he : Effect v w.shared (act c w.shared (w.loc i)).1 (w.loc i) (act c w.shared (w.loc i)).2)
    (b : R) : Balanced v (w.step act i c) b := by
  have hheld := total_step (v.held · b) act w i c
  have hending := total_step (v.ending · b) act w i c
  have hb := h b
  simp only [Balanced] at hb ⊢
  change Tally (v.born (act c w.shared (w.loc i)).1 b) (v.count (act c w.shared (w.loc i)).1 b)
    (v.freed (act c w.shared (w.loc i)).1 b) _ _
  cases he with
  | keep h1 h2 h3 h4 h5 =>
      rw [h4] at hheld
      rw [h5] at hending
      rwa [h1, h2, h3, Nat.add_right_cancel hheld, Nat.add_right_cancel hending]
  | birth a hnew h1 h2 h3 h4 h5 =>
      rw [h5] at hending
      rw [h4 b] at hheld
      rw [h1, h2, h3, Nat.add_right_cancel hending]
      by_cases hba : b = a
      · subst b
        rw [one_self] at hheld
        rw [hnew] at hb
        rw [Function.update_self, Function.update_self,
          (by omega : total (v.held · a) (w.step act i c) = total (v.held · a) w + 1)]
        exact hb.birth
      · rw [one_of_ne hba] at hheld
        rw [Function.update_of_ne hba, Function.update_of_ne hba, Nat.add_right_cancel hheld]
        exact hb
  | retain a hpos h1 h2 h3 h4 h5 =>
      rw [h5] at hending
      rw [h4 b] at hheld
      rw [h1, h2, h3, Nat.add_right_cancel hending]
      by_cases hba : b = a
      · subst b
        rw [one_self] at hheld
        rw [Function.update_self,
          (by omega : total (v.held · a) (w.step act i c) = total (v.held · a) w + 1)]
        exact hb.retain hpos
      · rw [one_of_ne hba] at hheld
        rw [Function.update_of_ne hba, Nat.add_right_cancel hheld]
        exact hb
  | release a h1 h2 h3 h4 h5 =>
      rw [h4 b] at hheld
      rw [h5 b] at hending
      rw [h1, h2, h3]
      by_cases hba : b = a
      · subst b
        rw [one_self] at hheld hending
        rw [(by omega : total (v.held · a) w = total (v.held · a) (w.step act i c) + 1)] at hb
        rw [Function.update_self, (by omega : total (v.ending · a) (w.step act i c) =
          total (v.ending · a) w + if v.count w.shared a = 1 then 1 else 0)]
        exact hb.release
      · rw [one_of_ne hba] at hheld hending
        rw [ite_self] at hending
        rw [Function.update_of_ne hba, Nat.add_right_cancel hending,
          (by omega : total (v.held · b) (w.step act i c) = total (v.held · b) w)]
        exact hb
  | reclaim a h1 h2 h3 h4 h5 =>
      rw [h4] at hheld
      rw [h5 b] at hending
      rw [h1, h2, h3, Nat.add_right_cancel hheld]
      by_cases hba : b = a
      · subst b
        rw [one_self] at hending
        rw [(by omega : total (v.ending · a) w = total (v.ending · a) (w.step act i c) + 1)] at hb
        rw [Function.update_self]
        exact hb.reclaim
      · rw [one_of_ne hba] at hending
        rw [Function.update_of_ne hba,
          (by omega : total (v.ending · b) (w.step act i c) = total (v.ending · b) w)]
        exact hb

end Effects
end RefCounting
