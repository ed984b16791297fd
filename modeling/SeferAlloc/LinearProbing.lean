import Mathlib.Data.Finset.Card
import Mathlib.Data.Finset.Image
import Mathlib.Tactic

/-!
# Linear probing with backward-shift deletion

A ring of `C` cells over a type with a distinguished empty value `0`. Every
entry has a home cell and a key. A table is well formed when no two cells share
a key and every cell between an entry's home and its position is occupied.
Insertion writes the first empty cell of the entry's probe run; deletion pulls
later entries of the run back into the hole and never leaves a marker behind.

All walks take a step budget and answer `none` when it runs out. The theorems
show that one empty cell makes a budget of `C` steps sufficient.
-/
namespace LinearProbing

/-- Cyclic successor on a ring of `C` cells. -/
def next (C i : ℕ) : ℕ := if i + 1 = C then 0 else i + 1

/-- Forward distance from `i` to `j` on a ring of `C` cells. -/
def fwd (C i j : ℕ) : ℕ := if i ≤ j then j - i else j + C - i

section Ring
variable {C i j k : ℕ}

lemma next_lt (hi : i < C) : next C i < C := by
  simp only [next]
  split_ifs <;> omega

lemma next_ne (hC : 1 < C) : next C i ≠ i := by
  simp only [next]
  split_ifs <;> omega

@[simp] lemma fwd_self : fwd C i i = 0 := by simp [fwd]

lemma fwd_lt (hi : i < C) (hj : j < C) : fwd C i j < C := by
  simp only [fwd]
  split_ifs <;> omega

lemma fwd_pos (hi : i < C) (hij : i ≠ j) : 0 < fwd C i j := by
  simp only [fwd]
  split_ifs <;> omega

lemma fwd_inj (hi : i < C) (hj : j < C) (hk : k < C) (h : fwd C i j = fwd C i k) : j = k := by
  simp only [fwd] at h
  split_ifs at h <;> omega

lemma fwd_next_left (hi : i < C) (hj : j < C) (hij : i ≠ j) :
    fwd C (next C i) j + 1 = fwd C i j := by
  simp only [fwd, next]
  split_ifs <;> omega

lemma fwd_next_right (hi : i < C) (h : next C j ≠ i) :
    fwd C i (next C j) = fwd C i j + 1 := by
  simp only [fwd, next] at *
  split_ifs at * <;> omega

lemma fwd_next_self (hC : 1 < C) (hj : j < C) : fwd C j (next C j) = 1 := by
  rw [fwd_next_right hj (next_ne hC), fwd_self]

/-- A cell between `j` and `k` is between `i` and `k` when `j` is. -/
lemma fwd_between {l : ℕ} (hi : i < C) (hj : j < C) (hk : k < C) (hl : l < C)
    (hjl : fwd C i j < fwd C i l) (hkl : fwd C j k < fwd C j l) :
    fwd C i k < fwd C i l := by
  simp only [fwd] at *
  split_ifs at * <;> omega

end Ring

variable {α : Type*} [Zero α] {κ : Type*}

/-- Walk from `i` to the first cell that is empty or holds an entry of interest. -/
def walk [DecidableEq α] (C : ℕ) (t : ℕ → α) (p : α → Bool) : ℕ → ℕ → Option ℕ
  | 0, _ => none
  | fuel + 1, i =>
      if t i = 0 then some i
      else if p (t i) then some i
      else walk C t p fuel (next C i)

/-- Backward shift: `hole` is the gap to fill and `j` the next candidate. The
cell at `hole` may still hold a stale entry; `j` never reads it again. -/
def shift [DecidableEq α] (C : ℕ) (home : α → ℕ) : ℕ → (ℕ → α) → ℕ → ℕ → Option (ℕ → α)
  | 0, _, _, _ => none
  | fuel + 1, t, hole, j =>
      if t j = 0 then some (Function.update t hole 0)
      else if fwd C (home (t j)) hole ≤ fwd C (home (t j)) j then
        shift C home fuel (Function.update t hole (t j)) j (next C j)
      else shift C home fuel t hole (next C j)

/-- The table holds the entry `e` in one of its cells. -/
def Holds (C : ℕ) (t : ℕ → α) (e : α) : Prop := ∃ x < C, t x = e

/-- Well-formed tables: unique keys, and no gap between an entry and its home. -/
structure WellFormed (C : ℕ) (home : α → ℕ) (key : α → κ) (t : ℕ → α) : Prop where
  inj : ∀ x < C, ∀ y < C, t x ≠ 0 → t y ≠ 0 → key (t x) = key (t y) → x = y
  reach : ∀ x < C, t x ≠ 0 → ∀ i < C,
    fwd C (home (t x)) i < fwd C (home (t x)) x → t i ≠ 0

/-- What a finished walk from `i` has seen. -/
structure Stopped (C : ℕ) (t : ℕ → α) (p : α → Bool) (i j : ℕ) : Prop where
  lt : j < C
  stop : t j = 0 ∨ p (t j) = true
  passed : ∀ x < C, fwd C i x < fwd C i j → t x ≠ 0 ∧ p (t x) = false

theorem walk_spec [DecidableEq α] {C : ℕ} {t : ℕ → α} {p : α → Bool} {z : ℕ} (hz : z < C) (hz0 : t z = 0)
    (fuel i : ℕ) (hi : i < C) (hf : fwd C i z < fuel) :
    ∃ j, walk C t p fuel i = some j ∧ Stopped C t p i j := by
  induction fuel generalizing i with
  | zero => omega
  | succ fuel ih =>
      by_cases h0 : t i = 0
      · exact ⟨i, by simp [walk, h0], hi, .inl h0, fun x _ hx => by simp at hx⟩
      · cases hp : p (t i) with
        | true => exact ⟨i, by simp [walk, h0, hp], hi, .inr hp, fun x _ hx => by simp at hx⟩
        | false =>
            have hiz : i ≠ z := fun h => h0 (h ▸ hz0)
            have hd := fwd_next_left hi hz hiz
            obtain ⟨j, hj, hs⟩ := ih (next C i) (next_lt hi) (by omega)
            refine ⟨j, by simp [walk, h0, hp, hj], hs.lt, hs.stop, fun x hx hxj => ?_⟩
            by_cases hxi : x = i
            · subst x; exact ⟨h0, hp⟩
            · have hjx := fwd_next_left hi hx (Ne.symm hxi)
              have hij : i ≠ j := by rintro rfl; simp at hxj
              have hjj := fwd_next_left hi hs.lt hij
              exact hs.passed x hx (by omega)

/-- The walk that looks for a key stops at its entry, or at an empty cell when
the key is absent. -/
theorem stopped_key {C : ℕ} {home : α → ℕ} {key : α → κ} [DecidableEq κ] {t : ℕ → α}
    (hw : WellFormed C home key t) {k : κ} {i j : ℕ} (hi : i < C)
    (hhome : ∀ e, key e = k → home e = i)
    (hs : Stopped C t (fun e => decide (key e = k)) i j) :
    (t j ≠ 0 → key (t j) = k) ∧
      ∀ x < C, t x ≠ 0 → key (t x) = k → x = j := by
  have hkey : t j ≠ 0 → key (t j) = k := by
    intro h0
    rcases hs.stop with h | h
    · exact absurd h h0
    · simpa using h
  refine ⟨hkey, fun x hx hx0 hxk => ?_⟩
  by_cases h0 : t j = 0
  · by_contra hxj
    have hhx := hhome _ hxk
    rcases lt_trichotomy (fwd C i x) (fwd C i j) with h | h | h
    · exact absurd hxk (by simpa using (hs.passed x hx h).2)
    · exact hxj (fwd_inj hi hx hs.lt h)
    · exact hw.reach x hx hx0 j hs.lt (by rwa [hhx]) h0
  · exact hw.inj x hx j hs.lt hx0 h0 (hxk.trans (hkey h0).symm)

/-- Writing a fresh key at the first empty cell of its probe run. -/
theorem WellFormed.insert {C : ℕ} {home : α → ℕ} {key : α → κ} {t : ℕ → α}
    (hw : WellFormed C home key t) {e : α} {j : ℕ}
    (hfresh : ∀ x < C, t x ≠ 0 → key (t x) ≠ key e)
    (hs : Stopped C t (fun _ => false) (home e) j) :
    WellFormed C home key (Function.update t j e) := by
  have h0 : t j = 0 := by simpa using hs.stop
  constructor
  · intro x hx y hy hx0 hy0 hk
    by_cases hxj : x = j
    · subst x
      by_contra hyx
      rw [Function.update_self, Function.update_of_ne (Ne.symm hyx)] at hk
      rw [Function.update_of_ne (Ne.symm hyx)] at hy0
      exact hfresh y hy hy0 hk.symm
    · rw [Function.update_of_ne hxj] at hx0 hk
      by_cases hyj : y = j
      · subst y
        rw [Function.update_self] at hk
        exact absurd hk (hfresh x hx hx0)
      · rw [Function.update_of_ne hyj] at hy0 hk
        exact hw.inj x hx y hy hx0 hy0 hk
  · intro x hx hx0 i hi hd
    by_cases hxj : x = j
    · subst x
      rw [Function.update_self] at hx0 hd
      by_cases hij : i = j
      · subst i; simpa using hx0
      · rw [Function.update_of_ne hij]
        exact (hs.passed i hi hd).1
    · rw [Function.update_of_ne hxj] at hx0 hd
      have hi0 := hw.reach x hx hx0 i hi hd
      by_cases hij : i = j
      · subst i; exact absurd h0 hi0
      · rwa [Function.update_of_ne hij]

lemma holds_update {C : ℕ} {t : ℕ → α} {j : ℕ} {e : α} (hj : j < C) (h0 : t j = 0)
    {a : α} (ha : a ≠ 0) :
    Holds C (Function.update t j e) a ↔ a = e ∨ Holds C t a := by
  constructor
  · rintro ⟨x, hx, hxa⟩
    by_cases hxj : x = j
    · subst x; left; simpa using hxa.symm
    · rw [Function.update_of_ne hxj] at hxa
      exact .inr ⟨x, hx, hxa⟩
  · rintro (rfl | ⟨x, hx, hxa⟩)
    · exact ⟨j, hj, by simp⟩
    · refine ⟨x, hx, ?_⟩
      have hxj : x ≠ j := by rintro rfl; exact ha (hxa ▸ h0)
      rwa [Function.update_of_ne hxj]

/-- The invariant of the backward shift. Away from `hole` the table is well
formed, except that a probe run may cross `hole` itself; the cells already
scanned since `hole` are occupied by entries whose run does not cross it. The
empty cell `z` ahead of `j` ends the walk. -/
structure ShiftInv (C : ℕ) (home : α → ℕ) (key : α → κ) (t : ℕ → α) (hole j z : ℕ) : Prop where
  hole_lt : hole < C
  j_lt : j < C
  z_lt : z < C
  empty : t z = 0
  hole_z : hole ≠ z
  ahead : fwd C hole j ≤ fwd C hole z
  j_pos : 0 < fwd C hole j
  inj : ∀ x < C, ∀ y < C, x ≠ hole → y ≠ hole → t x ≠ 0 → t y ≠ 0 →
    key (t x) = key (t y) → x = y
  reach : ∀ x < C, x ≠ hole → t x ≠ 0 → ∀ i < C, i ≠ hole →
    fwd C (home (t x)) i < fwd C (home (t x)) x → t i ≠ 0
  scanned : ∀ x < C, 0 < fwd C hole x → fwd C hole x < fwd C hole j →
    t x ≠ 0 ∧ fwd C (home (t x)) x < fwd C (home (t x)) hole

namespace ShiftInv
variable {C : ℕ} {home : α → ℕ} {key : α → κ} {t : ℕ → α} {hole j z : ℕ}

lemma ne_hole (h : ShiftInv C home key t hole j z) : j ≠ hole := by
  rintro rfl
  simpa using h.j_pos

lemma lt_z (h : ShiftInv C home key t hole j z) (h0 : t j ≠ 0) :
    fwd C hole j < fwd C hole z := by
  refine lt_of_le_of_ne h.ahead fun he => h0 ?_
  rw [fwd_inj h.hole_lt h.j_lt h.z_lt he, h.empty]

lemma next_ne_hole (h : ShiftInv C home key t hole j z) (h0 : t j ≠ 0) :
    next C j ≠ hole := by
  have hlt := h.lt_z h0
  have hj := h.j_lt
  have hz := h.z_lt
  have hh := h.hole_lt
  simp only [fwd, next] at *
  split_ifs at * <;> omega

/-- The candidate is empty: the run has ended and the hole may be cleared. -/
lemma finish (h : ShiftInv C home key t hole j z) (hhome : ∀ e, home e < C) (h0 : t j = 0) :
    WellFormed C home key (Function.update t hole 0) := by
  constructor
  · intro x hx y hy hx0 hy0 hk
    have hxh : x ≠ hole := by rintro rfl; simp at hx0
    have hyh : y ≠ hole := by rintro rfl; simp at hy0
    rw [Function.update_of_ne hxh] at hx0 hk
    rw [Function.update_of_ne hyh] at hy0 hk
    exact h.inj x hx y hy hxh hyh hx0 hy0 hk
  · intro x hx hx0 i hi hd
    have hxh : x ≠ hole := by rintro rfl; simp at hx0
    rw [Function.update_of_ne hxh] at hx0 hd
    by_cases hih : i = hole
    · -- A run that crosses the hole either was scanned, or also crosses `j`.
      subst i
      exfalso
      have hpos := fwd_pos h.hole_lt (Ne.symm hxh)
      have hxj : x ≠ j := by rintro rfl; exact hx0 h0
      rcases lt_trichotomy (fwd C hole x) (fwd C hole j) with hlt | heq | hgt
      · exact absurd (h.scanned x hx hpos hlt).2 (by omega)
      · exact hxj (fwd_inj h.hole_lt hx h.j_lt heq)
      · have hj := fwd_between (hhome _) h.hole_lt h.j_lt hx hd hgt
        exact h.reach x hx hxh hx0 j h.j_lt h.ne_hole hj h0
    · rw [Function.update_of_ne hih]
      exact h.reach x hx hxh hx0 i hi hih hd

/-- The candidate may fill the hole: its cell becomes the new hole. -/
lemma move (h : ShiftInv C home key t hole j z) (hhome : ∀ e, home e < C) (h0 : t j ≠ 0)
    (hle : fwd C (home (t j)) hole ≤ fwd C (home (t j)) j) :
    ShiftInv C home key (Function.update t hole (t j)) j (next C j) z := by
  have hjh := h.ne_hole
  have hjz : j ≠ z := fun e => h0 (e ▸ h.empty)
  have hC : 1 < C := by have := h.hole_lt; have := h.j_lt; omega
  have hnext := fwd_next_self hC h.j_lt
  have hlt : fwd C (home (t j)) hole < fwd C (home (t j)) j :=
    lt_of_le_of_ne hle fun he => hjh (fwd_inj (hhome _) h.j_lt h.hole_lt he.symm)
  have hz := fwd_pos h.j_lt hjz
  refine ⟨h.j_lt, next_lt h.j_lt, h.z_lt, ?_, hjz, by omega, by omega, ?_, ?_, ?_⟩
  · rw [Function.update_of_ne (Ne.symm h.hole_z), h.empty]
  · intro x hx y hy hxj hyj hx0 hy0 hk
    by_cases hxh : x = hole <;> by_cases hyh : y = hole
    · rw [hxh, hyh]
    · subst x
      rw [Function.update_self, Function.update_of_ne hyh] at hk
      rw [Function.update_of_ne hyh] at hy0
      exact absurd (h.inj j h.j_lt y hy hjh hyh h0 hy0 hk).symm hyj
    · subst y
      rw [Function.update_self, Function.update_of_ne hxh] at hk
      rw [Function.update_of_ne hxh] at hx0
      exact absurd (h.inj x hx j h.j_lt hxh hjh hx0 h0 hk) hxj
    · rw [Function.update_of_ne hxh] at hx0 hk
      rw [Function.update_of_ne hyh] at hy0 hk
      exact h.inj x hx y hy hxh hyh hx0 hy0 hk
  · intro x hx hxj hx0 i hi hij hd
    by_cases hih : i = hole
    · subst i; simpa using h0
    · rw [Function.update_of_ne hih]
      by_cases hxh : x = hole
      · subst x
        rw [Function.update_self] at hd
        exact h.reach j h.j_lt hjh h0 i hi hih (hd.trans hlt)
      · rw [Function.update_of_ne hxh] at hx0 hd
        exact h.reach x hx hxh hx0 i hi hih hd
  · intro x hx hpos hlt'
    omega

/-- The candidate stays: its run does not cross the hole. -/
lemma keep (h : ShiftInv C home key t hole j z) (h0 : t j ≠ 0)
    (hgt : fwd C (home (t j)) j < fwd C (home (t j)) hole) :
    ShiftInv C home key t hole (next C j) z := by
  have hnext := fwd_next_right h.hole_lt (h.next_ne_hole h0)
  have hlt := h.lt_z h0
  refine ⟨h.hole_lt, next_lt h.j_lt, h.z_lt, h.empty, h.hole_z, by omega, by omega,
    h.inj, h.reach, fun x hx hpos hxlt => ?_⟩
  by_cases hxj : x = j
  · subst x; exact ⟨h0, hgt⟩
  · have hne : fwd C hole x ≠ fwd C hole j := fun he => hxj (fwd_inj h.hole_lt hx h.j_lt he)
    exact h.scanned x hx hpos (by omega)

end ShiftInv

/-- The shift terminates, restores well-formedness and drops the hole only. -/
theorem shift_spec [DecidableEq α] {C : ℕ} {home : α → ℕ} {key : α → κ} (hhome : ∀ e, home e < C)
    (fuel : ℕ) (t : ℕ → α) (hole j z : ℕ) (h : ShiftInv C home key t hole j z)
    (hf : fwd C j z < fuel) :
    ∃ t', shift C home fuel t hole j = some t' ∧ WellFormed C home key t' ∧
      ∀ e ≠ 0, Holds C t' e ↔ ∃ x < C, x ≠ hole ∧ t x = e := by
  induction fuel generalizing t hole j with
  | zero => omega
  | succ fuel ih =>
      by_cases h0 : t j = 0
      · refine ⟨Function.update t hole 0, by simp [shift, h0], h.finish hhome h0, fun e he => ?_⟩
        constructor
        · rintro ⟨x, hx, hxe⟩
          have hxh : x ≠ hole := by rintro rfl; exact he (by simpa using hxe.symm)
          exact ⟨x, hx, hxh, by rwa [Function.update_of_ne hxh] at hxe⟩
        · rintro ⟨x, hx, hxh, hxe⟩
          exact ⟨x, hx, by rwa [Function.update_of_ne hxh]⟩
      · have hjz : j ≠ z := fun e => h0 (e ▸ h.empty)
        have hd := fwd_next_left h.j_lt h.z_lt hjz
        by_cases hle : fwd C (home (t j)) hole ≤ fwd C (home (t j)) j
        · obtain ⟨t', ht', hw, hc⟩ := ih _ _ _ (h.move hhome h0 hle) (by omega)
          refine ⟨t', by simp [shift, h0, hle, ht'], hw, fun e he => (hc e he).trans ?_⟩
          constructor
          · rintro ⟨x, hx, hxj, hxe⟩
            by_cases hxh : x = hole
            · subst x
              exact ⟨j, h.j_lt, h.ne_hole, by simpa using hxe⟩
            · exact ⟨x, hx, hxh, by rwa [Function.update_of_ne hxh] at hxe⟩
          · rintro ⟨x, hx, hxh, hxe⟩
            by_cases hxj : x = j
            · subst x
              exact ⟨hole, h.hole_lt, Ne.symm h.ne_hole, by simpa using hxe⟩
            · exact ⟨x, hx, hxj, by rwa [Function.update_of_ne hxh]⟩
        · obtain ⟨t', ht', hw, hc⟩ := ih _ _ _ (h.keep h0 (not_le.mp hle)) (by omega)
          exact ⟨t', by simp [shift, h0, hle, ht'], hw, hc⟩

/-- Start of a deletion: the entry at `hole` is about to go. -/
theorem WellFormed.shiftInv {C : ℕ} {home : α → ℕ} {key : α → κ} {t : ℕ → α}
    (hw : WellFormed C home key t) {hole z : ℕ} (hh : hole < C) (hz : z < C)
    (h0 : t hole ≠ 0) (hz0 : t z = 0) :
    ShiftInv C home key t hole (next C hole) z := by
  have hne : hole ≠ z := fun e => h0 (e ▸ hz0)
  have hC : 1 < C := by omega
  have hnext := fwd_next_self hC hh
  have hpos := fwd_pos hh hne
  exact ⟨hh, next_lt hh, hz, hz0, hne, by omega, by omega,
    fun x hx y hy _ _ => hw.inj x hx y hy,
    fun x hx _ hx0 i hi _ => hw.reach x hx hx0 i hi,
    fun x _ h1 h2 => by omega⟩

/-- Fewer live keys than cells leave a cell empty. -/
theorem WellFormed.exists_empty {C : ℕ} {home : α → ℕ} {key : α → κ} [DecidableEq κ]
    {t : ℕ → α} (hw : WellFormed C home key t) (live : Finset κ)
    (hlive : ∀ x < C, t x ≠ 0 → key (t x) ∈ live) (hcard : live.card < C) :
    ∃ z < C, t z = 0 := by
  by_contra hfull
  push Not at hfull
  have hle : (Finset.range C).card ≤ live.card := by
    apply Finset.card_le_card_of_injOn (fun x => key (t x))
    · intro x hx
      have hx' := Finset.mem_range.mp hx
      exact hlive x hx' (hfull x hx')
    · intro x hx y hy hk
      simp only [Finset.coe_range, Set.mem_Iio] at hx hy
      exact hw.inj x hx y hy (hfull x hx) (hfull y hy) hk
  rw [Finset.card_range] at hle
  omega

/-- The empty table is well formed. -/
theorem wellFormed_empty (C : ℕ) (home : α → ℕ) (key : α → κ) :
    WellFormed C home key (fun _ => (0 : α)) :=
  ⟨fun _ _ _ _ h => absurd rfl h, fun _ _ h => absurd rfl h⟩

end LinearProbing
