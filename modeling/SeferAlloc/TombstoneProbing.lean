import SeferAlloc.LinearProbing

/-!
# Linear probing with tombstones

The keys of a ring of cells, with `0` for a cell that was never used and `dead`
for a cell whose key was removed. A removal leaves the marker behind, so that
every cell between a key and its home has been used. A search walks to the key
or to the first unused cell; an insertion also remembers the first marker that
it passes and puts the key there.
-/
namespace TombstoneProbing
open LinearProbing

variable {α : Type*} [Zero α] [DecidableEq α]

/-- A key of the table, and not one of the two markers. -/
def IsLive (dead a : α) : Bool := decide (a ≠ 0) && decide (a ≠ dead)

/-- Keys are in one cell each, and every cell between a key and its home has been used. -/
structure WellFormed (C : ℕ) (home : α → ℕ) (dead : α) (t : ℕ → α) : Prop where
  inj : ∀ x < C, ∀ y < C, IsLive dead (t x) = true → t x = t y → x = y
  reach : ∀ x < C, IsLive dead (t x) = true → ∀ i < C,
    fwd C (home (t x)) i < fwd C (home (t x)) x → t i ≠ 0

/-- Where an insertion of `k` ends: at the key, or at the cell for it. -/
def insertWalk (C : ℕ) (t : ℕ → α) (dead k : α) : ℕ → ℕ → Option ℕ → Option (ℕ ⊕ ℕ)
  | 0, _, _ => none
  | fuel + 1, i, free =>
      if t i = 0 then some (.inr (free.getD i))
      else if t i = dead then insertWalk C t dead k fuel (next C i) (free.orElse fun _ => some i)
      else if t i = k then some (.inl i)
      else insertWalk C t dead k fuel (next C i) free

variable {C : ℕ} {home : α → ℕ} {dead : α} {t : ℕ → α} {k : α} {i j : ℕ}

lemma isLive_iff {a : α} : IsLive dead a = true ↔ a ≠ 0 ∧ a ≠ dead := by
  simp [IsLive]

lemma wellFormed_empty : WellFormed C home dead (fun _ => 0) where
  inj x _ y _ h _ := absurd rfl (isLive_iff.mp h).1
  reach x _ h := absurd rfl (isLive_iff.mp h).1

/-- A search that starts at home finds the key, or the table does not hold it. -/
theorem stopped_key (h : WellFormed C home dead t) (hhome : home k < C)
    (hk : IsLive dead k = true) (hs : Stopped C t (fun a => decide (a = k)) (home k) j) :
    t j = k ∨ (t j = 0 ∧ ∀ x < C, t x ≠ k) := by
  rcases hs.stop with h0 | hp
  · right
    refine ⟨h0, fun x hx hxk => ?_⟩
    have hlive : IsLive dead (t x) = true := hxk ▸ hk
    rcases lt_trichotomy (fwd C (home k) x) (fwd C (home k) j) with hlt | heq | hgt
    · exact absurd hxk (by simpa using (hs.passed x hx hlt).2)
    · obtain rfl := fwd_inj hhome hx hs.lt heq
      exact (isLive_iff.mp hlive).1 h0
    · exact h.reach x hx hlive j hs.lt (by rwa [hxk]) h0
  · left
    simpa using hp

/-- A free cell that the search for a fresh key reached takes the key. -/
theorem WellFormed.put (h : WellFormed C home dead t) (hk : IsLive dead k = true)
    (hfresh : ∀ x < C, t x ≠ k)
    (hpath : ∀ x < C, fwd C (home k) x < fwd C (home k) i → t x ≠ 0) :
    WellFormed C home dead (Function.update t i k) := by
  have hused : ∀ x, t x ≠ 0 → Function.update t i k x ≠ 0 := by
    intro x hx
    by_cases hxi : x = i
    · rw [hxi, Function.update_self]
      exact (isLive_iff.mp hk).1
    · rwa [Function.update_of_ne hxi]
  constructor
  · intro x hx y hy hlive hxy
    by_cases hxi : x = i <;> by_cases hyi : y = i
    · rw [hxi, hyi]
    · rw [hxi, Function.update_self, Function.update_of_ne hyi] at hxy
      exact absurd hxy.symm (hfresh y hy)
    · rw [hyi, Function.update_self, Function.update_of_ne hxi] at hxy
      exact absurd hxy (hfresh x hx)
    · rw [Function.update_of_ne hxi] at hlive hxy
      rw [Function.update_of_ne hyi] at hxy
      exact h.inj x hx y hy hlive hxy
  · intro x hx hlive y hy hfwd
    apply hused
    by_cases hxi : x = i
    · subst hxi
      rw [Function.update_self] at hfwd
      exact hpath y hy hfwd
    · rw [Function.update_of_ne hxi] at hlive hfwd
      exact h.reach x hx hlive y hy hfwd

/-- A key gives way to the marker. -/
theorem WellFormed.bury (h : WellFormed C home dead t) (hdead : dead ≠ 0) (i : ℕ) :
    WellFormed C home dead (Function.update t i dead) := by
  have hlive : ∀ x, IsLive dead (Function.update t i dead x) = true → x ≠ i := by
    rintro x hx rfl
    rw [Function.update_self] at hx
    exact (isLive_iff.mp hx).2 rfl
  constructor
  · intro x hx y hy hx' hxy
    have hxi := hlive x hx'
    have hyi := hlive y (hxy ▸ hx')
    rw [Function.update_of_ne hxi] at hx' hxy
    rw [Function.update_of_ne hyi] at hxy
    exact h.inj x hx y hy hx' hxy
  · intro x hx hx' y hy hfwd
    have hxi := hlive x hx'
    rw [Function.update_of_ne hxi] at hx' hfwd
    by_cases hyi : y = i
    · rw [hyi, Function.update_self]
      exact hdead
    · rw [Function.update_of_ne hyi]
      exact h.reach x hx hx' y hy hfwd

/-- What a cell chosen on the way from `i` to `j` is: the end, or the first marker before it. -/
def Chosen (C : ℕ) (t : ℕ → α) (dead : α) (i j a : ℕ) : Prop :=
  a = j ∨ (a < C ∧ t a = dead ∧ fwd C i a < fwd C i j)

/-- An unused cell ends the insertion's walk: at the key where the search finds it, and else at a
free cell on its way. -/
theorem insertWalk_spec {z : ℕ} (hz : z < C) (hz0 : t z = 0) (hk : IsLive dead k = true)
    (fuel i : ℕ) (free : Option ℕ) (hi : i < C) (hf : fwd C i z < fuel) :
    ∃ j, Stopped C t (fun a => decide (a = k)) i j ∧
      (t j = k → insertWalk C t dead k fuel i free = some (.inl j)) ∧
      (t j = 0 → ∃ a, insertWalk C t dead k fuel i free = some (.inr a) ∧
        (free = some a ∨ free = none ∧ Chosen C t dead i j a)) := by
  obtain ⟨hk0, hkd⟩ := isLive_iff.mp hk
  induction fuel generalizing i free with
  | zero => omega
  | succ fuel ih =>
    by_cases h0 : t i = 0
    · refine ⟨i, ⟨hi, .inl h0, fun x _ hx => by simp at hx⟩,
        fun h => absurd (h.symm.trans h0) hk0, fun _ => ⟨free.getD i, ?_, ?_⟩⟩
      · rw [insertWalk, if_pos h0]
      · cases free with
        | none => exact .inr ⟨rfl, .inl rfl⟩
        | some a => exact .inl rfl
    · by_cases hik : t i = k
      · refine ⟨i, ⟨hi, .inr (by simpa using hik), fun x _ hx => by simp at hx⟩, fun _ => ?_,
          fun h => absurd h h0⟩
        rw [insertWalk, if_neg h0, if_neg (fun h => hkd (hik.symm.trans h)), if_pos hik]
      · have hiz : i ≠ z := fun h => h0 (h ▸ hz0)
        have hd := fwd_next_left hi hz hiz
        have extend : ∀ j, Stopped C t (fun a => decide (a = k)) (next C i) j → i ≠ j →
            Stopped C t (fun a => decide (a = k)) i j := by
          intro j hs hij
          have hjj := fwd_next_left hi hs.lt hij
          refine ⟨hs.lt, hs.stop, fun x hx hxj => ?_⟩
          by_cases hxi : x = i
          · subst hxi
            exact ⟨h0, by simpa using hik⟩
          · have hjx := fwd_next_left hi hx (Ne.symm hxi)
            exact hs.passed x hx (by omega)
        have hne : ∀ j, Stopped C t (fun a => decide (a = k)) (next C i) j → i ≠ j := by
          rintro j hs rfl
          rcases hs.stop with h | h
          · exact h0 h
          · exact hik (by simpa using h)
        have further : ∀ j a, Stopped C t (fun a => decide (a = k)) (next C i) j →
            Chosen C t dead (next C i) j a → Chosen C t dead i j a := by
          rintro j a hs (ha | ⟨ha, had, hlt⟩)
          · exact .inl ha
          · have hjj := fwd_next_left hi hs.lt (hne j hs)
            by_cases hai : a = i
            · subst hai
              exact .inr ⟨ha, had, by rw [fwd_self]; omega⟩
            · have hja := fwd_next_left hi ha (Ne.symm hai)
              exact .inr ⟨ha, had, by omega⟩
        by_cases hid : t i = dead
        · obtain ⟨j, hs, hfound, hfree⟩ :=
            ih (next C i) (free.orElse fun _ => some i) (next_lt hi) (by omega)
          refine ⟨j, extend j hs (hne j hs), ?_, ?_⟩
          · intro hj
            rw [insertWalk, if_neg h0, if_pos hid, hfound hj]
          · intro hj
            obtain ⟨a, ha, hchosen⟩ := hfree hj
            refine ⟨a, by rw [insertWalk, if_neg h0, if_pos hid, ha], ?_⟩
            cases free with
            | some b =>
              left
              simpa using hchosen
            | none =>
              have hai : i = a := by simpa using hchosen
              right
              refine ⟨rfl, .inr ⟨hai ▸ hi, hai ▸ hid, ?_⟩⟩
              have hjj := fwd_next_left hi hs.lt (hne j hs)
              rw [← hai, fwd_self]
              omega
        · obtain ⟨j, hs, hfound, hfree⟩ := ih (next C i) free (next_lt hi) (by omega)
          refine ⟨j, extend j hs (hne j hs), ?_, ?_⟩
          · intro hj
            rw [insertWalk, if_neg h0, if_neg hid, if_neg hik, hfound hj]
          · intro hj
            obtain ⟨a, ha, hchosen⟩ := hfree hj
            refine ⟨a, by rw [insertWalk, if_neg h0, if_neg hid, if_neg hik, ha], ?_⟩
            exact hchosen.imp_right fun ⟨hn, hc⟩ => ⟨hn, further j a hs hc⟩

/-- The cells before a chosen one have been used. -/
lemma Chosen.path {a : ℕ} (h : Chosen C t dead i j a)
    (hs : Stopped C t (fun a => decide (a = k)) i j) :
    ∀ x < C, fwd C i x < fwd C i a → t x ≠ 0 := by
  intro x hx hlt
  rcases h with rfl | ⟨-, -, hltj⟩
  · exact (hs.passed x hx hlt).1
  · exact (hs.passed x hx (by omega)).1

end TombstoneProbing
