import Mathlib.Logic.Function.Basic

/-!
# Interleavings of atomic actions

Any number of actors share one state and take turns; each turn is one atomic
action, resolved by a choice of the environment. The rules below lift facts
about one action to every schedule: assertions each actor keeps about the
shared state, obligations that some actor carries, and resources that have at
most one owner.
-/
namespace Interleaving

/-- The shared state and the local state of every actor. -/
structure World (ι σ L : Type*) where
  shared : σ
  loc : ι → L

variable {ι σ L κ : Type*} [DecidableEq ι]

namespace World

/-- Actor `i` takes the action `act` under the choice `c`. -/
def step (act : κ → σ → L → σ × L) (w : World ι σ L) (i : ι) (c : κ) : World ι σ L where
  shared := (act c w.shared (w.loc i)).1
  loc := Function.update w.loc i (act c w.shared (w.loc i)).2

/-- A schedule names the actor and the choice of every turn. -/
def run (act : κ → σ → L → σ × L) : List (ι × κ) → World ι σ L → World ι σ L
  | [], w => w
  | (i, c) :: rest, w => run act rest (w.step act i c)

variable {act : κ → σ → L → σ × L} {w : World ι σ L} {i : ι} {c : κ}

@[simp] lemma step_loc_self : (w.step act i c).loc i = (act c w.shared (w.loc i)).2 :=
  Function.update_self _ _ _

lemma step_loc_of_ne {j : ι} (h : j ≠ i) : (w.step act i c).loc j = w.loc j :=
  Function.update_of_ne h _ _

lemma run_append (xs ys : List (ι × κ)) (w : World ι σ L) :
    run act (xs ++ ys) w = run act ys (run act xs w) := by
  induction xs generalizing w with
  | nil => rfl
  | cons x xs ih => exact ih _

/-- Who does not act stays where it is. -/
lemma run_loc_of_ne {j : ι} {xs : List (ι × κ)} (h : ∀ x ∈ xs, x.1 ≠ j) :
    (run act xs w).loc j = w.loc j := by
  induction xs generalizing w with
  | nil => rfl
  | cons x xs ih =>
    obtain ⟨hx, hxs⟩ := List.forall_mem_cons.mp h
    exact (ih hxs).trans (step_loc_of_ne hx.symm)

/-- What every action keeps holds along every schedule. -/
theorem run_invariant {I : World ι σ L → Prop} (hstep : ∀ w i c, I w → I (w.step act i c))
    (xs : List (ι × κ)) (h : I w) : I (run act xs w) := by
  induction xs generalizing w with
  | nil => exact h
  | cons x xs ih => exact ih (hstep w x.1 x.2 h)

/-- An assertion of every actor: the acting one re-establishes it, the others' are stable. -/
lemma step_forall {A : σ → L → Prop} (h : ∀ j, A w.shared (w.loc j))
    (own : A (w.step act i c).shared (act c w.shared (w.loc i)).2)
    (rely : ∀ j, j ≠ i → A w.shared (w.loc j) → A (w.step act i c).shared (w.loc j)) :
    ∀ j, A (w.step act i c).shared ((w.step act i c).loc j) := by
  intro j
  by_cases hj : j = i
  · subst j
    rwa [step_loc_self]
  · rw [step_loc_of_ne hj]
    exact rely j hj (h j)

/-- A fact holds of the shared state, or some actor is under way to establish it. -/
def Covered (G : σ → Prop) (C : σ → L → Prop) (w : World ι σ L) : Prop :=
  G w.shared ∨ ∃ j, C w.shared (w.loc j)

/-- Obligations are kept, discharged, or taken over by the acting actor. -/
lemma Covered.step {G : σ → Prop} {C : σ → L → Prop} (h : w.Covered G C)
    (hG : G w.shared → G (w.step act i c).shared ∨
      C (w.step act i c).shared (act c w.shared (w.loc i)).2)
    (hC : C w.shared (w.loc i) → G (w.step act i c).shared ∨
      C (w.step act i c).shared (act c w.shared (w.loc i)).2)
    (rely : ∀ j, j ≠ i → C w.shared (w.loc j) → C (w.step act i c).shared (w.loc j)) :
    (w.step act i c).Covered G C := by
  have self : (G (w.step act i c).shared ∨
      C (w.step act i c).shared (act c w.shared (w.loc i)).2) → (w.step act i c).Covered G C := by
    rintro (hg | hc)
    · exact .inl hg
    · exact .inr ⟨i, by rwa [step_loc_self]⟩
  obtain hg | ⟨j, hj⟩ := h
  · exact self (hG hg)
  · by_cases hji : j = i
    · subst j
      exact self (hC hj)
    · exact .inr ⟨j, by rw [step_loc_of_ne hji]; exact rely j hji hj⟩

/-- Obligations that are carried by a location alone. -/
lemma Covered.step_loc {G : σ → Prop} {C : L → Prop} (h : w.Covered G fun _ => C)
    (keep : G w.shared ∨ C (w.loc i) → G (w.step act i c).shared ∨
      C (act c w.shared (w.loc i)).2) : (w.step act i c).Covered G fun _ => C :=
  Covered.step h (fun hg => keep (.inl hg)) (fun hc => keep (.inr hc)) fun _ _ => id

end World

/-! ## Exclusive ownership -/

/-- `hold` reads off an actor's local state the resource it owns and in which mode;
`view` reads the mode of an owned resource off the shared state. -/
structure Owned {ι σ L S H : Type*} (hold : L → Option (S × H)) (view : σ → S → Option H)
    (w : World ι σ L) : Prop where
  mode : ∀ i s h, hold (w.loc i) = some (s, h) → view w.shared s = some h
  unique : ∀ i j s h h', hold (w.loc i) = some (s, h) → hold (w.loc j) = some (s, h') → i = j
  owner : ∀ s h, view w.shared s = some h → ∃ i, hold (w.loc i) = some (s, h)

/-- What one action may do to the ownership of resources. -/
inductive Move {σ L S H : Type*} [DecidableEq S] (hold : L → Option (S × H))
    (view : σ → S → Option H) (x x' : σ) (l l' : L) : Prop
  | keep (hv : view x' = view x) (hl : hold l' = hold l)
  | acquire (s : S) (h : H) (hl : hold l = none) (hfree : view x s = none)
      (hv : view x' = Function.update (view x) s (some h)) (hl' : hold l' = some (s, h))
  | change (s : S) (h h' : H) (hl : hold l = some (s, h))
      (hv : view x' = Function.update (view x) s (some h')) (hl' : hold l' = some (s, h'))
  | release (s : S) (h : H) (hl : hold l = some (s, h))
      (hv : view x' = Function.update (view x) s none) (hl' : hold l' = none)

section Ownership
variable {ι σ L κ S H : Type*} [DecidableEq S] {hold : L → Option (S × H)}
  {view : σ → S → Option H} {w : World ι σ L} {i : ι}

/-- A move does not disturb what another actor owns. -/
lemma Move.stable {x' : σ} {l' : L} (hm : Move hold view w.shared x' (w.loc i) l')
    (ho : Owned hold view w) {j : ι} (hj : j ≠ i) {s : S} {h : H}
    (hs : hold (w.loc j) = some (s, h)) : view x' s = view w.shared s := by
  have other : ∀ s' h', hold (w.loc i) = some (s', h') → s ≠ s' := by
    rintro s' h' hi rfl
    exact hj (ho.unique j i s h h' hs hi)
  cases hm with
  | keep hv _ => rw [hv]
  | acquire s' h' _ hfree hv _ =>
      have hne : s ≠ s' := by
        rintro rfl
        rw [ho.mode j s h hs] at hfree
        exact Option.some_ne_none h hfree
      rw [hv, Function.update_of_ne hne]
  | change s' h' _ hl hv _ => rw [hv, Function.update_of_ne (other s' h' hl)]
  | release s' h' hl hv _ => rw [hv, Function.update_of_ne (other s' h' hl)]

/-- After a move the actor's own resource shows the actor's mode. -/
lemma Move.mode {x x' : σ} {l l' : L} (hm : Move hold view x x' l l')
    (hmode : ∀ s h, hold l = some (s, h) → view x s = some h) :
    ∀ s h, hold l' = some (s, h) → view x' s = some h := by
  intro s h hs
  cases hm with
  | keep hv hl => rw [hv]; exact hmode s h (hl ▸ hs)
  | acquire s' h' _ _ hv hl' | change s' _ h' _ hv hl' =>
      obtain ⟨rfl, rfl⟩ : s' = s ∧ h' = h := by simpa using hl'.symm.trans hs
      rw [hv, Function.update_self]
  | release s' h' _ _ hl' => simp [hl'] at hs

/-- A resource the actor owns afterwards was free or its own before. -/
lemma Move.origin {x x' : σ} {l l' : L} (hm : Move hold view x x' l l') {s : S} {h : H}
    (hs : hold l' = some (s, h)) : view x s = none ∨ ∃ h', hold l = some (s, h') := by
  cases hm with
  | keep _ hl => exact .inr ⟨h, hl ▸ hs⟩
  | acquire s' h' _ hfree _ hl' =>
      obtain ⟨rfl, rfl⟩ : s' = s ∧ h' = h := by simpa using hl'.symm.trans hs
      exact .inl hfree
  | change s' h' h'' hl _ hl' =>
      obtain ⟨rfl, rfl⟩ : s' = s ∧ h'' = h := by simpa using hl'.symm.trans hs
      exact .inr ⟨h', hl⟩
  | release s' h' _ _ hl' => simp [hl'] at hs

/-- A resource that is owned afterwards belongs to the actor, or was owned before by
somebody else. -/
lemma Move.owner {x x' : σ} {l l' : L} (hm : Move hold view x x' l l') {s : S} {h : H}
    (hs : view x' s = some h) :
    hold l' = some (s, h) ∨ (view x s = some h ∧ ∀ h', hold l ≠ some (s, h')) ∨
      (view x s = some h ∧ hold l' = hold l) := by
  cases hm with
  | keep hv hl => exact .inr (.inr ⟨hv ▸ hs, hl⟩)
  | acquire s' h' hl _ hv hl' =>
      by_cases he : s = s'
      · subst s'
        rw [hv, Function.update_self] at hs
        obtain rfl := Option.some.inj hs
        exact .inl hl'
      · rw [hv, Function.update_of_ne he] at hs
        exact .inr (.inl ⟨hs, by simp [hl]⟩)
  | change s' h₁ h₂ hl hv hl' =>
      by_cases he : s = s'
      · subst s'
        rw [hv, Function.update_self] at hs
        obtain rfl := Option.some.inj hs
        exact .inl hl'
      · rw [hv, Function.update_of_ne he] at hs
        exact .inr (.inl ⟨hs, fun h' hh =>
          he (congrArg Prod.fst (Option.some.inj (hh.symm.trans hl)))⟩)
  | release s' h₁ hl hv hl' =>
      by_cases he : s = s'
      · subst s'
        simp [hv] at hs
      · rw [hv, Function.update_of_ne he] at hs
        exact .inr (.inl ⟨hs, fun h' hh =>
          he (congrArg Prod.fst (Option.some.inj (hh.symm.trans hl)))⟩)

/-- An actor whose action is a move keeps ownership exclusive. -/
theorem Owned.step [DecidableEq ι] {act : κ → σ → L → σ × L} {c : κ} (ho : Owned hold view w)
    (hm : Move hold view w.shared (act c w.shared (w.loc i)).1 (w.loc i)
      (act c w.shared (w.loc i)).2) : Owned hold view (w.step act i c) := by
  have hmode := hm.mode (ho.mode i)
  -- Nobody else owns what the actor ends up with.
  have fresh : ∀ j s h h', j ≠ i → hold (w.loc j) = some (s, h) →
      hold (act c w.shared (w.loc i)).2 = some (s, h') → False := by
    intro j s h h' hj hs hs'
    obtain hnone | ⟨h'', hi⟩ := hm.origin hs'
    · rw [ho.mode j s h hs] at hnone
      exact Option.some_ne_none h hnone
    · exact hj (ho.unique j i s h h'' hs hi)
  refine ⟨fun j s h hs => ?_, fun j k s h h' hs hs' => ?_, fun s h hs => ?_⟩
  · by_cases hj : j = i
    · subst j
      rw [World.step_loc_self] at hs
      exact hmode s h hs
    · rw [World.step_loc_of_ne hj] at hs
      exact (hm.stable ho hj hs).trans (ho.mode j s h hs)
  · by_cases hj : j = i <;> by_cases hk : k = i
    · rw [hj, hk]
    · subst j
      rw [World.step_loc_self] at hs
      rw [World.step_loc_of_ne hk] at hs'
      exact (fresh k s h' h hk hs' hs).elim
    · subst k
      rw [World.step_loc_self] at hs'
      rw [World.step_loc_of_ne hj] at hs
      exact (fresh j s h h' hj hs hs').elim
    · rw [World.step_loc_of_ne hj] at hs
      rw [World.step_loc_of_ne hk] at hs'
      exact ho.unique j k s h h' hs hs'
  · obtain hi | ⟨hv, hne⟩ | ⟨hv, heq⟩ := hm.owner hs
    · exact ⟨i, by rwa [World.step_loc_self]⟩
    · obtain ⟨j, hj⟩ := ho.owner s h hv
      have hji : j ≠ i := by rintro rfl; exact hne h hj
      exact ⟨j, by rwa [World.step_loc_of_ne hji]⟩
    · obtain ⟨j, hj⟩ := ho.owner s h hv
      by_cases hji : j = i
      · subst j
        exact ⟨i, by rw [World.step_loc_self, heq]; exact hj⟩
      · exact ⟨j, by rwa [World.step_loc_of_ne hji]⟩

end Ownership

end Interleaving
