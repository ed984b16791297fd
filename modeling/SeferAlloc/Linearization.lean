import SeferAlloc.Interleaving
import Mathlib.Data.List.Pairwise
import Mathlib.Data.List.Nodup
import Mathlib.Tactic.Common

/-!
# Points of operations

Actors perform operations of several turns on a shared object. Every turn takes
a time, and one turn of an operation, its point, writes its event to a log. Then
the log is an order of the events in which every operation lies between its
call and its return, and in which no entry belongs to two operations.
-/
namespace Interleaving

/-- A finished operation and its event, with the times of its call, its point and its return. -/
structure Finished (O E : Type*) where
  op : O
  event : E
  called : ℕ
  point : ℕ
  returned : ℕ

/-- How far an actor's current operation is: called at `t`, and decided at `p`. -/
inductive Stage (O E : Type*) where
  | idle
  | called (o : O) (t : ℕ)
  | decided (o : O) (e : E) (t p : ℕ)

/-- How a system shows its clock, its log (latest event first) and the operations of an actor;
`op e` is the operation that `e` is an event of. -/
structure Clocked (σ L O E : Type*) where
  clock : σ → ℕ
  log : σ → List (ℕ × E)
  op : E → O
  stage : L → Stage O E
  done : L → List (Finished O E)

def Stage.points {O E : Type*} : Stage O E → List ℕ
  | .decided _ _ _ p => [p]
  | _ => []

namespace Clocked
variable {ι σ L κ O E : Type*} (v : Clocked σ L O E)

/-- The points of an actor's operations. -/
def points (l : L) : List ℕ := (v.stage l).points ++ (v.done l).map (·.point)

/-- What one turn may do. -/
inductive Turn (x x' : σ) (l l' : L) : Prop
  | quiet (hlog : v.log x' = v.log x) (hstage : v.stage l' = v.stage l)
      (hdone : v.done l' = v.done l)
  | call (o : O) (hstage : v.stage l = .idle) (hstage' : v.stage l' = .called o (v.clock x))
      (hlog : v.log x' = v.log x) (hdone : v.done l' = v.done l)
  | decide (e : E) (t : ℕ) (hstage : v.stage l = .called (v.op e) t)
      (hstage' : v.stage l' = .decided (v.op e) e t (v.clock x))
      (hlog : v.log x' = (v.clock x, e) :: v.log x) (hdone : v.done l' = v.done l)
  | finish (o : O) (e : E) (t p : ℕ) (hstage : v.stage l = .decided o e t p)
      (hstage' : v.stage l' = .idle) (hlog : v.log x' = v.log x)
      (hdone : v.done l' = ⟨o, e, t, p, v.clock x⟩ :: v.done l)

/-- The log orders the operations, each at its point. -/
structure Linearized (w : World ι σ L) : Prop where
  past : ∀ q ∈ v.log w.shared, q.1 < v.clock w.shared
  sorted : (v.log w.shared).Pairwise fun q r => r.1 < q.1
  finished : ∀ i, ∀ f ∈ v.done (w.loc i), v.op f.event = f.op ∧
    (f.point, f.event) ∈ v.log w.shared ∧
    f.called < f.point ∧ f.point < f.returned ∧ f.returned < v.clock w.shared
  decided : ∀ i o e t p, v.stage (w.loc i) = .decided o e t p →
    v.op e = o ∧ (p, e) ∈ v.log w.shared ∧ t < p
  called : ∀ i o t, v.stage (w.loc i) = .called o t → t < v.clock w.shared
  nodup : ∀ i, (v.points (w.loc i)).Nodup
  apart : ∀ i j, i ≠ j → ∀ p ∈ v.points (w.loc i), p ∉ v.points (w.loc j)
  covered : ∀ q ∈ v.log w.shared, ∃ i, q.1 ∈ v.points (w.loc i)

variable {v} {w : World ι σ L}

/-- Every point is in the log. -/
lemma Linearized.point_mem (h : v.Linearized w) {i : ι} {p : ℕ} (hp : p ∈ v.points (w.loc i)) :
    ∃ e, (p, e) ∈ v.log w.shared := by
  simp only [points, List.mem_append, List.mem_map] at hp
  obtain hp | ⟨f, hf, rfl⟩ := hp
  · cases hs : v.stage (w.loc i) with
    | idle | called => simp [hs, Stage.points] at hp
    | decided o e t q =>
        simp only [hs, Stage.points, List.mem_singleton] at hp
        subst hp
        exact ⟨e, (h.decided i o e t p hs).2.1⟩
  · exact ⟨f.event, (h.finished i f hf).2.1⟩

/-- A turn leaves the actor its points, and a decision adds the time of the turn. -/
lemma Turn.points_eq {x x' : σ} {l l' : L} (ht : v.Turn x x' l l') :
    ((v.points l').Perm (v.points l) ∧ v.log x' = v.log x) ∨
      (v.points l' = v.clock x :: v.points l ∧ ∃ e, v.log x' = (v.clock x, e) :: v.log x) := by
  cases ht with
  | quiet hlog hstage hdone =>
      left
      rw [points, points, hstage, hdone]
      exact ⟨List.Perm.refl _, hlog⟩
  | call o hstage hstage' hlog hdone =>
      left
      rw [points, points, hstage, hstage', hdone]
      exact ⟨List.Perm.refl _, hlog⟩
  | decide e t hstage hstage' hlog hdone =>
      right
      rw [points, points, hstage, hstage', hdone]
      exact ⟨rfl, e, hlog⟩
  | finish o e t p hstage hstage' hlog hdone =>
      left
      rw [points, points, hstage, hstage', hdone]
      exact ⟨List.Perm.refl _, hlog⟩

/-- The log only grows, and by an event of the time of the turn. -/
lemma Turn.log_mem {x x' : σ} {l l' : L} (ht : v.Turn x x' l l') :
    (∀ q ∈ v.log x, q ∈ v.log x') ∧ ∀ q ∈ v.log x', q ∈ v.log x ∨ q.1 = v.clock x := by
  obtain ⟨-, hlog⟩ | ⟨-, e, hlog⟩ := ht.points_eq
  · rw [hlog]
    exact ⟨fun _ => id, fun _ => .inl⟩
  · rw [hlog]
    refine ⟨fun q hq => List.mem_cons_of_mem _ hq, fun q hq => ?_⟩
    obtain rfl | hq := List.mem_cons.mp hq
    · exact .inr rfl
    · exact .inl hq

/-- Points lie before the present time. -/
lemma Linearized.point_lt (h : v.Linearized w) {i : ι} {p : ℕ} (hp : p ∈ v.points (w.loc i)) :
    p < v.clock w.shared := by
  obtain ⟨e, he⟩ := h.point_mem hp
  exact h.past _ he

/-- Nothing is finished or decided before anything is called. -/
lemma linearized_init (hlog : v.log w.shared = []) (hstage : ∀ i, v.stage (w.loc i) = .idle)
    (hdone : ∀ i, v.done (w.loc i) = []) : v.Linearized w := by
  have hp : ∀ i, v.points (w.loc i) = [] := by
    intro i
    rw [points, hstage, hdone]
    rfl
  constructor <;> simp [hlog, hstage, hdone, hp]

section Step
variable [DecidableEq ι] {act : κ → σ → L → σ × L} {i : ι} {c : κ}

/-- A turn keeps the log an order of the operations, when it takes its time. -/
theorem Linearized.step (h : v.Linearized w)
    (ht : v.Turn w.shared (act c w.shared (w.loc i)).1 (w.loc i) (act c w.shared (w.loc i)).2)
    (hclock : v.clock (act c w.shared (w.loc i)).1 = v.clock w.shared + 1) :
    v.Linearized (w.step act i c) := by
  set x' := (act c w.shared (w.loc i)).1 with hx'
  set l' := (act c w.shared (w.loc i)).2 with hl'
  have hshared : (w.step act i c).shared = x' := rfl
  have hself : (w.step act i c).loc i = l' := World.step_loc_self
  obtain ⟨hold, hnew⟩ := ht.log_mem
  -- The points of an actor afterwards are its points before, and perhaps the present time.
  have hpoints : ∀ j p, p ∈ v.points ((w.step act i c).loc j) →
      p ∈ v.points (w.loc j) ∨ (j = i ∧ p = v.clock w.shared) := by
    intro j p hp
    by_cases hj : j = i
    · subst j
      rw [hself] at hp
      obtain ⟨hperm, -⟩ | ⟨heq, -⟩ := ht.points_eq
      · exact .inl (hperm.mem_iff.mp hp)
      · rw [heq, List.mem_cons] at hp
        obtain hp | hp := hp
        · exact .inr ⟨rfl, hp⟩
        · exact .inl hp
    · rw [World.step_loc_of_ne hj] at hp
      exact .inl hp
  have hkeep : ∀ j p, p ∈ v.points (w.loc j) → p ∈ v.points ((w.step act i c).loc j) := by
    intro j p hp
    by_cases hj : j = i
    · subst j
      rw [hself]
      obtain ⟨hperm, -⟩ | ⟨heq, -⟩ := ht.points_eq
      · exact hperm.mem_iff.mpr hp
      · rw [heq]
        exact List.mem_cons_of_mem _ hp
    · rwa [World.step_loc_of_ne hj]
  refine
    { past := fun q hq => ?_, sorted := ?_, finished := ?_, decided := ?_, called := ?_,
      nodup := fun j => ?_, apart := fun j k hjk p hp hp' => ?_, covered := fun q hq => ?_ }
  · rw [hshared] at hq ⊢
    obtain hq | hq := hnew q hq
    · have := h.past q hq
      omega
    · omega
  · rw [hshared]
    obtain ⟨-, hlog⟩ | ⟨-, e, hlog⟩ := ht.points_eq
    · rw [hlog]
      exact h.sorted
    · rw [hlog]
      exact List.pairwise_cons.mpr ⟨h.past, h.sorted⟩
  · rw [hshared]
    intro j f hf
    have old : f ∈ v.done (w.loc j) → v.op f.event = f.op ∧ (f.point, f.event) ∈ v.log x' ∧
        f.called < f.point ∧ f.point < f.returned ∧ f.returned < v.clock x' := by
      intro hf
      obtain ⟨hop, hmem, h₁, h₂, h₃⟩ := h.finished j f hf
      exact ⟨hop, hold _ hmem, h₁, h₂, by omega⟩
    by_cases hj : j = i
    · subst j
      rw [hself] at hf
      cases ht with
      | quiet _ _ hdone | call _ _ _ _ hdone | decide _ _ _ _ _ hdone => exact old (hdone ▸ hf)
      | finish o e t p hstage _ _ hdone =>
          rw [hdone] at hf
          obtain rfl | hf := List.mem_cons.mp hf
          · obtain ⟨hop, hmem, hlt⟩ := h.decided i o e t p hstage
            exact ⟨hop, hold _ hmem, hlt, h.past _ hmem, by simp only; omega⟩
          · exact old hf
    · rw [World.step_loc_of_ne hj] at hf
      exact old hf
  · rw [hshared]
    intro j o e t p hs
    by_cases hj : j = i
    · subst j
      rw [hself] at hs
      cases ht with
      | quiet _ hstage _ =>
          obtain ⟨hop, hmem, hlt⟩ := h.decided i o e t p (hstage ▸ hs)
          exact ⟨hop, hold _ hmem, hlt⟩
      | call _ _ hstage' _ _ | finish _ _ _ _ _ hstage' _ _ => simp [hstage'] at hs
      | decide e' t' hstage hstage' hlog _ =>
          rw [hstage'] at hs
          obtain ⟨rfl, rfl, rfl, rfl⟩ := by simpa using hs
          rw [hlog]
          exact ⟨rfl, List.mem_cons_self, h.called i _ t' hstage⟩
    · rw [World.step_loc_of_ne hj] at hs
      obtain ⟨hop, hmem, hlt⟩ := h.decided j o e t p hs
      exact ⟨hop, hold _ hmem, hlt⟩
  · rw [hshared, hclock]
    intro j o t hs
    by_cases hj : j = i
    · subst j
      rw [hself] at hs
      cases ht with
      | quiet _ hstage _ =>
          have := h.called i o t (hstage ▸ hs)
          omega
      | call o' _ hstage' _ _ =>
          rw [hstage'] at hs
          obtain ⟨rfl, rfl⟩ := by simpa using hs
          omega
      | decide _ _ _ hstage' _ _ | finish _ _ _ _ _ hstage' _ _ => simp [hstage'] at hs
    · rw [World.step_loc_of_ne hj] at hs
      have := h.called j o t hs
      omega
  · by_cases hj : j = i
    · subst j
      rw [hself]
      obtain ⟨hperm, -⟩ | ⟨heq, -⟩ := ht.points_eq
      · exact hperm.nodup_iff.mpr (h.nodup i)
      · rw [heq]
        exact List.nodup_cons.mpr ⟨fun hp => Nat.lt_irrefl _ (h.point_lt hp), h.nodup i⟩
    · rw [World.step_loc_of_ne hj]
      exact h.nodup j
  · obtain hp | ⟨hj, hp⟩ := hpoints j p hp
    · obtain hp' | ⟨-, hp'⟩ := hpoints k p hp'
      · exact h.apart j k hjk p hp hp'
      · have := h.point_lt hp
        omega
    · obtain hp' | ⟨hk, -⟩ := hpoints k p hp'
      · have := h.point_lt hp'
        omega
      · exact hjk (hj.trans hk.symm)
  · rw [hshared] at hq
    obtain ⟨hperm, hlog⟩ | ⟨heq, e, hlog⟩ := ht.points_eq
    · obtain ⟨j, hj⟩ := h.covered q (hlog ▸ hq)
      exact ⟨j, hkeep j _ hj⟩
    · rw [hlog] at hq
      obtain rfl | hq := List.mem_cons.mp hq
      · exact ⟨i, by rw [hself, heq]; exact List.mem_cons_self⟩
      · obtain ⟨j, hj⟩ := h.covered q hq
        exact ⟨j, hkeep j _ hj⟩

end Step

end Clocked

end Interleaving
