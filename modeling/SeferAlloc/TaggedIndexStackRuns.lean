import SeferAlloc.TaggedIndexStackSteps

/-!
# Runs of the tagged index stack

Any number of threads push to and pop from any number of bindings, in any order
of their accesses. The log stays a legal order of the operations, each of which
takes effect between its call and its return; the heads and the links show what
it says.
-/
namespace SeferAlloc
namespace IndexStack
open TaggedIndex Interleaving StackLog

variable {ι A B : Type*} [DecidableEq B] {S : StackStorage A B}

/-- A thread stands inside its operation. -/
def Thread.Serves (l : Thread B) : Prop :=
  match l.loc with
  | .pushLoad b i | .pushStore b i _ | .pushCas b i _ => l.command = .push b i
  | .popLoad b | .popNext b _ | .popCas b _ _ => l.command = .pop b
  | .respond e _ => l.command = .of e
  | .idle | .panicked => True

/-- What holds of a world between any two turns. -/
structure Invariant (S : StackStorage A B) (w : World ι (Shared A B) (Thread B)) : Prop where
  sound : Sound S w.shared
  assertion : ∀ i, Assertion S w.shared (w.loc i).loc
  serves : ∀ i, (w.loc i).Serves
  owned : Owned (fun l => hold S l.loc) view w
  linearized : operations.Linearized w

lemma Invariant.pushing {w : World ι (Shared A B) (Thread B)} (h : Invariant S w) (i : ι)
    {s : A × ℕ} (hs : hold S (w.loc i).loc = some (s, ())) :
    w.shared.authority s.1 s.2 = .pushing := by
  have := h.owned.mode i s () hs
  unfold view at this
  split_ifs at this with hp
  exact hp

/-- The invariant holds at the start. -/
lemma Invariant.start (link : A → ℕ → ℕ) (command : ι → Command B) :
    Invariant S (IndexStack.start S link command) where
  sound :=
    { legal := trivial
      head := fun _ => rfl
      chain := fun _ => trivial
      domain := fun _ _ hi => by simp [IndexStack.start, Shared.events, after] at hi
      authority := fun _ _ => by simp [IndexStack.start, Shared.events, after] }
  assertion _ := trivial
  serves _ := trivial
  owned :=
    { mode := fun _ _ _ hs => by simp [IndexStack.start, hold] at hs
      unique := fun _ _ _ _ _ hs => by simp [IndexStack.start, hold] at hs
      owner := fun _ _ hs => by simp [IndexStack.start, view] at hs }
  linearized := Clocked.linearized_init rfl (fun _ => rfl) fun _ => rfl

variable [DecidableEq A]

/-- What the acting thread does to the shared state, the clock apart. -/
lemma Invariant.effect {w : World ι (Shared A B) (Thread B)} (h : Invariant S w) (i : ι)
    (c : Command B) : Effect S w.shared (access S c w.shared (w.loc i).loc).1 :=
  (access_spec h.sound c (h.assertion i) fun _ hs => h.pushing i hs).1

/-! ## Turns -/

/-- A turn moves the authority over at most one index. -/
lemma access_move {x : Shared A B} (h : Sound S x) (c : Command B) (l : Thread B)
    (ha : Assertion S x l.loc) (hown : ∀ s, hold S l.loc = some (s, ()) → view x s = some ()) :
    Move (fun l => hold S l.loc) view x (act S c x l).1 l (act S c x l).2 := by
  have release : ∀ {b : B} {i : ℕ} {y : Shared A B} {v : Authority B} {l' : Thread B}
      (_ : hold S l.loc = some ((S.backing b, i), ())) (_ : v ≠ .pushing)
      (_ : view y = view (x.setAuthority (S.backing b) i v)) (_ : hold S l'.loc = none),
      Move (fun l => hold S l.loc) view x y l l' := by
    intro b i y v l' hl hv hy hl'
    refine .release (S.backing b, i) () hl ?_ hl'
    rw [hy, view_setAuthority, if_neg hv]
  obtain ⟨loc, command, called, done⟩ := l
  cases loc with
  | idle =>
      cases c with
      | push b i =>
          simp only [act, access, call]
          split_ifs with hc hmask
          · exact .keep rfl rfl
          · refine .acquire (S.backing b, i) () rfl ?_ ?_ rfl
            · simp [view, hc.2]
            · exact view_setAuthority x (S.backing b) i .pushing
          · exact .keep rfl rfl
      | pop b => exact .keep rfl rfl
  | pushLoad b i =>
      simp only [act, access, pushSeen]
      split_ifs with htag
      · exact release rfl (v := .free) (by simp) rfl rfl
      · exact .keep rfl rfl
  | pushStore b i head => exact .keep rfl rfl
  | pushCas b i head =>
      simp only [act, access, pushStep, pushSeen]
      split_ifs with hhead htag
      · exact release rfl (v := .reachable b) (by simp) rfl rfl
      · exact release rfl (v := .free) (by simp) rfl rfl
      · exact .keep rfl rfl
  | popLoad b =>
      simp only [act, access, popSeen]
      split_ifs
      · exact .keep rfl rfl
      · exact .keep rfl rfl
  | popNext b head =>
      simp only [act, access]
      split_ifs
      · exact .keep rfl rfl
      · exact .keep rfl rfl
  | popCas b head next =>
      simp only [act, access, popStep, popSeen]
      split_ifs with hhead
      · refine .keep ?_ rfl
        subst head
        obtain ⟨rest, hrest⟩ := h.after_eq ha.1
        have hnow := (h.authority b ((S.layout b).unpack (x.head b)).1).mpr (by simp [hrest])
        refine (view_setAuthority x (S.backing b) _ .free).trans ?_
        rw [if_neg (by simp), Function.update_eq_self_iff]
        simp [view, hnow]
      · exact .keep rfl rfl
      · exact .keep rfl rfl
  | respond e p => exact .keep rfl rfl
  | panicked => exact .keep rfl rfl

lemma act_serves (c : Command B) (x : Shared A B) (l : Thread B) (h : l.Serves) :
    (act S c x l).2.Serves := by
  obtain ⟨loc, command, called, done⟩ := l
  cases loc with
  | idle =>
      cases c with
      | push b i =>
          simp only [act, access, call]
          split_ifs <;> trivial
      | pop b => rfl
  | pushLoad b i =>
      simp only [act, access, pushSeen]
      split_ifs <;> exact h
  | pushCas b i head =>
      simp only [act, access, pushStep, pushSeen]
      split_ifs <;> exact h
  | popLoad b =>
      simp only [act, access, popSeen]
      split_ifs <;> exact h
  | popNext b head =>
      simp only [act, access]
      split_ifs
      · trivial
      · exact h
  | popCas b head next =>
      simp only [act, access, popStep, popSeen]
      split_ifs <;> exact h
  | pushStore b i head => exact h
  | respond e p | panicked => trivial

/-- A turn calls an operation, decides it, returns, or is on its way. -/
lemma act_turn (c : Command B) (x : Shared A B) (l : Thread B) (h : l.Serves) :
    (operations (A := A)).Turn x (act S c x l).1 l (act S c x l).2 := by
  obtain ⟨loc, command, called, done⟩ := l
  cases loc with
  | idle =>
      cases c with
      | push b i =>
          simp only [act, access, call]
          split_ifs
          · exact .call _ rfl rfl rfl rfl
          · exact .call _ rfl rfl rfl rfl
          · exact .quiet rfl rfl rfl
      | pop b => exact .call _ rfl rfl rfl rfl
  | pushLoad b i =>
      obtain rfl : command = .push b i := h
      simp only [act, access, pushSeen]
      split_ifs
      · exact .decide _ _ rfl rfl rfl rfl
      · exact .quiet rfl rfl rfl
  | pushStore b i head => exact .quiet rfl rfl rfl
  | pushCas b i head =>
      obtain rfl : command = .push b i := h
      simp only [act, access, pushStep, pushSeen]
      split_ifs
      · exact .decide _ _ rfl rfl rfl rfl
      · exact .decide _ _ rfl rfl rfl rfl
      · exact .quiet rfl rfl rfl
  | popLoad b =>
      obtain rfl : command = .pop b := h
      simp only [act, access, popSeen]
      split_ifs
      · exact .decide _ _ rfl rfl rfl rfl
      · exact .quiet rfl rfl rfl
  | popNext b head =>
      simp only [act, access]
      split_ifs
      · exact .quiet rfl rfl rfl
      · exact .quiet rfl rfl rfl
  | popCas b head next =>
      obtain rfl : command = .pop b := h
      simp only [act, access, popStep, popSeen]
      split_ifs
      · exact .decide _ _ rfl rfl rfl rfl
      · exact .decide _ _ rfl rfl rfl rfl
      · exact .quiet rfl rfl rfl
  | respond e p => exact .finish _ _ _ _ rfl rfl rfl rfl
  | panicked => exact .quiet rfl rfl rfl

/-! ## Runs -/

variable [DecidableEq ι]

namespace Invariant
variable {w : World ι (Shared A B) (Thread B)} (h : Invariant S w) (i : ι) (c : Command B)
include h

/-- The invariant holds after every turn. -/
theorem step : Invariant S (w.step (act S) i c) where
  sound :=
    have hs := h.sound.effect (h.effect i c)
    ⟨hs.legal, hs.head, hs.chain, hs.domain, hs.authority⟩
  assertion := by
    have hspec := access_spec h.sound c (h.assertion i) fun _ hs => h.pushing i hs
    refine World.step_forall (A := fun x (l : Thread B) => Assertion S x l.loc) h.assertion ?_
      fun j hj ha => ?_
    · exact hspec.2
    · refine ha.effect h.sound hspec.1 fun s hs => access_link c _ _ fun hi => ?_
      exact hj (h.owned.unique j i s () () hs hi)
  serves :=
    World.step_forall (A := fun _ => Thread.Serves) h.serves
      (act_serves c _ _ (h.serves i)) fun _ _ => id
  owned := h.owned.step (access_move h.sound c _ (h.assertion i) fun s hs => h.owned.mode i s () hs)
  linearized := h.linearized.step (act_turn c _ _ (h.serves i)) rfl

end Invariant

/-- The invariant holds along every schedule. -/
lemma Invariant.run {w : World ι (Shared A B) (Thread B)} (h : Invariant S w)
    (xs : List (ι × Command B)) : Invariant S (World.run (act S) xs w) :=
  World.run_invariant (fun _ i c h => h.step i c) xs h

/-- The indices `l` are what the head of `b` reaches: from its index along the links. -/
def Reaches (S : StackStorage A B) (x : Shared A B) (b : B) (l : List ℕ) : Prop :=
  ((S.layout b).unpack (x.head b)).1 = first l (S.layout b).emptyIndex ∧
    Chain (x.link (S.backing b)) l

/-- Bindings over shared cells are linearizable stacks: in every interleaving the log is a
last-in-first-out order of the operations, each at a point of its own between its call and its
return; the indices a head reaches are those pushed less those popped; and no index is popped
twice without a push between, nor lost. -/
theorem stack_linearizable (S : StackStorage A B) (link : A → ℕ → ℕ) (command : ι → Command B)
    (xs : List (ι × Command B)) :
    let w := World.run (act S) xs (IndexStack.start S link command)
    Legal (fun b => (S.layout b).tagMax) S.backing w.shared.events ∧
      operations.Linearized w ∧
      (∀ b, Reaches S w.shared b (after w.shared.events b)) ∧
      (∀ b, pushed (· = b) w.shared.events =
        popped (· = b) w.shared.events + after w.shared.events b) ∧
      ∀ a i, ((∃ b, S.backing b = a ∧ i ∈ after w.shared.events b) ∧
          (pushed (S.backing · = a) w.shared.events).count i =
            (popped (S.backing · = a) w.shared.events).count i + 1) ∨
        ((∀ b, S.backing b = a → i ∉ after w.shared.events b) ∧
          (pushed (S.backing · = a) w.shared.events).count i =
            (popped (S.backing · = a) w.shared.events).count i) := by
  intro w
  have h : Invariant S w := (Invariant.start link command).run xs
  refine ⟨h.sound.legal, h.linearized, fun b => ⟨h.sound.unpack_fst b, h.sound.chain b⟩, ?_, ?_⟩
  · exact h.sound.legal.balance
  · exact h.sound.legal.count_balance

end IndexStack
end SeferAlloc
