import SeferAlloc.Interleaving
import Mathlib.Data.Nat.Notation
import Mathlib.Tactic.SplitIfs

/-!
# The once cell

One word holds null, the sentinel of an initialization under way, or the
published pointer. The caller whose compare-and-swap puts the sentinel there is
the only one that may write the word again: it publishes, or it rolls back by
whichever way it leaves.
-/
namespace SeferAlloc
namespace OncePtrCell
open Interleaving

/-- `NonNull`, as the address. -/
structure NonNull where
  addr : ℕ
  ne : addr ≠ 0

def uninit : ℕ := 0

/-- The word while a winner initialises. -/
def sentinel : ℕ := 1

/-- A word that is a published pointer. -/
def isReady (p : ℕ) : Bool := decide (p ≠ 0) && decide (p ≠ sentinel)

/-- How `init` ends. -/
inductive Outcome where
  | pointer (p : NonNull)
  | oom
  | unwound

/-- What a call answers: a pointer or none, an unwind, or `Proven` and `NotApplicable`. -/
inductive Answer where
  | got (p : Option ℕ)
  | unwound
  | probe (proven : Bool)

/-- Where a call is. -/
inductive Frame where
  | idle
  | load
  -- `get_or_try_init` and `init_slow`
  | fastLoad
  | slowLoad
  | compareExchange
  | init
  | publish (p : ℕ)
  | outOfMemory
  | rollback
  | spin
  -- `dbg_rollback_reenterable`
  | probe
  | probeRollback
  | probeAgain
  | probeRelease

/-- A thread: where its call is, and its last answer. -/
structure Thread where
  frame : Frame
  answer : Option Answer

def Thread.goto (f : Frame) (t : Thread) : Thread := { t with frame := f }

def Thread.return (a : Answer) (_ : Thread) : Thread := ⟨.idle, some a⟩

/-- The next action of a call, on the word. -/
def advance (word : ℕ) (t : Thread) : ℕ × Thread :=
  match t.frame with
  | .idle | .init => (word, t)
  | .load => (word, t.return (.got (if isReady word then some word else none)))
  | .fastLoad =>
    (word, if isReady word then t.return (.got (some word)) else t.goto .slowLoad)
  | .slowLoad =>
    (word, if isReady word then t.return (.got (some word)) else t.goto .compareExchange)
  | .compareExchange =>
    if word = uninit then (sentinel, t.goto .init) else (word, t.goto .spin)
  | .publish p => (p, t.return (.got (some p)))
  | .outOfMemory => (uninit, t.return (.got none))
  | .rollback => (uninit, t.return .unwound)
  | .spin =>
    (word,
      if word = sentinel then t
      else if word ≠ 0 then t.return (.got (some word)) else t.goto .slowLoad)
  | .probe =>
    if word = uninit then (sentinel, t.goto .probeRollback) else (word, t.return (.probe false))
  | .probeRollback => (uninit, t.goto .probeAgain)
  | .probeAgain =>
    if word = uninit then (sentinel, t.goto .probeRelease) else (word, t.return (.probe false))
  | .probeRelease => (uninit, t.return (.probe true))

/-- What a thread does: it begins a call, its `init` ends, or it goes on. -/
inductive Command where
  | get
  | getOrTryInit
  | dbgRollbackReenterable
  | init (o : Outcome)
  | go

/-- The winner after its `init`: a pointer that is the sentinel fails the assertion. -/
def afterInit : Outcome → Frame
  | .pointer p => if isReady p.addr then .publish p.addr else .rollback
  | .oom => .outOfMemory
  | .unwound => .rollback

/-- One atomic action of a thread. -/
def act (c : Command) (word : ℕ) (t : Thread) : ℕ × Thread :=
  match c, t.frame with
  | .get, .idle => (word, t.goto .load)
  | .getOrTryInit, .idle => (word, t.goto .fastLoad)
  | .dbgRollbackReenterable, .idle => (word, t.goto .probe)
  | .init o, .init => (word, t.goto (afterInit o))
  | .go, _ => advance word t
  | _, _ => (word, t)

/-- Threads named by `ι` on a new cell. -/
def start (ι : Type*) : World ι ℕ Thread := ⟨uninit, fun _ => ⟨.idle, none⟩⟩

/-! ## Who owns the word -/

/-- The call put the sentinel into the word. -/
def Frame.owns : Frame → Bool
  | .init | .publish _ | .outOfMemory | .rollback | .probeRollback | .probeRelease => true
  | _ => false

/-- The word that the call has, as a resource. -/
def hold (t : Thread) : Option (Unit × Unit) := if t.frame.owns then some ((), ()) else none

/-- The word is owned while it is the sentinel. -/
def view (word : ℕ) (_ : Unit) : Option Unit := if word = sentinel then some () else none

/-- What a call knows: a pointer to publish is one. -/
def Knows (t : Thread) : Prop := ∀ p, t.frame = .publish p → isReady p = true

/-- What an answer says of the word. -/
def Told (word : ℕ) (t : Thread) : Prop :=
  ∀ p, t.answer = some (.got (some p)) → word = p ∧ isReady p = true

variable {word : ℕ} {t : Thread}

lemma isReady_iff {p : ℕ} : isReady p = true ↔ p ≠ uninit ∧ p ≠ sentinel := by
  simp [isReady, uninit]

@[simp] lemma isReady_uninit : isReady uninit = false := rfl

@[simp] lemma isReady_sentinel : isReady sentinel = false := rfl

lemma view_sentinel : view sentinel () = some () := rfl

lemma view_of_ne (h : word ≠ sentinel) : view word () = none := if_neg h

lemma hold_of_owns (h : t.frame.owns = true) : hold t = some ((), ()) := if_pos h

lemma hold_of_not (h : t.frame.owns = false) : hold t = none := by simp [hold, h]

/-- What an action can do: it leaves the word alone, it takes a word that is not initialized, or it
gives back the word that it owns. -/
inductive Does (word : ℕ) (t : Thread) (word' : ℕ) (t' : Thread) : Prop
  | keep (hw : word' = word) (ho : t'.frame.owns = t.frame.owns)
  | acquire (hu : word = uninit) (hw : word' = sentinel) (ho : t.frame.owns = false)
      (ho' : t'.frame.owns = true)
  | release (hw : word' ≠ sentinel) (ho : t.frame.owns = true) (ho' : t'.frame.owns = false)

/-- Every action does one of these. -/
lemma act_does (c : Command) (hk : Knows t) :
    Does word t (act c word t).1 (act c word t).2 := by
  have idle : ∀ f : Frame, t.frame = .idle → f.owns = false → Does word t word (t.goto f) :=
    fun f hf ho => .keep rfl (by rw [hf]; exact ho)
  cases c with
  | go =>
    cases hf : t.frame with
    | idle | init =>
      simp only [act, advance, hf]
      exact .keep rfl rfl
    | load =>
      simp only [act, advance, hf]
      exact .keep rfl (by rw [hf]; rfl)
    | fastLoad | slowLoad =>
      simp only [act, advance, hf]
      split_ifs <;> exact .keep rfl (by rw [hf]; rfl)
    | compareExchange | probe | probeAgain =>
      simp only [act, advance, hf]
      split_ifs with hw
      · exact .acquire hw rfl (by rw [hf]; rfl) rfl
      · exact .keep rfl (by rw [hf]; rfl)
    | publish p =>
      simp only [act, advance, hf]
      exact .release (isReady_iff.mp (hk p hf)).2 (by rw [hf]; rfl) rfl
    | outOfMemory | rollback | probeRollback | probeRelease =>
      simp only [act, advance, hf]
      exact .release (by decide) (by rw [hf]; rfl) rfl
    | spin =>
      simp only [act, advance, hf]
      split_ifs <;> exact .keep rfl (by simp only [hf, Thread.goto, Thread.return, Frame.owns])
  | init o =>
    cases hf : t.frame with
    | init =>
      simp only [act, hf]
      refine .keep rfl ?_
      rw [hf]
      cases o with
      | pointer p =>
        simp only [Thread.goto, afterInit]
        split_ifs <;> rfl
      | oom | unwound => rfl
    | _ =>
      simp only [act, hf]
      exact .keep rfl rfl
  | get | getOrTryInit | dbgRollbackReenterable =>
    cases hf : t.frame with
    | idle =>
      simp only [act, hf]
      exact idle _ hf rfl
    | _ =>
      simp only [act, hf]
      exact .keep rfl rfl

/-! ## Runs -/

/-- An action is a move of the word. -/
lemma Does.move {word' : ℕ} {t' : Thread} (hd : Does word t word' t')
    (hs : t.frame.owns = true → word = sentinel) : Move hold view word word' t t' := by
  cases hd with
  | keep hw ho => exact .keep (by rw [hw]) (by rw [hold, hold, ho])
  | acquire hu hw ho ho' =>
    refine .acquire () () (hold_of_not ho) (view_of_ne (by rw [hu]; decide)) ?_ (hold_of_owns ho')
    ext1
    simp [hw, view]
  | release hw ho ho' =>
    refine .release () () (hold_of_owns ho) ?_ (hold_of_not ho')
    ext1
    simp [view, hw]

/-- A pointer that is there stays there. -/
lemma Does.ready {word' : ℕ} {t' : Thread} (hd : Does word t word' t')
    (hs : t.frame.owns = true → word = sentinel) (hr : isReady word = true) : word' = word := by
  obtain ⟨h₁, h₂⟩ := isReady_iff.mp hr
  cases hd with
  | keep hw ho => exact hw
  | acquire hu hw ho ho' => exact absurd hu h₁
  | release hw ho ho' => exact absurd (hs ho) h₂

/-- A call answers with the pointer that is there, or with the one that it publishes. -/
lemma act_told (c : Command) (hk : Knows t) (hs : t.frame.owns = true → word = sentinel)
    (ht : Told word t) : Told (act c word t).1 (act c word t).2 := by
  have found : isReady word = true → Told word (t.return (.got (some word))) := by
    intro hr p hp
    obtain rfl : word = p := by simpa [Thread.return] using hp
    exact ⟨rfl, hr⟩
  have other : ∀ (w : ℕ) (a : Answer), (∀ p, a ≠ .got (some p)) → Told w (t.return a) :=
    fun w a ha p hp => absurd (Option.some.inj hp) (ha p)
  -- An answer that was given before stays right, as nothing writes over a pointer.
  have old : ∀ f, (act c word t).2 = t.goto f → Told (act c word t).1 (act c word t).2 := by
    intro f hf p hp
    rw [hf] at hp
    obtain ⟨h₁, h₂⟩ := ht p hp
    rw [(act_does c hk).ready hs (h₁ ▸ h₂)]
    exact ⟨h₁, h₂⟩
  have same : ∀ t' : Thread, t' = t → Told word t' := fun t' he => he ▸ ht
  cases c with
  | go =>
    cases hf : t.frame with
    | idle | init =>
      simp only [act, advance, hf]
      exact ht
    | load =>
      simp only [act, advance, hf]
      split_ifs with hr
      · exact found hr
      · exact other _ _ (by simp)
    | fastLoad | slowLoad =>
      simp only [act, advance, hf]
      split_ifs with hr
      · exact found hr
      · exact ht
    | compareExchange =>
      by_cases hw : word = uninit
      · exact old .init (by simp only [act, advance, hf, hw, if_true])
      · exact old .spin (by simp only [act, advance, hf, hw, if_false])
    | publish q =>
      simp only [act, advance, hf]
      intro p hp
      obtain rfl : q = p := by simpa [Thread.return] using hp
      exact ⟨rfl, hk q hf⟩
    | outOfMemory | rollback | probeRelease =>
      simp only [act, advance, hf]
      exact other _ _ (by simp)
    | spin =>
      simp only [act, advance, hf]
      split_ifs with h₁ h₂
      · exact ht
      · exact found (isReady_iff.mpr ⟨h₂, h₁⟩)
      · exact ht
    | probe =>
      by_cases hw : word = uninit
      · exact old .probeRollback (by simp only [act, advance, hf, hw, if_true])
      · simp only [act, advance, hf, hw, if_false]
        exact other _ _ (by simp)
    | probeRollback => exact old .probeAgain (by simp only [act, advance, hf])
    | probeAgain =>
      by_cases hw : word = uninit
      · exact old .probeRelease (by simp only [act, advance, hf, hw, if_true])
      · simp only [act, advance, hf, hw, if_false]
        exact other _ _ (by simp)
  | get | getOrTryInit | dbgRollbackReenterable | init =>
    simp only [act]
    split <;> first | contradiction | exact ht

/-- A call that publishes has a pointer. -/
lemma act_knows (c : Command) (hk : Knows t) : Knows (act c word t).2 := by
  intro p hp
  cases c with
  | go =>
    cases hf : t.frame with
    | publish q => simp [act, advance, hf, Thread.return] at hp
    | _ =>
      exfalso
      revert hp
      simp only [act, advance, hf]
      repeat' split
      all_goals simp [Thread.goto, Thread.return, hf]
  | init o =>
    cases hf : t.frame with
    | init =>
      simp only [act, hf, Thread.goto] at hp
      cases o with
      | pointer q =>
        simp only [afterInit] at hp
        split_ifs at hp with hr
        exact Frame.publish.inj hp ▸ hr
      | oom | unwound => simp [afterInit] at hp
    | _ =>
      simp only [act, hf] at hp
      exact hk p (hf.trans hp)
  | get | getOrTryInit | dbgRollbackReenterable =>
    cases hf : t.frame with
    | idle => simp [act, hf, Thread.goto] at hp
    | _ =>
      simp only [act, hf] at hp
      exact hk p (hf.trans hp)

variable {ι : Type*} [DecidableEq ι] {w : World ι ℕ Thread} {j : ι}

/-- What every state of a run has. -/
structure Inv (w : World ι ℕ Thread) : Prop where
  owned : Owned hold view w
  knows : ∀ j, Knows (w.loc j)
  told : ∀ j, Told w.shared (w.loc j)

omit [DecidableEq ι] in
lemma Inv.sentinel (hi : Inv w) (ho : (w.loc j).frame.owns = true) : w.shared = sentinel := by
  have hv := hi.owned.mode j () () (hold_of_owns ho)
  by_contra hne
  rw [view_of_ne hne] at hv
  cases hv

omit [DecidableEq ι] in
/-- One call at most owns the word. -/
lemma Inv.unique (hi : Inv w) {i : ι} (h₁ : (w.loc i).frame.owns = true)
    (h₂ : (w.loc j).frame.owns = true) : i = j :=
  hi.owned.unique i j () () () (hold_of_owns h₁) (hold_of_owns h₂)

omit [DecidableEq ι] in
/-- The sentinel is some call's. -/
lemma Inv.owner (hi : Inv w) (hs : w.shared = OncePtrCell.sentinel) :
    ∃ j, (w.loc j).frame.owns = true := by
  obtain ⟨j, hj⟩ := hi.owned.owner () () (hs ▸ view_sentinel)
  refine ⟨j, ?_⟩
  by_contra hne
  rw [hold_of_not (Bool.eq_false_iff.mpr hne)] at hj
  cases hj

/-- One action keeps the invariant. -/
lemma Inv.step (hi : Inv w) (j : ι) (c : Command) : Inv (w.step act j c) := by
  have hd : Does w.shared (w.loc j) (act c w.shared (w.loc j)).1 (act c w.shared (w.loc j)).2 :=
    act_does c (hi.knows j)
  have hs : (w.loc j).frame.owns = true → w.shared = OncePtrCell.sentinel := hi.sentinel
  refine ⟨hi.owned.step (hd.move hs), ?_, ?_⟩
  · exact World.step_forall (A := fun _ t => Knows t) hi.knows (act_knows c (hi.knows j))
      fun _ _ hk => hk
  · refine World.step_forall (A := Told) hi.told (act_told c (hi.knows j) hs (hi.told j)) ?_
    intro k _ ht p hp
    obtain ⟨h₁, h₂⟩ := ht p hp
    exact ⟨(hd.ready hs (h₁ ▸ h₂)).trans h₁, h₂⟩

omit [DecidableEq ι] in
lemma Inv.start : Inv (start ι) := by
  refine ⟨⟨?_, ?_, ?_⟩, ?_, ?_⟩
  · intro i s h hs
    exact absurd hs (by simp [hold, OncePtrCell.start, Frame.owns])
  · intro i k s h h' hs
    exact absurd hs (by simp [hold, OncePtrCell.start, Frame.owns])
  · intro s h hs
    exact absurd hs (by simp [view, OncePtrCell.start, uninit, OncePtrCell.sentinel])
  · intro j p hp
    simp [OncePtrCell.start] at hp
  · intro j p hp
    simp [OncePtrCell.start] at hp

/-- Every state of a run. -/
lemma run_inv (xs : List (ι × Command)) : Inv (World.run act xs (OncePtrCell.start ι)) :=
  World.run_invariant (I := Inv) (fun _ j c hi => hi.step j c) xs .start

/-- A published pointer stays for every schedule. -/
lemma Inv.run_ready (hi : Inv w) (hr : isReady w.shared = true) (ys : List (ι × Command)) :
    (World.run act ys w).shared = w.shared := by
  induction ys generalizing w with
  | nil => rfl
  | cons y ys ih =>
    have hw : (w.step act y.1 y.2).shared = w.shared :=
      (act_does y.2 (hi.knows y.1)).ready hi.sentinel hr
    exact (ih (hi.step y.1 y.2) (hw ▸ hr)).trans hw

/-! ## What the cell promises -/

/-- How a call ends whose `init` gave no pointer to publish. -/
def Outcome.failure : Outcome → Answer
  | .oom => .got none
  | .pointer _ | .unwound => .unwound

/-- The cell publishes once: the promises of a state of a run. -/
structure Exact (w : World ι ℕ Thread) : Prop where
  /-- One `init` runs at a time. -/
  oneInit : ∀ i j, (w.loc i).frame = .init → (w.loc j).frame = .init → i = j
  /-- Every pointer that a call answered is the one in the word, and a pointer. -/
  answers : ∀ j p, (w.loc j).answer = some (.got (some p)) →
    w.shared = p ∧ p ≠ uninit ∧ p ≠ sentinel
  /-- The word is written by who takes it uninitialized, and by the one who took it. -/
  writes : ∀ j c, (act c w.shared (w.loc j)).1 ≠ w.shared →
    (w.shared = uninit ∧ (act c w.shared (w.loc j)).1 = sentinel) ∨
    (w.shared = sentinel ∧ ∀ k, (w.loc k).frame.owns = true ↔ k = j)
  /-- A published pointer is not written over, and calls that end answer it. -/
  ready : isReady w.shared = true → (∀ ys, (World.run act ys w).shared = w.shared) ∧
    ∀ j c, (w.loc j).frame ≠ .idle → (act c w.shared (w.loc j)).2.frame = .idle →
      (act c w.shared (w.loc j)).2.answer = some (.got (some w.shared)) ∨
      (act c w.shared (w.loc j)).2.answer = some (.probe false)
  /-- Whoever gives the word up has published, or leaves it uninitialized. -/
  exits : ∀ j c, (w.loc j).frame.owns = true →
    (act c w.shared (w.loc j)).2.frame.owns = false →
    (act c w.shared (w.loc j)).1 = uninit ∨ ∃ p, (w.loc j).frame = .publish p ∧ isReady p = true ∧
      act c w.shared (w.loc j) = (p, (w.loc j).return (.got (some p)))
  /-- Only a pointer that `init` returned is ever about to be published. -/
  pointers : ∀ j c p, (act c w.shared (w.loc j)).2.frame = .publish p →
    (w.loc j).frame = .publish p ∨
      (w.loc j).frame = .init ∧ ∃ q, c = .init (.pointer q) ∧ q.addr = p
  /-- A pointer that `init` returned is published and answered, whatever the others do meanwhile. -/
  published : ∀ j p ys, (w.loc j).frame = .init → p.addr ≠ sentinel → (∀ y ∈ ys, y.1 ≠ j) →
    (World.run act ((j, .init (.pointer p)) :: (ys ++ [(j, .go)])) w).shared = p.addr ∧
    (World.run act ((j, .init (.pointer p)) :: (ys ++ [(j, .go)])) w).loc j =
      ⟨.idle, some (.got (some p.addr))⟩
  /-- An `init` that reported OOM, returned the sentinel or unwound leaves the word uninitialized. -/
  failed : ∀ j o ys, (w.loc j).frame = .init → (∀ p, o = .pointer p → p.addr = sentinel) →
    (∀ y ∈ ys, y.1 ≠ j) →
    (World.run act ((j, .init o) :: (ys ++ [(j, .go)])) w).shared = uninit ∧
    (World.run act ((j, .init o) :: (ys ++ [(j, .go)])) w).loc j = ⟨.idle, some o.failure⟩
  /-- An uninitialized word is won by the next attempt. -/
  wins : ∀ j, w.shared = uninit → (w.loc j).frame = .compareExchange →
    act .go w.shared (w.loc j) = (sentinel, (w.loc j).goto .init)
  /-- The sentinel is the mark of one call, which takes it away when its `init` has ended. -/
  unblocks : w.shared = sentinel → ∃ j, (w.loc j).frame.owns = true ∧
    ∀ o, (World.run act [(j, .init o), (j, .go)] w).shared ≠ sentinel
  /-- Where no call is under way, neither is an initialization. -/
  quiet : (∀ j, (w.loc j).frame = .idle) → w.shared ≠ sentinel

omit [DecidableEq ι] in
lemma Inv.writes (hi : Inv w) {c : Command}
    (hne : (act c w.shared (w.loc j)).1 ≠ w.shared) :
    (w.shared = uninit ∧ (act c w.shared (w.loc j)).1 = OncePtrCell.sentinel) ∨
    (w.shared = OncePtrCell.sentinel ∧ ∀ k, (w.loc k).frame.owns = true ↔ k = j) := by
  have hd : Does w.shared (w.loc j) (act c w.shared (w.loc j)).1 (act c w.shared (w.loc j)).2 :=
    act_does c (hi.knows j)
  cases hd with
  | keep hw ho => exact absurd hw hne
  | acquire hu hw ho ho' => exact .inl ⟨hu, hw⟩
  | release hw ho ho' =>
    refine .inr ⟨hi.sentinel ho, fun k => ⟨fun hk => hi.unique hk ho, ?_⟩⟩
    rintro rfl
    exact ho

omit [DecidableEq ι] in
/-- Calls that end while a pointer is there answer it. -/
lemma ends_ready {c : Command} {t : Thread} (hr : isReady word = true)
    (hn : t.frame.owns = false) (hf : t.frame ≠ .idle) (he : (act c word t).2.frame = .idle) :
    (act c word t).2.answer = some (.got (some word)) ∨
      (act c word t).2.answer = some (.probe false) := by
  obtain ⟨h₁, h₂⟩ := isReady_iff.mp hr
  cases hfr : t.frame with
  | idle => exact absurd hfr hf
  | init | publish | outOfMemory | rollback | probeRollback | probeRelease =>
    rw [hfr] at hn
    cases hn
  | _ =>
    cases c with
    | go =>
      simp only [act, advance, hfr, hr, h₁, h₂, if_true, if_false] at he ⊢
      first
        | exact .inl rfl
        | exact .inr rfl
        | cases he
        | exact .inl (by rw [if_pos (show word ≠ 0 from h₁)]; rfl)
    | _ =>
      simp only [act, hfr] at he
      cases he

omit [DecidableEq ι] in
/-- The ways out of a call that has the word. -/
lemma Inv.exits (hi : Inv w) {c : Command} (ho : (w.loc j).frame.owns = true)
    (hn : (act c w.shared (w.loc j)).2.frame.owns = false) :
    (act c w.shared (w.loc j)).1 = uninit ∨ ∃ p, (w.loc j).frame = .publish p ∧ isReady p = true ∧
      act c w.shared (w.loc j) = (p, (w.loc j).return (.got (some p))) := by
  have keeps : (act c w.shared (w.loc j)).2 ≠ w.loc j := fun he => by
    rw [he, ho] at hn
    cases hn
  cases hf : (w.loc j).frame with
  | publish p =>
    cases c with
    | go => exact .inr ⟨p, rfl, hi.knows j p hf, by simp only [act, advance, hf]⟩
    | _ => exact absurd (by simp only [act, hf]) keeps
  | outOfMemory | rollback | probeRollback | probeRelease =>
    cases c with
    | go =>
      left
      simp only [act, advance, hf]
    | _ => exact absurd (by simp only [act, hf]) keeps
  | init =>
    cases c with
    | init o =>
      cases o with
      | pointer p =>
        simp only [act, hf, Thread.goto, afterInit] at hn
        split_ifs at hn <;> cases hn
      | oom | unwound =>
        simp only [act, hf, Thread.goto, afterInit] at hn
        cases hn
    | _ => exact absurd (by simp only [act, advance, hf]) keeps
  | _ =>
    rw [hf] at ho
    cases ho

/-- A call comes to publish what its `init` returned, and nothing else. -/
lemma act_publish {c : Command} {p : ℕ} (h : (act c word t).2.frame = .publish p) :
    t.frame = .publish p ∨ t.frame = .init ∧ ∃ q, c = .init (.pointer q) ∧ q.addr = p := by
  cases hf : t.frame with
  | init =>
    cases c with
    | init o =>
      simp only [act, hf, Thread.goto, afterInit] at h
      cases o with
      | pointer q =>
        simp only at h
        split_ifs at h
        exact .inr ⟨rfl, q, rfl, Frame.publish.inj h⟩
      | oom | unwound => cases h
    | _ =>
      simp only [act, advance, hf] at h
      cases h
  | publish q =>
    cases c with
    | go =>
      simp only [act, advance, hf] at h
      cases h
    | _ =>
      simp only [act, hf] at h
      exact .inl h
  | _ =>
    left
    cases c <;> simp only [act, advance, hf] at h <;> (try split_ifs at h) <;>
      first
      | cases h
      | (rw [hf] at h; cases h)

/-- The winner's call, with whatever the others do between the end of its `init` and its last
action, leaves what the last action of `afterInit` writes. -/
lemma run_winner (hf : (w.loc j).frame = .init) (o : Outcome) {ys : List (ι × Command)}
    (hys : ∀ y ∈ ys, y.1 ≠ j) : ∃ word,
    (World.run act ((j, .init o) :: (ys ++ [(j, .go)])) w).shared =
      (advance word ((w.loc j).goto (afterInit o))).1 ∧
    (World.run act ((j, .init o) :: (ys ++ [(j, .go)])) w).loc j =
      (advance word ((w.loc j).goto (afterInit o))).2 := by
  have hloc : (World.run act ys (w.step act j (.init o))).loc j = (w.loc j).goto (afterInit o) := by
    rw [World.run_loc_of_ne hys, World.step_loc_self]
    simp only [act, hf]
  refine ⟨(World.run act ys (w.step act j (.init o))).shared, ?_⟩
  rw [World.run, World.run_append, World.run, World.run, World.step_loc_self, hloc]
  exact ⟨congrArg (fun t => (act .go _ t).1) hloc, rfl⟩

lemma run_published (hf : (w.loc j).frame = .init) {p : NonNull} (hp : p.addr ≠ sentinel)
    {ys : List (ι × Command)} (hys : ∀ y ∈ ys, y.1 ≠ j) :
    (World.run act ((j, .init (.pointer p)) :: (ys ++ [(j, .go)])) w).shared = p.addr ∧
    (World.run act ((j, .init (.pointer p)) :: (ys ++ [(j, .go)])) w).loc j =
      ⟨.idle, some (.got (some p.addr))⟩ := by
  obtain ⟨word, hword, hloc⟩ := run_winner hf (.pointer p) hys
  have hready : isReady p.addr = true := isReady_iff.mpr ⟨p.ne, hp⟩
  rw [hword, hloc, afterInit, if_pos hready]
  exact ⟨rfl, rfl⟩

lemma run_failed (hf : (w.loc j).frame = .init) {o : Outcome}
    (ho : ∀ p, o = .pointer p → p.addr = sentinel) {ys : List (ι × Command)}
    (hys : ∀ y ∈ ys, y.1 ≠ j) :
    (World.run act ((j, .init o) :: (ys ++ [(j, .go)])) w).shared = uninit ∧
    (World.run act ((j, .init o) :: (ys ++ [(j, .go)])) w).loc j = ⟨.idle, some o.failure⟩ := by
  obtain ⟨word, hword, hloc⟩ := run_winner hf o hys
  rw [hword, hloc]
  cases o with
  | oom | unwound => exact ⟨rfl, rfl⟩
  | pointer p =>
    rw [afterInit, ho p rfl, if_neg (by decide)]
    exact ⟨rfl, rfl⟩

/-- The call that has the word gives it up once its `init` has ended. -/
lemma Inv.unblocks (hi : Inv w) (ho : (w.loc j).frame.owns = true) (o : Outcome) :
    (World.run act [(j, .init o), (j, .go)] w).shared ≠ OncePtrCell.sentinel := by
  have hi₁ := hi.step j (.init o)
  simp only [World.run]
  -- After its `init` has ended, every way on writes the word.
  have last : ∀ t : Thread, t.frame.owns = true → t.frame ≠ .init → Knows t → ∀ word,
      (act .go word t).1 ≠ OncePtrCell.sentinel := by
    intro t ho hn hk word
    cases hf : t.frame with
    | publish p =>
      simp only [act, advance, hf]
      exact (isReady_iff.mp (hk p hf)).2
    | outOfMemory | rollback | probeRollback | probeRelease =>
      simp only [act, advance, hf]
      decide
    | init => exact absurd hf hn
    | _ =>
      rw [hf] at ho
      cases ho
  refine last _ ?_ ?_ (hi₁.knows j) _
  · rw [World.step_loc_self]
    cases hf : (w.loc j).frame with
    | init =>
      cases o with
      | pointer p =>
        simp only [act, hf, Thread.goto, afterInit]
        split_ifs <;> rfl
      | oom | unwound => simp only [act, hf, Thread.goto, afterInit, Frame.owns]
    | _ =>
      rw [hf] at ho
      simpa only [act, hf] using ho
  · rw [World.step_loc_self]
    cases hf : (w.loc j).frame with
    | init =>
      cases o with
      | pointer p =>
        simp only [act, hf, Thread.goto, afterInit]
        split_ifs <;> simp
      | oom | unwound => simp [act, hf, Thread.goto, afterInit]
    | _ => simp [act, hf]

theorem Inv.exact (hi : Inv w) : Exact w := by
  constructor
  · intro i j h₁ h₂
    exact hi.unique (by rw [h₁]; rfl) (by rw [h₂]; rfl)
  · intro j p hp
    obtain ⟨h₁, h₂⟩ := hi.told j p hp
    exact ⟨h₁, isReady_iff.mp h₂⟩
  · exact fun j c => hi.writes
  · intro hr
    refine ⟨fun ys => hi.run_ready hr ys, fun j c hf he => ends_ready hr ?_ hf he⟩
    by_contra hne
    exact (isReady_iff.mp hr).2 (hi.sentinel (Bool.not_eq_false _ ▸ hne))
  · exact fun j c => hi.exits
  · exact fun j c p => act_publish
  · exact fun j p ys hf hp hys => run_published hf hp hys
  · exact fun j o ys hf ho hys => run_failed hf ho hys
  · intro j hu hf
    simp only [act, advance, hf, hu, if_true]
  · intro hs
    obtain ⟨j, hj⟩ := hi.owner hs
    exact ⟨j, hj, hi.unblocks hj⟩
  · intro hidle hs
    obtain ⟨j, hj⟩ := hi.owner hs
    rw [hidle j] at hj
    cases hj

/-- For any number of threads and every schedule of their calls the cell publishes once. -/
theorem cell_exact (xs : List (ι × Command)) : Exact (World.run act xs (OncePtrCell.start ι)) :=
  (run_inv xs).exact

end OncePtrCell

end SeferAlloc
