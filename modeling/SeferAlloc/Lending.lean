import Mathlib.Data.Set.Insert
import Mathlib.Logic.Function.Basic
import Mathlib.Data.List.Count
import Mathlib.Tactic.Common

/-!
# Loans

A lender hands out items that must not clash. A borrower gives an item back, or
its return is announced and the lender collects it later. A run keeps its events
in order, so that what was handed out can be compared with what came back.
-/
namespace Lending

/-- The items that are out, with the state of each, and those announced to come back. -/
@[ext] structure Ledger (B S : Type*) where
  held : B → Option S
  announced : Set B

inductive Event (B S : Type*) where
  | issue (b : B) (s : S)
  | mark (b : B) (s : S)
  | announce (b : B)
  | collect (b : B)
  | giveBack (b : B)

namespace Event
variable {B S : Type*}

/-- The item that an event hands out, and its state. -/
def issued : Event B S → Option (B × S)
  | issue b s => some (b, s)
  | _ => none

/-- The item that an event takes back. -/
def returned : Event B S → Option B
  | collect b => some b
  | giveBack b => some b
  | _ => none

def announced : Event B S → Option B
  | announce b => some b
  | _ => none

/-- An announced return, or the collection of one. -/
def Foreign : Event B S → Prop
  | announce _ => True
  | collect _ => True
  | _ => False

/-- What the lender and its borrower do themselves. -/
def own : Event B S → Bool
  | announce _ => false
  | collect _ => false
  | _ => true

lemma Foreign.own {e : Event B S} (h : e.Foreign) : e.own = false := by
  cases e with
  | announce b => rfl
  | collect b => rfl
  | issue b s => exact h.elim
  | mark b s => exact h.elim
  | giveBack b => exact h.elim

end Event

variable {B S : Type*} [DecidableEq B] {clash : B → B → Prop} {l l₁ l' : Ledger B S} {b : B} {s : S}
  {e : Event B S} {es es' : List (Event B S)}

namespace Ledger

def set (l : Ledger B S) (b : B) (s : Option S) : Ledger B S :=
  { l with held := Function.update l.held b s }

end Ledger

inductive Step (clash : B → B → Prop) : Ledger B S → Event B S → Ledger B S → Prop
  | issue {l : Ledger B S} {b : B} {s : S} (free : l.held b = none)
      (apart : ∀ b', l.held b' ≠ none → ¬clash b b') : Step clash l (.issue b s) (l.set b (some s))
  | mark {l : Ledger B S} {b : B} {s : S} (held : l.held b ≠ none) (out : b ∉ l.announced) :
      Step clash l (.mark b s) (l.set b (some s))
  | announce {l : Ledger B S} {b : B} (held : l.held b ≠ none) (out : b ∉ l.announced) :
      Step clash l (.announce b) { l with announced := insert b l.announced }
  | collect {l : Ledger B S} {b : B} (announced : b ∈ l.announced) :
      Step clash l (.collect b) { l.set b none with announced := l.announced \ {b} }
  | giveBack {l : Ledger B S} {b : B} (held : l.held b ≠ none) (out : b ∉ l.announced) :
      Step clash l (.giveBack b) (l.set b none)

/-- The events lead from one ledger to the other. -/
inductive Run (clash : B → B → Prop) : Ledger B S → List (Event B S) → Ledger B S → Prop
  | nil (l : Ledger B S) : Run clash l [] l
  | cons {l l₁ l' : Ledger B S} {e : Event B S} {es : List (Event B S)} (step : Step clash l e l₁)
      (rest : Run clash l₁ es l') : Run clash l (e :: es) l'

lemma Step.run (h : Step clash l e l') : Run clash l [e] l' := .cons h (.nil l')

lemma Run.append (h : Run clash l es l₁) (h' : Run clash l₁ es' l') :
    Run clash l (es ++ es') l' := by
  induction h with
  | nil _ => exact h'
  | cons step _ ih => exact .cons step (ih h')

/-- What every event keeps holds after every run. -/
lemma Run.invariant {I : Ledger B S → Prop} (h : Run clash l es l')
    (hstep : ∀ l e l', Step clash l e l' → I l → I l') (hl : I l) : I l' := by
  induction h with
  | nil _ => exact hl
  | cons step _ ih => exact ih (hstep _ _ _ step hl)

/-! ## Nothing clashes -/

/-- Items that are out do not clash. -/
def Ledger.Apart (clash : B → B → Prop) (l : Ledger B S) : Prop :=
  ∀ b b', b ≠ b' → l.held b ≠ none → l.held b' ≠ none → ¬clash b b'

/-- Only items that are out are announced. -/
def Ledger.Sane (l : Ledger B S) : Prop := ∀ b ∈ l.announced, l.held b ≠ none

lemma set_held_of_ne {b' : B} {s : Option S} (h : b' ≠ b) : (l.set b s).held b' = l.held b' :=
  Function.update_of_ne h ..

@[simp] lemma set_held_self {s : Option S} : (l.set b s).held b = s := Function.update_self ..

lemma Ledger.Apart.mono (h : l.Apart clash) (hh : ∀ b, l'.held b ≠ none → l.held b ≠ none) :
    l'.Apart clash := fun b b' hne hb hb' => h b b' hne (hh b hb) (hh b' hb')

lemma Step.apart (hsymm : ∀ b b', clash b b' → clash b' b) (h : Step clash l e l')
    (hl : l.Apart clash) : l'.Apart clash := by
  have hset : ∀ {b s}, l.held b ≠ none → (l.set b s).Apart clash := fun {b s} hb =>
    hl.mono fun b' hb' => by
      by_cases he : b' = b
      · exact he ▸ hb
      · rwa [set_held_of_ne he] at hb'
  cases h with
  | @issue b s free apart =>
      intro x y hxy hx hy
      by_cases hxb : x = b
      · subst hxb
        rw [set_held_of_ne hxy.symm] at hy
        exact apart y hy
      · rw [set_held_of_ne hxb] at hx
        by_cases hyb : y = b
        · subst hyb
          exact fun hc => apart x hx (hsymm _ _ hc)
        · rw [set_held_of_ne hyb] at hy
          exact hl x y hxy hx hy
  | mark held out => exact hset held
  | announce held out => exact hl
  | @collect b announced =>
      refine hl.mono fun b' hb' => ?_
      by_cases he : b' = b
      · subst he
        exact absurd (set_held_self (l := l)) hb'
      · exact (set_held_of_ne (l := l) (s := none) he) ▸ hb'
  | giveBack held out => exact hset held

/-- Items that are out do not clash after any run. -/
lemma Run.apart (hsymm : ∀ b b', clash b b' → clash b' b) (h : Run clash l es l')
    (hl : l.Apart clash) : l'.Apart clash :=
  h.invariant (fun _ _ _ hs => hs.apart hsymm) hl

/-! ## Nothing is lost or handed out twice -/

/-- An item that is out counts once. -/
def Ledger.out (l : Ledger B S) (b : B) : ℕ := if (l.held b).isSome then 1 else 0

/-- How often the events hand an item out. -/
def issues (es : List (Event B S)) (b : B) : ℕ := ((es.filterMap Event.issued).map Prod.fst).count b

/-- How often the events take an item back. -/
def returns (es : List (Event B S)) (b : B) : ℕ := (es.filterMap Event.returned).count b

lemma out_set (l : Ledger B S) (b b' : B) (s : Option S) :
    (l.set b s).out b' = if b' = b then (if s.isSome then 1 else 0) else l.out b' := by
  unfold Ledger.out
  split_ifs with he
  all_goals simp_all [Ledger.set]

lemma issues_single (e : Event B S) (b : B) :
    issues [e] b = if e.issued.map Prod.fst = some b then 1 else 0 := by
  cases he : e.issued <;> simp [issues, he, List.count_singleton]

lemma returns_single (e : Event B S) (b : B) :
    returns [e] b = if e.returned = some b then 1 else 0 := by
  cases he : e.returned <;> simp [returns, he, List.count_singleton]

lemma Step.balance (h : Step clash l e l') (hl : l.Sane) (b : B) :
    l.out b + issues [e] b = l'.out b + returns [e] b ∧ l'.Sane := by
  have hout : ∀ {b}, l.held b ≠ none → l.out b = 1 := fun {b} hb => by
    rw [Ledger.out, if_pos (Option.isSome_iff_ne_none.mpr hb)]
  have hsane : ∀ {b s}, (∀ b' ∈ l.announced, b' ≠ b ∨ s ≠ none) → (l.set b s).Sane :=
    fun {b s} hs b' hb' => by
      by_cases he : b' = b
      · subst he
        rw [set_held_self]
        exact (hs b' hb').resolve_left (not_not_intro rfl)
      · rw [set_held_of_ne he]
        exact hl b' hb'
  cases h with
  | @issue x s free apart =>
      refine ⟨?_, hsane fun _ _ => .inr (Option.some_ne_none s)⟩
      rw [out_set]
      by_cases hb : b = x
      · subst hb
        simp [issues_single, returns_single, Event.issued, Event.returned, Ledger.out, free]
      · simp [issues_single, returns_single, Event.issued, Event.returned, hb, Ne.symm hb]
  | @mark x s held out =>
      refine ⟨?_, hsane fun _ _ => .inr (Option.some_ne_none s)⟩
      rw [out_set]
      by_cases hb : b = x
      · subst hb
        simp [issues_single, returns_single, Event.issued, Event.returned, hout held]
      · simp [issues_single, returns_single, Event.issued, Event.returned, hb]
  | @announce x held out =>
      refine ⟨rfl, fun b' hb' => ?_⟩
      obtain rfl | hb' := Set.mem_insert_iff.mp hb'
      · exact held
      · exact hl b' hb'
  | @collect x announced =>
      refine ⟨?_, fun b' hb' => ?_⟩
      · change l.out b + _ = (l.set x none).out b + _
        rw [out_set]
        by_cases hb : b = x
        · subst hb
          simp [issues_single, returns_single, Event.issued, Event.returned, hout (hl b announced)]
        · simp [issues_single, returns_single, Event.issued, Event.returned, hb, Ne.symm hb]
      · change (l.set x none).held b' ≠ none
        rw [set_held_of_ne hb'.2]
        exact hl b' hb'.1
  | @giveBack x held out =>
      refine ⟨?_, hsane fun b' hb' => .inl fun he => out (he ▸ hb')⟩
      rw [out_set]
      by_cases hb : b = x
      · subst hb
        simp [issues_single, returns_single, Event.issued, Event.returned, hout held]
      · simp [issues_single, returns_single, Event.issued, Event.returned, hb, Ne.symm hb]

lemma issues_append (es es' : List (Event B S)) (b : B) :
    issues (es ++ es') b = issues es b + issues es' b := by
  simp [issues, List.count_append]

lemma returns_append (es es' : List (Event B S)) (b : B) :
    returns (es ++ es') b = returns es b + returns es' b := by
  simp [returns, List.count_append]

/-- Only the lender hands items out. -/
lemma issues_own (es : List (Event B S)) (b : B) : issues (es.filter Event.own) b = issues es b := by
  induction es with
  | nil => rfl
  | cons e es ih =>
      have hone : issues ([e].filter Event.own) b = issues [e] b := by
        cases e <;> rfl
      rw [← List.singleton_append, List.filter_append, issues_append, issues_append, ih, hone]

/-- An item is out if it was handed out once more often than it came back. -/
lemma Run.balance (h : Run clash l es l') (hl : l.Sane) (b : B) :
    l.out b + issues es b = l'.out b + returns es b ∧ l'.Sane := by
  induction h with
  | nil _ => exact ⟨rfl, hl⟩
  | @cons _ _ _ e es step _ ih =>
      obtain ⟨hstep, hl₁⟩ := step.balance hl b
      obtain ⟨hrest, hl'⟩ := ih hl₁
      refine ⟨?_, hl'⟩
      rw [← List.singleton_append, issues_append, returns_append]
      omega

/-! ## Batches -/

/-- The ledger once the items are in the state. -/
def Ledger.setAll (l : Ledger B S) (bs : List B) (s : Option S) : Ledger B S :=
  { l with held := fun b => if b ∈ bs then s else l.held b }

@[simp] lemma setAll_nil (s : Option S) : l.setAll [] s = l := by
  simp [Ledger.setAll]

lemma setAll_cons (b : B) (bs : List B) (s : Option S) :
    l.setAll (b :: bs) s = (l.set b s).setAll bs s := by
  refine Ledger.ext (funext fun b' => ?_) rfl
  simp only [Ledger.setAll, List.mem_cons]
  by_cases hb : b' = b
  · subst hb
    simp
  · simp [hb, set_held_of_ne]

lemma setAll_perm {bs bs' : List B} (h : bs.Perm bs') (s : Option S) :
    l.setAll bs s = l.setAll bs' s := by
  simp only [Ledger.setAll, h.mem_iff]

/-- Items are handed out one after the other. -/
lemma Run.issueAll {bs : List B} (hnodup : bs.Nodup) (hfree : ∀ b ∈ bs, l.held b = none)
    (hapart : (l.setAll bs (some s)).Apart clash) :
    Run clash l (bs.map (.issue · s)) (l.setAll bs (some s)) := by
  induction bs generalizing l with
  | nil => exact setAll_nil (l := l) (some s) ▸ .nil l
  | cons b bs ih =>
      rw [List.nodup_cons] at hnodup
      rw [setAll_cons] at hapart ⊢
      have hself : ((l.set b (some s)).setAll bs (some s)).held b ≠ none := by
        simp [Ledger.setAll]
      refine .cons (.issue (hfree b List.mem_cons_self) fun b' hb' => ?_)
        (ih hnodup.2 (fun b' hb' => ?_) hapart)
      · have hne : b ≠ b' := fun he => hb' (he ▸ hfree b List.mem_cons_self)
        refine hapart b b' hne hself ?_
        simp only [Ledger.setAll]
        split_ifs
        · exact Option.some_ne_none s
        · rwa [set_held_of_ne hne.symm]
      · have hne : b' ≠ b := fun he => hnodup.1 (he ▸ hb')
        rw [set_held_of_ne hne]
        exact hfree b' (List.mem_cons_of_mem _ hb')

/-- The ledger once announced items were collected. -/
def Ledger.collectAll (l : Ledger B S) (bs : List B) : Ledger B S :=
  ⟨fun b => if b ∈ bs then none else l.held b, {b ∈ l.announced | b ∉ bs}⟩

lemma Run.collectAll {bs : List B} (hnodup : bs.Nodup) (hann : ∀ b ∈ bs, b ∈ l.announced) :
    Run clash l (bs.map .collect) (l.collectAll bs) := by
  induction bs generalizing l with
  | nil =>
      have hself : l.collectAll [] = l := Ledger.ext (by simp [Ledger.collectAll])
        (by simp [Ledger.collectAll])
      rw [hself]
      exact .nil l
  | cons b bs ih =>
      rw [List.nodup_cons] at hnodup
      set l₁ : Ledger B S := { l.set b none with announced := l.announced \ {b} } with hl₁
      have hrest : l.collectAll (b :: bs) = l₁.collectAll bs := by
        refine Ledger.ext (funext fun b' => ?_) (Set.ext fun b' => ?_)
        · simp only [Ledger.collectAll, List.mem_cons, hl₁, Ledger.set]
          by_cases hb : b' = b
          · simp [hb]
          · simp [hb]
        · simp only [Ledger.collectAll, List.mem_cons, hl₁, Set.mem_ofPred_eq, Set.mem_sdiff,
            Set.mem_singleton_iff]
          tauto
      rw [List.map_cons, hrest]
      refine .cons (.collect (hann b List.mem_cons_self)) (ih hnodup.2 fun b' hb' => ?_)
      exact ⟨hann b' (List.mem_cons_of_mem _ hb'), fun he => hnodup.1 (he ▸ hb')⟩

/-- What comes back leaves the other items as they are. -/
lemma Run.others {bs : List B} (h : Run clash l (bs.map .giveBack) l') (hb : b ∉ bs) :
    l'.held b = l.held b ∧ l'.announced = l.announced := by
  induction bs generalizing l with
  | nil =>
      cases h
      exact ⟨rfl, rfl⟩
  | cons x bs ih =>
      rw [List.mem_cons, not_or] at hb
      cases h with
      | cons step rest =>
          cases step with
          | giveBack held out =>
              obtain ⟨hheld, hann⟩ := ih rest hb.2
              exact ⟨hheld.trans (set_held_of_ne hb.1), hann⟩

lemma Run.givenBack {bs : List B} (h : Run clash l (bs.map .giveBack) l') (hb : b ∈ bs) :
    l'.held b = none := by
  induction bs generalizing l with
  | nil => exact absurd hb List.not_mem_nil
  | cons x bs ih =>
      cases h with
      | cons step rest =>
          by_cases hrest : b ∈ bs
          · exact ih rest hrest
          · obtain rfl := (List.mem_cons.mp hb).resolve_right hrest
            cases step with
            | giveBack held out => exact (rest.others hrest).1.trans set_held_self

/-! ## Returns that others announce -/

/-- While nothing is handed out, an announced item stays announced until it has come back. -/
lemma Run.announced (h : Run clash l es l') (hes : ∀ e ∈ es, e.Foreign) (hl : l.Sane)
    (hb : b ∈ l.announced ∨ l.held b = none) : b ∈ l'.announced ∨ l'.held b = none := by
  induction h with
  | nil _ => exact hb
  | @cons l l₁ l' e es step _ ih =>
      refine ih (fun e he => hes e (List.mem_cons_of_mem _ he)) (step.balance hl b).2 ?_
      have hforeign := hes e List.mem_cons_self
      cases step with
      | issue free apart => exact hforeign.elim
      | mark held out => exact hforeign.elim
      | announce held out => exact hb.imp (Set.mem_insert_of_mem _) id
      | @collect x announced =>
          by_cases he : b = x
          · subst he
            exact .inr set_held_self
          · exact hb.imp (fun h => ⟨h, he⟩) fun h => (set_held_of_ne he).trans h
      | giveBack held out => exact hforeign.elim

/-- While nothing is handed out, an item that is in stays in. -/
lemma Run.stays (h : Run clash l es l') (hes : ∀ e ∈ es, e.Foreign) (hb : l.held b = none) :
    l'.held b = none := by
  induction h with
  | nil _ => exact hb
  | @cons l l₁ l' e es step _ ih =>
      refine ih (fun e he => hes e (List.mem_cons_of_mem _ he)) ?_
      have hforeign := hes e List.mem_cons_self
      cases step with
      | issue free apart => exact hforeign.elim
      | mark held out => exact hforeign.elim
      | announce held out => exact hb
      | @collect x announced =>
          by_cases he : b = x
          · subst he
            exact set_held_self
          · exact (set_held_of_ne he).trans hb
      | giveBack held out => exact hforeign.elim

end Lending
