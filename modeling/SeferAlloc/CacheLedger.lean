import Mathlib.Tactic

/-!
# A ledger of cached resources

A resource is absent, in use, or in a cache, under an entry with the weight it
counts for and the stamp it was deposited with. The ledger follows a history of
events; a history that fits never withdraws what is not cached, and evicts in
the order of the stamps.
-/
namespace CacheLedger

structure Entry (κ : Type*) where
  key : κ
  weight : ℕ
  stamp : ℕ
deriving DecidableEq

inductive Status (κ : Type*) where
  | absent
  | inUse
  | cached (e : Entry κ)

/-- A withdrawal records the weight counter it is subtracted from. -/
inductive Event (κ : Type*) where
  | granted (k : κ)
  | returned (k : κ)
  | deposited (e : Entry κ)
  | reused (e : Entry κ) (used : ℕ)
  | evicted (e : Entry κ) (used : ℕ)
  | discarded (e : Entry κ) (used : ℕ)
deriving DecidableEq

abbrev Ledger (κ : Type*) := κ → Status κ

variable {κ : Type*}

def Event.key : Event κ → κ
  | .granted k | .returned k => k
  | .deposited e | .reused e _ | .evicted e _ | .discarded e _ => e.key

/-- The entry an event takes out of the cache, and the counter it reads. -/
def Event.withdrawal : Event κ → Option (Entry κ × ℕ)
  | .reused e used | .evicted e used | .discarded e used => some (e, used)
  | _ => none

/-- Where an event leaves the resource it names. -/
def Event.result : Event κ → Status κ
  | .granted _ | .reused _ _ => .inUse
  | .deposited e => .cached e
  | .returned _ | .evicted _ _ | .discarded _ _ => .absent

/-- The event may happen in the state of the ledger. -/
def Event.Fits (l : Ledger κ) : Event κ → Prop
  | .granted k => l k = .absent
  | .returned k => l k = .inUse
  | .deposited e => l e.key = .inUse
  | .reused e used | .discarded e used => l e.key = .cached e ∧ e.weight ≤ used
  | .evicted e used => l e.key = .cached e ∧ e.weight ≤ used ∧
      ∀ k d, l k = .cached d → e.stamp ≤ d.stamp

/-- Only a withdrawal happens to what is cached. -/
lemma Event.Fits.withdraws {l : Ledger κ} {x : Event κ} {e : Entry κ} (h : x.Fits l)
    (hc : l x.key = .cached e) : ∃ used, x.withdrawal = some (e, used) ∧ e.weight ≤ used := by
  cases x with
  | granted k => cases hc.symm.trans h
  | returned k => cases hc.symm.trans h
  | deposited d => cases hc.symm.trans h
  | reused d used | discarded d used =>
      cases hc.symm.trans h.1
      exact ⟨used, rfl, h.2⟩
  | evicted d used =>
      cases hc.symm.trans h.1
      exact ⟨used, rfl, h.2.1⟩

lemma Event.Fits.cached {l : Ledger κ} {x : Event κ} {e : Entry κ} {used : ℕ} (h : x.Fits l)
    (hw : x.withdrawal = some (e, used)) : l e.key = .cached e ∧ e.weight ≤ used := by
  cases x with
  | granted k | returned k | deposited d => cases hw
  | reused d u | discarded d u =>
      cases hw
      exact h
  | evicted d u =>
      cases hw
      exact ⟨h.1, h.2.1⟩

section
variable [DecidableEq κ]

def Ledger.record (l : Ledger κ) (e : Event κ) : Ledger κ := Function.update l e.key e.result

def Ledger.after (l : Ledger κ) (es : List (Event κ)) : Ledger κ := es.foldl Ledger.record l

def Follows (l : Ledger κ) : List (Event κ) → Prop
  | [] => True
  | e :: es => e.Fits l ∧ Follows (l.record e) es

lemma Ledger.after_append (l : Ledger κ) (es fs : List (Event κ)) :
    l.after (es ++ fs) = (l.after es).after fs := List.foldl_append

lemma follows_append {l : Ledger κ} {es fs : List (Event κ)} :
    Follows l (es ++ fs) ↔ Follows l es ∧ Follows (l.after es) fs := by
  induction es generalizing l with
  | nil => exact ⟨fun h => ⟨trivial, h⟩, And.right⟩
  | cons e es ih =>
      rw [List.cons_append, Follows, Follows, ih, and_assoc]
      rfl

lemma Follows.fits {l : Ledger κ} {before after : List (Event κ)} {e : Event κ}
    (h : Follows l (before ++ e :: after)) : e.Fits (l.after before) :=
  (follows_append.mp h).2.1

@[simp] lemma Ledger.record_self (l : Ledger κ) (e : Event κ) : l.record e e.key = e.result :=
  Function.update_self _ _ _

lemma Ledger.record_of_ne (l : Ledger κ) {e : Event κ} {k : κ} (h : e.key ≠ k) :
    l.record e k = l k := Function.update_of_ne (Ne.symm h) _ _

lemma Ledger.after_of_forall_ne (l : Ledger κ) {es : List (Event κ)} {k : κ}
    (h : ∀ e ∈ es, e.key ≠ k) : l.after es k = l k := by
  induction es generalizing l with
  | nil => rfl
  | cons e es ih =>
      rw [List.forall_mem_cons] at h
      exact (ih (l.record e) h.2).trans (l.record_of_ne h.1)

/-- What is cached stays so until the first event that names it, which withdraws it. -/
lemma Follows.fate {l : Ledger κ} {es : List (Event κ)} (h : Follows l es) {e : Entry κ}
    (hc : l e.key = .cached e) :
    (l.after es e.key = .cached e ∧ ∀ x ∈ es, x.key ≠ e.key) ∨
      ∃ before x after used, es = before ++ x :: after ∧ x.withdrawal = some (e, used) ∧
        ∀ y ∈ before, y.key ≠ e.key := by
  induction es generalizing l with
  | nil => exact .inl ⟨hc, by simp⟩
  | cons x es ih =>
      by_cases hx : x.key = e.key
      · obtain ⟨used, hw, -⟩ := h.1.withdraws (hx ▸ hc)
        exact .inr ⟨[], x, es, used, rfl, hw, by simp⟩
      · have hc' : l.record x e.key = .cached e := (l.record_of_ne hx).trans hc
        obtain ⟨hstay, hout⟩ | ⟨before, y, after, used, rfl, hw, hout⟩ := ih h.2 hc'
        · exact .inl ⟨hstay, List.forall_mem_cons.mpr ⟨hx, hout⟩⟩
        · exact .inr ⟨x :: before, y, after, used, rfl, hw, List.forall_mem_cons.mpr ⟨hx, hout⟩⟩

/-- What is cached was so from the start, or the last event that names it deposited it. -/
lemma Ledger.origin {l : Ledger κ} {es : List (Event κ)} {k : κ} {e : Entry κ}
    (hc : l.after es k = .cached e) :
    l k = .cached e ∨
      ∃ before after, es = before ++ .deposited e :: after ∧ e.key = k ∧
        ∀ y ∈ after, y.key ≠ k := by
  induction es using List.reverseRecOn with
  | nil => exact .inl hc
  | append_singleton es x ih =>
      rw [Ledger.after_append] at hc
      change (l.after es).record x k = .cached e at hc
      by_cases hx : x.key = k
      · subst hx
        rw [Ledger.record_self] at hc
        cases x with
        | deposited d =>
            obtain rfl : d = e := Status.cached.inj hc
            exact .inr ⟨es, [], rfl, rfl, by simp⟩
        | granted k | returned k | reused d u | evicted d u | discarded d u => cases hc
      · rw [Ledger.record_of_ne _ hx] at hc
        obtain hl | ⟨before, after, rfl, hk, hout⟩ := ih hc
        · exact .inl hl
        · refine .inr ⟨before, after ++ [x], by simp, hk, ?_⟩
          simpa [or_imp, forall_and] using ⟨hout, hx⟩

end

end CacheLedger
