import Mathlib.Data.Multiset.Count
import Mathlib.Data.Multiset.AddSub

/-!
# Logs of stacks

Events of several stacks that draw on shared pools of elements, in the order in
which they take effect. A log is legal when every stack is last in, first out,
takes no element that a stack of the same pool holds, and refuses exactly once
it has taken as many as it can.
-/

/-- An operation of stack `b` together with its answer. -/
inductive StackEvent (B α : Type*)
  | push (b : B) (a : α)
  | refuse (b : B) (a : α)
  | pop (b : B) (a : α)
  | empty (b : B)
  deriving DecidableEq

namespace StackLog
variable {B C α : Type*} [DecidableEq B]

/-- What stack `b` holds after the events (latest first), its top first. -/
def after : List (StackEvent B α) → B → List α
  | [], _ => []
  | .push c a :: l, b => if c = b then a :: after l b else after l b
  | .pop c _ :: l, b => if c = b then (after l b).tail else after l b
  | .refuse _ _ :: l, b => after l b
  | .empty _ :: l, b => after l b

/-- What the stacks in `p` took. -/
def pushed (p : B → Prop) [DecidablePred p] : List (StackEvent B α) → Multiset α
  | [] => 0
  | .push c a :: l => if p c then a ::ₘ pushed p l else pushed p l
  | .pop _ _ :: l => pushed p l
  | .refuse _ _ :: l => pushed p l
  | .empty _ :: l => pushed p l

/-- What the stacks in `p` gave back. -/
def popped (p : B → Prop) [DecidablePred p] : List (StackEvent B α) → Multiset α
  | [] => 0
  | .push _ _ :: l => popped p l
  | .pop c a :: l => if p c then a ::ₘ popped p l else popped p l
  | .refuse _ _ :: l => popped p l
  | .empty _ :: l => popped p l

/-- How often stack `b` took an element. -/
def pushes (l : List (StackEvent B α)) (b : B) : ℕ := (pushed (· = b) l).card

/-- The events are those of stacks, of at most `cap` pushes each, over the pools `pool`. -/
def Legal (cap : B → ℕ) (pool : B → C) : List (StackEvent B α) → Prop
  | [] => True
  | .push b a :: l =>
      Legal cap pool l ∧ pushes l b < cap b ∧ ∀ c, pool c = pool b → a ∉ after l c
  | .refuse b _ :: l => Legal cap pool l ∧ pushes l b = cap b
  | .pop b a :: l => Legal cap pool l ∧ (after l b).head? = some a
  | .empty b :: l => Legal cap pool l ∧ after l b = []

variable {cap : B → ℕ} {pool : B → C} {l : List (StackEvent B α)} {b c : B} {a : α}

@[simp] lemma after_push_self : after (.push b a :: l) b = a :: after l b := if_pos rfl

lemma after_push_of_ne (h : b ≠ c) : after (.push b a :: l) c = after l c := if_neg h

@[simp] lemma after_pop_self : after (.pop b a :: l) b = (after l b).tail := if_pos rfl

lemma after_pop_of_ne (h : b ≠ c) : after (.pop b a :: l) c = after l c := if_neg h

lemma pushes_push_self : pushes (.push b a :: l) b = pushes l b + 1 := by
  simp [pushes, pushed]

lemma pushes_push_of_ne (h : b ≠ c) : pushes (.push b a :: l) c = pushes l c := by
  simp [pushes, pushed, h]

/-- What a stack holds afterwards was pushed by the event or was there before. -/
lemma mem_after_push (h : a ∈ after (.push b a' :: l) c) : (b = c ∧ a = a') ∨ a ∈ after l c := by
  by_cases hb : b = c
  · subst b
    rw [after_push_self, List.mem_cons] at h
    exact h.imp (⟨rfl, ·⟩) id
  · rw [after_push_of_ne hb] at h
    exact .inr h

lemma mem_after_pop (h : a ∈ after (.pop b a' :: l) c) : a ∈ after l c := by
  by_cases hb : b = c
  · subst b
    rw [after_pop_self] at h
    exact List.mem_of_mem_tail h
  · rwa [after_pop_of_ne hb] at h

namespace Legal

/-- Stacks of one pool hold different elements. -/
lemma apart (h : Legal cap pool l) (hp : pool b = pool c) (hb : a ∈ after l b)
    (hc : a ∈ after l c) : b = c := by
  induction l with
  | nil => simp [after] at hb
  | cons e l ih =>
      cases e with
      | push d x =>
          obtain ⟨h, -, hfresh⟩ := h
          obtain ⟨hdb, hab⟩ | hb := mem_after_push hb
          · obtain ⟨hdc, -⟩ | hc := mem_after_push hc
            · exact hdb.symm.trans hdc
            · exact (hfresh c (hdb ▸ hp.symm) (hab ▸ hc)).elim
          · obtain ⟨hdc, hac⟩ | hc := mem_after_push hc
            · exact (hfresh b (hdc ▸ hp) (hac ▸ hb)).elim
            · exact ih h hb hc
      | pop d x => exact ih h.1 (mem_after_pop hb) (mem_after_pop hc)
      | refuse d x | empty d => exact ih h.1 hb hc

/-- A stack holds an element once. -/
lemma nodup (h : Legal cap pool l) (b : B) : (after l b).Nodup := by
  induction l with
  | nil => exact List.nodup_nil
  | cons e l ih =>
      cases e with
      | push d x =>
          obtain ⟨h, -, hfresh⟩ := h
          by_cases hd : d = b
          · subst d
            rw [after_push_self]
            exact List.nodup_cons.mpr ⟨hfresh b rfl, ih h⟩
          · rw [after_push_of_ne hd]
            exact ih h
      | pop d x =>
          by_cases hd : d = b
          · subst d
            rw [after_pop_self]
            exact (ih h.1).sublist (List.tail_sublist _)
          · rw [after_pop_of_ne hd]
            exact ih h.1
      | refuse d x | empty d => exact ih h.1

/-- A popped element leaves every stack of its pool. -/
lemma not_mem_of_pop (h : Legal cap pool (.pop b a :: l)) (hp : pool c = pool b) :
    a ∉ after (.pop b a :: l) c := by
  obtain ⟨h, htop⟩ := h
  obtain ⟨rest, hrest⟩ := List.head?_eq_some_iff.mp htop
  have hmem : a ∈ after l b := hrest ▸ List.mem_cons_self
  intro hc
  obtain rfl := h.apart hp.symm hmem (mem_after_pop hc)
  have hnd := h.nodup b
  rw [after_pop_self, hrest, List.tail_cons] at hc
  rw [hrest] at hnd
  exact (List.nodup_cons.mp hnd).1 hc

lemma pushes_le (h : Legal cap pool l) (b : B) : pushes l b ≤ cap b := by
  induction l with
  | nil => exact Nat.zero_le _
  | cons e l ih =>
      cases e with
      | push d x =>
          obtain ⟨h, hlt, -⟩ := h
          by_cases hd : d = b
          · subst d
            rw [pushes_push_self]
            exact hlt
          · rw [pushes_push_of_ne hd]
            exact ih h
      | pop d x | refuse d x | empty d => exact ih h.1

/-- What a stack took is what it gave back and what it holds. -/
theorem balance (h : Legal cap pool l) (b : B) :
    pushed (· = b) l = popped (· = b) l + after l b := by
  induction l with
  | nil => rfl
  | cons e l ih =>
      cases e with
      | push d x =>
          by_cases hd : d = b
          · simp [pushed, popped, after, hd, ih h.1, ← Multiset.cons_coe]
          · simp [pushed, popped, after, hd, ih h.1]
      | pop d x =>
          obtain ⟨h, htop⟩ := h
          by_cases hd : d = b
          · subst d
            obtain ⟨rest, hrest⟩ := List.head?_eq_some_iff.mp htop
            simp [pushed, popped, after, ih h, hrest, ← Multiset.cons_coe]
          · simp [pushed, popped, after, hd, ih h]
      | refuse d x | empty d => exact ih h.1

variable [DecidableEq C] [DecidableEq α]

/-- Over a pool, an element was taken once more than given back while a stack holds it,
and as often as given back while none does. -/
theorem count_balance (h : Legal cap pool l) (k : C) (a : α) :
    ((∃ b, pool b = k ∧ a ∈ after l b) ∧
      (pushed (pool · = k) l).count a = (popped (pool · = k) l).count a + 1) ∨
    ((∀ b, pool b = k → a ∉ after l b) ∧
      (pushed (pool · = k) l).count a = (popped (pool · = k) l).count a) := by
  induction l with
  | nil => exact .inr ⟨fun _ _ => by simp [after], rfl⟩
  | cons e l ih =>
      cases e with
      | push d x =>
          by_cases hx : pool d = k ∧ a = x
          · obtain ⟨rfl, rfl⟩ := hx
            obtain ⟨⟨b, hb, hmem⟩, -⟩ | ⟨-, hcount⟩ := ih h.1
            · exact (h.2.2 b hb hmem).elim
            · exact .inl ⟨⟨d, rfl, by simp⟩, by simp [pushed, popped, hcount]⟩
          · have hcount : (pushed (pool · = k) (.push d x :: l)).count a =
                (pushed (pool · = k) l).count a := by
              rw [pushed]
              split_ifs with hd
              · exact Multiset.count_cons_of_ne (fun ha => hx ⟨hd, ha⟩) _
              · rfl
            rw [hcount]
            refine (ih h.1).imp (And.imp_left ?_) (And.imp_left fun hno b hb hmem => ?_)
            · rintro ⟨b, hb, hmem⟩
              refine ⟨b, hb, ?_⟩
              by_cases hd : d = b
              · subst d
                rw [after_push_self]
                exact List.mem_cons_of_mem _ hmem
              · rwa [after_push_of_ne hd]
            · obtain ⟨rfl, rfl⟩ | hmem := mem_after_push hmem
              · exact hx ⟨hb, rfl⟩
              · exact hno b hb hmem
      | pop d x =>
          obtain ⟨rest, hrest⟩ := List.head?_eq_some_iff.mp h.2
          have hmem : x ∈ after l d := hrest ▸ List.mem_cons_self
          by_cases hx : pool d = k ∧ a = x
          · obtain ⟨rfl, rfl⟩ := hx
            obtain ⟨-, hcount⟩ | ⟨hno, -⟩ := ih h.1
            · exact .inr ⟨fun b hb => h.not_mem_of_pop hb, by simp [pushed, popped, hcount]⟩
            · exact (hno d rfl hmem).elim
          · have hcount : (popped (pool · = k) (.pop d x :: l)).count a =
                (popped (pool · = k) l).count a := by
              rw [popped]
              split_ifs with hd
              · exact Multiset.count_cons_of_ne (fun ha => hx ⟨hd, ha⟩) _
              · rfl
            rw [hcount]
            refine (ih h.1).imp (And.imp_left ?_) (And.imp_left fun hno b hb hmem => ?_)
            · rintro ⟨b, hb, hold⟩
              refine ⟨b, hb, ?_⟩
              by_cases hd : d = b
              · subst d
                rw [hrest, List.mem_cons] at hold
                rw [after_pop_self, hrest, List.tail_cons]
                exact hold.resolve_left fun ha => hx ⟨hb, ha⟩
              · rwa [after_pop_of_ne hd]
            · exact hno b hb (mem_after_pop hmem)
      | refuse d x | empty d => exact ih h.1

end Legal

end StackLog
