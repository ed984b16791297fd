import Mathlib.Data.List.Induction
import Mathlib.Data.List.Nodup
import Mathlib.Logic.Function.Basic

/-!
# Doubly linked lists

A list threaded both ways through its own cells, with a head and a tail. Zero is
the null link. Cells enter at the front and leave from any position; a cell that
leaves keeps no link.
-/
namespace LinkedDeque

variable {α : Type*}

/-- The links from the cell `before` the list to the cell `after` it. -/
def Threaded (next prev : α → α) : α → List α → α → Prop
  | _, [], _ => True
  | before, x :: xs, after =>
      prev x = before ∧ next x = xs.headD after ∧ Threaded next prev x xs after

section Threaded
variable {next prev next' prev' : α → α} {before after : α} {l as bs : List α}

lemma headD_append (as bs : List α) (d : α) : (as ++ bs).headD d = as.headD (bs.headD d) := by
  cases as <;> rfl

lemma getLastD_append (as bs : List α) (d : α) :
    (as ++ bs).getLastD d = bs.getLastD (as.getLastD d) := by
  induction as generalizing d with
  | nil => rfl
  | cons x xs ih => rw [List.cons_append, List.getLastD_cons, ih, List.getLastD_cons]

lemma threaded_append : Threaded next prev before (as ++ bs) after ↔
    Threaded next prev before as (bs.headD after) ∧
      Threaded next prev (as.getLastD before) bs after := by
  induction as generalizing before with
  | nil => simp [Threaded]
  | cons x xs ih =>
      simp only [List.cons_append, Threaded, headD_append, ih, List.getLastD_cons, and_assoc]

lemma Threaded.congr (h : Threaded next prev before l after)
    (hl : ∀ x ∈ l, next' x = next x ∧ prev' x = prev x) :
    Threaded next' prev' before l after := by
  induction l generalizing before with
  | nil => trivial
  | cons x xs ih =>
      obtain ⟨hp, hn, ht⟩ := h
      obtain ⟨hn', hp'⟩ := hl x List.mem_cons_self
      exact ⟨hp'.trans hp, hn'.trans hn, ih ht fun y hy => hl y (List.mem_cons_of_mem _ hy)⟩

variable [DecidableEq α]

/-- A list followed by another cell: the forward link of its last cell changes. -/
lemma Threaded.relinkAfter (h : Threaded next prev before l after) (hl : l.Nodup) (hne : l ≠ [])
    (after' : α) : Threaded (Function.update next (l.getLastD before) after') prev before l
      after' := by
  induction l generalizing before with
  | nil => exact absurd rfl hne
  | cons x xs ih =>
      obtain ⟨hp, hn, ht⟩ := h
      rw [List.nodup_cons] at hl
      cases xs with
      | nil => exact ⟨hp, Function.update_self _ _ _, trivial⟩
      | cons y ys =>
          have hx : x ≠ (y :: ys).getLastD x := by
            intro he
            rw [List.getLastD_cons] at he
            exact hl.1 (he ▸ List.getLastD_mem_cons)
          refine ⟨hp, ?_, ih ht hl.2 (by simp)⟩
          rw [List.getLastD_cons, Function.update_of_ne hx]
          exact hn

/-- A list preceded by another cell: the backward link of its first cell changes. -/
lemma Threaded.relinkBefore {x : α} (h : Threaded next prev before (x :: l) after)
    (hx : x ∉ l) (before' : α) :
    Threaded next (Function.update prev x before') before' (x :: l) after := by
  obtain ⟨-, hn, ht⟩ := h
  refine ⟨Function.update_self _ _ _, hn, ht.congr fun y hy => ⟨rfl, ?_⟩⟩
  exact Function.update_of_ne (ne_of_mem_of_not_mem hy hx) _ _

end Threaded

/-- The two links of every cell and the two ends. -/
structure Links (α : Type*) where
  next : α → α
  prev : α → α
  head : α
  tail : α

variable [Zero α]

namespace Links
variable [DecidableEq α]

def pushFront (s : Links α) (b : α) : Links α :=
  let s' := { s with prev := Function.update s.prev b 0, next := Function.update s.next b s.head }
  let s' := if s.head = 0 then { s' with tail := b }
    else { s' with prev := Function.update s'.prev s.head b }
  { s' with head := b }

def unlink (s : Links α) (b : α) : Links α :=
  let prev := s.prev b
  let next := s.next b
  let s := if prev = 0 then { s with head := next }
    else { s with next := Function.update s.next prev next }
  let s := if next = 0 then { s with tail := prev }
    else { s with prev := Function.update s.prev next prev }
  { s with next := Function.update s.next b 0, prev := Function.update s.prev b 0 }

/-- The four fields after an unlink. -/
lemma unlink_eq (s : Links α) (b : α) : s.unlink b =
    ⟨Function.update (if s.prev b = 0 then s.next
        else Function.update s.next (s.prev b) (s.next b)) b 0,
      Function.update (if s.next b = 0 then s.prev
        else Function.update s.prev (s.next b) (s.prev b)) b 0,
      if s.prev b = 0 then s.next b else s.head, if s.next b = 0 then s.prev b else s.tail⟩ := by
  simp only [unlink]
  split_ifs <;> rfl

@[simp] lemma unlink_next_self (s : Links α) (b : α) : (s.unlink b).next b = 0 :=
  Function.update_self _ _ _

@[simp] lemma unlink_prev_self (s : Links α) (b : α) : (s.unlink b).prev b = 0 :=
  Function.update_self _ _ _

end Links

/-- The links thread exactly the cells of `l`, from the head to the tail. -/
structure Linked (s : Links α) (l : List α) : Prop where
  head : s.head = l.headD 0
  tail : s.tail = l.getLastD 0
  threaded : Threaded s.next s.prev 0 l 0
  nodup : l.Nodup
  ne_zero : ∀ x ∈ l, x ≠ 0

namespace Linked
variable {s : Links α} {l : List α} {b : α}

lemma nil {s : Links α} (hh : s.head = 0) (ht : s.tail = 0) : Linked s [] :=
  ⟨hh, ht, trivial, List.nodup_nil, by simp⟩

/-- Only the ends and the links of the members matter. -/
lemma congr {s' : Links α} (h : Linked s l) (hh : s'.head = s.head) (ht : s'.tail = s.tail)
    (hl : ∀ x ∈ l, s'.next x = s.next x ∧ s'.prev x = s.prev x) : Linked s' l :=
  ⟨hh.trans h.head, ht.trans h.tail, h.threaded.congr hl, h.nodup, h.ne_zero⟩

/-- The links of a member of the list. -/
lemma split (h : Linked s l) (hb : b ∈ l) :
    ∃ as bs, l = as ++ b :: bs ∧ s.prev b = as.getLastD 0 ∧ s.next b = bs.headD 0 ∧
      Threaded s.next s.prev 0 as b ∧ Threaded s.next s.prev b bs 0 := by
  obtain ⟨as, bs, rfl⟩ := List.append_of_mem hb
  obtain ⟨h₁, hp, hn, h₂⟩ := threaded_append.mp h.threaded
  exact ⟨as, bs, rfl, hp, hn, h₁, h₂⟩

lemma getLastD_eq_zero {as : List α} (h : ∀ x ∈ as, x ≠ 0) : as.getLastD 0 = 0 ↔ as = [] := by
  cases as with
  | nil => exact iff_of_true rfl rfl
  | cons x xs =>
      rw [List.getLastD_cons]
      exact iff_of_false (h _ List.getLastD_mem_cons) (List.cons_ne_nil x xs)

lemma headD_eq_zero {as : List α} (h : ∀ x ∈ as, x ≠ 0) : as.headD 0 = 0 ↔ as = [] := by
  cases as with
  | nil => simp
  | cons x xs => simpa using h x List.mem_cons_self

/-- A forward link leads to a member whose backward link returns. -/
lemma next_prev (h : Linked s l) (hb : b ∈ l) (hn : s.next b ≠ 0) :
    s.next b ∈ l ∧ s.prev (s.next b) = b := by
  obtain ⟨as, bs, rfl, -, hnb, -, ht⟩ := h.split hb
  cases bs with
  | nil => exact absurd hnb hn
  | cons y ys =>
      rw [show s.next b = y from hnb]
      exact ⟨by simp, ht.1⟩

lemma prev_next (h : Linked s l) (hb : b ∈ l) (hp : s.prev b ≠ 0) :
    s.prev b ∈ l ∧ s.next (s.prev b) = b := by
  obtain ⟨as, bs, rfl, hpb, -, ht, -⟩ := h.split hb
  cases as using List.reverseRecOn with
  | nil => exact absurd hpb hp
  | append_singleton as x =>
      have hx : s.prev b = x := by simpa using hpb
      rw [hx]
      exact ⟨by simp, (threaded_append.mp ht).2.2.1⟩

/-- The end tests: only the head has no backward link, only the tail no forward one. -/
lemma prev_eq_zero (h : Linked s l) (hb : b ∈ l) : s.prev b = 0 ↔ s.head = b := by
  obtain ⟨as, bs, rfl, hp, -, -, -⟩ := h.split hb
  rw [hp, getLastD_eq_zero fun x hx => h.ne_zero x (List.mem_append_left _ hx), h.head]
  cases as with
  | nil => simp
  | cons x xs =>
      have hx : x ≠ b := by
        rintro rfl
        exact (List.nodup_cons.mp h.nodup).1 (by simp)
      simpa using hx

lemma next_eq_zero (h : Linked s l) (hb : b ∈ l) : s.next b = 0 ↔ s.tail = b := by
  obtain ⟨as, bs, rfl, -, hn, -, -⟩ := h.split hb
  have hz : ∀ x ∈ bs, x ≠ 0 := fun x hx =>
    h.ne_zero x (List.mem_append_right _ (List.mem_cons_of_mem _ hx))
  rw [hn, headD_eq_zero hz, h.tail]
  have hnd := (List.nodup_append.mp h.nodup).2.1
  cases bs with
  | nil => simp
  | cons y ys =>
      have hy : ys.getLastD y ≠ b := by
        intro he
        exact (List.nodup_cons.mp hnd).1 (he ▸ List.getLastD_mem_cons)
      rw [getLastD_append, List.getLastD_cons, List.getLastD_cons]
      exact iff_of_false (List.cons_ne_nil y ys) hy

/-- The members are what the head and the backward links tell. -/
lemma mem_iff (h : Linked s l) (h0 : b ≠ 0) (hout : b ∉ l → s.prev b = 0) :
    b ∈ l ↔ s.head = b ∨ s.prev b ≠ 0 := by
  constructor
  · intro hb
    by_cases hp : s.prev b = 0
    · exact .inl ((h.prev_eq_zero hb).mp hp)
    · exact .inr hp
  · rintro (hh | hp)
    · cases l with
      | nil => exact absurd (hh.symm.trans h.head) h0
      | cons x xs =>
          rw [← hh, h.head]
          exact List.mem_cons_self
    · by_contra hb
      exact hp (hout hb)

variable [DecidableEq α]

lemma pushFront (h : Linked s l) (hb : b ∉ l) (h0 : b ≠ 0) :
    Linked (s.pushFront b) (b :: l) := by
  have hne : ∀ x ∈ b :: l, x ≠ 0 := by
    rintro x (_ | ⟨_, hx⟩)
    · exact h0
    · exact h.ne_zero x hx
  have hnd : (b :: l).Nodup := List.nodup_cons.mpr ⟨hb, h.nodup⟩
  simp only [Links.pushFront]
  cases l with
  | nil =>
      have hhead : s.head = 0 := h.head
      simp only [if_pos hhead]
      refine ⟨rfl, rfl, ⟨Function.update_self _ _ _, ?_, trivial⟩, hnd, hne⟩
      simp only [Function.update_self, hhead, List.headD_nil]
  | cons x xs =>
      have hx : s.head = x := h.head
      have hx0 : x ≠ 0 := h.ne_zero x List.mem_cons_self
      have hxb : b ≠ x := by
        rintro rfl
        exact hb List.mem_cons_self
      have hxs : x ∉ xs := (List.nodup_cons.mp h.nodup).1
      simp only [hx, if_neg hx0]
      refine ⟨rfl, ?_, ⟨?_, Function.update_self _ _ _, ?_⟩, hnd, hne⟩
      · simp only [h.tail, List.getLastD_cons]
      · simp only [Function.update_of_ne hxb, Function.update_self]
      · -- The old members keep their links, but the first now follows `b`.
        have hmove : Threaded (Function.update s.next b x) (Function.update s.prev b 0) 0
            (x :: xs) 0 := by
          refine h.threaded.congr fun y hy => ?_
          have hyb : y ≠ b := ne_of_mem_of_not_mem hy hb
          exact ⟨Function.update_of_ne hyb _ _, Function.update_of_ne hyb _ _⟩
        exact hmove.relinkBefore hxs b

/-- A push leaves the links of every other cell outside the list alone. -/
lemma pushFront_outside {x : α} (h : Linked s l) (hxb : x ≠ b) (hx : x ∉ l) :
    (s.pushFront b).next x = s.next x ∧ (s.pushFront b).prev x = s.prev x := by
  simp only [Links.pushFront]
  split_ifs with h0
  · exact ⟨Function.update_of_ne hxb _ _, Function.update_of_ne hxb _ _⟩
  · have hhead : x ≠ s.head := by
      rintro rfl
      cases l with
      | nil => exact h0 h.head
      | cons y ys => exact hx (h.head ▸ List.mem_cons_self)
    exact ⟨Function.update_of_ne hxb _ _,
      (Function.update_of_ne hhead _ _).trans (Function.update_of_ne hxb _ _)⟩

/-- An unlinked cell keeps no link, and no cell outside the list is touched. -/
lemma unlink_outside {x : α} (h : Linked s l) (hb : b ∈ l) (hx : x ∉ l) :
    (s.unlink b).next x = s.next x ∧ (s.unlink b).prev x = s.prev x := by
  have hxb : x ≠ b := (ne_of_mem_of_not_mem hb hx).symm
  have hp : s.prev b ≠ 0 → x ≠ s.prev b := fun h0 he => hx (he ▸ (h.prev_next hb h0).1)
  have hn : s.next b ≠ 0 → x ≠ s.next b := fun h0 he => hx (he ▸ (h.next_prev hb h0).1)
  simp only [Links.unlink_eq, Function.update_of_ne hxb]
  constructor
  · split_ifs with h0
    · rfl
    · exact Function.update_of_ne (hp h0) _ _
  · split_ifs with h0
    · rfl
    · exact Function.update_of_ne (hn h0) _ _

lemma unlink (h : Linked s l) (hb : b ∈ l) : Linked (s.unlink b) (l.erase b) := by
  obtain ⟨as, bs, rfl, hp, hn, hta, htb⟩ := h.split hb
  obtain ⟨hna, hnb, hdis⟩ := List.nodup_append.mp h.nodup
  obtain ⟨hbb, hnb⟩ := List.nodup_cons.mp hnb
  have hba : b ∉ as := fun hm => hdis b hm b List.mem_cons_self rfl
  have hza : ∀ x ∈ as, x ≠ 0 := fun x hx => h.ne_zero x (List.mem_append_left _ hx)
  have hzb : ∀ x ∈ bs, x ≠ 0 := fun x hx =>
    h.ne_zero x (List.mem_append_right _ (List.mem_cons_of_mem _ hx))
  have hab : ∀ x ∈ as, x ∉ bs := fun x hx hm =>
    hdis x hx x (List.mem_cons_of_mem _ hm) rfl
  rw [List.erase_append_right _ hba, List.erase_cons_head]
  -- The forward links of the first part and the backward links of the second.
  set next₁ := if s.prev b = 0 then s.next else Function.update s.next (s.prev b) (s.next b)
    with hnext
  set prev₁ := if s.next b = 0 then s.prev else Function.update s.prev (s.next b) (s.prev b)
    with hprev
  have hnd : (as ++ bs).Nodup := by
    refine List.nodup_append.mpr ⟨hna, hnb, fun x hx y hy hxy => hab x hx (hxy ▸ hy)⟩
  have hfirst : Threaded next₁ s.prev 0 as (s.next b) := by
    by_cases has : as = []
    · rw [has]
      trivial
    · rw [hnext, if_neg (by rwa [hp, getLastD_eq_zero hza]), hp]
      exact hta.relinkAfter hna has _
  have hsecond : Threaded s.next prev₁ (s.prev b) bs 0 := by
    cases bs with
    | nil => trivial
    | cons y ys =>
        rw [show s.next b = y from hn, if_neg (hzb y List.mem_cons_self)] at hprev
        rw [hprev]
        exact htb.relinkBefore (List.nodup_cons.mp hnb).1 _
  have hmemPrev : s.prev b ≠ 0 → s.prev b ∈ as := by
    intro hne
    rw [hp] at hne ⊢
    cases as with
    | nil => exact absurd rfl hne
    | cons x xs =>
        rw [List.getLastD_cons]
        exact List.getLastD_mem_cons
  have hmemNext : s.next b ≠ 0 → s.next b ∈ bs := by
    intro hne
    rw [hn] at hne ⊢
    cases bs with
    | nil => exact absurd rfl hne
    | cons y ys => exact List.mem_cons_self
  rw [Links.unlink_eq]
  refine ⟨?_, ?_, threaded_append.mpr ⟨?_, ?_⟩, hnd, ?_⟩
  · change (if s.prev b = 0 then s.next b else s.head) = _
    cases as with
    | nil =>
        have hp0 : s.prev b = 0 := hp
        rw [if_pos hp0, hn, List.nil_append]
    | cons x xs =>
        have hne : s.prev b ≠ 0 := by
          rw [hp, List.getLastD_cons]
          exact hza _ List.getLastD_mem_cons
        rw [if_neg hne, h.head]
        rfl
  · change (if s.next b = 0 then s.prev b else s.tail) = _
    cases bs with
    | nil =>
        have hn0 : s.next b = 0 := hn
        rw [if_pos hn0, hp, List.append_nil]
    | cons y ys =>
        rw [if_neg (hn ▸ hzb y List.mem_cons_self), h.tail, getLastD_append, getLastD_append]
        simp only [List.getLastD_cons]
  · rw [← hn]
    refine hfirst.congr fun x hx => ?_
    have hxb : x ≠ b := ne_of_mem_of_not_mem hx hba
    refine ⟨Function.update_of_ne hxb _ _, (Function.update_of_ne hxb _ _).trans ?_⟩
    split_ifs with h0
    · rfl
    · have hne : x ≠ s.next b := fun he => hab x hx (by rw [he]; exact hmemNext h0)
      exact Function.update_of_ne hne _ _
  · rw [← hp]
    refine hsecond.congr fun x hx => ?_
    have hxb : x ≠ b := ne_of_mem_of_not_mem hx hbb
    refine ⟨(Function.update_of_ne hxb _ _).trans ?_, Function.update_of_ne hxb _ _⟩
    split_ifs with h0
    · rfl
    · have hne : x ≠ s.prev b := fun he => hab x (by rw [he]; exact hmemPrev h0) hx
      exact Function.update_of_ne hne _ _
  · intro x hx
    rcases List.mem_append.mp hx with hx | hx
    · exact hza x hx
    · exact hzb x hx

end Linked

end LinkedDeque
