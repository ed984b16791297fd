import Mathlib.Data.List.TakeDrop
import Mathlib.Data.List.Nodup
import Mathlib.Order.Basic
import Mathlib.Tactic.Common

/-!
# Going round

A cursor walks over ordered places and is put back to the first one at the end.
Items lie ahead of some places; an item is gone once the cursor has passed it.
After one round nothing is left.

A queue that is served in turns looks at a few entries at its front and puts
those that stay at its end, so the entries are looked at in their order.
-/
namespace SeferAlloc
namespace Sweep

section
variable {P X : Type*} [Preorder P] {ahead : P → X → Prop} {pending pending' : X → Prop}
  {start cursor cursor' : P} {wraps : ℕ}

/-- What is left of a walk from `start` that has come to the end `wraps` times and is at `cursor`
now: what it has not passed yet. -/
def Left (ahead : P → X → Prop) (start : P) (pending : X → Prop) : ℕ → P → Prop
  | 0, cursor => ∀ x, pending x → ahead cursor x ∨ ¬ahead start x
  | 1, cursor => ∀ x, pending x → ahead cursor x ∧ ¬ahead start x
  | _ + 2, _ => ∀ x, ¬pending x

/-- The cursor has come round to where it started. -/
def Round (start : P) (wraps : ℕ) (cursor : P) : Prop := 2 ≤ wraps ∨ wraps = 1 ∧ start ≤ cursor

lemma left_start (ahead : P → X → Prop) (start : P) (pending : X → Prop) :
    Left ahead start pending 0 start := fun _ _ => em _

lemma Left.move (h : Left ahead start pending wraps cursor) (hp : ∀ x, pending' x → pending x)
    (hm : ∀ x, pending' x → ahead cursor x → ahead cursor' x) :
    Left ahead start pending' wraps cursor' := by
  match wraps with
  | 0 =>
      intro x hx
      exact (h x (hp x hx)).imp_left (hm x hx)
  | 1 =>
      intro x hx
      obtain ⟨ha, hs⟩ := h x (hp x hx)
      exact ⟨hm x hx ha, hs⟩
  | _ + 2 => exact fun x hx => h x (hp x hx)

/-- At the end nothing is ahead, and everything is ahead of the first place. -/
lemma Left.wrap (h : Left ahead start pending wraps cursor)
    (hend : ∀ x, pending x → ¬ahead cursor x) (hfirst : ∀ x, pending x → ahead cursor' x) :
    Left ahead start pending (wraps + 1) cursor' := by
  match wraps with
  | 0 =>
      intro x hx
      exact ⟨hfirst x hx, (h x hx).resolve_left (hend x hx)⟩
  | 1 => exact fun x hx => hend x hx (h x hx).1
  | _ + 2 => exact h

lemma Left.round (h : Left ahead start pending wraps cursor) (hr : Round start wraps cursor)
    (hmono : ∀ p q x, p ≤ q → ahead q x → ahead p x) (x : X) : ¬pending x := by
  match wraps with
  | 0 =>
      rcases hr with hr | hr
      · omega
      · simp at hr
  | 1 =>
      intro hx
      obtain ⟨ha, hs⟩ := h x hx
      obtain hr | hr := hr
      · omega
      · exact hs (hmono _ _ x hr.2 ha)
  | _ + 2 => exact h x

end

/-! ## Queues served in turns -/

section
variable {α : Type*} {k : ℕ}

/-- Each turn looks at `k` entries, or at all if there are fewer. -/
inductive Turns (k : ℕ) : List α → List (List α) → List α → Prop where
  | nil (q : List α) : Turns k q [] q
  | cons {q q' : List α} {looked : List (List α)} (kept : List α) :
      Turns k (q.drop k ++ kept) looked q' → Turns k q (q.take k :: looked) q'

/-- The first entries to be looked at are those of the queue, in its order. -/
lemma Turns.flatten_take {q q' : List α} {looked : List (List α)} (h : Turns k q looked q') :
    looked.flatten.take q.length = q.take (k * looked.length) := by
  suffices hgen : ∀ rest extra, q = rest ++ extra →
      looked.flatten.take rest.length = rest.take (k * looked.length) from
    hgen q [] (List.append_nil q).symm
  induction h with
  | nil q => simp
  | @cons q q' looked kept _ ih =>
      rintro rest extra rfl
      have hflat : ((rest ++ extra).take k :: looked).flatten =
          (rest ++ extra).take k ++ looked.flatten := List.flatten_cons
      have hlen : k * ((rest ++ extra).take k :: looked).length = k + k * looked.length := by
        rw [List.length_cons, Nat.mul_add, Nat.mul_one, Nat.add_comm]
      rw [hflat, hlen]
      obtain hk | hk := Nat.le_total rest.length k
      · have htake : (rest ++ extra).take k = rest ++ extra.take (k - rest.length) := by
          rw [List.take_append, List.take_of_length_le hk]
        rw [htake, List.append_assoc, List.take_left,
          List.take_of_length_le (show rest.length ≤ k + k * looked.length by omega)]
      · have htake : (rest ++ extra).take k = rest.take k := List.take_append_of_le_length hk
        have hdrop : (rest ++ extra).drop k ++ kept = rest.drop k ++ (extra ++ kept) := by
          rw [List.drop_append_of_le_length hk, List.append_assoc]
        have hrest := ih (rest.drop k) (extra ++ kept) hdrop
        have hlength : (rest.take k).length = k := List.length_take_of_le hk
        rw [htake, List.take_append, hlength, List.take_of_length_le (by omega), List.take_add]
        rw [List.length_drop] at hrest
        rw [hrest]

lemma Turns.length_le {q q' : List α} {looked : List (List α)} (h : Turns k q looked q') :
    ∀ l ∈ looked, l.length ≤ k := by
  induction h with
  | nil q => simp
  | cons kept _ ih =>
      intro l hl
      obtain rfl | hl := List.mem_cons.mp hl
      · exact List.length_take_le _ _
      · exact ih l hl

end

end Sweep

end SeferAlloc
