import Mathlib.Data.List.Perm.Basic
import Mathlib.Data.List.Range
import Mathlib.Tactic

/-!
# A ledger of obtained resources

Every resource obtained gets a ticket. It is live until it is released, and a
release names a live resource by what it is, so nothing is released twice. The
ledger is accounted for when every ticket given out is on a live resource or on
a released one, and on only one of them.
-/

structure ResourceLedger (α : Type*) where
  count : ℕ
  live : List (ℕ × α)
  released : List (ℕ × α)

namespace ResourceLedger
variable {α : Type*}

def empty : ResourceLedger α := ⟨0, [], []⟩

/-- The resource gets the next ticket. -/
def obtain (L : ResourceLedger α) (x : α) : ResourceLedger α :=
  ⟨L.count + 1, (L.count, x) :: L.live, L.released⟩

/-- Releases the newest live resource of the description, if there is one. -/
def release (L : ResourceLedger α) (p : α → Bool) : Option (ResourceLedger α) :=
  (L.live.find? fun e => p e.2).map fun e =>
    ⟨L.count, L.live.eraseP fun e => p e.2, e :: L.released⟩

/-- Every ticket is on one resource, live or released. -/
def Accounted (L : ResourceLedger α) : Prop :=
  ((L.live ++ L.released).map Prod.fst).Perm (List.range L.count)

lemma accounted_empty : (empty : ResourceLedger α).Accounted := List.Perm.refl _

lemma Accounted.obtain {L : ResourceLedger α} (h : L.Accounted) (x : α) :
    (L.obtain x).Accounted := by
  rw [Accounted, ResourceLedger.obtain, List.range_succ]
  exact (h.cons L.count).trans (List.perm_append_singleton L.count _).symm

lemma Accounted.release {L L' : ResourceLedger α} (h : L.Accounted) {p : α → Bool}
    (hr : L.release p = some L') : L'.Accounted := by
  obtain ⟨e, he, rfl⟩ := Option.map_eq_some_iff.mp hr
  have hperm : L.live.Perm (e :: L.live.eraseP fun e => p e.2) := by
    obtain ⟨hp, as, bs, hlive, has⟩ := List.find?_eq_some_iff_append.mp he
    have hskip : ∀ b ∈ as, ¬p b.2 = true := by simpa using has
    have herase : (e :: bs).eraseP (fun e => p e.2) = bs := List.eraseP_cons_of_pos hp
    rw [hlive, List.eraseP_append_right (e :: bs) hskip, herase]
    exact List.perm_middle
  refine List.Perm.trans (List.Perm.map _ ?_) h
  exact List.perm_middle.trans (hperm.symm.append_right L.released)

lemma Accounted.nodup {L : ResourceLedger α} (h : L.Accounted) :
    ((L.live ++ L.released).map Prod.fst).Nodup :=
  h.symm.nodup List.nodup_range

lemma Accounted.lt_of_live {L : ResourceLedger α} (h : L.Accounted) {t : ℕ}
    (ht : t ∈ L.live.map Prod.fst) : t < L.count := by
  apply List.mem_range.mp
  apply h.subset
  rw [List.map_append]
  exact List.mem_append_left _ ht

/-- A ticket given out is on a live resource or on a released one, never on both. -/
lemma Accounted.released_iff {L : ResourceLedger α} (h : L.Accounted) {t : ℕ} (ht : t < L.count) :
    (L.released.map Prod.fst).count t = 1 ↔ t ∉ L.live.map Prod.fst := by
  have hone : ((L.live ++ L.released).map Prod.fst).count t = 1 := by
    rw [h.count_eq]
    exact List.count_eq_one_of_mem List.nodup_range (List.mem_range.mpr ht)
  rw [List.map_append, List.count_append] at hone
  rw [← List.count_eq_zero]
  omega

@[simp] lemma live_obtain (L : ResourceLedger α) (x : α) :
    (L.obtain x).live = (L.count, x) :: L.live := rfl

/-- What was just obtained is what a fitting release gives back. -/
lemma release_of_live {L : ResourceLedger α} {t : ℕ} {x : α} {rest : List (ℕ × α)}
    (hl : L.live = (t, x) :: rest) {p : α → Bool} (hp : p x = true) :
    ∃ L', L.release p = some L' ∧ L'.live = rest ∧ L'.count = L.count := by
  refine ⟨⟨L.count, rest, (t, x) :: L.released⟩, ?_, rfl, rfl⟩
  have hfind : ((t, x) :: rest).find? (fun e => p e.2) = some (t, x) := List.find?_cons_of_pos hp
  have herase : ((t, x) :: rest).eraseP (fun e => p e.2) = rest := List.eraseP_cons_of_pos hp
  rw [release, hl, hfind, herase]
  rfl

end ResourceLedger
