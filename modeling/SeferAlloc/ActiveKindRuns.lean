import SeferAlloc.ActiveKindIndex
import SeferAlloc.SegmentTableRuns

/-!
# Walks over the active-kind index

A walk keeps a numeric cursor and nothing else between two calls of `next`, so
sets and clears may happen while it is under way. What a finished walk visited
is measured against the ids present in every state it passed through.
-/
namespace SeferAlloc
namespace ActiveKindIndex
open BitWord

/-- `next`: `none` is fatal, `some none` the end of the enumeration. -/
def next (a : ActiveKindIndex) (kind : SegmentKind) (start : ℕ) : Option (Option ℕ) :=
  if maxSegments ≤ start then some none
  else match offsets kind with
    | none => none
    | some lane =>
        let word := start / 64
        let leaf := a.leaf lane word &&& maskFrom (start % 64)
        if leaf ≠ 0 then some (some (word * 64 + trailingZeros leaf))
        else if word = 63 then some none
        else
          let later := a.summary lane &&& maskFrom (word + 1)
          if later = 0 then some none
          else
            let nextLeaf := a.leaf lane (trailingZeros later)
            if nextLeaf = 0 then none
            else some (some (trailingZeros later * 64 + trailingZeros nextLeaf))

/-- Every slot of the set is one of the table's `MAX_SEGMENTS` ids. -/
def InRange (a : ActiveKindIndex) : Prop :=
  ∀ lane j, a.contains lane j = true → j < maxSegments

/-- What an enumeration from `start` answers: the least slot from there on, or that none is left. -/
def LeastFrom (a : ActiveKindIndex) (lane : ActiveLane) (start : ℕ) : Option ℕ → Prop
  | some i => IsLeast {j | start ≤ j ∧ a.contains lane j = true} i
  | none => ∀ j, start ≤ j → a.contains lane j = false

lemma contains_eq (a : ActiveKindIndex) (lane : ActiveLane) (j : ℕ) :
    a.contains lane j = (a.leaf lane (j / 64)).getLsbD (j % 64) := rfl

/-- The rest of the cursor's own word is empty. -/
lemma lt_of_leaf_masked {a : ActiveKindIndex} {lane : ActiveLane} {start j : ℕ}
    (h : a.leaf lane (start / 64) &&& maskFrom (start % 64) = 0) (hj : start ≤ j)
    (hc : a.contains lane j = true) : start / 64 < j / 64 := by
  by_contra hlt
  have hword : j / 64 = start / 64 := by omega
  have hbit : start % 64 ≤ j % 64 := by omega
  rw [contains_eq, hword, getLsbD_eq_false_of_maskFrom h hbit] at hc
  simp at hc

/-- `next` answers the least member from its cursor on and is never fatal. -/
theorem next_spec {a : ActiveKindIndex} (ha : a.Exact) (hr : a.InRange) {kind : SegmentKind}
    {lane : ActiveLane} (hk : offsets kind = some lane) (start : ℕ) :
    ∃ r, a.next kind start = some r ∧ a.LeastFrom lane start r := by
  rw [next]
  by_cases hs : maxSegments ≤ start
  · rw [if_pos hs]
    refine ⟨none, rfl, fun j hj => ?_⟩
    by_contra hc
    have := hr lane j (by simpa using hc)
    omega
  · rw [if_neg hs, hk]
    dsimp only
    by_cases hleaf : a.leaf lane (start / 64) &&& maskFrom (start % 64) = 0
    · rw [if_neg (not_not.mpr hleaf)]
      have hlater : ∀ j, start ≤ j → a.contains lane j = true → start / 64 < j / 64 :=
        fun j hj hc => lt_of_leaf_masked hleaf hj hc
      have hsum : ∀ j, start ≤ j → a.contains lane j = true →
          (a.summary lane &&& maskFrom (start / 64 + 1)).getLsbD (j / 64) = true := by
        intro j hj hc
        have hw : j / 64 < 64 := by
          have := hr lane j hc
          simp only [maxSegments] at this
          omega
        rw [getLsbD_and_maskFrom, Bool.and_eq_true, decide_eq_true_eq]
        exact ⟨hlater j hj hc, (ha lane _ hw).mpr (word_ne_zero_of_member hc)⟩
      have hempty : ∀ P : Prop, (∀ j, start ≤ j → a.contains lane j = true → P) → ¬ P →
          a.LeastFrom lane start none := by
        intro P hP hn j hj
        by_contra hc
        exact hn (hP j hj (by simpa using hc))
      by_cases hlast : start / 64 = 63
      · rw [if_pos hlast]
        refine ⟨none, rfl, hempty False (fun j hj hc => ?_) id⟩
        have h₁ := hlater j hj hc
        have h₂ := hr lane j hc
        simp only [maxSegments] at h₂
        omega
      · rw [if_neg hlast]
        by_cases hz : a.summary lane &&& maskFrom (start / 64 + 1) = 0
        · rw [if_pos hz]
          refine ⟨none, rfl, hempty False (fun j hj hc => ?_) id⟩
          have hbit := hsum j hj hc
          rw [hz] at hbit
          simp at hbit
        · rw [if_neg hz]
          obtain ⟨⟨hle, hbit⟩, hleast⟩ := trailingZeros_maskFrom hz
          generalize trailingZeros (a.summary lane &&& maskFrom (start / 64 + 1)) = w at *
          have hw : w < 64 := by
            by_contra hge
            rw [BitVec.getLsbD_of_ge _ _ (not_lt.mp hge)] at hbit
            simp at hbit
          have hne : a.leaf lane w ≠ 0 := (ha lane w hw).mp hbit
          rw [if_neg hne]
          refine ⟨_, rfl, ⟨?_, ?_⟩, ?_⟩
          · have := trailingZeros_lt hne
            omega
          · rw [contains, member_at _ _ (trailingZeros_lt hne)]
            exact getLsbD_trailingZeros hne
          · rintro j ⟨hj, hc⟩
            have hmask := hsum j hj hc
            rw [getLsbD_and_maskFrom, Bool.and_eq_true, decide_eq_true_eq] at hmask
            have hwj : w ≤ j / 64 := hleast hmask
            by_cases heq : j / 64 = w
            · have hbitj : trailingZeros (a.leaf lane w) ≤ j % 64 := by
                apply trailingZeros_le
                rw [contains_eq, heq] at hc
                exact hc
              omega
            · have := trailingZeros_lt hne
              omega
    · rw [if_pos hleaf]
      obtain ⟨⟨hle, hbit⟩, hleast⟩ := trailingZeros_maskFrom hleaf
      have hlt := trailingZeros_lt hleaf
      generalize trailingZeros (a.leaf lane (start / 64) &&& maskFrom (start % 64)) = b at *
      refine ⟨_, rfl, ⟨by omega, ?_⟩, ?_⟩
      · rw [contains, member_at _ _ hlt]
        exact hbit
      · rintro j ⟨hj, hc⟩
        by_cases hword : j / 64 = start / 64
        · have : b ≤ j % 64 := by
            apply hleast
            rw [contains_eq, hword] at hc
            exact ⟨by omega, hc⟩
          omega
        · omega

end ActiveKindIndex

/-- `next_active`: an entry at or above the table's count is fatal. -/
def SegmentTable.nextActive (t : SegmentTable) (kind : SegmentKind) (start : ℕ) :
    Option (Option ℕ) :=
  match t.activeKind.next kind start with
  | some (some i) => if t.count ≤ i then none else some (some i)
  | r => r

namespace ActiveKindWalk
open ActiveKindIndex

/-- One enumeration of the slots `[cursor, hi)` of a kind, by a loop around `next_active`. -/
structure Walk where
  kind : SegmentKind
  hi : ℕ
  cursor : ℕ
  visited : List ℕ
  done : Bool

def Walk.start (kind : SegmentKind) (lo hi : ℕ) : Walk := ⟨kind, hi, lo, [], false⟩

/-- One turn of the loop: the cursor moves past the slot before its body runs. -/
def Walk.advance (t : SegmentTable) (w : Walk) : Option Walk :=
  if w.done then some w
  else if w.hi ≤ w.cursor then some { w with done := true }
  else match t.nextActive w.kind w.cursor with
    | none => none
    | some none => some { w with done := true }
    | some (some i) =>
        if w.hi ≤ i then some { w with done := true }
        else some { w with cursor := i + 1, visited := w.visited ++ [i] }

/-- The table and the walks that are under way. -/
structure World where
  table : SegmentTable
  walks : ℕ → Walk

/-- What may happen to the index: the table counts a slot, marks or unmarks one, or a walk
begins or takes a turn. -/
inductive Step where
  | count
  | set (slot : ℕ) (kind : SegmentKind)
  | clear (slot : ℕ) (kind : SegmentKind)
  | start (n : ℕ) (kind : SegmentKind) (lo hi : ℕ)
  | advance (n : ℕ)

def World.withIndex (w : World) (a : ActiveKindIndex) : World :=
  { w with table := { w.table with activeKind := a } }

def World.index (w : World) : ActiveKindIndex := w.table.activeKind

def step (w : World) : Step → Option World
  | .count => some { w with table := { w.table with count := w.table.count + 1 } }
  | .set slot kind => (w.index.set slot kind).map w.withIndex
  | .clear slot kind => (w.index.clear slot kind).map w.withIndex
  | .start n kind lo hi =>
      some { w with walks := Function.update w.walks n (Walk.start kind lo hi) }
  | .advance n => ((w.walks n).advance w.table).map fun v =>
      { w with walks := Function.update w.walks n v }

/-- A run; `none` once a step was fatal. -/
def run : List Step → World → Option World
  | [], w => some w
  | s :: ss, w => (step w s).bind (run ss)

/-- The lane slot `j` is in after a step, from the lane it was in before. -/
def stepLane (j : ℕ) (o : Option ActiveLane) : Step → Option ActiveLane
  | .set i kind => if i = j then offsets kind else o
  | .clear i _ => if i = j then none else o
  | _ => o

/-- The lane that the last set or clear of a slot left it in. -/
def lastLane (j : ℕ) (ss : List Step) (o : Option ActiveLane) : Option ActiveLane :=
  ss.foldl (stepLane j) o

/-- A freshly initialized index: only the primordial slot is marked. -/
def Fresh (w : World) : Prop := initInPlace = some w.index

/-- The lane a fresh index holds a slot in. -/
def freshLane (j : ℕ) : Option ActiveLane := if j = 0 then some .small else none

/-- A slot was marked in every state that the steps passed through. -/
def Throughout (w : World) (ss : List Step) (lane : ActiveLane) (j : ℕ) : Prop :=
  ∀ p v, p <+: ss → run p w = some v → v.index.contains lane j = true

/-- A slot was marked in some state that the steps passed through. -/
def Sometime (w : World) (ss : List Step) (lane : ActiveLane) (j : ℕ) : Prop :=
  ∃ p v, p <+: ss ∧ run p w = some v ∧ v.index.contains lane j = true

/-- The step begins walk `n` anew. -/
def Step.starts (n : ℕ) : Step → Bool
  | .start m _ _ _ => decide (m = n)
  | _ => false

/-- The step is a turn of walk `n`. -/
def Step.turns (n : ℕ) : Step → Bool
  | .advance m => decide (m = n)
  | _ => false

/-! ## One step -/

end ActiveKindWalk

namespace ActiveKindIndex
open BitWord

lemma set_some {a a' : ActiveKindIndex} {slot : ℕ} {kind : SegmentKind}
    (h : a.set slot kind = some a') :
    slot < maxSegments ∧ ∃ lane, offsets kind = some lane ∧ ∀ l, a.contains l slot = false := by
  rw [set] at h
  split_ifs at h with hs
  cases hk : offsets kind with
  | none => simp [hk] at h
  | some lane =>
      simp only [hk] at h
      have hocc : ¬ (a.leaf lane (slot / 64) &&& bit (slot % 64) ≠ 0 ∨
          a.leaf (otherLane lane) (slot / 64) &&& bit (slot % 64) ≠ 0) := fun hc => by
        rw [if_pos hc] at h
        simp at h
      obtain ⟨hown, hother⟩ := not_or.mp hocc
      refine ⟨not_le.mp hs, lane, rfl, fun l => ?_⟩
      have hword : ∀ m, a.leaf m (slot / 64) &&& bit (slot % 64) = 0 →
          a.contains m slot = false :=
        fun m hm => (and_bit_eq_zero (Nat.mod_lt _ (by decide))).mp hm
      by_cases hl : l = lane
      · rw [hl]
        exact hword lane (not_not.mp hown)
      · rw [eq_otherLane hl]
        exact hword _ (not_not.mp hother)

lemma clear_some {a a' : ActiveKindIndex} {slot : ℕ} {kind : SegmentKind}
    (h : a.clear slot kind = some a') :
    slot ≠ 0 ∧ slot < maxSegments ∧
      ∃ lane, offsets kind = some lane ∧ a.contains lane slot = true := by
  rw [clear] at h
  split_ifs at h with hs
  obtain ⟨h0, hlt⟩ := not_or.mp hs
  cases hk : offsets kind with
  | none => simp [hk] at h
  | some lane =>
      simp only [hk] at h
      have hz : a.leaf lane (slot / 64) &&& bit (slot % 64) ≠ 0 := fun hc => by
        rw [if_pos hc] at h
        simp at h
      refine ⟨h0, not_le.mp hlt, lane, rfl, ?_⟩
      rw [contains, member]
      by_contra hc
      exact hz ((and_bit_eq_zero (Nat.mod_lt _ (by decide))).mpr (by simpa using hc))

end ActiveKindIndex

namespace ActiveKindWalk
open ActiveKindIndex

/-- The summaries are exact and each slot is marked in the lane that `f` names. -/
structure Inv (w : World) (f : ℕ → Option ActiveLane) : Prop where
  exact : w.index.Exact
  holds : ∀ l j, w.index.contains l j = true ↔ f j = some l
  lt : ∀ j, f j ≠ none → j < maxSegments

lemma Inv.inRange {w : World} {f : ℕ → Option ActiveLane} (h : Inv w f) : w.index.InRange := by
  intro l j hc
  apply h.lt
  rw [(h.holds l j).mp hc]
  simp

lemma Inv.keep {w w' : World} {f : ℕ → Option ActiveLane} (h : Inv w f)
    (hi : w'.index = w.index) : Inv w' f := by
  constructor
  · rw [hi]
    exact h.exact
  · rw [hi]
    exact h.holds
  · exact h.lt

lemma Inv.set {w : World} {f : ℕ → Option ActiveLane} (h : Inv w f) {slot : ℕ}
    {kind : SegmentKind} {a : ActiveKindIndex} (ha : w.index.set slot kind = some a) :
    Inv (w.withIndex a) (fun j => stepLane j (f j) (.set slot kind)) := by
  obtain ⟨hs, lane, hk, hfree⟩ := set_some ha
  obtain ⟨a', ha', hex, hc⟩ := set_spec h.exact hs hk hfree
  obtain rfl : a = a' := Option.some.inj (ha.symm.trans ha')
  constructor
  · exact hex
  · intro l j
    change a.contains l j = true ↔ (if slot = j then offsets kind else f j) = some l
    rw [hc, Bool.or_eq_true, decide_eq_true_eq, h.holds]
    by_cases hj : slot = j
    · subst hj
      have hnone : f slot ≠ some l := fun he => by
        simpa [hfree l] using (h.holds l slot).mpr he
      simp [hk, hnone, eq_comm]
    · simp [hj, Ne.symm hj]
  · intro j hj
    by_cases he : slot = j
    · exact he ▸ hs
    · exact h.lt j (by simpa [stepLane, he] using hj)

lemma Inv.clear {w : World} {f : ℕ → Option ActiveLane} (h : Inv w f) {slot : ℕ}
    {kind : SegmentKind} {a : ActiveKindIndex} (ha : w.index.clear slot kind = some a) :
    Inv (w.withIndex a) (fun j => stepLane j (f j) (.clear slot kind)) := by
  obtain ⟨h0, hs, lane, hk, hheld⟩ := clear_some ha
  obtain ⟨a', ha', hex, hc⟩ := clear_spec h.exact h0 hs hk hheld
  obtain rfl : a = a' := Option.some.inj (ha.symm.trans ha')
  constructor
  · exact hex
  · intro l j
    change a.contains l j = true ↔ (if slot = j then none else f j) = some l
    rw [hc, Bool.and_eq_true, h.holds]
    by_cases hj : slot = j
    · subst hj
      have hlane : f slot = some lane := (h.holds lane slot).mp hheld
      simp only [hlane, and_true, if_true, Bool.not_eq_true', decide_eq_false_iff_not,
        Option.some.injEq, reduceCtorEq, iff_false]
      rintro ⟨hne, rfl⟩
      exact hne rfl
    · simp [hj, Ne.symm hj]
  · intro j hj
    by_cases he : slot = j
    · exact he ▸ hs
    · exact h.lt j (by simpa [stepLane, he] using hj)

/-- One step moves the marks as its own effect says. -/
theorem step_inv {w w' : World} {f : ℕ → Option ActiveLane} {s : Step} (hs : step w s = some w')
    (h : Inv w f) : Inv w' (fun j => stepLane j (f j) s) := by
  cases s with
  | count =>
      obtain rfl := Option.some.inj hs
      exact h.keep rfl
  | set slot kind =>
      obtain ⟨a, ha, rfl⟩ := Option.map_eq_some_iff.mp hs
      exact h.set ha
  | clear slot kind =>
      obtain ⟨a, ha, rfl⟩ := Option.map_eq_some_iff.mp hs
      exact h.clear ha
  | start n kind lo hi =>
      obtain rfl := Option.some.inj hs
      exact h.keep rfl
  | advance n =>
      obtain ⟨v, -, rfl⟩ := Option.map_eq_some_iff.mp hs
      exact h.keep rfl

/-- A run moves the marks as its sets and clears say. -/
theorem run_inv (ss : List Step) {w w' : World} {f : ℕ → Option ActiveLane}
    (hr : run ss w = some w') (h : Inv w f) : Inv w' (fun j => lastLane j ss (f j)) := by
  induction ss generalizing w f with
  | nil =>
      obtain rfl := Option.some.inj hr
      exact h
  | cons s ss ih =>
      obtain ⟨v, hv, hr⟩ := Option.bind_eq_some_iff.mp hr
      exact ih hr (step_inv hv h)

theorem Fresh.inv {w : World} (h : Fresh w) : Inv w freshLane := by
  obtain ⟨a, ha, hex, hc⟩ := initInPlace_spec
  obtain rfl : a = w.index := Option.some.inj (ha.symm.trans h)
  constructor
  · exact hex
  · intro l j
    rw [hc, decide_eq_true_eq, freshLane]
    by_cases hj : j = 0
    · simp only [hj, and_true, if_true, Option.some.injEq]
      exact eq_comm
    · simp [hj]
  · intro j hj
    by_cases h0 : j = 0
    · rw [h0]
      decide
    · simp [freshLane, h0] at hj

lemma run_append (ss ts : List Step) (w : World) :
    run (ss ++ ts) w = (run ss w).bind (run ts) := by
  induction ss generalizing w with
  | nil => rfl
  | cons s ss ih =>
      simp only [List.cons_append, run, Option.bind_assoc]
      congr 1
      funext v
      exact ih v

/-! ## A walk among other steps -/

/-- What a walk over `[lo, hi)` keeps. `P` are the slots present so far, `Q` those seen at some
time, `k` is the number of turns taken. -/
structure WalkInv (w : Walk) (kind : SegmentKind) (lo hi : ℕ) (P Q : ℕ → Prop) (k : ℕ) :
    Prop where
  kind_eq : w.kind = kind
  hi_eq : w.hi = hi
  lo_le : lo ≤ w.cursor
  sorted : w.visited.Pairwise (· < ·)
  bounds : ∀ i ∈ w.visited, lo ≤ i ∧ i < hi ∧ i < w.cursor ∧ i < maxSegments
  seen : ∀ i ∈ w.visited, Q i
  covered : ∀ j, lo ≤ j → j < hi → P j → j < w.cursor ∨ w.done = true → j ∈ w.visited
  turns : w.done = true ∨ k ≤ w.visited.length

namespace WalkInv
variable {w : Walk} {kind : SegmentKind} {lo hi k : ℕ} {P Q P' Q' : ℕ → Prop}

lemma of_start (kind : SegmentKind) (lo hi : ℕ) (P Q : ℕ → Prop) :
    WalkInv (Walk.start kind lo hi) kind lo hi P Q 0 where
  kind_eq := rfl
  hi_eq := rfl
  lo_le := le_rfl
  sorted := List.Pairwise.nil
  bounds := by simp [Walk.start]
  seen := by simp [Walk.start]
  covered j hj _ _ h := by
    simp only [Walk.start, Bool.false_eq_true, or_false] at h
    omega
  turns := Or.inr (Nat.zero_le _)

/-- Fewer slots were present and more were seen. -/
lemma mono (h : WalkInv w kind lo hi P Q k) (hP : ∀ j, P' j → P j) (hQ : ∀ j, Q j → Q' j) :
    WalkInv w kind lo hi P' Q' k :=
  { h with
    seen := fun i hi => hQ i (h.seen i hi)
    covered := fun j hj hlt hp => h.covered j hj hlt (hP j hp) }

/-- A walk that has met no further slot is over. -/
lemma finish (h : WalkInv w kind lo hi P Q k)
    (hnone : ∀ j, w.cursor ≤ j → j < hi → ¬ P j) :
    WalkInv { w with done := true } kind lo hi P Q (k + 1) where
  kind_eq := h.kind_eq
  hi_eq := h.hi_eq
  lo_le := h.lo_le
  sorted := h.sorted
  bounds := h.bounds
  seen := h.seen
  covered j hj hlt hp _ := by
    apply h.covered j hj hlt hp
    left
    by_contra hge
    exact hnone j (not_lt.mp hge) hlt hp
  turns := Or.inl rfl

/-- A walk visits the least slot that is left. -/
lemma visit (h : WalkInv w kind lo hi P Q k) (hd : w.done = false) {i : ℕ} (hc : w.cursor ≤ i)
    (hi' : i < hi) (hm : i < maxSegments) (hq : Q i)
    (hleast : ∀ j, w.cursor ≤ j → P j → i ≤ j) :
    WalkInv { w with cursor := i + 1, visited := w.visited ++ [i] } kind lo hi P Q (k + 1) where
  kind_eq := h.kind_eq
  hi_eq := h.hi_eq
  lo_le := by
    have := h.lo_le
    dsimp only
    omega
  sorted := by
    apply List.pairwise_append.mpr
    refine ⟨h.sorted, List.pairwise_singleton _ _, fun j hj m hmem => ?_⟩
    rw [List.mem_singleton.mp hmem]
    have := (h.bounds j hj).2.2.1
    omega
  bounds := by
    intro j hj
    rcases List.mem_append.mp hj with hj | hj
    · have := h.bounds j hj
      dsimp only
      omega
    · rw [List.mem_singleton.mp hj]
      have := h.lo_le
      dsimp only
      omega
  seen := by
    intro j hj
    rcases List.mem_append.mp hj with hj | hj
    · exact h.seen j hj
    · rw [List.mem_singleton.mp hj]
      exact hq
  covered := by
    intro j hj hlt hp hcov
    simp only [hd, Bool.false_eq_true, or_false] at hcov
    by_cases hold : j < w.cursor
    · exact List.mem_append_left _ (h.covered j hj hlt hp (Or.inl hold))
    · have := hleast j (not_lt.mp hold) hp
      obtain rfl : j = i := by omega
      simp
  turns := by
    rcases h.turns with hdone | hk
    · simp [hdone] at hd
    · right
      simpa using hk

/-- An ascending list of slot ids is no longer than the table. -/
lemma length_le (h : WalkInv w kind lo hi P Q k) : w.visited.length ≤ maxSegments := by
  have hnodup : w.visited.Nodup := h.sorted.imp fun hlt => Nat.ne_of_lt hlt
  have hsub : w.visited.toFinset ⊆ Finset.range maxSegments := fun i hi =>
    Finset.mem_range.mpr (h.bounds i (List.mem_toFinset.mp hi)).2.2.2
  have hcard := Finset.card_le_card hsub
  rwa [List.toFinset_card_of_nodup hnodup, Finset.card_range] at hcard

end WalkInv

/-- One turn of a walk over an exact index. -/
theorem advance_inv {t : SegmentTable} {w w' : Walk} {kind : SegmentKind} {lane : ActiveLane}
    {lo hi k : ℕ} {P Q : ℕ → Prop} (hk : offsets kind = some lane) (ha : t.activeKind.Exact)
    (hr : t.activeKind.InRange) (h : WalkInv w kind lo hi P Q k)
    (hP : ∀ j, P j → t.activeKind.contains lane j = true)
    (hQ : ∀ j, t.activeKind.contains lane j = true → Q j) (hs : w.advance t = some w') :
    WalkInv w' kind lo hi P Q (k + 1) := by
  rw [Walk.advance] at hs
  by_cases hd : w.done = true
  · rw [if_pos hd] at hs
    obtain rfl := Option.some.inj hs
    exact { h with turns := Or.inl hd }
  · rw [if_neg hd] at hs
    by_cases hend : w.hi ≤ w.cursor
    · rw [if_pos hend] at hs
      obtain rfl := Option.some.inj hs
      apply h.finish
      intro j hj hlt
      have := h.hi_eq
      omega
    · rw [if_neg hend] at hs
      have hkw : offsets w.kind = some lane := by
        rw [h.kind_eq]
        exact hk
      obtain ⟨r, hnext, hleast⟩ := next_spec ha hr hkw w.cursor
      rw [SegmentTable.nextActive, hnext] at hs
      cases r with
      | none =>
          obtain rfl := Option.some.inj hs
          apply h.finish
          intro j hj _ hp
          have hc := hP j hp
          rw [hleast j hj] at hc
          simp at hc
      | some i =>
          obtain ⟨⟨hci, hmem⟩, hmin⟩ := hleast
          dsimp only at hs
          by_cases hcount : t.count ≤ i
          · rw [if_pos hcount] at hs
            simp at hs
          · rw [if_neg hcount] at hs
            dsimp only at hs
            by_cases hbeyond : w.hi ≤ i
            · rw [if_pos hbeyond] at hs
              obtain rfl := Option.some.inj hs
              apply h.finish
              intro j hj hlt hp
              have := hmin ⟨hj, hP j hp⟩
              have := h.hi_eq
              omega
            · rw [if_neg hbeyond] at hs
              obtain rfl := Option.some.inj hs
              apply h.visit (by simpa using hd) hci _ (hr lane i hmem) (hQ i hmem)
              · intro j hj hp
                exact hmin ⟨hj, hP j hp⟩
              · have := h.hi_eq
                omega

/-- The number of turns of walk `n` in a run. -/
def turns (n : ℕ) (ss : List Step) : ℕ := ss.countP (Step.turns n)

lemma step_walk_ne {w w' : World} {s : Step} {n : ℕ} (hs : step w s = some w')
    (h₁ : s.starts n = false) (h₂ : s.turns n = false) : w'.walks n = w.walks n := by
  cases s with
  | count =>
      obtain rfl := Option.some.inj hs
      rfl
  | set slot kind =>
      obtain ⟨a, -, rfl⟩ := Option.map_eq_some_iff.mp hs
      rfl
  | clear slot kind =>
      obtain ⟨a, -, rfl⟩ := Option.map_eq_some_iff.mp hs
      rfl
  | start m kind lo hi =>
      obtain rfl := Option.some.inj hs
      have hm : m ≠ n := by simpa [Step.starts] using h₁
      exact Function.update_of_ne hm.symm _ _
  | advance m =>
      obtain ⟨v, -, rfl⟩ := Option.map_eq_some_iff.mp hs
      have hm : m ≠ n := by simpa [Step.turns] using h₂
      exact Function.update_of_ne hm.symm _ _

/-- A walk that began in `w₀` and was not begun anew since. -/
theorem run_walkInv {w₀ : World} {f : ℕ → Option ActiveLane} (hw : Inv w₀ f) {n : ℕ}
    {kind : SegmentKind} {lane : ActiveLane} (hk : offsets kind = some lane) {lo hi : ℕ}
    (h₀ : w₀.walks n = Walk.start kind lo hi) (ss : List Step) {w : World}
    (hns : ∀ s ∈ ss, s.starts n = false) (hr : run ss w₀ = some w) :
    WalkInv (w.walks n) kind lo hi (Throughout w₀ ss lane) (Sometime w₀ ss lane)
      (turns n ss) := by
  induction ss using List.reverseRecOn generalizing w with
  | nil =>
      obtain rfl := Option.some.inj hr
      rw [h₀]
      exact WalkInv.of_start kind lo hi _ _
  | append_singleton ss s ih =>
      rw [run_append] at hr
      obtain ⟨v, hv, hs⟩ := Option.bind_eq_some_iff.mp hr
      replace hs : step v s = some w := by simpa [run] using hs
      have hprefix : ss <+: ss ++ [s] := List.prefix_append ss [s]
      have hinv := run_inv ss hv hw
      have hwalk : WalkInv (v.walks n) kind lo hi (Throughout w₀ (ss ++ [s]) lane)
          (Sometime w₀ (ss ++ [s]) lane) (turns n ss) :=
        (ih (fun s' hm => hns s' (List.mem_append_left _ hm)) hv).mono
          (fun j hj p u hp => hj p u (hp.trans hprefix))
          (fun j ⟨p, u, hp, hu⟩ => ⟨p, u, hp.trans hprefix, hu⟩)
      have hstart : s.starts n = false := hns s (by simp)
      by_cases hturn : s.turns n = true
      · have hcount : turns n (ss ++ [s]) = turns n ss + 1 := by
          simp [turns, hturn]
        rw [hcount]
        cases s with
        | advance m =>
            obtain rfl : m = n := by simpa [Step.turns] using hturn
            obtain ⟨u, hu, rfl⟩ := Option.map_eq_some_iff.mp hs
            dsimp only
            rw [Function.update_self]
            apply advance_inv hk hinv.exact hinv.inRange hwalk _ _ hu
            · intro j hj
              exact hj ss v hprefix hv
            · intro j hc
              exact ⟨ss, v, hprefix, hv, hc⟩
        | _ => simp [Step.turns] at hturn
      · have hcount : turns n (ss ++ [s]) = turns n ss := by
          simp [turns, hturn]
        rw [hcount, step_walk_ne hs hstart (by simpa using hturn)]
        exact hwalk

/-- Steps the table's callers may take: a set of a free slot, a clear of a marked one, and a turn
of a walk over a known kind while the table counts every marked slot. -/
def Legal (w : World) : Step → Prop
  | .set slot kind =>
      slot < maxSegments ∧ kind ≠ .unknown ∧ ∀ l, w.index.contains l slot = false
  | .clear slot kind => slot ≠ 0 ∧
      ∃ lane, offsets kind = some lane ∧ w.index.contains lane slot = true
  | .advance n => (w.walks n).kind ≠ .unknown ∧
      ∀ l j, w.index.contains l j = true → j < w.table.count
  | _ => True

/-- Below the table's count `next_active` is `next`. -/
lemma nextActive_eq {t : SegmentTable} {kind : SegmentKind} {lane : ActiveLane} {start : ℕ}
    {r : Option ℕ} (hn : t.activeKind.next kind start = some r)
    (hleast : t.activeKind.LeastFrom lane start r)
    (hcount : ∀ j, t.activeKind.contains lane j = true → j < t.count) :
    t.nextActive kind start = some r := by
  rw [SegmentTable.nextActive, hn]
  cases r with
  | none => rfl
  | some i =>
      have := hcount i hleast.1.2
      exact if_neg (not_le.mpr this)

/-- On a consistent table `next_active` answers the least live slot of the kind. -/
theorem nextActive_live {t : SegmentTable} {mem : ℕ → SegmentHeader} (h : t.Inv mem)
    {kind : SegmentKind} {lane : ActiveLane} (hk : offsets kind = some lane) (start : ℕ) :
    ∃ r, t.nextActive kind start = some r ∧ match r with
      | some i => IsLeast {j | start ≤ j ∧ t.Live j ∧ offsets (mem (t.slots j)).kind = some lane} i
      | none => ∀ j, start ≤ j → t.Live j → offsets (mem (t.slots j)).kind ≠ some lane := by
  have hrange : t.activeKind.InRange := fun l j hc =>
    (((h.active l j).mp hc).1.1).trans_le h.count_le
  obtain ⟨r, hr, hleast⟩ := next_spec h.exact hrange hk start
  refine ⟨r, nextActive_eq hr hleast fun j hc => ((h.active lane j).mp hc).1.1, ?_⟩
  cases r with
  | none =>
      intro j hj hlive he
      have hc := (h.active lane j).mpr ⟨hlive, he⟩
      rw [hleast j hj] at hc
      simp at hc
  | some i =>
      obtain ⟨⟨hi, hc⟩, hmin⟩ := hleast
      constructor
      · exact ⟨hi, (h.active lane i).mp hc⟩
      · rintro j ⟨hj, hlive⟩
        exact hmin ⟨hj, (h.active lane j).mpr hlive⟩

/-- The index as a two-level set: exact summaries, membership by the last set or clear, `next` the
least member from its cursor on, and walks that visit what was present throughout. -/
theorem twoLevelSet_exact {w₀ w : World} (hf : Fresh w₀) {ss : List Step}
    (hr : run ss w₀ = some w) :
    (∀ lane k, k < 64 →
      ((w.index.summary lane).getLsbD k = true ↔ w.index.leaf lane k ≠ 0)) ∧
    (∀ lane j, w.index.contains lane j = true ↔ lastLane j ss (freshLane j) = some lane) ∧
    (∀ kind lane start, offsets kind = some lane →
      ∃ r, w.index.next kind start = some r ∧ w.index.LeastFrom lane start r) ∧
    ∀ n kind lane lo hi ts w', offsets kind = some lane →
      (∀ s ∈ ts, Step.starts n s = false) →
      run (.start n kind lo hi :: ts) w = some w' →
        (w'.walks n).visited.Pairwise (· < ·) ∧
        (∀ i ∈ (w'.walks n).visited, lo ≤ i ∧ i < hi ∧
          Sometime w (.start n kind lo hi :: ts) lane i) ∧
        ((w'.walks n).done = true → ∀ j, lo ≤ j → j < hi →
          Throughout w (.start n kind lo hi :: ts) lane j → j ∈ (w'.walks n).visited) ∧
        (maxSegments < turns n ts → (w'.walks n).done = true) := by
  have hinv := run_inv ss hr hf.inv
  refine ⟨hinv.exact, hinv.holds, fun kind lane start hk =>
    next_spec hinv.exact hinv.inRange hk start, ?_⟩
  intro n kind lane lo hi ts w' hk hns hrun
  obtain ⟨v, hv, hrun⟩ := Option.bind_eq_some_iff.mp hrun
  have hstart : v.walks n = Walk.start kind lo hi := by
    obtain rfl := Option.some.inj hv
    exact Function.update_self _ _ _
  have hwalk := run_walkInv (step_inv hv hinv) hk hstart ts hns hrun
  refine ⟨hwalk.sorted, fun i hm => ?_, fun hd j hlo hhi hj => ?_, fun hturns => ?_⟩
  · obtain ⟨hlo, hhi, -⟩ := hwalk.bounds i hm
    obtain ⟨p, u, hp, hu, hc⟩ := hwalk.seen i hm
    refine ⟨hlo, hhi, .start n kind lo hi :: p, u, ?_, ?_, hc⟩
    · exact (List.prefix_cons_inj _).mpr hp
    · exact Option.bind_eq_some_iff.mpr ⟨v, hv, hu⟩
  · apply hwalk.covered j hlo hhi _ (Or.inr hd)
    intro p u hp hu
    apply hj (.start n kind lo hi :: p) u
    · exact (List.prefix_cons_inj _).mpr hp
    · exact Option.bind_eq_some_iff.mpr ⟨v, hv, hu⟩
  · rcases hwalk.turns with hd | hle
    · exact hd
    · have := hwalk.length_le
      omega

/-- A table that counts 128 slots over a fresh index. -/
def walkWorld (a : ActiveKindIndex) : World where
  table := { SegmentTable.primordialTable segment a with count := 128 }
  walks := fun _ => Walk.start .small 0 0

def marks : List Step := [.set 1 .small, .set 64 .small, .set 65 .large]

/-- Slot 1 leaves the set while the cursor is on it and 64 becomes the last of its word. -/
def turnsOverClear : List Step := [.advance 0, .clear 1 .small, .advance 0, .advance 0]

/-- A walk over a word boundary, with a slot cleared under its cursor. -/
theorem twoLevelSet_exact_clearedUnderCursor : ∃ a w w', initInPlace = some a ∧
    run marks (walkWorld a) = some w ∧
    run (.start 0 .small 0 128 :: turnsOverClear) w = some w' ∧
    (w'.walks 0).visited = [0, 64] ∧ (w'.walks 0).done = true ∧
    (w'.walks 0).visited.Pairwise (· < ·) ∧
    ∀ lane j, w.index.contains lane j = true ↔ lastLane j marks (freshLane j) = some lane := by
  have hsome : (initInPlace.bind fun a => (run marks (walkWorld a)).bind
      fun w => (run (.start 0 .small 0 128 :: turnsOverClear) w).map
        fun w' => ((w'.walks 0).visited, (w'.walks 0).done)) = some ([0, 64], true) := by
    decide +kernel
  obtain ⟨a, ha, h⟩ := Option.bind_eq_some_iff.mp hsome
  obtain ⟨w, hw, h⟩ := Option.bind_eq_some_iff.mp h
  obtain ⟨w', hw', h⟩ := Option.map_eq_some_iff.mp h
  obtain ⟨hvis, hdone⟩ := Prod.mk.inj h
  have hfresh : Fresh (walkWorld a) := ha
  obtain ⟨-, hlast, -, hwalk⟩ := twoLevelSet_exact hfresh hw
  obtain ⟨hsorted, -⟩ := hwalk 0 .small .small 0 128 turnsOverClear w' rfl (by decide) hw'
  exact ⟨a, w, w', ha, hw, hw', hvis, hdone, hsorted, hlast⟩

end ActiveKindWalk
end SeferAlloc
