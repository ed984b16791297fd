import SeferAlloc.HeapRegistry

/-!
# Exclusive leases

The state word of a slot is a lock: the compare-and-swaps move it between
unheld, initializing, live and maintained, and every other action leaves it
alone. What the holder knows about the heap follows from exclusivity.
-/
namespace SeferAlloc
namespace HeapRegistry
open BitWord Interleaving

/-- The slot a thread holds, with the state word it has put there. -/
def hold : Loc → Option (ℕ × SlotState)
  | .forget _ idx | .loadInitialised _ idx | .casInitializing _ idx => some (idx, .live)
  | .bumpGeneration _ idx firstClaim => some (idx, if firstClaim then .initializing else .live)
  | .materialise _ idx _ | .pushBackAfterOom _ idx | .bindSlotCounters idx _
  | .storeInitialised idx _ | .casLive idx _ => some (idx, .initializing)
  | .trimForRecycle idx _ | .invalidateCaches idx _ | .leased idx _ | .dropLease idx =>
      some (idx, .live)
  | .maintained idx | .dropMaintenance idx => some (idx, .maintenance)
  | .swapHint _ k | .publishWord _ k | .publishSummary _ k | .publishClaimable k
  | .clearSummary _ k | .recheckWord _ k | .restoreSummary _ k => hold k
  | _ => none

/-- A slot that is empty or free has no holder. -/
def SlotState.held : SlotState → Option SlotState
  | .empty | .free => none
  | s => some s

def heldState (r : Registry) (s : ℕ) : Option SlotState := (r.state s).held

lemma heldState_update (r : Registry) (idx : ℕ) (new : SlotState) :
    heldState { r with state := Function.update r.state idx new } =
      Function.update (heldState r) idx new.held := by
  funext s
  by_cases h : s = idx
  · subst s; simp [heldState]
  · simp [heldState, h]

lemma SlotState.eq_of_held {x h : SlotState} (hx : x.held = some h) : x = h := by
  cases x <;> simp_all [SlotState.held]

lemma state_of_heldState {r : Registry} {s : ℕ} {h : SlotState} (hs : heldState r s = some h) :
    r.state s = h :=
  SlotState.eq_of_held hs

/-- The compare-and-swap on a state word that a location is about to make. -/
def stateCas : Loc → Option (ℕ × SlotState × SlotState)
  | .casEmpty _ idx => some (idx, .empty, .initializing)
  | .casFree _ idx => some (idx, .free, .live)
  | .casInitializing _ idx => some (idx, .live, .initializing)
  | .pushBackAfterOom _ idx => some (idx, .initializing, .free)
  | .casLive idx _ => some (idx, .initializing, .live)
  | .dropLease idx => some (idx, .live, .free)
  | .casMaintenance idx => some (idx, .free, .maintenance)
  | .dropMaintenance idx => some (idx, .maintenance, .free)
  | _ => none

/-- Only a compare-and-swap changes a state word or what the thread holds. -/
lemma act_of_no_cas {l : Loc} (hl : stateCas l = none) (e : Choice) (r : Registry) :
    (act e r l).1.state = r.state ∧ hold (act e r l).2 = hold l := by
  cases l <;> simp only [stateCas, reduceCtorEq] at hl <;> simp only [act] <;>
    constructor <;> (repeat' split) <;> simp_all [hold, setWord, scanNext]

/-- A compare-and-swap that finds the expected word writes it and nothing else. -/
lemma act_of_cas {l : Loc} {idx : ℕ} {x new : SlotState} (hl : stateCas l = some (idx, x, new))
    (e : Choice) {r : Registry} (hx : r.state idx = x) :
    (act e r l).1 = { r with state := Function.update r.state idx new } ∧
      hold (act e r l).2 = new.held.map fun h => (idx, h) := by
  cases l <;> simp only [stateCas, reduceCtorEq, Option.some.injEq, Prod.mk.injEq] at hl <;>
    obtain ⟨rfl, rfl, rfl⟩ := hl <;>
    simp only [act, casState, if_pos hx, true_and] <;> (repeat' split) <;> rfl

/-- A compare-and-swap that finds another word changes nothing. -/
lemma act_of_lost_cas {l : Loc} {idx : ℕ} {x new : SlotState}
    (hl : stateCas l = some (idx, x, new)) (e : Choice) {r : Registry} (hx : r.state idx ≠ x) :
    (act e r l).1 = r ∧ (hold l = none → hold (act e r l).2 = none) := by
  cases l <;> simp only [stateCas, reduceCtorEq, Option.some.injEq, Prod.mk.injEq] at hl <;>
    obtain ⟨rfl, rfl, rfl⟩ := hl <;> simp [act, casState, if_neg hx, hold]

/-- A swap away from an unheld word needs no lease; any other is made by the holder. -/
lemma hold_of_cas {l : Loc} {idx : ℕ} {x new : SlotState} (hl : stateCas l = some (idx, x, new)) :
    hold l = x.held.map fun h => (idx, h) := by
  cases l <;> simp only [stateCas, reduceCtorEq, Option.some.injEq, Prod.mk.injEq] at hl <;>
    obtain ⟨rfl, rfl, rfl⟩ := hl <;> rfl

/-- Every action is a move of the ownership protocol. -/
theorem act_move (e : Choice) (r : Registry) (l : Loc)
    (hmode : ∀ s h, hold l = some (s, h) → heldState r s = some h) :
    Move hold heldState r (act e r l).1 l (act e r l).2 := by
  cases hl : stateCas l with
  | none =>
      obtain ⟨hs, hh⟩ := act_of_no_cas hl e r
      exact .keep (by funext s; rw [heldState, hs, heldState]) hh
  | some p =>
      obtain ⟨idx, x, new⟩ := p
      have hold_l := hold_of_cas hl
      by_cases hx : r.state idx = x
      · obtain ⟨hr, hl'⟩ := act_of_cas hl e hx
        have hv : heldState (act e r l).1 = Function.update (heldState r) idx new.held := by
          rw [hr, heldState_update]
        have hxv : heldState r idx = x.held := by rw [heldState, hx]
        cases hxh : x.held with
        | none =>
            rw [hxh] at hold_l hxv
            cases hnew : new.held with
            | none =>
                rw [hnew] at hl' hv
                exact .keep (by rw [hv, ← hxv, Function.update_eq_self]) (hl'.trans hold_l.symm)
            | some h =>
                rw [hnew] at hl' hv
                exact .acquire idx h hold_l hxv hv hl'
        | some h =>
            rw [hxh] at hold_l
            cases hnew : new.held with
            | none =>
                rw [hnew] at hl' hv
                exact .release idx h hold_l hv hl'
            | some h' =>
                rw [hnew] at hl' hv
                exact .change idx h h' hold_l hv hl'
      · -- The holder's own swap cannot be lost.
        obtain ⟨hr, hl'⟩ := act_of_lost_cas hl e hx
        cases hxh : x.held with
        | none =>
            rw [hxh] at hold_l
            exact .keep (by rw [hr]) ((hl' hold_l).trans hold_l.symm)
        | some h =>
            rw [hxh] at hold_l
            have hstate := state_of_heldState (hmode idx h hold_l)
            exact absurd (hstate.trans (SlotState.eq_of_held hxh).symm) hx

/-! ## What the holder knows about the heap -/

def Unbuilt (r : Registry) (s : ℕ) : Prop := r.initialised s = false ∧ r.built s = 0

def Built (r : Registry) (s : ℕ) : Prop := r.initialised s = false ∧ r.built s = 1

def Ready (r : Registry) (s : ℕ) : Prop := r.initialised s = true ∧ r.built s = 1

/-- The heap is there if and only if it is marked. -/
def Marked (r : Registry) (s : ℕ) : Prop := r.built s = (r.initialised s).toNat

/-- What a thread knows at its location. -/
def Knows (r : Registry) : Loc → Prop
  | .forget _ idx | .loadInitialised _ idx => Marked r idx
  | .casInitializing _ idx | .materialise _ idx _ | .pushBackAfterOom _ idx => Unbuilt r idx
  | .bumpGeneration _ idx firstClaim => if firstClaim then Unbuilt r idx else Ready r idx
  | .bindSlotCounters idx _ | .storeInitialised idx _ => Built r idx
  | .casLive idx _ | .trimForRecycle idx _ | .invalidateCaches idx _ | .leased idx _
  | .dropLease idx | .maintained idx | .dropMaintenance idx => Ready r idx
  | .maintState idx | .casMaintenance idx => r.initialised idx = true
  | .swapHint _ k | .publishWord _ k | .publishSummary _ k | .publishClaimable k
  | .clearSummary _ k | .recheckWord _ k | .restoreSummary _ k => Knows r k
  | _ => True

/-- What holds of the slots without a holder, and of all of them. -/
structure Settled (r : Registry) : Prop where
  empty : ∀ s, r.state s = .empty → Unbuilt r s
  free : ∀ s, r.state s = .free → Marked r s
  once : ∀ s, r.built s ≤ 1

lemma Unbuilt.marked {r : Registry} {s : ℕ} (h : Unbuilt r s) : Marked r s := by
  rw [Marked, h.1, h.2]
  rfl

lemma Ready.marked {r : Registry} {s : ℕ} (h : Ready r s) : Marked r s := by
  rw [Marked, h.1, h.2]
  rfl

lemma Marked.ready {r : Registry} {s : ℕ} (h : Marked r s) (hi : r.initialised s = true) :
    Ready r s := ⟨hi, by rw [h, hi]; rfl⟩

lemma Marked.unbuilt {r : Registry} {s : ℕ} (h : Marked r s) (hi : r.initialised s = false) :
    Unbuilt r s := ⟨hi, by rw [h, hi]; rfl⟩

/-- Heaps are written by `materialise` and marked by `storeInitialised` alone. -/
lemma act_heap (e : Choice) (r : Registry) (l : Loc) :
    (act e r l).1.initialised = r.initialised ∧ (act e r l).1.built = r.built ∨
    (∃ c idx g, l = .materialise c idx g ∧ (act e r l).2 = .bindSlotCounters idx g ∧
      (act e r l).1 = { r with built := Function.update r.built idx (r.built idx + 1) }) ∨
    ∃ idx g, l = .storeInitialised idx g ∧
      (act e r l).1 = { r with initialised := Function.update r.initialised idx true } := by
  cases l with
  | materialise c idx g =>
      cases he : e.ok with
      | true => exact .inr (.inl ⟨c, idx, g, rfl, by simp [act, he]⟩)
      | false => exact .inl (by simp [act, he])
  | storeInitialised idx g => exact .inr (.inr ⟨idx, g, rfl, rfl⟩)
  | _ =>
      refine .inl ?_
      simp only [act, casState, setWord]
      constructor <;> (repeat' split) <;> simp

/-- The initialised mark is never taken back. -/
lemma act_initialised (e : Choice) (r : Registry) (l : Loc) {s : ℕ} (hs : r.initialised s = true) :
    (act e r l).1.initialised s = true := by
  obtain ⟨hi, -⟩ | ⟨c, idx, g, -, -, hr⟩ | ⟨idx, g, -, hr⟩ := act_heap e r l
  · rwa [hi]
  · rw [hr]
    exact hs
  · rw [hr]
    by_cases h : s = idx
    · subst s; simp
    · simpa [h] using hs

/-- Only the initialising holder touches the mark and the heap of a slot. -/
lemma act_heap_same (e : Choice) (r : Registry) (l : Loc) {s : ℕ}
    (hs : ∀ h, hold l ≠ some (s, h)) :
    (act e r l).1.initialised s = r.initialised s ∧ (act e r l).1.built s = r.built s := by
  obtain ⟨hi, hb⟩ | ⟨c, idx, g, rfl, -, hr⟩ | ⟨idx, g, rfl, hr⟩ := act_heap e r l
  · rw [hi, hb]
    exact ⟨rfl, rfl⟩
  all_goals
    have hne : s ≠ idx := by rintro rfl; exact hs _ rfl
    rw [hr]
    simp [hne]

/-- Knowledge is about the slot held, or about a mark that stays. -/
lemma Knows.stable {r r' : Registry} {l : Loc} (hk : Knows r l)
    (hmono : ∀ s, r.initialised s = true → r'.initialised s = true)
    (hsame : ∀ s h, hold l = some (s, h) →
      r'.initialised s = r.initialised s ∧ r'.built s = r.built s) : Knows r' l := by
  induction l <;> simp_all [Knows, hold, Marked, Unbuilt, Built, Ready]

/-- The acting thread's knowledge follows its location. -/
lemma act_knows (e : Choice) {r : Registry} {l : Loc} (hr : Settled r)
    (hk : Knows r l) : Knows (act e r l).1 (act e r l).2 := by
  cases l with
  | casEmpty c idx =>
      simp only [act, casState]
      split_ifs with h
      · exact hr.empty idx h
      · trivial
  | casFree c idx =>
      simp only [act, casState]
      split_ifs with h hc
      · exact hr.free idx h
      · exact hr.free idx h
      · trivial
  | loadInitialised c idx =>
      simp only [act]
      split_ifs with h
      · exact Marked.ready hk h
      · exact Marked.unbuilt hk (by simpa using h)
  | casMaintenance idx =>
      simp only [act, casState]
      split_ifs with h
      · exact Marked.ready (hr.free idx h) hk
      · trivial
  | swapHint idx k =>
      have hk' : Knows (act e r (.swapHint idx k)).1 k :=
        Knows.stable hk (fun _ h => h) (fun _ _ _ => ⟨rfl, rfl⟩)
      simp only [act]
      split_ifs
      · exact hk'
      · exact hk'
  | forget c idx => exact hk
  | publishWord idx k | publishSummary w k | publishClaimable k | clearSummary w k
  | restoreSummary w k => exact Knows.stable hk (fun _ h => h) (fun _ _ _ => ⟨rfl, rfl⟩)
  | _ =>
      simp only [act, casState, scanNext] at *
      (repeat' split) <;> simp_all [Knows, Unbuilt, Built, Ready]

/-- A slot is handed back with its heap marked, and never emptied. -/
lemma new_of_cas {l : Loc} {idx : ℕ} {x new : SlotState} (hl : stateCas l = some (idx, x, new))
    {r : Registry} (hk : Knows r l) : new ≠ .empty ∧ (new = .free → Marked r idx) := by
  cases l with
  | pushBackAfterOom c i =>
      obtain ⟨rfl, rfl, rfl⟩ : i = idx ∧ .initializing = x ∧ .free = new := by simpa [stateCas] using hl
      exact ⟨by simp, fun _ => Unbuilt.marked hk⟩
  | dropLease i =>
      obtain ⟨rfl, rfl, rfl⟩ : i = idx ∧ .live = x ∧ .free = new := by simpa [stateCas] using hl
      exact ⟨by simp, fun _ => Ready.marked hk⟩
  | dropMaintenance i =>
      obtain ⟨rfl, rfl, rfl⟩ : i = idx ∧ .maintenance = x ∧ .free = new := by simpa [stateCas] using hl
      exact ⟨by simp, fun _ => Ready.marked hk⟩
  | casEmpty | casFree | casInitializing | casLive | casMaintenance =>
      simp only [stateCas, Option.some.injEq, Prod.mk.injEq] at hl
      obtain ⟨-, -, rfl⟩ := hl
      simp
  | _ => simp [stateCas] at hl

theorem settled_act (e : Choice) {r : Registry} {l : Loc} (hr : Settled r) (hk : Knows r l)
    (hmode : ∀ s h, hold l = some (s, h) → heldState r s = some h) :
    Settled (act e r l).1 := by
  have hstate : ∀ s h, hold l = some (s, h) → r.state s ≠ .empty ∧ r.state s ≠ .free := by
    intro s h hs
    have hm := hmode s h hs
    constructor <;> intro he <;> simp [heldState, he, SlotState.held] at hm
  cases hl : stateCas l with
  | none =>
      have hst := (act_of_no_cas hl e r).1
      -- The heap changes only in a slot that is held, so neither empty nor free.
      have same : ∀ s, r.state s = .empty ∨ r.state s = .free →
          (act e r l).1.initialised s = r.initialised s ∧
            (act e r l).1.built s = r.built s := by
        intro s hs
        refine act_heap_same e r l fun h hh => ?_
        have := hstate s h hh
        tauto
      refine ⟨fun s hs => ?_, fun s hs => ?_, fun s => ?_⟩
      · rw [hst] at hs
        obtain ⟨hi, hb⟩ := same s (.inl hs)
        rw [Unbuilt, hi, hb]
        exact hr.empty s hs
      · rw [hst] at hs
        obtain ⟨hi, hb⟩ := same s (.inr hs)
        rw [Marked, hi, hb]
        exact hr.free s hs
      · obtain ⟨-, hb⟩ | ⟨c, idx, g, rfl, -, h⟩ | ⟨idx, g, rfl, h⟩ := act_heap e r l
        · rw [hb]
          exact hr.once s
        · rw [h]
          by_cases hs : s = idx
          · subst s
            simp [hk.2]
          · simpa [hs] using hr.once s
        · rw [h]
          exact hr.once s
  | some p =>
      obtain ⟨idx, x, new⟩ := p
      by_cases hx : r.state idx = x
      · rw [(act_of_cas hl e hx).1]
        have hnew := new_of_cas hl hk
        refine ⟨fun s hs => ?_, fun s hs => ?_, hr.once⟩
        · by_cases h : s = idx
          · subst s
            exact absurd (by simpa using hs) hnew.1
          · exact hr.empty s (by simpa [h] using hs)
        · by_cases h : s = idx
          · subst s
            exact hnew.2 (by simpa using hs)
          · exact hr.free s (by simpa [h] using hs)
      · rwa [(act_of_lost_cas hl e hx).1]

/-! ## Indices in range -/

/-- The indices a thread has at hand are minted, and it has not aborted. -/
def InRange (r : Registry) : Loc → Prop
  | .fatal => False
  | .countLoad _ candidate => candidate < r.count ∨ candidate = maxHeaps
  | .takeAnd _ _ _ _ b => b < 64
  | .takeCount _ _ idx | .slotOrNone _ idx | .loadState _ idx | .casEmpty _ idx
  | .casFree _ idx | .forget _ idx | .loadInitialised _ idx | .casInitializing _ idx
  | .retainMaintained _ idx | .bumpGeneration _ idx _ | .materialise _ idx _
  | .pushBackAfterOom _ idx | .bindSlotCounters idx _ | .storeInitialised idx _
  | .casLive idx _ | .trimForRecycle idx _ | .invalidateCaches idx _ | .leased idx _
  | .dropLease idx | .maintSlot idx | .maintInitialised idx | .maintState idx
  | .casMaintenance idx | .maintained idx | .dropMaintenance idx => idx < r.count
  | .scanCursor _ _ count => 0 < count ∧ count ≤ r.count
  | .scanSlot _ _ count _ _ best | .scanState _ _ count _ _ best
  | .scanInitialised _ _ count _ _ best =>
      0 < count ∧ count ≤ r.count ∧ ∀ i, best = some i → i < r.count
  | .swapHint idx k | .publishWord idx k => idx < r.count ∧ InRange r k
  | .publishSummary _ k | .publishClaimable k | .clearSummary _ k | .recheckWord _ k
  | .restoreSummary _ k => InRange r k
  | _ => True

/-- What is published is minted. -/
structure Minted (r : Registry) : Prop where
  count : r.count ≤ maxHeaps
  hint : r.reuseHint < r.count ∨ r.reuseHint = maxHeaps
  words : ∀ i, member r.words i = true → i < r.count

lemma InRange.mono {r r' : Registry} {l : Loc} (h : InRange r l) (hc : r.count ≤ r'.count) :
    InRange r' l := by
  induction l <;> simp only [InRange] at * <;> grind

/-- `count` is written by a successful `bumpCas` alone, which mints the index it returns. -/
lemma act_count_cases (e : Choice) (r : Registry) (l : Loc) :
    (act e r l).1.count = r.count ∨ ∃ c before, l = .bumpCas c before r.count ∧
      r.count < maxHeaps ∧
      act e r l = ({ r with count := r.count + 1 }, .slotOrNone c r.count) := by
  cases l with
  | bumpCas c before count =>
      simp only [act]
      split_ifs with hmax hc
      · exact .inl rfl
      · obtain ⟨rfl, -⟩ := hc
        exact .inr ⟨c, before, rfl, not_le.mp hmax, rfl⟩
      · exact .inl rfl
  | _ =>
      refine .inl ?_
      simp only [act, casState, setWord] <;> (repeat' split) <;> simp

lemma act_count (e : Choice) (r : Registry) (l : Loc) : r.count ≤ (act e r l).1.count := by
  obtain h | ⟨c, before, -, -, h⟩ := act_count_cases e r l
  · exact h.ge
  · rw [h]
    exact Nat.le_succ _

/-- The slot a scan looks at is minted. -/
lemma scanned_lt {r : Registry} {count : ℕ} (h0 : 0 < count) (hc : count ≤ r.count) (a : ℕ) :
    a % count < r.count :=
  lt_of_lt_of_le (Nat.mod_lt _ h0) hc

lemma best_lt {n idx : ℕ} {best : Option ℕ} (hbest : ∀ i, best = some i → i < n) (hidx : idx < n) :
    ∀ i, (best <|> some idx) = some i → i < n := by
  intro i hi
  cases best with
  | none => exact (Option.some.inj hi) ▸ hidx
  | some j => exact hbest i hi

/-- A holder's swap is not lost, so no abort is reached. -/
lemma cas_won {l : Loc} {idx : ℕ} {x new h : SlotState} {r : Registry}
    (hl : stateCas l = some (idx, x, new)) (hx : x.held = some h)
    (hmode : ∀ s h, hold l = some (s, h) → heldState r s = some h) : r.state idx = x := by
  have hold_l := hold_of_cas hl
  rw [hx] at hold_l
  exact (state_of_heldState (hmode idx h hold_l)).trans (SlotState.eq_of_held hx).symm

/-- A minted index lies in one of the chunks. -/
lemma chunk_lt {idx : ℕ} (h : idx < maxHeaps) : ¬numChunks ≤ idx / chunkSlots := by
  simp only [numChunks, maxHeaps, chunkSlots] at *
  omega

theorem act_inRange (e : Choice) {r : Registry} {l : Loc} (hm : Minted r) (h : InRange r l)
    (hmode : ∀ s h, hold l = some (s, h) → heldState r s = some h) :
    InRange (act e r l).1 (act e r l).2 := by
  have hc := act_count e r l
  cases l with
  | casInitializing c idx =>
      simp only [act, casState, cas_won rfl rfl hmode, if_true]
      exact h
  | pushBackAfterOom c idx =>
      simp only [act, casState, cas_won rfl rfl hmode, if_true]
      refine ⟨h, ?_⟩
      simp only [InRange]
      split_ifs <;> trivial
  | casLive idx g =>
      simp only [act, casState, cas_won rfl rfl hmode, if_true]
      exact h
  | dropLease idx =>
      simp only [act, casState, cas_won rfl rfl hmode, if_true]
      exact ⟨h, trivial⟩
  | dropMaintenance idx =>
      simp only [act, casState, cas_won rfl rfl hmode, if_true]
      exact ⟨h, trivial⟩
  | slotOrNone c idx =>
      have hchunk := chunk_lt (lt_of_lt_of_le h hm.count)
      simp only [act, hchunk, if_false]
      split_ifs
      · exact h
      · exact h
      · exact ⟨h, trivial⟩
  | maintSlot idx =>
      have hchunk := chunk_lt (lt_of_lt_of_le h hm.count)
      simp only [act, hchunk, if_false]
      split_ifs
      · exact h
      · trivial
  | takeWord c before attempt w =>
      simp only [act]
      split_ifs with hw
      · trivial
      · exact trailingZeros_lt hw
  | takeAnd c before attempt w b =>
      have hmem : r.words w &&& bit b ≠ 0 → w * 64 + b < r.count := fun hw =>
        hm.words _ (by
          rw [member_at _ _ h]
          by_contra hf
          exact hw ((and_bit_eq_zero h).mpr (by simpa using hf)))
      simp only [act]
      split_ifs with h0
      · trivial
      · exact hmem h0
      · exact hmem h0
  | swapHint idx k =>
      obtain ⟨hi, hk⟩ := h
      have hk' := hk.mono hc
      simp only [act]
      split_ifs with hlt
      · have := hm.hint
        exact ⟨by simp only; omega, hk'⟩
      · exact hk'
  | publishWord idx k => exact h.2.mono hc
  | publishSummary w k | publishClaimable k | clearSummary w k | restoreSummary w k =>
      exact InRange.mono (l := k) h hc
  | recheckWord w k =>
      have hk : InRange r k := h
      simp only [act]
      split_ifs
      · exact hk
      · exact hk
  | scanSlot c m count start offset best =>
      obtain ⟨h0, hle, hbest⟩ := h
      have hidx := scanned_lt h0 hle (start + offset)
      have hnext := best_lt hbest hidx
      cases m <;> simp only [act, scanNext] <;> split_ifs
      all_goals first | exact ⟨h0, hle, hbest⟩ | exact ⟨h0, hle, hnext⟩ | skip
      all_goals
        cases best with
        | none => trivial
        | some j => exact hbest j rfl
  | scanState c m count start offset best =>
      obtain ⟨h0, hle, hbest⟩ := h
      have hidx := scanned_lt h0 hle (start + offset)
      cases m <;> simp only [act, scanNext] <;> split_ifs
      all_goals first | exact hidx | exact ⟨h0, hle, hbest⟩
  | scanInitialised c m count start offset best =>
      obtain ⟨h0, hle, hbest⟩ := h
      have hidx := scanned_lt h0 hle (start + offset)
      have hnext := best_lt hbest hidx
      cases m <;> simp only [act, scanNext] <;> split_ifs
      all_goals first | exact hidx | exact ⟨h0, hle, hbest⟩ | exact ⟨h0, hle, hnext⟩
  | _ =>
      have := hm.hint
      have := hm.count
      simp only [act, casState, setWord] at *
      (repeat' split) <;> simp_all [InRange] <;> omega

/-- The three actions that write a word of the bitmap. -/
lemma act_words (e : Choice) (r : Registry) (l : Loc) :
    (act e r l).1.words = r.words ∨
    (∃ idx k, l = .publishWord idx k ∧ (act e r l).1.words = Function.update r.words (idx / 64)
      (r.words (idx / 64) ||| bit (idx % 64))) ∨
    (∃ c before attempt w b, l = .takeAnd c before attempt w b ∧
      (act e r l).1.words = Function.update r.words w (r.words w &&& ~~~bit b)) ∨
    ∃ c idx, l = .forget c idx ∧ (act e r l).1.words = Function.update r.words (idx / 64)
      (r.words (idx / 64) &&& ~~~bit (idx % 64)) := by
  cases l with
  | publishWord idx k => exact .inr (.inl ⟨idx, k, rfl, rfl⟩)
  | takeAnd c before attempt w b => exact .inr (.inr (.inl ⟨c, before, attempt, w, b, rfl, rfl⟩))
  | forget c idx => exact .inr (.inr (.inr ⟨c, idx, rfl, rfl⟩))
  | _ =>
      refine .inl ?_
      simp only [act, casState] <;> (repeat' split) <;> simp

/-- The two actions that write the reuse hint. -/
lemma act_hint (e : Choice) (r : Registry) (l : Loc) :
    (act e r l).1.reuseHint = r.reuseHint ∨
    (∃ c, l = .hintSwap c ∧ (act e r l).1.reuseHint = maxHeaps) ∨
    ∃ idx k, l = .swapHint idx k ∧ (act e r l).1.reuseHint = idx := by
  cases l with
  | hintSwap c => exact .inr (.inl ⟨c, rfl, rfl⟩)
  | swapHint idx k => exact .inr (.inr ⟨idx, k, rfl, rfl⟩)
  | _ =>
      refine .inl ?_
      simp only [act, casState, setWord] <;> (repeat' split) <;> simp

theorem act_minted (e : Choice) {r : Registry} {l : Loc} (hm : Minted r) (h : InRange r l) :
    Minted (act e r l).1 := by
  have hc := act_count e r l
  refine ⟨?_, ?_, fun i hi => ?_⟩
  · obtain hcount | ⟨c, before, -, hlt, heq⟩ := act_count_cases e r l
    · exact hcount.trans_le hm.count
    · rw [heq]
      exact hlt
  · obtain hh | ⟨c, rfl, hh⟩ | ⟨idx, k, rfl, hh⟩ := act_hint e r l
    · have := hm.hint
      omega
    · exact .inr hh
    · exact .inl (by rw [hh]; exact lt_of_lt_of_le h.1 hc)
  · obtain hw | ⟨idx, k, rfl, hw⟩ | ⟨c, before, attempt, w, b, rfl, hw⟩ | ⟨c, idx, rfl, hw⟩ :=
      act_words e r l <;> rw [hw] at hi
    · exact lt_of_lt_of_le (hm.words i hi) hc
    · rw [member_set, Bool.or_eq_true, decide_eq_true_eq] at hi
      obtain rfl | hi := hi
      · exact h.1
      · exact hm.words i hi
    · rw [member_clear_at _ _ h, Bool.and_eq_true] at hi
      exact hm.words i hi.2
    · rw [member_clear, Bool.and_eq_true] at hi
      exact hm.words i hi.2

/-! ## Every schedule -/

abbrev RegistryWorld (ι : Type*) := Interleaving.World ι Registry Loc

variable {ι : Type*}

/-- Leases are exclusive, and their holders know the state of the heap. -/
structure Leased (w : RegistryWorld ι) : Prop where
  owned : Owned hold heldState w
  knows : ∀ i, Knows w.shared (w.loc i)
  inRange : ∀ i, InRange w.shared (w.loc i)
  settled : Settled w.shared
  minted : Minted w.shared

theorem leased_init : Leased (World.init ι) where
  owned := ⟨fun _ _ _ h => by simp [World.init, hold] at h,
    fun _ _ _ _ _ h => by simp [World.init, hold] at h,
    fun _ _ h => by simp [World.init, Registry.new, heldState, SlotState.held] at h⟩
  knows _ := trivial
  inRange _ := trivial
  settled := ⟨fun _ _ => ⟨rfl, rfl⟩, fun _ h => by simp [World.init, Registry.new] at h,
    fun _ => Nat.zero_le _⟩
  minted := ⟨Nat.zero_le _, .inr rfl, fun _ h => by simp [World.init, Registry.new, member] at h⟩

theorem Leased.step [DecidableEq ι] {w : RegistryWorld ι} (h : Leased w) (i : ι) (e : Choice) :
    Leased (w.step act i e) := by
  have hmode := h.owned.mode i
  refine ⟨h.owned.step (act_move e _ _ hmode), ?_, ?_,
    settled_act e h.settled (h.knows i) hmode, act_minted e h.minted (h.inRange i)⟩
  · refine World.step_forall h.knows (act_knows e h.settled (h.knows i)) fun j hj hk => ?_
    refine hk.stable (fun _ => act_initialised e _ _) fun s x hs => ?_
    refine act_heap_same e _ _ fun y hy => ?_
    exact hj (h.owned.unique j i s x y hs hy)
  · exact World.step_forall h.inRange (act_inRange e h.minted (h.inRange i) hmode)
      fun j _ hj => hj.mono (act_count e _ _)

theorem leased_run [DecidableEq ι] (xs : List (ι × Choice)) :
    Leased (World.run act xs (World.init ι)) :=
  World.run_invariant (fun _ i e h => h.step i e) xs leased_init

/-- The heap the next action of a location reads or writes. -/
def touches : Loc → Option ℕ
  | .materialise _ idx _ | .bindSlotCounters idx _ | .trimForRecycle idx _
  | .invalidateCaches idx _ | .leased idx _ | .maintained idx => some idx
  | _ => none

/-- The thread is the initializing claimant of the slot. -/
def Initialiser (l : Loc) (s : ℕ) : Prop := hold l = some (s, .initializing)

lemma touches_spec {r : Registry} {l : Loc} {s : ℕ} (hk : Knows r l) (ht : touches l = some s) :
    ∃ h, hold l = some (s, h) ∧ (r.initialised s = true ∨ Initialiser l s) := by
  cases l <;> simp only [touches, reduceCtorEq, Option.some.injEq] at ht <;> subst ht
  case materialise | bindSlotCounters => exact ⟨_, rfl, .inr rfl⟩
  all_goals exact ⟨_, rfl, .inl hk.1⟩

/-- Along every schedule a slot has at most one holder, whose mode is the slot's state word;
its heap is touched by that holder alone, initialised or by its initialiser; the initialised
mark is never taken back and no heap is built twice; and no swap of a holder is lost. -/
theorem lease_exclusive [DecidableEq ι] (xs : List (ι × Choice)) :
    let w := World.run act xs (World.init ι)
    (∀ i s h, hold (w.loc i) = some (s, h) → w.shared.state s = h) ∧
    (∀ i j s h h', hold (w.loc i) = some (s, h) → hold (w.loc j) = some (s, h') → i = j) ∧
    (∀ i s, touches (w.loc i) = some s → ∃ h, hold (w.loc i) = some (s, h) ∧
      (w.shared.initialised s = true ∨ Initialiser (w.loc i) s)) ∧
    (∀ s, w.shared.built s ≤ 1) ∧
    (∀ s, w.shared.initialised s = true → ∀ i e, (w.step act i e).shared.initialised s = true) ∧
    ∀ i, w.loc i ≠ .fatal := by
  intro w
  have h : Leased w := leased_run xs
  refine ⟨fun i s x hs => state_of_heldState (h.owned.mode i s x hs), h.owned.unique,
    fun i s hs => touches_spec (h.knows i) hs, h.settled.once,
    fun s hs i e => act_initialised e _ _ hs, fun i hi => ?_⟩
  have hr := h.inRange i
  rw [hi] at hr
  exact hr

end HeapRegistry

end SeferAlloc
