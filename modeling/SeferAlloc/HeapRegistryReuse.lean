import SeferAlloc.HeapRegistryLeases

/-!
# Released slots are found again

A minted slot without a holder is listed in the reuse hint or the bitmap, or
some thread is carrying its index to one of them; a non-zero word of the bitmap
is marked in the summary, or some thread is about to mark it. When no operation
is in flight nothing is carried and nothing is owed.
-/
namespace SeferAlloc
namespace HeapRegistry
open BitWord Interleaving

/-- The index is in the reuse hint or in the bitmap. -/
def Listed (idx : ℕ) (r : Registry) : Prop := r.reuseHint = idx ∨ member r.words idx = true

/-- The index is where a claim looks before it mints: in the hint, or in the bitmap
under a summary bit. -/
def Advertised (idx : ℕ) (r : Registry) : Prop :=
  r.reuseHint = idx ∨ member r.words idx = true ∧ r.summary.getLsbD (idx / 64) = true

/-- The thread took the index off the lists and will claim it or list it again. -/
def Carries (idx : ℕ) (r : Registry) : Loc → Prop
  | .countLoad _ i | .takeCount _ _ i | .slotOrNone _ i | .loadState _ i => i = idx
  | .casEmpty _ i => i = idx ∧ r.state idx = .empty
  | .casFree _ i => i = idx ∧ r.state idx = .free
  | .swapHint i k | .publishWord i k => i = idx ∨ Carries idx r k
  | .publishSummary _ k | .publishClaimable k | .clearSummary _ k | .recheckWord _ k
  | .restoreSummary _ k => Carries idx r k
  | _ => False

/-- The thread will look at the word again, or set its summary bit. -/
def Owes (word : ℕ) : Loc → Prop
  | .publishSummary w k | .recheckWord w k | .restoreSummary w k => w = word ∨ Owes word k
  | .swapHint _ k | .publishWord _ k | .publishClaimable k | .clearSummary _ k => Owes word k
  | _ => False

lemma Carries.stable {idx : ℕ} {r r' : Registry} {l : Loc} (h : Carries idx r l)
    (hs : r'.state idx = r.state idx) : Carries idx r' l := by
  induction l with
  | swapHint i k ih | publishWord i k ih => exact Or.imp_right ih h
  | _ => simp_all [Carries]

/-- A release leaves the index in the hands of the releasing thread. -/
lemma act_release (e : Choice) {r : Registry} {l : Loc} {idx : ℕ}
    (hheld : heldState r idx ≠ none) (hfree : heldState (act e r l).1 idx = none) :
    Carries idx (act e r l).1 (act e r l).2 := by
  cases hl : stateCas l with
  | none =>
      rw [heldState, (act_of_no_cas hl e r).1] at hfree
      exact absurd hfree hheld
  | some p =>
      obtain ⟨s, x, new⟩ := p
      by_cases hx : r.state s = x
      · have hr := (act_of_cas hl e hx).1
        have hs : idx = s := by
          by_contra hne
          rw [hr, heldState_update, Function.update_of_ne hne] at hfree
          exact hheld hfree
        subst s
        rw [hr, heldState_update, Function.update_self] at hfree
        cases l <;> simp only [stateCas, reduceCtorEq, Option.some.injEq, Prod.mk.injEq] at hl <;>
          obtain ⟨rfl, rfl, rfl⟩ := hl <;> simp_all [act, casState, Carries, SlotState.held]
      · rw [(act_of_lost_cas hl e hx).1] at hfree
        exact absurd hfree hheld

/-- A minted index starts in the hands of the minting thread. -/
lemma act_mint (e : Choice) {r : Registry} {l : Loc} {idx : ℕ} (h0 : r.count ≤ idx)
    (h1 : idx < (act e r l).1.count) : Carries idx (act e r l).1 (act e r l).2 := by
  obtain hc | ⟨c, before, -, -, hc⟩ := act_count_cases e r l
  · omega
  · rw [hc] at h1 ⊢
    exact le_antisymm h0 (Nat.lt_succ_iff.mp h1)

/-- While a slot stays without a holder, its index stays listed or carried. -/
lemma act_listed (e : Choice) {r : Registry} {l : Loc} {idx : ℕ} (hr : InRange r l)
    (hmode : ∀ s h, hold l = some (s, h) → heldState r s = some h) (hm : Minted r)
    (hidx : idx < r.count) (h0 : heldState r idx = none) (h1 : heldState (act e r l).1 idx = none)
    (h : Listed idx r ∨ Carries idx r l) :
    Listed idx (act e r l).1 ∨ Carries idx (act e r l).1 (act e r l).2 := by
  have hmax := lt_of_lt_of_le hidx hm.count
  cases l with
  | hintSwap c =>
      obtain (hh | hw) | hc := h
      · exact .inr hh
      · exact .inl (.inr hw)
      · exact hc.elim
  | swapHint i k =>
      simp only [act]
      obtain (hh | hw) | hc | hc := h
      · rw [hh, if_pos hmax]
        exact .inr (.inl rfl)
      · exact .inl (.inr hw)
      · exact .inl (.inl hc)
      · have hk : Carries idx { r with reuseHint := i } k := hc.stable rfl
        right
        split_ifs
        · exact .inr hk
        · exact hk
  | publishWord i k =>
      have hmem := member_set r.words i idx
      obtain (hh | hw) | hc | hc := h
      · exact .inl (.inl hh)
      · exact .inl (.inr (hmem.trans (by simp [hw])))
      · exact .inl (.inr (hmem.trans (by simp [hc])))
      · exact .inr (hc.stable (l := k) rfl)
  | takeAnd c before attempt w b =>
      obtain (hh | hw) | hc := h
      · exact .inl (.inl hh)
      · by_cases hb : idx = w * 64 + b
        · -- The bit goes from the word into the hands of the thread.
          right
          rw [hb, member_at _ _ hr] at hw
          have h0 : r.words w &&& bit b ≠ 0 := fun h0 => by
            rw [(and_bit_eq_zero hr).mp h0] at hw
            contradiction
          simp only [act, h0, if_false]
          split_ifs
          · exact hb.symm
          · exact hb.symm
        · exact .inl (.inr (by
            simp only [act, setWord, member_clear_at _ _ hr, hw, hb, decide_false, Bool.not_false,
              Bool.true_and]))
      · exact hc.elim
  | forget c i =>
      have hi : idx ≠ i := by
        rintro rfl
        simp [hmode idx _ rfl] at h0
      obtain (hh | hw) | hc := h
      · exact .inl (.inl hh)
      · exact .inl (.inr (by simp [act, setWord, member_clear, hw, hi]))
      · exact hc.elim
  | countLoad c i =>
      obtain hl | rfl := h
      · exact .inl hl
      · right
        simp only [act, lt_min hidx hmax, if_true]
        rfl
  | takeCount c before i =>
      obtain hl | rfl := h
      · exact .inl hl
      · right
        simp only [act, lt_min hidx hmax, if_true]
        rfl
  | slotOrNone c i =>
      have hchunk : ¬numChunks ≤ i / chunkSlots := chunk_lt (lt_of_lt_of_le hr hm.count)
      simp only [act, hchunk, if_false]
      split_ifs
      · exact h
      · exact h
      · exact h.imp id .inl
  | loadState c i =>
      obtain hl | rfl := h
      · exact .inl hl
      · -- The slot has no holder, so the compare-and-swap ahead can still win.
        right
        cases hs : r.state i <;> simp [heldState, hs, SlotState.held] at h0 <;>
          simp [act, hs, Carries]
  | casEmpty c i | casFree c i =>
      obtain hl | ⟨rfl, hs⟩ := h
      · left
        simp only [act, casState]
        split_ifs <;> exact hl
      · simp [act, casState, hs, heldState, SlotState.held] at h1
  | publishSummary w k | publishClaimable k | clearSummary w k | restoreSummary w k =>
      exact h.imp id fun hc => hc.stable (l := k) rfl
  | recheckWord w k =>
      refine h.imp id fun hc => ?_
      have hk : Carries idx r k := hc
      simp only [act]
      split_ifs
      · exact hk
      · exact hk
  | _ =>
      obtain hl | hc := h
      · left
        simp only [act, casState]
        repeat' split
        all_goals exact hl
      · exact hc.elim

/-- A slot without a holder before and after keeps its state word. -/
lemma act_state_eq (e : Choice) {r : Registry} {l : Loc} {idx : ℕ}
    (h0 : heldState r idx = none) (h1 : heldState (act e r l).1 idx = none) :
    (act e r l).1.state idx = r.state idx := by
  cases hl : stateCas l with
  | none => rw [(act_of_no_cas hl e r).1]
  | some p =>
      obtain ⟨s, x, new⟩ := p
      by_cases hx : r.state s = x
      · have hr := (act_of_cas hl e hx).1
        by_cases hs : idx = s
        · subst s
          rw [hr, heldState_update, Function.update_self] at h1
          rw [heldState, hx] at h0
          cases l <;> simp only [stateCas, reduceCtorEq, Option.some.injEq, Prod.mk.injEq] at hl <;>
            obtain ⟨rfl, rfl, rfl⟩ := hl <;> simp [SlotState.held] at h0 h1
        · rw [hr]
          exact Function.update_of_ne hs _ _
      · rw [(act_of_lost_cas hl e hx).1]

/-- The three actions that write the summary of the bitmap. -/
lemma act_summary (e : Choice) (r : Registry) (l : Loc) :
    (act e r l).1.summary = r.summary ∨ (∃ w k, l = .publishSummary w k) ∨
    (∃ w k, l = .clearSummary w k) ∨ ∃ w k, l = .restoreSummary w k := by
  cases l with
  | publishSummary w k => exact .inr (.inl ⟨w, k, rfl⟩)
  | clearSummary w k => exact .inr (.inr (.inl ⟨w, k, rfl⟩))
  | restoreSummary w k => exact .inr (.inr (.inr ⟨w, k, rfl⟩))
  | _ =>
      refine .inl ?_
      simp only [act, casState, setWord] <;> (repeat' split) <;> simp

/-- A word that is non-zero after a clearing was non-zero before. -/
lemma ne_zero_of_update_and {words : ℕ → Word} {w word : ℕ} {m : Word}
    (h : Function.update words w (words w &&& m) word ≠ 0) : words word ≠ 0 := by
  by_cases hw : word = w
  · subst w
    rw [Function.update_self] at h
    rintro h0
    exact h (by simp [h0])
  · rwa [Function.update_of_ne hw] at h

/-- A non-zero word stays marked, or somebody stays under way to mark it. -/
lemma act_marked (e : Choice) {r : Registry} {l : Loc} {word : ℕ} (hword : word < 64)
    (h1 : (act e r l).1.words word ≠ 0)
    (h : r.words word ≠ 0 → r.summary.getLsbD word = true ∨ Owes word l) :
    (act e r l).1.summary.getLsbD word = true ∨ Owes word (act e r l).2 := by
  have hwords := act_words e r l
  have hsummary := act_summary e r l
  cases l with
  | publishWord i k =>
      by_cases hw : word = i / 64
      · exact .inr (.inl hw.symm)
      · have hne : r.words word ≠ 0 := by simpa [act, setWord, hw] using h1
        exact (h hne).imp id .inr
  | publishSummary w k | restoreSummary w k =>
      by_cases hw : word = w
      · subst w
        left
        simp [act, getLsbD_or_bit hword]
      · obtain hs | rfl | ho := h h1
        · left
          simp [act, BitVec.getLsbD_or, hs]
        · exact absurd rfl hw
        · exact .inr ho
  | clearSummary w k =>
      by_cases hw : word = w
      · exact .inr (.inl hw.symm)
      · obtain hs | ho := h h1
        · left
          simp only [act, getLsbD_clear_bit, hs, hw, decide_false, Bool.not_false, Bool.and_self]
        · exact .inr (.inr ho)
  | recheckWord w k =>
      simp only [act] at h1 ⊢
      obtain hs | rfl | ho := h h1
      · exact .inl hs
      · rw [if_pos h1]
        exact .inr (.inl rfl)
      · right
        split_ifs
        · exact .inr ho
        · exact ho
  | takeAnd c before attempt w b =>
      obtain hs | ho := h (ne_zero_of_update_and h1)
      · exact .inl hs
      · exact ho.elim
  | forget c i =>
      obtain hs | ho := h (ne_zero_of_update_and h1)
      · exact .inl hs
      · exact ho.elim
  | swapHint i k =>
      refine (h h1).imp id fun ho => ?_
      simp only [act]
      split_ifs <;> exact ho
  | publishClaimable k => exact h h1
  | _ =>
      simp only [reduceCtorEq, false_and, exists_false, or_false] at hwords hsummary
      rw [hsummary]
      rw [hwords] at h1
      exact .inl ((h h1).resolve_right id)

/-! ## Every schedule -/

variable {ι : Type*}

/-- No index is lost and no word of the bitmap is overlooked. -/
structure Tracked (w : RegistryWorld ι) : Prop where
  leased : Leased w
  listed : ∀ idx, idx < w.shared.count → heldState w.shared idx = none →
    w.Covered (Listed idx) (Carries idx)
  marked : ∀ word, word < 64 → w.shared.words word ≠ 0 →
    w.Covered (fun r => r.summary.getLsbD word = true) fun _ => Owes word

theorem tracked_init : Tracked (World.init ι) where
  leased := leased_init
  listed _ h := absurd h (Nat.not_lt_zero _)
  marked _ _ h := absurd rfl h

theorem Tracked.step [DecidableEq ι] {w : RegistryWorld ι} (h : Tracked w) (i : ι) (e : Choice) :
    Tracked (w.step act i e) := by
  have hr := h.leased.inRange i
  have hm := h.leased.minted
  refine ⟨h.leased.step i e, fun idx hidx h1 => ?_, fun word hword h1 => ?_⟩
  · -- Minted or released just now, or already without a holder.
    have own : Carries idx (w.step act i e).shared (act e w.shared (w.loc i)).2 →
        (w.step act i e).Covered (Listed idx) (Carries idx) := fun hc =>
      .inr ⟨i, by rwa [World.step_loc_self]⟩
    by_cases hmint : idx < w.shared.count
    · by_cases h0 : heldState w.shared idx = none
      · have keep := act_listed e hr (h.leased.owned.mode i) hm hmint h0 h1
        exact (h.listed idx hmint h0).step (fun hl => keep (.inl hl)) (fun hc => keep (.inr hc))
          fun j _ hc => hc.stable (act_state_eq e h0 h1)
      · exact own (act_release e h0 h1)
    · exact own (act_mint e (not_lt.mp hmint) hidx)
  · by_cases h0 : w.shared.words word = 0
    · obtain hs | ho := act_marked e hword h1 fun hne => absurd h0 hne
      · exact .inl hs
      · exact .inr ⟨i, by rwa [World.step_loc_self]⟩
    · exact (h.marked word hword h0).step (fun hs => act_marked e hword h1 fun _ => .inl hs)
        (fun ho => act_marked e hword h1 fun _ => .inr ho) fun _ _ ho => ho

theorem tracked_run [DecidableEq ι] (xs : List (ι × Choice)) :
    Tracked (World.run act xs (World.init ι)) :=
  World.run_invariant (fun _ i e h => h.step i e) xs tracked_init

/-- Between operations: a thread is idle or sits on a lease. -/
def Loc.AtRest : Loc → Prop
  | .idle | .leased _ _ | .maintained _ => True
  | _ => False

instance (l : Loc) : Decidable l.AtRest := by
  cases l <;> simp only [Loc.AtRest] <;> infer_instance

lemma Loc.AtRest.not_carries {l : Loc} (h : l.AtRest) (idx : ℕ) (r : Registry) :
    ¬Carries idx r l := by
  cases l <;> simp_all [Loc.AtRest, Carries]

lemma Loc.AtRest.not_owes {l : Loc} (h : l.AtRest) (word : ℕ) : ¬Owes word l := by
  cases l <;> simp_all [Loc.AtRest, Owes]

/-- When no operation is in flight a minted slot without a lease is advertised. -/
theorem Tracked.advertised {w : RegistryWorld ι} (h : Tracked w) (hrest : ∀ i, (w.loc i).AtRest)
    {idx : ℕ} (hidx : idx < w.shared.count)
    (hfree : ∀ i x, hold (w.loc i) ≠ some (idx, x)) : Advertised idx w.shared := by
  have h0 : heldState w.shared idx = none := by
    by_contra hne
    obtain ⟨x, hx⟩ := Option.ne_none_iff_exists'.mp hne
    obtain ⟨i, hi⟩ := h.leased.owned.owner idx x hx
    exact hfree i x hi
  obtain (hh | hw) | ⟨i, hi⟩ := h.listed idx hidx h0
  · exact .inl hh
  · refine .inr ⟨hw, ?_⟩
    have hword : idx / 64 < 64 := by
      have := lt_of_lt_of_le hidx h.leased.minted.count
      simp only [maxHeaps] at this
      omega
    obtain hs | ⟨i, hi⟩ := h.marked (idx / 64) hword (word_ne_zero_of_member hw)
    · exact hs
    · exact absurd hi ((hrest i).not_owes _)
  · exact absurd hi ((hrest i).not_carries _ _)

/-! ## A claim on its own -/

/-- The claim can no longer reach the minting of an index. -/
def MintFree : Loc → Prop
  | .hintSwap _ | .countLoad _ _ | .summaryLoad _ _ | .takeSummary _ _ _ | .takeWord _ _ _ _
  | .takeAnd _ _ _ _ _ | .takeCount _ _ _ | .saturatedLoad _ _ | .bumpLoad _ _
  | .bumpCas _ _ _ | .snapshot _ _ => False
  | .loopTop c | .scanCount c _ | .scanCursor c _ _ | .scanSlot c _ _ _ _ _
  | .scanState c _ _ _ _ _ | .scanInitialised c _ _ _ _ _ | .slotOrNone c _ | .loadState c _
  | .casEmpty c _ | .casFree c _ | .retainMaintained c _ => c.failedChunk.isSome
  | .swapHint _ k | .publishWord _ k | .publishSummary _ k | .publishClaimable k
  | .clearSummary _ k | .recheckWord _ k | .restoreSummary _ k => MintFree k
  | _ => True

lemma act_mintFree (e : Choice) (r : Registry) {l : Loc} (h : MintFree l) (hl : ¬l.AtRest) :
    MintFree (act e r l).2 := by
  cases l with
  | loopTop c =>
      obtain ⟨failed, hf⟩ := Option.isSome_iff_exists.mp h
      simp [act, hf, MintFree]
  | swapHint i k =>
      simp only [act]
      split_ifs <;> exact h
  | recheckWord w k =>
      simp only [act]
      split_ifs <;> exact h
  | publishWord i k | publishSummary w k | publishClaimable k | clearSummary w k
  | restoreSummary w k => exact h
  | idle | leased i g | maintained i => exact absurd trivial hl
  | _ =>
      simp only [act, casState, scanNext]
      (repeat' split) <;> simp_all [MintFree]

/-- The index is in the bitmap under a summary bit. -/
def InBitmap (idx : ℕ) (r : Registry) : Prop :=
  member r.words idx = true ∧ r.summary.getLsbD (idx / 64) = true

/-- A claim running alone on the way to a slot that was minted before: its candidate is
`idx`, or `idx` is still advertised. -/
inductive Seeking (idx : ℕ) (r : Registry) : Loc → Prop
  | loopTop (c : Claim) (h : Advertised idx r) : Seeking idx r (.loopTop c)
  | hintSwap (c : Claim) (h : Advertised idx r) : Seeking idx r (.hintSwap c)
  | countLoad (c : Claim) (i : ℕ) (h : i = idx ∨ InBitmap idx r) : Seeking idx r (.countLoad c i)
  | summaryLoad (c : Claim) (before : ℕ) (h : InBitmap idx r) : Seeking idx r (.summaryLoad c before)
  | takeSummary (c : Claim) (before n : ℕ) (h : InBitmap idx r)
      (hlow : ∀ b < n, r.summary.getLsbD b = false) : Seeking idx r (.takeSummary c before n)
  | takeWord (c : Claim) (before n w : ℕ) (h : InBitmap idx r)
      (hlow : ∀ b < w, r.summary.getLsbD b = false) (hn : n ≤ w) :
      Seeking idx r (.takeWord c before n w)
  | takeAnd (c : Claim) (before n w b : ℕ) (h : InBitmap idx r)
      (hb : (r.words w).getLsbD b = true) : Seeking idx r (.takeAnd c before n w b)
  | clearStale (c : Claim) (before n w : ℕ) (h : InBitmap idx r) (hz : r.words w = 0)
      (hlow : ∀ b < w, r.summary.getLsbD b = false) (hn : n ≤ w) :
      Seeking idx r (.clearSummary w (.takeSummary c before (n + 1)))
  | recheckStale (c : Claim) (before n w : ℕ) (h : InBitmap idx r) (hz : r.words w = 0)
      (hlow : ∀ b < w + 1, r.summary.getLsbD b = false) (hn : n ≤ w) :
      Seeking idx r (.recheckWord w (.takeSummary c before (n + 1)))
  | clearTaken (c : Claim) (before w i : ℕ) (h : i = idx ∨ InBitmap idx r) (hz : r.words w = 0) :
      Seeking idx r (.clearSummary w (.takeCount c before i))
  | recheckTaken (c : Claim) (before w i : ℕ) (h : i = idx ∨ InBitmap idx r) (hz : r.words w = 0) :
      Seeking idx r (.recheckWord w (.takeCount c before i))
  | takeCount (c : Claim) (before i : ℕ) (h : i = idx ∨ InBitmap idx r) :
      Seeking idx r (.takeCount c before i)
  | slotOrNone (c : Claim) (i : ℕ) (h : i = idx ∨ Advertised idx r) : Seeking idx r (.slotOrNone c i)
  | loadState (c : Claim) (i : ℕ) (h : i = idx ∨ Advertised idx r) : Seeking idx r (.loadState c i)
  | casEmpty (c : Claim) (i : ℕ) (hs : r.state i = .empty) : Seeking idx r (.casEmpty c i)
  | casFree (c : Claim) (i : ℕ) (hs : r.state i = .free) : Seeking idx r (.casFree c i)
  | retain (c : Claim) (i : ℕ) (h : Advertised idx r) : Seeking idx r (.retainMaintained c i)
  | retainWord (c : Claim) (i : ℕ) (h : Advertised idx r) :
      Seeking idx r (.publishWord i (.loopTop c))
  | retainSummary (c : Claim) (w : ℕ) (h : Advertised idx r) :
      Seeking idx r (.publishSummary w (.loopTop c))

lemma InBitmap.summary_ne {idx : ℕ} {r : Registry} (h : InBitmap idx r) : r.summary ≠ 0 :=
  ne_zero_of_getLsbD h.2

/-- Clearing the summary bit of an empty word leaves the index visible. -/
lemma InBitmap.clear_summary {idx : ℕ} {r : Registry} (h : InBitmap idx r) {w : ℕ}
    (hz : r.words w = 0) : InBitmap idx { r with summary := r.summary &&& ~~~bit w } := by
  have hw : idx / 64 ≠ w := by
    rintro rfl
    exact word_ne_zero_of_member h.1 hz
  refine ⟨h.1, ?_⟩
  rw [getLsbD_clear_bit, h.2]
  simp [hw]

theorem act_seeking (e : Choice) {idx : ℕ} {r : Registry} {l : Loc} (h : Seeking idx r l)
    (hr : InRange r l) (hm : Minted r) (hidx : idx < r.count) (h0 : heldState r idx = none) :
    Seeking idx (act e r l).1 (act e r l).2 ∧ (act e r l).1.state = r.state ∨
      MintFree (act e r l).2 := by
  have hmax := lt_of_lt_of_le hidx hm.count
  cases h with
  | loopTop c h =>
      cases hf : c.failedChunk with
      | none => exact .inl (by simpa [act, hf] using .hintSwap _ h)
      | some failed => exact .inr (by simp [act, hf, MintFree])
  | hintSwap c h =>
      refine .inl ⟨.countLoad c _ ?_, rfl⟩
      exact h.imp id id
  | countLoad c i h =>
      left
      simp only [act, and_true]
      split_ifs with hi
      · exact .slotOrNone c i (h.imp id .inr)
      · obtain rfl | hb := h
        · exact absurd (lt_min hidx hmax) hi
        · exact .summaryLoad c _ hb
  | summaryLoad c before h =>
      left
      simp only [act, h.summary_ne, ne_eq, not_false_eq_true, if_true, and_true]
      exact .takeSummary c before 0 h fun b hb => absurd hb (Nat.not_lt_zero b)
  | takeSummary c before n h hlow =>
      have hz := h.summary_ne
      have hlow' : ∀ b < trailingZeros r.summary, r.summary.getLsbD b = false := fun b hb => by
        by_contra hne
        exact absurd (trailingZeros_le (by simpa using hne)) (not_le.mpr hb)
      have hn : n ≤ trailingZeros r.summary := by
        by_contra hlt
        have htrue := getLsbD_trailingZeros hz
        rw [hlow _ (not_le.mp hlt)] at htrue
        contradiction
      -- The words below the one of `idx` are fewer than the attempts.
      have hlt := trailingZeros_lt hz
      have hattempts : ¬takeAttempts ≤ n := by
        simp only [takeAttempts, maxHeaps]
        omega
      left
      simp only [act, hattempts, hz, if_false, and_true]
      exact .takeWord c before n _ h hlow' hn
  | takeWord c before n w h hlow hn =>
      left
      simp only [act, and_true]
      split_ifs with hz
      · exact .clearStale c before n w h hz hlow hn
      · exact .takeAnd c before n w _ h (getLsbD_trailingZeros hz)
  | takeAnd c before n w b h hb =>
      have hne : r.words w &&& bit b ≠ 0 := fun h0 => by
        rw [(and_bit_eq_zero hr).mp h0] at hb
        contradiction
      have hi : w * 64 + b = idx ∨
          InBitmap idx (setWord r w (r.words w &&& ~~~bit b)) := by
        by_cases hi : w * 64 + b = idx
        · exact .inl hi
        · refine .inr ⟨?_, h.2⟩
          simp only [setWord, member_clear_at _ _ hr, h.1, Ne.symm hi, decide_false,
            Bool.not_false, Bool.and_self]
      left
      simp only [act, hne, if_false]
      refine ⟨?_, rfl⟩
      split_ifs with hold
      · refine .clearTaken c before w _ hi ?_
        simp [setWord, hold]
      · exact .takeCount c before _ hi
  | clearStale c before n w h hz hlow hn =>
      refine .inl ⟨.recheckStale c before n w (h.clear_summary hz) hz (fun b hb => ?_) hn, rfl⟩
      change (r.summary &&& ~~~bit w).getLsbD b = false
      rw [getLsbD_clear_bit]
      by_cases hbw : b = w
      · simp [hbw]
      · simp [hlow b (by omega)]
  | recheckStale c before n w h hz hlow hn =>
      left
      simp only [act, hz, ne_eq, not_true_eq_false, if_false, and_true]
      exact .takeSummary c before (n + 1) h fun b hb => hlow b (by omega)
  | clearTaken c before w i h hz =>
      exact .inl ⟨.recheckTaken c before w i (h.imp id fun hb => hb.clear_summary hz) hz, rfl⟩
  | recheckTaken c before w i h hz =>
      left
      simp only [act, hz, ne_eq, not_true_eq_false, if_false, and_true]
      exact .takeCount c before i h
  | takeCount c before i h =>
      left
      simp only [act, lt_min hr (lt_of_lt_of_le hr hm.count), if_true, and_true]
      exact .slotOrNone c i (h.imp id .inr)
  | slotOrNone c i h =>
      simp only [act, chunk_lt (lt_of_lt_of_le hr hm.count), if_false]
      split_ifs
      · exact .inl ⟨.loadState c i h, rfl⟩
      · exact .inl ⟨.loadState c i h, rfl⟩
      · exact .inr rfl
  | loadState c i h =>
      left
      have hadv : r.state i ≠ .empty → r.state i ≠ .free → Advertised idx r := fun h1 h2 => by
        obtain rfl | hadv := h
        · cases hs : r.state i <;> simp_all [heldState, SlotState.held]
        · exact hadv
      simp only [act, and_true]
      split
      · next hs => exact .casEmpty c i hs
      · next hs => exact .casFree c i hs
      · next hs =>
          have := hadv (by simp [hs]) (by simp [hs])
          split_ifs
          · exact .retain _ i this
          · exact .loopTop c this
      · next h1 h2 h3 => exact .loopTop c (hadv h1 h2)
  | casEmpty c i hs =>
      right
      simp [act, casState, hs, MintFree]
  | casFree c i hs =>
      right
      simp only [act, casState, hs, if_true]
      split_ifs <;> trivial
  | retain c i h =>
      left
      simp only [act, and_true]
      split_ifs
      · exact .retainWord c i h
      · exact .loopTop c h
  | retainWord c i h =>
      refine .inl ⟨.retainSummary c _ (h.imp id fun hb => ⟨?_, hb.2⟩), rfl⟩
      change member (Function.update r.words (i / 64) (r.words (i / 64) ||| bit (i % 64))) idx = true
      simp [member_set, hb.1]
  | retainSummary c w h =>
      refine .inl ⟨.loopTop c (h.imp id fun hb => ⟨hb.1, ?_⟩), rfl⟩
      change (r.summary ||| bit w).getLsbD (idx / 64) = true
      rw [BitVec.getLsbD_or, hb.2, Bool.true_or]

/-- Thread `i` runs alone until its operation ends. -/
def runAlone {ι : Type*} [DecidableEq ι] (i : ι) : List Choice → RegistryWorld ι → RegistryWorld ι
  | [], w => w
  | e :: es, w => if (w.loc i).AtRest then w else runAlone i es (w.step act i e)

lemma act_count_eq (e : Choice) {r : Registry} {l : Loc}
    (hl : MintFree l ∨ ∃ idx, Seeking idx r l) : (act e r l).1.count = r.count := by
  obtain h | ⟨c, before, rfl, -⟩ := act_count_cases e r l
  · exact h
  · obtain h | ⟨idx, h⟩ := hl
    · exact h.elim
    · cases h

/-- A claim running alone never mints while a minted slot is without a holder. -/
theorem runAlone_count {ι : Type*} [DecidableEq ι] (i : ι) (es : List Choice)
    {w : RegistryWorld ι} (hw : Leased w) {idx : ℕ} (hidx : idx < w.shared.count)
    (h : heldState w.shared idx = none ∧ Seeking idx w.shared (w.loc i) ∨ MintFree (w.loc i)) :
    (runAlone i es w).shared.count = w.shared.count := by
  induction es generalizing w with
  | nil => rfl
  | cons e es ih =>
      rw [runAlone]
      split_ifs with hrest
      · rfl
      have hcount : (w.step act i e).shared.count = w.shared.count :=
        act_count_eq e (h.symm.imp id fun hs => ⟨idx, hs.2⟩)
      rw [← hcount]
      refine ih (hw.step i e) (by omega) ?_
      rw [World.step_loc_self]
      obtain ⟨h0, hs⟩ | hfree := h
      · refine (act_seeking e hs (hw.inRange i) hw.minted hidx h0).imp (fun hs' => ⟨?_, hs'.1⟩) id
        rw [heldState] at h0 ⊢
        rwa [show (w.step act i e).shared.state = w.shared.state from hs'.2]
      · exact .inr (act_mintFree e _ hfree hrest)

/-- Along every schedule, when no operation is in flight, a minted slot without a lease is
advertised, and a claim that then runs alone mints no fresh index. -/
theorem no_stranded_slot {ι : Type*} [DecidableEq ι] (xs : List (ι × Choice)) :
    let w := World.run act xs (World.init ι)
    (∀ i, (w.loc i).AtRest) → ∀ idx < w.shared.count,
    (∀ i x, hold (w.loc i) ≠ some (idx, x)) → Advertised idx w.shared ∧
      ∀ i, w.loc i = .idle → ∀ ok es,
        (runAlone i es (w.step act i ⟨.claim, ok⟩)).shared.count = w.shared.count := by
  intro w hrest idx hidx hfree
  have ht : Tracked w := tracked_run xs
  have hadv := ht.advertised hrest hidx hfree
  refine ⟨hadv, fun i hi ok es => ?_⟩
  have hact : act ⟨.claim, ok⟩ w.shared (w.loc i) = (w.shared, .loopTop .new) := by rw [hi]; rfl
  have hsh : (w.step act i ⟨.claim, ok⟩).shared = w.shared := by rw [World.step, hact]
  rw [← hsh]
  refine runAlone_count i es (ht.leased.step i _) (by rwa [hsh]) (.inl ⟨?_, ?_⟩)
  · rw [hsh]
    by_contra hne
    obtain ⟨x, hx⟩ := Option.ne_none_iff_exists'.mp hne
    obtain ⟨j, hj⟩ := ht.leased.owned.owner idx x hx
    exact hfree j x hj
  · rw [World.step_loc_self, hact, hsh]
    exact .loopTop _ hadv

/-- One thread claims the first slot and drops its lease. -/
def claimAndDrop : List (Unit × Choice) :=
  ((), ⟨.claim, true⟩) :: List.replicate 20 ((), ⟨.drop, true⟩)

theorem claimAndDrop_advertised :
    let w := World.run act claimAndDrop (World.init Unit)
    Advertised 0 w.shared ∧ ∀ i, w.loc i = .idle → ∀ ok es,
      (runAlone i es (w.step act i ⟨.claim, ok⟩)).shared.count = w.shared.count := by
  have hidle : (World.run act claimAndDrop (World.init Unit)).loc () = .idle := rfl
  refine no_stranded_slot claimAndDrop (fun i => ?_) 0 (by decide) fun i x => ?_
  · rw [hidle]
    trivial
  · rw [hidle]
    exact Option.some_ne_none _ ∘ Eq.symm

end HeapRegistry

end SeferAlloc
