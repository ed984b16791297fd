import SeferAlloc.FreeSlotHint
import SeferAlloc.HeapRegistryLeases

/-!
# The registry is called full only when it is

A scan of a full registry that finds no slot marks the saturation word, if no
slot was published since the scan began. The word never returns to a version, so
a slot that became free behind the scan still has its publisher under way.
-/
namespace SeferAlloc
namespace HeapRegistry
open BitWord Interleaving

/-- A claim can have the slot: it is free, or it was never used. -/
def Claimable (r : Registry) (idx : ℕ) : Prop :=
  r.state idx = .free ∨ r.state idx = .empty ∧ r.initialised idx = false

/-- The thread is on its way to `publish_claimable`. -/
def Publishes : Loc → Prop
  | .publishClaimable _ | .swapHint _ _ => True
  | .publishWord _ k | .publishSummary _ k | .clearSummary _ k | .recheckWord _ k
  | .restoreSummary _ k => Publishes k
  | _ => False

/-! ## The saturation word -/

lemma publishClaimableWord_le {old : ℕ} (h : old ≤ disabled) :
    old ≤ publishClaimableWord old ∧ publishClaimableWord old ≤ disabled := by
  unfold publishClaimableWord
  split_ifs <;> simp only [lastVersion, disabled] at * <;> omega

/-- A publication leaves no version as it was. -/
lemma publishClaimableWord_ne {old : ℕ} (h : old ≠ disabled) : publishClaimableWord old ≠ old := by
  unfold publishClaimableWord
  split_ifs <;> simp only [lastVersion, disabled] at * <;> omega

lemma publishClaimableWord_not_saturated (old : ℕ) : isSaturated (publishClaimableWord old) = false := by
  unfold publishClaimableWord isSaturated
  split_ifs
  · simp
  · simp

lemma tryMarkSaturated_le {word : ℕ} (h : word ≤ disabled) (version : ℕ) :
    word ≤ tryMarkSaturated word version ∧ tryMarkSaturated word version ≤ disabled := by
  unfold tryMarkSaturated
  split_ifs <;> simp only [disabled] at * <;> omega

variable {r : Registry} {l : Loc} {idx : ℕ}

/-- Publications and marks are the only writes of the saturation word. -/
lemma act_saturation (e : Choice) (r : Registry) (l : Loc) :
    (act e r l).1.saturation = r.saturation ∨
      (∃ k, l = .publishClaimable k) ∨ ∃ version, l = .markSaturated version := by
  cases l with
  | publishClaimable k => exact .inr (.inl ⟨k, rfl⟩)
  | markSaturated version => exact .inr (.inr ⟨version, rfl⟩)
  | _ =>
      refine .inl ?_
      simp only [act, casState, setWord] <;> (repeat' split) <;> simp

lemma act_saturation_le (e : Choice) (l : Loc) (h : r.saturation ≤ disabled) :
    r.saturation ≤ (act e r l).1.saturation ∧ (act e r l).1.saturation ≤ disabled := by
  obtain hs | ⟨k, rfl⟩ | ⟨version, rfl⟩ := act_saturation e r l
  · rw [hs]
    exact ⟨le_rfl, h⟩
  · exact publishClaimableWord_le h
  · exact tryMarkSaturated_le h version

/-- A publisher stays one until it has published. -/
lemma act_publishes (e : Choice) (r : Registry) (h : Publishes l) :
    Publishes (act e r l).2 ∨ ∃ k, l = .publishClaimable k := by
  cases l with
  | publishClaimable k => exact .inr ⟨k, rfl⟩
  | swapHint i k =>
      left
      simp only [act]
      split_ifs <;> trivial
  | publishWord _ k | publishSummary _ k | clearSummary _ k | restoreSummary _ k => exact .inl h
  | recheckWord w k =>
      left
      simp only [act]
      split_ifs <;> exact h
  | _ => exact h.elim

/-- Whoever makes a slot claimable is on the way to publish it. -/
lemma act_claimable (e : Choice) (h₁ : Claimable (act e r l).1 idx) :
    Claimable r idx ∨ Publishes (act e r l).2 := by
  have hinit : (act e r l).1.initialised idx = false → r.initialised idx = false := by
    intro hf
    by_contra ht
    rw [act_initialised e r l (by simpa using ht)] at hf
    contradiction
  cases hl : stateCas l with
  | none =>
      left
      rw [Claimable, (act_of_no_cas hl e r).1] at h₁
      exact h₁.imp_right fun ⟨hs, hf⟩ => ⟨hs, hinit hf⟩
  | some p =>
      obtain ⟨s, x, new⟩ := p
      by_cases hx : r.state s = x
      · by_cases hs : idx = s
        · subst s
          cases l <;> simp only [stateCas, reduceCtorEq, Option.some.injEq, Prod.mk.injEq] at hl <;>
            obtain ⟨rfl, rfl, rfl⟩ := hl <;>
            simp_all [act, casState, Claimable, Publishes]
        · left
          rw [Claimable, (act_of_cas hl e hx).1] at h₁
          simpa [Claimable, Function.update_of_ne hs] using h₁
      · left
        rwa [(act_of_lost_cas hl e hx).1] at h₁

/-! ## Scans of a full registry -/

/-- The scan of version `v` passed the slot, but a claim can have it. -/
def Missed (v idx : ℕ) (r : Registry) : Loc → Prop
  | .scanSlot _ (.claimable before version) count start offset none
  | .scanState _ (.claimable before version) count start offset none =>
      version = v ∧ before = maxHeaps ∧ Claimable r idx ∧
        ∃ o < offset, (start + o) % count = idx
  | .scanInitialised _ (.claimable before version) count start offset none =>
      version = v ∧ before = maxHeaps ∧
        ((Claimable r idx ∧ ∃ o < offset, (start + o) % count = idx) ∨
          (start + offset) % count = idx ∧ r.state idx = .free)
  | .scanNone (.claimable before version) =>
      version = v ∧ before = maxHeaps ∧ Claimable r idx ∧ idx < maxHeaps
  | .markSaturated version => version = v ∧ Claimable r idx ∧ idx < maxHeaps
  | _ => False

/-- Where publications and rechecks go on. -/
def Resumes : Loc → Prop
  | .idle | .loopTop _ | .takeSummary _ _ _ | .takeCount _ _ _ => True
  | .publishClaimable k | .publishSummary _ k | .publishWord _ k | .clearSummary _ k
  | .recheckWord _ k | .restoreSummary _ k => Resumes k
  | _ => False

/-- What a thread knows of the counter and of the saturation word from its own reads. -/
def Read (r : Registry) : Loc → Prop
  | .summaryLoad _ before | .takeSummary _ before _ | .takeWord _ before _ _
  | .takeAnd _ before _ _ _ | .takeCount _ before _ | .saturatedLoad _ before
  | .bumpLoad _ before | .bumpCas _ before _ | .snapshot _ before => before ≤ r.count
  | .scanCount _ (.claimable before version) => before ≤ r.count ∧ version ≤ r.saturation
  | .scanCursor _ (.claimable before version) count
  | .scanSlot _ (.claimable before version) count _ _ _
  | .scanState _ (.claimable before version) count _ _ _
  | .scanInitialised _ (.claimable before version) count _ _ _ =>
      (before = maxHeaps → count = maxHeaps) ∧ version ≤ r.saturation
  | .scanNone (.claimable _ version) | .markSaturated version => version ≤ r.saturation
  | .swapHint _ k | .publishClaimable k | .publishSummary _ k | .publishWord _ k
  | .clearSummary _ k | .recheckWord _ k | .restoreSummary _ k => Resumes k ∧ Read r k
  | _ => True

lemma Resumes.not_missed (h : Resumes l) (v idx : ℕ) (r : Registry) : ¬ Missed v idx r l := by
  cases l <;> simp_all [Resumes, Missed]

lemma Read.mono {r r' : Registry} (h : Read r l) (hc : r.count ≤ r'.count)
    (hs : r.saturation ≤ r'.saturation) : Read r' l := by
  induction l with
  | swapHint i k ih | publishWord i k ih | publishSummary i k ih | publishClaimable k ih
  | clearSummary w k ih | recheckWord w k ih | restoreSummary w k ih => exact ⟨h.1, ih h.2⟩
  | scanCount c m => cases m <;> simp_all only [Read] <;> omega
  | scanCursor c m | scanSlot c m | scanState c m | scanInitialised c m | scanNone m =>
      cases m <;> simp_all only [Read, implies_true, true_and] <;> omega
  | _ => simp_all only [Read] <;> omega

lemma act_read (e : Choice) (hl : Read r l) (h : r.saturation ≤ disabled) :
    Read (act e r l).1 (act e r l).2 := by
  have hc := act_count e r l
  have hs := (act_saturation_le e l h).1
  have hmono : ∀ {k}, Read r k → Read (act e r l).1 k := fun hk => hk.mono hc hs
  cases l with
  | swapHint i k | publishClaimable k | publishSummary w k | publishWord w k | clearSummary w k
  | recheckWord w k | restoreSummary w k =>
      obtain ⟨hres, hk⟩ := hl
      have hk' := hmono hk
      simp only [act] at hk' ⊢
      (repeat' split) <;> first | exact hk' | exact ⟨hres, hk'⟩ | exact ⟨hres, hres, hk'⟩
  | scanCount c m =>
      cases m with
      | recovery excluded =>
          simp only [act]
          split_ifs <;> trivial
      | claimable before version =>
          simp only [act]
          split_ifs
          · exact hl.2
          · refine ⟨fun hb => ?_, hl.2⟩
            have hle := hl.1
            omega
  | scanSlot c m | scanState c m | scanInitialised c m | scanNone m | scanCursor c m =>
      cases m with
      | recovery excluded =>
          simp only [act, scanNext]
          (repeat' split) <;> trivial
      | claimable before version =>
          simp only [act, scanNext, Read] at hl ⊢
          (repeat' split) <;> first | trivial | exact hl | exact hl.2
  | _ =>
      simp only [act, casState, setWord]
      (repeat' split) <;> simp_all [Read, Resumes]

/-- A slot becomes free in the hands of a thread that will publish it. -/
lemma act_free (e : Choice) (h₁ : (act e r l).1.state idx = .free) :
    r.state idx = .free ∨ Publishes (act e r l).2 := by
  cases hl : stateCas l with
  | none =>
      rw [(act_of_no_cas hl e r).1] at h₁
      exact .inl h₁
  | some p =>
      obtain ⟨s, x, new⟩ := p
      by_cases hx : r.state s = x
      · by_cases hs : idx = s
        · subst s
          right
          cases l <;> simp only [stateCas, reduceCtorEq, Option.some.injEq, Prod.mk.injEq] at hl <;>
            obtain ⟨rfl, rfl, rfl⟩ := hl <;>
            simp_all [act, casState, Publishes]
        · left
          rw [(act_of_cas hl e hx).1] at h₁
          simpa [Function.update_of_ne hs] using h₁
      · left
        rwa [(act_of_lost_cas hl e hx).1] at h₁

/-- What another thread does to the slots that a scan passed. -/
lemma Missed.of_act (e : Choice) {l' : Loc} {v : ℕ} (h : Missed v idx (act e r l).1 l') :
    Missed v idx r l' ∨ Publishes (act e r l).2 := by
  have hclaim : Claimable (act e r l).1 idx → Claimable r idx ∨ Publishes (act e r l).2 :=
    act_claimable e
  cases l' with
  | scanSlot c m count start offset best | scanState c m count start offset best =>
      cases m <;> cases best <;> try exact h.elim
      obtain ⟨hv, hb, hc, ho⟩ := h
      exact (hclaim hc).imp_left fun hc => ⟨hv, hb, hc, ho⟩
  | scanInitialised c m count start offset best =>
      cases m <;> cases best <;> try exact h.elim
      obtain ⟨hv, hb, ⟨hc, ho⟩ | ⟨hi, hf⟩⟩ := h
      · exact (hclaim hc).imp_left fun hc => ⟨hv, hb, .inl ⟨hc, ho⟩⟩
      · exact (act_free e hf).imp_left fun hf => ⟨hv, hb, .inr ⟨hi, hf⟩⟩
  | scanNone m =>
      cases m <;> try exact h.elim
      obtain ⟨hv, hb, hc, hi⟩ := h
      exact (hclaim hc).imp_left fun hc => ⟨hv, hb, hc, hi⟩
  | markSaturated version =>
      obtain ⟨hv, hc, hi⟩ := h
      exact (hclaim hc).imp_left fun hc => ⟨hv, hc, hi⟩
  | _ => exact h.elim

/-- Every slot has its turn in a scan. -/
lemma exists_offset {count : ℕ} (hidx : idx < count) (start : ℕ) :
    ∃ o < count, (start + o) % count = idx := by
  refine ⟨(idx + (count - start % count)) % count, Nat.mod_lt _ (by omega), ?_⟩
  have h₁ : start % count < count := Nat.mod_lt _ (by omega)
  rw [Nat.add_mod, Nat.mod_mod, ← Nat.add_mod]
  have h₂ : start + (idx + (count - start % count)) = idx + count * (start / count + 1) := by
    have := Nat.div_add_mod start count
    rw [Nat.mul_add, Nat.mul_one]
    omega
  rw [h₂, Nat.add_mul_mod_self_left, Nat.mod_eq_of_lt hidx]

/-- A scan misses no slot of its own doing: what it passes a claim cannot have. -/
lemma act_missed (e : Choice) {v : ℕ} (hl : Read r l) (h : Missed v idx (act e r l).1 (act e r l).2) :
    Missed v idx r l := by
  cases l with
  | swapHint i k =>
      have hnot := hl.1.not_missed v idx
      simp only [act] at h
      split_ifs at h <;> exact h.elim
  | publishClaimable k => exact (hl.1.not_missed v idx _ h).elim
  | publishSummary w k | restoreSummary w k => exact (hl.1.not_missed v idx _ h).elim
  | recheckWord w k =>
      simp only [act] at h
      split_ifs at h
      · exact h.elim
      · exact (hl.1.not_missed v idx _ h).elim
  | scanCursor c m count =>
      cases m with
      | recovery excluded => exact h.elim
      | claimable before version =>
          obtain ⟨-, -, -, o, ho, -⟩ := h
          omega
  | scanCount c m =>
      cases m with
      | recovery excluded =>
          simp only [act] at h
          split_ifs at h <;> exact h.elim
      | claimable before version =>
          simp only [act] at h
          split_ifs at h with h0
          · obtain ⟨-, hb, -, -⟩ := h
            have hle := hl.1
            simp only [maxHeaps] at hb h0
            omega
          · exact h.elim
  | scanSlot c m count start offset best =>
      cases m with
      | recovery excluded =>
          simp only [act, scanNext] at h
          (repeat' split at h) <;> exact h.elim
      | claimable before version =>
          simp only [act, scanNext] at h
          split_ifs at h with hlast hchunk
          · cases best with
            | some i => exact h.elim
            | none =>
                -- The scan is over: every slot had its turn.
                obtain ⟨hv, hb, hc, hi⟩ := h
                obtain ⟨o, ho, he⟩ := exists_offset ((hl.1 hb).symm ▸ hi) start
                exact ⟨hv, hb, hc, o, by omega, he⟩
          · cases best with
            | some i => exact h.elim
            | none => exact h
          · cases best <;> exact h.elim
  | scanState c m count start offset best =>
      cases m with
      | recovery excluded =>
          simp only [act, scanNext] at h
          split_ifs at h <;> exact h.elim
      | claimable before version =>
          simp only [act, scanNext] at h
          split_ifs at h with hfree hempty
          · exact h.elim
          · cases best with
            | some i => exact h.elim
            | none =>
                obtain ⟨hv, hb, ⟨hc, ho⟩ | ⟨rfl, hf⟩⟩ := h
                · exact ⟨hv, hb, hc, ho⟩
                · exact absurd hf hfree
          · cases best with
            | some i => exact h.elim
            | none =>
                obtain ⟨hv, hb, hc, o, ho, rfl⟩ := h
                obtain ho | rfl := Nat.lt_succ_iff_lt_or_eq.mp ho
                · exact ⟨hv, hb, hc, o, ho, rfl⟩
                · obtain hc | ⟨hc, -⟩ := hc
                  · exact absurd hc hfree
                  · exact absurd hc hempty
  | scanInitialised c m count start offset best =>
      cases m with
      | recovery excluded =>
          simp only [act, scanNext] at h
          split_ifs at h
          · exact h.elim
          · exact h.elim
      | claimable before version =>
          simp only [act, scanNext] at h
          split_ifs at h with hinit
          · cases best with
            | some i => exact h.elim
            | none =>
                obtain ⟨hv, hb, hc, o, ho, rfl⟩ := h
                refine ⟨hv, hb, ?_⟩
                obtain ho | rfl := Nat.lt_succ_iff_lt_or_eq.mp ho
                · exact .inl ⟨hc, o, ho, rfl⟩
                · obtain hc | ⟨-, hc⟩ := hc
                  · exact .inr ⟨rfl, hc⟩
                  · rw [hinit] at hc
                    contradiction
          · exact h.elim
  | scanNone m =>
      cases m with
      | recovery excluded => exact h.elim
      | claimable before version =>
          simp only [act] at h
          split_ifs at h with hfull
          · obtain ⟨hv, hc, hi⟩ := h
            exact ⟨hv, hfull.1, hc, hi⟩
          · exact h.elim
  | _ =>
      simp only [act, casState, setWord] at h
      (repeat' split at h) <;> exact h.elim

/-! ## Every schedule -/

variable {ι : Type*}

/-- A registry whose word says full only if it is. -/
structure Start where
  registry : Registry
  word_le : registry.saturation ≤ disabled
  honest : isSaturated registry.saturation = true →
    ∀ idx, idx < maxHeaps → ¬ Claimable registry idx

/-- The registry before any thread started. -/
def Start.world (ι : Type*) (s : Start) : RegistryWorld ι := ⟨s.registry, fun _ => .idle⟩

/-- Some thread made a slot claimable and has not published it. -/
def Publishing (w : RegistryWorld ι) : Prop := ∃ j, Publishes (w.loc j)

/-- The word is honest, and the scans are. -/
structure Honest (w : RegistryWorld ι) : Prop where
  word_le : w.shared.saturation ≤ disabled
  read : ∀ j, Read w.shared (w.loc j)
  missed : ∀ j v idx, Missed v idx w.shared (w.loc j) → w.shared.saturation = v → v ≠ disabled →
    Publishing w
  full : isSaturated w.shared.saturation = true → ∀ idx, idx < maxHeaps →
    Claimable w.shared idx → Publishing w

lemma Start.honest_world (s : Start) : Honest (s.world ι) where
  word_le := s.word_le
  read _ := trivial
  missed _ _ _ h := h.elim
  full hs idx hidx hc := (s.honest hs idx hidx hc).elim

/-- While the word stays, publishers stay. -/
lemma Publishing.step [DecidableEq ι] {w : RegistryWorld ι} {i : ι} {e : Choice}
    (h : Publishing w) (hne : w.shared.saturation ≠ disabled)
    (hs : (w.step act i e).shared.saturation = w.shared.saturation) :
    Publishing (w.step act i e) := by
  obtain ⟨j, hj⟩ := h
  by_cases hji : j = i
  · subst j
    obtain hp | ⟨k, hk⟩ := act_publishes e w.shared hj
    · exact ⟨i, by rwa [World.step_loc_self]⟩
    · refine absurd hs ?_
      simp only [World.step, hk, act]
      exact publishClaimableWord_ne hne
  · exact ⟨j, by rwa [World.step_loc_of_ne hji]⟩

lemma Honest.step [DecidableEq ι] {w : RegistryWorld ι} (h : Honest w) (i : ι) (e : Choice) :
    Honest (w.step act i e) := by
  obtain ⟨hle, hle'⟩ := act_saturation_le e (w.loc i) h.word_le
  have self : Publishes (act e w.shared (w.loc i)).2 → Publishing (w.step act i e) :=
    fun hp => ⟨i, by rwa [World.step_loc_self]⟩
  have hread : ∀ j, Read (w.step act i e).shared ((w.step act i e).loc j) :=
    World.step_forall h.read (act_read e (h.read i) h.word_le)
      fun j _ hj => hj.mono (act_count e _ _) hle
  refine ⟨hle', hread, fun j v idx hm hv hne => ?_, fun hsat idx hidx hc => ?_⟩
  · -- The scan read a version that is still there, so nobody published meanwhile.
    have hold : ∀ {l}, Read w.shared l → Missed v idx w.shared l → v ≤ w.shared.saturation := by
      intro l hr hm
      cases l with
      | scanSlot c m count start offset best | scanState c m count start offset best
      | scanInitialised c m count start offset best =>
          cases m <;> cases best <;> try exact hm.elim
          exact hm.1 ▸ hr.2
      | scanNone m =>
          cases m <;> try exact hm.elim
          exact hm.1 ▸ hr
      | markSaturated version => exact hm.1 ▸ hr
      | _ => exact hm.elim
    have carry : ∀ j, Missed v idx w.shared (w.loc j) → Publishing (w.step act i e) := by
      intro j hm
      have hsame : w.shared.saturation = v :=
        le_antisymm (hle.trans hv.le) (hold (h.read j) hm)
      exact (h.missed j v idx hm hsame hne).step (hsame ▸ hne) (hv.trans hsame.symm)
    by_cases hji : j = i
    · subst j
      rw [World.step_loc_self] at hm
      exact carry i (act_missed e (h.read i) hm)
    · rw [World.step_loc_of_ne hji] at hm
      obtain hm | hp := hm.of_act e
      · exact carry j hm
      · exact self hp
  · have hword : (w.step act i e).shared.saturation =
        (act e w.shared (w.loc i)).1.saturation := rfl
    have hne : (w.step act i e).shared.saturation ≠ disabled := by
      intro hd
      simp [hd, isSaturated] at hsat
    have same : (w.step act i e).shared.saturation = w.shared.saturation →
        Publishing (w.step act i e) := by
      intro hs
      obtain hc | hp := act_claimable e hc
      · exact (h.full (hs ▸ hsat) idx hidx hc).step (hs ▸ hne) hs
      · exact self hp
    obtain hs | ⟨k, hk⟩ | ⟨version, hk⟩ := act_saturation e w.shared (w.loc i)
    · exact same hs
    · rw [hword, hk] at hsat
      have := publishClaimableWord_not_saturated w.shared.saturation
      simp only [act] at hsat
      rw [this] at hsat
      contradiction
    · by_cases hmark : version ≠ disabled ∧ version % 2 = 0 ∧ w.shared.saturation = version
      · -- A mark: the scan saw every slot taken.
        have hm : Missed version idx w.shared (w.loc i) := by
          have hc' : Claimable (act e w.shared (w.loc i)).1 idx := hc
          rw [hk] at hc' ⊢
          exact ⟨rfl, hc', hidx⟩
        obtain ⟨j, hj⟩ := h.missed i version idx hm hmark.2.2 hmark.1
        have hji : j ≠ i := by
          rintro rfl
          rw [hk] at hj
          exact hj
        exact ⟨j, by rwa [World.step_loc_of_ne hji]⟩
      · apply same
        rw [hword, hk]
        exact if_neg hmark

lemma honest_run [DecidableEq ι] (s : Start) (xs : List (ι × Choice)) :
    Honest (World.run act xs (s.world ι)) :=
  World.run_invariant (fun _ i e h => h.step i e) xs s.honest_world

/-- The word only grows. -/
lemma saturation_run [DecidableEq ι] {w : RegistryWorld ι} (h : Honest w)
    (xs : List (ι × Choice)) : w.shared.saturation ≤ (World.run act xs w).shared.saturation := by
  induction xs generalizing w with
  | nil => exact le_rfl
  | cons x xs ih =>
      exact (act_saturation_le x.2 (w.loc x.1) h.word_le).1.trans (ih (h.step x.1 x.2))

/-- The claim hints, over every schedule: no publication is lost or answered twice, the registry is
called full only when no slot can be claimed unless its publisher is under way, and the saturation
word never returns to what it was. -/
theorem hints_conservative {κ : Type*} [DecidableEq ι] [DecidableEq κ]
    (ops : List (κ × FreeSlotHint.Command)) (s : Start) (xs : List (ι × Choice)) :
    FreeSlotHint.Sound (World.run FreeSlotHint.act ops (FreeSlotHint.start κ)) ∧
      (let w := World.run act xs (s.world ι)
      (isSaturated w.shared.saturation = true → ∀ idx, idx < maxHeaps → Claimable w.shared idx →
        ∃ j, Publishes (w.loc j)) ∧
      (∀ ys zs : List (ι × Choice),
        (World.run act ys w).shared.saturation ≠ w.shared.saturation →
          (World.run act zs (World.run act ys w)).shared.saturation ≠ w.shared.saturation) ∧
      (w.shared.saturation = disabled →
        ∀ ys : List (ι × Choice), (World.run act ys w).shared.saturation = disabled)) := by
  refine ⟨(FreeSlotHint.tracked_run ops).sound, ?_⟩
  intro w
  have hw : Honest w := honest_run s xs
  have hrun : ∀ ys : List (ι × Choice), Honest (World.run act ys w) := fun ys =>
    World.run_invariant (fun _ i e h => h.step i e) ys hw
  refine ⟨hw.full, fun ys zs hne heq => ?_, fun hd ys => ?_⟩
  · have h₁ := saturation_run hw ys
    have h₂ := saturation_run (hrun ys) zs
    omega
  · have h₁ := saturation_run hw ys
    have h₂ := (hrun ys).word_le
    omega

end HeapRegistry

end SeferAlloc
