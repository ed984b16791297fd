import SeferAlloc.LargeHeapRuns

/-!
# The clock of the Large cache decay

A call either leaves the stored tick alone, primes it, or runs a batch of decay
steps and moves it. Between two calls anything may happen to the heap; only a
full trim resets the tick.
-/
namespace SeferAlloc
namespace LargeHeap
open LargeCache

namespace Heap
variable {h h' : Heap}

/-- No whole interval is waiting to be looked at: nothing to release, or throttled. -/
def decayGated (h : Heap) : Bool :=
  (decide (h.cache.usedBytes ≤ h.cache.retainTarget) && !h.cache.adaptivePending) ||
    (decide (h.cache.config.decayInterval ≠ 0) &&
      decide ((h.cache.decayOpCount + 1) % (u32Max + 1) % decayClockCheckStride ≠ 0) &&
      h.cache.lastDecayTick.isSome)

/-- The decay steps that a call at `now` runs. -/
def dueSteps (h : Heap) (now : ℕ) : ℕ :=
  if h.decayGated then 0
  else match h.cache.lastDecayTick with
    | none => if h.cache.config.decayInterval = 0 then 1 else 0
    | some t =>
        if now - t < h.cache.config.decayInterval then 0
        else if h.cache.config.decayInterval = 0 then 1
        else min ((now - t) / h.cache.config.decayInterval) decayCatchupMaxSteps

/-- The configuration and the stored tick are unchanged. -/
def SameClock (h h' : Heap) : Prop :=
  h'.cache.config = h.cache.config ∧ h'.cache.lastDecayTick = h.cache.lastDecayTick

lemma SameClock.rfl (h : Heap) : SameClock h h := ⟨Eq.refl _, Eq.refl _⟩

lemma SameClock.trans {h'' : Heap} (s : SameClock h h') (s' : SameClock h' h'') :
    SameClock h h'' := ⟨s'.1.trans s.1, s'.2.trans s.2⟩

lemma slotTake_clock {c c' : Cache} {idx : ℕ} {x : CachedLarge} (ht : c.slotTake idx = some (x, c')) :
    c'.config = c.config ∧ c'.lastDecayTick = c.lastDecayTick := by
  rw [Cache.slotTake] at ht
  by_cases hi : idx < largeCacheSlots
  · rw [if_pos hi] at ht
    obtain ⟨y, -, hy⟩ := Option.map_eq_some_iff.mp ht
    obtain ⟨-, rfl⟩ := Prod.mk.inj hy
    exact ⟨rfl, rfl⟩
  · rw [if_neg hi] at ht
    obtain ⟨e, -, ht⟩ := Option.bind_eq_some_iff.mp ht
    obtain ⟨y, -, hy⟩ := Option.map_eq_some_iff.mp ht
    dsimp only at hy
    split_ifs at hy
    · obtain ⟨-, rfl⟩ := Prod.mk.inj hy
      exact ⟨rfl, rfl⟩
    · obtain ⟨-, rfl⟩ := Prod.mk.inj hy
      exact ⟨rfl, rfl⟩

lemma transition_cache {base generation : ℕ} {t : LargeReservation.Transition}
    (ht : h.transition base t generation = some h') : h'.cache = h.cache := by
  simp only [transition, Option.bind_eq_bind, Option.bind_eq_some_iff] at ht
  obtain ⟨expected, -, new, -, ht⟩ := ht
  split_ifs at ht
  obtain rfl := Option.some.inj ht
  rfl

lemma releaseVictim_clock {idx usable : ℕ} (hr : h.releaseVictim idx = some (usable, h')) :
    SameClock h h' := by
  simp only [releaseVictim, Option.bind_eq_bind, Option.bind_eq_some_iff] at hr
  obtain ⟨⟨x, c⟩, ht, h₁, htr, hr⟩ := hr
  obtain ⟨-, rfl⟩ := Prod.mk.inj (Option.some.inj hr)
  have hcache := transition_cache htr
  obtain ⟨hc, hl⟩ := slotTake_clock ht
  constructor
  · change h₁.cache.config = _
    rw [hcache]
    exact hc
  · change h₁.cache.lastDecayTick = _
    rw [hcache]
    exact hl

lemma evictAtLeastLoop_clock (minBytes n : ℕ) : ∀ (released : ℕ) {h : Heap},
    evictAtLeastLoop minBytes n released h = some h' → SameClock h h' := by
  induction n with
  | zero => exact fun _ _ he => by simp [evictAtLeastLoop] at he
  | succ n ih =>
      intro released h he
      rw [evictAtLeastLoop] at he
      split_ifs at he
      · split at he
        · obtain rfl := Option.some.inj he
          exact .rfl h
        · simp only [Option.bind_eq_bind, Option.bind_eq_some_iff] at he
          obtain ⟨⟨usable, h₁⟩, hr, he⟩ := he
          exact (releaseVictim_clock hr).trans (ih _ he)
      · obtain rfl := Option.some.inj he
        exact .rfl h

/-- A step at or below the target evicts nothing. -/
theorem runDecayStep_of_le (hle : h.cache.usedBytes ≤ h.cache.retainTarget) :
    h.runDecayStep = some h := by
  rw [runDecayStep, if_pos (Or.inl (Nat.sub_eq_zero_of_le hle))]

lemma runDecayStep_clock (hs : h.runDecayStep = some h') : SameClock h h' := by
  rw [runDecayStep] at hs
  split_ifs at hs
  · obtain rfl := Option.some.inj hs
    exact .rfl h
  · exact evictAtLeastLoop_clock _ _ _ hs

lemma adaptiveInterval_clock (c : Cache) :
    c.adaptiveInterval.config = c.config ∧ c.adaptiveInterval.lastDecayTick = c.lastDecayTick := by
  rw [Cache.adaptiveInterval]
  split <;> exact ⟨rfl, rfl⟩

lemma decaySteps_clock (n : ℕ) {h : Heap} (hs : decaySteps n h = some h') : SameClock h h' := by
  induction n generalizing h with
  | zero =>
      obtain rfl := Option.some.inj hs
      exact .rfl h
  | succ n ih =>
      obtain ⟨h₁, hr, hs⟩ := Option.bind_eq_some_iff.mp hs
      have hi : SameClock h (h.setCache h.cache.adaptiveInterval) :=
        adaptiveInterval_clock h.cache
      exact (hi.trans (runDecayStep_clock hr)).trans (ih hs)

/-- The same heap up to the clock fields of the cache. -/
def SameUpToClock (h h' : Heap) : Prop :=
  ∃ t n, h' = h.setCache { h.cache with lastDecayTick := t, decayOpCount := n }

/-- What one call does: how many steps it runs, and where it leaves the tick. -/
structure Decayed (h : Heap) (now : ℕ) (h' : Heap) : Prop where
  /-- The steps are run on the heap as it was found, and nothing else is done to it. -/
  runs : ∃ h₀ h₁, SameUpToClock h h₀ ∧ decaySteps (h.dueSteps now) h₀ = some h₁ ∧
    SameUpToClock h₁ h'
  /-- Without a batch the tick stays, unless it is primed. -/
  idle : h.dueSteps now = 0 → h'.cache.lastDecayTick = h.cache.lastDecayTick ∨
    h.cache.lastDecayTick = none ∧ h'.cache.lastDecayTick = some now
  zero : h.cache.config.decayInterval = 0 → h.dueSteps now ≠ 0 →
    h.dueSteps now = 1 ∧ h'.cache.lastDecayTick = some now
  batch : h.cache.config.decayInterval ≠ 0 → h.dueSteps now ≠ 0 → ∃ t,
    h.cache.lastDecayTick = some t ∧
      h.dueSteps now = min ((now - t) / h.cache.config.decayInterval) decayCatchupMaxSteps ∧
      h'.cache.lastDecayTick =
        if h'.cache.usedBytes ≤ h'.cache.retainTarget then some now
        else some (t + h.cache.config.decayInterval * h.dueSteps now)

lemma sameUpToClock_rfl (h : Heap) : SameUpToClock h h :=
  ⟨h.cache.lastDecayTick, h.cache.decayOpCount, rfl⟩

lemma SameUpToClock.trans {h'' : Heap} (s : SameUpToClock h h') (s' : SameUpToClock h' h'') :
    SameUpToClock h h'' := by
  obtain ⟨t, n, rfl⟩ := s
  obtain ⟨t', n', rfl⟩ := s'
  exact ⟨t', n', rfl⟩

/-- A gated call counts at most. -/
lemma maybeDecay_of_gated {now : ℕ} (hg : h.decayGated = true)
    (hs : h.maybeDecayLargeCache now = some h') :
    SameUpToClock h h' ∧ h'.cache.lastDecayTick = h.cache.lastDecayTick := by
  rw [maybeDecayLargeCache] at hs
  by_cases hidle : h.cache.usedBytes ≤ h.cache.retainTarget ∧ h.cache.adaptivePending = false
  · rw [if_pos hidle] at hs
    obtain rfl := Option.some.inj hs
    exact ⟨sameUpToClock_rfl h, rfl⟩
  · rw [if_neg hidle] at hs
    dsimp only at hs
    rw [if_pos] at hs
    · obtain rfl := Option.some.inj hs
      exact ⟨⟨h.cache.lastDecayTick, _, rfl⟩, rfl⟩
    · have hidle' : (decide (h.cache.usedBytes ≤ h.cache.retainTarget) &&
          !h.cache.adaptivePending) = false := by
        rw [← Bool.not_eq_true, Bool.and_eq_true, Bool.not_eq_true', decide_eq_true_eq]
        exact hidle
      rw [decayGated, hidle', Bool.false_or, Bool.and_eq_true, Bool.and_eq_true,
        decide_eq_true_eq, decide_eq_true_eq] at hg
      obtain ⟨⟨hz, hn⟩, hl⟩ := hg
      exact ⟨by simpa using hz, hn, by simpa [Option.isSome_iff_ne_none] using hl⟩

/-- Past the gates the call goes by the stored tick. -/
lemma maybeDecay_of_open {now : ℕ} (hg : h.decayGated = false) : h.maybeDecayLargeCache now =
    match h.cache.lastDecayTick with
    | some t => (h.setCache { h.cache with decayOpCount := 0 }).decayElapsed now (now - t)
    | none =>
        if h.cache.config.decayInterval = 0 then
          (h.setCache { h.cache with decayOpCount := 0, lastDecayTick := some now }).decayElapsed now 0
        else some (h.setCache { h.cache with decayOpCount := 0, lastDecayTick := some now }) := by
  rw [decayGated, Bool.or_eq_false_iff] at hg
  obtain ⟨hidle, hthr⟩ := hg
  rw [maybeDecayLargeCache, if_neg]
  · dsimp only
    rw [if_neg]
    · cases h.cache.lastDecayTick with
      | some t => rfl
      | none => simp only [decide_eq_true_eq]
    · rintro ⟨hz, hn, hl⟩
      rw [← Bool.not_eq_true, Bool.and_eq_true, Bool.and_eq_true, decide_eq_true_eq,
        decide_eq_true_eq] at hthr
      exact hthr ⟨⟨by simpa using hz, hn⟩, by simpa [Option.isSome_iff_ne_none] using hl⟩
  · rintro ⟨hle, hp⟩
    simp [hle, hp] at hidle

lemma maybeDecay_of_primed {now t : ℕ} (hg : h.decayGated = false)
    (hl : h.cache.lastDecayTick = some t) : h.maybeDecayLargeCache now =
      (h.setCache { h.cache with decayOpCount := 0 }).decayElapsed now (now - t) := by
  rw [maybeDecay_of_open hg]
  split
  · rename_i u hu
    obtain rfl : t = u := Option.some.inj (hl.symm.trans hu)
    rfl
  · rename_i hu
    rw [hl] at hu
    simp at hu

lemma decayElapsed_short {now elapsed : ℕ} (hlt : elapsed < h.cache.config.decayInterval) :
    h.decayElapsed now elapsed = some h := by
  rw [decayElapsed]
  dsimp only
  rw [if_pos hlt]

lemma decayElapsed_zero {now : ℕ} (elapsed : ℕ) (h0 : h.cache.config.decayInterval = 0)
    (hs : h.decayElapsed now elapsed = some h') : ∃ h₀, SameUpToClock h h₀ ∧
      decaySteps 1 h₀ = some h' ∧ h'.cache.lastDecayTick = some now := by
  rw [decayElapsed] at hs
  dsimp only at hs
  rw [if_neg (by omega), if_pos h0] at hs
  exact ⟨_, ⟨_, h.cache.decayOpCount, rfl⟩, hs, (decaySteps_clock 1 hs).2⟩

lemma decayElapsed_batch {now elapsed : ℕ} (h0 : h.cache.config.decayInterval ≠ 0)
    (hle : h.cache.config.decayInterval ≤ elapsed) (hs : h.decayElapsed now elapsed = some h') :
    ∃ h₁, decaySteps (min (elapsed / h.cache.config.decayInterval) decayCatchupMaxSteps) h =
        some h₁ ∧ SameUpToClock h₁ h' ∧ h'.cache.lastDecayTick =
          if h'.cache.usedBytes ≤ h'.cache.retainTarget then some now
          else h.cache.lastDecayTick.map fun t => t + h.cache.config.decayInterval *
            min (elapsed / h.cache.config.decayInterval) decayCatchupMaxSteps := by
  rw [decayElapsed] at hs
  dsimp only at hs
  rw [if_neg (not_lt.mpr hle), if_neg h0] at hs
  obtain ⟨h₁, hd, rfl⟩ := Option.map_eq_some_iff.mp hs
  refine ⟨h₁, hd, ⟨_, h₁.cache.decayOpCount, rfl⟩, ?_⟩
  change (if decide (h₁.cache.usedBytes ≤ h₁.cache.retainTarget) = true then _ else _) =
    if h₁.cache.usedBytes ≤ h₁.cache.retainTarget then _ else _
  rw [(decaySteps_clock _ hd).2]
  simp only [decide_eq_true_eq]

/-- One case for each way through the call. -/
theorem maybeDecay_decayed {now : ℕ} (hs : h.maybeDecayLargeCache now = some h') :
    Decayed h now h' := by
  by_cases hg : h.decayGated = true
  · have hdue : h.dueSteps now = 0 := by rw [dueSteps, if_pos hg]
    obtain ⟨hsame, hlast⟩ := maybeDecay_of_gated hg hs
    exact ⟨⟨h, h, sameUpToClock_rfl h, by rw [hdue]; rfl, hsame⟩, fun _ => Or.inl hlast,
      fun _ hne => absurd hdue hne, fun _ hne => absurd hdue hne⟩
  · have hopen : h.decayGated = false := by simpa using hg
    cases hl : h.cache.lastDecayTick with
    | none =>
        simp only [maybeDecay_of_open hopen, hl] at hs
        by_cases h0 : h.cache.config.decayInterval = 0
        · have hdue : h.dueSteps now = 1 := by rw [dueSteps, if_neg hg, hl]; exact if_pos h0
          rw [if_pos h0] at hs
          obtain ⟨h₀, hsame, hd, hlast⟩ := decayElapsed_zero 0 (by exact h0) hs
          exact ⟨⟨h₀, h', SameUpToClock.trans ⟨_, _, rfl⟩ hsame, by rw [hdue]; exact hd,
              sameUpToClock_rfl h'⟩, fun hz => by omega, fun _ _ => ⟨hdue, hlast⟩,
            fun hne => absurd h0 hne⟩
        · have hdue : h.dueSteps now = 0 := by rw [dueSteps, if_neg hg, hl]; exact if_neg h0
          rw [if_neg h0] at hs
          obtain rfl := Option.some.inj hs
          exact ⟨⟨h, h, sameUpToClock_rfl h, by rw [hdue]; rfl, ⟨_, _, rfl⟩⟩,
            fun _ => Or.inr ⟨hl, rfl⟩, fun _ hne => absurd hdue hne, fun _ hne => absurd hdue hne⟩
    | some t =>
        rw [maybeDecay_of_primed hopen hl] at hs
        by_cases hshort : now - t < h.cache.config.decayInterval
        · have hdue : h.dueSteps now = 0 := by rw [dueSteps, if_neg hg, hl]; exact if_pos hshort
          rw [decayElapsed_short (by exact hshort)] at hs
          obtain rfl := Option.some.inj hs
          exact ⟨⟨h, h, sameUpToClock_rfl h, by rw [hdue]; rfl, ⟨_, _, rfl⟩⟩,
            fun _ => Or.inl rfl, fun _ hne => absurd hdue hne, fun _ hne => absurd hdue hne⟩
        · by_cases h0 : h.cache.config.decayInterval = 0
          · have hdue : h.dueSteps now = 1 := by
              rw [dueSteps, if_neg hg, hl]
              dsimp only
              rw [if_neg hshort, if_pos h0]
            obtain ⟨h₀, hsame, hd, hlast⟩ := decayElapsed_zero (now - t) (by exact h0) hs
            exact ⟨⟨h₀, h', SameUpToClock.trans ⟨_, _, rfl⟩ hsame, by rw [hdue]; exact hd,
                sameUpToClock_rfl h'⟩, fun hz => by omega, fun _ _ => ⟨hdue, hlast⟩,
              fun hne => absurd h0 hne⟩
          · have hdue : h.dueSteps now =
                min ((now - t) / h.cache.config.decayInterval) decayCatchupMaxSteps := by
              rw [dueSteps, if_neg hg, hl]
              dsimp only
              rw [if_neg hshort, if_neg h0]
            obtain ⟨h₁, hd, hsame, hlast⟩ :=
              decayElapsed_batch (by exact h0) (by exact not_lt.mp hshort) hs
            refine ⟨⟨_, h₁, ⟨_, _, rfl⟩, by rw [hdue]; exact hd, hsame⟩, fun hz => ?_,
              fun hz => absurd hz h0, fun _ _ => ⟨t, hl, hdue, ?_⟩⟩
            · exfalso
              have hpos : 0 < (now - t) / h.cache.config.decayInterval :=
                Nat.div_pos (not_lt.mp hshort) (Nat.pos_of_ne_zero h0)
              rw [hdue] at hz
              simp only [decayCatchupMaxSteps] at hz
              omega
            · rw [hlast, hdue]
              change (if _ then _ else Option.map _ h.cache.lastDecayTick) = _
              rw [hl]
              rfl

/-! ## Sequences of calls -/

/-- A call of the decay: the heap it finds, its time, and the heap it leaves. -/
structure Tick where
  found : Heap
  now : ℕ
  left : Heap

def Tick.steps (c : Tick) : ℕ := c.found.dueSteps c.now

/-- Calls at non-decreasing times. Between two calls the heap may become any other one, with the
stored tick as it was or reset. -/
def Ticks : Option ℕ → ℕ → List Tick → Prop
  | _, _, [] => True
  | last, clock, c :: cs =>
      c.found.maybeDecayLargeCache c.now = some c.left ∧
      (c.found.cache.lastDecayTick = last ∨ c.found.cache.lastDecayTick = none) ∧
      clock ≤ c.now ∧ Ticks c.left.cache.lastDecayTick c.now cs

/-- A stored tick is not ahead of the clock. -/
def Past (last : Option ℕ) (clock : ℕ) : Prop := ∀ t, last = some t → t ≤ clock

lemma Decayed.past {now : ℕ} (d : Decayed h now h') (hp : Past h.cache.lastDecayTick now) :
    Past h'.cache.lastDecayTick now := by
  intro u hu
  by_cases h0 : h.dueSteps now = 0
  · rcases d.idle h0 with hl | ⟨-, hl⟩
    · exact hp u (hl ▸ hu)
    · rw [hl] at hu
      exact (Option.some.inj hu).symm.le
  · by_cases hz : h.cache.config.decayInterval = 0
    · rw [(d.zero hz h0).2] at hu
      exact (Option.some.inj hu).symm.le
    · obtain ⟨t, ht, hdue, hl⟩ := d.batch hz h0
      rw [hl] at hu
      split_ifs at hu
      · exact (Option.some.inj hu).symm.le
      · obtain rfl := Option.some.inj hu
        have htn := hp t ht
        have hmul : h.cache.config.decayInterval * h.dueSteps now ≤ now - t := by
          rw [hdue]
          exact (Nat.mul_le_mul_left _ (min_le_left _ _)).trans (Nat.mul_div_le _ _)
        omega

/-- The stored tick is never ahead of the clock, in any sequence of calls. -/
theorem ticks_past (cs : List Tick) {last : Option ℕ} {clock : ℕ} (ht : Ticks last clock cs)
    (hp : Past last clock) : ∀ c ∈ cs, Past c.left.cache.lastDecayTick c.now := by
  induction cs generalizing last clock with
  | nil => simp
  | cons c cs ih =>
      obtain ⟨hs, hl, hle, ht⟩ := ht
      have hfound : Past c.found.cache.lastDecayTick c.now := by
        intro t ht
        rcases hl with hl | hl
        · exact (hp t (hl ▸ ht)).trans hle
        · rw [hl] at ht
          simp at ht
      have hleft := (maybeDecay_decayed hs).past hfound
      intro d hd
      rcases List.mem_cons.mp hd with rfl | hd
      · exact hleft
      · exact ih ht hleft d hd

lemma dueSteps_le (h : Heap) (now : ℕ) : h.dueSteps now ≤ 8 := by
  rw [dueSteps]
  by_cases hg : h.decayGated = true
  · rw [if_pos hg]
    exact Nat.zero_le _
  · rw [if_neg hg]
    cases h.cache.lastDecayTick with
    | none =>
        dsimp only
        split_ifs <;> omega
    | some t =>
        have := min_le_right ((now - t) / h.cache.config.decayInterval) decayCatchupMaxSteps
        simp only [decayCatchupMaxSteps] at this ⊢
        split_ifs <;> omega

/-- The time of the last call. -/
def finish (clock : ℕ) (cs : List Tick) : ℕ := cs.foldl (fun _ c => c.now) clock

/-- Time from priming on pays for the steps: what is left unpaid is between the stored tick and
the clock. -/
lemma steps_paid {interval : ℕ} (hi : interval ≠ 0) (cs : List Tick) {t clock : ℕ}
    (ht : Ticks (some t) clock cs) (hle : t ≤ clock)
    (hsteady : ∀ c ∈ cs, c.found.cache.config.decayInterval = interval ∧
      c.found.cache.lastDecayTick ≠ none) :
    (cs.map Tick.steps).sum * interval ≤ finish clock cs - t := by
  induction cs generalizing t clock with
  | nil => simp [finish]
  | cons c cs ih =>
      obtain ⟨hs, hl, hnow, ht⟩ := ht
      obtain ⟨hint, hne⟩ := hsteady c (by simp)
      have hfound : c.found.cache.lastDecayTick = some t := hl.resolve_right hne
      have hrest := fun d hd => hsteady d (List.mem_cons_of_mem c hd)
      have hd := maybeDecay_decayed hs
      have hfin : finish clock (c :: cs) = finish c.now cs := rfl
      have hmono : ∀ (ds : List Tick) (k : ℕ) (l : Option ℕ), Ticks l k ds → k ≤ finish k ds := by
        intro ds
        induction ds with
        | nil => exact fun k l _ => le_rfl
        | cons d ds ihd =>
            intro k l hk
            exact hk.2.2.1.trans (ihd d.now _ hk.2.2.2)
      have hend : c.now ≤ finish c.now cs := hmono cs c.now _ ht
      rw [List.map_cons, List.sum_cons, Nat.add_mul, hfin]
      by_cases h0 : c.steps = 0
      · rcases hd.idle h0 with hleft | ⟨hnone, -⟩
        · rw [hleft, hfound] at ht
          have := ih ht (hle.trans hnow) hrest
          rw [h0]
          omega
        · exact absurd hnone hne
      · obtain ⟨t', ht', hdue, hleft⟩ := hd.batch (by rw [hint]; exact hi) h0
        obtain rfl : t = t' := Option.some.inj (hfound.symm.trans ht')
        have hpaid : c.steps * interval ≤ c.now - t := by
          have hmin : c.steps ≤ (c.now - t) / interval := by
            rw [← hint]
            exact hdue.le.trans (min_le_left _ _)
          exact (Nat.mul_le_mul_right _ hmin).trans (Nat.div_mul_le_self _ _)
        rw [hleft] at ht
        split_ifs at ht
        · have := ih ht le_rfl hrest
          omega
        · have hcomm : c.found.cache.config.decayInterval * c.found.dueSteps c.now =
              c.steps * interval := by
            rw [hint, Nat.mul_comm]
            rfl
          rw [hcomm] at ht
          have := ih ht (by omega) hrest
          omega

/-- Whole intervals between the stored tick and the clock. -/
def debt (h : Heap) (now : ℕ) : ℕ :=
  h.cache.lastDecayTick.elim 0 fun t => (now - t) / h.cache.config.decayInterval

/-- A batch pays its steps; the rest stays as debt while there is excess, and is forgiven
otherwise. -/
lemma Decayed.debt {now : ℕ} (d : Decayed h now h') (hz : h.cache.config.decayInterval ≠ 0)
    (h0 : h.dueSteps now ≠ 0) : h'.debt now =
      if h'.cache.usedBytes ≤ h'.cache.retainTarget then 0 else h.debt now - h.dueSteps now := by
  obtain ⟨h₀, h₁, ⟨t₀, n₀, rfl⟩, hrun, ⟨t₁, n₁, rfl⟩⟩ := d.runs
  have hconfig : h₁.cache.config = h.cache.config := (decaySteps_clock _ hrun).1
  obtain ⟨t, ht, hdue, hl⟩ := d.batch hz h0
  rw [Heap.debt, hl, Heap.debt, ht]
  split_ifs
  · rw [Option.elim_some, Nat.sub_self, Nat.zero_div]
  · change (now - (t + h.cache.config.decayInterval * h.dueSteps now)) /
      h₁.cache.config.decayInterval = (now - t) / h.cache.config.decayInterval - h.dueSteps now
    rw [hconfig, Nat.sub_add_eq, Nat.sub_mul_div]

/-- The pace of the decay over any sequence of calls, and what becomes of unpaid intervals. -/
theorem decay_paced :
    (∀ cs last clock, Ticks last clock cs → Past last clock →
      ∀ c ∈ cs, Past c.left.cache.lastDecayTick c.now) ∧
    (∀ cs primed interval, interval ≠ 0 → Ticks (some primed) primed cs →
      (∀ c ∈ cs, c.found.cache.config.decayInterval = interval ∧
        c.found.cache.lastDecayTick ≠ none) →
      (cs.map Tick.steps).sum ≤ (finish primed cs - primed) / interval) ∧
    (∀ (h : Heap) now h', h.maybeDecayLargeCache now = some h' →
      (∃ h₀ h₁, SameUpToClock h h₀ ∧ decaySteps (h.dueSteps now) h₀ = some h₁ ∧
        SameUpToClock h₁ h') ∧ h.dueSteps now ≤ 8 ∧
      (h.cache.config.decayInterval ≠ 0 → h.dueSteps now ≠ 0 → h'.debt now =
        if h'.cache.usedBytes ≤ h'.cache.retainTarget then 0
        else h.debt now - h.dueSteps now) ∧
      (h.cache.config.decayInterval ≠ 0 → h.dueSteps now ≠ 0 → ∃ t,
        h.cache.lastDecayTick = some t ∧ h'.cache.lastDecayTick =
          if h'.cache.usedBytes ≤ h'.cache.retainTarget then some now
          else some (t + h.cache.config.decayInterval * h.dueSteps now)) ∧
      (h.dueSteps now = 0 → h'.cache.lastDecayTick = h.cache.lastDecayTick ∨
        h.cache.lastDecayTick = none ∧ h'.cache.lastDecayTick = some now)) ∧
    ∀ h : Heap, h.cache.usedBytes ≤ h.cache.retainTarget → h.runDecayStep = some h := by
  refine ⟨fun cs last clock ht hp => ticks_past cs ht hp, fun cs primed interval hi ht hsteady => ?_,
    fun h now h' hs => ?_, fun h hle => runDecayStep_of_le hle⟩
  · rw [Nat.le_div_iff_mul_le (Nat.pos_of_ne_zero hi)]
    exact steps_paid hi cs ht le_rfl hsteady
  · have hd := maybeDecay_decayed hs
    refine ⟨hd.runs, dueSteps_le h now, hd.debt, fun hz hdue => ?_, hd.idle⟩
    obtain ⟨t, ht, -, hleft⟩ := hd.batch hz hdue
    exact ⟨t, ht, hleft⟩

/-- One Large segment cached with no headroom, at an interval of one nanosecond. -/
def tightHeap : Heap where
  build := ⟨256, 4096, false, false⟩
  cache := ⟨⟨some (8 * segment), 10000, 1, 0, false, false⟩, fun _ => none, 0, none, 0, 0, none, 0⟩
  header _ := ⟨0, 0, 0, 0, 0, 0, 0, 0⟩
  registered _ := false
  log := []

lemma tightHeap_fresh : tightHeap.Fresh :=
  ⟨fun _ => rfl, rfl, rfl, rfl, fun _ => rfl, rfl⟩

/-- The segment is deposited, a larger request primes the timer, and the segment is taken again. -/
def primeAndDrain : List Command :=
  [.alloc 1000000 16 ⟨0, true, some ⟨segment, segment, segment⟩, true⟩,
    .dealloc segment 0 fun _ => false,
    .alloc (3 * segment) 16 ⟨0, true, some ⟨2 * segment, 2 * segment, 4 * segment⟩, true⟩,
    .alloc 1000000 16 ⟨0, true, none, true⟩]

/-- The calls at these times, with nothing between them. -/
def ticksAt : List ℕ → Heap → Option (List Tick)
  | [], _ => some []
  | now :: times, h => do
      let left ← h.maybeDecayLargeCache now
      let cs ← ticksAt times left
      return ⟨h, now, left⟩ :: cs

lemma ticks_ticksAt {times : List ℕ} {clock : ℕ} (hsorted : (clock :: times).Pairwise (· ≤ ·))
    {h : Heap} {cs : List Tick} (he : ticksAt times h = some cs) :
    Ticks h.cache.lastDecayTick clock cs := by
  induction times generalizing h clock cs with
  | nil =>
      obtain rfl := Option.some.inj he
      trivial
  | cons now times ih =>
      obtain ⟨left, hs, he⟩ := Option.bind_eq_some_iff.mp he
      obtain ⟨ds, hd, he⟩ := Option.bind_eq_some_iff.mp he
      obtain rfl := Option.some.inj he
      rw [List.pairwise_cons] at hsorted
      exact ⟨hs, .inl rfl, hsorted.1 now (by simp), ih hsorted.2 hd⟩

/-- 64 calls, five intervals after the timer was primed. -/
def lateCalls : List ℕ := List.replicate 64 5

lemma lateCalls_result : ((tightHeap.run (primeAndDrain.take 3)).bind fun h =>
    (ticksAt lateCalls h).map fun cs =>
      ((h.cache.lastDecayTick, (cs.map Tick.steps).sum, finish 0 cs),
        cs.all fun c => decide (c.found.cache.config.decayInterval = 1 ∧
          c.found.cache.lastDecayTick ≠ none))) = some ((some 0, 5, 5), true) := by
  decide +kernel

/-- The clock is read in the last of the calls, which takes the five steps that are paid for. -/
theorem decay_paced_lateCalls : ∃ h cs, tightHeap.run (primeAndDrain.take 3) = some h ∧
    ticksAt lateCalls h = some cs ∧ (cs.map Tick.steps).sum = 5 ∧
    (cs.map Tick.steps).sum ≤ (finish 0 cs - 0) / 1 ∧
    ∀ c ∈ cs, Past c.left.cache.lastDecayTick c.now := by
  obtain ⟨h, hrun, hval⟩ := Option.bind_eq_some_iff.mp lateCalls_result
  obtain ⟨cs, hcs, hval⟩ := Option.map_eq_some_iff.mp hval
  simp only [Prod.mk.injEq, List.all_eq_true, decide_eq_true_eq] at hval
  obtain ⟨⟨hprimed, hsteps, -⟩, hsteady⟩ := hval
  have ht : Ticks h.cache.lastDecayTick 0 cs := ticks_ticksAt (by decide) hcs
  rw [hprimed] at ht
  obtain ⟨hpast, hpace, -⟩ := decay_paced
  refine ⟨h, cs, hrun, hcs, hsteps, hpace cs 0 1 (by decide) ht hsteady, ?_⟩
  refine hpast cs (some 0) 0 ht fun t ht => ?_
  rw [Option.some.inj ht]

/-- A hundred intervals without excess stay as debt: the call at or below the target does not
touch the stored tick. -/
theorem debt_without_excess : ∃ h h', tightHeap.Fresh ∧ tightHeap.run primeAndDrain = some h ∧
    h.maybeDecayLargeCache 100 = some h' ∧ h'.cache.usedBytes ≤ h'.cache.retainTarget ∧
    h'.debt 100 = 100 := by
  have hval : ((tightHeap.run primeAndDrain).bind fun h => (h.maybeDecayLargeCache 100).map
      fun h' => (decide (h'.cache.usedBytes ≤ h'.cache.retainTarget), h'.debt 100)) =
        some (true, 100) := by
    decide +kernel
  obtain ⟨h, hrun, hval⟩ := Option.bind_eq_some_iff.mp hval
  obtain ⟨h', hs, hpair⟩ := Option.map_eq_some_iff.mp hval
  obtain ⟨hle, hdebt⟩ := Prod.mk.inj hpair
  exact ⟨h, h', tightHeap_fresh, hrun, hs, of_decide_eq_true hle, hdebt⟩

end Heap
end LargeHeap
end SeferAlloc
