import SeferAlloc.HeapRegistrySaturation
import SeferAlloc.ThreadBinding

/-!
# The saturation gate of a thread

A thread whose claim failed keeps the saturation word and is turned away from
the registry while the word stays the same, up to a number of attempts. The word
is read after the claim has returned. Beside the registry stands the number of
publications completed; a thread remembers the numbers at its claim's last look
and at the recording of its verdict.
-/
namespace SeferAlloc
namespace SaturationGate
open HeapRegistry ThreadBinding Interleaving

/-- The registry, and how many publications are complete. -/
structure Shared where
  registry : HeapRegistry.Registry
  publishes : ℕ

/-- An attempt to bind. For one that the gate turned away, the publications complete when the claim
behind the cached verdict last looked, when the verdict was recorded, and at the test. -/
inductive Attempt where
  | claimed
  | turnedAway (look recorded now : ℕ)
deriving DecidableEq

def Attempt.isTurnedAway : Attempt → Bool
  | .claimed => false
  | .turnedAway .. => true

/-- Where a thread is: between calls, in the registry, for a bind or else, or with a claim that
failed. -/
inductive Phase where
  | resting
  | inside (binding : Bool) (l : Loc)
  | verdict

/-- A thread: its gate, the publications complete at the last look of its claim, and those at the
last look and at the recording of the cached verdict. The last attempt is first. -/
structure Thread where
  gate : ThreadBinding.SaturationGate
  phase : Phase
  looked : ℕ
  look : ℕ
  recorded : ℕ
  history : List Attempt

/-- A thread that has not tried to bind, anywhere in the registry. -/
def Thread.start (l : Loc) : Thread := ⟨⟨false, 0, 0⟩, .inside false l, 0, 0, 0, []⟩

/-- A claim looks for a slot: at the hint, the bitmap, the counter or a slot. The reload of the
counter after an empty scan is left out, since it looks at no slot. -/
def looks : Loc → Bool
  | .hintSwap _ | .countLoad _ _ | .summaryLoad _ _ | .takeSummary _ _ _ | .takeWord _ _ _ _
  | .takeAnd _ _ _ _ _ | .takeCount _ _ _ | .saturatedLoad _ _ | .bumpLoad _ _ | .bumpCas _ _ _
  | .scanCount _ _ | .scanState _ _ _ _ _ _ | .scanInitialised _ _ _ _ _ _ | .slotOrNone _ _
  | .loadState _ _ | .casEmpty _ _ | .casFree _ _ | .loadInitialised _ _ | .casInitializing _ _ =>
      true
  | .scanSlot _ _ count _ offset _ => offset < count
  | _ => false

/-- `publish_claimable` is one action. -/
def publication : Loc → ℕ
  | .publishClaimable _ => 1
  | _ => 0

/-- The choices of the environment: what the registry meets, whether a resting thread binds, and
whether the gate can be accessed. -/
structure Chance where
  registry : HeapRegistry.Choice
  binds : Bool
  gateOk : Bool

/-- `saturation_retry_allowed` at the word `current`. -/
def saturationRetryAllowed (gateOk : Bool) (gate : ThreadBinding.SaturationGate) (current : ℕ) :
    ThreadBinding.SaturationGate × Bool :=
  if gateOk then
    if saturationRetryDecision gate.saturated gate.version gate.skips current then
      (⟨false, current, 0⟩, true)
    else (⟨true, gate.version, gate.skips + 1⟩, false)
  else (gate, true)

/-- The test of the gate, and the claim if it is passed. -/
def bindSlow (gateOk : Bool) (s : Shared) (t : Thread) : Thread :=
  match saturationRetryAllowed gateOk t.gate s.registry.saturation with
  | (gate, true) =>
      { t with
        gate := gate
        phase := .inside true (.loopTop .new)
        history := .claimed :: t.history }
  | (gate, false) =>
      { t with
        gate := gate
        history := .turnedAway t.look t.recorded s.publishes :: t.history }

/-- Records the verdict of a failed claim with the version read now, after the claim returned. -/
def recordSaturationVerdict (gateOk : Bool) (s : Shared) (t : Thread) : Thread :=
  if gateOk then
    { t with
      gate := ⟨true, s.registry.saturation, 0⟩
      phase := .resting
      look := t.looked
      recorded := s.publishes }
  else { t with phase := .resting }

/-- One action inside the registry. A claim that was granted binds the thread. -/
def stepInside (e : HeapRegistry.Choice) (s : Shared) (t : Thread) (binding : Bool) (l : Loc) :
    Shared × Thread :=
  let (r, l') := HeapRegistry.act e s.registry l
  (⟨r, s.publishes + publication l⟩,
    { t with
      phase := .inside (match l' with | .leased .. => false | _ => binding) l'
      looked := if looks l then s.publishes else t.looked })

/-- One atomic action of a thread. -/
def act (e : Chance) (s : Shared) (t : Thread) : Shared × Thread :=
  match t.phase with
  | .resting =>
      if e.binds then (s, bindSlow e.gateOk s t)
      else stepInside e.registry s t false .idle
  | .inside binding .idle =>
      (s, { t with phase := if binding then .verdict else .resting })
  | .inside binding l => stepInside e.registry s t binding l
  | .verdict => (s, recordSaturationVerdict e.gateOk s t)

/-- A registry in any state, with threads anywhere in it. -/
def start {ι : Type*} (r : HeapRegistry.Registry) (locs : ι → Loc) : World ι Shared Thread :=
  ⟨⟨r, 0⟩, fun i => .start (locs i)⟩

/-! ## The word -/

lemma act_disabled {r : HeapRegistry.Registry} (e : HeapRegistry.Choice) (l : Loc)
    (h : r.saturation = disabled) : (HeapRegistry.act e r l).1.saturation = disabled := by
  obtain hs | ⟨k, rfl⟩ | ⟨version, rfl⟩ := act_saturation e r l
  · rw [hs, h]
  · simp only [HeapRegistry.act, publishClaimableWord, h]
    rw [if_pos (by decide)]
  · simp only [HeapRegistry.act, tryMarkSaturated, h]
    split_ifs with hc
    · exact absurd hc.2.2.symm hc.1
    · rfl

/-- Only a publication moves the version, and each moves it by one. -/
lemma act_version {r : HeapRegistry.Registry} (e : HeapRegistry.Choice) (l : Loc)
    (hd : (HeapRegistry.act e r l).1.saturation ≠ disabled) :
    (HeapRegistry.act e r l).1.saturation / 2 = r.saturation / 2 + publication l := by
  by_cases hp : ∃ k, l = .publishClaimable k
  · obtain ⟨k, rfl⟩ := hp
    simp only [HeapRegistry.act, publishClaimableWord] at hd ⊢
    split_ifs at hd ⊢ with hl
    · exact absurd rfl hd
    · simp only [publication]
      omega
  · have hzero : publication l = 0 := by
      cases l with
      | publishClaimable k => exact absurd ⟨k, rfl⟩ hp
      | _ => rfl
    rw [hzero]
    obtain hs | hk | ⟨version, rfl⟩ := act_saturation e r l
    · rw [hs, Nat.add_zero]
    · exact absurd hk hp
    · simp only [HeapRegistry.act, tryMarkSaturated]
      split_ifs with hc
      · omega
      · rfl

/-- The version counts the publications since the word `w₀`: the one in the word, the one the gate
caches, and the one at every attempt that was turned away. -/
structure Tracks (w₀ : ℕ) (s : Shared) (t : Thread) : Prop where
  word : s.registry.saturation / 2 = w₀ / 2 + s.publishes
  cached : t.gate.saturated = true → t.gate.version / 2 = w₀ / 2 + t.recorded
  history : ∀ look recorded now, .turnedAway look recorded now ∈ t.history → now = recorded

variable {w₀ : ℕ} {s : Shared} {t : Thread}

lemma Tracks.inside (h : Tracks w₀ s t) (e : HeapRegistry.Choice) (binding : Bool) (l : Loc)
    (hd : (stepInside e s t binding l).1.registry.saturation ≠ disabled) :
    Tracks w₀ (stepInside e s t binding l).1 (stepInside e s t binding l).2 where
  word := by
    have hv := act_version e l hd
    have hw := h.word
    change (HeapRegistry.act e s.registry l).1.saturation / 2 = w₀ / 2 + (s.publishes + publication l)
    omega
  cached := h.cached
  history := h.history

/-- The gate turns away only at the cached word. -/
lemma saturationRetryAllowed_false {gateOk : Bool} {gate : ThreadBinding.SaturationGate}
    {current : ℕ} (h : (saturationRetryAllowed gateOk gate current).2 = false) :
    gate.saturated = true ∧ gate.version = current ∧ gate.skips < saturationRetryInterval ∧
      (saturationRetryAllowed gateOk gate current).1 = ⟨true, gate.version, gate.skips + 1⟩ := by
  rw [saturationRetryAllowed] at h ⊢
  cases gateOk with
  | false => contradiction
  | true =>
      simp only [if_true] at h ⊢
      split_ifs at h ⊢ with hr
      simp only [saturationRetryDecision, Bool.not_eq_true, Bool.or_eq_false_iff,
        Bool.not_eq_eq_eq_not, Bool.not_false, bne_eq_false_iff_eq, decide_eq_false_iff_not,
        not_le] at hr
      exact ⟨hr.1.1, hr.1.2, hr.2, rfl⟩

lemma saturationRetryAllowed_true {gateOk : Bool} {gate : ThreadBinding.SaturationGate}
    {current : ℕ} (h : (saturationRetryAllowed gateOk gate current).2 = true) :
    (saturationRetryAllowed gateOk gate current).1 = gate ∨
      (saturationRetryAllowed gateOk gate current).1 = ⟨false, current, 0⟩ := by
  rw [saturationRetryAllowed] at h ⊢
  split_ifs at h ⊢ with hg hr
  · exact .inr rfl
  · exact .inl rfl

/-- The two ends of a test. -/
lemma bindSlow_cases (gateOk : Bool) (s : Shared) (t : Thread) :
    (∃ gate, (gate = t.gate ∨ gate = ⟨false, s.registry.saturation, 0⟩) ∧
      bindSlow gateOk s t = { t with
        gate := gate
        phase := .inside true (.loopTop .new)
        history := .claimed :: t.history }) ∨
    (t.gate.saturated = true ∧ t.gate.version = s.registry.saturation ∧
      t.gate.skips < saturationRetryInterval ∧
      bindSlow gateOk s t = { t with
        gate := ⟨true, t.gate.version, t.gate.skips + 1⟩
        history := .turnedAway t.look t.recorded s.publishes :: t.history }) := by
  cases hr : saturationRetryAllowed gateOk t.gate s.registry.saturation with
  | mk gate allowed =>
    cases allowed with
    | true =>
        have hg := saturationRetryAllowed_true (congrArg Prod.snd hr)
        rw [hr] at hg
        exact .inl ⟨gate, hg, by simp only [bindSlow, hr]⟩
    | false =>
        obtain ⟨h1, h2, h3, h4⟩ := saturationRetryAllowed_false (congrArg Prod.snd hr)
        rw [hr] at h4
        simp only at h4
        exact .inr ⟨h1, h2, h3, by simp only [bindSlow, hr, h4]⟩

lemma Tracks.bindSlow (h : Tracks w₀ s t) (gateOk : Bool) : Tracks w₀ s (bindSlow gateOk s t) := by
  obtain ⟨gate, hgate, he⟩ | ⟨hsat, hword, -, he⟩ := bindSlow_cases gateOk s t
  · rw [he]
    refine ⟨h.word, fun hs => ?_, fun look recorded now hm => ?_⟩
    · obtain rfl | rfl := hgate
      · exact h.cached hs
      · contradiction
    · exact h.history look recorded now (by simpa using hm)
  · rw [he]
    refine ⟨h.word, fun _ => h.cached hsat, fun look recorded now hm => ?_⟩
    obtain heq | hm := List.mem_cons.mp hm
    · injection heq with _ hrec hnow
      have hcached := h.cached hsat
      rw [hword, h.word] at hcached
      omega
    · exact h.history look recorded now hm

lemma Tracks.record (h : Tracks w₀ s t) (gateOk : Bool) :
    Tracks w₀ s (recordSaturationVerdict gateOk s t) := by
  rw [recordSaturationVerdict]
  split_ifs
  · exact ⟨h.word, fun _ => h.word, h.history⟩
  · exact ⟨h.word, h.cached, h.history⟩

lemma Tracks.act (h : Tracks w₀ s t) (e : Chance)
    (hd : (act e s t).1.registry.saturation ≠ disabled) :
    Tracks w₀ (act e s t).1 (act e s t).2 := by
  cases hp : t.phase with
  | resting =>
      simp only [SaturationGate.act, hp] at hd ⊢
      split_ifs at hd ⊢
      · exact h.bindSlow e.gateOk
      · exact h.inside _ _ _ hd
  | inside binding l =>
      by_cases hl : l = .idle
      · subst l
        simp only [SaturationGate.act, hp]
        exact ⟨h.word, h.cached, h.history⟩
      · have hact : SaturationGate.act e s t = stepInside e.registry s t binding l := by
          simp only [SaturationGate.act, hp]
        rw [hact] at hd ⊢
        exact h.inside _ _ _ hd
  | verdict =>
      simp only [SaturationGate.act, hp]
      exact h.record e.gateOk

lemma act_keeps_disabled (e : Chance) (h : s.registry.saturation = disabled) :
    (act e s t).1.registry.saturation = disabled := by
  cases hp : t.phase with
  | resting =>
      simp only [act, hp]
      split_ifs
      · exact h
      · exact act_disabled e.registry .idle h
  | inside binding l =>
      by_cases hl : l = .idle
      · subst l
        simp only [act, hp]
        exact h
      · have hact : act e s t = stepInside e.registry s t binding l := by
          simp only [act, hp]
        rw [hact]
        exact act_disabled e.registry l h
  | verdict =>
      simp only [act, hp]
      exact h

/-- The word is a thread's only view of the others. -/
lemma Tracks.rely {s' : Shared} {t' : Thread} (h : Tracks w₀ s t) (h' : Tracks w₀ s' t') :
    Tracks w₀ s' t := ⟨h'.word, h.cached, h.history⟩

/-! ## Attempts turned away -/

/-- How many attempts were turned away since the last claim. -/
def turnedAwaySince (history : List Attempt) : ℕ := (history.takeWhile Attempt.isTurnedAway).length

/-- No longer row of attempts is turned away than the gate may skip. -/
def Bounded (history : List Attempt) : Prop :=
  ∀ row, row <:+: history → (∀ a ∈ row, a.isTurnedAway = true) →
    row.length ≤ saturationRetryInterval

/-- The gate counts the attempts it turned away. A thread on its way to a verdict has claimed. -/
structure Paced (t : Thread) : Prop where
  cleared : t.gate.saturated = false → turnedAwaySince t.history = 0
  counted : t.gate.saturated = true →
    turnedAwaySince t.history ≤ t.gate.skips ∧ t.gate.skips ≤ saturationRetryInterval
  claimed : t.phase = .verdict ∨ (∃ l, t.phase = .inside true l) → turnedAwaySince t.history = 0
  bounded : Bounded t.history

lemma turnedAwaySince_turnedAway (history : List Attempt) (look recorded now : ℕ) :
    turnedAwaySince (.turnedAway look recorded now :: history) = turnedAwaySince history + 1 := rfl

/-- A row at the front of the attempts is part of the one counted. -/
lemma length_le_turnedAwaySince {row history : List Attempt} (h : row <+: history)
    (hrow : ∀ a ∈ row, a.isTurnedAway = true) : row.length ≤ turnedAwaySince history := by
  obtain ⟨rest, rfl⟩ := h
  rw [turnedAwaySince, List.takeWhile_append_of_pos hrow, List.length_append]
  exact Nat.le_add_right _ _

lemma Bounded.cons {history : List Attempt} {a : Attempt} (h : Bounded history)
    (ha : turnedAwaySince (a :: history) ≤ saturationRetryInterval) : Bounded (a :: history) := by
  intro row hin hrow
  obtain hpre | hin := List.infix_cons_iff.mp hin
  · exact (length_le_turnedAwaySince hpre hrow).trans ha
  · exact h row hin hrow

lemma Paced.bindSlow (h : Paced t) (gateOk : Bool) (s : Shared) (hp : t.phase = .resting) :
    Paced (bindSlow gateOk s t) := by
  obtain ⟨gate, hgate, he⟩ | ⟨hsat, -, hskips, he⟩ := bindSlow_cases gateOk s t
  · rw [he]
    refine ⟨fun _ => rfl, fun hs => ?_, fun _ => rfl, h.bounded.cons (Nat.zero_le _)⟩
    obtain rfl | rfl := hgate
    · exact ⟨Nat.zero_le _, (h.counted hs).2⟩
    · contradiction
  · rw [he]
    have hcount := (h.counted hsat).1
    refine ⟨fun hs => by contradiction, fun _ => ⟨?_, hskips⟩, fun hphase => ?_,
      h.bounded.cons ?_⟩
    · rw [turnedAwaySince_turnedAway]
      exact Nat.succ_le_succ hcount
    · obtain hv | ⟨l, hl⟩ := hphase
      · exact absurd (hp.symm.trans hv) (by simp)
      · exact absurd (hp.symm.trans hl) (by simp)
    · rw [turnedAwaySince_turnedAway]
      exact (Nat.succ_le_succ hcount).trans hskips

lemma Paced.inside (h : Paced t) (e : HeapRegistry.Choice) (s : Shared) {binding : Bool} {l : Loc}
    (hb : binding = true → turnedAwaySince t.history = 0) :
    Paced (stepInside e s t binding l).2 where
  cleared := h.cleared
  counted := h.counted
  claimed hphase := by
    obtain hv | ⟨l', hl⟩ := hphase
    · exact absurd hv (by simp [stepInside])
    · simp only [stepInside, Phase.inside.injEq] at hl
      refine hb ?_
      by_contra hfalse
      rw [Bool.not_eq_true] at hfalse
      rw [hfalse] at hl
      have := hl.1
      split at this <;> contradiction
  bounded := h.bounded

lemma Paced.act (h : Paced t) (e : Chance) (s : Shared) : Paced (act e s t).2 := by
  cases hp : t.phase with
  | resting =>
      simp only [SaturationGate.act, hp]
      split_ifs
      · exact h.bindSlow e.gateOk s hp
      · exact h.inside _ _ (fun hf => by contradiction)
  | inside binding l =>
      have hclaimed : binding = true → turnedAwaySince t.history = 0 := fun hb =>
        h.claimed (.inr ⟨l, by rw [hp, hb]⟩)
      by_cases hl : l = .idle
      · subst l
        simp only [SaturationGate.act, hp]
        refine ⟨h.cleared, h.counted, fun hphase => ?_, h.bounded⟩
        cases binding with
        | true => exact hclaimed rfl
        | false => simp at hphase
      · have hact : SaturationGate.act e s t = stepInside e.registry s t binding l := by
          simp only [SaturationGate.act, hp]
        rw [hact]
        exact h.inside _ _ hclaimed
  | verdict =>
      have hclaimed := h.claimed (.inl hp)
      simp only [SaturationGate.act, hp, recordSaturationVerdict]
      split_ifs
      · exact ⟨fun hs => by contradiction, fun _ => ⟨hclaimed.le, Nat.zero_le _⟩,
          fun _ => hclaimed, h.bounded⟩
      · exact ⟨h.cleared, h.counted, fun _ => hclaimed, h.bounded⟩

/-! ## Runs -/

variable {ι : Type*} [DecidableEq ι]

lemma run_tracks (r : HeapRegistry.Registry) (locs : ι → Loc) (xs : List (ι × Chance)) :
    (World.run act xs (start r locs)).shared.registry.saturation ≠ disabled →
      ∀ i, Tracks r.saturation (World.run act xs (start r locs)).shared
        ((World.run act xs (start r locs)).loc i) := by
  refine World.run_invariant (I := fun w => w.shared.registry.saturation ≠ disabled →
    ∀ i, Tracks r.saturation w.shared (w.loc i)) (fun w i e hw hd => ?_) xs ?_
  · have hd₀ : w.shared.registry.saturation ≠ disabled := fun h0 => hd (act_keeps_disabled e h0)
    have hown := (hw hd₀ i).act e hd
    exact World.step_forall (hw hd₀) hown fun j _ hj => hj.rely hown
  · intro _ i
    exact ⟨by simp [start], fun hs => by simp [start, Thread.start] at hs,
      fun _ _ _ hm => by simp [start, Thread.start] at hm⟩

lemma run_paced (r : HeapRegistry.Registry) (locs : ι → Loc) (xs : List (ι × Chance)) (i : ι) :
    Paced ((World.run act xs (start r locs)).loc i) := by
  refine World.run_invariant (I := fun w => ∀ i, Paced (w.loc i)) (fun w j e hw => ?_) xs ?_ i
  · exact World.step_forall (A := fun _ t => Paced t) hw ((hw j).act e w.shared) fun _ _ h => h
  · intro j
    refine ⟨fun _ => rfl, fun hs => by simp [start, Thread.start] at hs, fun _ => rfl,
      fun row hin _ => ?_⟩
    rw [List.infix_nil.mp hin]
    exact Nat.zero_le _

/-- When the gate hides a slot. From any registry and any threads in it, in every order of steps: a
thread that was turned away, while `DISABLED` is not reached, met no publication since its failed
claim last looked if and only if none was complete between that look and the reading of the word
that its verdict caches. And in every run at most `SATURATION_RETRY_INTERVAL` attempts in a row are
turned away. -/
theorem turnedAway_exact (r : HeapRegistry.Registry) (locs : ι → Loc) (xs : List (ι × Chance)) :
    ((World.run act xs (start r locs)).shared.registry.saturation ≠ disabled →
      ∀ i look recorded now,
        .turnedAway look recorded now ∈ ((World.run act xs (start r locs)).loc i).history →
        (now = look ↔ recorded = look)) ∧
    ∀ i row, row <:+: ((World.run act xs (start r locs)).loc i).history →
      (∀ a ∈ row, a.isTurnedAway = true) → row.length ≤ saturationRetryInterval := by
  refine ⟨fun hd i look recorded now hm => ?_, fun i => (run_paced r locs xs i).bounded⟩
  rw [(run_tracks r locs xs hd i).history look recorded now hm]

/-! ## A publication in the gap -/

/-- A full registry, known to be full; every slot is leased. -/
def fullRegistry : HeapRegistry.Registry where
  chunks _ := true
  count := maxHeaps
  scanCursor := 0
  reuseHint := maxHeaps
  saturation := 1
  summary := 0
  words _ := 0
  state _ := .live
  generation _ := 1
  initialised _ := true
  built _ := 1

/-- A step of the thread `false`, which binds, and one of the thread `true`, which drops a lease. -/
def bindStep : Bool × Chance := (false, ⟨⟨.use, true⟩, true, true⟩)

def dropStep : Bool × Chance := (true, ⟨⟨.drop, true⟩, false, true⟩)

/-- The claim looks at the saturation word and fails; slot 0 is released and published; the verdict
is recorded; the next attempt is turned away. -/
def gapRun : List (Bool × Chance) :=
  List.replicate 7 bindStep ++ List.replicate 4 dropStep ++ List.replicate 3 bindStep

lemma gapRun_result :
    let w := World.run act gapRun
      (start fullRegistry fun other => if other then .leased 0 1 else .idle)
    w.shared.registry.saturation = 2 ∧ w.shared.registry.state 0 = .free ∧
      (w.loc false).history = [.turnedAway 0 1 1, .claimed] := by
  decide +kernel

/-- A thread is turned away although a slot was published since its claim last looked. -/
theorem gap_absorbed :
    ¬∀ (r : HeapRegistry.Registry) (locs : Bool → Loc) (xs : List (Bool × Chance)),
      (World.run act xs (start r locs)).shared.registry.saturation ≠ disabled →
      ∀ i look recorded now,
        .turnedAway look recorded now ∈ ((World.run act xs (start r locs)).loc i).history →
        now = look := by
  intro h
  obtain ⟨hsat, -, hist⟩ := gapRun_result
  have := h _ _ gapRun (by rw [hsat]; decide) false 0 1 1 (by rw [hist]; simp)
  contradiction

end SaturationGate
end SeferAlloc
