import Mathlib.Tactic
import SeferAlloc.Interleaving
import SeferAlloc.RisingPath

/-!
# The phase word of a Large reservation

One 64-bit word holds a phase and a generation. Every transition is a compare
and exchange between two packed values, and the phases are numbered in the
order they are passed through, so a successful transition increases the word as
a number. The log of successful transitions is therefore a rising path from the
initial word to the current one, whoever made them and in whatever order.
-/
namespace SeferAlloc
namespace LargeReservation

/-! ## Packed words -/

/-- The phases of a Large reservation. -/
inductive LargePhase where
  | unused
  | initializing
  | live
  | pending
  | consuming
  | cached
  | released
deriving DecidableEq

def LargePhase.code : LargePhase → ℕ
  | .unused => 0
  | .initializing => 1
  | .live => 2
  | .pending => 3
  | .consuming => 4
  | .cached => 5
  | .released => 6

abbrev Word := BitVec 64

/-- The low bits of the word that hold its phase. -/
def phaseBits : ℕ := 3

/-- `MAX_LARGE_GENERATION`: `u64::MAX >> PHASE_BITS`. -/
def maxLargeGeneration : ℕ := 2305843009213693951

/-- `pack_large_state` of a generation up to the maximum. -/
def pack (phase : LargePhase) (generation : ℕ) : Word :=
  (BitVec.ofNat 64 generation <<< phaseBits) ||| BitVec.ofNat 64 phase.code

/-- `pack_large_state`; a larger generation aborts. -/
def packLargeState (phase : LargePhase) (generation : ℕ) : Option Word :=
  if maxLargeGeneration < generation then none else some (pack phase generation)

/-- The generation packed above the phase. -/
def largeGeneration (w : Word) : ℕ := (w >>> phaseBits).toNat

/-- The phase packed in the low bits, if they spell one. -/
def largePhase (w : Word) : Option LargePhase :=
  match (w &&& 7).toNat with
  | 0 => some .unused
  | 1 => some .initializing
  | 2 => some .live
  | 3 => some .pending
  | 4 => some .consuming
  | 5 => some .cached
  | 6 => some .released
  | _ => none

/-- The generation after this one, until they run out. -/
def nextLargeGeneration (generation : ℕ) : Option ℕ :=
  if maxLargeGeneration ≤ generation then none else some (generation + 1)

lemma LargePhase.code_lt (p : LargePhase) : p.code < 8 := by cases p <;> decide

lemma pack_toNat (p : LargePhase) {g : ℕ} (h : g ≤ maxLargeGeneration) :
    (pack p g).toNat = g * 8 + p.code := by
  have hg : g * 8 < 2 ^ 64 := by
    simp only [maxLargeGeneration] at h
    omega
  have hp : p.code < 2 ^ 64 := lt_trans p.code_lt (by decide)
  have hshift : (BitVec.ofNat 64 g <<< phaseBits).toNat = g * 8 := by
    rw [BitVec.toNat_shiftLeft, BitVec.toNat_ofNat, Nat.mod_eq_of_lt (by omega : g < 2 ^ 64),
      Nat.shiftLeft_eq, phaseBits, Nat.mod_eq_of_lt hg]
  rw [pack, BitVec.toNat_or, hshift, BitVec.toNat_ofNat, Nat.mod_eq_of_lt hp]
  have := Nat.two_pow_add_eq_or_of_lt (i := 3) p.code_lt g
  rw [Nat.mul_comm g 8]
  exact this.symm

lemma largeGeneration_eq (w : Word) : largeGeneration w = w.toNat / 8 := by
  rw [largeGeneration, BitVec.toNat_ushiftRight, Nat.shiftRight_eq_div_pow]
  rfl

lemma largeGeneration_le (w : Word) : largeGeneration w ≤ maxLargeGeneration := by
  have := w.isLt
  rw [largeGeneration_eq]
  simp only [maxLargeGeneration]
  omega

lemma largePhase_code {w : Word} {p : LargePhase} (h : largePhase w = some p) :
    w.toNat % 8 = p.code := by
  have hand : (w &&& 7).toNat = w.toNat % 8 := by
    rw [BitVec.toNat_and]
    exact Nat.and_two_pow_sub_one_eq_mod w.toNat 3
  rw [largePhase, hand] at h
  have hlt : w.toNat % 8 < 8 := Nat.mod_lt _ (by decide)
  generalize w.toNat % 8 = m at h hlt ⊢
  interval_cases m <;> simp at h <;> subst h <;> rfl

lemma largePhase_pack (p : LargePhase) {g : ℕ} (h : g ≤ maxLargeGeneration) :
    largePhase (pack p g) = some p := by
  have hand : (pack p g &&& 7).toNat = p.code := by
    have h1 : (pack p g &&& 7).toNat = (pack p g).toNat % 8 := by
      rw [BitVec.toNat_and]
      exact Nat.and_two_pow_sub_one_eq_mod _ 3
    rw [h1, pack_toNat p h, Nat.mul_add_mod_self_right, Nat.mod_eq_of_lt p.code_lt]
  rw [largePhase, hand]
  cases p <;> rfl

/-- A word in a phase is the packed word of its phase and generation. -/
lemma toNat_of_phase {w : Word} {p : LargePhase} (h : largePhase w = some p) :
    w.toNat = largeGeneration w * 8 + p.code := by
  have h1 := largePhase_code h
  rw [largeGeneration_eq]
  omega

/-! ## Transitions -/

/-- The compare-and-exchange transitions of `LargeReservationState`. -/
inductive Transition where
  | publishPending
  | claimPending
  | claimLive
  | cacheConsumed
  | releaseConsumed
  | releaseCached
  | releaseInitializing
  | beginReuse
  | finishReuse
deriving DecidableEq

namespace Transition

def source : Transition → LargePhase
  | .publishPending | .claimLive => .live
  | .claimPending => .pending
  | .cacheConsumed | .releaseConsumed => .consuming
  | .releaseCached | .beginReuse => .cached
  | .releaseInitializing | .finishReuse => .initializing

def target : Transition → LargePhase
  | .publishPending => .pending
  | .claimPending | .claimLive => .consuming
  | .cacheConsumed => .cached
  | .releaseConsumed | .releaseCached | .releaseInitializing => .released
  | .beginReuse => .initializing
  | .finishReuse => .live

/-- Only a reuse moves on to the next generation. -/
def generationAfter (t : Transition) (g : ℕ) : ℕ :=
  if t = .beginReuse then g + 1 else g

end Transition

/-- A successful transition, and the generation it found. -/
abbrev Event := Transition × ℕ

namespace Event

def before (e : Event) : ℕ := e.2 * 8 + e.1.source.code

def after (e : Event) : ℕ := e.1.generationAfter e.2 * 8 + e.1.target.code

lemma before_lt_after (e : Event) : before e < after e := by
  obtain ⟨t, g⟩ := e
  cases t <;> simp [before, after, Transition.source, Transition.target,
    Transition.generationAfter, LargePhase.code] <;> omega

/-- The event takes the obligation LIVE of the generation. -/
def takes (g : ℕ) (e : Event) : Bool := e = (.publishPending, g) ∨ e = (.claimLive, g)

/-- The event claims the reservation in this generation for its release or reuse. -/
def claims (g : ℕ) (e : Event) : Bool := e = (.claimPending, g) ∨ e = (.claimLive, g)

/-- The generation a reuse starts. -/
def reuse (e : Event) : Option ℕ := if e.1 = .beginReuse then some (e.2 + 1) else none

end Event

/-! ## Threads -/

/-- What a thread may call. `publish` is the form of the route descriptor, which reads the
generation first. -/
inductive Call where
  | publishPending (generation : ℕ)
  | publish
  | claimPending
  | claimLive
  | cacheConsumed (generation : ℕ)
  | releaseConsumed (generation : ℕ)
  | releaseCached (generation : ℕ)
  | releaseInitializing (generation : ℕ)
  | beginReuse
  | finishReuse (generation : ℕ)

/-- The word, and the log of the transitions that succeeded. -/
structure Shared where
  word : Word
  log : List Event

/-- Between calls, between the load of a call and its exchange, or aborted. A call returns the
generation of its transition, or `none` when it failed. -/
inductive Loc where
  | idle
  | loaded (t : Transition) (observed : Word)
  | publishing (generation : ℕ)
  | returned (result : Option ℕ)
  | aborted

/-- `compare_exchange`: the new word and its event are in, or nothing changes. -/
def Shared.exchange (s : Shared) (expected new : Word) (e : Event) : Shared × Loc :=
  if s.word = expected then (⟨new, s.log ++ [e]⟩, .returned (some (e.1.generationAfter e.2)))
  else (s, .returned none)

/-- `transition`, and `publish_pending`: both words are packed, then exchanged. -/
def Shared.transition (s : Shared) (t : Transition) (generation : ℕ) : Shared × Loc :=
  match packLargeState t.source generation,
    packLargeState t.target (t.generationAfter generation) with
  | some expected, some new => s.exchange expected new (t, generation)
  | _, _ => (s, .aborted)

/-- The load of `claim_pending`, `claim_live` and `begin_reuse`. -/
def Shared.observe (s : Shared) (t : Transition) : Loc :=
  if largePhase s.word = some t.source ∧
      (t = .beginReuse → nextLargeGeneration (largeGeneration s.word) ≠ none) then
    .loaded t s.word
  else .returned none

/-- Their exchange. -/
def Shared.claim (s : Shared) (t : Transition) (observed : Word) : Shared × Loc :=
  let generation := largeGeneration observed
  match packLargeState t.target (t.generationAfter generation) with
  | some new => s.exchange observed new (t, generation)
  | none => (s, .aborted)

def Shared.start (s : Shared) : Call → Shared × Loc
  | .publishPending g => s.transition .publishPending g
  | .publish => (s, .publishing (largeGeneration s.word))
  | .claimPending => (s, s.observe .claimPending)
  | .claimLive => (s, s.observe .claimLive)
  | .cacheConsumed g => s.transition .cacheConsumed g
  | .releaseConsumed g => s.transition .releaseConsumed g
  | .releaseCached g => s.transition .releaseCached g
  | .releaseInitializing g => s.transition .releaseInitializing g
  | .beginReuse => (s, s.observe .beginReuse)
  | .finishReuse g => s.transition .finishReuse g

/-- One atomic step of a thread; an idle one starts the call. -/
def act (c : Call) (s : Shared) : Loc → Shared × Loc
  | .idle | .returned _ => s.start c
  | .loaded t observed => s.claim t observed
  | .publishing g => s.transition .publishPending g
  | .aborted => (s, .aborted)

/-- A word and threads that have not called anything yet. -/
def init (ι : Type*) (w₀ : Word) : Interleaving.World ι Shared Loc :=
  ⟨⟨w₀, []⟩, fun _ => .idle⟩

/-! ## Steps -/

/-- A transition that succeeds extends the log by the way from the old word to the new one. -/
def Advances (s s' : Shared) : Prop :=
  ∃ e : Event, s'.log = s.log ++ [e] ∧ s.word.toNat = e.before ∧ s'.word.toNat = e.after

/-- Either nothing is changed and nothing succeeded, or a transition succeeded. -/
def Outcome (s : Shared) (r : Shared × Loc) : Prop :=
  (r.1 = s ∧ ∀ g, r.2 ≠ .returned (some g)) ∨
    (Advances s r.1 ∧ ∃ g, r.2 = .returned (some g))

lemma packLargeState_some {p : LargePhase} {g : ℕ} {w : Word} (h : packLargeState p g = some w) :
    g ≤ maxLargeGeneration ∧ w = pack p g := by
  rw [packLargeState] at h
  split_ifs at h with hg
  exact ⟨not_lt.mp hg, (Option.some.inj h).symm⟩

lemma exchange_outcome {s : Shared} {expected new : Word} {e : Event}
    (hb : expected.toNat = e.before) (ha : new.toNat = e.after) :
    Outcome s (s.exchange expected new e) := by
  rw [Shared.exchange]
  split_ifs with hw
  · exact .inr ⟨⟨e, rfl, hw ▸ hb, ha⟩, _, rfl⟩
  · exact .inl ⟨rfl, by simp⟩

lemma transition_outcome (s : Shared) (t : Transition) (g : ℕ) : Outcome s (s.transition t g) := by
  rw [Shared.transition]
  split
  · rename_i expected new hexp hnew
    obtain ⟨hg, rfl⟩ := packLargeState_some hexp
    obtain ⟨hg', rfl⟩ := packLargeState_some hnew
    exact exchange_outcome (pack_toNat _ hg) (pack_toNat _ hg')
  · exact .inl ⟨rfl, by simp⟩

lemma claim_outcome (s : Shared) {t : Transition} {observed : Word}
    (h : largePhase observed = some t.source) : Outcome s (s.claim t observed) := by
  rw [Shared.claim]
  split
  · rename_i new hnew
    obtain ⟨hg, rfl⟩ := packLargeState_some hnew
    exact exchange_outcome (toNat_of_phase h) (pack_toNat _ hg)
  · exact .inl ⟨rfl, by simp⟩

lemma observe_eq (s : Shared) (t : Transition) :
    s.observe t = .returned none ∨
      s.observe t = .loaded t s.word ∧ largePhase s.word = some t.source := by
  rw [Shared.observe]
  split_ifs with h
  · exact .inr ⟨rfl, h.1⟩
  · exact .inl rfl

/-- What a thread has loaded is in the phase its call starts from. -/
def Loc.Sensible : Loc → Prop
  | .loaded t observed => largePhase observed = some t.source
  | _ => True

lemma act_outcome {c : Call} {s : Shared} {l : Loc} (h : l.Sensible) :
    Outcome s (act c s l) ∧ (act c s l).2.Sensible := by
  have quiet : ∀ t, Outcome s (s, s.observe t) ∧ (s.observe t).Sensible := by
    intro t
    obtain he | ⟨he, hp⟩ := observe_eq s t
    · rw [he]
      exact ⟨.inl ⟨rfl, by simp⟩, trivial⟩
    · rw [he]
      exact ⟨.inl ⟨rfl, by simp⟩, hp⟩
  have sensible : ∀ t g, (s.transition t g).2.Sensible := by
    intro t g
    simp only [Shared.transition, Shared.exchange]
    split
    · split_ifs <;> trivial
    · trivial
  have start : ∀ c, Outcome s (s.start c) ∧ (s.start c).2.Sensible := by
    intro c
    cases c with
    | publish => exact ⟨.inl ⟨rfl, by simp [Shared.start]⟩, trivial⟩
    | claimPending | claimLive | beginReuse => exact quiet _
    | publishPending g | cacheConsumed g | releaseConsumed g | releaseCached g
    | releaseInitializing g | finishReuse g => exact ⟨transition_outcome s _ g, sensible _ g⟩
  cases l with
  | idle => exact start c
  | returned r => exact start c
  | publishing g => exact ⟨transition_outcome s _ g, sensible _ g⟩
  | aborted => exact ⟨.inl ⟨rfl, by simp [act]⟩, trivial⟩
  | loaded t observed =>
      refine ⟨claim_outcome s h, ?_⟩
      simp only [act, Shared.claim, Shared.exchange]
      split
      · split_ifs <;> trivial
      · trivial

/-! ## Runs -/

section
open Interleaving World RisingPath
variable {ι : Type*} [DecidableEq ι] {w₀ : Word} {w : World ι Shared Loc}

/-- The log is the way from the initial word to the current one. -/
def Traced (w₀ : Word) (w : World ι Shared Loc) : Prop :=
  Path Event.before Event.after w₀.toNat w.shared.log w.shared.word.toNat ∧
    ∀ i, (w.loc i).Sensible

lemma Traced.step (h : Traced w₀ w) (i : ι) (c : Call) : Traced w₀ (w.step act i c) := by
  obtain ⟨hout, hsens⟩ := act_outcome (c := c) (s := w.shared) (h.2 i)
  refine ⟨?_, fun j => ?_⟩
  · obtain ⟨he, -⟩ | ⟨⟨e, hlog, hb, ha⟩, -⟩ := hout
    · rw [World.step, he]
      exact h.1
    · rw [World.step, hlog, ha]
      exact h.1.append hb.symm
  · by_cases hj : j = i
    · subst j
      rwa [step_loc_self]
    · rw [step_loc_of_ne hj]
      exact h.2 j

lemma Traced.run (h : Traced w₀ w) (xs : List (ι × Call)) : Traced w₀ (World.run act xs w) :=
  run_invariant (I := Traced w₀) (fun _ i c hw => hw.step i c) xs h

lemma traced_init (ι : Type*) (w₀ : Word) : Traced w₀ (init ι w₀) := ⟨rfl, fun _ => trivial⟩

/-- Along a run the log grows by a way from the word before it to the word after it. -/
lemma run_extends (xs : List (ι × Call)) (hsens : ∀ i, (w.loc i).Sensible) :
    ∃ es, (World.run act xs w).shared.log = w.shared.log ++ es ∧
      Path Event.before Event.after w.shared.word.toNat es
        (World.run act xs w).shared.word.toNat := by
  induction xs generalizing w with
  | nil => exact ⟨[], by simp [World.run], rfl⟩
  | cons x xs ih =>
      obtain ⟨i, c⟩ := x
      obtain ⟨hout, hs⟩ := act_outcome (c := c) (s := w.shared) (hsens i)
      have hsens' : ∀ j, ((w.step act i c).loc j).Sensible := by
        intro j
        by_cases hj : j = i
        · subst j
          rwa [step_loc_self]
        · rw [step_loc_of_ne hj]
          exact hsens j
      obtain ⟨es, hlog, hpath⟩ := ih hsens'
      rw [World.run]
      obtain ⟨he, -⟩ | ⟨⟨e, hl, hb, ha⟩, -⟩ := hout
      · have hsame : (w.step act i c).shared = w.shared := he
        rw [hsame] at hlog hpath
        exact ⟨es, hlog, hpath⟩
      · have hl' : (w.step act i c).shared.log = w.shared.log ++ [e] := hl
        have ha' : (w.step act i c).shared.word.toNat = e.after := ha
        rw [hl', List.append_assoc] at hlog
        rw [ha'] at hpath
        exact ⟨e :: es, hlog, hb, hpath⟩

/-- No event leaves a released word. -/
lemma before_ne_released (e : Event) : e.before % 8 ≠ LargePhase.released.code := by
  obtain ⟨t, g⟩ := e
  cases t <;> simp only [Event.before, Transition.source, LargePhase.code] <;> omega

lemma takes_before {g : ℕ} {e : Event} :
    e.takes g = true ↔ e.before = g * 8 + LargePhase.live.code := by
  obtain ⟨t, k⟩ := e
  cases t <;> simp [Event.takes, Event.before, Transition.source, LargePhase.code] <;> omega

lemma claims_after {g : ℕ} {e : Event} :
    e.claims g = true ↔ e.after = g * 8 + LargePhase.consuming.code := by
  obtain ⟨t, k⟩ := e
  cases t <;> simp [Event.claims, Event.after, Transition.target, Transition.generationAfter,
    LargePhase.code] <;> omega

lemma pending_before {g : ℕ} {e : Event} (h : e.before = g * 8 + LargePhase.pending.code) :
    e = (.claimPending, g) := by
  obtain ⟨t, k⟩ := e
  cases t <;> simp [Event.before, Transition.source, LargePhase.code] at h ⊢ <;> omega

/-- The generations of the reuses, in the order they were started. -/
def reuses (log : List Event) : List ℕ := log.filterMap Event.reuse

lemma reuse_spec {g : ℕ} {e : Event} (h : e.reuse = some g) :
    e.before = (g - 1) * 8 + LargePhase.cached.code ∧ 0 < g ∧
      e.after = g * 8 + LargePhase.initializing.code := by
  obtain ⟨t, k⟩ := e
  cases t <;> simp [Event.reuse] at h
  subst h
  simp [Event.before, Event.after, Transition.source, Transition.target,
    Transition.generationAfter]

/-- The phase machine of one word. For any number of threads, whatever they call, in every
interleaving: an obligation LIVE is taken at most once, by a publication or by a direct claim,
and a generation is claimed at most once; an obligation that existed and is not LIVE any more
was taken exactly once, and claimed exactly once when it is not PENDING either; the generations
of the reuses rise; a released word stays as it is; a publication for an old generation does not
succeed any more; and a step that reports no success leaves the word and the log as they are. -/
theorem phase_machine (w₀ : Word) (xs : List (ι × Call)) :
    let w := World.run act xs (init ι w₀)
    (∀ g, w.shared.log.countP (Event.takes g) ≤ 1 ∧ w.shared.log.countP (Event.claims g) ≤ 1) ∧
    (∀ g, g ≤ maxLargeGeneration → w₀ = pack .live g ∨ (.finishReuse, g) ∈ w.shared.log →
      (w.shared.word ≠ pack .live g → w.shared.log.countP (Event.takes g) = 1) ∧
      (w.shared.word ≠ pack .live g → w.shared.word ≠ pack .pending g →
        w.shared.log.countP (Event.claims g) = 1)) ∧
    (reuses w.shared.log).Pairwise (· < ·) ∧
    (∀ g ∈ reuses w.shared.log, largeGeneration w₀ < g ∧ g ≤ largeGeneration w.shared.word) ∧
    (∀ ys : List (ι × Call), largePhase w.shared.word = some .released →
      (World.run act ys w).shared = w.shared) ∧
    (∀ (ys : List (ι × Call)) (g : ℕ), g < largeGeneration w.shared.word →
      (World.run act ys w).shared.log.count (.publishPending, g) =
        w.shared.log.count (.publishPending, g)) ∧
    (∀ (i : ι) (c : Call), ((∀ g, (w.step act i c).loc i ≠ .returned (some g)) →
        (w.step act i c).shared = w.shared) ∧
      ∀ g, (w.step act i c).loc i = .returned (some g) → Advances w.shared (w.step act i c).shared) := by
  intro w
  have hw : Traced w₀ w := (traced_init ι w₀).run xs
  have rising := Event.before_lt_after
  have hpath := hw.1
  have atMost : ∀ g, w.shared.log.countP (Event.takes g) ≤ 1 ∧
      w.shared.log.countP (Event.claims g) ≤ 1 := by
    intro g
    constructor
    · refine hpath.countP_le_one rising fun e f he hf => ?_
      rw [takes_before] at he hf
      have := rising e
      omega
    · refine hpath.countP_le_one rising fun e f he hf => ?_
      rw [claims_after] at he hf
      have := rising f
      omega
  refine ⟨atMost, fun g hg hlive => ?_, ?_, fun g hg => ?_, fun ys hrel => ?_, fun ys g hg => ?_,
    fun i c => ?_⟩
  · -- The word went through LIVE, and through PENDING if it was published.
    have hentered : g * 8 + LargePhase.live.code = w₀.toNat ∨
        ∃ e ∈ w.shared.log, e.after = g * 8 + LargePhase.live.code := by
      obtain rfl | hfin := hlive
      · exact .inl (pack_toNat _ hg).symm
      · exact .inr ⟨_, hfin, by simp [Event.after, Transition.generationAfter, Transition.target]⟩
    have htaken : w.shared.word ≠ pack .live g →
        ∃ e ∈ w.shared.log, e.takes g = true := by
      intro hne
      obtain he | ⟨e, he, hb⟩ := hpath.leaves hentered
      · exact (hne (BitVec.eq_of_toNat_eq (by rw [← he, pack_toNat _ hg]))).elim
      · exact ⟨e, he, takes_before.mpr hb⟩
    refine ⟨fun hne => ?_, fun hne hpend => ?_⟩
    · obtain ⟨e, he, ht⟩ := htaken hne
      exact le_antisymm (atMost g).1 (List.countP_pos_iff.mpr ⟨e, he, ht⟩)
    · obtain ⟨e, he, ht⟩ := htaken hne
      refine le_antisymm (atMost g).2 (List.countP_pos_iff.mpr ?_)
      rw [Event.takes, decide_eq_true_iff] at ht
      obtain rfl | rfl := ht
      · obtain hlast | ⟨f, hf, hb⟩ := hpath.leaves (x := g * 8 + LargePhase.pending.code)
          (.inr ⟨_, he, by simp [Event.after, Transition.generationAfter, Transition.target]⟩)
        · exact (hpend (BitVec.eq_of_toNat_eq (by rw [← hlast, pack_toNat _ hg]))).elim
        · exact ⟨f, hf, by simp [pending_before hb, Event.claims]⟩
      · exact ⟨_, he, by simp [Event.claims]⟩
  · rw [reuses, List.pairwise_filterMap]
    refine (hpath.pairwise rising).imp fun {e f} hle g hg g' hg' => ?_
    have h1 := (reuse_spec hg).2.2
    obtain ⟨h2, h3, -⟩ := reuse_spec hg'
    simp only [LargePhase.code] at h1 h2
    omega
  · obtain ⟨e, he, hr⟩ := List.mem_filterMap.mp hg
    obtain ⟨h1, h2⟩ := hpath.within rising he
    obtain ⟨h3, h4, h5⟩ := reuse_spec hr
    rw [largeGeneration_eq, largeGeneration_eq]
    simp only [LargePhase.code] at h3 h5
    omega
  · obtain ⟨es, hlog, hes⟩ := run_extends ys hw.2
    cases es with
    | nil =>
        have hword : (World.run act ys w).shared.word = w.shared.word :=
          BitVec.eq_of_toNat_eq hes.symm
        rw [List.append_nil] at hlog
        cases h : (World.run act ys w).shared
        cases h' : w.shared
        rw [h, h'] at hword hlog
        simp only at hword hlog
        rw [hword, hlog]
    | cons e es =>
        have := largePhase_code hrel
        rw [hes.1] at this
        exact (before_ne_released e this).elim
  · obtain ⟨es, hlog, hes⟩ := run_extends ys hw.2
    rw [hlog, List.count_append, Nat.add_eq_left, List.count_eq_zero]
    intro hmem
    have h1 := (hes.within rising hmem).1
    rw [largeGeneration_eq] at hg
    simp only [Event.before, Transition.source, LargePhase.code] at h1
    omega
  · obtain ⟨he, hno⟩ | ⟨hadv, hyes⟩ := (act_outcome (c := c) (s := w.shared) (hw.2 i)).1
    · rw [step_loc_self]
      exact ⟨fun _ => he, fun g hg => (hno g hg).elim⟩
    · rw [step_loc_self]
      obtain ⟨g, hg⟩ := hyes
      exact ⟨fun hno => (hno g hg).elim, fun _ _ => hadv⟩

end

end LargeReservation
end SeferAlloc
