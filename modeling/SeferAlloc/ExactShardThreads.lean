import SeferAlloc.ExactShardRuns

/-!
# Callers of the exact-object shard

Any number of threads call one shard. A lookup first reads the hint without the
lock, and only the owner of the lock changes the descriptors and the hint. A
descriptor that was there before a lookup is never hidden by the hint.
-/
namespace SeferAlloc.ExactObject
open Interleaving TombstoneProbing

/-- Where a call is. -/
inductive Frame where
  | idle
  | hint (r : Request)
  | acquire (r : Request)
  | body (r : Request)
  | storeHint (r : Request) (answer : Answer) (retired : Option (ℕ × ℕ))
  | release (r : Request) (answer : Answer) (retired : Option (ℕ × ℕ))
  | retire (r : Request) (answer : Answer) (retired : Option (ℕ × ℕ))

/-- A thread: where its call is, and its last answer. -/
structure Caller where
  frame : Frame
  answer : Option Answer

def Caller.goto (f : Frame) (t : Caller) : Caller := { t with frame := f }

def Caller.return (a : Answer) (_ : Caller) : Caller := ⟨.idle, some a⟩

/-- The shard; a fatal layout stops the process. -/
structure Process where
  shard : Shard
  stopped : Bool

/-- A thread begins a call, or goes on; the system allocator may have memory, and the process may
be exiting. -/
inductive Command where
  | call (r : Request)
  | go (grant exiting : Bool)

/-- What a call answers that gives up waiting at process exit. -/
def Request.exiting : Request → Answer
  | .insert _ _ => .outcome .exiting
  | .peek _ | .take _ => .descriptor none

/-- An insertion does not look at the hint. -/
def Request.first : Request → Frame
  | .insert addr d => .acquire (.insert addr d)
  | .peek addr => .hint (.peek addr)
  | .take addr => .hint (.take addr)

/-- The next action of a call. -/
def advance (grant exiting : Bool) (s : Process) (t : Caller) : Process × Caller :=
  match t.frame with
  | .idle => (s, t)
  | .hint r =>
    (s, if s.shard.liveHint = 0 then t.return (.descriptor none) else t.goto (.acquire r))
  | .acquire r =>
    if s.shard.lock = false then
      ({ s with shard := { s.shard with lock := true } }, t.goto (.body r))
    else if exiting then (s, t.return r.exiting)
    else (s, t)
  | .body r =>
    match s.shard.locked grant r with
    | .ok (answer, retired, shard) =>
      ({ s with shard := shard },
        t.goto (if r.stores then .storeHint r answer retired else .release r answer retired))
    | .error (.fatal _) => ({ s with stopped := true }, t)
    | .error .diverges => (s, t)
  | .storeHint r answer retired =>
    ({ s with shard := s.shard.storeHint r }, t.goto (.release r answer retired))
  | .release r answer retired =>
    ({ s with shard := { s.shard with lock := false } }, t.goto (.retire r answer retired))
  | .retire _ answer retired =>
    ({ s with shard := s.shard.retire retired }, t.return answer)

/-- One atomic action of a thread. -/
def act (c : Command) (s : Process) (t : Caller) : Process × Caller :=
  if s.stopped then (s, t)
  else match c, t.frame with
    | .call r, .idle => (s, t.goto r.first)
    | .call _, _ => (s, t)
    | .go grant exiting, _ => advance grant exiting s t

/-- Threads named by `ι` on a new shard. -/
def start (ι : Type*) : World ι Process Caller := ⟨⟨Shard.new, false⟩, fun _ => ⟨.idle, none⟩⟩

/-- The schedules whose calls are on the addresses of objects. -/
def Admissible {ι : Type*} (xs : List (ι × Command)) : Prop :=
  ∀ x ∈ xs, ∀ r, x.2 = .call r → r.Admissible

/-- The request of a call that is under way. -/
def Frame.request : Frame → Option Request
  | .idle => none
  | .hint r | .acquire r | .body r => some r
  | .storeHint r _ _ | .release r _ _ | .retire r _ _ => some r

/-- The call has the lock. -/
def Frame.holds : Frame → Bool
  | .body _ | .storeHint _ _ _ | .release _ _ _ => true
  | _ => false

def hold (t : Caller) : Option (Unit × Unit) := if t.frame.holds then some ((), ()) else none

def view (s : Process) (_ : Unit) : Option Unit := if s.shard.lock then some () else none

/-- What a call that is about to store the hint knows: the hint is the count before it. -/
def Knows (s : Process) (t : Caller) : Prop :=
  ∀ r answer retired, t.frame = .storeHint r answer retired → r.stores = true ∧
    s.shard.liveHint + answer.adds = s.shard.inner.live + answer.takes r ∧
    (answer = .outcome .inserted → ∃ addr d d', r = .insert addr d ∧ s.shard.inner.Holds addr d')

def Frame.storing : Frame → Bool
  | .storeHint _ _ _ => true
  | _ => false

variable {ι : Type*} [DecidableEq ι] {s : Process} {t : Caller}

/-- What holds along every schedule. -/
structure Inv (w : World ι Process Caller) : Prop where
  requests : ∀ i r, (w.loc i).frame.request = some r → r.Admissible
  inner : w.shared.shard.inner.Inv
  models : ∃ m, Models w.shared.shard.inner m
  owned : Owned hold view w
  knows : ∀ i, Knows w.shared (w.loc i)
  hint : (∀ i, (w.loc i).frame.storing = false) →
    w.shared.shard.liveHint = w.shared.shard.inner.live

/-- What an action can do. -/
inductive Does (s : Process) (t : Caller) (s' : Process) (t' : Caller) : Prop
  | same (hs : s'.shard = s.shard) (ht : t' = t)
  | quiet (hinner : s'.shard.inner = s.shard.inner) (hhint : s'.shard.liveHint = s.shard.liveHint)
      (hlock : s'.shard.lock = s.shard.lock) (hstoring : t.frame.storing = false)
      (hstoring' : t'.frame.storing = false) (hholds : t'.frame.holds = t.frame.holds)
  | acquire (r : Request) (hfree : s.shard.lock = false)
      (hs : s'.shard = { s.shard with lock := true }) (ht : t.frame = .acquire r)
      (ht' : t'.frame = .body r)
  | body (r : Request) (grant : Bool) (answer : Answer) (retired : Option (ℕ × ℕ)) (shard : Shard)
      (hlocked : s.shard.locked grant r = .ok (answer, retired, shard)) (hs : s'.shard = shard)
      (ht : t.frame = .body r)
      (ht' : t'.frame = if r.stores then .storeHint r answer retired else .release r answer retired)
  | store (r : Request) (answer : Answer) (retired : Option (ℕ × ℕ))
      (hs : s'.shard = s.shard.storeHint r) (ht : t.frame = .storeHint r answer retired)
      (ht' : t'.frame = .release r answer retired)
  | release (r : Request) (answer : Answer) (retired : Option (ℕ × ℕ))
      (hs : s'.shard = { s.shard with lock := false }) (ht : t.frame = .release r answer retired)
      (ht' : t'.frame = .retire r answer retired)

lemma act_does (c : Command) : Does s t (act c s t).1 (act c s t).2 := by
  unfold act
  split
  · exact .same rfl rfl
  · split
    · rename_i r hf
      refine .quiet rfl rfl rfl (by rw [hf]; rfl) ?_ ?_
      · cases r <;> rfl
      · rw [hf]
        cases r <;> rfl
    · exact .same rfl rfl
    · rename_i grant exiting
      cases hf : t.frame with
      | idle =>
        simp only [advance, hf]
        exact .same rfl rfl
      | hint r =>
        simp only [advance, hf]
        refine .quiet rfl rfl rfl (by rw [hf]; rfl) ?_ ?_
        · split <;> rfl
        · rw [hf]
          split <;> rfl
      | acquire r =>
        simp only [advance, hf]
        split
        · rename_i hfree
          exact .acquire r hfree rfl hf rfl
        · split
          · exact .quiet rfl rfl rfl (by rw [hf]; rfl) rfl (by rw [hf]; rfl)
          · exact .same rfl rfl
      | body r =>
        simp only [advance, hf]
        cases hlocked : s.shard.locked grant r with
        | error e =>
          cases e with
          | fatal text => exact .same rfl rfl
          | diverges => exact .same rfl rfl
        | ok result => exact .body r grant result.1 result.2.1 result.2.2 hlocked rfl hf rfl
      | storeHint r answer retired =>
        simp only [advance, hf]
        exact .store r answer retired rfl hf rfl
      | release r answer retired =>
        simp only [advance, hf]
        exact .release r answer retired rfl hf rfl
      | retire r answer retired =>
        simp only [advance, hf]
        exact .quiet rfl rfl rfl (by rw [hf]; rfl) rfl (by rw [hf]; rfl)

/-- The request that a call has afterwards was there before, or begins now. -/
lemma act_request (c : Command) {r : Request} (h : (act c s t).2.frame.request = some r) :
    t.frame.request = some r ∨ c = .call r := by
  unfold act at h
  split at h
  · exact .inl h
  · split at h
    · rename_i r' hf
      right
      cases r' <;> simpa [Caller.goto, Request.first, Frame.request] using h
    · exact .inl h
    · rename_i grant exiting
      left
      revert h
      cases hf : t.frame with
      | body r' =>
        simp only [advance, hf]
        split
        · cases r'.stores <;> simp [Caller.goto, Frame.request]
        · simp [hf]
        · simp [hf]
      | _ =>
        simp only [advance, hf]
        repeat' split
        all_goals simp [Caller.goto, Caller.return, Frame.request, hf]

lemma view_eq {s' : Process} (h : s'.shard.lock = s.shard.lock) : view s' = view s := by
  ext1
  rw [view, view, h]

lemma hold_of_holds (h : t.frame.holds = true) : hold t = some ((), ()) := if_pos h

lemma hold_of_not (h : t.frame.holds = false) : hold t = none := by simp [hold, h]

@[simp] lemma Shard.storeHint_inner (sh : Shard) (r : Request) :
    (sh.storeHint r).inner = sh.inner := by
  unfold Shard.storeHint
  split <;> rfl

@[simp] lemma Shard.storeHint_lock (sh : Shard) (r : Request) : (sh.storeHint r).lock = sh.lock := by
  unfold Shard.storeHint
  split <;> rfl

/-- What the part under the lock has done when it returns. -/
lemma Shard.locked_done {sh sh' : Shard} {m : ℕ → Option Descriptor} (h : sh.inner.Inv)
    (hm : Models sh.inner m) {grant : Bool} {r : Request} (hr : r.Admissible) {answer : Answer}
    {retired : Option (ℕ × ℕ)} (hlocked : sh.locked grant r = .ok (answer, retired, sh')) :
    ∃ m', Done sh m grant r answer retired sh' m' := by
  rcases Shard.locked_spec h hm grant r hr with ⟨-, text, herror⟩ |
    ⟨answer', retired', sh'', m', hok, hdone⟩
  · rw [hlocked] at herror
    cases herror
  · rw [hlocked] at hok
    cases hok
    exact ⟨m', hdone⟩

/-- An action moves the lock as its call holds it. -/
lemma Does.move {s' : Process} {t' : Caller} (hd : Does s t s' t') (hinv : s.shard.inner.Inv)
    (hmodels : ∃ m, Models s.shard.inner m) (hr : ∀ r, t.frame.request = some r → r.Admissible) :
    Move hold view s s' t t' := by
  cases hd with
  | same hs ht => exact .keep (view_eq (by rw [hs])) (by rw [ht])
  | quiet hinner hhint hlock hstoring hstoring' hholds =>
    exact .keep (view_eq hlock) (by rw [hold, hold, hholds])
  | acquire r hfree hs ht ht' =>
    refine .acquire () () (hold_of_not (by rw [ht]; rfl)) (by simp [view, hfree]) ?_
      (hold_of_holds (by rw [ht']; rfl))
    ext1
    simp [view, hs]
  | body r grant answer retired shard hlocked hs ht ht' =>
    obtain ⟨m, hm⟩ := hmodels
    obtain ⟨m', hdone⟩ := Shard.locked_done hinv hm (hr r (by rw [ht]; rfl)) hlocked
    refine .keep (view_eq (by rw [hs, hdone.frame.1])) ?_
    have ht'' : t'.frame.holds = true := by
      rw [ht']
      split <;> rfl
    rw [hold_of_holds ht'', hold_of_holds (t := t) (by rw [ht]; rfl)]
  | store r answer retired hs ht ht' =>
    refine .keep (view_eq (by rw [hs, Shard.storeHint_lock])) ?_
    have ht'' : hold t' = some ((), ()) := hold_of_holds (by rw [ht']; rfl)
    rw [ht'', hold_of_holds (t := t) (by rw [ht]; rfl)]
  | release r answer retired hs ht ht' =>
    refine .release () () (hold_of_holds (by rw [ht]; rfl)) ?_ (hold_of_not (by rw [ht']; rfl))
    ext1
    simp [view, hs]

/-- A call without the lock changes neither the descriptors nor the hint. -/
lemma Does.outside {s' : Process} {t' : Caller} (hd : Does s t s' t') (hholds : t.frame.holds = false) :
    s'.shard.inner = s.shard.inner ∧ s'.shard.liveHint = s.shard.liveHint := by
  cases hd with
  | same hs ht => exact ⟨by rw [hs], by rw [hs]⟩
  | quiet hinner hhint => exact ⟨hinner, hhint⟩
  | acquire r hfree hs => exact ⟨by rw [hs], by rw [hs]⟩
  | body r grant answer retired shard hlocked hs ht =>
    rw [ht] at hholds
    cases hholds
  | store r answer retired hs ht =>
    rw [ht] at hholds
    cases hholds
  | release r answer retired hs ht =>
    rw [ht] at hholds
    cases hholds

lemma Frame.holds_of_storing {f : Frame} (h : f.storing = true) : f.holds = true := by
  cases f <;> first | rfl | cases h

/-- Only the owner of the lock stores the hint. -/
lemma Inv.alone {w : World ι Process Caller} (h : Inv w) {i j : ι}
    (hi : (w.loc i).frame.holds = true) (hj : (w.loc j).frame.storing = true) : j = i :=
  h.owned.unique j i () () () (hold_of_holds (Frame.holds_of_storing hj)) (hold_of_holds hi)

/-- The step: every action keeps the invariant. -/
theorem Inv.step {w : World ι Process Caller} (h : Inv w) (i : ι) (c : Command)
    (hc : ∀ r, c = .call r → r.Admissible) : Inv (w.step act i c) := by
  have hd : Does w.shared (w.loc i) (w.step act i c).shared (act c w.shared (w.loc i)).2 :=
    act_does c
  have hreq := h.requests i
  obtain ⟨m, hm⟩ := h.models
  have howned : Owned hold view (w.step act i c) := h.owned.step (hd.move h.inner h.models hreq)
  have hrequests : ∀ j r, ((w.step act i c).loc j).frame.request = some r → r.Admissible := by
    intro j r hj
    by_cases hji : j = i
    · subst hji
      rw [World.step_loc_self] at hj
      rcases act_request c hj with hold | hcall
      · exact hreq r hold
      · exact hc r hcall
    · rw [World.step_loc_of_ne hji] at hj
      exact h.requests j r hj
  -- Outside the lock nothing of the shard that the invariant speaks of changes.
  have outside : ((w.step act i c).shared.shard.inner = w.shared.shard.inner ∧
      (w.step act i c).shared.shard.liveHint = w.shared.shard.liveHint) →
      ((w.loc i).frame.storing = true ↔ (act c w.shared (w.loc i)).2.frame.storing = true) →
      ((w.loc i).frame.storing = true → (act c w.shared (w.loc i)).2.frame = (w.loc i).frame) →
      Inv (w.step act i c) := by
    rintro ⟨hinner, hhint⟩ hiff hsame
    refine ⟨hrequests, by rw [hinner]; exact h.inner, ⟨m, by rw [hinner]; exact hm⟩, howned, ?_, ?_⟩
    · intro j r answer retired hj
      rw [hinner, hhint]
      by_cases hji : j = i
      · subst hji
        rw [World.step_loc_self] at hj
        have hstoring := hiff.mpr (by rw [hj]; rfl)
        rw [hsame hstoring] at hj
        exact h.knows j r answer retired hj
      · rw [World.step_loc_of_ne hji] at hj
        exact h.knows j r answer retired hj
    · intro hnone
      rw [hinner, hhint]
      apply h.hint
      intro j
      by_cases hji : j = i
      · subst hji
        have := hnone j
        rw [World.step_loc_self] at this
        rw [Bool.eq_false_iff] at this ⊢
        exact fun hs => this (hiff.mp hs)
      · have := hnone j
        rwa [World.step_loc_of_ne hji] at this
  cases hd with
  | same hs ht => exact outside ⟨by rw [hs], by rw [hs]⟩ (by rw [ht]) (fun _ => by rw [ht])
  | quiet hinner hhint hlock hstoring hstoring' hholds =>
    exact outside ⟨hinner, hhint⟩ (by rw [hstoring, hstoring']) (fun hs => by simp [hstoring] at hs)
  | acquire r hfree hs ht ht' =>
    exact outside ⟨by rw [hs], by rw [hs]⟩ (by rw [ht, ht']; rfl)
      (fun hs => by simp [ht, Frame.storing] at hs)
  | release r answer retired hs ht ht' =>
    exact outside ⟨by rw [hs], by rw [hs]⟩ (by rw [ht, ht']; rfl)
      (fun hs => by simp [ht, Frame.storing] at hs)
  | store r answer retired hs ht ht' =>
    obtain ⟨hstores, -⟩ := h.knows i r answer retired ht
    have hnone : ∀ j, ((w.step act i c).loc j).frame.storing = false := by
      intro j
      by_cases hji : j = i
      · rw [hji, World.step_loc_self, ht']
        rfl
      · rw [World.step_loc_of_ne hji, Bool.eq_false_iff]
        exact fun hj => hji (h.alone (by rw [ht]; rfl) hj)
    have hinner : (w.step act i c).shared.shard.inner = w.shared.shard.inner := by
      rw [hs, Shard.storeHint_inner]
    refine ⟨hrequests, by rw [hinner]; exact h.inner, ⟨m, by rw [hinner]; exact hm⟩, howned, ?_, ?_⟩
    · intro j r' answer' retired' hj
      have := hnone j
      rw [hj] at this
      cases this
    · intro _
      rw [hs, Shard.storeHint, if_pos hstores]
  | body r grant answer retired shard hlocked hs ht ht' =>
    obtain ⟨m', hdone⟩ := Shard.locked_done h.inner hm (hreq r (by rw [ht]; rfl)) hlocked
    have hother : ∀ j, j ≠ i → ((w.step act i c).loc j).frame.storing = false := by
      intro j hji
      rw [World.step_loc_of_ne hji, Bool.eq_false_iff]
      exact fun hj => hji (h.alone (by rw [ht]; rfl) hj)
    have hwas : w.shared.shard.liveHint = w.shared.shard.inner.live := by
      apply h.hint
      intro j
      by_cases hji : j = i
      · rw [hji, ht]
        rfl
      · rw [← World.step_loc_of_ne hji]
        exact hother j hji
    have hlive := hdone.live
    have hkept := hdone.frame.2.1
    refine ⟨hrequests, by rw [hs]; exact hdone.inv, ⟨m', by rw [hs]; exact hdone.models⟩, howned,
      ?_, ?_⟩
    · intro j r' answer' retired' hj
      by_cases hji : j = i
      · rw [hji, World.step_loc_self, ht'] at hj
        split at hj
        · rename_i hstores
          obtain ⟨rfl, rfl, rfl⟩ : r = r' ∧ answer = answer' ∧ retired = retired' := by
            simpa using hj
          rw [hs]
          refine ⟨hstores, by omega, ?_⟩
          rintro rfl
          have hmeans := hdone.means
          have hmodels := hdone.models
          cases hmeans with
          | @inserted addr d hnew =>
            have ha : IsLive tomb addr = true := hreq (.insert addr d) (by rw [ht]; rfl)
            exact ⟨addr, d, d, rfl, (hmodels.live addr d ha).mp (Function.update_self _ _ _)⟩
        · cases hj
      · have := hother j hji
        rw [hj] at this
        cases this
    · intro hnone
      have hi := hnone i
      rw [World.step_loc_self, ht'] at hi
      rw [hs]
      cases r with
      | insert addr d => cases hi
      | take addr => cases hi
      | peek addr =>
        have hmeans := hdone.means
        cases hmeans
        have htakes : Answer.takes (.descriptor (m addr)) (.peek addr) = 0 := by
          cases m addr <;> rfl
        rw [htakes] at hlive
        change shard.inner.live + 0 = w.shared.shard.inner.live + 0 at hlive
        omega

omit [DecidableEq ι] in
lemma Inv.start : Inv (start ι) where
  requests i r h := by cases h
  inner := Shard.kept_new.inv
  models := ⟨_, Shard.kept_new.models⟩
  owned := {
    mode := fun i s h hh => by simp [hold, ExactObject.start, Frame.holds] at hh
    unique := fun i j s h h' hh => by simp [hold, ExactObject.start, Frame.holds] at hh
    owner := fun s h hh => by simp [view, ExactObject.start, Shard.new] at hh }
  knows i r answer retired h := by cases h
  hint _ := rfl

theorem Inv.run {w : World ι Process Caller} (h : Inv w) (xs : List (ι × Command))
    (hxs : Admissible xs) : Inv (World.run act xs w) := by
  induction xs generalizing w with
  | nil => exact h
  | cons x xs ih =>
    exact ih (h.step x.1 x.2 (hxs x List.mem_cons_self))
      (fun y hy => hxs y (List.mem_cons_of_mem _ hy))

/-- A descriptor is in the slots, and the call that put it there has stored the hint. -/
def Stored (addr : ℕ) (w : World ι Process Caller) : Prop :=
  (∃ d, w.shared.shard.inner.Holds addr d) ∧
    ∀ j d retired, (w.loc j).frame ≠ .storeHint (.insert addr d) (.outcome .inserted) retired

omit [DecidableEq ι] in
/-- The hint counts a descriptor that is there. -/
theorem Inv.hint_ne_zero {w : World ι Process Caller} (h : Inv w) {addr : ℕ}
    (ha : IsLive tomb addr = true) (hs : Stored addr w) : w.shared.shard.liveHint ≠ 0 := by
  obtain ⟨m, hm⟩ := h.models
  obtain ⟨⟨d, hd⟩, hnot⟩ := hs
  obtain ⟨addrs, hmem, hcard⟩ := hm.card h.inner
  have hin : addr ∈ addrs := (hmem addr).mpr (by simp [(hm.live addr d ha).mpr hd])
  have hpos : 0 < addrs.card := Finset.card_pos.mpr ⟨addr, hin⟩
  by_cases hstoring : ∃ j, (w.loc j).frame.storing = true
  · obtain ⟨j, hj⟩ := hstoring
    cases hf : (w.loc j).frame with
    | storeHint r answer retired =>
      obtain ⟨-, hsum, hinserted⟩ := h.knows j r answer retired hf
      by_cases hans : answer = .outcome .inserted
      · obtain ⟨other, d', d'', rfl, hother⟩ := hinserted hans
        subst hans
        have hne : other ≠ addr := by
          rintro rfl
          exact hnot j d' retired hf
        have hlive : IsLive tomb other = true :=
          h.requests j (.insert other d') (by rw [hf]; rfl)
        have hin' : other ∈ addrs :=
          (hmem other).mpr (by simp [(hm.live other d'' hlive).mpr hother])
        have htwo : 1 < addrs.card := Finset.one_lt_card.mpr ⟨other, hin', addr, hin, hne⟩
        change _ + 1 = _ + 0 at hsum
        omega
      · have hadds : answer.adds = 0 := by
          cases answer with
          | outcome o => cases o <;> first | rfl | exact absurd rfl hans
          | descriptor d => rfl
        omega
    | _ =>
      rw [hf] at hj
      cases hj
  · have hall : ∀ j, (w.loc j).frame.storing = false := fun j => by
      rw [Bool.eq_false_iff]
      exact fun hj => hstoring ⟨j, hj⟩
    have := h.hint hall
    omega

/-- No call inserts a descriptor that is there. -/
lemma Stored.step {w : World ι Process Caller} (h : Inv w) {addr : ℕ} (hs : Stored addr w) (i : ι)
    (c : Command) (hkept : ∃ d, (w.step act i c).shared.shard.inner.Holds addr d) :
    Stored addr (w.step act i c) := by
  refine ⟨hkept, fun j d retired hj => ?_⟩
  by_cases hji : j = i
  · subst hji
    rw [World.step_loc_self] at hj
    have hd : Does w.shared (w.loc j) (w.step act j c).shared (act c w.shared (w.loc j)).2 :=
      act_does c
    cases hd with
    | same _ ht => exact hs.2 j d retired (ht ▸ hj)
    | quiet _ _ _ _ hstoring' =>
      rw [hj] at hstoring'
      cases hstoring'
    | acquire _ _ _ _ ht' | store _ _ _ _ _ ht' | release _ _ _ _ _ ht' =>
      rw [ht'] at hj
      cases hj
    | body r grant answer retired' shard hlocked _ ht ht' =>
      rw [ht'] at hj
      split at hj
      · obtain ⟨rfl, rfl, rfl⟩ : r = .insert addr d ∧ answer = .outcome .inserted ∧
            retired' = retired := by simpa using hj
        obtain ⟨m, hm⟩ := h.models
        have ha : Request.Admissible (.insert addr d) := h.requests j _ (by rw [ht]; rfl)
        obtain ⟨m', hdone⟩ := Shard.locked_done h.inner hm ha hlocked
        have hmeans := hdone.means
        cases hmeans with
        | inserted hnew =>
          obtain ⟨⟨d', hd'⟩, -⟩ := hs
          rw [(hm.live addr d' ha).mpr hd'] at hnew
          cases hnew
      · cases hj
  · rw [World.step_loc_of_ne hji] at hj
    exact hs.2 j d retired hj

/-- A descriptor that stays in the slots is not hidden later. -/
theorem Stored.run {w : World ι Process Caller} (h : Inv w) {addr : ℕ} (hs : Stored addr w)
    (ys : List (ι × Command)) (hys : Admissible ys)
    (hkept : ∀ n ≤ ys.length, ∃ d, (World.run act (ys.take n) w).shared.shard.inner.Holds addr d) :
    Stored addr (World.run act ys w) := by
  induction ys generalizing w with
  | nil => exact hs
  | cons y ys ih =>
    have hstep : Stored addr (w.step act y.1 y.2) := hs.step h y.1 y.2 (hkept 1 (by simp))
    apply ih (h.step y.1 y.2 (hys y List.mem_cons_self)) hstep
      (fun x hx => hys x (List.mem_cons_of_mem _ hx))
    intro n hn
    exact hkept (n + 1) (by simpa using hn)

/-! ## The table -/

/-- A shard that holds the map: both counters are exact, a quarter of the slots was never used, and
every array was freed once or is the current one. -/
structure Exact (sh : Shard) (m : ℕ → Option Descriptor) : Prop where
  models : Models sh.inner m
  live : ∃ addrs : Finset ℕ, (∀ a, a ∈ addrs ↔ m a ≠ none) ∧ addrs.card = sh.inner.live
  used : sh.inner.used = CellCount.count Slot.isUsed sh.inner.slots sh.inner.cap
  quarter : sh.inner.used * 4 ≤ sh.inner.cap * 3
  arrays : ArraysExact sh

lemma Kept.exact {sh : Shard} {m : ℕ → Option Descriptor} (h : Kept sh m) : Exact sh m where
  models := h.models
  live := h.models.card h.inv
  used := by
    rcases h.inv with ⟨-, h0, hused, -⟩ | ⟨-, hsound, -, -⟩
    · rw [h0, hused]
      rfl
    · exact hsound.used
  quarter := by
    rcases h.inv with ⟨-, -, hused, -⟩ | ⟨-, -, -, hquarter⟩
    · rw [hused]
      omega
    · exact hquarter
  arrays := h.arrays

/-- Along every sequence of calls a shard is the map that its answers tell, whatever memory is
refused, and the next call answers by it: an insertion is out of memory just when it needs a rehash
that is refused, and else a duplicate just when the address is live. A table of shards is one shard
for each call. No lookup is stopped by the hint while the descriptor is there. -/
theorem table_exact (ι : Type) [DecidableEq ι] :
    (∀ calls : List (Request × Bool), (∀ c ∈ calls, c.1.Admissible) →
      (∃ before c after answers sh, calls = before ++ c :: after ∧
        Shard.calls before Shard.new = .ok (answers, sh) ∧ sh.inner.newCap = 2 ^ 58 ∧
        ∃ text, Shard.calls calls Shard.new = .error (.fatal text)) ∨
      ∃ answers sh m, Shard.calls calls Shard.new = .ok (answers, sh) ∧
        MeansAll (fun _ => none) (calls.map Prod.fst) answers m ∧ Exact sh m ∧
        ∀ grant r, r.Admissible →
          (sh.inner.newCap = 2 ^ 58 ∧ ∃ text, sh.call grant r = .error (.fatal text)) ∨
          ∃ answer sh' m', sh.call grant r = .ok (answer, sh') ∧
            Called sh m grant r answer sh' m') ∧
    (∀ calls answers shards, tableCalls calls (fun _ => Shard.new) = .ok (answers, shards) → ∀ k,
      ∃ answers', Shard.calls (calls.filter fun c => hash c.1.addr &&& (64 - 1) = k) Shard.new =
        .ok (answers', shards k)) ∧
    ∀ xs ys : List (ι × Command), Admissible xs → Admissible ys → ∀ addr,
      IsLive tomb addr = true → Stored addr (World.run act xs (start ι)) →
      (∀ n ≤ ys.length, ∃ d, (World.run act (ys.take n)
        (World.run act xs (start ι))).shared.shard.inner.Holds addr d) →
      (World.run act ys (World.run act xs (start ι))).shared.shard.liveHint ≠ 0 := by
  refine ⟨fun calls hcalls => ?_, ?_, ?_⟩
  · rcases Shard.kept_new.calls calls hcalls with hfatal | ⟨answers, sh, m, hok, hmeans, hkept⟩
    · exact .inl hfatal
    · exact .inr ⟨answers, sh, m, hok, hmeans, hkept.exact, fun grant r hr => hkept.call grant r hr⟩
  · exact fun calls answers shards h k => tableCalls_shard calls _ _ answers h k
  · intro xs ys hxs hys addr ha hstored hkept
    have hinv := (Inv.start (ι := ι)).run xs hxs
    exact (hinv.run ys hys).hint_ne_zero ha (hstored.run hinv ys hys hkept)

/-- Forty-eight addresses fill three quarters of the first array. -/
def fortyEight : List (Request × Bool) :=
  (List.range 48).map fun i => (.insert (8 * (i + 1)) ⟨8, 8, i⟩, true)

lemma fortyEight_admissible : ∀ c ∈ fortyEight, c.1.Admissible :=
  show ∀ c ∈ fortyEight, IsLive tomb c.1.addr = true by decide +kernel

theorem table_exact_fortyEight :
    ∃ answers sh m, Shard.calls fortyEight Shard.new = .ok (answers, sh) ∧ Exact sh m := by
  rcases (table_exact Unit).1 fortyEight fortyEight_admissible with
    ⟨before, c, after, answers, sh, -, -, -, text, herror⟩ | ⟨answers, sh, m, hok, -, hexact, -⟩
  · have hrun : (match Shard.calls fortyEight Shard.new with
        | .ok _ => true
        | .error _ => false) = true := by decide +kernel
    rw [herror] at hrun
    cases hrun
  · exact ⟨answers, sh, m, hok, hexact⟩

/-- The slot `i` has the address 8, and without memory its insertion is refused. -/
def refusesEight (i : ℕ) : Except Stuck (List Answer × Shard) → Bool
  | .error _ => false
  | .ok (_, sh) =>
    decide (i < sh.inner.cap) && decide ((sh.inner.slots i).addr = 8) &&
      match sh.call false (.insert 8 ⟨8, 8, 48⟩) with
      | .ok (.outcome o, _) => decide (o = .oom)
      | _ => false

/-- A live address is not always reported as a duplicate: the rehash that is due comes first. -/
theorem insert_not_duplicate :
    ¬ ∀ calls answers sh, (∀ c ∈ calls, c.1.Admissible) →
      Shard.calls calls Shard.new = .ok (answers, sh) → ∀ addr d grant answer sh',
      IsLive tomb addr = true → sh.call grant (.insert addr d) = .ok (answer, sh') →
      (answer = .outcome .duplicate ↔ ∃ d', sh.inner.Holds addr d') := by
  intro hall
  have hrun : refusesEight (Inner.home 64 8) (Shard.calls fortyEight Shard.new) = true := by
    decide +kernel
  cases hcalls : Shard.calls fortyEight Shard.new with
  | error e =>
    rw [hcalls] at hrun
    cases hrun
  | ok result =>
    obtain ⟨answers, sh⟩ := result
    rw [hcalls] at hrun
    simp only [refusesEight, Bool.and_eq_true, decide_eq_true_eq] at hrun
    obtain ⟨⟨hlt, haddr⟩, hrefused⟩ := hrun
    have hadmissible := fortyEight_admissible
    generalize Inner.home 64 8 = i at hlt haddr
    cases hcall : sh.call false (.insert 8 ⟨8, 8, 48⟩) with
    | error e =>
      rw [hcall] at hrefused
      cases hrefused
    | ok result =>
      obtain ⟨answer, sh'⟩ := result
      have hiff := hall _ _ _ hadmissible hcalls 8 ⟨8, 8, 48⟩ false answer sh' (by decide) hcall
      have hslot : sh.inner.slots i = ⟨8, (sh.inner.slots i).size, (sh.inner.slots i).align,
          (sh.inner.slots i).generation⟩ := by
        rw [← haddr]
      have hdup := hiff.mpr ⟨(sh.inner.slots i).descriptor, i, hlt, hslot⟩
      rw [hcall, hdup] at hrefused
      cases hrefused

end SeferAlloc.ExactObject
