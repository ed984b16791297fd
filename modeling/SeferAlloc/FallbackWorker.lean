import SeferAlloc.FallbackHeapSteps
import Mathlib.Data.List.Chain

/-!
# The worker of the fallback heap

The service is started once: a starter, a spawned thread or the worker is in
charge of it, one after the other. The worker counts its visits by what the lock
was used for in between, and what it counts is how long nobody else was there.
-/
namespace SeferAlloc
namespace FallbackHeap
open Interleaving

variable {γ H : Type*}

/-! ## The service -/

def Call.visits : Call γ → Bool
  | .visit _ => true
  | _ => false

/-- The call that a thread tries the lock for, or has it for. -/
def Pc.call : Pc γ H → Option (Call γ)
  | .tryLoad call | .tryAcquire call | .acquired call | .enter call | .inside call _
  | .leave call _ => some call
  | _ => none

/-- How far the service is with the thread that is in charge of it. -/
def Pc.office (pc : Pc γ H) : Option ServiceState :=
  match pc with
  | .spawning | .announce => some .starting
  | .sample | .unwinding => some .running
  | pc => if pc.call.any Call.visits then some .running else none

def office (t : Thread γ H) : Option (Unit × ServiceState) := t.pc.office.map ((), ·)

/-- The state of the service while a thread is in charge of it. -/
def inOffice (x : Statics H) (_ : Unit) : Option ServiceState :=
  if x.spawned = 0 ∧ x.state ≠ .idle then some x.state else none

/-- What an action can do to the service. -/
inductive Serves (x : Statics H) (pc : Pc γ H) (x' : Statics H) (pc' : Pc γ H) : Prop
  | keep (hs : x'.state = x.state) (hn : x'.spawned = x.spawned) (ho : pc'.office = pc.office)
  | claim (hidle : x.state = .idle) (hs : x'.state = .starting) (hn : x'.spawned = x.spawned)
      (ho : pc.office = none) (ho' : pc'.office = some .starting)
  | spawn (hs : x'.state = x.state) (hn : x'.spawned = x.spawned + 1)
      (ho : pc.office = some .starting) (ho' : pc'.office = none)
  | fail (hs : x'.state = .idle) (hn : x'.spawned = x.spawned)
      (ho : pc.office = some .starting) (ho' : pc'.office = none)
  | begin (hs : x'.state = x.state) (hn : x.spawned = x'.spawned + 1)
      (ho : pc.office = none) (ho' : pc'.office = some .starting)
  | announce (hs : x'.state = .running) (hn : x'.spawned = x.spawned)
      (ho : pc.office = some .starting) (ho' : pc'.office = some .running)

variable {x x' : Statics H} {t t' : Thread γ H} {liveConfigMatches : H → γ → Bool} {c : Chance γ H}

lemma office_refused (call : Call γ) :
    (t.refused call).pc.office = if call.visits then some .running else none := by
  cases call <;> rfl

lemma begin_serves (request : Request γ) (hpc : t.pc = .idle) :
    Serves x t.pc (begin request x t).1 (begin request x t).2.pc := by
  rw [hpc]
  cases request with
  | rest => exact .keep rfl rfl (by simp [begin, hpc])
  | withHeap config | tryWithHeap => exact .keep rfl rfl rfl
  | start =>
    simp only [begin]
    cases hs : x.state with
    | idle => exact .claim hs rfl rfl rfl rfl
    | starting | running => exact .keep rfl rfl rfl
  | begin =>
    simp only [begin]
    split_ifs with hn
    · exact .keep rfl rfl (by rw [hpc])
    · exact .begin rfl (Nat.succ_pred_eq_of_ne_zero hn).symm rfl rfl

/-- Every action does one of these. -/
lemma act_serves (hk : Knows x.part t.pc) :
    Serves x t.pc (act liveConfigMatches c x t).1 (act liveConfigMatches c x t).2.pc := by
  rw [act]
  split_ifs
  · exact .keep rfl rfl rfl
  cases hpc : t.pc with
  | idle =>
    simp only [advance, hpc]
    exact hpc ▸ begin_serves c.request hpc
  | load config =>
    simp only [advance, hpc, goto_pc]
    split_ifs <;> exact .keep rfl rfl rfl
  | compareExchange config =>
    simp only [advance, hpc]
    split_ifs <;> exact .keep rfl rfl rfl
  | init config =>
    simp only [advance, hpc, goto_pc]
    cases c.new <;> exact .keep rfl rfl rfl
  | write | publish | rollback | inside =>
    simp only [advance, hpc]
    exact .keep rfl rfl rfl
  | wait config spins =>
    simp only [advance, hpc]
    split_ifs
    all_goals exact .keep rfl rfl (by first | rfl | rw [hpc])
  | acquire config spins rounds | spin config spins rounds =>
    simp only [advance, hpc]
    split_ifs <;> exact .keep rfl rfl rfl
  | tryLoad call =>
    simp only [advance, hpc]
    split_ifs
    · exact .keep rfl rfl rfl
    · exact .keep rfl rfl (office_refused call)
  | tryAcquire call =>
    simp only [advance, hpc]
    split_ifs
    · exact .keep rfl rfl (office_refused call)
    · exact .keep rfl rfl rfl
  | acquired call =>
    simp only [advance, hpc]
    cases call <;> exact .keep rfl rfl rfl
  | enter call =>
    simp only [advance, hpc]
    rw [hpc] at hk
    cases hf : x.fallback with
    | none => exact absurd hf hk.heap
    | some h =>
      obtain ⟨n, hn⟩ := compare_eq liveConfigMatches x call h
      simp only [hn]
      exact .keep rfl rfl rfl
  | leave call unwound =>
    simp only [advance, hpc]
    cases call <;> cases unwound <;> exact .keep rfl rfl rfl
  | undefined =>
    rw [hpc] at hk
    exact hk.elim
  | spawning =>
    simp only [advance, hpc]
    split_ifs
    · exact .spawn rfl rfl rfl rfl
    · exact .fail rfl rfl rfl rfl
  | confirm =>
    simp only [advance, hpc]
    split_ifs
    all_goals exact .keep rfl rfl (by first | rfl | rw [hpc])
  | unwinding =>
    simp only [advance, hpc]
    exact .keep rfl rfl rfl
  | announce =>
    simp only [advance, hpc]
    exact .announce rfl rfl rfl rfl
  | sample =>
    simp only [advance, hpc]
    exact .keep rfl rfl rfl

/-- At most one thread was spawned that has not begun, and only for a service that starts. -/
structure Statics.Staffed (x : Statics H) : Prop where
  le_one : x.spawned ≤ 1
  starting : x.spawned ≠ 0 → x.state = .starting

lemma inOffice_eq_some {s : ServiceState} :
    inOffice x () = some s ↔ x.spawned = 0 ∧ x.state ≠ .idle ∧ x.state = s := by
  rw [inOffice]
  split_ifs with h
  · simp [h]
  · simp only [false_iff]
    exact fun hs => h ⟨hs.1, hs.2.1⟩

lemma inOffice_eq_none : inOffice x () = none ↔ x.spawned = 0 → x.state = .idle := by
  rw [inOffice]
  split_ifs with h
  · simp [h]
  · simpa using h

lemma office_of_some {s : ServiceState} (h : t.pc.office = some s) : office t = some ((), s) := by
  rw [office, h]
  rfl

lemma office_of_none (h : t.pc.office = none) : office t = none := by rw [office, h]; rfl

lemma inOffice_update {s : Option ServiceState} (h : inOffice x' () = s) :
    inOffice x' = Function.update (inOffice x) () s := by
  funext u
  rw [Function.update_self]
  exact h

/-- An action is a move of the service. -/
lemma Serves.move (hs : Serves x t.pc x' t'.pc) (hst : x.Staffed)
    (hm : ∀ s, t.pc.office = some s → inOffice x () = some s) :
    Move office inOffice x x' t t' := by
  cases hs with
  | keep hs hn ho =>
    exact .keep (funext fun _ => by rw [inOffice, inOffice, hs, hn]) (by rw [office, office, ho])
  | claim hidle hs hn ho ho' =>
    have hzero : x.spawned = 0 := by
      by_contra hne
      exact absurd (hst.starting hne) (by rw [hidle]; decide)
    refine .acquire () .starting (office_of_none ho) (inOffice_eq_none.mpr fun _ => hidle)
      (inOffice_update ?_) (office_of_some ho')
    exact inOffice_eq_some.mpr ⟨hn.trans hzero, by rw [hs]; decide, hs⟩
  | spawn hs hn ho ho' =>
    refine .release () .starting (office_of_some ho) (inOffice_update ?_) (office_of_none ho')
    exact inOffice_eq_none.mpr fun h0 => absurd (hn.symm.trans h0) (Nat.succ_ne_zero _)
  | fail hs hn ho ho' =>
    refine .release () .starting (office_of_some ho) (inOffice_update ?_) (office_of_none ho')
    exact inOffice_eq_none.mpr fun _ => hs
  | begin hs hn ho ho' =>
    have hone := hst.le_one
    have hstarting := hst.starting (by omega)
    refine .acquire () .starting (office_of_none ho) (inOffice_eq_none.mpr (by omega))
      (inOffice_update ?_) (office_of_some ho')
    exact inOffice_eq_some.mpr ⟨by omega, by rw [hs, hstarting]; decide, hs.trans hstarting⟩
  | announce hs hn ho ho' =>
    have hzero := (inOffice_eq_some.mp (hm _ ho)).1
    refine .change () .starting .running (office_of_some ho) (inOffice_update ?_)
      (office_of_some ho')
    exact inOffice_eq_some.mpr ⟨hn.trans hzero, by rw [hs]; decide, hs⟩

lemma Serves.staffed {pc pc' : Pc γ H} (hs : Serves x pc x' pc') (hst : x.Staffed)
    (hm : ∀ s, pc.office = some s → inOffice x () = some s) : x'.Staffed := by
  have hone := hst.le_one
  cases hs with
  | keep hs hn ho => exact ⟨hn.trans_le hone, fun h => hs.trans (hst.starting (hn ▸ h))⟩
  | claim hidle hs hn ho ho' => exact ⟨hn.trans_le hone, fun _ => hs⟩
  | spawn hs hn ho ho' =>
    obtain ⟨hzero, -, hstate⟩ := inOffice_eq_some.mp (hm _ ho)
    exact ⟨by omega, fun _ => hs.trans hstate⟩
  | fail hs hn ho ho' | announce hs hn ho ho' =>
    obtain ⟨hzero, -, hstate⟩ := inOffice_eq_some.mp (hm _ ho)
    exact ⟨by omega, fun h => absurd (hn.trans hzero) h⟩
  | begin hs hn ho ho' => exact ⟨by omega, fun h => absurd h (by omega)⟩

/-- A service that runs goes on running. -/
lemma Serves.running {pc pc' : Pc γ H} (hs : Serves x pc x' pc')
    (hm : ∀ s, pc.office = some s → inOffice x () = some s) (hr : x.state = .running) :
    x'.state = .running := by
  cases hs with
  | keep hs hn ho | begin hs hn ho ho' | spawn hs hn ho ho' => exact hs.trans hr
  | claim hidle hs hn ho ho' => exact absurd (hidle.symm.trans hr) (by decide)
  | fail hs hn ho ho' =>
    exact absurd ((inOffice_eq_some.mp (hm _ ho)).2.2.symm.trans hr) (by decide)
  | announce hs hn ho ho' => exact hs

/-- A start is answered once the service runs. -/
lemma act_told (h : (act liveConfigMatches c x t).2.answer = some .started) :
    t.answer = some .started ∨ x.state = .running := by
  rw [act] at h
  split_ifs at h
  · exact .inl h
  revert h
  cases hpc : t.pc with
  | idle =>
    simp only [advance, hpc]
    cases c.request with
    | rest | withHeap config | tryWithHeap => exact .inl
    | start =>
      simp only [begin]
      cases hs : x.state with
      | idle => exact .inl
      | starting => exact fun h => by cases h
      | running => exact fun _ => .inr rfl
    | begin =>
      simp only [begin]
      split_ifs <;> exact .inl
  | load | compareExchange | init | write | publish | acquire | undefined | announce | sample
  | unwinding =>
    simp only [advance, hpc]
    try split_ifs
    all_goals exact .inl
  | rollback unwound =>
    simp only [advance, hpc]
    cases unwound <;> exact fun h => by cases h
  | wait | spin =>
    simp only [advance, hpc]
    split_ifs
    all_goals first | exact .inl | exact fun h => by cases h
  | tryLoad call | tryAcquire call =>
    simp only [advance, hpc]
    split_ifs
    all_goals first | exact .inl | (cases call <;> first | exact .inl | exact fun h => by cases h)
  | acquired | inside =>
    simp only [advance, hpc]
    exact .inl
  | enter call =>
    simp only [advance, hpc]
    cases x.fallback <;> exact .inl
  | leave call unwound =>
    simp only [advance, hpc]
    cases call <;> cases unwound <;> first | exact .inl | exact fun h => by cases h
  | spawning =>
    simp only [advance, hpc]
    split_ifs
    · exact .inl
    · exact fun h => by cases h
  | confirm =>
    simp only [advance, hpc]
    split_ifs with hr
    · exact fun _ => .inr hr
    · exact .inl
    · exact .inl

/-! ## The visits -/

/-- What an action can do to the counts of the lock. -/
inductive Counts (x : Statics H) (pc : Pc γ H) (x' : Statics H) : Prop
  | keep (hn : ∀ call, pc = .acquired call → x.aborted = true)
      (hl : x'.lockAcquisitions = x.lockAcquisitions) (hv : x'.visits = x.visits)
      (ho : x'.others = x.others)
  | visit (trim : Bool) (hpc : pc = .acquired (.visit trim))
      (hl : x'.lockAcquisitions = (x.lockAcquisitions + 1) % 2 ^ 64) (hv : x'.visits = x.visits + 1)
      (ho : x'.others = x.others)
  | other (call : Call γ) (hpc : pc = .acquired call) (hc : call.visits = false)
      (hl : x'.lockAcquisitions = (x.lockAcquisitions + 1) % 2 ^ 64) (hv : x'.visits = x.visits)
      (ho : x'.others = x.others + 1)

/-- Every action does one of these. -/
lemma act_counts : Counts x t.pc (act liveConfigMatches c x t).1 := by
  rw [act]
  split_ifs with ha
  · exact .keep (fun _ _ => ha) rfl rfl rfl
  cases hpc : t.pc with
  | acquired call =>
    simp only [advance, hpc]
    cases call with
    | visit trim => exact .visit trim rfl rfl rfl rfl
    | withHeap | tryWithHeap => exact .other _ rfl rfl rfl rfl rfl
  | enter call =>
    simp only [advance, hpc]
    cases x.fallback with
    | none => exact .keep (fun _ h => by cases h) rfl rfl rfl
    | some h =>
      obtain ⟨n, hn⟩ := compare_eq liveConfigMatches x call h
      simp only [hn]
      exact .keep (fun _ h => by cases h) rfl rfl rfl
  | idle =>
    simp only [advance, hpc]
    cases c.request with
    | rest | withHeap | tryWithHeap => exact .keep (fun _ h => by cases h) rfl rfl rfl
    | start =>
      simp only [begin]
      cases x.state <;> exact .keep (fun _ h => by cases h) rfl rfl rfl
    | begin =>
      simp only [begin]
      split_ifs <;> exact .keep (fun _ h => by cases h) rfl rfl rfl
  | leave call unwound =>
    simp only [advance, hpc]
    cases call <;> cases unwound <;> exact .keep (fun _ h => by cases h) rfl rfl rfl
  | load | init | write | publish | rollback | tryLoad | inside | undefined | announce | sample
  | unwinding =>
    simp only [advance, hpc]
    exact .keep (fun _ h => by cases h) rfl rfl rfl
  | compareExchange | wait | acquire | spin | tryAcquire | spawning | confirm =>
    simp only [advance, hpc]
    split_ifs <;> exact .keep (fun _ h => by cases h) rfl rfl rfl

/-- The lock was counted whenever it was taken. -/
def Statics.Counted (x : Statics H) : Prop :=
  x.lockAcquisitions = (x.others + x.visits) % 2 ^ 64

lemma Counts.counted {pc : Pc γ H} (hc : Counts x pc x') (h : x.Counted) : x'.Counted := by
  unfold Statics.Counted at *
  cases hc with
  | keep hn hl hv ho => rw [hl, hv, ho, h]
  | visit trim hpc hl hv ho => rw [hl, hv, ho, h, Nat.mod_add_mod, Nat.add_assoc]
  | other call hpc hc hl hv ho => rw [hl, hv, ho, h, Nat.mod_add_mod, Nat.add_right_comm]

lemma Counts.mono {pc : Pc γ H} (hc : Counts x pc x') :
    x.visits ≤ x'.visits ∧ x.others ≤ x'.others ∧
      x'.others + x'.visits ≤ x.others + x.visits + 1 := by
  cases hc <;> omega

/-- How many samples in a row saw nobody else at the heap: the number of visits up to the last one
that did not take the lock, or behind which somebody else took it. -/
def streak (seen : ℕ) : List (ℕ × Bool) → ℕ
  | [] => 1
  | (s, took) :: finished => if s < seen then 0 else if took then streak s finished + 1 else 1

/-- The others' counts at the samples never fall. -/
def Rising (seen : ℕ) (finished : List (ℕ × Bool)) : Prop :=
  (seen :: finished.map Prod.fst).IsChain (· ≥ ·)

/-- A streak is a row of visits that took the lock while the others' count stood still. -/
lemma succ_le_streak (n : ℕ) {seen : ℕ} {finished : List (ℕ × Bool)} (h : Rising seen finished) :
    n + 1 ≤ streak seen finished ↔ ∃ rest, finished = List.replicate n (seen, true) ++ rest ∧
      ∀ v ∈ rest.head?, v.1 = seen := by
  induction n generalizing seen finished with
  | zero =>
    cases finished with
    | nil => simp [streak]
    | cons v finished =>
      obtain ⟨s, took⟩ := v
      have hge : seen ≥ s := (List.isChain_cons_cons.mp h).1
      simp only [List.replicate_zero, List.nil_append, exists_eq_left', List.head?_cons,
        Option.mem_def, Option.some.injEq, forall_eq', streak]
      split_ifs <;> omega
  | succ n ih =>
    cases finished with
    | nil => simp [streak, List.replicate_succ]
    | cons v finished =>
      obtain ⟨s, took⟩ := v
      obtain ⟨hge, hrest⟩ := List.isChain_cons_cons.mp h
      have hge : seen ≥ s := hge
      rw [streak]
      split_ifs with hlt ht
      · simp [List.replicate_succ, hlt.ne]
      · obtain rfl : s = seen := le_antisymm hge (not_lt.mp hlt)
        subst ht
        rw [Nat.succ_le_succ_iff, ih hrest]
        simp [List.replicate_succ]
      · simp [List.replicate_succ, ht]

/-- No count has wrapped. -/
def Statics.Few (x : Statics H) : Prop := x.others + x.visits < 2 ^ 64

/-- The locals of the worker in a visit, which has taken the lock `took` times. -/
structure Worker.Visiting (x : Statics H) (took : ℕ) (trim : Bool) (w : Worker) : Prop where
  locks : ∃ v, x.visits = v + took ∧ w.prevLocks = some ((w.seen + v) % 2 ^ 64)
  rising : Rising w.seen w.finished
  seen : w.seen ≤ x.others
  idle : x.Few → w.idle = min (streak w.seen w.finished) (2 ^ 64 - 1)
  trim : trim = decide (fallbackIdleVisits ≤ w.idle)

/-- The locals of the worker between two visits. -/
inductive Worker.Resting (x : Statics H) (w : Worker) : Prop
  | new (hl : w.prevLocks = none) (hf : w.finished = []) (hi : w.idle = 0)
  | visited (v : ℕ) (finished : List (ℕ × Bool)) (hv : x.visits = v + w.selfAcquired.toNat)
      (hl : w.prevLocks = some ((w.seen + v) % 2 ^ 64))
      (hf : w.finished = (w.seen, w.selfAcquired) :: finished) (hr : Rising w.seen finished)
      (hs : w.seen ≤ x.others)
      (hi : x.Few → w.idle = if w.selfAcquired then min (streak w.seen finished) (2 ^ 64 - 1) else 0)

/-- What the locals of the worker are where it is. -/
def Works (x : Statics H) (t : Thread γ H) : Prop :=
  match t.pc with
  | .sample => t.worker.Resting x
  | .tryLoad (.visit trim) | .tryAcquire (.visit trim) | .acquired (.visit trim) =>
    t.worker.Visiting x 0 trim
  | .enter (.visit trim) | .inside (.visit trim) _ | .leave (.visit trim) _ =>
    t.worker.Visiting x 1 trim
  | _ => True

variable {worker : Worker} {took : ℕ} {trim : Bool}

lemma Statics.Few.before (h : x'.Few) (hv : x.visits ≤ x'.visits) (ho : x.others ≤ x'.others) :
    x.Few := by
  unfold Statics.Few at *
  omega

lemma Worker.Visiting.mono (h : worker.Visiting x took trim) (hv : x'.visits = x.visits)
    (ho : x.others ≤ x'.others) : worker.Visiting x' took trim := by
  obtain ⟨v, hv', hl⟩ := h.locks
  exact ⟨⟨v, hv.trans hv', hl⟩, h.rising, h.seen.trans ho,
    fun hf => h.idle (hf.before hv.ge ho), h.trim⟩

lemma Worker.Resting.mono (h : worker.Resting x) (hv : x'.visits = x.visits)
    (ho : x.others ≤ x'.others) : worker.Resting x' := by
  cases h with
  | new hl hf hi => exact .new hl hf hi
  | visited v finished hv' hl hf hr hs hi =>
    exact .visited v finished (hv.trans hv') hl hf hr (hs.trans ho) fun h => hi (h.before hv.ge ho)

lemma min_succ_min (a m : ℕ) : min (min a m + 1) m = min (a + 1) m := by omega

/-- A sample begins a visit: the worker counts exactly the visits nobody interrupted. -/
lemma Worker.Resting.sample (h : worker.Resting x) (hc : x.Counted) :
    (worker.sample x.lockAcquisitions x.others).Visiting x 0
      (fallbackIdleVisits ≤ (worker.sample x.lockAcquisitions x.others).idle) := by
  have hlocks : some x.lockAcquisitions = some ((x.others + x.visits) % 2 ^ 64) := congrArg some hc
  cases h with
  | new hl hf hi =>
    refine ⟨⟨x.visits, rfl, hlocks⟩, ?_, le_rfl, fun _ => ?_, rfl⟩
    · simp only [Worker.sample, hf]
      exact List.isChain_singleton _
    · simp [Worker.sample, hl, hf, hi, streak]
  | visited v finished hv hl hf hr hs hi =>
    refine ⟨⟨x.visits, rfl, hlocks⟩, ?_, le_rfl, fun hfew => ?_, rfl⟩
    · simp only [Worker.sample, hf]
      exact List.isChain_cons_cons.mpr ⟨hs, hr⟩
    · have hidle := hi hfew
      unfold Statics.Few at hfew
      -- Nothing has wrapped, so the difference is what the others did and the worker's own visit.
      have hnow : x.lockAcquisitions = x.others + x.visits := hc.trans (Nat.mod_eq_of_lt hfew)
      have hprev : (worker.seen + v) % 2 ^ 64 = worker.seen + v := Nat.mod_eq_of_lt (by omega)
      have hactive : worker.selfAcquired.toNat < x.lockAcquisitions - (worker.seen + v) ↔
          worker.seen < x.others := by omega
      simp only [Worker.sample, hl, hf, hprev, hactive, streak, hidle, decide_eq_true_eq]
      split_ifs
      · exact (Nat.zero_min _).symm
      · exact min_succ_min _ _
      · rfl

/-- A visit ends. -/
lemma Worker.Visiting.visited (took : Bool) (h : t.worker.Visiting x took.toNat trim) :
    (t.visited took).worker.Resting x := by
  obtain ⟨v, hv, hl⟩ := h.locks
  refine .visited v t.worker.finished hv hl rfl h.rising h.seen fun hf => ?_
  cases took with
  | false => rfl
  | true => exact h.idle hf

lemma refused_works (call : Call γ) (h : ∀ trim, call = .visit trim → t.worker.Visiting x 0 trim) :
    Works x (t.refused call) := by
  cases call with
  | withHeap | tryWithHeap => trivial
  | visit trim => exact (h trim rfl).visited false

lemma leave_works (call : Call γ) (unwound : Bool)
    (h : ∀ trim, call = .visit trim → t.worker.Visiting x 1 trim) :
    Works (leave call unwound x t).1 (leave call unwound x t).2 := by
  cases call with
  | withHeap | tryWithHeap => cases unwound <;> trivial
  | visit trim =>
    cases unwound with
    | true => trivial
    | false => exact ((h trim rfl).visited true).mono rfl le_rfl

/-- The actor's locals stay right. -/
lemma act_works (hw : Works x t) (hc : x.Counted) (hk : Knows x.part t.pc) :
    Works (act liveConfigMatches c x t).1 (act liveConfigMatches c x t).2 := by
  rw [act]
  split_ifs
  · exact hw
  cases hpc : t.pc with
  | idle =>
    simp only [advance, hpc]
    cases c.request with
    | rest => simpa [begin] using hw
    | withHeap | tryWithHeap => trivial
    | start =>
      simp only [begin]
      cases x.state <;> trivial
    | begin =>
      simp only [begin]
      split_ifs
      · exact hw
      · trivial
  | load | compareExchange | acquire =>
    simp only [advance, hpc]
    split_ifs <;> trivial
  | init =>
    simp only [advance, hpc]
    cases c.new <;> trivial
  | write | publish | rollback =>
    simp only [advance, hpc]
    trivial
  | wait | confirm =>
    simp only [advance, hpc]
    split_ifs
    all_goals first | trivial | simp [Works, hpc]
  | unwinding =>
    simp only [advance, hpc]
    simp [Works, hpc]
  | spin | spawning =>
    simp only [advance, hpc]
    split_ifs <;> trivial
  | tryLoad call =>
    simp only [advance, hpc]
    have hvisit : ∀ trim, call = .visit trim → t.worker.Visiting x 0 trim := by
      rintro trim rfl
      simpa [Works, hpc] using hw
    split_ifs
    · cases call with
      | withHeap | tryWithHeap => trivial
      | visit trim => exact hvisit trim rfl
    · exact refused_works call hvisit
  | tryAcquire call =>
    simp only [advance, hpc]
    have hvisit : ∀ trim, call = .visit trim → t.worker.Visiting x 0 trim := by
      rintro trim rfl
      simpa [Works, hpc] using hw
    split_ifs
    · exact refused_works call hvisit
    · cases call with
      | withHeap | tryWithHeap => trivial
      | visit trim => exact (hvisit trim rfl).mono rfl le_rfl
  | acquired call =>
    simp only [advance, hpc]
    cases call with
    | withHeap | tryWithHeap => trivial
    | visit trim =>
      have h : t.worker.Visiting x 0 trim := by simpa [Works, hpc] using hw
      obtain ⟨v, hv, hl⟩ := h.locks
      exact ⟨⟨v, congrArg (· + 1) hv, hl⟩, h.rising, h.seen,
        fun hf => h.idle (hf.before (Nat.le_succ _) le_rfl), h.trim⟩
  | enter call =>
    simp only [advance, hpc]
    rw [hpc] at hk
    cases hf : x.fallback with
    | none => exact absurd hf hk.heap
    | some h =>
      cases call with
      | withHeap | tryWithHeap => trivial
      | visit trim =>
        have hw : t.worker.Visiting x 1 trim := by simpa [Works, hpc] using hw
        exact hw.mono rfl le_rfl
  | inside call h =>
    simp only [advance, hpc]
    cases call with
    | withHeap | tryWithHeap => trivial
    | visit trim =>
      have hw : t.worker.Visiting x 1 trim := by simpa [Works, hpc] using hw
      exact hw.mono rfl le_rfl
  | leave call unwound =>
    simp only [advance, hpc]
    refine leave_works call unwound ?_
    rintro trim rfl
    simpa [Works, hpc] using hw
  | undefined =>
    rw [hpc] at hk
    exact hk.elim
  | announce =>
    simp only [advance, hpc]
    exact .new rfl rfl rfl
  | sample =>
    simp only [advance, hpc]
    have hrest : t.worker.Resting x := by simpa [Works, hpc] using hw
    exact hrest.sample hc

/-- Others may take the lock meanwhile, but not for a visit. -/
lemma Works.mono (h : Works x t) (hv : x'.visits = x.visits) (ho : x.others ≤ x'.others) :
    Works x' t := by
  unfold Works at *
  split at h <;> first | exact Worker.Resting.mono h hv ho | exact Worker.Visiting.mono h hv ho | trivial

end FallbackHeap

end SeferAlloc
