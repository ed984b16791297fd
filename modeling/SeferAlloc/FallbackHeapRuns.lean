import SeferAlloc.FallbackWorker

/-!
# Runs of the fallback heap

Any number of threads use the heap, one of them may be the worker, and the
process may run out of memory, unwind or exit at any point. What is proved of
one action holds in every state of a run, and no state of a run is stuck.
-/
namespace SeferAlloc
namespace FallbackHeap
open Interleaving

variable {γ H ι : Type*} [DecidableEq ι] {w : World ι (Statics H) (Thread γ H)}
  {liveConfigMatches : H → γ → Bool}

/-! ## The heap -/

/-- The heap has one user at a time. -/
structure Exact (w : World ι (Statics H) (Thread γ H)) : Prop where
  lock : w.shared.lock = true ↔ ∃ i, (w.loc i).pc.key = some .lock
  init : w.shared.initState = .initializing ↔ ∃ i, (w.loc i).pc.key = some .init
  alone : ∀ i j k, (w.loc i).pc.key = some k → (w.loc j).pc.key = some k → i = j
  undisturbed : ∀ i call h, (w.loc i).pc = .inside call h → w.shared.fallback = some h
  written : w.shared.initState = .ready → w.shared.fallback ≠ none
  defined : ∀ i, (w.loc i).pc ≠ .undefined

omit [DecidableEq ι] in
lemma Inv.exact (hi : Inv w) : Exact w := by
  have howner : ∀ k, w.shared.part.taken k = true ↔ ∃ i, (w.loc i).pc.key = some k :=
    fun k => ⟨hi.owner, fun ⟨i, hk⟩ => hi.taken hk⟩
  refine ⟨howner .lock, ?_, fun i j k => hi.unique, fun i call h hpc => ?_, hi.sound.ready,
    fun i hpc => ?_⟩
  · exact decide_eq_true_iff.symm.trans (howner .init)
  · have hk := hi.knows i
    rw [hpc] at hk
    exact hk.2
  · have hk := hi.knows i
    rw [hpc] at hk
    exact hk

/-- In every state of a run the lock and the word of the initialization are taken if and only if a
thread has them, which is one; nobody reads the heap before it is there, and nobody writes it while
another is inside. -/
theorem fallback_exclusive (ι : Type*) [DecidableEq ι] (liveConfigMatches : H → γ → Bool)
    (xs : List (ι × Chance γ H)) : Exact (World.run (act liveConfigMatches) xs (start ι γ H)) :=
  (run_inv liveConfigMatches xs).exact

lemma Inv.later (hi : Inv w) (liveConfigMatches : H → γ → Bool) (ys : List (ι × Chance γ H)) :
    w.shared.part.Later (World.run (act liveConfigMatches) ys w).shared.part := by
  induction ys generalizing w with
  | nil => exact .refl _
  | cons y ys ih =>
    have hstep := (hi.does liveConfigMatches y.1 y.2).later fun k => hi.taken
    exact hstep.trans (ih (hi.step liveConfigMatches y.1 y.2))

/-- A heap that is ready stays ready and is not built again, and at any time the heap is what it was
built as with everything done to it since that was done under the lock, in the order of the lock. -/
theorem fallback_loses_nothing (ι : Type*) [DecidableEq ι] (liveConfigMatches : H → γ → Bool)
    (xs ys : List (ι × Chance γ H)) :
    ∃ w w' : World ι (Statics H) (Thread γ H),
      w = World.run (act liveConfigMatches) xs (start ι γ H) ∧
      w' = World.run (act liveConfigMatches) (xs ++ ys) (start ι γ H) ∧
      w.shared.fallback = w.shared.built.map (fun h => w.shared.done.foldr (fun f h => f h) h) ∧
      (w.shared.initState = .ready → w'.shared.initState = .ready ∧
        w'.shared.built = w.shared.built) ∧
      w.shared.done <:+ w'.shared.done := by
  have hi : Inv (World.run (act liveConfigMatches) xs (start ι γ H)) := run_inv liveConfigMatches xs
  refine ⟨_, _, rfl, rfl, hi.sound.served, ?_⟩
  rw [World.run_append]
  have hl := hi.later liveConfigMatches ys
  exact ⟨fun hr => ⟨hl.ready hr, hl.built hr⟩, hl.done⟩

/-! ## The worker -/

/-- What every state of a run has of the service. -/
structure Attended (w : World ι (Statics H) (Thread γ H)) : Prop where
  inv : Inv w
  owned : Owned office inOffice w
  staffed : w.shared.Staffed
  told : ∀ j, (w.loc j).answer = some .started → w.shared.state = .running
  counted : w.shared.Counted
  works : ∀ j, Works w.shared (w.loc j)

omit [DecidableEq ι] in
lemma Attended.inOffice (ha : Attended w) (j : ι) (s : ServiceState)
    (hs : (w.loc j).pc.office = some s) : inOffice w.shared () = some s :=
  ha.owned.mode j () s (office_of_some hs)

omit [DecidableEq ι] in
lemma Attended.unique (ha : Attended w) {i j : ι} {s s' : ServiceState}
    (h₁ : (w.loc i).pc.office = some s) (h₂ : (w.loc j).pc.office = some s') : i = j :=
  ha.owned.unique i j () s s' (office_of_some h₁) (office_of_some h₂)

omit [DecidableEq ι] in
lemma Attended.owner (ha : Attended w) {s : ServiceState}
    (h : FallbackHeap.inOffice w.shared () = some s) : ∃ j, (w.loc j).pc.office = some s := by
  obtain ⟨j, hj⟩ := ha.owned.owner () s h
  obtain ⟨s', hs, he⟩ := Option.map_eq_some_iff.mp hj
  exact ⟨j, hs.trans (congrArg some (Prod.mk.inj he).2)⟩

lemma works_of_office {x : Statics H} {t : Thread γ H} (h : t.pc.office ≠ some .running) :
    Works x t := by
  unfold Works
  split <;> first | trivial | (rename_i hpc; rw [hpc] at h; exact absurd rfl h)

lemma Attended.step (ha : Attended w) (liveConfigMatches : H → γ → Bool) (i : ι) (c : Chance γ H) :
    Attended (w.step (act liveConfigMatches) i c) := by
  have hserves : Serves w.shared (w.loc i).pc (act liveConfigMatches c w.shared (w.loc i)).1
      (act liveConfigMatches c w.shared (w.loc i)).2.pc := act_serves (ha.inv.knows i)
  have hcounts : Counts w.shared (w.loc i).pc (act liveConfigMatches c w.shared (w.loc i)).1 :=
    act_counts
  have hm := ha.inOffice i
  refine ⟨ha.inv.step liveConfigMatches i c, ha.owned.step (hserves.move ha.staffed hm),
    hserves.staffed ha.staffed hm, ?_, hcounts.counted ha.counted, ?_⟩
  · refine World.step_forall
      (A := fun (x : Statics H) (t : Thread γ H) => t.answer = some .started → x.state = .running)
      ha.told (fun h => ?_) fun j _ ht h => hserves.running hm (ht h)
    obtain h | hr := act_told h
    · exact hserves.running hm (ha.told i h)
    · exact hserves.running hm hr
  · refine World.step_forall ha.works (act_works (ha.works i) ha.counted (ha.inv.knows i))
      fun j hj hw => ?_
    by_cases hrun : (w.loc j).pc.office = some .running
    · refine hw.mono ?_ hcounts.mono.2.1
      cases hcounts with
      | keep hn hl hv ho => exact hv
      | other call hpc hc hl hv ho => exact hv
      | visit trim hpc hl hv ho => exact absurd (ha.unique hrun (by rw [hpc]; rfl)) hj
    · exact works_of_office hrun

omit [DecidableEq ι] in
lemma Attended.start : Attended (start ι γ H) := by
  refine ⟨.start, ⟨?_, ?_, ?_⟩, ⟨Nat.zero_le _, fun h => absurd rfl h⟩, ?_, rfl, fun j => trivial⟩
  · rintro i s h ⟨⟩
  · rintro i j s h h' ⟨⟩
  · rintro s h ⟨⟩
  · rintro j ⟨⟩

lemma run_attended (liveConfigMatches : H → γ → Bool) (xs : List (ι × Chance γ H)) :
    Attended (World.run (act liveConfigMatches) xs (FallbackHeap.start ι γ H)) :=
  World.run_invariant (I := Attended) (fun _ i c ha => ha.step liveConfigMatches i c) xs .start

/-- The service is started once. -/
structure Once (w : World ι (Statics H) (Thread γ H)) : Prop where
  running : w.shared.state = .running ↔ ∃ i, (w.loc i).pc.office = some .running
  starting : w.shared.state = .starting ↔
    w.shared.spawned = 1 ∨ ∃ i, (w.loc i).pc.office = some .starting
  alone : ∀ i j s s', (w.loc i).pc.office = some s → (w.loc j).pc.office = some s' →
    i = j ∧ w.shared.spawned = 0
  told : ∀ i, (w.loc i).answer = some .started → w.shared.state = .running

omit [DecidableEq ι] in
lemma Attended.once (ha : Attended w) : Once w := by
  have hone := ha.staffed.le_one
  have hspawned : w.shared.spawned = 1 → w.shared.state = .starting := fun h =>
    ha.staffed.starting (by omega)
  have hstate : ∀ i s, (w.loc i).pc.office = some s → w.shared.state = s := fun i s hs =>
    (inOffice_eq_some.mp (ha.inOffice i s hs)).2.2
  have howner : w.shared.spawned ≠ 1 → ∀ s, s ≠ .idle → w.shared.state = s →
      ∃ i, (w.loc i).pc.office = some s := fun hne s hs he =>
    ha.owner (inOffice_eq_some.mpr ⟨by omega, he ▸ hs, he⟩)
  refine ⟨⟨fun hr => ?_, fun ⟨i, hi⟩ => hstate i _ hi⟩, ⟨fun hs => ?_, ?_⟩,
    fun i j s s' hi hj => ⟨ha.unique hi hj, (inOffice_eq_some.mp (ha.inOffice i s hi)).1⟩, ha.told⟩
  · refine howner (fun h => ?_) .running (by decide) hr
    exact absurd ((hspawned h).symm.trans hr) (by decide)
  · by_cases h : w.shared.spawned = 1
    · exact .inl h
    · exact .inr (howner h .starting (by decide) hs)
  · rintro (h | ⟨i, hi⟩)
    · exact hspawned h
    · exact hstate i _ hi

/-- In every state of a run at most one thread is in charge of the service, from the start that won to
the worker that runs; a start that was answered found the worker running, and a start that failed
leaves nothing behind. -/
theorem service_starts_once (ι : Type*) [DecidableEq ι] (liveConfigMatches : H → γ → Bool)
    (xs : List (ι × Chance γ H)) : Once (World.run (act liveConfigMatches) xs (start ι γ H)) :=
  (run_attended liveConfigMatches xs).once

lemma run_counts (liveConfigMatches : H → γ → Bool) (xs : List (ι × Chance γ H))
    (w : World ι (Statics H) (Thread γ H)) :
    (World.run (act liveConfigMatches) xs w).shared.others +
      (World.run (act liveConfigMatches) xs w).shared.visits ≤
      w.shared.others + w.shared.visits + xs.length := by
  induction xs generalizing w with
  | nil => exact le_rfl
  | cons y xs ih =>
    have hone : Counts w.shared (w.loc y.1).pc (w.step (act liveConfigMatches) y.1 y.2).shared :=
      act_counts
    have hrest := ih (w.step (act liveConfigMatches) y.1 y.2)
    have hmono := hone.mono.2.2
    rw [World.run, List.length_cons]
    omega

/-- The worker trims the heap in a visit if and only if its last 99 visits took the lock and nobody
else took it from the sample of the visit before these, if there is one, to the last sample. -/
theorem worker_trims_when_quiet (ι : Type*) [DecidableEq ι] (liveConfigMatches : H → γ → Bool)
    (xs : List (ι × Chance γ H)) (hlen : xs.length < 2 ^ 64) :
    ∃ w : World ι (Statics H) (Thread γ H),
      w = World.run (act liveConfigMatches) xs (start ι γ H) ∧
      w.shared.lockAcquisitions = w.shared.others + w.shared.visits ∧
      ∀ i trim, (w.loc i).pc.call = some (.visit trim) →
        (trim = true ↔ ∃ rest, (w.loc i).worker.finished =
          List.replicate 99 ((w.loc i).worker.seen, true) ++ rest ∧
          ∀ v ∈ rest.head?, v.1 = (w.loc i).worker.seen) := by
  have ha : Attended (World.run (act liveConfigMatches) xs (start ι γ H)) :=
    run_attended liveConfigMatches xs
  have hcount := run_counts liveConfigMatches xs (start ι γ H)
  set w := World.run (act liveConfigMatches) xs (start ι γ H)
  have hfew : w.shared.Few := by
    change _ ≤ 0 + 0 + xs.length at hcount
    unfold Statics.Few
    omega
  refine ⟨w, rfl, ha.counted.trans (Nat.mod_eq_of_lt hfew), fun i trim hcall => ?_⟩
  have hvisit : ∃ took, (w.loc i).worker.Visiting w.shared took trim := by
    have hw := ha.works i
    cases hpc : (w.loc i).pc with
    | tryLoad call | tryAcquire call | acquired call | enter call =>
      rw [hpc] at hcall
      obtain rfl := Option.some.inj hcall
      rw [Works, hpc] at hw
      exact ⟨_, hw⟩
    | inside call h | leave call unwound =>
      rw [hpc] at hcall
      obtain rfl := Option.some.inj hcall
      rw [Works, hpc] at hw
      exact ⟨_, hw⟩
    | _ =>
      rw [hpc] at hcall
      cases hcall
  obtain ⟨took, hv⟩ := hvisit
  rw [hv.trim, decide_eq_true_iff, hv.idle hfew, ← succ_le_streak 99 hv.rising, fallbackIdleVisits]
  omega

/-- Everything goes well. -/
def smooth [Inhabited H] : Chance γ H := ⟨.rest, false, .heap default, id, false, true, false⟩

def smoothly [Inhabited H] (request : Request γ) : Chance γ H :=
  { (smooth : Chance γ H) with request := request }

/-- A thread uses the heap once and starts the worker, which is at its hundredth visit. -/
def quietRun : List (Bool × Chance Unit ℕ) :=
  (false, smoothly (.withHeap none)) :: List.replicate 10 (false, smooth) ++
    [(false, smoothly .start), (false, smooth), (true, smoothly .begin), (true, smooth)] ++
    List.replicate (7 * 99 + 1) (true, smooth)

lemma quietRun_length : quietRun.length = 709 := by decide +kernel

lemma quietRun_visit : ((World.run (act fun _ _ => true) quietRun (start Bool Unit ℕ)).loc true).pc.call =
    some (.visit true) := by
  decide +kernel

theorem quietRun_trims : ∃ w : World Bool (Statics ℕ) (Thread Unit ℕ),
    w = World.run (act fun _ _ => true) quietRun (start Bool Unit ℕ) ∧
    (w.loc true).pc.call = some (.visit true) ∧
    w.shared.lockAcquisitions = w.shared.others + w.shared.visits ∧
    ∃ rest, (w.loc true).worker.finished =
        List.replicate 99 ((w.loc true).worker.seen, true) ++ rest ∧
      ∀ v ∈ rest.head?, v.1 = (w.loc true).worker.seen := by
  have hlen : quietRun.length < 2 ^ 64 := quietRun_length.trans_lt (by decide)
  obtain ⟨w, hrun, hlocks, htrim⟩ := worker_trims_when_quiet Bool (fun _ _ => true) quietRun hlen
  have hvisit : (w.loc true).pc.call = some (.visit true) := hrun ▸ quietRun_visit
  exact ⟨w, hrun, hvisit, hlocks, (htrim true true hvisit).mp rfl⟩

/-! ## No state is stuck -/

/-- The thread is in `LockGuard::acquire`. -/
def Pc.acquires : Pc γ H → Bool
  | .acquire .. | .spin .. => true
  | _ => false

/-- The thread waits in `heap_ptr_impl` for another one, or is about to. -/
def Pc.asks : Pc γ H → Bool
  | .load _ | .compareExchange _ | .wait .. => true
  | _ => false

/-- The thread is in `with_heap`, and nothing unwound. -/
def Pc.pending : Pc γ H → Bool
  | .load _ | .compareExchange _ | .init _ | .write .. | .publish _ | .wait .. | .acquire ..
  | .spin .. => true
  | .acquired call | .enter call | .inside call _ | .leave call false => !call.visits
  | _ => false

lemma key_of_acquires {pc : Pc γ H} (h : pc.acquires = true) : pc.key = none := by
  cases pc <;> first | rfl | cases h

lemma key_of_asks {pc : Pc γ H} (h : pc.asks = true) : pc.key = none := by
  cases pc <;> first | rfl | cases h

lemma asks_or_acquires {pc : Pc γ H} (h : pc.pending = true) (hk : pc.key = none) :
    pc.asks = true ∨ pc.acquires = true := by
  cases pc <;> first
  | exact .inl rfl
  | exact .inr rfl
  | exact absurd h Bool.false_ne_true
  | exact absurd hk (Option.some_ne_none _)

/-- The process was not aborted. -/
structure Fine (w : World ι (Statics H) (Thread γ H)) : Prop where
  inv : Inv w
  alive : w.shared.aborted = false

variable [Inhabited H]

lemma act_smooth (liveConfigMatches : H → γ → Bool) {x : Statics H} {t : Thread γ H}
    (ha : x.aborted = false) (hu : t.pc ≠ .unwinding) :
    (act liveConfigMatches smooth x t).1.aborted = false := by
  rw [act, if_neg (by simp [ha])]
  cases hpc : t.pc with
  | unwinding => exact absurd hpc hu
  | leave call unwound =>
    simp only [advance, hpc]
    cases call <;> cases unwound <;> exact ha
  | enter call =>
    simp only [advance, hpc]
    cases x.fallback with
    | none => exact ha
    | some h =>
      obtain ⟨n, hn⟩ := compare_eq liveConfigMatches x call h
      simp only [hn]
      exact ha
  | acquired call =>
    simp only [advance, hpc]
    cases call <;> exact ha
  | idle | load | init | write | publish | rollback | tryLoad | inside | undefined | announce | sample =>
    simp only [advance, hpc]
    exact ha
  | compareExchange | wait | acquire | spin | tryAcquire | spawning =>
    simp only [advance, hpc]
    split_ifs <;> exact ha
  | confirm =>
    simp only [advance, hpc, smooth, Bool.false_eq_true, if_false]
    split_ifs <;> exact ha

/-- Whoever is not about to abort can go on. -/
lemma Fine.step (hf : Fine w) (liveConfigMatches : H → γ → Bool) {j : ι}
    (hj : (w.loc j).pc ≠ .unwinding) : Fine (w.step (act liveConfigMatches) j smooth) :=
  ⟨hf.inv.step liveConfigMatches j smooth, act_smooth liveConfigMatches hf.alive hj⟩

lemma Fine.step_eq (hf : Fine w) (liveConfigMatches : H → γ → Bool) (j : ι) :
    (w.step (act liveConfigMatches) j smooth).shared =
        (advance liveConfigMatches smooth w.shared (w.loc j)).1 ∧
      (w.step (act liveConfigMatches) j smooth).loc j =
        (advance liveConfigMatches smooth w.shared (w.loc j)).2 := by
  have hact : act liveConfigMatches smooth w.shared (w.loc j) =
      advance liveConfigMatches smooth w.shared (w.loc j) := by rw [act, if_neg (by simp [hf.alive])]
  exact ⟨congrArg Prod.fst hact, World.step_loc_self.trans (congrArg Prod.snd hact)⟩

/-- A thread acts alone for a while. -/
def solo (liveConfigMatches : H → γ → Bool) (j : ι) (n : ℕ) (w : World ι (Statics H) (Thread γ H)) :
    World ι (Statics H) (Thread γ H) :=
  World.run (act liveConfigMatches) (List.replicate n (j, smooth)) w

variable {i j : ι} {k : Key}

lemma solo_loc (h : i ≠ j) (n : ℕ) : (solo liveConfigMatches j n w).loc i = w.loc i :=
  World.run_loc_of_ne fun x hx => by
    rw [List.eq_of_mem_replicate hx]
    exact h.symm

/-! ### Giving back -/

/-- How many actions of a thread come before the one that gives back what it owns. -/
def Pc.ahead : Pc γ H → ℕ
  | .acquired _ => 3
  | .enter _ | .init _ => 2
  | .inside .. | .write .. => 1
  | _ => 0

/-- How far a pending call is once its thread has given back what it owned. -/
def Thread.Freed (k : Key) (t : Thread γ H) : Prop :=
  match k with
  | .init => t.pc.acquires = true
  | .lock => t.pc = .idle ∧ t.answer = some .ran

/-- An owner comes nearer to giving back. -/
lemma advance_ahead (liveConfigMatches : H → γ → Bool) {x : Statics H} {t : Thread γ H}
    (hn : Knows x.part t.pc) (hk : t.pc.key = some k) (ha : t.pc.ahead ≠ 0) :
    (advance liveConfigMatches smooth x t).2.pc.key = some k ∧
      (advance liveConfigMatches smooth x t).2.pc.ahead + 1 = t.pc.ahead ∧
      (advance liveConfigMatches smooth x t).2.pc.pending = t.pc.pending := by
  cases hpc : t.pc with
  | acquired | inside | write | init =>
    rw [hpc] at hk
    simp only [advance, hpc]
    exact ⟨hk, rfl, rfl⟩
  | enter call =>
    rw [hpc] at hn hk
    obtain ⟨h, hh⟩ := Option.ne_none_iff_exists'.mp hn.heap
    have hh : x.fallback = some h := hh
    simp only [advance, hpc, hh]
    exact ⟨hk, rfl, rfl⟩
  | _ =>
    rw [hpc] at ha
    exact absurd rfl ha

/-- An owner gives back what it owns. -/
lemma advance_last (liveConfigMatches : H → γ → Bool) {x : Statics H} {t : Thread γ H}
    (hn : Knows x.part t.pc) (hk : t.pc.key = some k) (ha : t.pc.ahead = 0) :
    (advance liveConfigMatches smooth x t).1.part.taken k = false ∧
      (t.pc.pending = true → (advance liveConfigMatches smooth x t).2.Freed k) := by
  cases hpc : t.pc with
  | publish config =>
    rw [hpc] at hk
    cases hk
    simp only [advance, hpc]
    exact ⟨rfl, fun _ => rfl⟩
  | rollback unwound =>
    rw [hpc] at hk
    cases hk
    simp only [advance, hpc]
    exact ⟨rfl, fun h => by cases h⟩
  | leave call unwound =>
    rw [hpc] at hk
    cases hk
    simp only [advance, hpc]
    cases call with
    | withHeap | tryWithHeap =>
      cases unwound with
      | true => exact ⟨rfl, fun h => by cases h⟩
      | false => exact ⟨rfl, fun _ => ⟨rfl, rfl⟩⟩
    | visit trim => cases unwound <;> exact ⟨rfl, fun h => by cases h⟩
  | undefined =>
    rw [hpc] at hn
    exact hn.elim
  | acquired | enter | inside | init | write =>
    rw [hpc] at ha
    cases ha
  | _ =>
    rw [hpc] at hk
    cases hk

/-- Whoever owns something gives it back after a few actions of its own. -/
lemma Fine.gives_back (hf : Fine w) (liveConfigMatches : H → γ → Bool)
    (hk : (w.loc j).pc.key = some k) :
    ∃ n, Fine (solo liveConfigMatches j n w) ∧
      (solo liveConfigMatches j n w).shared.part.taken k = false ∧
      ((w.loc j).pc.pending = true → ((solo liveConfigMatches j n w).loc j).Freed k) := by
  have hstep := fun {w} (hf : Fine w) (hk : (w.loc j).pc.key = some k) =>
    hf.step liveConfigMatches (fun he => by rw [he] at hk; cases hk)
  obtain ⟨m, hm⟩ : ∃ m, (w.loc j).pc.ahead = m := ⟨_, rfl⟩
  induction m generalizing w with
  | zero =>
    obtain ⟨hshared, hloc⟩ := hf.step_eq liveConfigMatches j
    obtain ⟨hfree, hfreed⟩ := advance_last liveConfigMatches (hf.inv.knows j) hk hm
    exact ⟨1, hstep hf hk, hshared ▸ hfree, fun hp => hloc ▸ hfreed hp⟩
  | succ m ih =>
    have hahead := advance_ahead liveConfigMatches (hf.inv.knows j) hk (by omega)
    rw [← (hf.step_eq liveConfigMatches j).2] at hahead
    obtain ⟨hk', ha, hp⟩ := hahead
    obtain ⟨n, hf', hfree, hfreed⟩ := ih (hstep hf hk) hk' (by omega)
    exact ⟨n + 1, hf', hfree, fun hpending => hfreed (hp.trans hpending)⟩

/-! ### Serving -/

/-- The thread can be served: its call returns, with the closure run. -/
def Served (liveConfigMatches : H → γ → Bool) (i : ι) (w : World ι (Statics H) (Thread γ H)) : Prop :=
  ∃ ys, ((World.run (act liveConfigMatches) ys w).loc i).pc = .idle ∧
    ((World.run (act liveConfigMatches) ys w).loc i).answer = some .ran

lemma Served.of_step (j : ι) (h : Served liveConfigMatches i (w.step (act liveConfigMatches) j smooth)) :
    Served liveConfigMatches i w := by
  obtain ⟨ys, hys⟩ := h
  exact ⟨(j, smooth) :: ys, hys⟩

lemma Served.of_solo {n : ℕ} (h : Served liveConfigMatches i (solo liveConfigMatches j n w)) :
    Served liveConfigMatches i w := by
  obtain ⟨ys, hys⟩ := h
  refine ⟨List.replicate n (j, smooth) ++ ys, ?_⟩
  rw [World.run_append]
  exact hys

/-- Who has the lock is served. -/
lemma served_of_lock (hf : Fine w) (hk : (w.loc i).pc.key = some .lock)
    (hp : (w.loc i).pc.pending = true) : Served liveConfigMatches i w := by
  obtain ⟨n, -, -, hfreed⟩ := hf.gives_back liveConfigMatches hk
  exact ⟨List.replicate n (i, smooth), hfreed hp⟩

lemma served_acquire (hf : Fine w) (hl : w.shared.lock = false) {config : Option γ} {spins rounds : ℕ}
    (hpc : (w.loc i).pc = .acquire config spins rounds) : Served liveConfigMatches i w := by
  have hloc := (hf.step_eq liveConfigMatches i).2
  simp only [advance, hpc, hl, Bool.false_eq_true, if_false] at hloc
  have hf' := hf.step liveConfigMatches (j := i) (by simp [hpc])
  exact .of_step i (served_of_lock hf' (by rw [hloc]; rfl) (by rw [hloc]; rfl))

lemma served_unlocked (hf : Fine w) (hl : w.shared.lock = false)
    (hpc : (w.loc i).pc.acquires = true) : Served liveConfigMatches i w := by
  cases hpc' : (w.loc i).pc with
  | acquire config spins rounds => exact served_acquire hf hl hpc'
  | spin config spins rounds =>
    obtain ⟨hshared, hloc⟩ := hf.step_eq liveConfigMatches i
    simp only [advance, hpc', hl, if_true] at hloc hshared
    have hf' := hf.step liveConfigMatches (j := i) (by simp [hpc'])
    exact .of_step i (served_acquire hf' (by rw [hshared, hl]) (by rw [hloc]; rfl))
  | _ =>
    rw [hpc'] at hpc
    cases hpc

/-- Who waits for the lock gets it: whoever has it can leave. -/
lemma served_acquires (hf : Fine w) (hpc : (w.loc i).pc.acquires = true) :
    Served liveConfigMatches i w := by
  cases hl : w.shared.lock with
  | false => exact served_unlocked hf hl hpc
  | true =>
    obtain ⟨j, hj⟩ := hf.inv.owner (k := .lock) hl
    have hne : i ≠ j := fun he => by
      rw [← he, key_of_acquires hpc] at hj
      cases hj
    obtain ⟨n, hf', hfree, -⟩ := hf.gives_back liveConfigMatches hj
    exact .of_solo (served_unlocked hf' hfree (by rwa [solo_loc hne]))

/-- Who builds the heap is served. -/
lemma served_of_init (hf : Fine w) (hk : (w.loc i).pc.key = some .init)
    (hp : (w.loc i).pc.pending = true) : Served liveConfigMatches i w := by
  obtain ⟨n, hf', -, hfreed⟩ := hf.gives_back liveConfigMatches hk
  exact .of_solo (served_acquires hf' (hfreed hp))

lemma served_compareExchange (hf : Fine w) (hu : w.shared.initState = .uninit) {config : Option γ}
    (hpc : (w.loc i).pc = .compareExchange config) : Served liveConfigMatches i w := by
  have hloc := (hf.step_eq liveConfigMatches i).2
  simp only [advance, hpc, hu, if_true] at hloc
  have hf' := hf.step liveConfigMatches (j := i) (by simp [hpc])
  exact .of_step i (served_of_init hf' (by rw [hloc]; rfl) (by rw [hloc]; rfl))

lemma served_load (hf : Fine w) (hi : w.shared.initState ≠ .initializing) {config : Option γ}
    (hpc : (w.loc i).pc = .load config) : Served liveConfigMatches i w := by
  obtain ⟨hshared, hloc⟩ := hf.step_eq liveConfigMatches i
  have hf' := hf.step liveConfigMatches (j := i) (by simp [hpc])
  cases hs : w.shared.initState with
  | initializing => exact absurd hs hi
  | ready =>
    simp only [advance, hpc, hs, if_true] at hloc
    exact .of_step i (served_acquires hf' (by rw [hloc]; rfl))
  | uninit =>
    simp only [advance, hpc, hs, reduceCtorEq, if_false] at hloc hshared
    have hpc' : ((w.step (act liveConfigMatches) i smooth).loc i).pc = .compareExchange config := by
      rw [hloc]
      rfl
    exact .of_step i (served_compareExchange hf' (by rw [hshared, hs]) hpc')

lemma served_wait (hf : Fine w) (hi : w.shared.initState ≠ .initializing) {config : Option γ}
    {spins : ℕ} (hpc : (w.loc i).pc = .wait config spins) : Served liveConfigMatches i w := by
  obtain ⟨hshared, hloc⟩ := hf.step_eq liveConfigMatches i
  simp only [advance, hpc, ne_eq, hi, not_false_eq_true, if_true] at hloc hshared
  have hload : ((w.step (act liveConfigMatches) i smooth).loc i).pc = .load config := by
    rw [hloc]
    rfl
  have hf' := hf.step liveConfigMatches (j := i) (by simp [hpc])
  exact .of_step i (served_load hf' (by rwa [hshared]) hload)

lemma served_quiet (hf : Fine w) (hi : w.shared.initState ≠ .initializing)
    (hpc : (w.loc i).pc.asks = true) : Served liveConfigMatches i w := by
  cases hpc' : (w.loc i).pc with
  | load config => exact served_load hf hi hpc'
  | wait config spins => exact served_wait hf hi hpc'
  | compareExchange config =>
    by_cases hu : w.shared.initState = .uninit
    · exact served_compareExchange hf hu hpc'
    · obtain ⟨hshared, hloc⟩ := hf.step_eq liveConfigMatches i
      simp only [advance, hpc', hu, if_false] at hloc hshared
      have hf' := hf.step liveConfigMatches (j := i) (by simp [hpc'])
      exact .of_step i (served_wait hf' (by rwa [hshared]) (by rw [hloc]; rfl))
  | _ =>
    rw [hpc'] at hpc
    cases hpc

/-- Who waits for the heap gets it: whoever builds it publishes, or leaves it to others. -/
lemma served_asks (hf : Fine w) (hpc : (w.loc i).pc.asks = true) : Served liveConfigMatches i w := by
  by_cases hi : w.shared.initState = .initializing
  · obtain ⟨j, hj⟩ := hf.inv.exact.init.mp hi
    have hne : i ≠ j := fun he => by
      rw [← he, key_of_asks hpc] at hj
      cases hj
    obtain ⟨n, hf', hfree, -⟩ := hf.gives_back liveConfigMatches hj
    exact .of_solo (served_quiet hf' (decide_eq_false_iff_not.mp hfree) (by rwa [solo_loc hne]))
  · exact served_quiet hf hi hpc

/-- After every run, whatever unwound or failed in it, each pending call of `with_heap` can still be
served, unless the process was aborted. -/
theorem pending_call_can_be_served (xs : List (ι × Chance γ H))
    (halive : (World.run (act liveConfigMatches) xs (start ι γ H)).shared.aborted = false)
    (hpc : ((World.run (act liveConfigMatches) xs (start ι γ H)).loc i).pc.pending = true) :
    ∃ ys, ((World.run (act liveConfigMatches) (xs ++ ys) (start ι γ H)).loc i).pc = .idle ∧
      ((World.run (act liveConfigMatches) (xs ++ ys) (start ι γ H)).loc i).answer = some .ran := by
  have hf : Fine (World.run (act liveConfigMatches) xs (start ι γ H)) :=
    ⟨run_inv liveConfigMatches xs, halive⟩
  simp only [World.run_append]
  change Served liveConfigMatches i _
  cases hk : ((World.run (act liveConfigMatches) xs (start ι γ H)).loc i).pc.key with
  | none =>
    obtain ha | ha := asks_or_acquires hpc hk
    · exact served_asks hf ha
    · exact served_acquires hf ha
  | some k =>
    cases k with
    | init => exact served_of_init hf hk hpc
    | lock => exact served_of_lock hf hk hpc

/-- The builder unwinds while another call waits for it. -/
def unwoundRun : List (Bool × Chance Unit ℕ) :=
  [(false, smoothly (.withHeap none)), (false, smooth), (false, smooth),
    (true, smoothly (.withHeap none)), (true, smooth), (true, smooth),
    (false, { (smooth : Chance Unit ℕ) with new := .unwound })]

lemma unwoundRun_waits :
    (World.run (act fun _ _ => true) unwoundRun (start Bool Unit ℕ)).shared.aborted = false ∧
    ((World.run (act fun _ _ => true) unwoundRun (start Bool Unit ℕ)).loc true).pc.pending = true := by
  decide +kernel

theorem unwoundRun_served : ∃ ys,
    ((World.run (act fun _ _ => true) (unwoundRun ++ ys) (start Bool Unit ℕ)).loc true).pc = .idle ∧
      ((World.run (act fun _ _ => true) (unwoundRun ++ ys) (start Bool Unit ℕ)).loc true).answer =
        some .ran := by
  obtain ⟨halive, hpending⟩ := unwoundRun_waits
  exact pending_call_can_be_served unwoundRun halive hpending

end FallbackHeap

end SeferAlloc
