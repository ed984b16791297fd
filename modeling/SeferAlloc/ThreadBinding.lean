import SeferAlloc.Interleaving
import Mathlib.Data.List.Nodup
import Mathlib.Tactic.Linarith

/-!
# Threads and their heaps

A thread caches its heap in `LOCAL` and leaves the lease of the heap's slot to
`GUARD`, whose destructor gives the slot back. Claims, the registration of the
guard's destructor and the trim on exit may allocate, so resolutions nest in
them. Either thread-local may refuse access.
-/
namespace SeferAlloc
namespace ThreadBinding
open Interleaving

/-- A lease of a registry slot. The number tells the leases of one slot apart. -/
structure Lease where
  id : ℕ
  slot : ℕ
deriving DecidableEq

/-- The value of `LOCAL`: null, `TORN`, or the heap of a slot. -/
inductive Local where
  | null
  | torn
  | heap (slot : ℕ)
deriving DecidableEq

/-- What a resolution or a bind answers. -/
inductive Answer where
  | own (slot : ℕ)
  | fallback
  | foreignNoBind
  | noHeap
deriving DecidableEq

/-- A thread's memory of a failed claim: the version it saw and the calls since. -/
structure SaturationGate where
  saturated : Bool
  version : ℕ
  skips : ℕ

/-- The calls after which a claim is tried again anyway. -/
def saturationRetryInterval : ℕ := 64

/-- A claim is tried when nothing failed, when a release was published since, or after long
enough. -/
def saturationRetryDecision (saturated : Bool) (cachedVersion skips currentVersion : ℕ) : Bool :=
  !saturated || cachedVersion != currentVersion || decide (saturationRetryInterval ≤ skips)

/-- Where a call is that has not returned. -/
inductive Frame where
  -- `bind_slow_tagged`
  | exitCheck
  | retryAllowed
  | claiming
  -- `finish_bind`, with a lease
  | check (lease : Lease)
  | publish (lease : Lease)
  | arming (lease : Lease)
  | replace (lease old : Lease)
  | unpublish (lease : Lease)
  | release (lease : Lease) (answer : Answer)
  -- the drop of the guard, with the lease it held
  | markTorn (lease : Lease)
  | guardExit (lease : Lease)
  | trimming (lease : Lease)
  | guardRelease (lease : Lease)
deriving DecidableEq

/-- The thread-locals of a thread and its calls, the innermost first. `gone` tells that `LOCAL`
refuses access. -/
structure Thread where
  loc : Local
  gone : Bool
  guard : Option Lease
  guardDropped : Bool
  gate : SaturationGate
  calls : List Frame
  answer : Option Answer

/-- A new thread. -/
def Thread.new : Thread := ⟨.null, false, none, false, ⟨false, 0, 0⟩, [], none⟩

/-- The registry: how many leases it granted, the slots under a lease, and the leases dropped. -/
structure Registry where
  granted : ℕ
  leased : ℕ → Bool
  dropped : List ℕ

def Registry.new : Registry := ⟨0, fun _ => false, []⟩

/-- `LOCAL.try_with(|c| c.get())`: the thread's binding, gone at its exit. -/
def Thread.read (t : Thread) : Option Local := if t.gone then none else some t.loc

/-- `LOCAL.try_with(|c| c.set(v))`, and whether it was done. -/
def Thread.set (v : Local) (t : Thread) : Thread × Bool :=
  if t.gone then (t, false) else ({ t with loc := v }, true)

/-- Code that may allocate runs: the thread's own, a claim (with its lease granted or not yet), the
registration of a destructor, or the trim of the heap. -/
def Thread.mayCall (t : Thread) : Bool :=
  match t.calls with
  | [] | .claiming :: _ | .check _ :: _ | .arming _ :: _ | .trimming _ :: _ => true
  | _ => false

/-- The innermost call returns. -/
def Thread.return (a : Answer) (t : Thread) : Thread :=
  { t with calls := t.calls.tail, answer := some a }

/-- The innermost call goes on elsewhere. -/
def Thread.goto (f : Frame) (t : Thread) : Thread := { t with calls := f :: t.calls.tail }

/-! ## Resolvers -/

/-- `current_for_alloc`, or `current_for_alloc_with_config`, up to the bind. -/
def currentForAlloc (t : Thread) : Thread :=
  match t.read with
  | some (.heap s) => { t with answer := some (.own s) }
  | some .null => { t with calls := .exitCheck :: t.calls }
  | some .torn => { t with answer := some .fallback }
  | none => { t with answer := some .fallback }

/-- The heap a free goes to; it never binds one. -/
def currentForDealloc (t : Thread) : Thread :=
  match t.read with
  | some (.heap s) => { t with answer := some (.own s) }
  | _ => { t with answer := some .foreignNoBind }

/-- The heap a trim works on; it never binds one. -/
def currentForTrim (t : Thread) : Thread :=
  match t.read with
  | some (.heap s) => { t with answer := some (.own s) }
  | _ => { t with answer := some .noHeap }

/-! ## Steps of a call -/

/-- What a call meets on its way: whether the process exits, the saturation word, whether the gate
and the guard can be accessed, and the slot that the registry would grant. -/
structure Chance where
  exiting : Bool
  saturation : ℕ
  gateOk : Bool
  guardOk : Bool
  slot : Option ℕ

/-- Asks the gate whether to try, counting the calls it turns away. -/
def saturationRetryAllowed (e : Chance) (t : Thread) : Thread × Bool :=
  if e.gateOk then
    let gate := t.gate
    if saturationRetryDecision gate.saturated gate.version gate.skips e.saturation then
      ({ t with gate := ⟨false, e.saturation, 0⟩ }, true)
    else ({ t with gate := ⟨true, gate.version, gate.skips + 1⟩ }, false)
  else (t, true)

/-- Remembers a failed claim with the version published now. -/
def recordSaturationVerdict (e : Chance) (t : Thread) : Thread :=
  if e.gateOk then { t with gate := ⟨true, e.saturation, 0⟩ } else t

/-- The claim of the registry: it has one lease of a slot at a time. -/
def claimLease (e : Chance) (r : Registry) : Registry × Option Lease :=
  match e.slot with
  | none => (r, none)
  | some s =>
      if r.leased s then (r, none)
      else
        ({ r with granted := r.granted + 1, leased := Function.update r.leased s true },
          some ⟨r.granted, s⟩)

/-- The drop of a lease. -/
def dropLease (l : Lease) (r : Registry) : Registry :=
  { r with leased := Function.update r.leased l.slot false, dropped := r.dropped ++ [l.id] }

/-- The next action of the innermost call. -/
def advance (e : Chance) (r : Registry) (t : Thread) : Frame → Registry × Thread
  | .exitCheck => (r, if e.exiting then t.return .fallback else t.goto .retryAllowed)
  | .retryAllowed =>
      match saturationRetryAllowed e t with
      | (t, true) => (r, t.goto .claiming)
      | (t, false) => (r, t.return .fallback)
  | .claiming =>
      match claimLease e r with
      | (r, none) => (r, (recordSaturationVerdict e t).return .fallback)
      | (r, some l) => (r, t.goto (.check l))
  | .check l =>
      (r, match t.read with
        | some (.heap s) => t.goto (.release l (.own s))
        | _ => t.goto (.publish l))
  | .publish l =>
      match t.set (.heap l.slot) with
      | (t, true) => (r, t.goto (.arming l))
      | (t, false) => (r, t.goto (.release l .fallback))
  | .arming l =>
      if e.guardOk then
        match t.guard with
        | none => (r, { t with guard := some l }.return (.own l.slot))
        | some old => (r, { t with guard := none }.goto (.replace l old))
      else (r, t.goto (.unpublish l))
  | .replace l old => (dropLease old r, { t with guard := some l }.return (.own l.slot))
  | .unpublish l => (r, (t.set .null).1.goto (.release l .fallback))
  | .release l a => (dropLease l r, t.return a)
  | .markTorn l => (r, (t.set .torn).1.goto (.guardExit l))
  | .guardExit l => (r, t.goto (if e.exiting then .guardRelease l else .trimming l))
  | .trimming l => (r, t.goto (.guardRelease l))
  | .guardRelease l => (dropLease l r, { t with calls := t.calls.tail })

/-- What a thread does next. `go` is an action of its innermost call; `dropGuard` is the destructor
on thread exit; `refuse` is the moment from which `LOCAL` answers with an error. -/
inductive Command where
  | alloc
  | dealloc
  | trim
  | dropGuard
  | refuse
  | go (e : Chance)

/-- `LeaseReleaseGuard::drop` begins: at most once, and outside any other call. -/
def dropGuard (t : Thread) : Thread :=
  if t.calls = [] ∧ t.guardDropped = false then
    match t.guard with
    | none => { t with guardDropped := true }
    | some l => { t with guardDropped := true, guard := none, calls := [.markTorn l] }
  else t

/-- One atomic action of a thread. -/
def act (c : Command) (r : Registry) (t : Thread) : Registry × Thread :=
  match c with
  | .alloc => (r, if t.mayCall then currentForAlloc t else t)
  | .dealloc => (r, if t.mayCall then currentForDealloc t else t)
  | .trim => (r, if t.mayCall then currentForTrim t else t)
  | .dropGuard => (r, dropGuard t)
  | .refuse => (r, { t with gone := true })
  | .go e =>
      match t.calls with
      | [] => (r, t)
      | f :: _ => advance e r t f

/-- Threads named by `ι`, none of which has called. -/
def start (ι : Type*) : World ι Registry Thread := ⟨.new, fun _ => .new⟩

/-! ## Leases -/

/-- The leases in the hands of a call. -/
def Frame.leases : Frame → List Lease
  | .exitCheck | .retryAllowed | .claiming => []
  | .check l | .publish l | .arming l | .unpublish l | .release l _ | .markTorn l | .guardExit l
  | .trimming l | .guardRelease l => [l]
  | .replace l old => [l, old]

/-- The leases of a thread: its guard's, and those of its calls. -/
def Thread.leases (t : Thread) : List Lease := t.guard.toList ++ t.calls.flatMap Frame.leases

/-- What one action does to the leases. -/
inductive Traffic (r : Registry) (t : Thread) : Registry → Thread → Prop where
  | keep {t' : Thread} (h : t'.leases.Perm t.leases) : Traffic r t r t'
  | grant {t' : Thread} (s : ℕ) (hfree : r.leased s = false)
      (h : t'.leases.Perm (⟨r.granted, s⟩ :: t.leases)) :
      Traffic r t { r with
        granted := r.granted + 1
        leased := Function.update r.leased s true } t'
  | drop {t' : Thread} (l : Lease) (h : t.leases.Perm (l :: t'.leases)) :
      Traffic r t (dropLease l r) t'

/-! ## One thread -/

/-- `LOCAL` is the heap of the guard's lease. -/
def Settled (t : Thread) : Prop :=
  t.gone = true ∨ ∀ s, t.loc = .heap s ↔ ∃ l, t.guard = some l ∧ l.slot = s

/-- What holds while the innermost call is at a frame. -/
def Holds (t : Thread) : Frame → Prop
  | .exitCheck | .retryAllowed | .claiming | .check _ => Settled t
  | .publish _ => Settled t ∧ (t.gone = true ∨ t.guard = none)
  | .arming l | .unpublish l | .markTorn l =>
      t.guard = none ∧ (t.gone = true ∨ t.loc = .heap l.slot)
  | .replace _ _ => False
  | .release _ a => Settled t ∧ ∀ s, a = .own s → ∃ l, t.guard = some l ∧ l.slot = s
  | .guardExit _ | .trimming _ | .guardRelease _ =>
      t.guard = none ∧ (t.gone = true ∨ t.loc = .torn)

/-- What holds at the innermost call, or outside any. -/
def Inner (t : Thread) : List Frame → Prop
  | [] => Settled t
  | f :: _ => Holds t f

/-- The frames at which a call waits for a call nested in it. -/
def Frame.Waits : Frame → Prop
  | .claiming | .check _ => True
  | _ => False

/-- Calls wait in claims only, and `LOCAL` and the guard agree but where a call changes both. -/
structure Bound (t : Thread) : Prop where
  outer : ∀ f ∈ t.calls.tail, f.Waits
  inner : Inner t t.calls

variable {t t' : Thread} {r : Registry} {l : Lease} {f : Frame} {rest : List Frame} {s : ℕ}

lemma read_eq_some {v : Local} (h : t.read = some v) : t.gone = false ∧ t.loc = v := by
  unfold Thread.read at h
  split_ifs at h with hg
  exact ⟨by simpa using hg, Option.some.inj h⟩

lemma settled_of_null (hg : t.guard = none) (hl : t.gone = true ∨ ∀ s, t.loc ≠ .heap s) :
    Settled t := by
  refine hl.imp_right fun hl s => ?_
  simp [hg, hl s]

lemma settled_of_guard (hg : t.guard = some l) (hl : t.gone = true ∨ t.loc = .heap l.slot) :
    Settled t := by
  refine hl.imp_right fun hl s => ?_
  rw [hl, hg]
  constructor
  · intro he
    exact ⟨l, rfl, Local.heap.inj he⟩
  · rintro ⟨m, hm, rfl⟩
    rw [Option.some.inj hm]

lemma Settled.loc_of_guard (h : Settled t) (hg : t.guard = some l) :
    t.gone = true ∨ t.loc = .heap l.slot :=
  h.imp_right fun h => (h l.slot).mpr ⟨l, hg, rfl⟩

/-- A settled thread that can read no heap has no lease in its guard. -/
lemma Settled.guard_eq_none (h : Settled t) (hl : ∀ s, t.read ≠ some (.heap s)) :
    t.gone = true ∨ t.guard = none := by
  cases hg : t.guard with
  | none => exact .inr rfl
  | some l =>
    obtain hgone | hloc := h.loc_of_guard hg
    · exact .inl hgone
    · by_contra hne
      have hgone : ¬ t.gone = true := fun hgone => hne (.inl hgone)
      exact hl l.slot (by rw [Thread.read, if_neg hgone, hloc])

lemma Settled.guard_of_read (h : Settled t) (hr : t.read = some (.heap s)) :
    ∃ l, t.guard = some l ∧ l.slot = s := by
  obtain ⟨hgone, hloc⟩ := read_eq_some hr
  obtain h | h := h
  · exact absurd h (by simp [hgone])
  · exact (h s).mp hloc

/-- A call that waits needs `LOCAL` and the guard to agree. -/
lemma inner_of_settled {cs : List Frame} (hw : ∀ f ∈ cs, f.Waits) (h : Settled t) :
    Inner t cs := by
  cases cs with
  | nil => exact h
  | cons f rest =>
    have hf := hw f (List.mem_cons_self ..)
    cases f <;> first | exact h | exact hf.elim

lemma Settled.congr (h : Settled t) (hl : t'.loc = t.loc) (hgone : t'.gone = t.gone)
    (hg : t'.guard = t.guard) : Settled t' := by
  rwa [Settled, hl, hgone, hg]

lemma Holds.congr (h : Holds t f) (hl : t'.loc = t.loc) (hgone : t'.gone = t.gone)
    (hg : t'.guard = t.guard) : Holds t' f := by
  cases f <;> simpa only [Holds, Settled, hl, hgone, hg] using h

/-- The invariant speaks of `LOCAL`, the guard and the calls. -/
lemma Bound.congr (h : Bound t) (hl : t'.loc = t.loc) (hgone : t'.gone = t.gone)
    (hg : t'.guard = t.guard) (hc : t'.calls = t.calls) : Bound t' := by
  obtain ⟨outer, inner⟩ := h
  rw [← hc] at outer inner
  refine ⟨outer, ?_⟩
  cases hcs : t'.calls with
  | nil =>
    rw [hcs] at inner
    simpa only [Inner, Settled, hl, hgone, hg] using inner
  | cons f rest =>
    rw [hcs] at inner
    exact Holds.congr inner hl hgone hg

/-- From the moment `LOCAL` refuses access nothing is asked of it. -/
lemma Bound.refuse (h : Bound t) : Bound { t with gone := true } := by
  refine ⟨h.outer, ?_⟩
  have inner := h.inner
  change Inner _ t.calls
  cases hcs : t.calls with
  | nil => exact .inl rfl
  | cons f rest =>
    rw [hcs] at inner
    cases f with
    | exitCheck | retryAllowed | claiming | check => exact .inl rfl
    | publish => exact ⟨.inl rfl, .inl rfl⟩
    | arming | unpublish | markTorn | guardExit | trimming | guardRelease =>
      exact ⟨inner.1, .inl rfl⟩
    | replace => exact inner
    | release => exact ⟨.inl rfl, inner.2⟩

/-- The innermost call goes on. -/
lemma Bound.go (h : Bound t) (hc : t.calls = f :: rest) (f' : Frame)
    (hc' : t'.calls = f' :: rest) (hf : Holds t' f') : Bound t' := by
  refine ⟨?_, ?_⟩
  · simpa [hc, hc'] using h.outer
  · rw [hc']
    exact hf

/-- The innermost call returns to the one that waits for it. -/
lemma Bound.back (h : Bound t) (hc : t.calls = f :: rest) (hc' : t'.calls = rest)
    (hs : Settled t') : Bound t' := by
  have hw : ∀ f ∈ rest, f.Waits := by simpa [hc] using h.outer
  refine ⟨fun g hg => hw g ?_, hc' ▸ inner_of_settled hw hs⟩
  rw [hc'] at hg
  exact List.mem_of_mem_tail hg

/-- A call begins where its thread can read null. -/
lemma Bound.begin (h : Bound t) (hm : t.mayCall = true) (hr : t.read = some .null)
    (hl : t'.loc = t.loc) (hgone : t'.gone = t.gone) (hg : t'.guard = t.guard)
    (hc : t'.calls = .exitCheck :: t.calls) : Bound t' := by
  obtain ⟨hngone, hnull⟩ := read_eq_some hr
  have inner := h.inner
  -- Calls that may call and hold a heap or `TORN` in `LOCAL` are excluded.
  have key : Settled t ∧ ∀ f ∈ t.calls, f.Waits := by
    have outer := h.outer
    unfold Thread.mayCall at hm
    cases hcs : t.calls with
    | nil =>
      rw [hcs] at inner
      exact ⟨inner, by simp⟩
    | cons f rest =>
      rw [hcs] at inner hm outer
      cases f with
      | claiming | check =>
        refine ⟨inner, fun g hg => ?_⟩
        obtain rfl | hg := List.mem_cons.mp hg
        · trivial
        · exact outer g hg
      | arming | trimming =>
        have hloc := inner.2
        simp [hngone, hnull] at hloc
      | _ => exact absurd hm Bool.false_ne_true
  refine ⟨?_, ?_⟩
  · rw [hc]
    exact key.2
  · rw [hc]
    exact Holds.congr (f := .exitCheck) key.1 hl hgone hg

lemma set_of_gone (hg : t.gone = true) (v : Local) : t.set v = (t, false) := if_pos hg

lemma set_of_not_gone (hg : t.gone = false) (v : Local) :
    t.set v = ({ t with loc := v }, true) := by
  rw [Thread.set, if_neg (by simp [hg])]

@[simp] lemma set_fst_guard (v : Local) : (t.set v).1.guard = t.guard := by
  unfold Thread.set; split <;> rfl

@[simp] lemma set_fst_calls (v : Local) : (t.set v).1.calls = t.calls := by
  unfold Thread.set; split <;> rfl

lemma set_fst_loc (v : Local) : (t.set v).1.gone = true ∨ (t.set v).1.loc = v := by
  unfold Thread.set
  split_ifs with hg
  · exact .inl hg
  · exact .inr rfl

lemma Bound.currentForAlloc (h : Bound t) (hm : t.mayCall = true) :
    Bound (currentForAlloc t) := by
  unfold ThreadBinding.currentForAlloc
  split
  · exact h.congr rfl rfl rfl rfl
  · rename_i hr
    exact h.begin hm hr rfl rfl rfl rfl
  · exact h.congr rfl rfl rfl rfl
  · exact h.congr rfl rfl rfl rfl

lemma Bound.currentForDealloc (h : Bound t) : Bound (currentForDealloc t) := by
  unfold ThreadBinding.currentForDealloc
  split <;> exact h.congr rfl rfl rfl rfl

lemma Bound.currentForTrim (h : Bound t) : Bound (currentForTrim t) := by
  unfold ThreadBinding.currentForTrim
  split <;> exact h.congr rfl rfl rfl rfl

lemma Bound.dropGuard (h : Bound t) : Bound (dropGuard t) := by
  unfold ThreadBinding.dropGuard
  split_ifs with hc
  · have inner := h.inner
    rw [hc.1] at inner
    split
    · exact h.congr rfl rfl rfl rfl
    · rename_i l hg
      refine ⟨by simp, rfl, ?_⟩
      exact Settled.loc_of_guard (t := t) inner hg
  · exact h

/-- Each action of a call keeps the invariant. -/
lemma Bound.advance (h : Bound t) (e : Chance) (hc : t.calls = f :: rest) :
    Bound (advance e r t f).2 := by
  have inner : Holds t f := by
    have inner := h.inner
    rwa [hc] at inner
  have hgo : ∀ f', (t.goto f').calls = f' :: rest := fun f' => by simp [Thread.goto, hc]
  have hback : ∀ a, (t.return a).calls = rest := fun a => by simp [Thread.return, hc]
  cases f with
  | exitCheck =>
    simp only [ThreadBinding.advance]
    split_ifs
    · exact h.back hc (hback _) (Settled.congr inner rfl rfl rfl)
    · exact h.go hc _ (hgo _) (Settled.congr inner rfl rfl rfl)
  | retryAllowed =>
    simp only [ThreadBinding.advance, saturationRetryAllowed]
    split_ifs
    · exact h.go hc .claiming (by simp [Thread.goto, hc]) (Settled.congr inner rfl rfl rfl)
    · exact h.back hc (by simp [Thread.return, hc]) (Settled.congr inner rfl rfl rfl)
    · exact h.go hc _ (hgo _) (Settled.congr inner rfl rfl rfl)
  | claiming =>
    simp only [ThreadBinding.advance]
    split
    · refine h.back hc ?_ ?_ <;> unfold recordSaturationVerdict
      · split_ifs <;> exact hback .fallback
      · split_ifs <;> exact Settled.congr inner rfl rfl rfl
    · exact h.go hc _ (hgo _) (Settled.congr inner rfl rfl rfl)
  | check l =>
    simp only [ThreadBinding.advance]
    split
    · rename_i s hr
      refine h.go hc _ (hgo _) ⟨Settled.congr inner rfl rfl rfl, fun s' hs => ?_⟩
      obtain rfl := Answer.own.inj hs
      exact Settled.guard_of_read inner hr
    · rename_i hr
      refine h.go hc _ (hgo _) ⟨Settled.congr inner rfl rfl rfl, ?_⟩
      exact Settled.guard_eq_none inner hr
  | publish l =>
    obtain ⟨hs, hg⟩ := inner
    simp only [ThreadBinding.advance]
    by_cases hgone : t.gone = true
    · rw [set_of_gone hgone]
      exact h.go hc _ (hgo _) ⟨.inl hgone, by simp⟩
    · rw [set_of_not_gone (by simpa using hgone)]
      refine h.go hc (.arming l) (by simp [Thread.goto, hc]) ⟨?_, .inr rfl⟩
      exact hg.resolve_left hgone
  | arming l =>
    obtain ⟨hg, hl⟩ := inner
    simp only [ThreadBinding.advance, hg]
    split_ifs
    · exact h.back hc (by simp [Thread.return, hc]) (settled_of_guard rfl hl)
    · exact h.go hc _ (hgo _) ⟨hg, hl⟩
  | replace => exact inner.elim
  | unpublish l =>
    obtain ⟨hg, hl⟩ := inner
    simp only [ThreadBinding.advance]
    refine h.go hc (.release l .fallback) (by simp [Thread.goto, hc]) ⟨?_, by simp⟩
    refine settled_of_null (by simpa [Thread.goto] using hg) ?_
    exact (set_fst_loc .null).imp_right fun hn s => by simp [Thread.goto, hn]
  | release l a =>
    exact h.back hc (hback _) (Settled.congr inner.1 rfl rfl rfl)
  | markTorn l =>
    refine h.go hc (.guardExit l) (by simp [ThreadBinding.advance, Thread.goto, hc])
      ⟨?_, set_fst_loc .torn⟩
    simpa [ThreadBinding.advance, Thread.goto] using inner.1
  | guardExit l =>
    simp only [ThreadBinding.advance]
    split_ifs <;> exact h.go hc _ (hgo _) inner
  | trimming l => exact h.go hc _ (hgo _) inner
  | guardRelease l =>
    refine h.back hc (by simp [ThreadBinding.advance, hc]) ?_
    refine settled_of_null inner.1 (inner.2.imp_right fun hl s => ?_)
    simp [ThreadBinding.advance, hl]

lemma Bound.new : Bound Thread.new := ⟨by simp [Thread.new], .inr (by simp [Thread.new])⟩

/-- Each action of a thread keeps the invariant. -/
lemma Bound.act (h : Bound t) (c : Command) : Bound (act c r t).2 := by
  cases c with
  | alloc =>
    simp only [ThreadBinding.act]
    split_ifs with hm
    · exact h.currentForAlloc hm
    · exact h
  | dealloc =>
    simp only [ThreadBinding.act]
    split_ifs
    · exact h.currentForDealloc
    · exact h
  | trim =>
    simp only [ThreadBinding.act]
    split_ifs
    · exact h.currentForTrim
    · exact h
  | dropGuard => exact h.dropGuard
  | refuse => exact h.refuse
  | go e =>
    simp only [ThreadBinding.act]
    split
    · exact h
    · rename_i hc
      exact h.advance e hc

/-! ## Traffic -/

lemma leases_of_calls (hc : t.calls = f :: rest) :
    t.leases = t.guard.toList ++ (f.leases ++ rest.flatMap Frame.leases) := by
  simp [Thread.leases, hc]

/-- The guard and the leases of the calls determine the leases. -/
lemma leases_congr (hg : t'.guard = t.guard)
    (hc : t'.calls.flatMap Frame.leases = t.calls.flatMap Frame.leases) : t'.leases = t.leases := by
  rw [Thread.leases, hg, hc, Thread.leases]

/-- The innermost call goes on with the leases it has. -/
lemma leases_go (hc : t.calls = f :: rest) (f' : Frame) (hg : t'.guard = t.guard)
    (hc' : t'.calls = f' :: rest) (hf : f'.leases = f.leases) : t'.leases = t.leases :=
  leases_congr hg (by simp [hc, hc', hf])

/-- The innermost call returns, and drops the lease it has. -/
lemma traffic_release (hc : t.calls = f :: rest) (hf : f.leases = [l]) (hg : t'.guard = t.guard)
    (hc' : t'.calls = rest) : Traffic r t (dropLease l r) t' := by
  refine .drop l ?_
  rw [leases_of_calls hc, hf, Thread.leases, hg, hc']
  exact List.perm_middle

/-- A claim fails, or grants a slot under no lease. -/
lemma claimLease_cases (e : Chance) (r : Registry) :
    claimLease e r = (r, none) ∨ ∃ s, r.leased s = false ∧ claimLease e r =
      ({ r with granted := r.granted + 1, leased := Function.update r.leased s true },
        some ⟨r.granted, s⟩) := by
  unfold claimLease
  cases e.slot with
  | none => exact .inl rfl
  | some s =>
    by_cases hfree : r.leased s = true
    · exact .inl (if_pos hfree)
    · exact .inr ⟨s, by simpa using hfree, if_neg hfree⟩

/-- The traffic of each action of a call. -/
lemma Bound.traffic_advance (h : Bound t) (e : Chance) (hc : t.calls = f :: rest) :
    Traffic r t (ThreadBinding.advance e r t f).1 (ThreadBinding.advance e r t f).2 := by
  have inner : Holds t f := by
    have inner := h.inner
    rwa [hc] at inner
  cases f with
  | exitCheck =>
    refine .keep (.of_eq (leases_congr ?_ ?_)) <;> simp only [ThreadBinding.advance]
    · split_ifs <;> rfl
    · split_ifs <;> simp [Thread.return, Thread.goto, hc, Frame.leases]
  | retryAllowed =>
    simp only [ThreadBinding.advance, saturationRetryAllowed]
    split_ifs <;> refine .keep (.of_eq (leases_congr rfl ?_)) <;>
      simp [Thread.return, Thread.goto, hc, Frame.leases]
  | claiming =>
    obtain hn | ⟨s, hfree, hs⟩ := claimLease_cases e r
    · simp only [ThreadBinding.advance, hn]
      refine .keep (.of_eq (leases_congr ?_ ?_)) <;> simp only [recordSaturationVerdict]
      · split_ifs <;> rfl
      · split_ifs <;> simp [Thread.return, hc, Frame.leases]
    · simp only [ThreadBinding.advance, hs]
      refine .grant s hfree ?_
      have hc' : (t.goto (.check ⟨r.granted, s⟩)).calls = .check ⟨r.granted, s⟩ :: rest := by
        simp [Thread.goto, hc]
      rw [leases_of_calls hc, leases_of_calls hc']
      exact List.perm_middle
  | check l =>
    refine .keep (.of_eq ?_)
    simp only [ThreadBinding.advance]
    split
    · rename_i s _
      exact leases_go hc (.release l (.own s)) rfl (by simp [Thread.goto, hc]) rfl
    · exact leases_go hc (.publish l) rfl (by simp [Thread.goto, hc]) rfl
  | publish l =>
    simp only [ThreadBinding.advance, Thread.set]
    split_ifs
    · exact .keep (.of_eq (leases_go hc (.release l .fallback) rfl (by simp [Thread.goto, hc]) rfl))
    · exact .keep (.of_eq (leases_go hc (.arming l) rfl (by simp [Thread.goto, hc]) rfl))
  | arming l =>
    simp only [ThreadBinding.advance, inner.1]
    split_ifs
    · refine .keep (.of_eq ?_)
      rw [leases_of_calls hc, inner.1]
      simp [Thread.leases, Thread.return, hc, Frame.leases]
    · exact .keep (.of_eq (leases_go hc (.unpublish l) rfl (by simp [Thread.goto, hc]) rfl))
  | replace => exact inner.elim
  | unpublish l =>
    exact .keep (.of_eq (leases_go hc (.release l .fallback) (set_fst_guard _)
      (by simp [ThreadBinding.advance, Thread.goto, hc]) rfl))
  | release l a =>
    exact traffic_release hc rfl rfl (by simp [ThreadBinding.advance, Thread.return, hc])
  | markTorn l =>
    exact .keep (.of_eq (leases_go hc (.guardExit l) (set_fst_guard _)
      (by simp [ThreadBinding.advance, Thread.goto, hc]) rfl))
  | guardExit l =>
    refine .keep (.of_eq (leases_congr rfl ?_))
    simp only [ThreadBinding.advance]
    split_ifs <;> simp [Thread.goto, hc, Frame.leases]
  | trimming l =>
    exact .keep (.of_eq (leases_go hc (.guardRelease l) rfl
      (by simp [ThreadBinding.advance, Thread.goto, hc]) rfl))
  | guardRelease l =>
    exact traffic_release hc rfl rfl (by simp [ThreadBinding.advance, hc])

/-- The traffic of each action of a thread: a claim takes a lease, a drop gives one back, and all
other actions keep them. -/
lemma Bound.traffic (h : Bound t) (c : Command) : Traffic r t (ThreadBinding.act c r t).1
    (ThreadBinding.act c r t).2 := by
  cases c with
  | alloc =>
    refine .keep (.of_eq (leases_congr ?_ ?_)) <;>
      simp only [ThreadBinding.act, ThreadBinding.currentForAlloc] <;> split_ifs <;> try rfl
    · split <;> rfl
    · split <;> rfl
  | dealloc =>
    refine .keep (.of_eq (leases_congr ?_ ?_)) <;>
      simp only [ThreadBinding.act, ThreadBinding.currentForDealloc] <;> split_ifs <;> try rfl
    · split <;> rfl
    · split <;> rfl
  | trim =>
    refine .keep (.of_eq (leases_congr ?_ ?_)) <;>
      simp only [ThreadBinding.act, ThreadBinding.currentForTrim] <;> split_ifs <;> try rfl
    · split <;> rfl
    · split <;> rfl
  | dropGuard =>
    simp only [ThreadBinding.act, ThreadBinding.dropGuard]
    split_ifs with hc
    · split
      · exact .keep (.of_eq (leases_congr rfl rfl))
      · rename_i l hg
        refine .keep (.of_eq ?_)
        simp [Thread.leases, hc.1, hg, Frame.leases]
    · exact .keep (.refl _)
  | refuse => exact .keep (.of_eq (leases_congr rfl rfl))
  | go e =>
    simp only [ThreadBinding.act]
    split
    · exact .keep (.refl _)
    · rename_i hc
      exact h.traffic_advance e hc

end ThreadBinding

end SeferAlloc
