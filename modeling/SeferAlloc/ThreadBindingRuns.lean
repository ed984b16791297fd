import SeferAlloc.ThreadBinding

/-!
# Runs of threads that bind heaps

In every run a lease that a claim returned is in one place: in the guard of one
thread, in the hands of one call, or dropped once. A thread that reads a heap
has its lease.
-/
namespace SeferAlloc
namespace ThreadBinding
open Interleaving

variable {ι : Type*} [DecidableEq ι]

/-! ## The ledger of the registry -/

/-- The registry and the leases that the threads hold. -/
structure Ledger (r : Registry) (held : ι → List Lease) : Prop where
  leased : ∀ i, ∀ l ∈ held i, r.leased l.slot = true
  granted : ∀ i, ∀ l ∈ held i, l.id < r.granted
  kept : ∀ i, ∀ l ∈ held i, l.id ∉ r.dropped
  one : ∀ i j, ∀ l ∈ held i, ∀ m ∈ held j, l.slot = m.slot ∨ l.id = m.id → i = j ∧ l = m
  nodup : ∀ i, (held i).Nodup
  holder : ∀ s, r.leased s = true → ∃ i, ∃ l ∈ held i, l.slot = s
  dropped_nodup : r.dropped.Nodup
  dropped_lt : ∀ n ∈ r.dropped, n < r.granted
  somewhere : ∀ n < r.granted, n ∈ r.dropped ∨ ∃ i, ∃ l ∈ held i, l.id = n

variable {r : Registry} {held held' : ι → List Lease} {i : ι}

lemma Ledger.new : Ledger Registry.new fun _ : ι => [] where
  leased _ _ hl := absurd hl List.not_mem_nil
  granted _ _ hl := absurd hl List.not_mem_nil
  kept _ _ hl := absurd hl List.not_mem_nil
  one _ _ _ hl := absurd hl List.not_mem_nil
  nodup _ := List.nodup_nil
  holder _ hs := absurd hs Bool.false_ne_true
  dropped_nodup := List.nodup_nil
  dropped_lt _ hn := absurd hn List.not_mem_nil
  somewhere _ hn := absurd hn (Nat.not_lt_zero _)

lemma Ledger.keep (h : Ledger r held) (hp : ∀ j, (held' j).Perm (held j)) : Ledger r held' where
  leased j l hl := h.leased j l ((hp j).mem_iff.mp hl)
  granted j l hl := h.granted j l ((hp j).mem_iff.mp hl)
  kept j l hl := h.kept j l ((hp j).mem_iff.mp hl)
  one j k l hl m hm := h.one j k l ((hp j).mem_iff.mp hl) m ((hp k).mem_iff.mp hm)
  nodup j := (hp j).nodup_iff.mpr (h.nodup j)
  holder s hs := by
    obtain ⟨j, l, hl, rfl⟩ := h.holder s hs
    exact ⟨j, l, (hp j).mem_iff.mpr hl, rfl⟩
  dropped_nodup := h.dropped_nodup
  dropped_lt := h.dropped_lt
  somewhere n hn := by
    refine (h.somewhere n hn).imp_right ?_
    rintro ⟨j, l, hl, rfl⟩
    exact ⟨j, l, (hp j).mem_iff.mpr hl, rfl⟩

/-- A granted lease is new, and its slot was under no lease. -/
lemma Ledger.grant (h : Ledger r held) {s : ℕ} (hfree : r.leased s = false)
    (hi : (held' i).Perm (⟨r.granted, s⟩ :: held i)) (ho : ∀ j, j ≠ i → held' j = held j) :
    Ledger { r with
      granted := r.granted + 1
      leased := Function.update r.leased s true } held' := by
  have hmem : ∀ j l, l ∈ held' j → l ∈ held j ∨ (j = i ∧ l = ⟨r.granted, s⟩) := by
    intro j l hl
    by_cases hj : j = i
    · subst j
      obtain rfl | hl := List.mem_cons.mp (hi.mem_iff.mp hl)
      · exact .inr ⟨rfl, rfl⟩
      · exact .inl hl
    · exact .inl (ho j hj ▸ hl)
  have hback : ∀ j l, l ∈ held j → l ∈ held' j := by
    intro j l hl
    by_cases hj : j = i
    · subst j
      exact hi.mem_iff.mpr (List.mem_cons_of_mem _ hl)
    · exact ho j hj ▸ hl
  have hnew : (⟨r.granted, s⟩ : Lease) ∈ held' i := hi.mem_iff.mpr (List.mem_cons_self ..)
  -- Nobody held the slot or the number.
  have fresh : ∀ j, ∀ l ∈ held j, ¬ (l.slot = s ∨ l.id = r.granted) := by
    rintro j l hl (hs | hn)
    · exact Bool.false_ne_true (hfree.symm.trans (hs ▸ h.leased j l hl))
    · exact (h.granted j l hl).ne hn
  refine ⟨fun j l hl => ?_, fun j l hl => ?_, fun j l hl => ?_, fun j k l hl m hm he => ?_,
    fun j => ?_, fun x hx => ?_, h.dropped_nodup, fun n hn => ?_, fun n hn => ?_⟩
  · obtain hl | ⟨-, rfl⟩ := hmem j l hl
    · have hne : l.slot ≠ s := fun hs => fresh j l hl (.inl hs)
      change Function.update r.leased s true l.slot = true
      rw [Function.update_of_ne hne]
      exact h.leased j l hl
    · exact Function.update_self ..
  · obtain hl | ⟨-, rfl⟩ := hmem j l hl
    · exact Nat.lt_succ_of_lt (h.granted j l hl)
    · exact Nat.lt_succ_self _
  · obtain hl | ⟨-, rfl⟩ := hmem j l hl
    · exact h.kept j l hl
    · exact fun hn => (h.dropped_lt _ hn).ne rfl
  · obtain hl | ⟨rfl, rfl⟩ := hmem j l hl <;> obtain hm | ⟨rfl, rfl⟩ := hmem k m hm
    · exact h.one j k l hl m hm he
    · exact (fresh j l hl he).elim
    · exact (fresh k m hm (he.imp Eq.symm Eq.symm)).elim
    · exact ⟨rfl, rfl⟩
  · by_cases hj : j = i
    · subst j
      exact hi.nodup_iff.mpr (List.nodup_cons.mpr
        ⟨fun hl => fresh i _ hl (.inl rfl), h.nodup i⟩)
    · exact ho j hj ▸ h.nodup j
  · by_cases hxs : x = s
    · exact ⟨i, _, hnew, hxs.symm⟩
    · change Function.update r.leased s true x = true at hx
      rw [Function.update_of_ne hxs] at hx
      obtain ⟨j, l, hl, rfl⟩ := h.holder x hx
      exact ⟨j, l, hback j l hl, rfl⟩
  · exact Nat.lt_succ_of_lt (h.dropped_lt n hn)
  · obtain hn | rfl := Nat.lt_succ_iff_lt_or_eq.mp hn
    · refine (h.somewhere n hn).imp_right ?_
      rintro ⟨j, l, hl, rfl⟩
      exact ⟨j, l, hback j l hl, rfl⟩
    · exact .inr ⟨i, _, hnew, rfl⟩

/-- A dropped lease frees its slot, of which there is no other lease. -/
lemma Ledger.drop (h : Ledger r held) {l : Lease} (hi : (held i).Perm (l :: held' i))
    (ho : ∀ j, j ≠ i → held' j = held j) : Ledger (dropLease l r) held' := by
  have hl : l ∈ held i := hi.mem_iff.mpr (List.mem_cons_self ..)
  have hback : ∀ j m, m ∈ held' j → m ∈ held j := by
    intro j m hm
    by_cases hj : j = i
    · subst j
      exact hi.mem_iff.mpr (List.mem_cons_of_mem _ hm)
    · exact ho j hj ▸ hm
  have hmem : ∀ j m, m ∈ held j → m ∈ held' j ∨ m = l := by
    intro j m hm
    by_cases hj : j = i
    · subst j
      exact (List.mem_cons.mp (hi.mem_iff.mp hm)).symm
    · exact .inl (ho j hj ▸ hm)
  have hnot : l ∉ held' i := (List.nodup_cons.mp (hi.nodup_iff.mp (h.nodup i))).1
  -- No lease that is left has the slot or the number.
  have other : ∀ j, ∀ m ∈ held' j, ¬ (m.slot = l.slot ∨ m.id = l.id) := by
    intro j m hm he
    obtain ⟨rfl, rfl⟩ := h.one j i m (hback j m hm) l hl he
    exact hnot hm
  refine ⟨fun j m hm => ?_, fun j m hm => h.granted j m (hback j m hm), fun j m hm => ?_,
    fun j k m hm n hn => h.one j k m (hback j m hm) n (hback k n hn), fun j => ?_, fun x hx => ?_,
    ?_, fun n hn => ?_, fun n hn => ?_⟩
  · have hne : m.slot ≠ l.slot := fun hs => other j m hm (.inl hs)
    change Function.update r.leased l.slot false m.slot = true
    rw [Function.update_of_ne hne]
    exact h.leased j m (hback j m hm)
  · intro hd
    obtain hd | hd := List.mem_append.mp hd
    · exact h.kept j m (hback j m hm) hd
    · exact other j m hm (.inr (List.mem_singleton.mp hd))
  · by_cases hj : j = i
    · subst j
      exact (List.nodup_cons.mp (hi.nodup_iff.mp (h.nodup i))).2
    · exact ho j hj ▸ h.nodup j
  · change Function.update r.leased l.slot false x = true at hx
    have hne : x ≠ l.slot := by
      rintro rfl
      rw [Function.update_self] at hx
      exact Bool.false_ne_true hx
    rw [Function.update_of_ne hne] at hx
    obtain ⟨j, m, hm, rfl⟩ := h.holder x hx
    obtain hm | rfl := hmem j m hm
    · exact ⟨j, m, hm, rfl⟩
    · exact absurd rfl hne
  · refine List.nodup_append.mpr ⟨h.dropped_nodup, List.nodup_singleton _, ?_⟩
    rintro n hn m hm rfl
    exact h.kept i l hl (List.mem_singleton.mp hm ▸ hn)
  · obtain hn | hn := List.mem_append.mp hn
    · exact h.dropped_lt n hn
    · exact List.mem_singleton.mp hn ▸ h.granted i l hl
  · obtain hd | ⟨j, m, hm, rfl⟩ := h.somewhere n hn
    · exact .inl (List.mem_append_left _ hd)
    · obtain hm | rfl := hmem j m hm
      · exact .inr ⟨j, m, hm, rfl⟩
      · exact .inl (List.mem_append_right _ (List.mem_singleton_self _))

/-- The ledger follows the traffic of the thread that acts. -/
lemma Ledger.traffic {loc : ι → Thread} {r' : Registry} {t' : Thread}
    (h : Ledger r fun j => (loc j).leases) (ht : Traffic r (loc i) r' t') :
    Ledger r' fun j => (Function.update loc i t' j).leases := by
  have ho : ∀ j, j ≠ i → (Function.update loc i t' j).leases = (loc j).leases := fun j hj => by
    rw [Function.update_of_ne hj]
  have hi : (Function.update loc i t' i).leases = t'.leases := by rw [Function.update_self]
  cases ht with
  | keep hp =>
    refine h.keep fun j => ?_
    by_cases hj : j = i
    · subst j
      exact hi ▸ hp
    · rw [ho j hj]
  | grant s hfree hp => exact h.grant (i := i) hfree (hi ▸ hp) ho
  | drop l hp => exact h.drop (i := i) (hi ▸ hp) ho

/-! ## The invariant of a run -/

/-- What holds of every state that is reached. -/
structure Kept (w : World ι Registry Thread) : Prop where
  bound : ∀ i, Bound (w.loc i)
  ledger : Ledger w.shared fun i => (w.loc i).leases

variable {w : World ι Registry Thread} {l : Lease} {s : ℕ}

lemma Kept.start : Kept (start ι) where
  bound _ := .new
  ledger := .new

lemma Kept.step (h : Kept w) (i : ι) (c : Command) : Kept (w.step act i c) where
  bound := World.step_forall (A := fun _ => Bound) h.bound ((h.bound i).act c) fun _ _ hj => hj
  ledger := h.ledger.traffic ((h.bound i).traffic c)

lemma Kept.run (xs : List (ι × Command)) : Kept (World.run act xs (ThreadBinding.start ι)) :=
  World.run_invariant (I := Kept) (fun _ i c h => h.step i c) xs .start

/-- A heap that a thread can read in `LOCAL` is under a lease of this thread. -/
lemma Bound.lease_of_read {t : Thread} (h : Bound t) (hr : t.read = some (.heap s)) :
    ∃ l ∈ t.leases, l.slot = s := by
  have inner := h.inner
  obtain ⟨hgone, hloc⟩ := read_eq_some hr
  have settled : Settled t → ∃ l ∈ t.leases, l.slot = s := by
    intro hs
    obtain ⟨l, hl, rfl⟩ := hs.guard_of_read hr
    exact ⟨l, by simp [Thread.leases, hl], rfl⟩
  have inHand : ∀ f l, f ∈ t.calls → l ∈ f.leases → (t.gone = true ∨ t.loc = .heap l.slot) →
      ∃ l ∈ t.leases, l.slot = s := by
    intro f l hf hl h
    refine ⟨l, List.mem_append_right _ (List.mem_flatMap.mpr ⟨f, hf, hl⟩), ?_⟩
    simpa [hgone, hloc, eq_comm] using h
  cases hc : t.calls with
  | nil => exact settled (by rwa [hc] at inner)
  | cons f rest =>
    rw [hc] at inner
    have hf : f ∈ t.calls := by simp [hc]
    cases f with
    | exitCheck | retryAllowed | claiming | check => exact settled inner
    | publish | release => exact settled inner.1
    | arming l | unpublish l | markTorn l => exact inHand _ l hf (by simp [Frame.leases]) inner.2
    | replace => exact inner.elim
    | guardExit | trimming | guardRelease =>
      have htorn := inner.2
      simp [hgone, hloc] at htorn

/-- Two threads do not read the same heap. -/
lemma Kept.read_unique (h : Kept w) {i j : ι} (hi : (w.loc i).read = some (.heap s))
    (hj : (w.loc j).read = some (.heap s)) : i = j := by
  obtain ⟨l, hl, rfl⟩ := (h.bound i).lease_of_read hi
  obtain ⟨m, hm, he⟩ := (h.bound j).lease_of_read hj
  exact (h.ledger.one i j l hl m hm (.inl he.symm)).1

/-- The lease in the hands of the innermost call, where the next action drops it. -/
def Frame.dropping : Frame → Option Lease
  | .release l _ | .guardRelease l => some l
  | _ => none

/-- A thread that drops a lease does not read its heap. -/
lemma Bound.dropping {t : Thread} {f : Frame} {rest : List Frame} (h : Bound t)
    (hn : t.leases.Nodup)
    (huniq : ∀ l ∈ t.leases, ∀ m ∈ t.leases, l.slot = m.slot → l = m)
    (hc : t.calls = f :: rest) (hf : f.dropping = some l) : t.read ≠ some (.heap l.slot) := by
  intro hr
  have inner : Holds t f := by
    have inner := h.inner
    rwa [hc] at inner
  have hmem : l ∈ f.leases := by
    cases f <;> simp_all [Frame.dropping, Frame.leases]
  have hl : l ∈ t.calls.flatMap Frame.leases := by
    rw [hc]
    exact List.mem_flatMap.mpr ⟨f, List.mem_cons_self .., hmem⟩
  obtain ⟨hgone, hloc⟩ := read_eq_some hr
  have settled : ¬ Settled t := by
    intro hs
    obtain ⟨m, hm, he⟩ := hs.guard_of_read hr
    have hmg : m ∈ t.guard.toList := by simp [hm]
    obtain rfl := huniq m (List.mem_append_left _ hmg) l (List.mem_append_right _ hl) he
    exact (List.nodup_append.mp hn).2.2 m hmg m hl rfl
  cases f with
  | release => exact settled inner.1
  | guardRelease => exact settled (settled_of_null inner.1 (inner.2.imp_right fun h s => by simp [h]))
  | _ => simp [Frame.dropping] at hf

/-- No thread reads a heap whose lease a thread is about to drop. -/
lemma Kept.dropping (h : Kept w) {f : Frame} {rest : List Frame} {i : ι}
    (hc : (w.loc i).calls = f :: rest) (hf : f.dropping = some l) (j : ι) :
    (w.loc j).read ≠ some (.heap l.slot) := by
  intro hr
  have hl : l ∈ (w.loc i).leases := by
    rw [leases_of_calls hc]
    cases f <;> simp_all [Frame.dropping, Frame.leases]
  obtain ⟨m, hm, he⟩ := (h.bound j).lease_of_read hr
  obtain ⟨rfl, -⟩ := h.ledger.one i j l hl m hm (.inl he.symm)
  exact (h.bound i).dropping (h.ledger.nodup i)
    (fun l hl m hm he => (h.ledger.one i i l hl m hm (.inl he)).2) hc hf hr

/-! ## Calls end -/

/-- How many actions a call at a frame takes at most. -/
def Frame.rank : Frame → ℕ
  | .exitCheck => 9
  | .retryAllowed => 8
  | .claiming => 7
  | .check _ => 6
  | .publish _ => 5
  | .arming _ | .markTorn _ => 4
  | .replace _ _ | .unpublish _ | .guardExit _ => 3
  | .release _ _ | .trimming _ => 2
  | .guardRelease _ => 1

/-- How many actions the calls of a thread take at most. -/
def Thread.work (t : Thread) : ℕ := (t.calls.map Frame.rank).sum

/-- Each action of a call shortens the work that is left. -/
lemma work_advance {t : Thread} {f : Frame} {rest : List Frame} (e : Chance)
    (hc : t.calls = f :: rest) : (advance e r t f).2.work < t.work := by
  have go : ∀ (t₀ : Thread) (f' : Frame), t₀.calls = t.calls → f'.rank < f.rank →
      (t₀.goto f').work < t.work := fun t₀ f' h hf => by
    simpa [Thread.work, Thread.goto, h, hc] using hf
  have hpos : 0 < f.rank := by cases f <;> simp [Frame.rank]
  have back : ∀ (t₀ : Thread) (a : Answer), t₀.calls = t.calls →
      (t₀.return a).work < t.work := fun t₀ a h => by
    simpa [Thread.work, Thread.return, h, hc] using hpos
  cases f with
  | exitCheck =>
    simp only [advance]
    split_ifs
    · exact back _ _ rfl
    · exact go _ _ rfl (by simp [Frame.rank])
  | retryAllowed =>
    simp only [advance, saturationRetryAllowed]
    split_ifs
    · exact go { t with gate := _ } _ rfl (by simp [Frame.rank])
    · exact back { t with gate := _ } _ rfl
    · exact go _ _ rfl (by simp [Frame.rank])
  | claiming =>
    obtain hn | ⟨s, -, hs⟩ := claimLease_cases e r
    · simp only [advance, hn]
      exact back _ _ (by unfold recordSaturationVerdict; split_ifs <;> rfl)
    · simp only [advance, hs]
      exact go _ _ rfl (by simp [Frame.rank])
  | check l =>
    simp only [advance]
    split <;> exact go _ _ rfl (by simp [Frame.rank])
  | publish l =>
    simp only [advance, Thread.set]
    split_ifs
    · exact go _ _ rfl (by simp [Frame.rank])
    · exact go { t with loc := _ } _ rfl (by simp [Frame.rank])
  | arming l =>
    simp only [advance]
    split_ifs
    · cases t.guard with
      | none => exact back { t with guard := _ } _ rfl
      | some old => exact go { t with guard := _ } _ rfl (by simp [Frame.rank])
    · exact go _ _ rfl (by simp [Frame.rank])
  | replace l old => exact back { t with guard := _ } _ rfl
  | unpublish l => exact go _ _ (set_fst_calls _) (by simp [Frame.rank])
  | release l a => exact back _ _ rfl
  | markTorn l => exact go _ _ (set_fst_calls _) (by simp [Frame.rank])
  | guardExit l =>
    simp only [advance]
    split_ifs <;> exact go _ _ rfl (by simp [Frame.rank])
  | trimming l => exact go _ _ rfl (by simp [Frame.rank])
  | guardRelease l => simp [advance, Thread.work, hc, Frame.rank]

/-- A thread that only goes on with its calls ends them. -/
lemma calls_end (es : List Chance) (h : (w.loc i).work ≤ es.length) :
    ((World.run act (es.map fun e => (i, Command.go e)) w).loc i).calls = [] := by
  induction es generalizing w with
  | nil =>
    cases hc : (w.loc i).calls with
    | nil => exact hc
    | cons f rest =>
      have hlt := work_advance (r := w.shared) ⟨false, 0, false, false, none⟩ hc
      have hz : (w.loc i).work = 0 := Nat.le_zero.mp h
      omega
  | cons e es ih =>
    refine ih ?_
    rw [World.step_loc_self]
    cases hc : (w.loc i).calls with
    | nil =>
      have hstay : (act (.go e) w.shared (w.loc i)).2 = w.loc i := by simp only [act, hc]
      rw [hstay]
      simp [Thread.work, hc]
    | cons f rest =>
      have hgo : (act (.go e) w.shared (w.loc i)).2 = (advance e w.shared (w.loc i) f).2 := by
        simp only [act, hc]
      have hlt := work_advance (r := w.shared) e hc
      rw [hgo]
      simp only [List.length_cons] at h
      omega

/-! ## The lease of a claim -/

/-- The lease is in the guard of one thread. -/
def Stored (w : World ι Registry Thread) (n : ℕ) : Prop :=
  ∃ i l, (w.loc i).guard = some l ∧ l.id = n ∧ ∀ j m, (w.loc j).guard = some m → m.id = n → j = i

/-- The lease is in one place of one thread: its guard, or one of its calls. -/
def InUse (w : World ι Registry Thread) (n : ℕ) : Prop :=
  ∃ i l, (w.loc i).leases.count l = 1 ∧ l.id = n ∧
    ∀ j, ∀ m ∈ (w.loc j).leases, m.id = n → j = i ∧ m = l

/-- The lease was dropped once, and no thread has it. -/
def Dropped (w : World ι Registry Thread) (n : ℕ) : Prop :=
  w.shared.dropped.count n = 1 ∧ ∀ j, ∀ m ∈ (w.loc j).leases, m.id ≠ n

lemma Kept.inUse_or_dropped (h : Kept w) {n : ℕ} (hn : n < w.shared.granted) :
    (InUse w n ∧ w.shared.dropped.count n = 0) ∨ Dropped w n := by
  obtain hd | ⟨i, l, hl, rfl⟩ := h.ledger.somewhere n hn
  · refine .inr ⟨List.count_eq_one_of_mem h.ledger.dropped_nodup hd, ?_⟩
    rintro j m hm rfl
    exact h.ledger.kept j m hm hd
  · refine .inl ⟨⟨i, l, List.count_eq_one_of_mem (h.ledger.nodup i) hl, rfl, ?_⟩, ?_⟩
    · intro j m hm he
      exact h.ledger.one j i m hm l hl (.inr he)
    · exact List.count_eq_zero_of_not_mem (h.ledger.kept i l hl)

lemma leases_of_idle {t : Thread} (hc : t.calls = []) : t.leases = t.guard.toList := by
  simp [Thread.leases, hc]

/-- Where no call is left, a lease that is in use is in a guard. -/
lemma InUse.stored {n : ℕ} (h : InUse w n) (hc : ∀ i, (w.loc i).calls = []) : Stored w n := by
  obtain ⟨i, l, hl, rfl, hu⟩ := h
  have hmem : l ∈ (w.loc i).leases := List.one_le_count_iff.mp hl.ge
  rw [leases_of_idle (hc i)] at hmem
  refine ⟨i, l, by simpa using hmem, rfl, fun j m hm he => (hu j m ?_ he).1⟩
  simp [leases_of_idle (hc j), hm]

/-! ## The two ways a bind gives its lease back -/

/-- A bind that finds a binding keeps it and drops its own lease. -/
lemma bind_finds_binding {rest : List Frame} (e e' : Chance)
    (hc : (w.loc i).calls = .check l :: rest) (hr : (w.loc i).read = some (.heap s)) :
    World.run act [(i, .go e), (i, .go e')] w =
      ⟨dropLease l w.shared, Function.update w.loc i
        { w.loc i with calls := rest, answer := some (.own s) }⟩ := by
  have hfirst : act (.go e) w.shared (w.loc i) =
      (w.shared, (w.loc i).goto (.release l (.own s))) := by
    simp only [act, hc, advance, hr]
  have hsecond : act (.go e') w.shared ((w.loc i).goto (.release l (.own s))) =
      (dropLease l w.shared, { w.loc i with calls := rest, answer := some (.own s) }) := by
    simp only [act, Thread.goto, advance, Thread.return, hc, List.tail_cons]
  simp only [World.run, World.step, hfirst, Function.update_self, Function.update_idem, hsecond]

/-- A bind that cannot arm the guard resets `LOCAL`, with its lease still in hand. -/
lemma bind_unarmed {rest : List Frame} (e e' : Chance) (he : e.guardOk = false)
    (hc : (w.loc i).calls = .arming l :: rest) :
    World.run act [(i, .go e), (i, .go e')] w =
      ⟨w.shared, Function.update w.loc i
        (((w.loc i).set .null).1.goto (.release l .fallback))⟩ := by
  have hfirst : act (.go e) w.shared (w.loc i) = (w.shared, (w.loc i).goto (.unpublish l)) := by
    simp only [act, hc, advance, he, Bool.false_eq_true, if_false]
  simp only [World.run, World.step, hfirst, Function.update_self, Function.update_idem]
  have hsecond : act (.go e') w.shared ((w.loc i).goto (.unpublish l)) =
      (w.shared, ((w.loc i).set .null).1.goto (.release l .fallback)) := by
    cases hgone : (w.loc i).gone with
    | true => simp [act, advance, Thread.goto, Thread.set, hc, hgone]
    | false => simp [act, advance, Thread.goto, Thread.set, hc, hgone]
  rw [hsecond]

/-- While a bind gives its lease back, what it answers is under the lease of the guard. -/
lemma Kept.answer_of_release (h : Kept w) {rest : List Frame}
    (hc : (w.loc i).calls = .release l (.own s) :: rest) :
    ∃ m, (w.loc i).guard = some m ∧ m.slot = s ∧ m ≠ l := by
  have inner := (h.bound i).inner
  rw [hc] at inner
  obtain ⟨m, hm, hs⟩ := inner.2 s rfl
  refine ⟨m, hm, hs, ?_⟩
  rintro rfl
  have hn := h.ledger.nodup i
  simp only [leases_of_calls hc, hm] at hn
  simp [Frame.leases] at hn

/-- A thread that is outside any call, and reads `LOCAL`, holds a heap there iff its guard holds the
lease of this heap. No two threads read one heap; who reads it has its lease, and its slot is under
no other. Each lease that a claim returned is in one place or was dropped once, and where no call is
left this place is a guard; no slot stays under a lease that nobody has. While a lease is dropped
nobody reads its heap: a bind that found another binding keeps that one, and a bind that cannot arm
the guard has reset `LOCAL` with its lease still in hand. Calls end. -/
theorem binding_exact (xs : List (ι × Command)) :
    let w := World.run act xs (start ι)
    (∀ i, (w.loc i).calls = [] → (w.loc i).gone = false →
      ∀ s, (w.loc i).loc = .heap s ↔ ∃ l, (w.loc i).guard = some l ∧ l.slot = s) ∧
    (∀ i j s, (w.loc i).read = some (.heap s) → (w.loc j).read = some (.heap s) → i = j) ∧
    (∀ i s, (w.loc i).read = some (.heap s) →
      ∃ l ∈ (w.loc i).leases, l.slot = s ∧ w.shared.leased s = true ∧
        ∀ j, ∀ m ∈ (w.loc j).leases, m.slot = s → j = i ∧ m = l) ∧
    (∀ n < w.shared.granted, (InUse w n ∧ w.shared.dropped.count n = 0) ∨ Dropped w n) ∧
    ((∀ i, (w.loc i).calls = []) → ∀ n < w.shared.granted,
      (Stored w n ∧ w.shared.dropped.count n = 0) ∨ Dropped w n) ∧
    (∀ s, w.shared.leased s = true → ∃ i, ∃ l ∈ (w.loc i).leases, l.slot = s) ∧
    (∀ i f rest l, (w.loc i).calls = f :: rest → f.dropping = some l →
      ∀ j, (w.loc j).read ≠ some (.heap l.slot)) ∧
    (∀ i l s rest, (w.loc i).calls = .release l (.own s) :: rest →
      ∃ m, (w.loc i).guard = some m ∧ m.slot = s ∧ m ≠ l) ∧
    (∀ i l s rest e e', (w.loc i).calls = .check l :: rest → (w.loc i).read = some (.heap s) →
      World.run act [(i, .go e), (i, .go e')] w =
        ⟨dropLease l w.shared, Function.update w.loc i
          { w.loc i with calls := rest, answer := some (.own s) }⟩) ∧
    (∀ i l rest e e', e.guardOk = false → (w.loc i).calls = .arming l :: rest →
      World.run act [(i, .go e), (i, .go e')] w =
        ⟨w.shared, Function.update w.loc i
          (((w.loc i).set .null).1.goto (.release l .fallback))⟩) ∧
    ∀ i (es : List Chance), (w.loc i).work ≤ es.length →
      ((World.run act (es.map fun e => (i, Command.go e)) w).loc i).calls = [] := by
  intro w
  have h : Kept w := Kept.run xs
  refine ⟨fun i hc hgone => ?_, fun i j s => h.read_unique, fun i s hr => ?_,
    fun n => h.inUse_or_dropped, fun hc n hn => ?_, h.ledger.holder,
    fun i f rest l hc hf => h.dropping hc hf, fun i l s rest => h.answer_of_release,
    fun i l s rest e e' => bind_finds_binding e e', fun i l rest e e' => bind_unarmed e e',
    fun i es => calls_end es⟩
  · have inner := (h.bound i).inner
    rw [hc] at inner
    exact inner.resolve_left (by simp [hgone])
  · obtain ⟨l, hl, rfl⟩ := (h.bound i).lease_of_read hr
    exact ⟨l, hl, rfl, h.ledger.leased i l hl,
      fun j m hm he => h.ledger.one j i m hm l hl (.inl he)⟩
  · exact (h.inUse_or_dropped hn).imp_left fun hu => ⟨hu.1.stored hc, hu.2⟩

end ThreadBinding

end SeferAlloc
