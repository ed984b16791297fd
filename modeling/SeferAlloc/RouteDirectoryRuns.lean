import SeferAlloc.RouteDirectoryThreads

/-!
# Route pins along every schedule

Every schedule keeps the counts, the directory and what each thread knows. A
descriptor is freed once, after its last reference; and a free that began while
its address belonged to a route goes to that route as long as it stays linked.
-/
namespace SeferAlloc
namespace Routes
open Interleaving RefCounting

/-- What holds of every state the threads can reach. -/
structure Inv {ι : Type*} [Fintype ι] (w : World ι Shared Thread) : Prop where
  balanced : ∀ ρ, Balanced view w ρ
  dir : Dir w.shared
  single : ∀ ρ, (w.shared.entries ρ).indexed = false → (w.shared.entries ρ).refs ≤ 1
  fits : ∀ i, Fits w.shared (w.loc i)
  covered : ∀ k ρ, w.Covered (fun r => r.directory k ≠ some ρ) fun _ t => ρ ∈ t.registers

lemma Loc.removing_subset (l : Loc) : l.removing ⊆ l.pins := by
  induction l with
  | fatal l ih => exact ih
  | remove ρ => exact List.Subset.refl _
  | _ => exact List.nil_subset _

/-- The registration of a thread is one of its references. -/
lemma handles_of_registers {t : Thread} {ρ : ℕ} (h : ρ ∈ t.registers) : 0 < t.handles ρ := by
  simp only [Thread.registers, List.mem_append] at h
  simp only [Thread.handles]
  obtain (h | h) | h := h
  · have := List.count_pos_iff.mpr h
    omega
  · have := List.count_pos_iff.mpr h
    omega
  · have := List.count_pos_iff.mpr (t.loc.removing_subset h)
    omega

/-- The descriptor of a registration that is not indexed yet is held by its thread. -/
lemma handles_of_indexing {t : Thread} {ρ : ℕ} (h : t.loc.indexing = some ρ) :
    0 < t.handles ρ := by
  have hp : ρ ∈ t.loc.pins := by
    cases hl : t.loc <;> simp_all [Loc.indexing, Loc.pins]
  have := List.count_pos_iff.mpr hp
  simp only [Thread.handles]
  omega

lemma Fits.indexing {r : Shared} {t : Thread} (h : Fits r t) {ρ : ℕ}
    (hρ : t.loc.indexing = some ρ) : (r.entries ρ).indexed = false := by
  have hat := h.loc
  cases hl : t.loc <;> rw [hl] at hat hρ <;>
    first | (obtain rfl := Option.some.inj hρ; exact hat) | simp [Loc.indexing] at hρ

/-- A descriptor becomes indexed only by its own registration. -/
lemma Change.indexed {r r' : Shared} {t t' : Thread} (h : Change r r' t t') {ρ : ℕ}
    (h0 : (r.entries ρ).indexed = false) (h1 : (r'.entries ρ).indexed = true) :
    t.loc = .index ρ ∧ t'.loc = .idle := by
  obtain hs | ⟨x, rfl⟩ | ⟨b, hl, hl', -, rfl⟩ | ⟨b, -, rfl⟩ := h.still
  · simp [hs.indexed, h0] at h1
  · have := congrFun (create_field (·.indexed) r x) ρ
    by_cases hρ : ρ = r.fresh
    · subst ρ
      simp [this, Entry.new] at h1
    · simp [this, Function.update_of_ne hρ, h0] at h1
  · rw [insert_indexed, h0, Bool.or_false, decide_eq_true_eq] at h1
    exact ⟨h1 ▸ hl, hl'⟩
  · simp [unlink_same (·.indexed) r b ρ fun _ => rfl, h0] at h1

/-- A descriptor that is not indexed is not pinned. -/
lemma Change.single {r r' : Shared} {t t' : Thread} (h : Change r r' t t') (hd : Dir r)
    (hs : ∀ ρ, (r.entries ρ).indexed = false → (r.entries ρ).refs ≤ 1) {ρ : ℕ}
    (hρ : (r'.entries ρ).indexed = false) : (r'.entries ρ).refs ≤ 1 := by
  cases h with
  | quiet hr hh he hm =>
      rw [hr.refs]
      exact hs ρ (hr.indexed ρ ▸ hρ)
  | create x hr hl ht =>
      subst hr
      have h1 := congrFun (create_field (·.refs) r x) ρ
      have h2 := congrFun (create_field (·.indexed) r x) ρ
      by_cases hf : ρ = r.fresh
      · subst ρ
        simp [h1, Entry.new]
      · rw [Function.update_of_ne hf] at h1 h2
        exact h1.le.trans (hs ρ (h2.symm.trans hρ))
  | insert b hl hd hr ht =>
      subst hr
      rw [insert_indexed, Bool.or_eq_false_iff] at hρ
      exact (insert_same (·.refs) r b ρ fun _ => rfl).le.trans (hs ρ hρ.2)
  | unlink b hl hd hr ht =>
      subst hr
      exact (unlink_same (·.refs) r b ρ fun _ => rfl).le.trans
        (hs ρ ((unlink_same (·.indexed) r b ρ fun _ => rfl).symm.trans hρ))
  | retain b addr hfind hr hh he hm =>
      subst hr
      have h1 := congrFun (modify_field (·.refs) r b fun x => { x with refs := x.refs + 1 }) ρ
      have h2 : (r.entries ρ).indexed = false :=
        (modify_same (·.indexed) r b (f := fun x => { x with refs := x.refs + 1 })
          (fun _ => rfl) ρ).symm.trans hρ
      have hb : ρ ≠ b := by
        rintro rfl
        exact absurd (find_known hd hfind).indexed (by simp [h2])
      rw [Function.update_of_ne hb] at h1
      exact h1.le.trans (hs ρ h2)
  | release b next hl hr ht =>
      subst hr
      have h1 := congrFun (modify_field (·.refs) r b fun x => { x with refs := x.refs - 1 }) ρ
      have h2 := hs ρ ((modify_same (·.indexed) r b (f := fun x => { x with refs := x.refs - 1 })
          (fun _ => rfl) ρ).symm.trans hρ)
      by_cases hb : ρ = b
      · subst ρ
        rw [Function.update_self] at h1
        exact h1.le.trans ((Nat.sub_le _ _).trans h2)
      · rw [Function.update_of_ne hb] at h1
        exact h1.le.trans h2
  | reclaim b next hl hr ht =>
      subst hr
      have h1 := modify_same (·.refs) r b (f := fun x => { x with freed := x.freed + 1 })
        (fun _ => rfl) ρ
      have h2 := modify_same (·.indexed) r b (f := fun x => { x with freed := x.freed + 1 })
        (fun _ => rfl) ρ
      exact h1.le.trans (hs ρ (h2.symm.trans hρ))

/-- The registration of a route in the directory stays with its thread. -/
lemma Change.registered {r r' : Shared} {t t' : Thread} (h : Change r r' t t') {k ρ : ℕ}
    (hd : Dir r) (hk : r.directory k ≠ some ρ ∨ ρ ∈ t.registers) :
    r'.directory k ≠ some ρ ∨ ρ ∈ t'.registers := by
  cases h with
  | quiet hr hh he hm => exact hr.directory ▸ hk.imp_right (hm ρ)
  | create x hr hl ht =>
      subst hr ht
      simp only [Thread.registers, Thread.goto, hl, Loc.removing] at hk ⊢
      exact hk
  | insert b hl hfree hr ht =>
      subst hr ht
      simp only [Thread.registers, hl, Loc.removing, List.append_nil, List.cons_append,
        List.mem_cons] at hk ⊢
      by_cases hkey : k = (r.entries b).route.key
      · subst k
        change Function.update r.directory _ (some b) _ ≠ some ρ ∨ _
        rw [Function.update_self]
        by_cases hb : ρ = b
        · exact .inr (.inl hb)
        · exact .inl fun he => hb (Option.some.inj he).symm
      · change Function.update r.directory _ (some b) k ≠ some ρ ∨ _
        rw [Function.update_of_ne hkey]
        exact hk.imp_right .inr
  | unlink b hl hdir hr ht =>
      subst hr ht
      change Function.update r.directory (r.entries b).route.key none k ≠ some ρ ∨ _
      by_cases hkey : k = (r.entries b).route.key
      · subst k
        exact .inl (by simp)
      · rw [Function.update_of_ne hkey]
        by_cases hb : ρ = b
        · subst ρ
          exact .inl fun he => hkey (hd.keyed k b he).2.1.symm
        · simp only [Thread.registers, Thread.goto, hl, Loc.removing, List.mem_append,
            List.mem_singleton, hb, or_false, List.append_nil] at hk ⊢
          exact hk
  | retain b addr hfind hr hh he hm =>
      subst hr
      rw [hm]
      exact hk
  | release b next hl hr ht =>
      subst hr ht
      simp only [Thread.registers, Thread.goto, hl, Loc.removing, List.append_nil] at hk ⊢
      exact hk.imp_right (List.mem_append_left _)
  | reclaim b next hl hr ht =>
      subst hr ht
      simp only [Thread.registers, Thread.goto, hl, Loc.removing, List.append_nil] at hk ⊢
      exact hk.imp_right (List.mem_append_left _)

section Worlds
variable {ι : Type*} [Fintype ι] {w : World ι Shared Thread}

/-- What a lookup finds has a registration, so it is alive. -/
lemma Inv.find_pos (h : Inv w) {addr ρ : ℕ} (hfind : w.shared.find addr = some ρ) :
    0 < (w.shared.entries ρ).refs := by
  obtain hne | ⟨j, hj⟩ := h.covered (segmentBaseOfPtr addr) ρ
  · exact absurd (Shared.find_spec hfind).1 hne
  · exact ((h.balanced ρ).of_held (handles_of_registers hj)).2.1

lemma Inv.fresh_freed (h : Inv w) : (w.shared.entries w.shared.fresh).freed = 0 := by
  have := ((h.balanced w.shared.fresh).unborn (by simp [view])).2
  exact (Nat.add_eq_zero_iff.mp this).1

variable [DecidableEq ι] (bd : Sidecar.Build) (page : ℕ)

/-- Every action of every thread keeps the invariant. -/
theorem Inv.step (h : Inv w) (i : ι) (e : Choice) : Inv (w.step (act bd page) i e) := by
  have hc := act_change bd page e w.shared (w.loc i)
  have hg := hc.grows
  have hown := act_fits bd page e h.dir (h.fits i)
  have hindexing : ∀ ρ, (w.loc i).loc = .index ρ → ρ < w.shared.fresh ∧
      (w.shared.entries ρ).indexed = false := by
    intro ρ hl
    have hi : (w.loc i).loc.indexing = some ρ := by rw [hl]; rfl
    have hborn := ((h.balanced ρ).of_held (handles_of_indexing hi)).1
    exact ⟨by simpa [view] using hborn, (h.fits i).indexing hi⟩
  refine ⟨Balanced.step h.balanced (hc.effect (fun _ _ => h.find_pos) h.fresh_freed),
    h.dir.change hc hindexing, fun ρ hρ => hc.single h.dir h.single hρ, fun j => ?_,
    fun k ρ => ?_⟩
  · by_cases hj : j = i
    · subst j
      rw [World.step_loc_self]
      refine hown.mono hg fun ρ hρ => ?_
      by_contra hne
      have hidle := (hc.indexed (hown.indexing hρ) (by simpa using hne)).2
      rw [hidle] at hρ
      simp [Loc.indexing] at hρ
    · rw [World.step_loc_of_ne hj]
      refine (h.fits j).mono hg fun ρ hρ => ?_
      -- Two threads cannot both hold a descriptor that is not indexed yet.
      by_contra hne
      have h0 := (h.fits j).indexing hρ
      have hi := (hc.indexed h0 (by simpa using hne)).1
      have h2 := (h.balanced ρ).two_le hj (handles_of_indexing hρ)
        (handles_of_indexing (show (w.loc i).loc.indexing = some ρ by rw [hi]; rfl))
      have h3 : (w.shared.entries ρ).refs ≤ 1 := h.single ρ h0
      exact absurd h2 (by simp only [view]; omega)
  · exact World.Covered.step_loc (h.covered k ρ) fun hk => hc.registered h.dir hk

end Worlds

/-- No route, and every thread idle with an empty cache. -/
def initial (ι : Type*) : World ι Shared Thread := ⟨.new, fun _ => .new⟩

lemma Inv.initial (ι : Type*) [Fintype ι] : Inv (initial ι) := by
  have hheld : ∀ ρ, Thread.new.handles ρ = 0 := fun ρ => by
    simp [Thread.handles, Thread.new, PinCache.occupied, PinCache.empty, Loc.pins]
  have htotal : ∀ ρ, total (view.held · ρ) (Routes.initial ι) = 0 := fun ρ =>
    total_eq_zero.mpr fun _ => hheld ρ
  have hending : ∀ ρ, total (view.ending · ρ) (Routes.initial ι) = 0 := fun ρ =>
    total_eq_zero.mpr fun _ => rfl
  refine ⟨fun ρ => ?_, ?_, fun _ _ => Nat.zero_le _, fun i => ?_, fun k ρ => .inl (by
    simp [Routes.initial, Shared.new])⟩
  · rw [RefCounting.Balanced, htotal, hending]
    exact ⟨rfl, fun h => by simp [view, Routes.initial, Shared.new] at h,
      fun h => by simp [view, Routes.initial, Shared.new] at h, fun _ => ⟨rfl, rfl⟩⟩
  · exact ⟨fun k ρ h => by simp [Routes.initial, Shared.new] at h,
      fun ρ _ h => by simp [Routes.initial, Shared.new, Entry.new] at h, fun _ _ => rfl,
      fun _ _ => rfl⟩
  · exact ⟨fun i ρ h => by simp [Routes.initial, Thread.new, PinCache.empty] at h,
      fun _ _ => rfl, fun ρ h => by simp [Routes.initial, Thread.new] at h,
      fun c h => by simp [Routes.initial, Thread.new] at h, trivial⟩

/-- The invariant along every schedule. -/
theorem run_inv {ι : Type*} [Fintype ι] [DecidableEq ι] (bd : Sidecar.Build) (page : ℕ)
    (xs : List (ι × Choice)) : Inv (World.run (act bd page) xs (initial ι)) :=
  World.run_invariant (fun _ i e h => h.step bd page i e) xs (.initial ι)

/-! ## What it gives -/

/-- The same place in a small publication, through a fresh pin and through a borrowed one. -/
inductive Twin (ρ : ℕ) : Loc → Loc → Prop
  | publish (addr : ℕ) : Twin ρ (.publish ρ addr .insert) (.publish ρ addr .borrowed)
  | setBit (addr g : ℕ) : Twin ρ (.setBit ρ addr g .insert) (.setBit ρ addr g .borrowed)
  | loadState : Twin ρ (.loadState ρ .insert) (.loadState ρ .borrowed)
  | casState : Twin ρ (.casState ρ .insert) (.casState ρ .borrowed)
  | maskOr : Twin ρ (.maskOr ρ .insert) (.maskOr ρ .borrowed)
  | summaryOr : Twin ρ (.summaryOr ρ .insert) (.summaryOr ρ .borrowed)

/-- Both publications are over, with the same answer; the fresh pin goes to the cache. -/
inductive Over (r : Shared) (ρ : ℕ) : Loc → Loc → Prop
  | returned (p : Bool) : Over r ρ (After.insert.finish r ρ p) (.returned p)
  | fatal (l l' : Loc) : Over r ρ (.fatal l) (.fatal l')

/-- A publication through a fresh pin and one through a borrowed pin act alike. -/
theorem Twin.act_eq (bd : Sidecar.Build) (page : ℕ) (e : Choice) (r : Shared) (t t' : Thread) {ρ : ℕ}
    {l l' : Loc} (h : Twin ρ l l') :
    (act bd page e r (t.goto l)).1 = (act bd page e r (t'.goto l')).1 ∧
    (Twin ρ (act bd page e r (t.goto l)).2.loc (act bd page e r (t'.goto l')).2.loc ∨
      Over r ρ (act bd page e r (t.goto l)).2.loc (act bd page e r (t'.goto l')).2.loc) := by
  cases h with
  | publish addr =>
      simp only [act, Thread.goto]
      split_ifs
      · exact ⟨rfl, .inr (.returned false)⟩
      · split
        · exact ⟨rfl, .inr (.returned false)⟩
        · exact ⟨rfl, .inl (.setBit _ _)⟩
  | setBit addr g => exact ⟨rfl, .inl .loadState⟩
  | loadState =>
      simp only [act, Thread.goto]
      split_ifs
      · exact ⟨trivial, .inl .casState⟩
      · exact ⟨trivial, .inr (.returned true)⟩
  | casState =>
      simp only [act, Thread.goto]
      split_ifs
      · exact ⟨rfl, .inl .maskOr⟩
      · exact ⟨rfl, .inr (.fatal _ _)⟩
      · exact ⟨rfl, .inr (.returned true)⟩
  | maskOr => exact ⟨rfl, .inl .summaryOr⟩
  | summaryOr => exact ⟨rfl, .inr (.returned true)⟩

/-- The mask is set once, by the first insertion. -/
lemma act_mask (bd : Sidecar.Build) (page : ℕ) (e : Choice) (r : Shared) (t : Thread) :
    (act bd page e r t).2.cache.mask = t.cache.mask ∨ t.cache.mask = 0 := by
  cases hl : t.loc with simp only [act, hl]
  | idle =>
      refine .inl ?_
      cases hc : e.command <;> simp only [start, hc] <;> (repeat' split) <;> rfl
  | insert ρ base incarnation next =>
      by_cases hm : t.cache.mask = 0
      · exact .inr hm
      · refine .inl ?_
        split_ifs <;> rfl
  | returned | fatal => exact .inl trivial
  | _ =>
      refine .inl ?_
      first | rfl | ((repeat' split) <;> rfl)

/-- The pin a thread is publishing through. -/
def Loc.through : Loc → Option ℕ
  | .found ρ _ | .publish ρ _ _ | .setBit ρ _ _ _ | .loadState ρ _ | .casState ρ _ | .maskOr ρ _
  | .summaryOr ρ _ | .largeLoad ρ | .largeCas ρ _ => some ρ
  | _ => none

lemma At.settled {r : Shared} {t : Thread} {l : Loc} {ρ : ℕ} (h : At r t l)
    (hρ : l.through = some ρ) : ∀ c, t.call = some c → c.outcome = some (some ρ) := by
  cases l with
  | found b | publish b | setBit b =>
      obtain rfl : b = ρ := Option.some.inj hρ
      exact h.1.settled
  | loadState b | casState b | maskOr b | summaryOr b | largeLoad b | largeCas b =>
      obtain rfl : b = ρ := Option.some.inj hρ
      exact Publishing.settled h
  | _ => simp [Loc.through] at hρ

/-- A pin in use is held by the thread that uses it. -/
lemma handles_of_through {r : Shared} {t : Thread} {ρ : ℕ} (h : Fits r t)
    (hρ : t.loc.through = some ρ) : 0 < t.handles ρ := by
  have hat := h.loc
  have own : ρ ∈ t.loc.pins → 0 < t.handles ρ := fun hp => by
    have := List.count_pos_iff.mpr hp
    simp only [Thread.handles]
    omega
  have small : ∀ {a : After}, Publishing r t ρ a →
      t.loc.pins = (if a = .borrowed then [] else [ρ]) → 0 < t.handles ρ := by
    intro a hpub hp
    by_cases ha : a = .borrowed
    · obtain ⟨i, hi⟩ := hpub.slot ha
      have := PinCache.occupied_vacate hi ρ
      rw [one_self] at this
      simp only [Thread.handles]
      omega
    · rw [if_neg ha] at hp
      exact own (by simp [hp])
  cases hl : t.loc with rw [hl] at hat hρ
  | found b | largeLoad b | largeCas b =>
      obtain rfl : b = ρ := Option.some.inj hρ
      exact own (by simp [hl, Loc.pins])
  | publish b | setBit b =>
      obtain rfl : b = ρ := Option.some.inj hρ
      exact small hat.1 (by rw [hl]; rfl)
  | loadState b | casState b | maskOr b | summaryOr b =>
      obtain rfl : b = ρ := Option.some.inj hρ
      exact small hat (by rw [hl]; rfl)
  | _ => simp [Loc.through] at hρ

/-- What the counts, the caches and the calls of all threads promise in a state. The handles of a
thread are its registrations, the pins it has in hand or works with, and one for each occupied
slot of its cache. -/
structure PinsSound {ι : Type*} [Fintype ι] (bd : Sidecar.Build) (page : ℕ)
    (w : World ι Shared Thread) : Prop where
  counted : ∀ ρ, (w.shared.entries ρ).refs = ∑ i, (w.loc i).handles ρ
  freedOnce : ∀ ρ, (w.shared.entries ρ).freed ≤ 1
  freedLast : ∀ ρ, 0 < (w.shared.entries ρ).freed → (∀ k, w.shared.directory k ≠ some ρ) ∧
    ((w.shared.entries ρ).indexed = true → (w.shared.entries ρ).linked = false) ∧
    ∀ i, (w.loc i).handles ρ = 0
  freedFinally : ∀ ρ, ρ < w.shared.fresh → (∀ i, (w.loc i).handles ρ = 0) →
    (∀ i, (w.loc i).freeing ρ = 0) → (w.shared.entries ρ).freed = 1
  held : ∀ i ρ, 0 < (w.loc i).handles ρ → (w.shared.entries ρ).freed = 0
  inUse : ∀ i ρ, (w.loc i).loc.through = some ρ → (w.shared.entries ρ).freed = 0
  found : ∀ addr ρ, w.shared.find addr = some ρ → (w.shared.entries ρ).freed = 0
  /-- While the route is linked, a fresh lookup gives the pin that was cached, and it is used in
  the same way. -/
  likeFresh : ∀ i ρ addr, (w.loc i).loc = .publish ρ addr .borrowed →
    (w.shared.entries ρ).linked = true → w.shared.find addr = some ρ ∧
    ∀ e (t : Thread), act bd page e (w.shared.pin ρ) (t.goto (.found ρ addr)) =
      (w.shared.pin ρ, t.goto (.publish ρ addr .insert))
  through : ∀ i c ρ ρ', (w.loc i).call = some c → (w.loc i).loc.through = some ρ →
    c.route = some ρ' → (w.shared.entries ρ').linked = true → ρ = ρ'
  notSwallowed : ∀ i c p ρ', (w.loc i).call = some c → (w.loc i).loc = .returned p →
    c.route = some ρ' → (w.shared.entries ρ').linked = true →
    (w.shared.entries ρ').route.contains c.addr = true → w.shared.exiting = false →
    c.outcome = some (some ρ')
  mask : ∀ i e, (act bd page e w.shared (w.loc i)).2.cache.mask ≠ (w.loc i).cache.mask →
    ∀ s, ((w.loc i).cache.slots s).pin = none

theorem Inv.pinsSound {ι : Type*} [Fintype ι] {w : World ι Shared Thread} (h : Inv w)
    (bd : Sidecar.Build) (page : ℕ) : PinsSound bd page w := by
  refine ⟨fun ρ => (h.balanced ρ).counted, fun ρ => (h.balanced ρ).freed_le_one, fun ρ hf => ?_,
    fun ρ hlt hh he => (h.balanced ρ).freed_of_dropped (by simpa [view] using hlt) hh he,
    fun i ρ hi => ((h.balanced ρ).of_held hi).2.2,
    fun i ρ hi => ((h.balanced ρ).of_held (handles_of_through (h.fits i) hi)).2.2,
    fun addr ρ hfind => ?_,
    fun i ρ addr hl hlinked => ?_, fun i c ρ ρ' hc hρ hr hl => ?_,
    fun i c p ρ' hc hl hr hlinked hcontains hexit => ?_, fun i e hne => ?_⟩
  · obtain ⟨-, hheld⟩ := (h.balanced ρ).of_freed hf
    have hdir : ∀ k, w.shared.directory k ≠ some ρ := by
      intro k
      obtain hk | ⟨j, hj⟩ := h.covered k ρ
      · exact hk
      · exact absurd (hheld j) (Nat.ne_of_gt (handles_of_registers hj))
    refine ⟨hdir, fun hi => ?_, hheld⟩
    by_contra hl
    exact hdir _ (h.dir.linked ρ (by simpa using hl) hi)
  · have hpos : 0 < view.count w.shared ρ := h.find_pos hfind
    exact (Nat.add_eq_zero_iff.mp ((h.balanced ρ).alive hpos)).1
  · have hat := (h.fits i).loc
    rw [hl] at hat
    obtain ⟨hpub, hreach⟩ := hat
    have hdir := h.dir.linked ρ hlinked hpub.known.indexed
    rw [hreach.key] at hdir
    refine ⟨Shared.find_eq hdir hreach.contains, fun e t => ?_⟩
    have hroute : ((w.shared.pin ρ).entries ρ).route = (w.shared.entries ρ).route :=
      modify_same (·.route) w.shared ρ (f := fun x => { x with refs := x.refs + 1 }) (fun _ => rfl) ρ
    have hcache := hpub.cacheable (by simp)
    simp only [Route.cacheable, Bool.and_eq_true, decide_eq_true_eq] at hcache
    simp only [act, Thread.goto, hroute, hcache, false_and, if_false]
  · exact ((h.fits i).call c hc).pin ρ ρ' ((h.fits i).loc.settled hρ c hc) hr hl
  · have hcall := (h.fits i).call c hc
    have hat := (h.fits i).loc
    rw [hl] at hat
    cases ho : c.outcome with
    | none => exact absurd ho (hat c hc)
    | some found =>
        cases found with
        | none =>
            have := hcall.missed ρ' ho hr hlinked hcontains
            rw [hexit] at this
            simp at this
        | some ρ => rw [hcall.pin ρ ρ' ho hr hlinked]
  · obtain heq | hzero := act_mask bd page e w.shared (w.loc i)
    · exact absurd heq hne
    · exact (h.fits i).mask hzero

/-- Along every schedule a descriptor is freed once, after it is unlinked and its last pin is
gone; cached pins publish what fresh ones would, and never for a route that came later. -/
theorem run_pinsSound {ι : Type*} [Fintype ι] [DecidableEq ι] (bd : Sidecar.Build) (page : ℕ)
    (xs : List (ι × Choice)) : PinsSound bd page (World.run (act bd page) xs (initial ι)) ∧
    ∀ ρ l l', Twin ρ l l' → ∀ e r (t t' : Thread),
      (act bd page e r (t.goto l)).1 = (act bd page e r (t'.goto l')).1 ∧
      (Twin ρ (act bd page e r (t.goto l)).2.loc (act bd page e r (t'.goto l')).2.loc ∨
        Over r ρ (act bd page e r (t.goto l)).2.loc (act bd page e r (t'.goto l')).2.loc) :=
  ⟨(run_inv bd page xs).pinsSound bd page, fun _ _ _ h e r t t' => h.act_eq bd page e r t t'⟩

end Routes
end SeferAlloc
