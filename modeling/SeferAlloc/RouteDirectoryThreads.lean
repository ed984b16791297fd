import SeferAlloc.RouteDirectoryLinks

/-!
# What a thread knows of its pins

A cached pin is one of a route that a lookup gave out, with its key and its
incarnation. A call knows the route its address had when it began, and the pin
it settles on is one of the route that the directory shows.
-/
namespace SeferAlloc
namespace Routes
open Interleaving RefCounting

/-- A descriptor that a lookup has given out. -/
structure Known (r : Shared) (ρ : ℕ) : Prop where
  lt : ρ < r.fresh
  indexed : (r.entries ρ).indexed = true

/-- What a call knows: the route of its address when it began, and what it has settled on. -/
structure Call.Ok (r : Shared) (c : Call) : Prop where
  route : ∀ ρ, c.route = some ρ → Known r ρ ∧ (r.entries ρ).route.key = segmentBaseOfPtr c.addr
  pin : ∀ ρ ρ', c.outcome = some (some ρ) → c.route = some ρ' → (r.entries ρ').linked = true →
    ρ = ρ'
  missed : ∀ ρ', c.outcome = some none → c.route = some ρ' → (r.entries ρ').linked = true →
    (r.entries ρ').route.contains c.addr = true → r.exiting = true

/-- A pin with what the cache records of it. -/
structure Cached (r : Shared) (ρ base incarnation : ℕ) : Prop where
  known : Known r ρ
  key : base = (r.entries ρ).route.key
  incarnation : incarnation = (r.entries ρ).route.incarnation
  cacheable : (r.entries ρ).route.cacheable = true

/-- Where a thread may go on after a pin is dropped or a sweep is over. -/
def Cont (r : Shared) (t : Thread) : Loc → Prop
  | .idle | .dropCache _ => True
  | .lookup addr => ∃ c, t.call = some c ∧ c.addr = addr
  | .returned _ => ∀ c, t.call = some c → c.outcome ≠ none
  | .sweep _ _ next | .evict _ next | .release _ next | .freeing _ next => Cont r t next
  | .insert ρ base incarnation next => Cached r ρ base incarnation ∧ Cont r t next
  | .store ρ base incarnation next =>
      Cached r ρ base incarnation ∧ t.cache.mask ≠ 0 ∧ Cont r t next
  | _ => False

/-- The descriptor a registration is about to index. -/
def Loc.indexing : Loc → Option ℕ
  | .index ρ | .grow ρ => some ρ
  | _ => none

/-- A small publication through a pin; a borrowed pin is in the cache. -/
structure Publishing (r : Shared) (t : Thread) (ρ : ℕ) (a : After) : Prop where
  known : Known r ρ
  cacheable : a ≠ .drop → (r.entries ρ).route.cacheable = true
  slot : a = .borrowed → ∃ i, (t.cache.slots i).pin = some ρ
  settled : ∀ c, t.call = some c → c.outcome = some (some ρ)

/-- The pin is one of the route of the address. -/
structure Reached (r : Shared) (t : Thread) (ρ addr : ℕ) : Prop where
  key : (r.entries ρ).route.key = segmentBaseOfPtr addr
  contains : (r.entries ρ).route.contains addr = true
  call : ∃ c, t.call = some c ∧ c.addr = addr

/-- The location of a thread fits the shared state and its cache. -/
def At (r : Shared) (t : Thread) : Loc → Prop
  | .probe addr => ∃ c, t.call = some c ∧ c.addr = addr
  | .checkLinked addr i => (∃ c, t.call = some c ∧ c.addr = addr) ∧
      (t.cache.slots i).base = segmentBaseOfPtr addr
  | .found ρ addr => Publishing r t ρ .drop ∧ Reached r t ρ addr
  | .publish ρ addr a | .setBit ρ addr _ a => Publishing r t ρ a ∧ Reached r t ρ addr
  | .loadState ρ a | .casState ρ a | .maskOr ρ a | .summaryOr ρ a => Publishing r t ρ a
  | .largeLoad ρ | .largeCas ρ _ => Publishing r t ρ .drop
  | .index ρ | .grow ρ => (r.entries ρ).indexed = false
  | .create _ | .remove _ | .fatal _ => True
  | l => Cont r t l

/-- A thread fits the shared state. -/
structure Fits (r : Shared) (t : Thread) : Prop where
  slots : ∀ i ρ, (t.cache.slots i).pin = some ρ →
    Cached r ρ (t.cache.slots i).base (t.cache.slots i).incarnation
  mask : t.cache.mask = 0 → ∀ i, (t.cache.slots i).pin = none
  hand : ∀ ρ ∈ t.hand, Known r ρ
  call : ∀ c, t.call = some c → c.Ok r
  loc : At r t t.loc

/-! ## Other threads do not disturb it -/

section Stable
variable {r r' : Shared} (hg : Grows r r')
include hg

lemma Known.mono {ρ : ℕ} (h : Known r ρ) : Known r' ρ :=
  ⟨lt_of_lt_of_le h.lt hg.fresh, hg.indexed ρ h.lt h.indexed⟩

lemma Cached.mono {ρ base incarnation : ℕ} (h : Cached r ρ base incarnation) :
    Cached r' ρ base incarnation := by
  have hr := hg.route ρ h.known.lt
  exact ⟨h.known.mono hg, hr ▸ h.key, hr ▸ h.incarnation, hr ▸ h.cacheable⟩

lemma Call.Ok.mono {c : Call} (h : c.Ok r) : c.Ok r' := by
  refine ⟨fun ρ hρ => ?_, fun ρ ρ' ho hρ hl => ?_, fun ρ' ho hρ hl hc => ?_⟩
  · exact ⟨(h.route ρ hρ).1.mono hg, hg.route ρ (h.route ρ hρ).1.lt ▸ (h.route ρ hρ).2⟩
  · exact h.pin ρ ρ' ho hρ (hg.linked ρ' (h.route ρ' hρ).1.lt hl)
  · have hlt := (h.route ρ' hρ).1.lt
    exact hg.exiting (h.missed ρ' ho hρ (hg.linked ρ' hlt hl) (hg.route ρ' hlt ▸ hc))

lemma Cont.mono {t : Thread} {l : Loc} (h : Cont r t l) : Cont r' t l := by
  induction l with
  | insert ρ base incarnation next ih => exact ⟨h.1.mono hg, ih h.2⟩
  | store ρ base incarnation next ih => exact ⟨h.1.mono hg, h.2.1, ih h.2.2⟩
  | sweep _ _ next ih | evict _ next ih | release _ next ih | freeing _ next ih => exact ih h
  | _ => exact h

lemma Publishing.mono {t : Thread} {ρ : ℕ} {a : After} (h : Publishing r t ρ a) :
    Publishing r' t ρ a :=
  ⟨h.known.mono hg, fun ha => hg.route ρ h.known.lt ▸ h.cacheable ha, h.slot, h.settled⟩

lemma Reached.mono {t : Thread} {ρ addr : ℕ} (h : Reached r t ρ addr) (hk : Known r ρ) :
    Reached r' t ρ addr :=
  ⟨hg.route ρ hk.lt ▸ h.key, hg.route ρ hk.lt ▸ h.contains, h.call⟩

lemma At.mono {t : Thread} {l : Loc} (h : At r t l)
    (hi : ∀ ρ, l.indexing = some ρ → (r'.entries ρ).indexed = false) : At r' t l := by
  cases l with
  | index ρ | grow ρ => exact hi ρ rfl
  | probe | checkLinked | create | remove | fatal => exact h
  | found | publish | setBit => exact ⟨h.1.mono hg, h.2.mono hg h.1.known⟩
  | loadState | casState | maskOr | summaryOr | largeLoad | largeCas =>
      exact Publishing.mono hg h
  | _ => exact Cont.mono hg h

lemma Fits.mono {t : Thread} (h : Fits r t)
    (hi : ∀ ρ, t.loc.indexing = some ρ → (r'.entries ρ).indexed = false) : Fits r' t :=
  ⟨fun i ρ hi => (h.slots i ρ hi).mono hg, h.mask, fun ρ hρ => (h.hand ρ hρ).mono hg,
    fun c hc => (h.call c hc).mono hg, h.loc.mono hg hi⟩

end Stable

/-! ## Its own actions keep it -/

section Own
variable {r : Shared} {t t' : Thread} {l : Loc}

lemma Cont.congr (hcall : t'.call = t.call) (hmask : t.cache.mask ≠ 0 → t'.cache.mask ≠ 0)
    (h : Cont r t l) : Cont r t' l := by
  induction l with
  | insert ρ base incarnation next ih => exact ⟨h.1, ih h.2⟩
  | store ρ base incarnation next ih => exact ⟨h.1, hmask h.2.1, ih h.2.2⟩
  | sweep _ _ next ih | evict _ next ih | release _ next ih | freeing _ next ih => exact ih h
  | lookup | returned => simpa only [Cont, hcall] using h
  | _ => exact h

/-- A continuation is a location. -/
lemma Cont.at (h : Cont r t l) : At r t l := by
  cases l with
  | idle | dropCache | lookup | returned | sweep | insert | store | evict | release | freeing =>
      exact h
  | _ => exact h.elim

lemma Fits.goto (h : Fits r t) (hl : At r (t.goto l) l) : Fits r (t.goto l) :=
  ⟨h.slots, h.mask, h.hand, h.call, hl⟩

lemma Fits.cont (h : Fits r t) (hl : Cont r t l) : Fits r (t.goto l) :=
  h.goto (Cont.at (Cont.congr (t := t) rfl id hl))

/-- A slot is emptied. -/
lemma Fits.vacate (h : Fits r t) (i : Fin pinCacheMaxSlots) (hl : Cont r t l) :
    Fits r ((t.vacate i).goto l) := by
  have hslot : ∀ j, (((t.vacate i).goto l).cache.slots j).pin = none ∨
      ((t.vacate i).goto l).cache.slots j = t.cache.slots j := by
    intro j
    by_cases hj : j = i
    · subst j
      exact .inl (by simp [Thread.goto, Thread.vacate, PinCache.vacate, PinCache.setSlot])
    · exact .inr (Function.update_of_ne hj ..)
  refine ⟨fun j ρ hj => ?_, fun hm j => ?_, h.hand, h.call,
    Cont.at (Cont.congr (t := t) rfl id hl)⟩
  · obtain h0 | h0 := hslot j
    · rw [h0] at hj
      simp at hj
    · rw [h0] at hj ⊢
      exact h.slots j ρ hj
  · obtain h0 | h0 := hslot j
    · exact h0
    · rw [h0]
      exact h.mask hm j

/-- The call settles on the route the directory shows. -/
lemma Call.Ok.settle_some {c : Call} {ρ : ℕ} (hd : Dir r) (h : c.Ok r)
    (hρ : r.directory (segmentBaseOfPtr c.addr) = some ρ) :
    ({ c with outcome := some (some ρ) } : Call).Ok r := by
  refine ⟨h.route, fun b b' hb hb' hl => ?_, fun b' hb => by simp at hb⟩
  obtain ⟨hk, hkey⟩ := h.route b' hb'
  have hdir := hd.linked b' hl hk.indexed
  rw [hkey, hρ] at hdir
  exact (Option.some.inj (Option.some.inj hb)).symm.trans (Option.some.inj hdir)

lemma Call.Ok.settle_none {c : Call} (hd : Dir r) (h : c.Ok r)
    (hmiss : r.find c.addr = none ∨ r.exiting = true) :
    ({ c with outcome := some none } : Call).Ok r := by
  refine ⟨h.route, fun b b' hb => by simp at hb, fun b' _ hb hl hc => ?_⟩
  obtain hmiss | hmiss := hmiss
  · obtain ⟨hk, hkey⟩ := h.route b' hb
    have hdir := hd.linked b' hl hk.indexed
    rw [hkey] at hdir
    rw [Shared.find_eq hdir hc] at hmiss
    simp at hmiss
  · exact hmiss

/-- Settling a call is the only change to it before it returns. -/
lemma Fits.settle {o : Option ℕ} (h : Fits r t)
    (hc : ∀ c, t.call = some c → ({ c with outcome := some o } : Call).Ok r)
    (hl : At r ((t.settle o).goto l) l) : Fits r ((t.settle o).goto l) := by
  refine ⟨h.slots, h.mask, h.hand, fun c hc' => ?_, hl⟩
  change t.call.map _ = some c at hc'
  obtain ⟨c', hc'', rfl⟩ := Option.map_eq_some_iff.mp hc'
  exact hc c' hc''

lemma settle_outcome {o : Option ℕ} {c : Call} (h : (t.settle o).call = some c) :
    c.outcome = some o := by
  change t.call.map _ = some c at h
  obtain ⟨c', -, rfl⟩ := Option.map_eq_some_iff.mp h
  rfl

lemma settle_call {o : Option ℕ} {addr : ℕ} (h : ∃ c, t.call = some c ∧ c.addr = addr) :
    ∃ c, (t.settle o).call = some c ∧ c.addr = addr := by
  obtain ⟨c, hc, ha⟩ := h
  exact ⟨{ c with outcome := some o }, by simp [Thread.settle, hc], ha⟩

/-- What follows a publication is a continuation. -/
lemma Publishing.finish {ρ : ℕ} {a : After} (h : Publishing r t ρ a) (p : Bool) :
    Cont r t (a.finish r ρ p) := by
  have hret : Cont r t (.returned p) := fun c hc => by rw [h.settled c hc]; simp
  cases a with
  | borrowed => exact hret
  | insert => exact ⟨⟨h.known, rfl, rfl, h.cacheable (by simp)⟩, hret⟩
  | drop => exact hret

lemma Publishing.drop {ρ : ℕ} {a : After} (h : Publishing r t ρ a) : Publishing r t ρ .drop :=
  ⟨h.known, fun ha => absurd rfl ha, fun ha => by simp at ha, h.settled⟩

lemma Publishing.goto {ρ : ℕ} {a : After} (h : Publishing r t ρ a) : Publishing r (t.goto l) ρ a :=
  ⟨h.known, h.cacheable, h.slot, h.settled⟩

lemma Reached.goto {ρ addr : ℕ} (h : Reached r t ρ addr) : Reached r (t.goto l) ρ addr :=
  ⟨h.key, h.contains, h.call⟩

lemma Shared.initialSlots_ge (r : Shared) : 4 ≤ r.initialSlots := by
  rw [Shared.initialSlots]
  split_ifs with h
  · exact h.2.1
  · decide

lemma Fits.setCursor (h : Fits r t) (n : ℕ) (hl : Cont r t t.loc) :
    Fits r { t with cache := { t.cache with sweepCursor := n } } :=
  ⟨h.slots, h.mask, h.hand, h.call, Cont.at (Cont.congr (t := t) rfl id hl)⟩

/-- The mask is fixed before the first insertion. -/
lemma Fits.setMask {mask : ℕ} (h : Fits r t) (hm : mask ≠ 0)
    (hl : Cont r { t with cache := { t.cache with mask := mask } } l) :
    Fits r { t with cache := { t.cache with mask := mask }, loc := l } :=
  ⟨h.slots, fun h0 => absurd h0 hm, h.hand, h.call,
    Cont.at (Cont.congr (t := { t with cache := { t.cache with mask := mask } }) rfl id hl)⟩

lemma Fits.store {ρ base incarnation : ℕ} (h : Fits r t) (i : Fin pinCacheMaxSlots)
    (hρ : Cached r ρ base incarnation) (hm : t.cache.mask ≠ 0) (hl : Cont r t l) :
    Fits r { t with cache := t.cache.setSlot i ⟨base, incarnation, some ρ⟩, loc := l } := by
  refine ⟨fun j b hj => ?_, fun h0 => absurd h0 hm, h.hand, h.call,
    Cont.at (Cont.congr (t := t) rfl id hl)⟩
  change (Function.update t.cache.slots i _ j).pin = some b at hj
  change Cached r b (Function.update t.cache.slots i _ j).base
    (Function.update t.cache.slots i _ j).incarnation
  by_cases hji : j = i
  · subst j
    rw [Function.update_self] at hj ⊢
    exact Option.some.inj hj ▸ hρ
  · rw [Function.update_of_ne hji] at hj ⊢
    exact h.slots j b hj

lemma find_known {addr ρ : ℕ} (hd : Dir r) (h : r.find addr = some ρ) : Known r ρ := by
  obtain ⟨h1, -, -, h2⟩ := hd.keyed _ ρ (Shared.find_spec h).1
  exact ⟨h1, h2⟩

lemma start_fits (page : ℕ) (e : Choice) (hd : Dir r) (h : Fits r t) (hl : t.loc = .idle) :
    Fits r (start page e r t).2 := by
  cases hc : e.command with simp only [Routes.start, hc]
  | publishForeign addr =>
      split_ifs
      · exact h
      · refine ⟨h.slots, h.mask, h.hand, fun c hc => ?_, ⟨_, rfl, rfl⟩⟩
        obtain rfl := Option.some.inj hc
        refine ⟨fun ρ hρ => ?_, fun _ _ ho => by simp at ho, fun _ ho => by simp at ho⟩
        obtain ⟨h1, h2, -, h3⟩ := hd.keyed _ ρ hρ
        exact ⟨⟨h1, h3⟩, h2⟩
  | lookup addr =>
      split
      · exact h
      · rename_i ρ hfind
        split_ifs
        · exact h
        · exact h.goto trivial
        · refine ⟨h.slots, h.mask, fun b hb => ?_, h.call, hl ▸ trivial⟩
          obtain rfl | hb := List.mem_cons.mp hb
          · exact find_known hd hfind
          · exact h.hand b hb
  | drop ρ =>
      split_ifs
      · exact ⟨h.slots, h.mask, fun b hb => h.hand b (List.mem_of_mem_erase hb), h.call, trivial⟩
      · exact h
  | insert ρ =>
      split_ifs with hρ
      · exact ⟨h.slots, h.mask, fun b hb => h.hand b (List.mem_of_mem_erase hb), h.call,
          ⟨h.hand ρ hρ.1, rfl, rfl, hρ.2⟩, trivial⟩
      · exact h
  | evict base => exact h.cont trivial
  | exitThread =>
      split_ifs
      · exact ⟨h.slots, h.mask, h.hand, h.call, trivial⟩
      · exact h
  | register start len routeAddr owner kind slot =>
      split_ifs
      · exact h.goto trivial
      · exact h
  | unregister ρ =>
      split_ifs
      · exact ⟨h.slots, h.mask, h.hand, h.call, trivial⟩
      · exact h
  | own ρ sidecar large state => split_ifs <;> exact h
  | publishConfiguredSlots slots => split_ifs <;> exact h
  | beginExit | next => exact h

/-- A thread keeps to its part of the invariant. -/
theorem act_fits (bd : Sidecar.Build) (page : ℕ) (e : Choice) (hd : Dir r) (h : Fits r t) :
    Fits r (act bd page e r t).2 := by
  have hat := h.loc
  cases hl : t.loc with (simp only [act, hl]; rw [hl] at hat)
  | idle => exact start_fits page e hd h hl
  | probe addr =>
      split_ifs with h1 h2
      · exact h.goto ⟨hat, h2.2⟩
      · exact h.cont hat
      · exact h.cont hat
  | checkLinked addr i =>
      split
      · exact h.cont hat.1
      · rename_i ρ hpin
        have hcached := h.slots i ρ hpin
        split_ifs with h1 h2 h3
        · exact h.vacate i hat.1
        · exact h.vacate i hat.1
        · exact h.cont hat.1
        · have hkey : (r.entries ρ).route.key = segmentBaseOfPtr addr :=
            hcached.key.symm.trans hat.2
          obtain ⟨c, hc, rfl⟩ := hat.1
          refine h.settle (fun c' hc' => ?_) ⟨⟨hcached.known, fun _ => hcached.cacheable,
            fun _ => ⟨i, hpin⟩, fun c' hc' => settle_outcome hc'⟩, hkey, by simpa using h3,
            settle_call ⟨c, hc, rfl⟩⟩
          obtain rfl : c = c' := Option.some.inj (hc.symm.trans hc')
          refine (h.call c hc).settle_some hd ?_
          rw [← hkey]
          exact hd.linked ρ (by simpa using h1) hcached.known.indexed
  | lookup addr =>
      obtain ⟨c, hc, rfl⟩ := hat
      have miss : r.find c.addr = none ∨ r.exiting = true → Fits r
          ((t.settle none).goto (.evict (segmentBaseOfPtr c.addr) (.returned false))) := fun hm =>
        h.settle (fun c' hc' => by
            obtain rfl : c = c' := Option.some.inj (hc.symm.trans hc')
            exact (h.call c hc).settle_none hd hm)
          fun c' hc' => by rw [settle_outcome hc']; simp
      split
      · rename_i hfind
        exact miss (.inl hfind)
      · rename_i ρ hfind
        split_ifs with h1
        · exact miss (.inr h1.1)
        · exact h.goto trivial
        · obtain ⟨hdir, hcontains⟩ := Shared.find_spec hfind
          refine h.settle (fun c' hc' => ?_) ⟨⟨find_known hd hfind, fun ha => absurd rfl ha,
            fun ha => by simp at ha, fun c' hc' => settle_outcome hc'⟩,
            (hd.keyed _ ρ hdir).2.1, hcontains, settle_call ⟨c, hc, rfl⟩⟩
          obtain rfl : c = c' := Option.some.inj (hc.symm.trans hc')
          exact (h.call c hc).settle_some hd hdir
  | found ρ addr =>
      obtain ⟨hpub, hreach⟩ := hat
      split_ifs with h1 h2 h3
      · exact h.cont (hpub.finish true)
      · exact h.goto hpub.goto
      · exact h.goto ⟨hpub.goto, hreach.goto⟩
      · refine h.goto ⟨⟨hpub.known, fun _ => ?_, fun ha => by simp at ha, hpub.settled⟩,
          hreach.goto⟩
        simp [Route.cacheable, h2, h3]
  | publish ρ addr a =>
      split_ifs
      · exact h.cont (hat.1.finish false)
      · split
        · exact h.cont (hat.1.finish false)
        · exact h.goto ⟨hat.1.goto, hat.2.goto⟩
  | setBit ρ addr g a => exact h.goto (Publishing.goto hat.1)
  | loadState ρ a =>
      split_ifs
      · exact h.goto (Publishing.goto hat)
      · exact h.cont (Publishing.finish hat true)
  | casState ρ a =>
      split_ifs
      · exact h.goto (Publishing.goto hat)
      · exact h.goto trivial
      · exact h.cont (Publishing.finish hat true)
  | maskOr ρ a => exact h.goto (Publishing.goto hat)
  | summaryOr ρ a => exact h.cont (Publishing.finish hat true)
  | largeLoad ρ => exact h.goto (Publishing.goto hat)
  | largeCas ρ generation =>
      split_ifs
      · exact h.cont (Publishing.finish hat true)
      · exact h.cont (Publishing.finish hat false)
  | returned published => exact ⟨h.slots, h.mask, h.hand, fun c hc => by simp at hc, trivial⟩
  | sweep left budget next =>
      split_ifs
      · exact h.cont hat
      · have hset := h.setCursor ((t.cache.sweepCursor &&& t.cache.mask) + 1 &&& t.cache.mask)
          (by rw [hl]; exact hat)
        have hnext : Cont r { t with cache := { t.cache with
            sweepCursor := (t.cache.sweepCursor &&& t.cache.mask) + 1 &&& t.cache.mask } } next :=
          Cont.congr (t := t) rfl id hat
        split
        · exact hset.cont hnext
        · split_ifs
          · exact hset.cont hnext
          · exact hset.vacate _ hnext
  | insert ρ base incarnation next =>
      have hmask : (if t.cache.mask = 0 then r.initialSlots - 1 else t.cache.mask) ≠ 0 := by
        have := r.initialSlots_ge
        split_ifs <;> omega
      by_cases hb : t.alive = true ∧ ¬e.busy = true
      · rw [if_pos hb]
        exact h.setMask hmask ⟨hat.1, hmask, Cont.congr (t := t) rfl (fun _ => hmask) hat.2⟩
      · rw [if_neg hb]
        exact h.cont hat.2
  | store ρ base incarnation next =>
      split
      · exact h.vacate _ hat
      · exact h.store _ hat.1 hat.2.1 hat.2.2
  | evict base next =>
      split
      · exact h.cont hat
      · split_ifs
        · exact h.vacate _ hat
        · exact h.cont hat
  | release ρ next => split_ifs <;> exact h.cont hat
  | freeing ρ next => exact h.cont hat
  | dropCache i =>
      split_ifs
      · split
        · exact h.cont trivial
        · exact h.vacate _ trivial
      · exact h.cont trivial
  | create x =>
      split_ifs
      · exact h.cont trivial
      · exact h.goto (hd.blank r.fresh le_rfl)
  | index ρ =>
      split_ifs
      · exact h.cont trivial
      · split
        · exact h.cont trivial
        · exact h.goto hat
      · split
        · exact h.cont trivial
        · exact ⟨h.slots, h.mask, h.hand, h.call, trivial⟩
  | grow ρ =>
      split_ifs
      · exact h.cont trivial
      · exact h.goto hat
  | remove ρ =>
      split_ifs
      · exact ⟨h.slots, h.mask, h.hand, h.call, trivial⟩
      · exact h.cont trivial
      · exact h.goto trivial
  | fatal l => exact h

end Own

end Routes
end SeferAlloc
