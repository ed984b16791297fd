import SeferAlloc.RouteDirectory

/-!
# The references to a route descriptor

A descriptor is referred to by its registration, by the pins a thread has in
hand or is working with, and by the occupied slots of the pin caches. Every
action creates a descriptor, indexes or unlinks it, takes or drops one
reference, frees it, or leaves all counts alone.
-/
namespace SeferAlloc
namespace Routes
open Interleaving RefCounting

/-- The references a location is working with. -/
def Loc.pins : Loc → List ℕ
  | .found ρ _ | .largeLoad ρ | .largeCas ρ _ | .index ρ | .grow ρ | .remove ρ => [ρ]
  | .publish ρ _ a | .setBit ρ _ _ a | .loadState ρ a | .casState ρ a | .maskOr ρ a
  | .summaryOr ρ a => if a = .borrowed then [] else [ρ]
  | .insert ρ _ _ next | .store ρ _ _ next | .release ρ next => ρ :: next.pins
  | .sweep _ _ next | .evict _ next | .freeing _ next | .fatal next => next.pins
  | _ => []

/-- The descriptors whose last reference was dropped and that are still to be freed. -/
def Loc.owed : Loc → List ℕ
  | .freeing ρ next => ρ :: next.owed
  | .insert _ _ _ next | .store _ _ _ next | .release _ next | .sweep _ _ next | .evict _ next
  | .fatal next => next.owed
  | _ => []

def Loc.removing : Loc → List ℕ
  | .remove ρ => [ρ]
  | .fatal l => l.removing
  | _ => []

/-- The occupied slots with a pin of the descriptor. -/
def PinCache.occupied (c : PinCache) (ρ : ℕ) : ℕ :=
  ∑ i, if (c.slots i).pin = some ρ then 1 else 0

namespace Thread

/-- The registrations of the thread that have not been removed. -/
def registers (t : Thread) : List ℕ := t.regs ++ t.leaked ++ t.loc.removing

/-- All references of the thread to a descriptor. -/
def handles (t : Thread) (ρ : ℕ) : ℕ :=
  t.regs.count ρ + t.leaked.count ρ + t.hand.count ρ + t.cache.occupied ρ + t.loc.pins.count ρ

def freeing (t : Thread) (ρ : ℕ) : ℕ := t.loc.owed.count ρ

end Thread

/-- The counters of the descriptors. -/
def view : View Shared Thread ℕ where
  born r ρ := decide (ρ < r.fresh)
  count r ρ := (r.entries ρ).refs
  freed r ρ := (r.entries ρ).freed
  held := Thread.handles
  ending := Thread.freeing

/-! ## Slots -/

lemma PinCache.occupied_setSlot (c : PinCache) (i : Fin pinCacheMaxSlots) (s : PinCacheSlot)
    (ρ : ℕ) : (c.setSlot i s).occupied ρ + (if (c.slots i).pin = some ρ then 1 else 0) =
      c.occupied ρ + if s.pin = some ρ then 1 else 0 :=
  sum_update (fun s : PinCacheSlot => if s.pin = some ρ then 1 else 0) c.slots i s

lemma PinCache.occupied_vacate {c : PinCache} {i : Fin pinCacheMaxSlots} {ρ : ℕ}
    (h : (c.slots i).pin = some ρ) (b : ℕ) :
    c.occupied b = (c.vacate i).occupied b + one ρ b := by
  have := c.occupied_setSlot i { c.slots i with pin := none } b
  rw [h] at this
  simpa [one, vacate] using this.symm

lemma PinCache.occupied_store {c : PinCache} {i : Fin pinCacheMaxSlots}
    (h : (c.slots i).pin = none) (base incarnation ρ b : ℕ) :
    (c.setSlot i ⟨base, incarnation, some ρ⟩).occupied b = c.occupied b + one ρ b := by
  have := c.occupied_setSlot i ⟨base, incarnation, some ρ⟩ b
  rw [h] at this
  simpa [one] using this

lemma count_cons_one (ρ b : ℕ) (l : List ℕ) : (ρ :: l).count b = l.count b + one ρ b := by
  simp [List.count_cons, one]

lemma count_erase_one {ρ : ℕ} {l : List ℕ} (h : ρ ∈ l) (b : ℕ) :
    l.count b = (l.erase ρ).count b + one ρ b := by
  rw [← count_cons_one]
  exact (List.perm_cons_erase h).count_eq b

/-! ## What an action changes -/

/-- Nothing that concerns the counts or the directory changes. -/
structure Quiet (r r' : Shared) : Prop where
  fresh : r'.fresh = r.fresh
  directory : r'.directory = r.directory
  exiting : r.exiting = true → r'.exiting = true
  route : ∀ ρ, (r'.entries ρ).route = (r.entries ρ).route
  refs : ∀ ρ, (r'.entries ρ).refs = (r.entries ρ).refs
  linked : ∀ ρ, (r'.entries ρ).linked = (r.entries ρ).linked
  indexed : ∀ ρ, (r'.entries ρ).indexed = (r.entries ρ).indexed
  freed : ∀ ρ, (r'.entries ρ).freed = (r.entries ρ).freed

lemma Quiet.refl (r : Shared) : Quiet r r :=
  ⟨rfl, rfl, id, fun _ => rfl, fun _ => rfl, fun _ => rfl, fun _ => rfl, fun _ => rfl⟩

/-- A write to the sidecar or the ingress state of a route. -/
lemma Quiet.modify (r : Shared) (ρ : ℕ) {f : Entry → Entry} (h : ∀ x, (f x).route = x.route ∧
    (f x).refs = x.refs ∧ (f x).linked = x.linked ∧ (f x).indexed = x.indexed ∧
    (f x).freed = x.freed) : Quiet r (r.modify ρ f) := by
  have hx : ∀ b, (r.modify ρ f).entries b = r.entries b ∨
      (r.modify ρ f).entries b = f (r.entries b) := by
    intro b
    by_cases hb : b = ρ
    · subst b
      exact .inr (Function.update_self ..)
    · exact .inl (Function.update_of_ne hb ..)
  refine ⟨rfl, rfl, id, fun b => ?_, fun b => ?_, fun b => ?_, fun b => ?_, fun b => ?_⟩ <;>
    obtain h1 | h1 := hx b <;> rw [h1]
  exacts [(h _).1, (h _).2.1, (h _).2.2.1, (h _).2.2.2.1, (h _).2.2.2.2]

/-- What one action does to the descriptors, the directory and the references of its thread. -/
inductive Change (r r' : Shared) (t t' : Thread) : Prop
  | quiet (hr : Quiet r r') (hh : t'.handles = t.handles) (he : t'.freeing = t.freeing)
      (hm : ∀ ρ ∈ t.registers, ρ ∈ t'.registers)
  | create (x : Route) (hr : r' = r.create x) (hl : t.loc = .create x)
      (ht : t' = t.goto (.index r.fresh))
  | insert (ρ : ℕ) (hl : t.loc = .index ρ) (hd : r.directory (r.entries ρ).route.key = none)
      (hr : r' = r.insert ρ) (ht : t' = { t with regs := ρ :: t.regs, loc := .idle })
  | unlink (ρ : ℕ) (hl : t.loc = .remove ρ) (hd : r.directory (r.entries ρ).route.key = some ρ)
      (hr : r' = r.unlink ρ) (ht : t' = t.goto (.release ρ .idle))
  | retain (ρ addr : ℕ) (hd : r.find addr = some ρ) (hr : r' = r.pin ρ)
      (hh : ∀ b, t'.handles b = t.handles b + one ρ b) (he : t'.freeing = t.freeing)
      (hm : t'.registers = t.registers)
  | release (ρ : ℕ) (next : Loc) (hl : t.loc = .release ρ next) (hr : r' = r.unpin ρ)
      (ht : t' = t.goto (if (r.entries ρ).refs = 1 then .freeing ρ next else next))
  | reclaim (ρ : ℕ) (next : Loc) (hl : t.loc = .freeing ρ next) (hr : r' = r.free ρ)
      (ht : t' = t.goto next)

/-- The thread goes on with the same references. -/
lemma Change.same {r r' : Shared} {t t' : Thread} (hr : Quiet r r') (hregs : t'.regs = t.regs)
    (hleaked : t'.leaked = t.leaked) (hhand : t'.hand = t.hand)
    (hslots : t'.cache.slots = t.cache.slots) (hp : t'.loc.pins = t.loc.pins)
    (ho : t'.loc.owed = t.loc.owed) (hm : t.loc.removing ⊆ t'.loc.removing) :
    Change r r' t t' := by
  refine .quiet hr ?_ ?_ fun ρ h => ?_
  · funext b
    simp [Thread.handles, PinCache.occupied, hregs, hleaked, hhand, hslots, hp]
  · funext b
    simp [Thread.freeing, ho]
  · simp only [Thread.registers, hregs, hleaked, List.mem_append] at h ⊢
    exact h.imp_right fun h => hm h

lemma Change.go {r r' : Shared} {t : Thread} {l : Loc} (hr : Quiet r r')
    (hp : l.pins = t.loc.pins) (ho : l.owed = t.loc.owed) (hm : t.loc.removing ⊆ l.removing) :
    Change r r' t (t.goto l) := .same hr rfl rfl rfl rfl hp ho hm

/-- A pin leaves its slot to be dropped. -/
lemma Change.unslot {r : Shared} {t t' : Thread} {i : Fin pinCacheMaxSlots} {ρ : ℕ}
    (h : (t.cache.slots i).pin = some ρ) (hregs : t'.regs = t.regs)
    (hleaked : t'.leaked = t.leaked) (hhand : t'.hand = t.hand)
    (hslots : t'.cache.slots = (t.cache.vacate i).slots) (hp : t'.loc.pins = ρ :: t.loc.pins)
    (ho : t'.loc.owed = t.loc.owed) (hm : t.loc.removing = []) : Change r r t t' := by
  refine .quiet (.refl r) ?_ ?_ fun b hb => ?_
  · funext b
    have h1 := PinCache.occupied_vacate h b
    have h2 := count_cons_one ρ b t.loc.pins
    simp only [Thread.handles, PinCache.occupied, hregs, hleaked, hhand, hslots, hp] at h1 ⊢
    omega
  · funext b
    simp [Thread.freeing, ho]
  · simp only [Thread.registers, hregs, hleaked, hm, List.append_nil] at hb ⊢
    exact List.mem_append_left _ hb

lemma Change.vacate {r : Shared} {t : Thread} {i : Fin pinCacheMaxSlots} {ρ : ℕ} {l : Loc}
    (h : (t.cache.slots i).pin = some ρ) (hp : l.pins = ρ :: t.loc.pins)
    (ho : l.owed = t.loc.owed) (hm : t.loc.removing = []) :
    Change r r t ((t.vacate i).goto l) := .unslot h rfl rfl rfl rfl hp ho hm

@[simp] lemma After.finish_pins (r : Shared) (ρ : ℕ) (p : Bool) (a : After) :
    (a.finish r ρ p).pins = if a = .borrowed then [] else [ρ] := by cases a <;> rfl

@[simp] lemma After.finish_owed (r : Shared) (ρ : ℕ) (p : Bool) (a : After) :
    (a.finish r ρ p).owed = [] := by cases a <;> rfl

/-- A pin in hand is given up to `next`. -/
lemma Change.unhand {r : Shared} {t : Thread} {ρ : ℕ} {l : Loc} (h : ρ ∈ t.hand)
    (hl : t.loc = .idle) (hp : l.pins = [ρ]) (ho : l.owed = []) :
    Change r r t { t with hand := t.hand.erase ρ, loc := l } := by
  refine .quiet (.refl r) ?_ ?_ fun b hb => ?_
  · funext b
    have h1 := count_erase_one h b
    have h2 := count_cons_one ρ b []
    simp only [Thread.handles, hp, hl, Loc.pins] at h2 ⊢
    omega
  · funext b
    simp [Thread.freeing, ho, hl, Loc.owed]
  · simp only [Thread.registers, hl, Loc.removing, List.append_nil] at hb
    exact List.mem_append_left _ hb

lemma start_change (page : ℕ) (e : Choice) (r : Shared) {t : Thread} (hl : t.loc = .idle) :
    Change r (start page e r t).1 t (start page e r t).2 := by
  have stay : ∀ r', Quiet r r' → Change r r' t t := fun r' h =>
    .quiet h rfl rfl fun _ => id
  have hm : t.loc.removing = [] := by rw [hl]; rfl
  have go : ∀ r' l, Quiet r r' → l.pins = [] → l.owed = [] → Change r r' t (t.goto l) :=
    fun r' l h h1 h2 =>
      .go h (by rw [h1, hl]; rfl) (by rw [h2, hl]; rfl) (hm ▸ List.nil_subset _)
  cases hc : e.command with simp only [start, hc]
  | publishForeign addr =>
      split_ifs
      · exact stay r (.refl r)
      · exact .same (.refl r) rfl rfl rfl rfl (by rw [hl]; rfl) (by rw [hl]; rfl)
          (hm ▸ List.nil_subset _)
  | lookup addr =>
      split
      · exact stay r (.refl r)
      · rename_i ρ hfind
        split_ifs
        · exact stay r (.refl r)
        · exact go r _ (.refl r) rfl rfl
        · refine .retain ρ addr hfind rfl (fun b => ?_) rfl rfl
          have := count_cons_one ρ b t.hand
          simp only [Thread.handles]
          omega
  | drop ρ =>
      split_ifs with h
      · exact .unhand h hl rfl rfl
      · exact stay r (.refl r)
  | insert ρ =>
      split_ifs with h
      · exact .unhand h.1 hl rfl rfl
      · exact stay r (.refl r)
  | evict base => exact go r _ (.refl r) rfl rfl
  | exitThread =>
      split_ifs
      · exact .same (.refl r) rfl rfl rfl rfl (by rw [hl]; rfl) (by rw [hl]; rfl)
          (hm ▸ List.nil_subset _)
      · exact stay r (.refl r)
  | register =>
      split_ifs
      · exact go _ _ ⟨rfl, rfl, id, fun _ => rfl, fun _ => rfl, fun _ => rfl, fun _ => rfl,
          fun _ => rfl⟩ rfl rfl
      · exact stay r (.refl r)
  | unregister ρ =>
      split_ifs with h
      · refine .quiet (.refl r) ?_ ?_ fun b hb => ?_
        · funext b
          have h1 := count_erase_one h b
          have h2 := count_cons_one ρ b []
          simp only [Thread.handles, hl, Loc.pins] at h2 ⊢
          omega
        · funext b
          simp [Thread.freeing, hl, Loc.owed]
        · simp only [Thread.registers, hl, Loc.removing, List.append_nil, List.mem_append,
            List.mem_singleton] at hb ⊢
          by_cases hbρ : b = ρ
          · exact .inr hbρ
          · exact .inl (hb.imp_left fun hb => (List.mem_erase_of_ne hbρ).mpr hb)
      · exact stay r (.refl r)
  | own ρ sidecar large state =>
      split_ifs
      · dsimp only
        exact stay _ (.modify r ρ fun _ => ⟨rfl, rfl, rfl, rfl, rfl⟩)
      · exact stay r (.refl r)
  | publishConfiguredSlots slots =>
      split_ifs
      · exact stay _ ⟨rfl, rfl, id, fun _ => rfl, fun _ => rfl, fun _ => rfl, fun _ => rfl,
          fun _ => rfl⟩
      · exact stay r (.refl r)
  | beginExit =>
      exact stay _ ⟨rfl, rfl, fun _ => rfl, fun _ => rfl, fun _ => rfl, fun _ => rfl,
        fun _ => rfl, fun _ => rfl⟩
  | next => exact stay r (.refl r)

/-- Every action is one of the changes. -/
theorem act_change (bd : Sidecar.Build) (page : ℕ) (e : Choice) (r : Shared) (t : Thread) :
    Change r (act bd page e r t).1 t (act bd page e r t).2 := by
  have go : ∀ l, l.pins = t.loc.pins → l.owed = t.loc.owed → t.loc.removing = [] →
      Change r r t (t.goto l) := fun l hp ho hm => .go (.refl r) hp ho (hm ▸ List.nil_subset _)
  cases hl : t.loc with (simp only [act, hl]; rw [hl] at go)
  | idle => exact start_change page e r hl
  | probe addr =>
      split_ifs
      all_goals exact go _ rfl rfl rfl
  | checkLinked addr i =>
      split
      · exact go _ rfl rfl rfl
      · rename_i ρ hpin
        split_ifs
        · exact .vacate hpin (by rw [hl]; rfl) (by rw [hl]; rfl) (by rw [hl]; rfl)
        · exact .vacate hpin (by rw [hl]; rfl) (by rw [hl]; rfl) (by rw [hl]; rfl)
        · exact go _ rfl rfl rfl
        · exact .same (.refl r) rfl rfl rfl rfl (by rw [hl]; rfl) (by rw [hl]; rfl)
            (by simp [hl, Loc.removing])
  | lookup addr =>
      have miss : Change r r t
          ((t.settle none).goto (.evict (segmentBaseOfPtr addr) (.returned false))) :=
        .same (.refl r) rfl rfl rfl rfl (by rw [hl]; rfl) (by rw [hl]; rfl) (by simp [hl, Loc.removing])
      split
      · exact miss
      · rename_i ρ hfind
        split_ifs
        · exact miss
        · exact go _ rfl rfl rfl
        · refine .retain ρ addr hfind rfl (fun b => ?_) ?_ ?_
          · have := count_cons_one ρ b []
            simp only [Thread.handles, Thread.goto, Thread.settle, hl, Loc.pins] at this ⊢
            omega
          · funext b
            simp [Thread.freeing, Thread.goto, hl, Loc.owed]
          · simp [Thread.registers, Thread.goto, Thread.settle, hl, Loc.removing]
  | found ρ addr =>
      split_ifs
      · exact go _ rfl rfl rfl
      · exact go _ rfl rfl rfl
      · exact go _ rfl rfl rfl
      · exact go _ rfl rfl rfl
  | publish ρ addr a =>
      split_ifs
      · exact go _ (by simp [Loc.pins]) (by simp [Loc.owed]) rfl
      · split
        · exact go _ (by simp [Loc.pins]) (by simp [Loc.owed]) rfl
        · exact go _ rfl rfl rfl
  | setBit ρ addr g a =>
      exact .go (.modify r ρ fun _ => ⟨rfl, rfl, rfl, rfl, rfl⟩) (by rw [hl]; rfl) (by rw [hl]; rfl)
        (by simp [hl, Loc.removing])
  | loadState ρ a =>
      split_ifs
      · exact go _ rfl rfl rfl
      · exact go _ (by simp [Loc.pins]) (by simp [Loc.owed]) rfl
  | casState ρ a =>
      have hq : Quiet r (r.modify ρ fun x => { x with state := .notified }) :=
        .modify r ρ fun _ => ⟨rfl, rfl, rfl, rfl, rfl⟩
      split_ifs
      · exact .go hq (by rw [hl]; rfl) (by rw [hl]; rfl) (by simp [hl, Loc.removing])
      · exact .go hq (by rw [hl]; rfl) (by rw [hl]; rfl) (by simp [hl, Loc.removing])
      · exact go _ (by simp [Loc.pins]) (by simp [Loc.owed]) rfl
  | maskOr ρ a =>
      exact .go ⟨rfl, rfl, id, fun _ => rfl, fun _ => rfl, fun _ => rfl, fun _ => rfl,
        fun _ => rfl⟩ (by rw [hl]; rfl) (by rw [hl]; rfl) (by simp [hl, Loc.removing])
  | summaryOr ρ a =>
      exact .go ⟨rfl, rfl, id, fun _ => rfl, fun _ => rfl, fun _ => rfl, fun _ => rfl,
        fun _ => rfl⟩ (by simp [hl, Loc.pins]) (by simp [hl, Loc.owed]) (by simp [hl, Loc.removing])
  | largeLoad ρ => exact go _ rfl rfl rfl
  | largeCas ρ generation =>
      split_ifs
      · dsimp only
        exact .go (.modify r ρ fun _ => ⟨rfl, rfl, rfl, rfl, rfl⟩) (by rw [hl]; rfl) (by rw [hl]; rfl)
          (by simp [hl, Loc.removing])
      · exact go _ rfl rfl rfl
  | returned published =>
      exact .same ⟨rfl, rfl, id, fun _ => rfl, fun _ => rfl, fun _ => rfl, fun _ => rfl,
        fun _ => rfl⟩ rfl rfl rfl rfl (by rw [hl]; rfl) (by rw [hl]; rfl) (by simp [hl, Loc.removing])
  | sweep left budget next =>
      split_ifs
      · exact go _ rfl rfl rfl
      · split
        · exact .same (.refl r) rfl rfl rfl rfl (by rw [hl]; rfl) (by rw [hl]; rfl)
            (by simp [hl, Loc.removing])
        · rename_i ρ hpin
          split_ifs
          · exact .same (.refl r) rfl rfl rfl rfl (by rw [hl]; rfl) (by rw [hl]; rfl)
              (by simp [hl, Loc.removing])
          · exact .unslot hpin rfl rfl rfl rfl (by rw [hl]; rfl) (by rw [hl]; rfl) (by rw [hl]; rfl)
  | insert ρ base incarnation next =>
      split_ifs
      all_goals
        exact .same (.refl r) rfl rfl rfl rfl (by rw [hl]; rfl) (by rw [hl]; rfl)
          (by simp [hl, Loc.removing])
  | store ρ base incarnation next =>
      split
      · rename_i old hpin
        exact .vacate hpin (by rw [hl]; rfl) (by rw [hl]; rfl) (by rw [hl]; rfl)
      · rename_i hpin
        refine .quiet (.refl r) ?_ ?_ fun b hb => ?_
        · funext b
          have h1 := PinCache.occupied_store hpin base incarnation ρ b
          have h2 := count_cons_one ρ b next.pins
          simp only [Thread.handles, hl, Loc.pins]
          omega
        · funext b
          simp [Thread.freeing, hl, Loc.owed]
        · simp only [Thread.registers, hl, Loc.removing, List.append_nil] at hb
          exact List.mem_append_left _ hb
  | evict base next =>
      split
      · exact go _ rfl rfl rfl
      · rename_i ρ hpin
        split_ifs
        · exact .vacate hpin (by rw [hl]; rfl) (by rw [hl]; rfl) (by rw [hl]; rfl)
        · exact go _ rfl rfl rfl
  | release ρ next => exact .release ρ next hl rfl rfl
  | freeing ρ next => exact .reclaim ρ next hl rfl rfl
  | dropCache i =>
      split_ifs
      · split
        · exact go _ rfl rfl rfl
        · rename_i ρ hpin
          exact .vacate hpin (by rw [hl]; rfl) (by rw [hl]; rfl) (by rw [hl]; rfl)
      · exact go _ rfl rfl rfl
  | create x =>
      split_ifs
      · exact go _ rfl rfl rfl
      · exact .create x rfl hl rfl
  | index ρ =>
      split_ifs
      · exact go _ rfl rfl rfl
      · split
        · exact go _ rfl rfl rfl
        · exact go _ rfl rfl rfl
      · split
        · exact go _ rfl rfl rfl
        · rename_i hd
          exact .insert ρ hl hd rfl rfl
  | grow ρ =>
      split_ifs
      all_goals exact go _ rfl rfl rfl
  | remove ρ =>
      split_ifs with h1 h2
      · refine .quiet (.refl r) ?_ ?_ fun b hb => ?_
        · funext b
          have h1 := count_cons_one ρ b t.leaked
          have h2 := count_cons_one ρ b []
          simp only [Thread.handles, hl, Loc.pins] at h1 h2 ⊢
          omega
        · funext b
          simp [Thread.freeing, hl, Loc.owed]
        · simp only [Thread.registers, hl, Loc.removing, List.mem_append, List.mem_cons,
            List.append_nil] at hb ⊢
          tauto
      · exact .unlink ρ hl h2 rfl rfl
      · exact .go (.refl r) (by rw [hl]; rfl) (by rw [hl]; rfl) (by simp [hl, Loc.removing])
  | fatal l => exact .quiet (.refl r) rfl rfl fun _ => id

/-! ## The counters -/

lemma modify_field {α : Type*} (g : Entry → α) (r : Shared) (ρ : ℕ) (f : Entry → Entry) :
    (fun b => g ((r.modify ρ f).entries b)) =
      Function.update (fun b => g (r.entries b)) ρ (g (f (r.entries ρ))) := by
  funext b
  by_cases hb : b = ρ
  · subst b
    simp [Shared.modify]
  · simp [Shared.modify, hb]

/-- A field that a write leaves alone. -/
lemma modify_same {α : Type*} (g : Entry → α) (r : Shared) (ρ : ℕ) {f : Entry → Entry}
    (h : ∀ x, g (f x) = g x) (b : ℕ) : g ((r.modify ρ f).entries b) = g (r.entries b) := by
  have := congrFun (modify_field g r ρ f) b
  rw [h] at this
  rw [this]
  by_cases hb : b = ρ
  · subst b
    exact Function.update_self ..
  · exact Function.update_of_ne hb ..

lemma create_field {α : Type*} (g : Entry → α) (r : Shared) (x : Route) :
    (fun b => g ((r.create x).entries b)) =
      Function.update (fun b => g (r.entries b)) r.fresh (g (.new x)) := by
  funext b
  by_cases hb : b = r.fresh
  · subst b
    simp [Shared.create]
  · simp [Shared.create, hb]

lemma insert_same {α : Type*} (g : Entry → α) (r : Shared) (ρ b : ℕ)
    (h : ∀ x : Entry, g { x with indexed := true } = g x) :
    g ((r.insert ρ).entries b) = g (r.entries b) := modify_same g r ρ h b

lemma unlink_same {α : Type*} (g : Entry → α) (r : Shared) (ρ b : ℕ)
    (h : ∀ x : Entry, g { x with linked := false } = g x) :
    g ((r.unlink ρ).entries b) = g (r.entries b) := modify_same g r ρ h b

/-- Every change is an effect of reference counting, as long as what the directory shows is
alive. -/
lemma Change.effect {r r' : Shared} {t t' : Thread} (h : Change r r' t t')
    (hpos : ∀ addr ρ, r.find addr = some ρ → 0 < (r.entries ρ).refs)
    (hnew : (r.entries r.fresh).freed = 0) : Effect view r r' t t' := by
  cases h with
  | quiet hr hh he hm =>
      refine .keep ?_ (funext hr.refs) (funext hr.freed) hh he
      funext ρ
      simp only [view, hr.fresh]
  | create x hr hl ht =>
      subst hr ht
      refine .birth r.fresh (by simp [view]) ?_ (create_field (·.refs) r x) ?_ (fun b => ?_) ?_
      · funext ρ
        by_cases hρ : ρ = r.fresh
        · subst ρ
          simp [view, Shared.create]
        · simp only [view, Shared.create, Function.update_of_ne hρ, decide_eq_decide]
          omega
      · have := create_field (·.freed) r x
        rw [show (Entry.new x).freed = (r.entries r.fresh).freed by rw [hnew]; rfl,
          Function.update_eq_self] at this
        exact this
      · have := count_cons_one r.fresh b []
        simp only [view, Thread.handles, Thread.goto, hl, Loc.pins] at this ⊢
        omega
      · funext b
        simp [view, Thread.freeing, Thread.goto, hl, Loc.owed]
  | insert ρ hl hd hr ht =>
      subst hr ht
      refine .keep rfl (funext fun b => insert_same (·.refs) r ρ b fun _ => rfl)
        (funext fun b => insert_same (·.freed) r ρ b fun _ => rfl) ?_ ?_
      · funext b
        have h1 := count_cons_one ρ b []
        have h2 := count_cons_one ρ b t.regs
        simp only [view, Thread.handles, hl, Loc.pins] at h1 ⊢
        omega
      · funext b
        simp [view, Thread.freeing, hl, Loc.owed]
  | unlink ρ hl hd hr ht =>
      subst hr ht
      refine .keep rfl (funext fun b => unlink_same (·.refs) r ρ b fun _ => rfl)
        (funext fun b => unlink_same (·.freed) r ρ b fun _ => rfl) ?_ ?_
      · funext b
        simp [view, Thread.handles, Thread.goto, hl, Loc.pins]
      · funext b
        simp [view, Thread.freeing, Thread.goto, hl, Loc.owed]
  | retain ρ addr hd hr hh he hm =>
      subst hr
      exact .retain ρ (hpos addr ρ hd) rfl (modify_field (·.refs) r ρ _)
        (funext (modify_same (·.freed) r ρ fun _ => rfl)) hh he
  | release ρ next hl hr ht =>
      subst hr ht
      refine .release ρ rfl (modify_field (·.refs) r ρ _)
        (funext (modify_same (·.freed) r ρ fun _ => rfl)) (fun b => ?_) fun b => ?_
      · have h1 := count_cons_one ρ b next.pins
        have h2 : (if (r.entries ρ).refs = 1 then Loc.freeing ρ next else next).pins =
            next.pins := by split_ifs <;> rfl
        simp only [view, Thread.handles, Thread.goto, hl, Loc.pins, h2]
        omega
      · have h1 := count_cons_one ρ b next.owed
        change (if (r.entries ρ).refs = 1 then Loc.freeing ρ next else next).owed.count b =
          t.loc.owed.count b + if (r.entries ρ).refs = 1 then one ρ b else 0
        rw [hl]
        split_ifs
        · exact h1
        · rfl
  | reclaim ρ next hl hr ht =>
      subst hr ht
      refine .reclaim ρ rfl (funext (modify_same (·.refs) r ρ fun _ => rfl))
        (modify_field (·.freed) r ρ _) ?_ fun b => ?_
      · funext b
        simp [view, Thread.handles, Thread.goto, hl, Loc.pins]
      · have h1 := count_cons_one ρ b next.owed
        simp only [view, Thread.freeing, Thread.goto, hl, Loc.owed]
        omega

end Routes
end SeferAlloc
