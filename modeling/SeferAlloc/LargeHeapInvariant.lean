import SeferAlloc.LargeCacheSlots
import SeferAlloc.LargeHeap

/-!
# The invariant of the Large segments

The invariant ties four records of one reservation together: the slot it sits
in, the table of registered segments, the phase of its state word, and the
ledger of the history. Between the claim of a freed segment and its deposit or
release the segment is in none of the first two; it is the busy one.
-/
namespace SeferAlloc
namespace LargeHeap
open LargeCache CacheLedger
open LargeReservation (Transition LargePhase packLargeState largePhase largeGeneration
  nextLargeGeneration pack maxLargeGeneration)
open LargeCache.Cache (Wf Frame Quiet totalSlots)

/-! ## State words -/

/-- A word in a phase is packed from its phase and generation. -/
lemma eq_pack {w : LargeReservation.Word} {p : LargePhase} (h : largePhase w = some p) :
    w = pack p (largeGeneration w) := by
  apply BitVec.eq_of_toNat_eq
  rw [LargeReservation.toNat_of_phase h,
    LargeReservation.pack_toNat p (LargeReservation.largeGeneration_le w)]

lemma packLargeState_le {p : LargePhase} {g : ℕ} (h : g ≤ maxLargeGeneration) :
    packLargeState p g = some (pack p g) := if_neg (not_lt.mpr h)

namespace Heap
variable {h h' : Heap} {busy : Option ℕ} {i base : ℕ} {x : CachedLarge}

def phase (h : Heap) (base : ℕ) : Option LargePhase := largePhase (h.header base).largeState

lemma phase_setState (h : Heap) (base : ℕ) (p : LargePhase) {g : ℕ} (hg : g ≤ maxLargeGeneration) :
    (h.setState base (pack p g)).phase base = some p := by
  rw [phase, setState]
  simp only [Function.update_self]
  exact LargeReservation.largePhase_pack p hg

lemma setState_header_of_ne (h : Heap) {base b : ℕ} (hb : b ≠ base) (w : LargeReservation.Word) :
    (h.setState base w).header b = h.header b := Function.update_of_ne hb _ _

@[simp] lemma setState_largeState (h : Heap) (base : ℕ) (w : LargeReservation.Word) :
    ((h.setState base w).header base).largeState = w := by
  rw [setState]
  simp only [Function.update_self]

lemma setState_spanUsable (h : Heap) (base : ℕ) (w : LargeReservation.Word) (b : ℕ) :
    ((h.setState base w).header b).spanUsable = (h.header b).spanUsable := by
  by_cases hb : b = base
  · subst hb
    rw [setState]
    simp only [Function.update_self]
  · rw [setState_header_of_ne h hb]

@[simp] lemma unregister_self (h : Heap) (base : ℕ) : (h.unregister base).registered base = false := by
  rw [unregister]
  simp only [Function.update_self]

/-- A transition from the phase the segment is in. -/
lemma transition_eq {t : Transition} {g : ℕ} (hg : g ≤ maxLargeGeneration)
    (ht : t.generationAfter g = g) (hw : (h.header base).largeState = pack t.source g) :
    h.transition base t g = some (h.setState base (pack t.target g)) := by
  rw [transition, packLargeState_le hg, ht, packLargeState_le hg]
  simp only [Option.bind_eq_bind, Option.bind_some, hw, if_true]

/-! ## The invariant -/

def ledger (h : Heap) : Ledger ℕ := Ledger.after (fun _ => .absent) h.log

structure Inv (busy : Option ℕ) (h : Heap) : Prop where
  wf : h.cache.Wf
  follows : Follows (fun _ => .absent) h.log
  slot : ∀ i x, h.cache.slotGet i = some x → h.ledger x.base = .cached (entry x)
  cached : ∀ b e, h.ledger b = .cached e → ∃ i x, h.cache.slotGet i = some x ∧ entry x = e
  inUse : ∀ b, h.ledger b = .inUse ↔ h.registered b = true ∨ busy = some b
  live : ∀ b, h.registered b = true → busy ≠ some b → h.phase b = some .live
  idle : ∀ i x, h.cache.slotGet i = some x → h.phase x.base = some .cached

/-- What the cache policy does beside a segment in use or busy. -/
structure Keeps (busy : Option ℕ) (h h' : Heap) : Prop where
  inv : h'.Inv busy
  registered : h'.registered = h.registered
  header : ∀ b, h.registered b = true ∨ busy = some b → h'.header b = h.header b
  build : h'.build = h.build
  config : h'.cache.config = h.cache.config
  live : h'.cache.live = h.cache.live
  slots : ∀ i x, h'.cache.slotGet i = some x →
    h.cache.slotGet i = some x ∧ h'.header x.base = h.header x.base
  extension : h.cache.extension.isSome = true → h'.cache.extension.isSome = true
  unopened : busy = none → h'.cache.extension.isSome = h.cache.extension.isSome

lemma Inv.keeps (hi : h.Inv busy) : Keeps busy h h :=
  ⟨hi, rfl, fun _ _ => rfl, rfl, rfl, rfl, fun _ _ hx => ⟨hx, rfl⟩, id, fun _ => rfl⟩

lemma Keeps.trans {h'' : Heap} (k : Keeps busy h h') (k' : Keeps busy h' h'') :
    Keeps busy h h'' :=
  ⟨k'.inv, k'.registered.trans k.registered,
    fun b hb => (k'.header b (by rwa [k.registered])).trans (k.header b hb),
    k'.build.trans k.build, k'.config.trans k.config, k'.live.trans k.live,
    fun i x hx =>
      have hx' := k'.slots i x hx
      have hx'' := k.slots i x hx'.1
      ⟨hx''.1, hx'.2.trans hx''.2⟩,
    k'.extension ∘ k.extension, fun hb => (k'.unopened hb).trans (k.unopened hb)⟩

lemma Inv.quiet (hi : h.Inv busy) {c : Cache} (hq : Quiet h.cache c) : (h.setCache c).Inv busy := by
  refine ⟨hq.wf, hi.follows, fun i x hx => hi.slot i x ?_, fun b e hb => ?_, hi.inUse, hi.live,
    fun i x hx => hi.idle i x ?_⟩
  · rwa [← hq.slotGet]
  · obtain ⟨i, x, hx, hxe⟩ := hi.cached b e hb
    exact ⟨i, x, by rwa [← hq.slotGet] at hx, hxe⟩
  · rwa [← hq.slotGet]

lemma Inv.setCache (hi : h.Inv busy) {c : Cache} (hq : Quiet h.cache c)
    (hl : c.live = h.cache.live) (hext : c.extension.isSome = h.cache.extension.isSome) :
    Keeps busy h (h.setCache c) :=
  ⟨hi.quiet hq, rfl, fun _ _ => rfl, rfl, hq.config, hl,
    fun i x hx => ⟨by rwa [← hq.slotGet], rfl⟩, fun he => hext.trans he, fun _ => hext⟩

/-- What is cached is neither registered nor busy. -/
lemma Inv.not_inUse (hi : h.Inv busy) (hx : h.cache.slotGet i = some x) :
    h.registered x.base = false ∧ busy ≠ some x.base := by
  have hne : ¬ (h.registered x.base = true ∨ busy = some x.base) := by
    rw [← hi.inUse, hi.slot i x hx]
    exact nofun
  rw [not_or] at hne
  exact ⟨Bool.eq_false_iff.mpr hne.1, hne.2⟩

lemma ledger_append {e : Event ℕ} (hlog : h'.log = h.log ++ [e]) :
    h'.ledger = h.ledger.record e := by
  rw [ledger, hlog, Ledger.after_append]
  rfl

/-- An entry leaves the cache; its segment is registered again or goes back to the OS. -/
lemma Inv.withdraw (hi : h.Inv busy) (hx : h.cache.slotGet i = some x) (hwf : h'.cache.Wf)
    (hget : h'.cache.slotGet = Function.update h.cache.slotGet i none)
    (hheader : ∀ b ≠ x.base, h'.header b = h.header b)
    (hreg : ∀ b ≠ x.base, h'.registered b = h.registered b)
    {e : Event ℕ} (hlog : h'.log = h.log ++ [e]) (hkey : e.key = x.base)
    (hfits : e.Fits h.ledger)
    (hres : e.result = .absent ∧ h'.registered x.base = false ∨
      e.result = .inUse ∧ h'.registered x.base = true ∧ h'.phase x.base = some .live) :
    h'.Inv busy := by
  have hl := ledger_append hlog
  have hself : h'.ledger x.base = e.result := by rw [hl, ← hkey, Ledger.record_self]
  have hother : ∀ b ≠ x.base, h'.ledger b = h.ledger b := fun b hb => by
    rw [hl, Ledger.record_of_ne]
    rw [hkey]
    exact Ne.symm hb
  have hrest : ∀ {j y}, h'.cache.slotGet j = some y → h.cache.slotGet j = some y ∧
      y.base ≠ x.base := by
    intro j y hy
    rw [hget, Function.update_apply] at hy
    split_ifs at hy with hji
    exact ⟨hy, fun hb => hji (hi.wf.once j i y x hy hx hb)⟩
  refine ⟨hwf, ?_, fun j y hy => ?_, fun b d hb => ?_, fun b => ?_, fun b hb hbusy => ?_,
    fun j y hy => ?_⟩
  · rw [hlog, follows_append]
    exact ⟨hi.follows, hfits, trivial⟩
  · obtain ⟨hy, hne⟩ := hrest hy
    rw [hother _ hne]
    exact hi.slot j y hy
  · by_cases hbx : b = x.base
    · subst hbx
      rw [hself] at hb
      obtain ⟨hr, -⟩ | ⟨hr, -⟩ := hres <;> cases hr.symm.trans hb
    · rw [hother b hbx] at hb
      obtain ⟨j, y, hy, rfl⟩ := hi.cached b d hb
      refine ⟨j, y, ?_, rfl⟩
      have hji : j ≠ i := by
        rintro rfl
        obtain rfl := Option.some.inj (hx.symm.trans hy)
        have horigin := Ledger.origin hb
        obtain h0 | ⟨-, -, -, hkey', -⟩ := horigin
        · cases h0
        · exact hbx hkey'.symm
      rw [hget, Function.update_of_ne hji]
      exact hy
  · by_cases hbx : b = x.base
    · subst hbx
      rw [hself]
      obtain ⟨hr, hreg'⟩ | ⟨hr, hreg', -⟩ := hres
      · rw [hr, hreg']
        simp [(hi.not_inUse hx).2]
      · simp [hr, hreg']
    · rw [hother b hbx, hreg b hbx]
      exact hi.inUse b
  · by_cases hbx : b = x.base
    · subst hbx
      obtain ⟨-, hreg'⟩ | ⟨-, -, hlive⟩ := hres
      · rw [hreg'] at hb
        contradiction
      · exact hlive
    · rw [phase, hheader b hbx]
      exact hi.live b (by rwa [← hreg b hbx]) hbusy
  · obtain ⟨hy, hne⟩ := hrest hy
    rw [phase, hheader _ hne]
    exact hi.idle j y hy

/-! ## Eviction and decay -/

lemma active_eq {c c' : Cache} (hf : Frame c c') : c'.active = c.active := by
  have hget : ∀ d : Cache, d.active = (d.extension.map Extension.active).getD 0 := by
    intro d
    rw [Cache.active]
    cases d.extension <;> rfl
  rw [hget, hget, hf.active]

lemma live_eq {c c' : Cache} (hf : Frame c c') : c'.live = c.live := by
  have hget : ∀ d : Cache, d.live = ((d.extension.map Extension.adapt).map
      AdaptiveState.live).getD 0 := by
    intro d
    rw [Cache.live]
    cases d.extension <;> rfl
  rw [hget, hget, hf.adapt]

lemma extension_isSome {c c' : Cache} (hf : Frame c c') :
    c'.extension.isSome = c.extension.isSome := by
  have hm := congrArg Option.isSome hf.active
  rwa [Option.isSome_map, Option.isSome_map] at hm

/-- The victim's slot, counter and state word change together. -/
lemma releaseVictim_spec (hi : h.Inv busy) (hx : h.cache.slotGet i = some x)
    (hmin : ∀ j y, h.cache.slotGet j = some y → x.seq ≤ y.seq) :
    ∃ h', h.releaseVictim i = some (x.usableSize, h') ∧ Keeps busy h h' ∧
      h'.cache.active = h.cache.active ∧
      h'.cache.occupiedCount + 1 = h.cache.occupiedCount := by
  obtain ⟨c, htake, hwf, hle, hget, hf⟩ := hi.wf.withdraw hx
  have hw : (h.header x.base).largeState = pack .cached (h.generationOf x.base) :=
    eq_pack (hi.idle i x hx)
  have hg : h.generationOf x.base ≤ maxLargeGeneration := LargeReservation.largeGeneration_le _
  have htr := transition_eq (h := h.setCache (c.subUsed x.usableSize)) (t := .releaseCached) hg rfl hw
  obtain ⟨hreg, hbusy⟩ := hi.not_inUse hx
  refine ⟨((h.setCache (c.subUsed x.usableSize)).setState x.base
      (pack .released (h.generationOf x.base))).emit (.evicted (entry x) h.cache.usedBytes), ?_,
    ⟨hi.withdraw hx hwf hget ?_ ?_ rfl rfl ?_ (.inl ⟨rfl, hreg⟩), rfl, fun b hb => ?_, rfl,
      hf.config, ?_, fun j y hy => ?_, ?_, ?_⟩, ?_, ?_⟩
  · rw [releaseVictim, htake]
    simp only [Option.bind_eq_bind, Option.bind_some, htr]
    rfl
  · exact fun b hb => setState_header_of_ne _ hb _
  · exact fun _ _ => rfl
  · refine ⟨hi.slot i x hx, hle, fun b d hd => ?_⟩
    obtain ⟨j, y, hy, rfl⟩ := hi.cached b d hd
    exact hmin j y hy
  · refine setState_header_of_ne _ ?_ _
    rintro rfl
    rw [hreg] at hb
    exact hb.elim (fun hc => by cases hc) hbusy
  · change c.live = h.cache.live
    exact live_eq hf
  · have hy' : c.slotGet j = some y := hy
    rw [hget, Function.update_apply] at hy'
    split_ifs at hy' with hji
    exact ⟨hy', setState_header_of_ne _ (fun hb => hji (hi.wf.once j i y x hy' hx hb)) _⟩
  · change h.cache.extension.isSome = true → c.extension.isSome = true
    rw [extension_isSome hf]
    exact id
  · change busy = none → c.extension.isSome = h.cache.extension.isSome
    exact fun _ => extension_isSome hf
  · change c.active = h.cache.active
    exact active_eq hf
  · exact hi.wf.occupiedCount_withdraw hx hget

/-- An eviction removes one entry, unless it finds none. -/
lemma evictOneOldest_spec (hi : h.Inv busy) :
    ∃ p, h.evictOneOldest = some p ∧ Keeps busy h p.2 ∧ p.2.cache.active = h.cache.active ∧
      (p.1 = true → p.2.cache.occupiedCount + 1 = h.cache.occupiedCount) := by
  rw [evictOneOldest]
  cases hk : h.cache.oldestOccupiedSlot with
  | none => exact ⟨_, rfl, hi.keeps, rfl, by simp⟩
  | some k =>
      obtain ⟨x, hx, hmin⟩ := hi.wf.oldestOccupiedSlot hk
      obtain ⟨h', he, hkeep, hact, hcount⟩ := releaseVictim_spec hi hx hmin
      exact ⟨(true, h'), by simp only [he, Option.map_some], hkeep, hact, fun _ => hcount⟩

lemma occupiedCount_congr {c c' : Cache} (hget : c'.slotGet = c.slotGet) :
    c'.occupiedCount = c.occupiedCount := by
  rw [Cache.occupiedCount, hget, Cache.occupiedCount]

lemma evictOldestNotingGone_spec (hi : h.Inv busy) :
    ∃ p, h.evictOldestNotingGone = some p ∧ Keeps busy h p.2 ∧
      p.2.cache.active = h.cache.active ∧
      (p.1 = true → p.2.cache.occupiedCount + 1 = h.cache.occupiedCount) := by
  rw [evictOldestNotingGone]
  cases hx : h.cache.oldestOccupiedSlot.bind h.cache.slotGet with
  | none => exact evictOneOldest_spec hi
  | some x =>
      obtain ⟨hq, hact⟩ := hi.wf.adaptiveExt fun a => a.noteGone x.usableSize
      have hk := hi.setCache hq (Cache.live_adaptiveExt fun _ => rfl)
        (Cache.extension_adaptiveExt _ _)
      obtain ⟨p, he, hkeep, hact', hcount⟩ := evictOneOldest_spec hk.inv
      exact ⟨p, he, hk.trans hkeep, hact'.trans hact,
        fun ht => (hcount ht).trans (occupiedCount_congr hq.slotGet)⟩

lemma evictAtLeastLoop_spec (minBytes : ℕ) :
    ∀ (n released : ℕ) (h : Heap), h.Inv busy → h.cache.occupiedCount < n →
      ∃ h', evictAtLeastLoop minBytes n released h = some h' ∧ Keeps busy h h' := by
  intro n
  induction n with
  | zero => exact fun _ _ _ hn => absurd hn (Nat.not_lt_zero _)
  | succ n ih =>
      intro released h hi hn
      rw [evictAtLeastLoop]
      split_ifs
      · cases hk : h.cache.oldestOccupiedSlot with
        | none => exact ⟨h, rfl, hi.keeps⟩
        | some k =>
            obtain ⟨x, hx, hmin⟩ := hi.wf.oldestOccupiedSlot hk
            obtain ⟨h₁, he, hkeep, -, hcount⟩ := releaseVictim_spec hi hx hmin
            obtain ⟨h₂, he₂, hkeep₂⟩ := ih (released + x.usableSize) h₁ hkeep.inv (by omega)
            refine ⟨h₂, ?_, hkeep.trans hkeep₂⟩
            simp only [he, Option.bind_eq_bind, Option.bind_some]
            exact he₂
      · exact ⟨h, rfl, hi.keeps⟩

lemma evictAtLeast_spec (hi : h.Inv busy) (minBytes : ℕ) :
    ∃ h', h.evictAtLeast minBytes = some h' ∧ Keeps busy h h' :=
  evictAtLeastLoop_spec minBytes _ 0 h hi (Nat.lt_succ_of_le h.cache.occupiedCount_le)

/-- The clock fields are outside the invariant. -/
lemma Inv.tick (hi : h.Inv busy) (t : Option ℕ) (n : ℕ) :
    Keeps busy h (h.setCache { h.cache with lastDecayTick := t, decayOpCount := n }) := by
  have hw := hi.wf
  exact hi.setCache ⟨⟨hw.bit, hw.below, hw.active, hw.used, hw.budget, hw.once⟩, rfl, rfl, rfl, rfl⟩
    rfl rfl

lemma evictAllLoop_spec :
    ∀ (n : ℕ) (h : Heap), h.Inv busy → h.cache.occupiedCount < n →
      ∃ h', evictAllLoop n h = some h' ∧ Keeps busy h h' := by
  intro n
  induction n with
  | zero => exact fun _ _ hn => absurd hn (Nat.not_lt_zero _)
  | succ n ih =>
      intro h hi hn
      obtain ⟨⟨evicted, h₁⟩, he, hkeep, -, hcount⟩ := evictOneOldest_spec hi
      rw [evictAllLoop, he]
      simp only [Option.bind_eq_bind, Option.bind_some]
      cases evicted with
      | false => exact ⟨h₁, rfl, hkeep⟩
      | true =>
          have hlt : h₁.cache.occupiedCount + 1 = h.cache.occupiedCount := hcount rfl
          obtain ⟨h₂, he₂, hkeep₂⟩ := ih h₁ hkeep.inv (by omega)
          exact ⟨h₂, he₂, hkeep.trans hkeep₂⟩

lemma evictAll_spec (hi : h.Inv busy) : ∃ h', h.evictAll = some h' ∧ Keeps busy h h' := by
  obtain ⟨h₁, he, hkeep⟩ :=
    evictAllLoop_spec _ h hi (Nat.lt_succ_of_le h.cache.occupiedCount_le)
  exact ⟨_, by rw [evictAll, he]; rfl, hkeep.trans (hkeep.inv.tick none 0)⟩

lemma runDecayStep_spec (hi : h.Inv busy) : ∃ h', h.runDecayStep = some h' ∧ Keeps busy h h' := by
  rw [runDecayStep]
  split_ifs
  · exact ⟨h, rfl, hi.keeps⟩
  · exact evictAtLeast_spec hi _

lemma decaySteps_spec (n : ℕ) : ∀ h : Heap, h.Inv busy →
    ∃ h', decaySteps n h = some h' ∧ Keeps busy h h' := by
  induction n with
  | zero => exact fun h hi => ⟨h, rfl, hi.keeps⟩
  | succ n ih =>
      intro h hi
      obtain ⟨hq, hl, hext⟩ := hi.wf.adaptiveInterval
      have hk := hi.setCache hq hl hext
      obtain ⟨h₁, he₁, hk₁⟩ := runDecayStep_spec hk.inv
      obtain ⟨h₂, he₂, hk₂⟩ := ih h₁ hk₁.inv
      exact ⟨h₂, by rw [decaySteps, he₁]; exact he₂, (hk.trans hk₁).trans hk₂⟩

lemma decayElapsed_spec (hi : h.Inv busy) (now elapsed : ℕ) :
    ∃ h', h.decayElapsed now elapsed = some h' ∧ Keeps busy h h' := by
  rw [decayElapsed]
  dsimp only
  split_ifs
  · exact ⟨h, rfl, hi.keeps⟩
  · have hk := hi.tick (some now) h.cache.decayOpCount
    obtain ⟨h', he, hk'⟩ := decaySteps_spec 1 _ hk.inv
    exact ⟨h', he, hk.trans hk'⟩
  · obtain ⟨h', he, hk⟩ := decaySteps_spec _ h hi
    rw [he]
    exact ⟨_, rfl, hk.trans (hk.inv.tick _ h'.cache.decayOpCount)⟩

lemma maybeDecayLargeCache_spec (hi : h.Inv busy) (now : ℕ) :
    ∃ h', h.maybeDecayLargeCache now = some h' ∧ Keeps busy h h' := by
  rw [maybeDecayLargeCache]
  dsimp only
  split
  · exact ⟨h, rfl, hi.keeps⟩
  split
  · exact ⟨_, rfl, hi.tick h.cache.lastDecayTick _⟩
  cases hlast : h.cache.lastDecayTick with
  | some t =>
      have hk := hi.tick (some t) 0
      obtain ⟨h', he, hk'⟩ := decayElapsed_spec hk.inv now (now - t)
      exact ⟨h', he, hk.trans hk'⟩
  | none =>
      have hk := hi.tick (some now) 0
      dsimp only
      split
      · obtain ⟨h', he, hk'⟩ := decayElapsed_spec hk.inv now 0
        exact ⟨h', he, hk.trans hk'⟩
      · exact ⟨_, rfl, hk⟩

/-! ## Admission -/

/-- The slot a deposit may use. -/
def Admits (h : Heap) (usable : ℕ) (admitted : Option ℕ) : Prop :=
  ∀ i, admitted = some i →
    i < h.cache.scanBound ∧ h.cache.slotGet i = none ∧ h.cache.budgetOk usable = true

/-- The extension may be created while a segment is busy. -/
lemma Inv.openCache (hi : h.Inv (some base)) {c : Cache} (hq : Quiet h.cache c)
    (hl : c.live = h.cache.live)
    (hext : h.cache.extension.isSome = true → c.extension.isSome = true) :
    Keeps (some base) h (h.setCache c) :=
  ⟨hi.quiet hq, rfl, fun _ _ => rfl, rfl, hq.config, hl,
    fun i x hx => ⟨by rwa [← hq.slotGet], rfl⟩, hext, nofun⟩

/-- Each round evicts an entry or opens a slot, so the rounds suffice. -/
lemma admitLoop_spec (grants : ℕ → Bool) (usable : ℕ) :
    ∀ (n : ℕ) (h : Heap), h.Inv (some base) →
      h.cache.occupiedCount + (largeCacheExtendedSlots - h.cache.active) < n →
      ∃ p, admitLoop grants usable n h = some p ∧ Keeps (some base) h p.2 ∧
        p.2.Admits usable p.1 := by
  intro n
  induction n with
  | zero => exact fun _ _ hn => absurd hn (Nat.not_lt_zero _)
  | succ n ih =>
      intro h hi hn
      obtain ⟨hq, hact, hlive, hext, hfree⟩ := hi.wf.findFreeSlot (grants n)
      rw [admitLoop]
      dsimp only
      generalize h.cache.findFreeSlot (grants n) = r at hq hact hlive hext hfree ⊢
      obtain ⟨slot, c⟩ := r
      dsimp only at hq hact hlive hext hfree
      have hk := hi.openCache hq hlive hext
      have hcount : (h.setCache c).cache.occupiedCount = h.cache.occupiedCount :=
        occupiedCount_congr hq.slotGet
      split
      · rename_i hok
        refine ⟨_, rfl, hk, fun i hslot => ?_⟩
        obtain ⟨hlt, hnone⟩ := hfree i hslot
        exact ⟨hlt, hnone, hok.2⟩
      · split
        · rename_i c' hgrow
          have hgrow' : c.tryGrowSlots c.usedBytes usable = some c' := by
            split_ifs at hgrow
            exact hgrow
          obtain ⟨hq', hlt, hle, hlive', hext'⟩ := hq.wf.tryGrowSlots hgrow'
          have hk' := hk.inv.setCache hq' hlive' hext'
          have hcount' : ((h.setCache c).setCache c').cache.occupiedCount = h.cache.occupiedCount :=
            (occupiedCount_congr hq'.slotGet).trans hcount
          obtain ⟨p, he, hkeep, hadm⟩ := ih ((h.setCache c).setCache c') hk'.inv (by
            change _ + (largeCacheExtendedSlots - c'.active) < n
            omega)
          exact ⟨p, he, (hk.trans hk').trans hkeep, hadm⟩
        · obtain ⟨⟨evicted, h₁⟩, he, hkeep, hact', hcount'⟩ := evictOldestNotingGone_spec hk.inv
          rw [he, Option.bind_some]
          cases evicted with
          | false => exact ⟨_, rfl, hk.trans hkeep, fun i hslot => by cases hslot⟩
          | true =>
              have hless : h₁.cache.occupiedCount + 1 = (h.setCache c).cache.occupiedCount :=
                hcount' rfl
              have hsame : h₁.cache.active = h.cache.active := hact'.trans hact
              obtain ⟨p, hp, hkeep', hadm⟩ := ih h₁ hkeep.inv (by omega)
              exact ⟨p, hp, (hk.trans hkeep).trans hkeep', hadm⟩

lemma admission_spec (hi : h.Inv (some base)) (grants : ℕ → Bool) (hdr : LargeHeader) :
    ∃ p, h.admission grants hdr = some p ∧
      Keeps (some base) (h.setCache (h.cache.noteFree hdr.spanUsable)) p.2 ∧
      p.2.Admits hdr.spanUsable p.1 := by
  have hi' := hi.quiet (hi.wf.adaptiveExt fun a => a.noteFree hdr.spanUsable).1
  rw [admission]
  split
  · have hle := (h.setCache (h.cache.noteFree hdr.spanUsable)).cache.occupiedCount_le
    obtain ⟨p, he, hkeep, hadm⟩ := admitLoop_spec grants hdr.spanUsable admissionRounds _ hi'
      (by
        have := Nat.sub_le largeCacheExtendedSlots
          (h.setCache (h.cache.noteFree hdr.spanUsable)).cache.active
        exact Nat.lt_succ_of_le (Nat.add_le_add hle this))
    exact ⟨p, he, hkeep, hadm⟩
  · exact ⟨_, rfl, hi'.keeps, fun i hslot => by cases hslot⟩

lemma refuse_keeps (hi : h.Inv busy) (hdr : LargeHeader) : Keeps busy h (h.refuse hdr) := by
  rw [refuse]
  split_ifs
  · exact hi.setCache (hi.wf.adaptiveExt fun a => a.noteGone hdr.spanUsable).1
      (Cache.live_adaptiveExt fun _ => rfl) (Cache.extension_adaptiveExt _ _)
  · exact hi.keeps

end Heap
end LargeHeap
end SeferAlloc
