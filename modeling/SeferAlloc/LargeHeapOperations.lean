import SeferAlloc.LargeHeapInvariant

/-!
# Free, allocation and growth of Large segments

What each operation does to the invariant, to the registered segments and to
the live bytes.
-/
namespace SeferAlloc
namespace LargeHeap
open LargeCache CacheLedger
open LargeReservation (Transition LargePhase packLargeState largePhase largeGeneration
  nextLargeGeneration pack maxLargeGeneration)
open LargeCache.Cache (Wf Frame Quiet totalSlots)

namespace Heap
variable {h h' : Heap} {busy : Option ℕ} {i base : ℕ} {x : CachedLarge}

/-! ## Free -/

/-- The claim makes a registered segment the busy one. -/
lemma claimLive_spec (hi : h.Inv none) (hreg : h.registered base = true) :
    ∃ g ≤ maxLargeGeneration,
      h.claimLive base = some (g, h.setState base (pack .consuming g)) ∧
      (h.setState base (pack .consuming g)).Inv (some base) := by
  have hlive : largePhase (h.header base).largeState = some .live := hi.live base hreg nofun
  have hg := LargeReservation.largeGeneration_le (h.header base).largeState
  refine ⟨_, hg, ?_, hi.wf, hi.follows, hi.slot, hi.cached, fun b => ?_, fun b hb hbusy => ?_,
    fun i x hx => ?_⟩
  · rw [claimLive]
    simp only [hlive, if_true, packLargeState_le hg, Option.map_some]
  · refine (hi.inUse b).trans ⟨fun hb => .inl (hb.resolve_right nofun), fun hb => .inl ?_⟩
    obtain hb | hb := hb
    · exact hb
    · exact Option.some.inj hb ▸ hreg
  · have hne : b ≠ base := fun hb' => hbusy (hb' ▸ rfl)
    rw [phase, setState_header_of_ne _ hne]
    exact hi.live b hb nofun
  · rw [phase, setState_header_of_ne]
    · exact hi.idle i x hx
    · intro hb
      have := (hi.not_inUse hx).1
      rw [hb, hreg] at this
      contradiction

lemma unregister_inv (hi : h.Inv (some base)) : (h.unregister base).Inv (some base) := by
  have hreg : ∀ b ≠ base, (h.unregister base).registered b = h.registered b := fun b hb =>
    Function.update_of_ne hb _ _
  refine ⟨hi.wf, hi.follows, hi.slot, hi.cached, fun b => ?_, fun b hb hbusy => ?_, hi.idle⟩
  · refine (hi.inUse b).trans ?_
    by_cases hb : b = base
    · exact iff_of_true (.inr (hb ▸ rfl)) (.inr (hb ▸ rfl))
    · rw [hreg b hb]
  · rw [hreg b fun hb' => hbusy (hb' ▸ rfl)] at hb
    exact hi.live b hb hbusy

/-- The busy segment leaves for the cache or for the OS; `h'` keeps the rest. -/
lemma Inv.finish (hi : h.Inv (some base)) (hwf : h'.cache.Wf)
    (hslots : ∀ j y, y.base ≠ base →
      (h'.cache.slotGet j = some y ↔ h.cache.slotGet j = some y))
    (hheader : ∀ b ≠ base, h'.header b = h.header b)
    (hreg : ∀ b ≠ base, h'.registered b = h.registered b) (hout : h'.registered base = false)
    {e : Event ℕ} (hlog : h'.log = h.log ++ [e]) (hkey : e.key = base) (hfits : e.Fits h.ledger)
    (hres : e.result = .absent ∧ (∀ j y, h'.cache.slotGet j = some y → y.base ≠ base) ∨
      ∃ i x, h'.cache.slotGet i = some x ∧ x.base = base ∧ e.result = .cached (entry x) ∧
        h'.phase base = some .cached) : h'.Inv none := by
  have hl := ledger_append hlog
  have hself : h'.ledger base = e.result := by rw [hl, ← hkey, Ledger.record_self]
  have hother : ∀ b ≠ base, h'.ledger b = h.ledger b := fun b hb => by
    rw [hl, Ledger.record_of_ne]
    rw [hkey]
    exact Ne.symm hb
  have hne : ∀ {j y}, h.cache.slotGet j = some y → y.base ≠ base := fun hy hb =>
    (hi.not_inUse hy).2 (hb ▸ rfl)
  have hcases : ∀ {j y}, h'.cache.slotGet j = some y →
      y.base ≠ base ∧ h.cache.slotGet j = some y ∨
        y.base = base ∧ e.result = .cached (entry y) ∧ h'.phase base = some .cached := by
    intro j y hy
    by_cases hb : y.base = base
    · obtain ⟨-, hno⟩ | ⟨i, x, hx, hxb, hr, hp⟩ := hres
      · exact absurd hb (hno j y hy)
      · obtain rfl := hwf.once i j x y hx hy (hxb.trans hb.symm)
        obtain rfl := Option.some.inj (hx.symm.trans hy)
        exact .inr ⟨hb, hr, hp⟩
    · exact .inl ⟨hb, (hslots j y hb).mp hy⟩
  refine ⟨hwf, ?_, fun j y hy => ?_, fun b d hb => ?_, fun b => ?_, fun b hb _ => ?_,
    fun j y hy => ?_⟩
  · rw [hlog, follows_append]
    exact ⟨hi.follows, hfits, trivial⟩
  · obtain ⟨hb, hy⟩ | ⟨hb, hr, -⟩ := hcases hy
    · rw [hother _ hb]
      exact hi.slot j y hy
    · rw [hb, hself, hr]
  · by_cases hbb : b = base
    · subst hbb
      rw [hself] at hb
      obtain ⟨hr, -⟩ | ⟨i, x, hx, -, hr, -⟩ := hres
      · cases hr.symm.trans hb
      · exact ⟨i, x, hx, Status.cached.inj (hr.symm.trans hb)⟩
    · rw [hother b hbb] at hb
      obtain ⟨j, y, hy, hd⟩ := hi.cached b d hb
      exact ⟨j, y, (hslots j y (hne hy)).mpr hy, hd⟩
  · by_cases hb : b = base
    · subst hb
      rw [hself, hout]
      refine iff_of_false (fun hc => ?_) (by simp)
      obtain ⟨hr, -⟩ | ⟨i, x, -, -, hr, -⟩ := hres <;> cases hr.symm.trans hc
    · rw [hother b hb, hreg b hb, hi.inUse b]
      exact or_congr_right (iff_of_false (fun hc => hb (Option.some.inj hc).symm) nofun)
  · have hbb : b ≠ base := by
      rintro rfl
      rw [hout] at hb
      contradiction
    rw [phase, hheader b hbb]
    exact hi.live b (by rwa [← hreg b hbb]) fun hc => hbb (Option.some.inj hc).symm
  · obtain ⟨hb, hy⟩ | ⟨hb, -, hp⟩ := hcases hy
    · rw [phase, hheader _ hb]
      exact hi.idle j y hy
    · rw [hb]
      exact hp

/-- The entries carry the spans of their segments. -/
def Spans (h : Heap) : Prop :=
  ∀ i x, h.cache.slotGet i = some x → (h.header x.base).spanUsable = x.usableSize

lemma Keeps.spans (k : Keeps busy h h') (hs : h.Spans) : h'.Spans := fun i x hx =>
  have hx' := k.slots i x hx
  (congrArg LargeHeader.spanUsable hx'.2).trans (hs i x hx'.1)

/-- The end of a free, from the busy segment on. -/
structure Settled (base : ℕ) (hdr : LargeHeader) (h h' : Heap) : Prop where
  inv : h'.Inv none
  config : h'.cache.config = h.cache.config
  registered : h'.registered = h.registered
  header : ∀ b ≠ base, h'.header b = h.header b
  live : h'.cache.live = h.cache.live
  extension : h.cache.extension.isSome = true → h'.cache.extension.isSome = true
  spans : h.Spans → (h.header base).spanUsable = hdr.spanUsable → h'.Spans

lemma deposit_spec (hi : h.Inv (some base)) {g : ℕ} (hg : g ≤ maxLargeGeneration)
    (hw : (h.header base).largeState = pack .consuming g) (hout : h.registered base = false)
    (hdr : LargeHeader) {idx : ℕ} (hlt : idx < h.cache.scanBound)
    (hfree : h.cache.slotGet idx = none) (hb : h.cache.budgetOk hdr.spanUsable = true) :
    ∃ h', h.deposit idx base g hdr = some h' ∧ Settled base hdr h h' := by
  set x := cachedLarge base hdr h.cache.seq with hx
  have hne : ∀ j y, h.cache.slotGet j = some y → y.base ≠ base := fun j y hy hbase =>
    (hi.not_inUse hy).2 (hbase ▸ rfl)
  have hwf : Wf { h.cache with seq := (h.cache.seq + 1) % (usizeMax + 1) } := by
    have hw := hi.wf
    exact ⟨hw.bit, hw.below, hw.active, hw.used, hw.budget, hw.once⟩
  obtain ⟨c, hset, hwf', hget, hf⟩ := hwf.deposit (x := x) hlt hfree hne hb
  have htr := transition_eq (t := .cacheConsumed) hg rfl hw
  set h₁ := ((h.setState base (pack .cached g)).setCache (c.addUsed hdr.spanUsable)).emit
    (.deposited (entry x)) with hh₁
  have hgetc : h₁.cache.slotGet = Function.update h.cache.slotGet idx (some x) := hget
  have hself : h₁.cache.slotGet idx = some x := by rw [hgetc, Function.update_self]
  have hheader : ∀ b ≠ base, h₁.header b = h.header b := fun b hb => setState_header_of_ne _ hb _
  refine ⟨h₁, ?_, hi.finish (e := .deposited (entry x)) hwf' (fun j y hb => ?_) hheader
    (fun _ _ => rfl) hout rfl rfl ((hi.inUse base).mpr (.inr rfl))
    (.inr ⟨idx, x, hself, rfl, rfl, phase_setState h base _ hg⟩), hf.config, rfl, hheader, ?_, ?_,
    fun hs hspan j y hy => ?_⟩
  · rw [deposit, htr]
    simp only [Option.bind_eq_bind, Option.bind_some]
    change (Cache.slotSet { h.cache with seq := (h.cache.seq + 1) % (usizeMax + 1) } idx x).bind _ = _
    rw [hset]
    rfl
  · have hji : j = idx → x ≠ y ∧ h.cache.slotGet j ≠ some y := by
      rintro rfl
      exact ⟨fun he => hb (he ▸ rfl), by simp [hfree]⟩
    rw [hgetc, Function.update_apply]
    split_ifs with hj
    · exact iff_of_false (fun hy => (hji hj).1 (Option.some.inj hy)) (hji hj).2
    · rfl
  · change c.live = h.cache.live
    exact (live_eq hf).trans rfl
  · change h.cache.extension.isSome = true → c.extension.isSome = true
    exact fun he => (extension_isSome hf).trans he
  · rw [hgetc, Function.update_apply] at hy
    split_ifs at hy with hj
    · obtain rfl := Option.some.inj hy
      exact (setState_spanUsable h base _ base).trans hspan
    · rw [hheader _ (hne j y hy)]
      exact hs j y hy

lemma settle_spec (hi : h.Inv (some base)) {g : ℕ} (hg : g ≤ maxLargeGeneration)
    (hw : (h.header base).largeState = pack .consuming g) (hout : h.registered base = false)
    (hdr : LargeHeader) {admitted : Option ℕ} (hadm : h.Admits hdr.spanUsable admitted) :
    ∃ h', h.settle admitted base g hdr = some h' ∧ Settled base hdr h h' := by
  cases admitted with
  | some idx =>
      obtain ⟨hlt, hfree, hb⟩ := hadm idx rfl
      exact deposit_spec hi hg hw hout hdr hlt hfree hb
  | none =>
      have htr := transition_eq (t := .releaseConsumed) hg rfl hw
      have hheader : ∀ b ≠ base, ((h.setState base (pack .released g)).emit
          (.returned base)).header b = h.header b := fun b hb => setState_header_of_ne h hb _
      refine ⟨(h.setState base (pack .released g)).emit (.returned base), ?_,
        hi.finish hi.wf (fun _ _ _ => Iff.rfl) hheader (fun _ _ => rfl) hout rfl rfl
          ((hi.inUse base).mpr (.inr rfl))
          (.inl ⟨rfl, fun j y hy hb => (hi.not_inUse hy).2 (hb ▸ rfl)⟩), rfl, rfl, hheader, rfl, id,
        fun hs _ j y hy => (setState_spanUsable h base _ y.base).trans (hs j y hy)⟩
      rw [settle, htr]
      rfl

lemma live_noteFree (c : Cache) (usable : ℕ) :
    (c.noteFree usable).live = if c.config.adaptive then c.live - usable else c.live := by
  rw [Cache.noteFree, Cache.adaptiveExt]
  split_ifs
  · rw [Cache.live, Cache.live]
    cases c.extension with
    | none => exact (Nat.zero_sub _).symm
    | some e => rfl
  · rfl

/-- What a free does to the heap. -/
structure Freed (base : ℕ) (h h' : Heap) : Prop where
  inv : h'.Inv none
  config : h'.cache.config = h.cache.config
  registered : h'.registered = Function.update h.registered base false
  header : ∀ b ≠ base, h.registered b = true → h'.header b = h.header b
  live : h'.cache.live = if h.cache.config.adaptive then
    h.cache.live - (h.header base).spanUsable else h.cache.live
  extension : h.cache.extension.isSome = true → h'.cache.extension.isSome = true
  spans : h.Spans → h'.Spans

lemma refused_keeps (hi : h.Inv busy) (hdr : LargeHeader) (admitted : Option ℕ) :
    Keeps busy h (if admitted.isNone then h.refuse hdr else h) := by
  split_ifs
  · exact refuse_keeps hi hdr
  · exact hi.keeps

lemma Admits.refused {usable : ℕ} {hdr : LargeHeader} {admitted : Option ℕ}
    (hadm : h.Admits usable admitted) :
    (if admitted.isNone then h.refuse hdr else h).Admits usable admitted := by
  cases admitted with
  | none => exact fun i hslot => by cases hslot
  | some idx => exact hadm

/-- The way of a freed segment: claimed (`h₁`, perhaps unregistered), decayed past (`h₂`), noted
and admitted (`h₃`), unregistered (`h₄`), settled (`h'`). -/
lemma freed_of {h₁ h₂ h₃ h₄ : Heap} {g : ℕ} (hk₂ : Keeps (some base) h₁ h₂)
    (hk₃ : Keeps (some base) (h₂.setCache (h₂.cache.noteFree (h₁.header base).spanUsable)) h₃)
    (hs : Settled base (h₁.header base) h₄ h') (hcache₁ : h₁.cache = h.cache)
    (hheader₁ : h₁.header = (h.setState base (pack .consuming g)).header)
    (hreg₁ : ∀ b ≠ base, h₁.registered b = h.registered b)
    (hcache₄ : h₄.cache = h₃.cache) (hheader₄ : h₄.header = h₃.header)
    (hreg₄ : h₄.registered = Function.update h.registered base false) : Freed base h h' := by
  have hq := (hk₂.inv.wf.adaptiveExt fun a => a.noteFree (h₁.header base).spanUsable).1
  have hspan : ∀ b, (h₁.header b).spanUsable = (h.header b).spanUsable := fun b => by
    rw [hheader₁]
    exact setState_spanUsable h base _ b
  have hkeep : ∀ b, h₁.registered b = true ∨ some base = some b → h₃.header b = h₁.header b :=
    fun b hb => (hk₃.header b (by rw [setCache, hk₂.registered]; exact hb)).trans (hk₂.header b hb)
  refine ⟨hs.inv, ?_, hs.registered.trans hreg₄, fun b hb hreg => ?_, ?_, fun he => hs.extension ?_,
    fun hsp => hs.spans ?_ ?_⟩
  · rw [hs.config, hcache₄, hk₃.config, ← hcache₁, ← hk₂.config]
    exact hq.config
  · rw [hs.header b hb, hheader₄, hkeep b (.inl (by rw [hreg₁ b hb, hreg])), hheader₁]
    exact setState_header_of_ne h hb _
  · rw [hs.live, hcache₄, hk₃.live, ← hcache₁, ← hspan base]
    refine (live_noteFree h₂.cache _).trans ?_
    rw [hk₂.config, hk₂.live]
  · rw [hcache₄]
    refine hk₃.extension ((Cache.extension_adaptiveExt _ _).trans (hk₂.extension ?_))
    rwa [hcache₁]
  · have hs₁ : h₁.Spans := fun i x hx => (hspan x.base).trans (hsp i x (by rwa [← hcache₁]))
    have hs₂ : (h₂.setCache (h₂.cache.noteFree (h₁.header base).spanUsable)).Spans :=
      fun i x hx => hk₂.spans hs₁ i x (by rwa [← hq.slotGet])
    intro i x hx
    rw [hcache₄] at hx
    rw [hheader₄]
    exact hk₃.spans hs₂ i x hx
  · rw [hheader₄, hkeep base (.inr rfl)]

lemma deallocLargeAtBase_spec (hi : h.Inv none) (hreg : h.registered base = true) (now : ℕ)
    (grants : ℕ → Bool) :
    ∃ h', h.deallocLargeAtBase base now grants = some h' ∧ Freed base h h' := by
  obtain ⟨g, hg, hclaim, hi₁⟩ := claimLive_spec hi hreg
  set h₁ := h.setState base (pack .consuming g) with hh₁
  obtain ⟨h₂, hdecay, hk₂⟩ := maybeDecayLargeCache_spec hi₁ now
  have hhdr : h₂.header base = h₁.header base := hk₂.header base (.inr rfl)
  obtain ⟨⟨admitted, h₃⟩, hplaced, hk₃, hadm⟩ := admission_spec hk₂.inv grants (h₁.header base)
  have hk := hk₃.trans (refused_keeps hk₃.inv (h₁.header base) admitted)
  set h₄ := if admitted.isNone then h₃.refuse (h₁.header base) else h₃ with hh₄
  have hw : (h₄.header base).largeState = pack .consuming g := by
    rw [hk.header base (.inr rfl)]
    exact (congrArg LargeHeader.largeState hhdr).trans (setState_largeState h base _)
  obtain ⟨h', hs, hset⟩ := settle_spec (unregister_inv hk.inv) hg hw (unregister_self h₄ base)
    (h₁.header base) hadm.refused
  have hreg₄ : (h₄.unregister base).registered = Function.update h.registered base false := by
    rw [unregister, hk.registered, setCache, hk₂.registered]
    rfl
  refine ⟨h', ?_, freed_of hk₂ hk hset rfl rfl (fun _ _ => rfl) rfl rfl hreg₄⟩
  rw [deallocLargeAtBase, hclaim]
  simp only [Option.bind_eq_bind, Option.bind_some, hdecay, hhdr, hplaced]
  exact hs

lemma reclaimLargeSegment_spec (hi : h.Inv none) (hreg : h.registered base = true) (now : ℕ)
    (grants : ℕ → Bool) :
    ∃ h', h.reclaimLargeSegment base now grants = some h' ∧ Freed base h h' := by
  obtain ⟨g, hg, hclaim, hi₁⟩ := claimLive_spec hi hreg
  set h₁ := (h.setState base (pack .consuming g)).unregister base with hh₁
  obtain ⟨h₂, hdecay, hk₂⟩ := maybeDecayLargeCache_spec (unregister_inv hi₁) now
  obtain ⟨⟨admitted, h₃⟩, hplaced, hk₃, hadm⟩ := admission_spec hk₂.inv grants (h₁.header base)
  have hk := hk₃.trans (refused_keeps hk₃.inv (h₁.header base) admitted)
  set h₄ := if admitted.isNone then h₃.refuse (h₁.header base) else h₃ with hh₄
  have hw : (h₄.header base).largeState = pack .consuming g := by
    rw [hk.header base (.inr rfl)]
    exact (congrArg LargeHeader.largeState (hk₂.header base (.inr rfl))).trans
      (setState_largeState h base _)
  have hreg₄ : h₄.registered = Function.update h.registered base false := by
    rw [hk.registered, setCache, hk₂.registered]
    rfl
  obtain ⟨h', hs, hset⟩ := settle_spec hk.inv hg hw (by rw [hreg₄, Function.update_self])
    (h₁.header base) hadm.refused
  refine ⟨h', ?_, freed_of hk₂ hk hset rfl rfl (fun b hb => Function.update_of_ne hb _ _) rfl
    rfl hreg₄⟩
  rw [reclaimLargeSegment, hclaim]
  simp only [Option.bind_eq_bind, Option.bind_some]
  change (h₁.maybeDecayLargeCache now).bind _ = _
  rw [hdecay, Option.bind_some]
  change (h₂.admission grants (h₁.header base)).bind _ = _
  rw [hplaced]
  exact hs

/-! ## Allocation -/

lemma granted_inv (hi : h.Inv none) (hb : h.ledger base = .absent) :
    (h.emit (.granted base)).Inv (some base) := by
  have hl : (h.emit (.granted base)).ledger = h.ledger.record (.granted base) := ledger_append rfl
  have hself : (h.emit (.granted base)).ledger base = .inUse := by
    rw [hl]
    exact Ledger.record_self _ _
  have hother : ∀ b ≠ base, (h.emit (.granted base)).ledger b = h.ledger b := fun b hb => by
    rw [hl, Ledger.record_of_ne]
    exact Ne.symm hb
  refine ⟨hi.wf, follows_append.mpr ⟨hi.follows, hb, trivial⟩, fun i x hx => ?_, fun b e hbe => ?_,
    fun b => ?_, fun b hreg _ => hi.live b hreg nofun, hi.idle⟩
  · rw [hother]
    · exact hi.slot i x hx
    · intro he
      have := hi.slot i x hx
      rw [he, hb] at this
      cases this
  · by_cases hbb : b = base
    · subst hbb
      cases hself.symm.trans hbe
    · rw [hother b hbb] at hbe
      exact hi.cached b e hbe
  · by_cases hbb : b = base
    · subst hbb
      exact iff_of_true hself (.inr rfl)
    · rw [hother b hbb, hi.inUse b]
      exact or_congr_right (iff_of_false nofun fun hc => hbb (Option.some.inj hc).symm)

lemma register_inv (hi : h.Inv (some base)) {hdr : LargeHeader}
    (hlive : largePhase hdr.largeState = some .live) :
    Inv none { h with
      registered := Function.update h.registered base true
      header := Function.update h.header base hdr } := by
  refine ⟨hi.wf, hi.follows, hi.slot, hi.cached, fun b => ?_, fun b hb _ => ?_, fun i x hx => ?_⟩
  · refine (hi.inUse b).trans ?_
    by_cases hb : b = base
    · subst hb
      exact iff_of_true (.inr rfl) (.inl (by simp only [Function.update_self]))
    · change _ ↔ Function.update h.registered base true b = true ∨ _
      rw [Function.update_of_ne hb]
      exact or_congr_right (iff_of_false (fun hc => hb (Option.some.inj hc).symm) nofun)
  · by_cases hbb : b = base
    · subst hbb
      rw [phase]
      simp only [Function.update_self]
      exact hlive
    · change Function.update h.registered base true b = true at hb
      rw [Function.update_of_ne hbb] at hb
      rw [phase]
      simp only [Function.update_of_ne hbb]
      exact hi.live b hb fun hc => hbb (Option.some.inj hc).symm
  · have hne : x.base ≠ base := fun hb => (hi.not_inUse hx).2 (hb ▸ rfl)
    rw [phase]
    simp only [Function.update_of_ne hne]
    exact hi.idle i x hx

lemma grant_spec (hi : h.Inv none) {o : Option Reservation} {v : Reservation}
    (hr : h.grant o = some v) : h.ledger v.base = .absent := by
  obtain ⟨-, hv⟩ := Option.filter_eq_some_iff.mp hr
  rw [decide_eq_true_eq] at hv
  obtain ⟨hreg, hslots⟩ := hv
  cases hl : h.ledger v.base with
  | absent => rfl
  | inUse =>
      have := (hi.inUse v.base).mp hl
      simp [hreg] at this
  | cached e =>
      obtain ⟨i, x, hx, rfl⟩ := hi.cached v.base e hl
      obtain h0 | ⟨-, -, -, hkey, -⟩ := Ledger.origin hl
      · cases h0
      · exact absurd hkey (hslots i (hi.wf.lt_total hx) x hx)

/-- What an allocation without a block does to the heap. -/
structure Unplaced (h h' : Heap) : Prop where
  inv : h'.Inv none
  config : h'.cache.config = h.cache.config
  registered : h'.registered = h.registered
  header : ∀ b, h.registered b = true → h'.header b = h.header b
  extension : h'.cache.extension.isSome = h.cache.extension.isSome
  spans : h.Spans → h'.Spans

/-- What an allocation with a block in the segment `base` does to the heap. -/
structure Placed (base span align : ℕ) (h h' : Heap) : Prop where
  inv : h'.Inv none
  config : h'.cache.config = h.cache.config
  fresh : h.registered base = false
  registered : h'.registered = Function.update h.registered base true
  header : ∀ b, h.registered b = true → h'.header b = h.header b
  span : (h'.header base).spanUsable = span
  align : (h'.header base).largeAlign = align
  extension : h'.cache.extension.isSome = h.cache.extension.isSome
  spans : h.Spans → h'.Spans

lemma Unplaced.trans {h'' : Heap} (u : Unplaced h h') (u' : Unplaced h' h'') : Unplaced h h'' :=
  ⟨u'.inv, u'.config.trans u.config, u'.registered.trans u.registered,
    fun b hb => (u'.header b (by rwa [u.registered])).trans (u.header b hb),
    u'.extension.trans u.extension, u'.spans ∘ u.spans⟩

lemma Unplaced.placed {h'' : Heap} {span align : ℕ} (u : Unplaced h h')
    (p : Placed base span align h' h'') : Placed base span align h h'' :=
  ⟨p.inv, p.config.trans u.config, by rw [← u.registered]; exact p.fresh,
    by rw [p.registered, u.registered],
    fun b hb => (p.header b (by rwa [u.registered])).trans (u.header b hb), p.span, p.align,
    p.extension.trans u.extension, p.spans ∘ u.spans⟩

lemma Keeps.unplaced (k : Keeps none h h') : Unplaced h h' :=
  ⟨k.inv, k.config, k.registered, fun b hb => k.header b (.inl hb), k.unopened rfl, k.spans⟩

lemma Inv.unplaced (hi : h.Inv none) {c : Cache} (hq : Quiet h.cache c)
    (hext : c.extension.isSome = h.cache.extension.isSome) : Unplaced h (h.setCache c) :=
  ⟨hi.quiet hq, hq.config, rfl, fun _ _ => rfl, hext,
    fun hs i x hx => hs i x (by rwa [← hq.slotGet])⟩

lemma allocLargeSlow_spec (hi : h.Inv none) (o : Answers) (size align usable hdrAligned : ℕ) :
    ∃ r, h.allocLargeSlow o size align usable hdrAligned = r ∧ r.2.cache = h.cache ∧
      (r.1 = none ∧ Unplaced h r.2 ∨
        r.1 ≠ none ∧ ∃ base, Placed base usable align h r.2) := by
  rw [allocLargeSlow]
  split
  · exact ⟨_, rfl, rfl, .inl ⟨rfl, hi.keeps.unplaced⟩⟩
  · rename_i r hr
    have hi₁ := granted_inv hi (grant_spec hi hr)
    have hout := (Option.filter_eq_some_iff.mp hr).2
    rw [decide_eq_true_eq] at hout
    dsimp only
    split_ifs
    · have hne : ∀ b, b ≠ r.base → Function.update h.header r.base
          ⟨size, align, hdrAligned, usable, reservedCapacityTarget h.build usable, r.reservation,
            r.reservationLen, pack .live 1⟩ b = h.header b := fun b hb =>
        Function.update_of_ne hb _ _
      refine ⟨_, rfl, rfl, .inr ⟨nofun, r.base,
        register_inv hi₁ (LargeReservation.largePhase_pack .live (by decide)), rfl, hout.1, rfl,
        fun b hb => hne b ?_, ?_, ?_, rfl, fun hs i x hx => ?_⟩⟩
      · rintro rfl
        rw [hout.1] at hb
        contradiction
      · simp only [emit, Function.update_self]
      · simp only [emit, Function.update_self]
      · have hx' : h.cache.slotGet i = some x := hx
        have hxb : x.base ≠ r.base := hout.2 i (hi.wf.lt_total hx') x hx'
        exact (congrArg LargeHeader.spanUsable (hne x.base hxb)).trans (hs i x hx')
    · have hi₂ : ((h.emit (.granted r.base)).emit (.returned r.base)).Inv none :=
        hi₁.finish hi.wf (fun _ _ _ => Iff.rfl) (fun _ _ => rfl) (fun _ _ => rfl) hout.1 rfl rfl
          ((hi₁.inUse r.base).mpr (.inr rfl))
          (.inl ⟨rfl, fun j y hy hb => (hi₁.not_inUse hy).2 (hb ▸ rfl)⟩)
      exact ⟨_, rfl, rfl, .inl ⟨rfl, hi₂, rfl, rfl, fun _ _ => rfl, rfl, id⟩⟩

/-- The live bytes after a segment of `usable` bytes is noted. -/
def liveWith (c : Cache) (usable : ℕ) : ℕ :=
  if c.config.adaptive ∧ c.extension.isSome then satAdd c.live usable else c.live

lemma live_noted {c : Cache} {f : AdaptiveState → AdaptiveState} {usable : ℕ}
    (hf : ∀ a, (f a).live = satAdd a.live usable) :
    (c.adaptiveExt f).live = liveWith c usable := by
  rw [Cache.adaptiveExt, liveWith]
  cases he : c.extension with
  | none =>
      simp only [Option.isSome_none, Bool.false_eq_true, and_false, if_false, Cache.live, he]
      split_ifs <;> simp [he]
  | some e =>
      simp only [Option.isSome_some, and_true, Cache.live, he, Option.map_some, Option.elim_some]
      split_ifs
      · exact hf e.adapt
      · rw [he]
        rfl

lemma noteMiss_live (a : AdaptiveState) (headroom usable : ℕ) :
    (a.noteMiss headroom usable).live = satAdd a.live usable := by
  rw [AdaptiveState.noteMiss]
  dsimp only
  split <;> rfl

/-- A hit may fail to be served in two ways, and each of them loses the note of it. -/
def Serves (h : Heap) (o : Answers) (size align : ℕ) : Prop :=
  ∀ usable ∈ spanOf h.build size align, ∀ idx ∈ h.cache.bestFit usable,
    ∀ x ∈ h.cache.slotGet idx, o.reregisters = true ∧ h.generationOf x.base < maxLargeGeneration

instance (h : Heap) (o : Answers) (size align : ℕ) : Decidable (h.Serves o size align) :=
  inferInstanceAs (Decidable (∀ usable ∈ spanOf h.build size align, _))

/-- The result of an allocation, and the live bytes after one that is served. -/
def Outcome (h : Heap) (served : Prop) (size align : ℕ) (r : Option (ℕ × Bool) × Heap) : Prop :=
  (r.1 = none ∧ Unplaced h r.2 ∧
      (spanOf h.build size align = none ∨ segment ≤ align → r.2.cache.live = h.cache.live)) ∨
    r.1 ≠ none ∧ spanOf h.build size align ≠ none ∧ ∃ base span,
      Placed base span align h r.2 ∧ ((align < segment → served) → h.Spans →
        r.2.cache.live = if align < segment then liveWith h.cache span else h.cache.live)

lemma Outcome.mono {served served' : Prop} {size align : ℕ} {r : Option (ℕ × Bool) × Heap}
    (ho : h.Outcome served size align r) (hs : served' → served) :
    h.Outcome served' size align r := by
  obtain hnone | ⟨hsome, hspan, base, span, hp, hl⟩ := ho
  · exact .inl hnone
  · exact .inr ⟨hsome, hspan, base, span, hp, fun hs' => hl fun halign => hs (hs' halign)⟩

lemma beginLargeReuse_spec (hp : h.phase base = some .cached) :
    maxLargeGeneration ≤ h.generationOf base ∧ h.beginLargeReuse base = some (none, h) ∨
      ∃ g ≤ maxLargeGeneration,
        h.beginLargeReuse base = some (some g, h.setState base (pack .initializing g)) := by
  have hp' : largePhase (h.header base).largeState = some .cached := hp
  rw [beginLargeReuse, if_pos hp']
  cases hnext : nextLargeGeneration (largeGeneration (h.header base).largeState) with
  | none =>
      rw [nextLargeGeneration] at hnext
      split_ifs at hnext with hge
      exact .inl ⟨hge, rfl⟩
  | some g =>
      have hg : g ≤ maxLargeGeneration := by
        rw [nextLargeGeneration] at hnext
        split_ifs at hnext with hge
        obtain rfl := Option.some.inj hnext
        exact not_le.mp hge
      exact .inr ⟨g, hg, by simp only [packLargeState_le hg, Option.map_some]⟩

/-- A hit is served, or its segment goes back to the OS and a new one is tried. -/
lemma serveHit_spec (hi : h.Inv none) (o : Answers) (size align usable hdrAligned : ℕ) {idx : ℕ}
    (hx : h.cache.slotGet idx = some x) (hspan : spanOf h.build size align = some usable)
    (halign : align < segment) :
    ∃ r, h.serveHit o size align usable hdrAligned idx = some r ∧
      h.Outcome (o.reregisters = true ∧ h.generationOf x.base < maxLargeGeneration) size align r := by
  obtain ⟨c, htake, hwf, hle, hget, hf⟩ := hi.wf.withdraw hx
  have hidle := hi.idle idx x hx
  have hout := (hi.not_inUse hx).1
  have hcached : h.ledger x.base = .cached (entry x) := hi.slot idx x hx
  have hne : ∀ b, h.registered b = true → b ≠ x.base := by
    rintro b hb rfl
    rw [hout] at hb
    contradiction
  have hsub : ∀ {c'}, Quiet (c.subUsed x.usableSize) c' → ∀ {i y}, c'.slotGet i = some y →
      h.cache.slotGet i = some y ∧ y.base ≠ x.base := by
    intro c' hq i y hy
    have hy' : c.slotGet i = some y := by
      rw [hq.slotGet] at hy
      exact hy
    rw [hget, Function.update_apply] at hy'
    split_ifs at hy' with hji
    exact ⟨hy', fun hb => hji (hi.wf.once i idx y x hy' hx hb)⟩
  have hsubext : (c.subUsed x.usableSize).extension.isSome = h.cache.extension.isSome := by
    change c.extension.isSome = _
    exact extension_isSome hf
  -- the segment leaves the cache and goes back to the OS
  have hdiscard : ∀ (h₁ : Heap), Quiet (c.subUsed x.usableSize) h₁.cache →
      h₁.cache.extension.isSome = (c.subUsed x.usableSize).extension.isSome →
      (∀ b ≠ x.base, h₁.header b = h.header b) → h₁.registered = h.registered →
      h₁.log = h.log → Unplaced h (h₁.emit (.discarded (entry x) h.cache.usedBytes)) := by
    intro h₁ hq hext hheader hreg hlog
    refine ⟨hi.withdraw hx hq.wf (hq.slotGet.trans hget) hheader (fun b _ => congrFun hreg b)
      (congrArg (· ++ _) hlog) rfl ⟨hcached, hle⟩ (.inl ⟨rfl, ?_⟩), hq.config.trans hf.config, hreg,
      fun b hb => hheader b (hne b hb), hext.trans hsubext, fun hs i y hy => ?_⟩
    · exact (congrFun hreg x.base).trans hout
    · obtain ⟨hy', hyb⟩ := hsub hq hy
      exact (congrArg LargeHeader.spanUsable (hheader y.base hyb)).trans (hs i y hy')
  have hslow : ∀ (h₁ : Heap), Unplaced h h₁ →
      ¬ (o.reregisters = true ∧ h.generationOf x.base < maxLargeGeneration) →
      h.Outcome (o.reregisters = true ∧ h.generationOf x.base < maxLargeGeneration) size align
        (h₁.allocLargeSlow o size align usable hdrAligned) := by
    intro h₁ hu hno
    obtain ⟨r, hr, -, ⟨hnone, hu'⟩ | ⟨hsome, base, hp⟩⟩ :=
      allocLargeSlow_spec hu.inv o size align usable hdrAligned
    · rw [hr]
      exact .inl ⟨hnone, hu.trans hu', fun hc => absurd hc (not_or.mpr
        ⟨by simp [hspan], not_le.mpr halign⟩)⟩
    · rw [hr]
      exact .inr ⟨hsome, by simp [hspan], base, usable, hu.placed hp,
        fun hs => absurd (hs halign) hno⟩
  obtain ⟨hgen, hnone⟩ | ⟨g, hg, hsome⟩ := beginLargeReuse_spec (h := h.setCache c) hidle
  · have hw : (h.header x.base).largeState = pack .cached (h.generationOf x.base) := eq_pack hidle
    have hle' : h.generationOf x.base ≤ maxLargeGeneration := LargeReservation.largeGeneration_le _
    set h₁ := h.setCache (c.subUsed x.usableSize)
    have htr := transition_eq (h := h₁) (t := .releaseCached) hle' rfl hw
    have hu := hdiscard (h₁.setState x.base (pack .released (h.generationOf x.base)))
      hwf.quiet rfl (fun b hb => setState_header_of_ne h₁ hb _) rfl rfl
    refine ⟨_, ?_, hslow _ hu fun hs => absurd hs.2 (not_lt.mpr hgen)⟩
    rw [serveHit, htake]
    simp only [Option.bind_eq_bind, Option.bind_some, hnone]
    change (h₁.transition x.base .releaseCached (h.generationOf x.base)).bind _ = _
    rw [htr]
    rfl
  · have hq := (hwf.adaptiveExt fun a => a.noteHit x.usableSize).1
    have hqext := Cache.extension_adaptiveExt (c.subUsed x.usableSize)
      fun a => a.noteHit x.usableSize
    set h₁ := ((((h.setCache c).setState x.base (pack .initializing g)).setCache
      (c.subUsed x.usableSize)).setCache
        ((c.subUsed x.usableSize).noteHit x.usableSize)).rewriteHeader x.base size align hdrAligned
      with hh₁
    have hw : (h₁.header x.base).largeState = pack .initializing g := by
      rw [hh₁, rewriteHeader]
      simp only [Function.update_self]
      exact setState_largeState h x.base _
    have hspan₁ : (h₁.header x.base).spanUsable = (h.header x.base).spanUsable := by
      rw [hh₁, rewriteHeader]
      simp only [Function.update_self]
      exact setState_spanUsable h x.base _ x.base
    have hheader : ∀ b ≠ x.base, h₁.header b = h.header b := fun b hb =>
      (Function.update_of_ne hb _ _).trans (setState_header_of_ne h hb _)
    rw [serveHit, htake]
    simp only [Option.bind_eq_bind, Option.bind_some, hsome]
    split_ifs with hreg
    · set h₂ : Heap := { h₁ with registered := Function.update h₁.registered x.base true }
      have htr := transition_eq (h := h₂) (t := .finishReuse) hg rfl hw
      have hheader₂ : ∀ b ≠ x.base, (h₂.setState x.base (pack .live g)).header b = h.header b :=
        fun b hb => (setState_header_of_ne h₂ hb _).trans (hheader b hb)
      have hself₂ : h₂.registered x.base = true := Function.update_self x.base true h₁.registered
      have hinv : ((h₂.setState x.base (pack .live g)).emit
          (.reused (entry x) h.cache.usedBytes)).Inv none :=
        hi.withdraw (e := .reused (entry x) h.cache.usedBytes) hx hq.wf (hq.slotGet.trans hget)
          hheader₂ (fun b hb => Function.update_of_ne hb _ _) rfl rfl ⟨hcached, hle⟩
          (.inr ⟨rfl, hself₂, phase_setState h₂ _ _ hg⟩)
      refine ⟨(some (x.base + hdrAligned, false), (h₂.setState x.base (pack .live g)).emit
        (.reused (entry x) h.cache.usedBytes)), ?_, .inr ⟨nofun, by simp [hspan], x.base,
        (h.header x.base).spanUsable,
        ⟨hinv, hq.config.trans hf.config, hout, rfl, fun b hb => hheader₂ b (hne b hb),
          (setState_spanUsable h₂ x.base _ x.base).trans hspan₁, ?_, hqext.trans hsubext,
          fun hs i y hy => ?_⟩, fun _ hs => ?_⟩⟩
      · change (h₂.transition x.base .finishReuse g).bind _ = _
        rw [htr]
        rfl
      · change ((h₂.setState x.base (pack .live g)).header x.base).largeAlign = align
        rw [setState]
        simp only [Function.update_self]
        change (h₁.header x.base).largeAlign = align
        rw [hh₁, rewriteHeader]
        simp only [Function.update_self]
      · obtain ⟨hy', hyb⟩ := hsub hq hy
        exact (congrArg LargeHeader.spanUsable (hheader₂ y.base hyb)).trans (hs i y hy')
      · rw [if_pos halign, hs idx x hx]
        have hl := live_noted (c := c.subUsed x.usableSize)
          (f := fun a => a.noteHit x.usableSize) fun _ => rfl
        refine hl.trans ?_
        rw [liveWith, liveWith]
        change (if c.config.adaptive ∧ c.extension.isSome then satAdd c.live _ else c.live) = _
        rw [hf.config, live_eq hf]
        rw [extension_isSome hf]
    · have htr := transition_eq (h := h₁) (t := .releaseInitializing) hg rfl hw
      have hu := hdiscard (h₁.setState x.base (pack .released g)) hq hqext
        (fun b hb => (setState_header_of_ne h₁ hb _).trans (hheader b hb)) rfl rfl
      refine ⟨_, ?_, hslow _ hu fun hs => hreg hs.1⟩
      change (h₁.transition x.base .releaseInitializing g).bind _ = _
      rw [htr]
      rfl

lemma serve_spec (hi : h.Inv none) (o : Answers) (size align : ℕ) :
    ∃ r, h.serve o size align = some r ∧ h.Outcome (h.Serves o size align) size align r := by
  rw [serve]
  split
  · exact ⟨_, rfl, .inl ⟨rfl, hi.keeps.unplaced, fun _ => rfl⟩⟩
  · rename_i usable hspan
    split
    · rename_i halign
      split
      · rename_i idx hidx
        obtain ⟨x, hx, -⟩ := Cache.bestFit_spec hidx
        obtain ⟨r, hr, hout⟩ := serveHit_spec hi o size align usable _ hx hspan halign
        exact ⟨r, hr, hout.mono fun hs => hs usable hspan idx hidx x hx⟩
      · have hu := hi.unplaced
          (hi.wf.adaptiveExt fun a => a.noteMiss h.cache.config.headroomBytes usable).1
          (Cache.extension_adaptiveExt _ _)
        obtain ⟨r, hr, hc, ⟨hnone, hu'⟩ | ⟨hsome, base, hp⟩⟩ := allocLargeSlow_spec hu.inv o size
          align usable (largePayloadOffset h.build align)
        · exact ⟨r, congrArg some hr, .inl ⟨hnone, hu.trans hu', fun hc => absurd hc (not_or.mpr
            ⟨by simp [hspan], not_le.mpr halign⟩)⟩⟩
        · refine ⟨r, congrArg some hr, .inr ⟨hsome, by simp [hspan], base, usable, hu.placed hp,
            fun _ _ => ?_⟩⟩
          rw [if_pos halign, hc]
          exact live_noted fun a => noteMiss_live a _ usable
    · rename_i halign
      obtain ⟨r, hr, hc, ⟨hnone, hu'⟩ | ⟨hsome, base, hp⟩⟩ := allocLargeSlow_spec hi o size align
        usable (largePayloadOffset h.build align)
      · exact ⟨r, congrArg some hr, .inl ⟨hnone, hu', fun _ => congrArg Cache.live hc⟩⟩
      · refine ⟨r, congrArg some hr, .inr ⟨hsome, by simp [hspan], base, usable, hp,
          fun _ _ => ?_⟩⟩
        rw [if_neg halign, hc]

lemma allocLarge_spec (hi : h.Inv none) (o : Answers) (size align : ℕ) :
    ∃ r, h.allocLarge o size align = some r ∧
      h.Outcome (∀ h₁ ∈ h.maybeDecayLargeCache o.now, h₁.Serves o size align) size align r := by
  obtain ⟨h₁, he, hk⟩ := maybeDecayLargeCache_spec hi o.now
  obtain ⟨r, hr, hout⟩ := serve_spec hk.inv o size align
  refine ⟨r, by rw [allocLarge, he, Option.bind_some, hr], ?_⟩
  obtain ⟨hnone, hu, hl⟩ | ⟨hsome, hspan, base, span, hp, hl⟩ := hout
  · exact .inl ⟨hnone, hk.unplaced.trans hu, fun hc => (hl (by rwa [hk.build])).trans hk.live⟩
  · refine .inr ⟨hsome, by rwa [← hk.build], base, span, hk.unplaced.placed hp, fun hs hsp => ?_⟩
    rw [hl (fun halign => hs halign h₁ he) (hk.spans hsp), liveWith, liveWith, hk.config, hk.live,
      hk.unopened rfl]

/-! ## Growth -/

lemma Inv.resized (hi : h.Inv busy) (hdr : LargeHeader)
    (hs : hdr.largeState = (h.header base).largeState) :
    Inv busy { h with header := Function.update h.header base hdr } := by
  have hp : ∀ b, phase { h with header := Function.update h.header base hdr } b = h.phase b := by
    intro b
    by_cases hb : b = base
    · subst hb
      rw [phase, phase]
      simp only [Function.update_self, hs]
    · rw [phase, phase]
      simp only [Function.update_of_ne hb]
  exact ⟨hi.wf, hi.follows, hi.slot, hi.cached, hi.inUse,
    fun b hb hbusy => (hp b).trans (hi.live b hb hbusy),
    fun i x hx => (hp x.base).trans (hi.idle i x hx)⟩

lemma Inv.setSpanUsable (hi : h.Inv busy) (base span : ℕ) : (h.setSpanUsable base span).Inv busy :=
  hi.resized _ rfl

lemma Inv.setLargeSize (hi : h.Inv busy) (base size : ℕ) : (h.setLargeSize base size).Inv busy :=
  hi.resized _ rfl

/-- What a growth in place does to the heap. -/
structure Regrown (base : ℕ) (h h' : Heap) : Prop where
  inv : h'.Inv none
  cache : h'.cache = h.cache
  registered : h'.registered = h.registered
  log : h'.log = h.log
  largeAlign : ∀ b, (h'.header b).largeAlign = (h.header b).largeAlign
  spanUsable : ∀ b ≠ base, (h'.header b).spanUsable = (h.header b).spanUsable

lemma Regrown.setSpanUsable (hi : h.Inv none) (base span : ℕ) :
    Regrown base h (h.setSpanUsable base span) := by
  refine ⟨hi.setSpanUsable base span, rfl, rfl, rfl, fun b => ?_, fun b hb => ?_⟩
  · by_cases hb : b = base
    · subst hb
      rw [Heap.setSpanUsable]
      simp only [Function.update_self]
    · exact congrArg LargeHeader.largeAlign (Function.update_of_ne hb _ _)
  · exact congrArg LargeHeader.spanUsable (Function.update_of_ne hb _ _)

lemma Regrown.setLargeSize (hi : h.Inv none) (base size : ℕ) :
    Regrown base h (h.setLargeSize base size) := by
  refine ⟨hi.setLargeSize base size, rfl, rfl, rfl, fun b => ?_, fun b hb => ?_⟩
  · by_cases hb : b = base
    · subst hb
      rw [Heap.setLargeSize]
      simp only [Function.update_self]
    · exact congrArg LargeHeader.largeAlign (Function.update_of_ne hb _ _)
  · exact congrArg LargeHeader.spanUsable (Function.update_of_ne hb _ _)

lemma Regrown.trans {h'' : Heap} (r : Regrown base h h') (r' : Regrown base h' h'') :
    Regrown base h h'' :=
  ⟨r'.inv, r'.cache.trans r.cache, r'.registered.trans r.registered, r'.log.trans r.log,
    fun b => (r'.largeAlign b).trans (r.largeAlign b),
    fun b hb => (r'.spanUsable b hb).trans (r.spanUsable b hb)⟩

lemma reallocLargeInplace_spec (hi : h.Inv none) {ptr oldSize newSize : ℕ} {commits : Bool}
    (hg : h.reallocLargeInplace base ptr oldSize newSize commits = some h') :
    Regrown base h h' := by
  rw [reallocLargeInplace] at hg
  split_ifs at hg
  · obtain rfl := Option.some.inj hg
    exact .setLargeSize hi _ _
  · obtain ⟨h₁, hgrow, rfl⟩ := Option.map_eq_some_iff.mp hg
    rw [tryGrowLargeReservedCapacity] at hgrow
    split_ifs at hgrow
    obtain rfl := Option.some.inj hgrow
    have hr := Regrown.setSpanUsable hi base (min (SeferAlloc.Small.alignUp
      ((h.header base).payloadOffset + max newSize minBlock) maxRealisticPageSize)
        (h.header base).reservedCapacity)
    exact hr.trans (.setLargeSize hr.inv _ _)

end Heap
end LargeHeap
end SeferAlloc
