import SeferAlloc.SegmentIngress

/-!
# No pending class is lost in the ingress

Three obligations travel with the threads. A pending word of an armed route is
carried by a publisher that has not yet looked at the state, or by the drain that
still has the word in front of it. A notified route without its mask bit is carried
by its publisher or is in the owner's hand. A mask word without its summary bit
likewise. With nobody under way the three chain up.
-/
namespace SeferAlloc
namespace Ingress
open BitWord Interleaving
open Sidecar (Scan scanFrom scanFrom_spec sidecarWordBytes)

/-! ## The segments -/

/-- A route between two actions: pending bits belong to live blocks, and live blocks lie
between the payload start and the bump cursor. -/
structure Route.Sound (x : Route) : Prop where
  pending : ∀ g, member x.pending g = true → g ∈ x.live
  live : ∀ g ∈ x.live, x.payloadStart ≤ g * minBlock ∧ g * minBlock < x.bump
  cursor : x.payloadStart ≤ x.bump ∧ x.bump ≤ segment
  slot : x.slot < maxSegments

structure Sound (r : Shared) : Prop where
  routes : ∀ ρ, (r.routes ρ).Sound
  table : ∀ s ρ, r.table s = .small ρ → (r.routes ρ).slot = s ∧ ρ < r.fresh
  live : ∀ ρ, (r.routes ρ).live ≠ [] → r.table (r.routes ρ).slot = .small ρ

section Routes
variable {x : Route} {r : Shared} {ρ : ℕ}

/-- A word with a pending bit is between the start and the end word. -/
lemma Route.Sound.word (h : x.Sound) {w : ℕ} (hw : x.pending w ≠ 0) :
    x.startWord ≤ w ∧ w < x.endWord := by
  have hb := trailingZeros_lt hw
  have hm : member x.pending (w * 64 + trailingZeros (x.pending w)) = true := by
    rw [member_at _ _ hb]
    exact getLsbD_trailingZeros hw
  obtain ⟨h1, h2⟩ := h.live _ (h.pending _ hm)
  simp only [Route.startWord, Route.endWord, sidecarWordBytes, minBlock] at h1 h2 ⊢
  omega

lemma Route.Sound.endWord_le (h : x.Sound) : x.startWord ≤ x.endWord := by
  have := h.cursor.1
  simp only [Route.startWord, Route.endWord, sidecarWordBytes, minBlock]
  omega

lemma Route.Sound.publish (h : x.Sound) {g : ℕ} (hg : g ∈ x.live) : (x.publish g).Sound := by
  refine ⟨fun y hy => ?_, h.live, h.cursor, h.slot⟩
  rw [show member (x.publish g).pending y = _ from member_set _ _ _] at hy
  by_cases hyg : y = g
  · subst y
    exact hg
  · exact h.pending y (by simpa [hyg] using hy)

lemma member_cut (x : Route) (w g : ℕ) :
    member (x.cut w).pending g = (!decide (g / 64 = w) && member x.pending g) :=
  Sidecar.member_clearWord ⟨x.pending, fun _ => false, fun _ => 0⟩ w g

lemma Route.Sound.cut (h : x.Sound) (w : ℕ) : (x.cut w).Sound := by
  refine ⟨fun y hy => ?_, fun y hy => h.live y (List.mem_filter.mp hy).1, h.cursor, h.slot⟩
  rw [member_cut, Bool.and_eq_true] at hy
  exact List.mem_filter.mpr ⟨h.pending y hy.2, by simpa using Or.inl (by simpa using hy.1)⟩

lemma Route.Sound.issue (h : x.Sound) {g highWater : ℕ} (h1 : x.payloadStart ≤ g * minBlock)
    (h2 : g * minBlock < max x.bump highWater) (h3 : highWater ≤ segment) :
    (x.issue g highWater).Sound := by
  refine ⟨fun y hy => List.mem_cons_of_mem _ (h.pending y hy), fun y hy => ?_,
    ⟨h.cursor.1.trans (le_max_left _ _), max_le h.cursor.2 h3⟩, h.slot⟩
  obtain rfl | hy := List.mem_cons.mp hy
  · exact ⟨h1, h2⟩
  · exact ⟨(h.live y hy).1, (h.live y hy).2.trans_le (le_max_left _ _)⟩

lemma Route.Sound.free (h : x.Sound) {g : ℕ} (hg : member x.pending g = false) :
    (x.free g).Sound := by
  refine ⟨fun y hy => List.mem_filter.mpr ⟨h.pending y hy, ?_⟩,
    fun y hy => h.live y (List.mem_filter.mp hy).1, h.cursor, h.slot⟩
  have : y ≠ g := by
    rintro rfl
    simp [show member x.pending y = true from hy] at hg
  simpa using this

lemma Route.Sound.reset (h : x.Sound) (hl : x.live = []) : x.reset.Sound :=
  ⟨h.pending, fun y hy => by simp [Route.reset, hl] at hy,
    ⟨le_rfl, h.cursor.1.trans h.cursor.2⟩, h.slot⟩

lemma Route.fresh_sound {slot payloadStart : ℕ} (hs : slot < maxSegments)
    (hp : payloadStart ≤ segment) (armed : Bool) :
    (Route.fresh slot payloadStart armed).Sound :=
  ⟨fun y hy => by simp [Route.fresh, member] at hy, fun y hy => by simp [Route.fresh] at hy,
    ⟨le_rfl, hp⟩, hs⟩

/-- One route changes in place. -/
lemma Sound.setRoute (h : Sound r) {x : Route} (hx : x.Sound) (hs : x.slot = (r.routes ρ).slot)
    (hl : x.live ≠ [] → r.table (r.routes ρ).slot = .small ρ) : Sound (r.setRoute ρ x) := by
  refine ⟨fun y => ?_, fun s y hy => ?_, fun y hy => ?_⟩ <;> by_cases hyρ : y = ρ
  · subst y
    simpa [Shared.setRoute] using hx
  · simpa [Shared.setRoute, hyρ] using h.routes y
  · subst y
    simpa [Shared.setRoute, hs] using h.table s ρ hy
  · simpa [Shared.setRoute, hyρ] using h.table s y hy
  · subst y
    simp only [Shared.setRoute, Function.update_self] at hy ⊢
    rw [hs]
    exact hl hy
  · simp only [Shared.setRoute, Function.update_of_ne hyρ] at hy ⊢
    exact h.live y hy

lemma Sound.setState (h : Sound r) (s : State) :
    Sound (r.setRoute ρ ((r.routes ρ).setState s)) := by
  have hρ := h.routes ρ
  exact h.setRoute ⟨hρ.pending, hρ.live, hρ.cursor, hρ.slot⟩ rfl (h.live ρ)

/-- A slot whose route has no live block is given up. -/
lemma Sound.retire (h : Sound r) {slot : ℕ} (hs : ∀ ρ, r.table slot = .small ρ →
    (r.routes ρ).live = []) : Sound { r with table := Function.update r.table slot .empty } := by
  refine ⟨h.routes, fun s y hy => ?_, fun y hy => ?_⟩
  · by_cases hss : s = slot
    · subst s
      simp at hy
    · exact h.table s y (by simpa [hss] using hy)
  · have ht := h.live y hy
    have hne : (r.routes y).slot ≠ slot := by
      intro he
      exact hy (hs y (he ▸ ht))
    simpa [hne] using ht

/-- A new route takes an empty slot. -/
lemma Sound.register (h : Sound r) {slot payloadStart : ℕ} (ht : r.table slot = .empty)
    (hs : slot < maxSegments) (hp : payloadStart ≤ segment) (armed : Bool) :
    Sound { r.setRoute r.fresh (.fresh slot payloadStart armed) with
      fresh := r.fresh + 1
      table := Function.update r.table slot (.small r.fresh) } := by
  refine ⟨fun y => ?_, fun s y hy => ?_, fun y hy => ?_⟩
  · by_cases hyf : y = r.fresh
    · subst y
      simpa [Shared.setRoute] using Route.fresh_sound hs hp armed
    · simpa [Shared.setRoute, hyf] using h.routes y
  · by_cases hss : s = slot
    · subst s
      obtain rfl : r.fresh = y := by simpa using hy
      simp [Shared.setRoute, Route.fresh]
    · obtain ⟨h1, h2⟩ := h.table s y (by simpa [hss] using hy)
      have hyf : y ≠ r.fresh := by omega
      exact ⟨by simpa [Shared.setRoute, hyf] using h1, by dsimp only; omega⟩
  · by_cases hyf : y = r.fresh
    · subst y
      simp [Shared.setRoute, Route.fresh] at hy
    · simp only [Shared.setRoute, Function.update_of_ne hyf] at hy ⊢
      have hty := h.live y hy
      have hne : (r.routes y).slot ≠ slot := by
        intro he
        rw [he, ht] at hty
        contradiction
      rwa [Function.update_of_ne hne]

end Routes

/-! ## Segment management -/

/-- Between drains the owner leaves the ingress words, the pending words and the states
alone, but for routes it registers. -/
structure Managed (r r' : Shared) : Prop where
  mask : r'.mask = r.mask
  summary : r'.summary = r.summary
  fresh : r.fresh ≤ r'.fresh
  kept : ∀ ρ, (ρ = r.fresh ∧ (r'.routes ρ).pending = fun _ => 0) ∨
    ((r'.routes ρ).pending = (r.routes ρ).pending ∧ (r'.routes ρ).state = (r.routes ρ).state ∧
      (r'.routes ρ).born = (r.routes ρ).born)
  table : ∀ s ρ, r'.table s = .small ρ →
    (r.table s = .small ρ ∧ (r'.routes ρ).state = (r.routes ρ).state ∧
      (r'.routes ρ).born = (r.routes ρ).born) ∨
    ((r'.routes ρ).born = true → (r'.routes ρ).state = .armed)

lemma Managed.refl (r : Shared) : Managed r r :=
  ⟨rfl, rfl, le_rfl, fun _ => .inr ⟨rfl, rfl, rfl⟩,
    fun _ _ h => .inl ⟨h, rfl, rfl⟩⟩

lemma Managed.setRoute (r : Shared) {ρ : ℕ} {x : Route} (hp : x.pending = (r.routes ρ).pending)
    (hs : x.state = (r.routes ρ).state) (hb : x.born = (r.routes ρ).born) :
    Managed r (r.setRoute ρ x) := by
  have kept : ∀ y, ((r.setRoute ρ x).routes y).pending = (r.routes y).pending ∧
      ((r.setRoute ρ x).routes y).state = (r.routes y).state ∧
      ((r.setRoute ρ x).routes y).born = (r.routes y).born := by
    intro y
    by_cases hy : y = ρ
    · subst y
      simpa [Shared.setRoute] using ⟨hp, hs, hb⟩
    · simp [Shared.setRoute, hy]
  exact ⟨rfl, rfl, le_rfl, fun y => .inr (kept y), fun _ y h => .inl ⟨h, (kept y).2⟩⟩

lemma Managed.setSlot (r : Shared) {slot : ℕ} {x : Slot} (hx : ∀ ρ, x ≠ .small ρ) :
    Managed r { r with table := Function.update r.table slot x } := by
  refine ⟨rfl, rfl, le_rfl, fun _ => .inr ⟨rfl, rfl, rfl⟩, fun s ρ h => .inl ⟨?_, rfl, rfl⟩⟩
  by_cases hs : s = slot
  · subst s
    exact (hx ρ (by simpa using h)).elim
  · simpa [hs] using h

lemma manage_spec {r : Shared} (h : Sound r) (m : Management) :
    Sound (manage r m) ∧ Managed r (manage r m) := by
  have stay : Sound r ∧ Managed r r := ⟨h, .refl r⟩
  cases m with
  | issue ρ g highWater =>
      simp only [manage]
      split_ifs with hc
      · obtain ⟨ht, h1, h2, h3, -⟩ := hc
        exact ⟨h.setRoute ((h.routes ρ).issue h1 h2 h3) rfl fun _ => ht, .setRoute r rfl rfl rfl⟩
      · exact stay
  | free ρ g =>
      simp only [manage]
      split_ifs with hc
      · exact stay
      · refine ⟨h.setRoute ((h.routes ρ).free (by simpa using hc)) rfl fun hl => h.live ρ ?_,
          .setRoute r rfl rfl rfl⟩
        intro hnil
        simp [Route.free, hnil] at hl
  | reset ρ =>
      simp only [manage]
      split_ifs with hc
      · exact ⟨h.setRoute ((h.routes ρ).reset hc) rfl fun hl => (hl hc).elim,
          .setRoute r rfl rfl rfl⟩
      · exact stay
  | retire slot =>
      simp only [manage]
      cases ht : r.table slot with
      | empty => exact stay
      | large => exact ⟨h.retire fun ρ hρ => by simp [ht] at hρ, .setSlot r (by simp)⟩
      | small ρ =>
          simp only
          split_ifs with hc
          · refine ⟨h.retire fun y hy => ?_, .setSlot r (by simp)⟩
            obtain rfl : ρ = y := by simpa [ht] using hy
            exact hc
          · exact stay
  | register slot payloadStart armed =>
      simp only [manage]
      split_ifs with hc
      · obtain ⟨ht, hs, hp⟩ := hc
        refine ⟨h.register ht hs hp armed, rfl, rfl, by dsimp only; omega, fun y => ?_,
          fun s y hy => ?_⟩
        · by_cases hyf : y = r.fresh
          · subst y
            simp [Shared.setRoute, Route.fresh]
          · simp [Shared.setRoute, hyf]
        · by_cases hyf : y = r.fresh
          · subst y
            exact .inr (by simp +contextual [Shared.setRoute, Route.fresh, State.new])
          · have hss : s ≠ slot := by
              rintro rfl
              exact hyf (by simpa using hy.symm)
            exact .inl ⟨by simpa [hss] using hy, by simp [Shared.setRoute, hyf]⟩
      · exact stay
  | registerLarge slot =>
      simp only [manage]
      split_ifs with hc
      · refine ⟨⟨h.routes, fun s y hy => ?_, fun y hy => ?_⟩, .setSlot r (by simp)⟩
        · by_cases hss : s = slot
          · subst s
            simp at hy
          · exact h.table s y (by simpa [hss] using hy)
        · have ht := h.live y hy
          have hne : (r.routes y).slot ≠ slot := by
            intro he
            rw [he, hc] at ht
            contradiction
          simpa [hne] using ht
      · exact stay

/-! ## Threads -/

/-- The location of a thread that only publishes. -/
def Loc.IsProducer : Loc → Prop
  | .outside | .loadState _ | .casState _ | .maskOr _ | .summaryOr _ => True
  | _ => False

/-- The location fits the shared state: slots are in range, and the scan of a drain ends at
the bump cursor. -/
def Loc.Fits (r : Shared) : Loc → Prop
  | .loadState ρ | .casState ρ => ρ < r.fresh
  | .maskOr slot | .summaryOr slot => slot < maxSegments
  | .taking h => h.word < ingressWords
  | .draining h ρ s => (∀ x ∈ h, x.word < ingressWords) ∧
      s.nextWord ≤ s.endWord ∧ s.endWord = (r.routes ρ).endWord
  | .cutting h ρ s w => (∀ x ∈ h, x.word < ingressWords) ∧
      s.nextWord ≤ s.endWord ∧ s.endWord = (r.routes ρ).endWord ∧ w + 1 = s.nextWord
  | .fatal => False
  | _ => True

lemma Loc.resume_fits {r : Shared} {h : Option Hand} (hh : ∀ x ∈ h, x.word < ingressWords) :
    (Loc.resume h).Fits r := by
  cases h with
  | none => trivial
  | some h => exact hh h rfl

/-- A drain is opened with a scan of the words up to the bump cursor. -/
lemma startDrain_eq {x : Route} (h : x.Sound) (hand : Option Hand) (ρ word : ℕ) :
    startDrain hand ρ x word = .draining hand ρ ⟨min word x.endWord, x.endWord⟩ := by
  have hw : x.endWord ≤ Sidecar.words := by
    have hc := h.cursor.2
    have hwords : Sidecar.words = 4096 := by decide
    simp only [Route.endWord, sidecarWordBytes, minBlock, segment, hwords] at hc ⊢
    omega
  have hs : scanFrom x.bump (min word x.endWord) = some ⟨min word x.endWord, x.endWord⟩ := by
    rw [scanFrom, if_neg (not_lt.mpr h.cursor.2)]
    change (if x.endWord < min word x.endWord then none
      else if Sidecar.words < min word x.endWord then none else _) = _
    rw [if_neg (by omega), if_neg (by omega)]
    rfl
  simp only [startDrain, hs]

section Acting
variable {r : Shared} {l : Loc}

/-- What one action does to the segments, and where it leads. -/
lemma act_sound (h : Sound r) (hl : l.Fits r) (e : Command) :
    Sound (act e r l).1 ∧ (act e r l).2.Fits (act e r l).1 := by
  cases l with
  | outside =>
      cases e with
      | publish ρ g =>
          simp only [act]
          split_ifs with hg
          · have ht := h.live ρ (List.ne_nil_of_mem hg)
            exact ⟨h.setRoute ((h.routes ρ).publish hg) rfl fun _ => ht, (h.table _ _ ht).2⟩
          · exact ⟨h, trivial⟩
      | _ => exact ⟨h, trivial⟩
  | loadState ρ =>
      simp only [act]
      split_ifs
      · exact ⟨h, hl⟩
      · exact ⟨h, trivial⟩
  | casState ρ =>
      simp only [act]
      split_ifs
      · exact ⟨h.setState _, (h.routes ρ).slot⟩
      · exact ⟨h, trivial⟩
  | maskOr slot => exact ⟨⟨h.routes, h.table, h.live⟩, hl⟩
  | summaryOr slot => exact ⟨⟨h.routes, h.table, h.live⟩, trivial⟩
  | idle =>
      cases e with
      | processIngress => exact ⟨h, trivial⟩
      | drain ρ word =>
          simp only [act, startDrain_eq (h.routes ρ)]
          exact ⟨h, by simp [Loc.Fits]⟩
      | manage m => exact ⟨(manage_spec h m).1, trivial⟩
      | publish | next => exact ⟨h, trivial⟩
  | summaryLoad =>
      simp only [act]
      split_ifs <;> exact ⟨h, trivial⟩
  | summarySwap => exact ⟨⟨h.routes, h.table, h.live⟩, by simp [act, Loc.Fits, ingressWords]⟩
  | taking hand =>
      cases e with
      | next =>
          simp only [act]
          split_ifs with hb hw
          · exact ⟨h, trivial⟩
          · exact ⟨⟨h.routes, h.table, h.live⟩, trailingZeros_lt hw⟩
          · split
            · next ρ ht =>
                rw [startDrain_eq (h.routes ρ)]
                refine ⟨h.setState _, ⟨?_, min_le_right _ _, ?_⟩⟩
                · simpa [Loc.Fits] using hl
                · simp [Shared.setRoute, Route.setState, Route.endWord]
            · exact ⟨h, hl⟩
      | manage m => exact ⟨(manage_spec h m).1, hl⟩
      | publish | drain | processIngress => exact ⟨h, hl⟩
  | draining hand ρ s =>
      obtain ⟨hh, h1, h2⟩ := hl
      simp only [act, Scan.advance]
      by_cases hend : s.nextWord = s.endWord
      · rw [if_pos hend]
        exact ⟨h, Loc.resume_fits hh⟩
      · rw [if_neg hend]
        simp only
        split_ifs
        · exact ⟨h, hh, by dsimp only; omega, h2⟩
        · exact ⟨h, hh, by dsimp only; omega, h2, rfl⟩
  | cutting hand ρ s w =>
      obtain ⟨hh, h1, h2, -⟩ := hl
      refine ⟨h.setRoute ((h.routes ρ).cut w) rfl fun hne => h.live ρ ?_, hh, h1, ?_⟩
      · rintro hnil
        simp [Route.cut, hnil] at hne
      · simpa [act, Shared.setRoute, Route.cut, Route.endWord] using h2
  | fatal => exact hl.elim

/-! ## Obligations -/

/-- The pending word is empty or its route is notified. -/
def Drained (ρ w : ℕ) (r : Shared) : Prop :=
  (r.routes ρ).pending w = 0 ∨ (r.routes ρ).state = .notified

/-- A publisher before its look at the state, or a drain that has the word before it. -/
def Draining (ρ w : ℕ) : Loc → Prop
  | .loadState ρ' | .casState ρ' => ρ' = ρ
  | .draining _ ρ' s => ρ' = ρ ∧ s.nextWord ≤ w
  | .cutting _ ρ' _ w' => ρ' = ρ ∧ w' ≤ w
  | _ => False

/-- The mask bit of the slot is set when its route has been notified. -/
def Announced (slot : ℕ) (r : Shared) : Prop :=
  ∀ ρ, r.table slot = .small ρ → (r.routes ρ).born = true → (r.routes ρ).state = .notified →
    member r.mask slot = true

/-- What the owner has in hand. -/
def hand : Loc → Option Hand
  | .taking h => some h
  | .draining h _ _ | .cutting h _ _ _ => h
  | _ => none

def Announcing (slot : ℕ) (l : Loc) : Prop :=
  l = .maskOr slot ∨ ∃ h ∈ hand l, h.word = slot / 64 ∧ h.bits.getLsbD (slot % 64) = true

/-- A mask word that is not empty has its summary bit. -/
def Summed (w : ℕ) (r : Shared) : Prop := r.mask w ≠ 0 → r.summary.getLsbD w = true

def Summing (w : ℕ) (l : Loc) : Prop :=
  (∃ slot, l = .summaryOr slot ∧ slot / 64 = w) ∨ ∃ h ∈ hand l, h.words.getLsbD w = true

lemma hand_resume (h : Option Hand) : hand (.resume h) = h := by cases h <;> rfl

lemma State.eq_notified {s : State} (h : s ≠ .armed) : s = .notified := by
  cases s with
  | armed => exact (h rfl).elim
  | notified => rfl

lemma Managed.drained {r' : Shared} (hm : Managed r r') {ρ w : ℕ} (h : Drained ρ w r) :
    Drained ρ w r' := by
  obtain ⟨-, hp⟩ | ⟨hp, hs, -⟩ := hm.kept ρ
  · exact .inl (congrFun hp w)
  · rwa [Drained, hp, hs]

lemma Managed.announced {r' : Shared} (hm : Managed r r') {slot : ℕ} (h : Announced slot r) :
    Announced slot r' := by
  intro ρ ht hb hs
  rw [hm.mask]
  obtain ⟨ht, hs', hb'⟩ | ha := hm.table slot ρ ht
  · exact h ρ ht (hb' ▸ hb) (hs' ▸ hs)
  · rw [ha hb] at hs
    contradiction

lemma Managed.summed {r' : Shared} (hm : Managed r r') {w : ℕ} (h : Summed w r) :
    Summed w r' := by
  rwa [Summed, hm.mask, hm.summary]

lemma act_drained (h : Sound r) (hl : l.Fits r) (e : Command) {ρ w : ℕ}
    (hd : Drained ρ w r ∨ Draining ρ w l) :
    Drained ρ w (act e r l).1 ∨ Draining ρ w (act e r l).2 := by
  cases l with
  | outside =>
      have hr : Drained ρ w r := hd.resolve_right id
      cases e with
      | publish ρ' g =>
          simp only [act]
          split_ifs
          · by_cases hρ : ρ' = ρ
            · exact .inr hρ
            · exact .inl (by simpa [Drained, Shared.setRoute, Ne.symm hρ] using hr)
          · exact .inl hr
      | manage | drain | processIngress | next => exact .inl hr
  | loadState ρ' =>
      simp only [act]
      split_ifs with ha
      · exact hd
      · refine .inl (hd.elim id fun hρ => .inr (State.eq_notified ?_))
        rwa [← show ρ' = ρ from hρ]
  | casState ρ' =>
      simp only [act]
      split_ifs with ha
      · refine .inl ?_
        by_cases hρ : ρ = ρ'
        · subst ρ'
          exact .inr (by simp [Shared.setRoute, Route.setState])
        · have hr : Drained ρ w r := hd.resolve_right (Ne.symm hρ)
          simpa [Drained, Shared.setRoute, hρ] using hr
      · refine .inl (hd.elim id fun hρ => .inr (State.eq_notified ?_))
        rwa [← show ρ' = ρ from hρ]
  | maskOr | summaryOr | summarySwap => exact .inl (hd.resolve_right id)
  | idle =>
      have hr : Drained ρ w r := hd.resolve_right id
      cases e with
      | manage m => exact .inl ((manage_spec h m).2.drained hr)
      | publish | drain | processIngress | next => exact .inl hr
  | summaryLoad => exact .inl (hd.resolve_right id)
  | taking hd' =>
      have hr : Drained ρ w r := hd.resolve_right id
      cases e with
      | manage m => exact .inl ((manage_spec h m).2.drained hr)
      | publish | drain | processIngress => exact .inl hr
      | next =>
          simp only [act]
          split_ifs
          · exact .inl hr
          · exact .inl hr
          · split
            · next ρ' _ =>
                rw [startDrain_eq (h.routes ρ')]
                by_cases hρ : ρ = ρ'
                · subst ρ'
                  -- The route is armed: the drain that starts here has every pending word ahead.
                  by_cases hw : (r.routes ρ).pending w = 0
                  · exact .inl (.inl (by simpa [Shared.setRoute, Route.setState] using hw))
                  · have := ((h.routes ρ).word hw).1
                    exact .inr ⟨rfl, by dsimp only; omega⟩
                · exact .inl (by simpa [Drained, Shared.setRoute, hρ] using hr)
            · exact .inl hr
  | draining hd' ρ' s =>
      obtain ⟨-, h1, h2⟩ := hl
      simp only [act, Scan.advance]
      by_cases hend : s.nextWord = s.endWord
      · rw [if_pos hend]
        refine .inl (hd.elim id ?_)
        rintro ⟨rfl, hw⟩
        refine .inl (by_contra fun hne => ?_)
        have := ((h.routes ρ').word hne).2
        omega
      · rw [if_neg hend]
        simp only
        split_ifs with h0
        · refine hd.elim .inl ?_
          rintro ⟨rfl, hw⟩
          by_cases hwe : w = s.nextWord
          · exact .inl (.inl (hwe ▸ h0))
          · exact .inr ⟨rfl, by dsimp only; omega⟩
        · exact hd
  | cutting hd' ρ' s w' =>
      obtain ⟨-, -, -, h3⟩ := hl
      simp only [act]
      by_cases hρ : ρ = ρ'
      · subst ρ'
        by_cases hww : w = w'
        · subst w'
          exact .inl (.inl (by simp [Shared.setRoute, Route.cut]))
        · refine hd.imp (fun hr => ?_) fun hw => ⟨rfl, ?_⟩
          · simpa [Drained, Shared.setRoute, Route.cut, hww] using hr
          · have := hw.2
            omega
      · refine .inl ?_
        have hr : Drained ρ w r := hd.resolve_right fun hw => hρ hw.1.symm
        simpa [Drained, Shared.setRoute, hρ] using hr
  | fatal => exact hl.elim

lemma Announced.setState {slot ρ : ℕ} {x : State} (h : Announced slot r)
    (hx : r.table slot = .small ρ → x = .armed) :
    Announced slot (r.setRoute ρ ((r.routes ρ).setState x)) := by
  intro ρ' ht hb hs
  by_cases hρ : ρ' = ρ
  · subst ρ'
    rw [hx ht] at hs
    simp [Shared.setRoute, Route.setState] at hs
  · simp only [Shared.setRoute, Function.update_of_ne hρ] at hb hs
    exact h ρ' ht hb hs

lemma Announced.setRoute {slot ρ : ℕ} {x : Route} (h : Announced slot r)
    (hb : x.born = (r.routes ρ).born) (hs : x.state = (r.routes ρ).state) :
    Announced slot (r.setRoute ρ x) := by
  intro ρ' ht hb' hs'
  by_cases hρ : ρ' = ρ
  · subst ρ'
    simp only [Shared.setRoute, Function.update_self, hb, hs] at hb' hs'
    exact h ρ ht hb' hs'
  · simp only [Shared.setRoute, Function.update_of_ne hρ] at hb' hs'
    exact h ρ' ht hb' hs'

lemma Announcing.of_hand {slot : ℕ} {l' : Loc} (h : Announcing slot l) (hl : ∀ s, l ≠ .maskOr s)
    (hh : hand l' = hand l) : Announcing slot l' :=
  .inr (by rw [hh]; exact h.resolve_left (hl slot))

lemma act_announced (h : Sound r) (hl : l.Fits r) (e : Command) {slot : ℕ}
    (ha : Announced slot r ∨ Announcing slot l) :
    Announced slot (act e r l).1 ∨ Announcing slot (act e r l).2 := by
  -- Only the locations that hold something can carry the obligation.
  have free : (∀ s, l ≠ .maskOr s) → hand l = none → Announced slot r := fun h1 h2 =>
    ha.resolve_right fun hc => by simpa [h2] using hc.resolve_left (h1 slot)
  cases l with
  | outside =>
      have hr := free (by simp) rfl
      cases e with
      | publish ρ g =>
          simp only [act]
          split_ifs
          · exact .inl (hr.setRoute rfl rfl)
          · exact .inl hr
      | manage | drain | processIngress | next => exact .inl hr
  | loadState ρ => exact .inl (free (by simp) rfl)
  | casState ρ =>
      have hr := free (by simp) rfl
      simp only [act]
      split_ifs
      · by_cases hs : (r.routes ρ).slot = slot
        · exact .inr (.inl (by rw [hs]))
        · exact .inl (hr.setState fun ht => (hs (h.table slot ρ ht).1).elim)
      · exact .inl hr
  | maskOr s =>
      refine .inl fun ρ ht hb hn => ?_
      rw [show member (act e r (.maskOr s)).1.mask slot = _ from member_set _ _ _]
      obtain hr | hc := ha
      · simp [hr ρ ht hb hn]
      · obtain hc | hc := hc
        · obtain rfl : s = slot := by simpa using hc
          simp
        · simp [hand] at hc
  | summaryOr | summarySwap => exact .inl (free (by simp) rfl)
  | idle =>
      have hr := free (by simp) rfl
      cases e with
      | manage m => exact .inl ((manage_spec h m).2.announced hr)
      | publish | drain | processIngress | next => exact .inl hr
  | summaryLoad => exact .inl (free (by simp) rfl)
  | taking hd =>
      cases e with
      | manage m =>
          exact ha.imp (manage_spec h m).2.announced fun hc => hc.of_hand (by simp) rfl
      | publish | drain | processIngress => exact ha
      | next =>
          simp only [act]
          split_ifs with hb hw
          · refine .inl (ha.resolve_right ?_)
            simp [Announcing, hand, hb]
          · have hr : Announced slot r := ha.resolve_right (by simp [Announcing, hand, hb])
            by_cases hm : member r.mask slot = true ∧ slot / 64 = trailingZeros hd.words
            · refine .inr (.inr ⟨_, rfl, hm.2.symm, ?_⟩)
              simpa only [member, hm.2] using hm.1
            · refine .inl fun ρ ht hbr hn => ?_
              have hmem := hr ρ ht hbr hn
              have hne : slot / 64 ≠ trailingZeros hd.words := fun he => hm ⟨hmem, he⟩
              simpa only [member, Function.update_of_ne hne] using hmem
          · set j := hd.word * 64 + trailingZeros hd.bits with hj
            have hj64 := trailingZeros_lt hb
            by_cases hs : slot = j
            · -- The slot is looked up now: its route, if any, is armed.
              subst slot
              left
              split
              · next ρ ht =>
                  intro ρ' ht' _ hn
                  obtain rfl : ρ = ρ' := Slot.small.inj (ht.symm.trans ht')
                  simp [Shared.setRoute, Route.setState] at hn
              · next hno => exact fun ρ ht => (hno ρ ht).elim
            · have hc : Announcing slot (.taking hd) → Announcing slot
                  (.taking { hd with bits := hd.bits &&& (hd.bits - 1) }) := by
                rintro (hc | ⟨x, hx, hw, hbit⟩)
                · contradiction
                · obtain rfl : hd = x := Option.some.inj hx
                  refine .inr ⟨_, rfl, hw, ?_⟩
                  have hne : slot % 64 ≠ trailingZeros hd.bits := by omega
                  rw [clear_lowest hb, getLsbD_clear_bit]
                  simp [hbit, hne]
              split
              · next ρ ht =>
                  rw [startDrain_eq (h.routes ρ)]
                  exact ha.imp (fun hr => hr.setState fun _ => rfl)
                    fun ha => (hc ha).of_hand (by simp) rfl
              · exact ha.imp id hc
  | draining hd ρ s =>
      simp only [act, Scan.advance]
      by_cases hend : s.nextWord = s.endWord
      · rw [if_pos hend]
        exact ha.imp id fun hc => hc.of_hand (by simp) (hand_resume hd)
      · rw [if_neg hend]
        simp only
        split_ifs <;> exact ha.imp id fun hc => hc.of_hand (by simp) rfl
  | cutting hd ρ s w => exact ha.imp (fun hr => hr.setRoute rfl rfl) fun hc => hc.of_hand (by simp) rfl
  | fatal => exact hl.elim

lemma act_summed (h : Sound r) (hl : l.Fits r) (e : Command) {w : ℕ}
    (ha : Summed w r ∨ Summing w l) : Summed w (act e r l).1 ∨ Summing w (act e r l).2 := by
  have free : (∀ s, l ≠ .summaryOr s) → hand l = none → Summed w r := fun h1 h2 =>
    ha.resolve_right (by
      rintro (⟨s, hs, -⟩ | ⟨x, hx, -⟩)
      · exact h1 s hs
      · simp [h2] at hx)
  have carry : ∀ {l' : Loc}, (∀ s, l ≠ .summaryOr s) → hand l' = hand l →
      Summing w l → Summing w l' := fun h1 h2 hc =>
    .inr (by rw [h2]; exact hc.resolve_left fun ⟨s, hs, _⟩ => h1 s hs)
  cases l with
  | outside =>
      have hr := free (by simp) rfl
      cases e with
      | publish ρ g =>
          simp only [act]
          split_ifs <;> exact .inl hr
      | manage | drain | processIngress | next => exact .inl hr
  | loadState | summaryLoad => exact .inl (free (by simp) rfl)
  | casState ρ =>
      simp only [act]
      split_ifs <;> exact .inl (free (by simp) rfl)
  | maskOr s =>
      have hr := free (by simp) rfl
      by_cases hs : s / 64 = w
      · exact .inr (.inl ⟨s, rfl, hs⟩)
      · refine .inl fun hne => hr ?_
        simpa only [act, Function.update_of_ne (Ne.symm hs)] using hne
  | summaryOr s =>
      have hs64 : s / 64 < 64 := by
        simp only [Loc.Fits, maxSegments, ingressWords] at hl
        omega
      refine .inl fun hne => ?_
      simp only [act, getLsbD_or_bit hs64, Bool.or_eq_true, decide_eq_true_eq]
      obtain hr | hc := ha
      · exact .inr (hr hne)
      · obtain ⟨s', hs', hw⟩ | ⟨x, hx, -⟩ := hc
        · obtain rfl := Loc.summaryOr.inj hs'
          exact .inl hw.symm
        · contradiction
  | idle =>
      have hr := free (by simp) rfl
      cases e with
      | manage m => exact .inl ((manage_spec h m).2.summed hr)
      | publish | drain | processIngress | next => exact .inl hr
  | summarySwap =>
      by_cases hw : r.summary.getLsbD w = true
      · exact .inr (.inr ⟨_, rfl, hw⟩)
      · exact .inl fun hne => (hw (free (by simp) rfl hne)).elim
  | taking hd =>
      cases e with
      | manage m => exact ha.imp (manage_spec h m).2.summed (carry (by simp) rfl)
      | publish | drain | processIngress => exact ha
      | next =>
          simp only [act]
          split_ifs with hb hw
          · refine .inl (ha.resolve_right ?_)
            simp [Summing, hand, hw]
          · by_cases hwe : w = trailingZeros hd.words
            · subst w
              exact .inl fun hne => (hne (Function.update_self _ _ _)).elim
            · have keep : Summed w r → Summed w
                  { r with mask := Function.update r.mask (trailingZeros hd.words) 0 } := by
                intro hr hne
                exact hr (by simpa only [Function.update_of_ne hwe] using hne)
              refine ha.imp keep ?_
              · rintro (⟨s, hs, -⟩ | ⟨x, hx, hbit⟩)
                · contradiction
                · obtain rfl : hd = x := Option.some.inj hx
                  refine .inr ⟨_, rfl, ?_⟩
                  rw [clear_lowest hw, getLsbD_clear_bit]
                  simp [hbit, hwe]
          · have hc : ∀ {l' : Loc}, hand l' = some { hd with bits := hd.bits &&& (hd.bits - 1) } →
                Summing w (.taking hd) → Summing w l' := by
              rintro l' hl' (⟨s, hs, -⟩ | ⟨x, hx, hbit⟩)
              · contradiction
              · obtain rfl : hd = x := Option.some.inj hx
                exact .inr ⟨_, hl', hbit⟩
            split
            · next ρ _ =>
                rw [startDrain_eq (h.routes ρ)]
                exact ha.imp id (hc rfl)
            · exact ha.imp id (hc rfl)
  | draining hd ρ s =>
      simp only [act, Scan.advance]
      by_cases hend : s.nextWord = s.endWord
      · rw [if_pos hend]
        exact ha.imp id (carry (by simp) (hand_resume hd))
      · rw [if_neg hend]
        simp only
        split_ifs <;> exact ha.imp id (carry (by simp) rfl)
  | cutting hd ρ s v => exact ha.imp id (carry (by simp) rfl)
  | fatal => exact hl.elim

/-! ## Frames -/

/-- A publisher stays one, and moves neither the bump cursors nor the incarnations. -/
lemma act_producer (hp : l.IsProducer) (e : Command) :
    (act e r l).2.IsProducer ∧ (act e r l).1.fresh = r.fresh ∧
      ∀ ρ, ((act e r l).1.routes ρ).endWord = (r.routes ρ).endWord := by
  have kept : ∀ ρ (x : Route), x.bump = (r.routes ρ).bump → ∀ y,
      ((r.setRoute ρ x).routes y).endWord = (r.routes y).endWord := by
    intro ρ x hx y
    by_cases hy : y = ρ
    · subst y
      simp [Shared.setRoute, Route.endWord, hx]
    · simp [Shared.setRoute, hy]
  cases l with
  | outside =>
      cases e with
      | publish ρ g =>
          simp only [act]
          split_ifs
          · exact ⟨trivial, rfl, kept ρ _ rfl⟩
          · exact ⟨trivial, rfl, fun _ => rfl⟩
      | manage | drain | processIngress | next => exact ⟨trivial, rfl, fun _ => rfl⟩
  | loadState ρ =>
      simp only [act]
      split_ifs <;> exact ⟨trivial, trivial, fun _ => trivial⟩
  | casState ρ =>
      simp only [act]
      split_ifs
      · exact ⟨trivial, rfl, kept ρ _ rfl⟩
      · exact ⟨trivial, rfl, fun _ => rfl⟩
  | maskOr | summaryOr => exact ⟨trivial, rfl, fun _ => rfl⟩
  | idle | summaryLoad | summarySwap | taking | draining | cutting | fatal => exact hp.elim

/-- The owner stays the owner, and incarnations only grow. -/
lemma act_owner (h : Sound r) (hp : ¬l.IsProducer) (e : Command) :
    ¬(act e r l).2.IsProducer ∧ r.fresh ≤ (act e r l).1.fresh := by
  cases l with
  | outside | loadState | casState | maskOr | summaryOr => exact (hp trivial).elim
  | idle =>
      cases e with
      | manage m => exact ⟨hp, (manage_spec h m).2.fresh⟩
      | drain ρ word =>
          simp only [act, startDrain_eq (h.routes ρ)]
          exact ⟨id, le_rfl⟩
      | publish | processIngress | next => exact ⟨id, le_rfl⟩
  | summaryLoad =>
      simp only [act]
      split_ifs <;> exact ⟨id, le_rfl⟩
  | summarySwap => exact ⟨id, le_rfl⟩
  | taking hd =>
      cases e with
      | manage m => exact ⟨hp, (manage_spec h m).2.fresh⟩
      | publish | drain | processIngress => exact ⟨id, le_rfl⟩
      | next =>
          simp only [act]
          split_ifs
          · exact ⟨id, le_rfl⟩
          · exact ⟨id, le_rfl⟩
          · split
            · next ρ _ =>
                rw [startDrain_eq (h.routes ρ)]
                exact ⟨id, le_rfl⟩
            · exact ⟨id, le_rfl⟩
  | draining hd ρ s =>
      simp only [act, Scan.advance]
      by_cases hend : s.nextWord = s.endWord
      · rw [if_pos hend]
        cases hd <;> exact ⟨id, le_rfl⟩
      · rw [if_neg hend]
        simp only
        split_ifs <;> exact ⟨id, le_rfl⟩
  | cutting | fatal => exact ⟨id, le_rfl⟩

/-- A route is armed again only by the owner that found it in a notified slot and now starts
a drain with every pending word of the route ahead. -/
lemma act_rearm (h : Sound r) (hl : l.Fits r) (e : Command) {ρ : ℕ} (hρ : ρ < r.fresh)
    (hn : (r.routes ρ).state = .notified) (ha : ((act e r l).1.routes ρ).state = .armed) :
    ∃ hd h' s, l = .taking hd ∧ r.table (hd.word * 64 + trailingZeros hd.bits) = .small ρ ∧
      (act e r l).2 = .draining h' ρ s ∧
      ∀ w, ((act e r l).1.routes ρ).pending w ≠ 0 → s.nextWord ≤ w ∧ w < s.endWord := by
  have stays : ∀ {r' : Shared}, (r'.routes ρ).state = (r.routes ρ).state →
      (r'.routes ρ).state ≠ .armed := fun hr => by rw [hr, hn]; simp
  have managed : ∀ m, ((manage r m).routes ρ).state ≠ .armed := by
    intro m
    obtain ⟨rfl, -⟩ | ⟨-, hs, -⟩ := (manage_spec h m).2.kept ρ
    · omega
    · exact stays hs
  have other : ∀ ρ' (x : Route), x.state = (r.routes ρ').state ∨ x.state = .notified →
      ((r.setRoute ρ' x).routes ρ).state ≠ .armed := by
    intro ρ' x hx
    by_cases hy : ρ = ρ'
    · subst ρ'
      obtain hx | hx := hx <;> simp [Shared.setRoute, hx, hn]
    · exact stays (by simp [Shared.setRoute, hy])
  cases l with
  | outside =>
      cases e with
      | publish ρ' g =>
          simp only [act] at ha
          split_ifs at ha
          · exact (other ρ' ((r.routes ρ').publish g) (.inl rfl) ha).elim
          · exact (stays rfl ha).elim
      | manage | drain | processIngress | next => exact (stays rfl ha).elim
  | loadState | maskOr | summaryOr | summaryLoad | summarySwap | fatal =>
      exact (stays rfl ha).elim
  | casState ρ' =>
      simp only [act] at ha
      split_ifs at ha
      · exact (other ρ' ((r.routes ρ').setState .notified) (.inr rfl) ha).elim
      · exact (stays rfl ha).elim
  | idle =>
      cases e with
      | manage m => exact (managed m ha).elim
      | publish | drain | processIngress | next => exact (stays rfl ha).elim
  | taking hd =>
      cases e with
      | manage m => exact (managed m ha).elim
      | publish | drain | processIngress => exact (stays rfl ha).elim
      | next =>
          simp only [act] at ha ⊢
          split_ifs at ha ⊢
          · exact (stays rfl ha).elim
          · exact (stays rfl ha).elim
          · cases ht : r.table (hd.word * 64 + trailingZeros hd.bits) with
            | empty | large =>
                simp only [ht] at ha
                exact (stays rfl ha).elim
            | small ρ' =>
                simp only [ht] at ha ⊢
                have hρ' : ρ = ρ' := by
                  by_contra hne
                  exact stays (by simp [Shared.setRoute, hne]) ha
                subst ρ'
                rw [startDrain_eq (h.routes ρ)]
                refine ⟨hd, _, _, rfl, ht, rfl, fun w hw => ?_⟩
                have := (h.routes ρ).word (w := w)
                  (by simpa [Shared.setRoute, Route.setState] using hw)
                dsimp only
                omega
  | draining hd ρ' s =>
      simp only [act] at ha
      split at ha <;> exact (stays rfl ha).elim
  | cutting hd ρ' s w =>
      exact (other ρ' ((r.routes ρ').cut w) (.inl rfl) ha).elim

/-- A pending bit leaves the bitmap only in a cut of its own route. -/
lemma act_unpublish (h : Sound r) (e : Command) {ρ g : ℕ} (hρ : ρ < r.fresh)
    (hg : member (r.routes ρ).pending g = true)
    (hg' : member ((act e r l).1.routes ρ).pending g = false) :
    ∃ hd s, l = .cutting hd ρ s (g / 64) := by
  have stays : ∀ {r' : Shared}, (r'.routes ρ).pending = (r.routes ρ).pending →
      member (r'.routes ρ).pending g ≠ false := fun hr => by rw [hr, hg]; simp
  have managed : ∀ m, member ((manage r m).routes ρ).pending g ≠ false := by
    intro m
    obtain ⟨rfl, -⟩ | ⟨hp, -⟩ := (manage_spec h m).2.kept ρ
    · omega
    · exact stays hp
  have other : ∀ ρ' (x : Route), (ρ = ρ' → x.pending = (r.routes ρ').pending) →
      member ((r.setRoute ρ' x).routes ρ).pending g ≠ false := by
    intro ρ' x hx
    by_cases hy : ρ = ρ'
    · subst ρ'
      exact stays (by simpa [Shared.setRoute] using hx rfl)
    · exact stays (by simp [Shared.setRoute, hy])
  cases l with
  | outside =>
      cases e with
      | publish ρ' g' =>
          simp only [act] at hg'
          split_ifs at hg'
          · by_cases hy : ρ = ρ'
            · subst ρ'
              have hset : member ((r.routes ρ).publish g').pending g = _ := member_set _ _ _
              simp [Shared.setRoute, hset, hg] at hg'
            · exact (other ρ' ((r.routes ρ').publish g') (fun he => (hy he).elim) hg').elim
          · exact (stays rfl hg').elim
      | manage | drain | processIngress | next => exact (stays rfl hg').elim
  | loadState | maskOr | summaryOr | summaryLoad | summarySwap | fatal =>
      exact (stays rfl hg').elim
  | casState ρ' =>
      simp only [act] at hg'
      split_ifs at hg'
      · exact (other ρ' ((r.routes ρ').setState .notified) (fun _ => rfl) hg').elim
      · exact (stays rfl hg').elim
  | idle =>
      cases e with
      | manage m => exact (managed m hg').elim
      | publish | drain | processIngress | next => exact (stays rfl hg').elim
  | taking hd =>
      cases e with
      | manage m => exact (managed m hg').elim
      | publish | drain | processIngress => exact (stays rfl hg').elim
      | next =>
          simp only [act] at hg'
          split_ifs at hg'
          · exact (stays rfl hg').elim
          · exact (stays rfl hg').elim
          · split at hg'
            · next ρ' _ =>
                exact (other ρ' ((r.routes ρ').setState .armed) (fun _ => rfl) hg').elim
            · exact (stays rfl hg').elim
  | draining hd ρ' s =>
      simp only [act] at hg'
      split at hg' <;> exact (stays rfl hg').elim
  | cutting hd ρ' s w =>
      by_cases hy : ρ = ρ'
      · subst ρ'
        have hcut : member ((act e r (.cutting hd ρ s w)).1.routes ρ).pending g =
            (!decide (g / 64 = w) && member (r.routes ρ).pending g) := by
          simpa [act, Shared.setRoute] using member_cut (r.routes ρ) w g
        have hw : g / 64 = w := by simpa [hcut, hg] using hg'
        exact ⟨hd, s, by rw [hw]⟩
      · exact (other ρ' ((r.routes ρ').cut w) (fun he => (hy he).elim) hg').elim

lemma Loc.Fits.of_producer {m : Loc} (hm : m.Fits r) (hp : l.IsProducer) (e : Command) :
    m.Fits (act e r l).1 := by
  obtain ⟨-, hf, he⟩ := act_producer (r := r) hp e
  cases m with
  | draining | cutting => simpa only [Loc.Fits, he] using hm
  | loadState | casState => simpa only [Loc.Fits, hf] using hm
  | outside | maskOr | summaryOr | idle | summaryLoad | summarySwap | taking | fatal => exact hm

lemma Loc.Fits.mono {r' : Shared} (hl : l.Fits r) (hp : l.IsProducer) (hf : r.fresh ≤ r'.fresh) :
    l.Fits r' := by
  cases l with
  | loadState | casState => exact lt_of_lt_of_le hl hf
  | outside | maskOr | summaryOr => exact hl
  | idle | summaryLoad | summarySwap | taking | draining | cutting | fatal => exact hp.elim

end Acting

/-! ## Runs -/

section Runs
variable {ι : Type*} [DecidableEq ι]

/-- The whole system between two actions. -/
structure Consistent (w : World (Option ι) Shared Loc) : Prop where
  sound : Sound w.shared
  producers : ∀ i, (w.loc (some i)).IsProducer
  owner : ¬(w.loc none).IsProducer
  fits : ∀ i, (w.loc i).Fits w.shared
  drained : ∀ ρ v, w.Covered (Drained ρ v) fun _ => Draining ρ v
  announced : ∀ slot, w.Covered (Announced slot) fun _ => Announcing slot
  summed : ∀ v, w.Covered (Summed v) fun _ => Summing v

omit [DecidableEq ι] in
lemma consistent_init : Consistent (World.init ι) where
  sound := by
    refine ⟨fun ρ => Route.fresh_sound (by decide) (by decide) true, fun s ρ h => ?_,
      fun ρ h => ?_⟩
    · simp [World.init, Shared.new] at h
    · simp [World.init, Shared.new, Route.fresh] at h
  producers _ := trivial
  owner := id
  fits i := by cases i <;> trivial
  drained _ _ := .inl (.inl rfl)
  announced _ := .inl fun ρ h => by simp [World.init, Shared.new] at h
  summed _ := .inl fun h => (h rfl).elim

lemma Consistent.step {w : World (Option ι) Shared Loc} (h : Consistent w) (i : Option ι)
    (e : Command) : Consistent (w.step act i e) := by
  obtain ⟨hs, hf⟩ := act_sound h.sound (h.fits i) e
  refine ⟨hs, fun j => ?_, ?_, World.step_forall h.fits hf fun j hj hm => ?_,
    fun ρ v => (h.drained ρ v).step_loc (act_drained h.sound (h.fits i) e),
    fun slot => (h.announced slot).step_loc (act_announced h.sound (h.fits i) e),
    fun v => (h.summed v).step_loc (act_summed h.sound (h.fits i) e)⟩
  · by_cases hj : some j = i
    · subst i
      rw [World.step_loc_self]
      exact (act_producer (h.producers j) e).1
    · rw [World.step_loc_of_ne hj]
      exact h.producers j
  · cases i with
    | none =>
        rw [World.step_loc_self]
        exact (act_owner h.sound h.owner e).1
    | some i =>
        rw [World.step_loc_of_ne (by simp)]
        exact h.owner
  · cases i with
    | some i => exact hm.of_producer (h.producers i) e
    | none =>
        cases j with
        | none => exact (hj rfl).elim
        | some j => exact hm.mono (h.producers j) (act_owner h.sound h.owner e).2

lemma run_consistent (xs : List (Option ι × Command)) :
    Consistent (World.run act xs (World.init ι)) :=
  World.run_invariant (fun _ i e h => h.step i e) xs consistent_init

/-- The owner is between two rounds: it holds nothing. -/
def Loc.Resting (l : Loc) : Prop := l = .idle ∨ l = .summaryLoad

lemma Loc.Resting.carries_nothing {l : Loc} (h : l.Resting) :
    (∀ ρ v, ¬Draining ρ v l) ∧ (∀ s, ¬Announcing s l) ∧ ∀ v, ¬Summing v l := by
  obtain rfl | rfl := h <;>
    exact ⟨fun _ _ => id, by simp [Announcing, hand], by simp [Summing, hand]⟩

lemma outside_carries_nothing :
    (∀ ρ v, ¬Draining ρ v .outside) ∧ (∀ s, ¬Announcing s .outside) ∧
      ∀ v, ¬Summing v .outside :=
  ⟨fun _ _ => id, by simp [Announcing, hand], by simp [Summing, hand]⟩

omit [DecidableEq ι] in
/-- With nobody under way, a pending bit is announced at every level. -/
lemma Consistent.announced_of_pending {w : World (Option ι) Shared Loc} (h : Consistent w)
    (hp : ∀ i, w.loc (some i) = .outside) (ho : (w.loc none).Resting) {ρ g : ℕ}
    (hb : (w.shared.routes ρ).born = true)
    (hg : member (w.shared.routes ρ).pending g = true) :
    (w.shared.routes ρ).state = .notified ∧
      w.shared.table (w.shared.routes ρ).slot = .small ρ ∧
      member w.shared.mask (w.shared.routes ρ).slot = true ∧
      w.shared.summary.getLsbD ((w.shared.routes ρ).slot / 64) = true := by
  have nothing : ∀ i, (∀ ρ v, ¬Draining ρ v (w.loc i)) ∧ (∀ s, ¬Announcing s (w.loc i)) ∧
      ∀ v, ¬Summing v (w.loc i) := by
    intro i
    cases i with
    | none => exact ho.carries_nothing
    | some i => rw [hp i]; exact outside_carries_nothing
  have hstate : (w.shared.routes ρ).state = .notified := by
    have hd := (h.drained ρ (g / 64)).resolve_right fun ⟨i, hi⟩ => (nothing i).1 _ _ hi
    exact hd.resolve_left (word_ne_zero_of_member hg)
  have htable := h.sound.live ρ
    (List.ne_nil_of_mem ((h.sound.routes ρ).pending g hg))
  have hmask : member w.shared.mask (w.shared.routes ρ).slot = true :=
    (h.announced _).resolve_right (fun ⟨i, hi⟩ => (nothing i).2.1 _ hi) ρ htable hb hstate
  exact ⟨hstate, htable, hmask,
    (h.summed _).resolve_right (fun ⟨i, hi⟩ => (nothing i).2.2 _ hi)
      (word_ne_zero_of_member hmask)⟩

/-- No pending class is lost. Along every schedule: with no step in flight, a route born armed
with a pending bit is notified, and its slot is marked in the mask and in the summary; an owner
that finds the summary empty leaves nothing pending but what a publisher still has under way. A
route is armed again only when the owner, having taken a notification of the slot the route
is in, starts a drain with all of the route's pending words ahead, and a pending bit is removed
only by a cut of its own route. The owner never aborts. -/
theorem no_pending_lost (xs : List (Option ι × Command)) :
    let w := World.run act xs (World.init ι)
    ((∀ i, w.loc (some i) = .outside) → (w.loc none).Resting →
      ∀ ρ g, (w.shared.routes ρ).born = true → member (w.shared.routes ρ).pending g = true →
        (w.shared.routes ρ).state = .notified ∧
        w.shared.table (w.shared.routes ρ).slot = .small ρ ∧
        member w.shared.mask (w.shared.routes ρ).slot = true ∧
        w.shared.summary.getLsbD ((w.shared.routes ρ).slot / 64) = true) ∧
    ((w.loc none).Resting → w.shared.summary = 0 → ∀ ρ g, (w.shared.routes ρ).born = true →
      member (w.shared.routes ρ).pending g = true → ∃ i, w.loc (some i) ≠ .outside) ∧
    (∀ i e ρ, ρ < w.shared.fresh → (w.shared.routes ρ).state = .notified →
      ((w.step act i e).shared.routes ρ).state = .armed →
      i = none ∧ ∃ hd h' s, w.loc none = .taking hd ∧
        w.shared.table (hd.word * 64 + trailingZeros hd.bits) = .small ρ ∧
        (w.step act i e).loc none = .draining h' ρ s ∧
        ∀ v, ((w.step act i e).shared.routes ρ).pending v ≠ 0 → s.nextWord ≤ v ∧ v < s.endWord) ∧
    (∀ i e ρ g, ρ < w.shared.fresh → member (w.shared.routes ρ).pending g = true →
      member ((w.step act i e).shared.routes ρ).pending g = false →
      i = none ∧ ∃ hd s, w.loc none = .cutting hd ρ s (g / 64)) ∧
    w.loc none ≠ .fatal := by
  intro w
  have h : Consistent w := run_consistent xs
  have owner : ∀ i l, w.loc i = l → ¬l.IsProducer → i = none := by
    rintro i l rfl hl
    cases i with
    | none => rfl
    | some i => exact (hl (h.producers i)).elim
  refine ⟨fun hp ho ρ g hb hg => h.announced_of_pending hp ho hb hg,
    fun ho h0 ρ g hb hg => ?_, fun i e ρ hρ hn ha => ?_, fun i e ρ g hρ hg hg' => ?_, fun hf => ?_⟩
  · by_contra hno
    push Not at hno
    have := (h.announced_of_pending hno ho hb hg).2.2.2
    simp [h0] at this
  · obtain ⟨hd, h', s, hl, ht, hd', hw⟩ := act_rearm h.sound (h.fits i) e hρ hn ha
    obtain rfl := owner i _ hl id
    exact ⟨rfl, hd, h', s, hl, ht, by rwa [World.step_loc_self], hw⟩
  · obtain ⟨hd, s, hl⟩ := act_unpublish h.sound e hρ hg hg'
    obtain rfl := owner i _ hl id
    exact ⟨rfl, hd, s, hl⟩
  · have := h.fits none
    rw [hf] at this
    exact this

end Runs

/-- Another thread frees block 8 of the segment in slot 70. -/
def publishRun : List (Option Unit × Command) :=
  [(none, .manage (.register 70 64 true)), (none, .manage (.issue 0 8 144)),
    (some (), .publish 0 8), (some (), .next), (some (), .next), (some (), .next),
    (some (), .next)]

theorem publishRun_announced :
    let w := World.run act publishRun (World.init Unit)
    (w.shared.routes 0).state = .notified ∧ member w.shared.mask 70 = true ∧
      w.shared.summary.getLsbD 1 = true :=
  let h := (no_pending_lost publishRun).1 (fun i => by cases i; rfl) (.inl rfl) 0 8 rfl
    (by decide)
  ⟨h.1, h.2.2.1, h.2.2.2⟩

end Ingress

end SeferAlloc
