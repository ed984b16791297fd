import SeferAlloc.ScanBackoffSteps

/-!
# The back-off along every run

Searches, carves, frees and changes of the current segment follow each other in
any order. Every word keeps what was packed; a window closes under the carves
of its segment; and where the drains are left out for a window, the carve that
follows a search in vain has room.
-/
namespace SeferAlloc
namespace ScanBackoff
open SeferAlloc.Small

/-- What happens to a core: a command on its blocks, a search, a new segment, and the trims. -/
inductive Command where
  | small (c : Small.Command)
  | find (cls : ℕ) (rescue : Bool) (s : Search)
  | reserve (base slot : ℕ) (pooled : Bool)
  | trimCurrent
  | releaseDirectory

/-- The commands that carve nothing and do not go back to the first segment. -/
def Command.idle : Command → Bool
  | .small c => c.quiet
  | .find .. | .reserve .. | .releaseDirectory => true
  | .trimCurrent => false

namespace Core

/-- A core with its first segment. -/
def init (bd : Build) (base : ℕ) (owner : Option ℕ) : Core where
  world := .init bd base
  window _ := 0
  slots := [some base]
  primordial := base
  owner := owner
  directory := false
  missStreak _ := 0
  recorded _ := none

/-- The callers' contract; a reservation is at a base the system can grant. -/
def Allowed (bd : Build) (c : Core) : Command → Prop
  | .small sc => sc.direct = true ∧ c.world.Allowed bd sc
  | .reserve base _ _ => c.world.heap.Grantable base
  | .find .. | .trimCurrent | .releaseDirectory => True

instance (bd : Build) (c : Core) : (cmd : Command) → Decidable (c.Allowed bd cmd)
  | .small sc => inferInstanceAs (Decidable (sc.direct = true ∧ c.world.Allowed bd sc))
  | .reserve base _ _ => inferInstanceAs (Decidable (c.world.heap.Grantable base))
  | .find .. | .trimCurrent | .releaseDirectory => inferInstanceAs (Decidable True)

/-- A command the contract allows; `none` is an abort. -/
def exec (bd : Build) (c : Core) : Command → Option Core
  | .small sc => (c.world.exec bd sc).map fun w => { c with world := w }
  | .find cls rescue s => (c.findSegmentWithFree bd cls rescue s).map Prod.fst
  | .reserve base slot pooled => some (c.reserve bd base slot pooled)
  | .trimCurrent => some c.releaseEmptyCurrentSmallForTrim
  | .releaseDirectory => some c.releaseDirectory

def step (bd : Build) (c : Core) (cmd : Command) : Option Core :=
  if c.Allowed bd cmd then c.exec bd cmd else some c

def run (bd : Build) : List Command → Core → Option Core
  | [], c => some c
  | cmd :: cs, c => do run bd cs (← c.step bd cmd)

variable {bd : Build} {c c' : Core}

/-! ## Steps -/

lemma valid_init (bd : Build) (base : ℕ) (owner : Option ℕ) : (init bd base owner).Valid bd where
  sound := World.sound_init bd base
  first := by simp [init, World.init, seg, Segment.new]
  slots x hx := by
    have : x = base := by simpa [init, World.init] using hx
    simp [init, this]
  noted x _ := by
    simp only [Noted, init]

lemma Valid.reserve (h : c.Valid bd) {base : ℕ} (hg : c.world.heap.Grantable base) (slot : ℕ)
    (pooled : Bool) : (c.reserve bd base slot pooled).Valid bd := by
  set w₁ : World := ⟨{ c.world.heap with
    segs := Function.update c.world.heap.segs base (.new bd .small)
    mapped := Function.update c.world.heap.mapped base true
    smallCur := base }, Function.update c.world.blocks base .new⟩ with hw₁
  have hl : w₁.Leaves (c.reserve bd base slot pooled).world :=
    .retire w₁ c.world.heap.smallCur pooled
  have hne : c.primordial ≠ base := by
    intro he
    have := h.first.1
    rw [he, hg.1] at this
    contradiction
  have hold : ∀ x ≠ base, w₁.heap.mapped x = c.world.heap.mapped x ∧
      w₁.heap.segs x = c.world.heap.segs x ∧ w₁.blocks x = c.world.blocks x := by
    intro x hx
    simp [hw₁, hx]
  have hfirst : w₁.heap.mapped c.primordial = true ∧
      (w₁.heap.segs c.primordial).kind = .primordial := by
    rw [(hold _ hne).1, (hold _ hne).2.1]
    exact h.first
  constructor
  · exact h.sound.reserve base pooled
  · have hm := hl.stays _ hfirst.1 hfirst.2
    exact ⟨hm, (hl.segs _ hm).2.kind.trans hfirst.2⟩
  · intro x hx
    have hkeep : x ≠ base → some x ∈ c.slots.map fun s =>
        s.filter fun b => c.world.heap.mapped b := by
      intro hxb
      have hm := hl.mapped x hx
      rw [(hold x hxb).1] at hm
      exact List.mem_map.mpr ⟨some x, h.slots x hm, by rw [Option.filter_some, if_pos hm]⟩
    simp only [Core.reserve]
    split_ifs with hvacant
    · by_cases hxb : x = base
      · rw [hxb]
        exact List.mem_set (List.getElem?_eq_some_iff.mp hvacant).1 _
      · obtain ⟨i, hi, he⟩ := List.getElem_of_mem (hkeep hxb)
        refine List.mem_of_getElem? (i := i) ?_
        have hne : slot ≠ i := by
          intro hslot
          rw [hslot, List.getElem?_eq_getElem hi, he] at hvacant
          simp at hvacant
        rw [List.getElem?_set_ne hne, List.getElem?_eq_getElem hi, he]
    · by_cases hxb : x = base
      · simp [hxb]
      · exact List.mem_append_left _ (hkeep hxb)
  · intro x hx
    obtain ⟨hcarved, hframe⟩ := hl.segs x hx
    by_cases hxb : x = base
    · simp [Noted, Core.reserve, hxb]
    · have hm := hl.mapped x hx
      rw [(hold x hxb).1] at hm
      have hn := h.noted x hm
      rw [Noted] at hn ⊢
      have hbump : ((c.reserve bd base slot pooled).seg x).bump = (c.seg x).bump := by
        have := hframe.bump
        rwa [(hold x hxb).2.1] at this
      have hcount : (c.reserve bd base slot pooled).carvedCount x = c.carvedCount x := by
        rw [(hold x hxb).2.2] at hcarved
        exact congrArg List.length hcarved
      rw [hbump, hcount]
      simp only [Core.reserve, Function.update_of_ne hxb]
      exact hn

lemma Valid.trimCurrent (h : c.Valid bd) : c.releaseEmptyCurrentSmallForTrim.Valid bd := by
  simp only [releaseEmptyCurrentSmallForTrim]
  split_ifs with hc
  · exact h
  · push Not at hc
    have hne : c.primordial ≠ c.smallCur := by
      intro he
      have := h.first.2
      rw [he, hc.1] at this
      contradiction
    have hmapped : ∀ x, Function.update c.world.heap.mapped c.smallCur false x = true →
        c.world.heap.mapped x = true := by
      intro x hx
      by_cases hxb : x = c.smallCur
      · rw [hxb, Function.update_self] at hx
        contradiction
      · rwa [Function.update_of_ne hxb] at hx
    exact ⟨⟨fun x hx => h.sound.represents x (hmapped x hx), by simpa [hne] using h.first.1⟩,
      ⟨by simpa [hne] using h.first.1, h.first.2⟩, fun x hx => h.slots x (hmapped x hx),
      fun x hx => h.noted x (hmapped x hx)⟩

/-- A command the contract allows runs to its end and keeps the words noted. -/
lemma Valid.exec (h : c.Valid bd) {cmd : Command} (hc : c.Allowed bd cmd) :
    ∃ c', c.exec bd cmd = some c' ∧ c'.Valid bd ∧ c'.owner = c.owner := by
  cases cmd with
  | small sc =>
      obtain ⟨w, he, hs⟩ := h.sound.exec hc.2
      exact ⟨{ c with world := w }, by simp [Core.exec, he],
        h.moves hs (World.exec_moves h.sound hc.2 hc.1 he), rfl⟩
  | find cls rescue s =>
      obtain ⟨c', found, he, hs, -⟩ := find_spec h cls rescue s
      exact ⟨c', by simp [Core.exec, he], hs.valid, hs.owner⟩
  | reserve base slot pooled => exact ⟨_, rfl, h.reserve hc slot pooled, rfl⟩
  | trimCurrent =>
      refine ⟨_, rfl, h.trimCurrent, ?_⟩
      simp only [releaseEmptyCurrentSmallForTrim]
      split_ifs <;> rfl
  | releaseDirectory => exact ⟨_, rfl, ⟨h.sound, h.first, h.slots, h.noted⟩, rfl⟩

lemma Valid.step (h : c.Valid bd) (cmd : Command) :
    ∃ c', c.step bd cmd = some c' ∧ c'.Valid bd ∧ c'.owner = c.owner := by
  rw [Core.step]
  split_ifs with hc
  · exact h.exec hc
  · exact ⟨c, rfl, h, rfl⟩

lemma Valid.run (cs : List Command) (h : c.Valid bd) :
    ∃ c', c.run bd cs = some c' ∧ c'.Valid bd ∧ c'.owner = c.owner := by
  induction cs generalizing c with
  | nil => exact ⟨c, rfl, h, rfl⟩
  | cons cmd cs ih =>
      obtain ⟨c₁, he, hv, ho⟩ := h.step cmd
      obtain ⟨c₂, hr, hv₂, ho₂⟩ := ih hv
      exact ⟨c₂, by rw [Core.run, he]; exact hr, hv₂, ho₂.trans ho⟩

/-! ## Idle runs -/

/-- Without a carve a shut window stays shut. -/
lemma Closed.step (hcl : c.Closed) (h : c.Valid bd) {cmd : Command} (hi : cmd.idle = true)
    (he : c.step bd cmd = some c') : c'.Closed := by
  rw [Core.step] at he
  split_ifs at he with hc
  swap
  · obtain rfl := Option.some.inj he
    exact hcl
  cases cmd with
  | small sc =>
      obtain ⟨w, hw, hs⟩ := h.sound.exec hc.2
      rw [Core.exec, hw, Option.map_some] at he
      obtain rfl := Option.some.inj he
      exact (Searched.of_leaves h hs (World.exec_leaves hi hw)).closed hcl
  | find cls rescue s =>
      obtain ⟨c₁, found, hf, hs, -⟩ := find_spec h cls rescue s
      rw [Core.exec, hf, Option.map_some] at he
      obtain rfl := Option.some.inj he
      exact hs.closed hcl
  | reserve base slot pooled =>
      obtain rfl := Option.some.inj he
      apply closed_of_window
      have hcur : (c.reserve bd base slot pooled).smallCur = base := by
        have := (World.Leaves.retire ⟨{ c.world.heap with
          segs := Function.update c.world.heap.segs base (.new bd .small)
          mapped := Function.update c.world.heap.mapped base true
          smallCur := base }, c.world.blocks⟩ c.world.heap.smallCur pooled).current
        exact this
      rw [hcur]
      simp [Core.reserve]
  | trimCurrent => contradiction
  | releaseDirectory =>
      obtain rfl := Option.some.inj he
      exact hcl

lemma Closed.run (cs : List Command) (hcl : c.Closed) (h : c.Valid bd)
    (hi : ∀ cmd ∈ cs, cmd.idle = true) (he : c.run bd cs = some c') : c'.Closed := by
  induction cs generalizing c with
  | nil =>
      obtain rfl := Option.some.inj he
      exact hcl
  | cons cmd cs ih =>
      obtain ⟨c₁, hs, hv, -⟩ := h.step cmd
      rw [Core.run, hs] at he
      exact ih (hcl.step h (hi cmd List.mem_cons_self) hs) hv
        (fun x hx => hi x (List.mem_cons_of_mem _ hx)) he

/-! ## Carves -/

/-- The two ways a search in vain goes on: a block is carved, or a batch for a magazine. -/
def Carves (cls : ℕ) (cmd : Command) : Prop :=
  cmd = .small (.carve cls true) ∨
    ∃ want st, 0 < want ∧ st ≠ .free ∧ cmd = .small (.carveBatch cls want st .ok)

/-- With room for a block, a granted carve moves the cursor of the current segment. -/
lemma Valid.carves (h : c.Valid bd) {cls : ℕ} (hcls : cls < bd.sizes.count)
    (hroom : alignUp (c.seg c.smallCur).bump (bd.sizes.blockSize cls) + bd.sizes.blockSize cls ≤
      segment) {cmd : Command} (hcmd : Carves cls cmd) :
    ∃ c', c.step bd cmd = some c' ∧ c'.smallCur = c.smallCur ∧
      (c.seg c.smallCur).bump < (c'.seg c.smallCur).bump := by
  have hmin : 0 < minBlock := by decide
  obtain rfl | ⟨want, st, hwant, hst, rfl⟩ := hcmd
  · have hall : c.Allowed bd (.small (.carve cls true)) := ⟨rfl, hcls⟩
    obtain ⟨w, he, -⟩ := h.sound.exec hall.2
    refine ⟨{ c with world := w }, by simp [Core.step, Core.exec, hall, he], ?_⟩
    simp only [World.exec, Option.bind_eq_bind, Option.bind_eq_some_iff] at he
    obtain ⟨⟨s, off⟩, hcarve, he⟩ := he
    have hadv := carveBlock_advanced hcarve
    cases off with
    | none => exact absurd rfl (carveBlock_granted hroom hcarve)
    | some off =>
        obtain rfl := Option.some.inj he
        have hbump := hadv.bump
        simp only [Option.toList_some, List.length_singleton] at hbump
        refine ⟨rfl, ?_⟩
        change _ < (Function.update c.world.heap.segs c.smallCur s c.smallCur).bump
        rw [Function.update_self]
        exact lt_of_lt_of_le (by simp only [seg, smallCur]; omega) hbump
  · have hall : c.Allowed bd (.small (.carveBatch cls want st .ok)) := ⟨rfl, hcls, hst⟩
    obtain ⟨w, he, -⟩ := h.sound.exec hall.2
    refine ⟨{ c with world := w }, by simp [Core.step, Core.exec, hall, he], ?_⟩
    simp only [World.exec, Heap.carveCurrent, Option.bind_eq_bind, Option.bind_eq_some_iff,
      Option.pure_def, Option.some.injEq] at he
    obtain ⟨⟨h', out⟩, ⟨⟨s, out'⟩, hcarve, hout⟩, he⟩ := he
    injection hout with hh hout
    subst hh hout
    obtain ⟨offs, rfl, hne⟩ := tryCarveBatch_granted hwant hroom hcarve
    obtain rfl := Option.some.inj he
    have hbump := (tryCarveBatch_advanced hcarve).bump
    have hlen := List.length_pos_of_ne_nil hne
    refine ⟨rfl, ?_⟩
    change _ < (Function.update c.world.heap.segs c.smallCur s c.smallCur).bump
    rw [Function.update_self]
    exact lt_of_lt_of_le (by simp only [seg, smallCur, minBlock]; omega) hbump

/-! ## The back-off -/

/-- Drains are left out by the fact alone that the owner has an ingress cell, or for an open window
with room for a block, opened by a scan since which the segment has carved. -/
lemma Valid.deferred (h : c.Valid bd) {cls : ℕ} (harmed : c.ingressArmed = false) {rescue : Bool}
    (hd : c.deferDrains bd cls rescue = true) :
    rescue = false ∧ c.isRouted = true ∧
      alignUp (c.seg c.smallCur).bump (bd.sizes.blockSize cls) + bd.sizes.blockSize cls ≤ segment ∧
      ∃ r, c.recorded c.smallCur = some r ∧ r.start < (c.seg c.smallCur).bump ∧
        (c.seg c.smallCur).bump < r.stop ∧ r.carved < c.carvedCount c.smallCur := by
  simp only [deferDrains, harmed, Bool.and_false, Bool.false_or, Bool.and_eq_true,
    Bool.not_eq_eq_eq_not, Bool.not_true, sidecarDrainsDeferred, decide_eq_true_eq] at hd
  obtain ⟨⟨hrescue, hroute⟩, h1, h2, hroom⟩ := hd
  have hn := h.noted _ h.current
  rw [Noted] at hn
  cases hrec : c.recorded c.smallCur with
  | none =>
      rw [hrec] at hn
      exact absurd ⟨h1, h2⟩ (closed_of_window hn)
  | some r =>
      rw [hrec] at hn
      rw [hn.packed] at h1 h2
      refine ⟨hrescue, hroute, hroom, r, rfl, h1, h2, ?_⟩
      obtain ⟨n, hcount, -, -⟩ := hn.carves
      by_contra hle
      exact hn.idle (by omega) ⟨h1, h2⟩

end Core
open Core

/-- The back-off along every run. The word of a segment unpacks to what the scan that stored it
packed. A window lies between the cursor of that scan and the end of the segment, is no longer
than a sixteenth of the bytes the scan drained, and closes under the carves of the segment, each
of which takes a granule at least. A forced search never leaves the drains out. A heap whose owner
has an ingress cell leaves them out of every other search. Any other heap does so only inside a
window, after a carve, and with room for a block: where such a search finds nothing, a granted
carve of the class moves the cursor. After a search in vain that was not kept from draining, the
next one drains as well, whatever was done in between without a carve. -/
theorem backoff_bounded (bd : Build) (base₀ : ℕ) (owner : Option ℕ) (cs : List Command) :
    ∃ c, (Core.init bd base₀ owner).run bd cs = some c ∧
      (∀ base, c.world.heap.mapped base = true →
        match c.recorded base with
        | none => unpack (c.window base) = (0, 0, 0)
        | some r => unpack (c.window base) = (r.start, r.stop, r.streak) ∧
            (r.start < r.stop →
              r.bump ≤ r.start ∧ r.stop ≤ segment ∧ r.stop - r.start ≤ r.drained / 16) ∧
            r.carved ≤ c.carvedCount base ∧
            (r.stop ≤ r.bump + minBlock * (c.carvedCount base - r.carved) →
              r.stop ≤ (c.seg base).bump)) ∧
      (∀ cls, c.deferDrains bd cls true = false) ∧
      (c.ingressArmed = true → ∀ cls, c.deferDrains bd cls false = true) ∧
      (c.ingressArmed = false → ∀ cls < bd.sizes.count, c.deferDrains bd cls false = true →
        alignUp (c.seg c.smallCur).bump (bd.sizes.blockSize cls) + bd.sizes.blockSize cls ≤
          segment ∧
        (∃ r, c.recorded c.smallCur = some r ∧ r.start < (c.seg c.smallCur).bump ∧
          (c.seg c.smallCur).bump < r.stop ∧ r.carved < c.carvedCount c.smallCur) ∧
        ∀ s, ∃ c₁ found, c.findSegmentWithFree bd cls false s = some (c₁, found) ∧
          ∀ cmd, Carves cls cmd → ∃ c₂, c₁.step bd cmd = some c₂ ∧ c₂.smallCur = c.smallCur ∧
            (c.seg c.smallCur).bump < (c₂.seg c.smallCur).bump) ∧
      (c.ingressArmed = false → ∀ cls rescue, c.deferDrains bd cls rescue = false → ∀ s c₁,
        c.findSegmentWithFree bd cls rescue s = some (c₁, none) →
        ∀ cs', (∀ cmd ∈ cs', cmd.idle = true) → ∀ c₂, c₁.run bd cs' = some c₂ →
          ∀ cls', c₂.deferDrains bd cls' false = false) := by
  obtain ⟨c, hrun, h, -⟩ := (valid_init bd base₀ owner).run cs
  refine ⟨c, hrun, fun base hb => ?_, fun cls => ?_, fun harmed cls => ?_,
    fun harmed cls hcls hd => ?_, fun harmed cls rescue hd s c₁ hf cs' hi c₂ hr cls' => ?_⟩
  · have hn := h.noted base hb
    rw [Noted] at hn
    cases hrec : c.recorded base with
    | none =>
        rw [hrec] at hn
        simp only at hn ⊢
        rw [hn, unpack_zero]
    | some r =>
        rw [hrec] at hn
        obtain ⟨n, hcount, hle, -⟩ := hn.carves
        refine ⟨hn.packed, hn.inside, by omega, fun hstop => hstop.trans ?_⟩
        rw [hcount, Nat.add_sub_cancel_left]
        exact hle
  · simp [deferDrains]
  · simp [deferDrains, harmed]
  · obtain ⟨-, -, hroom, hwindow⟩ := h.deferred harmed hd
    refine ⟨hroom, hwindow, fun s => ?_⟩
    obtain ⟨c₁, found, hf, hs, -⟩ := find_spec h cls false s
    refine ⟨c₁, found, hf, fun cmd hcmd => ?_⟩
    have hroom₁ : alignUp (c₁.seg c₁.smallCur).bump (bd.sizes.blockSize cls) +
        bd.sizes.blockSize cls ≤ segment := by
      rw [hs.smallCur, hs.seg.bump]
      exact hroom
    obtain ⟨c₂, he, hcur, hlt⟩ := hs.valid.carves hcls hroom₁ hcmd
    rw [hs.smallCur] at hcur hlt
    rw [hs.seg.bump] at hlt
    exact ⟨c₂, he, hcur, hlt⟩
  · obtain ⟨c₁', found, hf', hs, hclosed⟩ := find_spec h cls rescue s
    rw [hf] at hf'
    injection hf' with hf'
    injection hf' with hc₁ hfound
    subst hc₁ hfound
    obtain ⟨c₂', hr', hv₂, hown⟩ := hs.valid.run cs'
    rw [hr] at hr'
    obtain rfl := Option.some.inj hr'
    have howner : c₂.owner = c.owner := hown.trans hs.owner
    have harmed₂ : c₂.ingressArmed = false := by
      rw [ingressArmed, howner]
      exact harmed
    by_cases hroute : rescue = true ∨ c.isRouted = true
    · have hcl := (hclosed hd hroute rfl).run cs' hs.valid hi hr
      simp [deferDrains, harmed₂, hcl.not_deferred]
    · have hroute₂ : c₂.isRouted = false := by
        rw [isRouted, howner]
        exact Bool.eq_false_iff.mpr fun h0 => hroute (.inr h0)
      simp [deferDrains, harmed₂, hroute₂]

/-- A heap with an ingress cell whose segment is full for the largest class. -/
lemma armed_full :
    ((Core.init releaseBuild 0 (some 0)).run releaseBuild
      [.small (.carveBatch 48 100 .live .ok)]).map (fun c =>
        (c.deferDrains releaseBuild 48 false,
          decide (alignUp (c.seg c.smallCur).bump (releaseBuild.sizes.blockSize 48) +
            releaseBuild.sizes.blockSize 48 ≤ segment))) = some (true, false) := by
  decide +kernel

/-- Drains are left out although the current segment has no room for a block of the class. -/
theorem armed_defers_full :
    ¬∀ (cs : List Command) (c : Core),
      (Core.init releaseBuild 0 (some 0)).run releaseBuild cs = some c →
      ∀ cls < releaseBuild.sizes.count, c.deferDrains releaseBuild cls false = true →
        alignUp (c.seg c.smallCur).bump (releaseBuild.sizes.blockSize cls) +
          releaseBuild.sizes.blockSize cls ≤ segment := by
  intro h
  obtain ⟨c, hrun, hc⟩ := Option.map_eq_some_iff.mp armed_full
  simp only [Prod.mk.injEq, decide_eq_false_iff_not] at hc
  exact hc.2 (h _ c hrun 48 (by decide +kernel) hc.1)

end ScanBackoff
end SeferAlloc
