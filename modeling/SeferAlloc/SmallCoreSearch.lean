import SeferAlloc.SmallCoreFrees

/-!
# The search for a free block

What a search offers is a registered segment outside the pool with a free block
of the class. A search that ends without one leaves no registered segment with
such a block: the directory is exact, and a scan looks at every active slot.
-/
namespace SeferAlloc
namespace SmallCore
open Small SmallBatch SmallBatch.AllocCore ScanBackoff

/-- The drains between the cores were of segments in slots with `P`. -/
structure Visits (bd : Build) (env : ℕ → Answers) (c c' : Core) (P : ℕ → Prop) : Prop
    extends Seeks bd env c c' where
  others : ∀ slot, ¬P slot → c.baseAt slot ≠ 0 → c'.baseAt slot = c.baseAt slot ∧
    c'.alloc.homes (c.baseAt slot) = c.alloc.homes (c.baseAt slot)

namespace Core

/-- The slot has no free block of the class. -/
def Clear (c : Core) (cls slot : ℕ) : Prop := c.baseAt slot ≠ 0 → c.head (c.baseAt slot) cls = none

/-- Nothing of the class that was published in `c₀` is left for the slot. -/
def Combed (c₀ c : Core) (cls slot : ℕ) : Prop :=
  c.baseAt slot ≠ 0 → ∀ r ∈ c₀.pending (c.baseAt slot), r.2 ≠ cls

/-- A search ends well, with a segment that has a free block of the class or without one. -/
def Found (bd : Build) (root : ℕ) (c : Core) (cls : ℕ) (hit : Option ℕ) : Prop :=
  ∃ q, c.Wf bd root q ∧ c.TidyBut q (hit.getD 0) ∧ ∀ base ∈ hit,
    c.alloc.registered base = true ∧ c.head base cls ≠ none ∧ base ∉ q

/-- The core is sound and no empty segment is lost. -/
def Ready (bd : Build) (root : ℕ) (c : Core) : Prop := ∃ q, c.Wf bd root q ∧ c.Tidy q

end Core

section Frames
variable {bd : Build} {env : ℕ → Answers} {root base slot cls x : ℕ} {c₀ c c₁ c' : Core} {q : List ℕ}
  {P P' : ℕ → Prop} {cut : ℕ × ℕ → Bool}

lemma Visits.refl (c : Core) : Visits bd env c c P := ⟨.refl c, fun _ _ _ => ⟨rfl, rfl⟩⟩

lemma Visits.mono (h : Visits bd env c c' P) (hp : ∀ slot, P slot → P' slot) :
    Visits bd env c c' P' :=
  ⟨h.toSeeks, fun slot hs => h.others slot fun hp' => hs (hp slot hp')⟩

lemma Visits.trans (h : Visits bd env c c₁ P) (h' : Visits bd env c₁ c' P) :
    Visits bd env c c' P := by
  refine ⟨h.toSeeks.trans h'.toSeeks, fun slot hs h0 => ?_⟩
  obtain ⟨hb, hhome⟩ := h.others slot hs h0
  obtain ⟨hb', hhome'⟩ := h'.others slot hs (hb.symm ▸ h0)
  rw [hb] at hb' hhome'
  exact ⟨hb', hhome'.trans hhome⟩

/-- Only the segment of a slot is drained. -/
lemma Drained.visits (h : Drained bd env c c' base cut) (hs : c.baseAt slot = base)
    (hw : c.Wf bd root q) : Visits bd env c c' (· = slot) := by
  refine ⟨h.toSeeks, fun s hne h0 => ?_⟩
  obtain ⟨-, -, hr, hid⟩ := Core.baseAt_ne h0
  have hb : c.baseAt s ≠ base := fun he =>
    hne ((hw.slot_unique he (he ▸ h0)).symm.trans (hw.slot_unique hs (he ▸ h0)))
  obtain ⟨hreg, hhome⟩ := h.others _ hb
  rw [h.toSeeks.baseAt, hreg, if_pos hr]
  exact ⟨rfl, hhome hr⟩

lemma Visits.clear (h : Visits bd env c c' P) (hs : ¬P slot) (hc : c.Clear cls slot) :
    c'.Clear cls slot := fun h0 => by
  have hb := h.toSeeks.baseAt_of_ne h0
  rw [hb] at h0 ⊢
  obtain ⟨-, hhome⟩ := h.others slot hs h0
  exact (congrArg (fun home : Home => home.seg.head cls) hhome).trans (hc h0)

lemma Seeks.combed (h : Seeks bd env c c') (hc : Core.Combed c₀ c cls slot) :
    Core.Combed c₀ c' cls slot := fun h0 => by
  have hb := h.baseAt_of_ne h0
  rw [hb] at h0 ⊢
  exact hc h0

/-- Operations on the pool, the directory, the cursors and the counters of the search. -/
lemma visits_quiet (hr : c'.alloc.registered = c.alloc.registered)
    (hh : c'.alloc.homes = c.alloc.homes) (hcur : c'.alloc.smallCur = c.alloc.smallCur)
    (hb : c'.blocks = c.blocks) (hs : c'.slots = c.slots) (hn : c'.count = c.count)
    (ho : c'.owner = c.owner) (hp : c'.pending = c.pending) (hclock : c.clock ≤ c'.clock) :
    Visits bd env c c' P := by
  have hbase := Core.baseAt_congr hs hn hr fun b _ => by rw [hh]
  refine ⟨⟨⟨[], .silent ?_ hclock, by simp⟩, hs, hn, hcur, ho, fun x hx => hr ▸ hx,
    fun x _ => by rw [hh], fun x => by rw [hb]⟩, fun s _ _ => ⟨hbase s, by rw [hh]⟩⟩
  exact Core.ledger_congr hr (fun _ _ => by rw [hb]) fun _ _ => by rw [hp]

/-- A slot whose segment was drained of everything and has no free block of the class had none
published. -/
lemma Seeks.swept (h : Seeks bd env c₀ c) (hw₀ : c₀.Wf bd root q) {q' : List ℕ}
    (hw : c.Wf bd root q') (hr : c.alloc.registered base = true) (hdrained : c.pending base = [])
    (hhead : c.head base cls = none) : ∀ r ∈ c₀.pending base, r.2 ≠ cls := by
  rintro ⟨off, k⟩ hm rfl
  have hr₀ := h.registered base hr
  obtain ⟨hx, -⟩ := (hw₀.pending base hr₀).2 _ hm
  obtain ⟨es, htrace, hf⟩ := h.trace
  have hann : ((base, off, k) : Block) ∈ c₀.ledger.announced := ⟨hr₀, hm⟩
  obtain hann' | hfree := htrace.run.announced hf hw₀.sane (.inl hann)
  · obtain ⟨-, hm'⟩ := hann'
    rw [hdrained] at hm'
    exact List.not_mem_nil hm'
  · have hx' : (off, k) ∈ (c.blocks base).carved := h.carved base ▸ hx
    refine (head_eq_none (hw.kept hr)).mp hhead off hx' ?_
    by_contra hne
    exact Core.held_ne_none.mpr ⟨hr, hx', hne⟩ hfree

/-- What a drain leaves is a hit, or the slot has no free block of the class. -/
lemma Drained.clear {out : SidecarDrainOutcome} {cut : ℕ × ℕ → Bool}
    (h : Drained bd env c c' base cut) (hs : c.baseAt slot = base)
    (hout : out = .decommitted false ↔ c'.alloc.registered base = false)
    (hmiss : ¬(out ≠ .decommitted false ∧ c'.head base cls ≠ none)) : c'.Clear cls slot := by
  intro h0
  have hb := h.toSeeks.baseAt slot
  rw [hs] at hb
  split_ifs at hb with hr
  · rw [hb]
    refine not_ne_iff.mp fun hsome => hmiss ⟨fun he => ?_, hsome⟩
    exact Bool.false_ne_true ((hout.mp he).symm.trans hr)
  · exact absurd hb h0

end Frames

namespace Core
variable {bd : Build} {env : ℕ → Answers} {root base slot cls x : ℕ} {c c' : Core} {q : List ℕ}

/-! ## Slots -/

lemma nextActive_some (h : c.nextActive slot = some x) : slot ≤ x ∧ x < c.count ∧
    c.baseAt x ≠ 0 ∧ ∀ s, slot ≤ s → s < x → c.baseAt s = 0 := by
  rw [nextActive] at h
  obtain ⟨hx, as, bs, hsplit, has⟩ := List.find?_eq_some_iff_append.mp h
  have hmem : x ∈ List.range' slot (c.count - slot) := hsplit ▸ by simp
  obtain ⟨hle, hlt⟩ := List.mem_range'_1.mp hmem
  refine ⟨hle, by omega, by simpa using hx, fun s hs hsx => ?_⟩
  have hsorted : (as ++ x :: bs).Pairwise (· < ·) := hsplit ▸ List.pairwise_lt_range'
  have hin : s ∈ as ++ x :: bs := hsplit ▸ List.mem_range'_1.mpr ⟨hs, by omega⟩
  obtain hin | hin := List.mem_append.mp hin
  · simpa using has s hin
  · obtain rfl | hin := List.mem_cons.mp hin
    · exact absurd hsx (lt_irrefl _)
    · have := (List.pairwise_append.mp hsorted).2.1
      exact absurd (List.rel_of_pairwise_cons this hin) (by omega)

lemma nextActive_none (h : c.nextActive slot = none) (s : ℕ) (hs : slot ≤ s) : c.baseAt s = 0 := by
  by_contra h0
  have hlt := (baseAt_ne h0).1
  have := List.find?_eq_none.mp h s (List.mem_range'_1.mpr ⟨hs, by omega⟩)
  exact this (by simpa using h0)

/-! ## The directory -/

/-- The core with another directory. -/
def withDirectory (c : Core) (d : Option Directory.SegmentDirectory) : Core :=
  c.withAlloc { c.alloc with directory := d }

lemma Wf.withDirectory (h : c.Wf bd root q) {d : Option Directory.SegmentDirectory}
    (hd : ∀ d', d = some d' → c.Lists bd d') : (c.withDirectory d).Wf bd root q :=
  ⟨h.sound.beside rfl rfl rfl, h.pool, h.committed, h.placed, h.aligned, h.count, h.root,
    h.pending, h.cursors, fun d' hd' => ⟨(hd d' hd').counted, (hd d' hd').exact⟩, h.frontier⟩

/-- The bit of a slot without a free block is cleared. -/
lemma Wf.publishEmpty (h : c.Wf bd root q) (hcls : cls < bd.small.sizes.count)
    (hclear : c.Clear cls slot) (hslot : slot < maxSegments) :
    (c.publishEmpty bd cls slot).Wf bd root q := by
  refine h.withDirectory fun d' hd' => ?_
  obtain ⟨d, hd, rfl⟩ := Option.map_eq_some_iff.mp hd'
  obtain ⟨hc, hget⟩ := clearBit_get (h.directory d hd).counted hcls hslot
  refine ⟨hc, fun k hk s hs => ?_⟩
  rw [hget, (h.directory d hd).exact k hk s hs]
  refine and_iff_left_of_imp ?_
  rintro ⟨h0, hsome⟩ ⟨rfl, rfl⟩
  exact hsome (hclear h0)

/-- The bit of a segment with a free block is set. -/
lemma Wf.publishNonempty (h : c.Wf bd root q) (hcls : cls < bd.small.sizes.count)
    (hr : c.alloc.registered base = true) (hsome : c.head base cls ≠ none) :
    (c.withAlloc (c.alloc.publishNonempty bd.toBuild base cls)).Wf bd root q := by
  refine h.withDirectory fun d' hd' => ?_
  obtain ⟨d, hd, rfl⟩ := Option.map_eq_some_iff.mp hd'
  obtain ⟨hc, hget⟩ := setBit_get (h.directory d hd).counted hcls (h.slot_lt hr)
    (c.alloc.homes base).nodeId
  refine ⟨hc, fun k hk s hs => ?_⟩
  rw [hget, (h.directory d hd).exact k hk s hs]
  refine or_iff_right_of_imp ?_
  rintro ⟨rfl, rfl⟩
  rw [h.baseAt_slot hr]
  exact ⟨h.ne_zero hr, hsome⟩

/-- One slot of `rebuild_from_table`. -/
lemma rebuild_get (classes : List ℕ) {d : Directory.SegmentDirectory}
    (hd : Directory.Counted bd.directory d) (hcls : ∀ k ∈ classes, k < bd.small.sizes.count)
    (hslot : slot < maxSegments) (head : ℕ → Option ℕ) :
    Directory.Counted bd.directory (classes.foldl (fun d k => if head k = none then d
      else Directory.setBit bd.directory 0 k slot d) d) ∧ ∀ k s, (classes.foldl (fun d k =>
        if head k = none then d else Directory.setBit bd.directory 0 k slot d) d).get 0 k s = true ↔
        (k ∈ classes ∧ s = slot ∧ head k ≠ none) ∨ d.get 0 k s = true := by
  induction classes generalizing d with
  | nil => exact ⟨hd, by simp⟩
  | cons k classes ih =>
      have hrest := fun k' hk' => hcls k' (List.mem_cons_of_mem k hk')
      rw [List.foldl_cons]
      by_cases hk : head k = none
      · rw [if_pos hk]
        obtain ⟨hc, hget⟩ := ih hd hrest
        refine ⟨hc, fun k' s => ?_⟩
        rw [hget, List.mem_cons]
        refine or_congr_left (and_congr_left fun ⟨_, hs⟩ => (or_iff_right ?_).symm)
        rintro rfl
        exact hs hk
      · rw [if_neg hk]
        obtain ⟨hc₁, hget₁⟩ := setBit_get hd (hcls k List.mem_cons_self) hslot 0
        obtain ⟨hc, hget⟩ := ih hc₁ hrest
        refine ⟨hc, fun k' s => ?_⟩
        rw [hget, hget₁, List.mem_cons, ← or_assoc]
        refine or_congr_left ?_
        constructor
        · rintro (⟨hk', hs⟩ | ⟨rfl, rfl⟩)
          · exact ⟨.inr hk', hs⟩
          · exact ⟨.inl rfl, rfl, hk⟩
        · rintro ⟨rfl | hk', hs⟩
          · exact .inr ⟨rfl, hs.1⟩
          · exact .inl ⟨hk', hs⟩

/-- `rebuild_from_table` over the first slots. -/
lemma Wf.rebuild (h : c.Wf bd root q) (n : ℕ) (hn : n ≤ c.count) :
    Directory.Counted bd.directory ((List.range n).foldl (fun d slot => if c.baseAt slot = 0 then d
      else (List.range bd.directory.classes).foldl (fun d k => if c.head (c.baseAt slot) k = none
        then d else Directory.setBit bd.directory 0 k slot d) d) Directory.fresh) ∧
    ∀ k < bd.small.sizes.count, ∀ s, ((List.range n).foldl (fun d slot =>
      if c.baseAt slot = 0 then d else (List.range bd.directory.classes).foldl (fun d k =>
        if c.head (c.baseAt slot) k = none then d
        else Directory.setBit bd.directory 0 k slot d) d) Directory.fresh).get 0 k s = true ↔
      s < n ∧ c.baseAt s ≠ 0 ∧ c.head (c.baseAt s) k ≠ none := by
  induction n with
  | zero => exact ⟨.fresh _, fun k _ s => by simp [Directory.fresh_get]⟩
  | succ n ih =>
      obtain ⟨hc, hget⟩ := ih (Nat.le_of_succ_le hn)
      rw [List.range_succ, List.foldl_append, List.foldl_cons, List.foldl_nil]
      by_cases hb : c.baseAt n = 0
      · rw [if_pos hb]
        refine ⟨hc, fun k hk s => ?_⟩
        rw [hget k hk, Nat.lt_succ_iff_lt_or_eq]
        refine and_congr_left fun hs => (or_iff_left ?_).symm
        rintro rfl
        exact hs.1 hb
      · rw [if_neg hb]
        have hcls : ∀ k ∈ List.range bd.directory.classes, k < bd.small.sizes.count := fun k hk =>
          bd.classes_eq ▸ List.mem_range.mp hk
        obtain ⟨hc', hget'⟩ := rebuild_get (List.range bd.directory.classes) hc hcls
          (lt_of_lt_of_le hn h.count) (c.head (c.baseAt n))
        refine ⟨hc', fun k hk s => ?_⟩
        rw [hget', hget k hk, Nat.lt_succ_iff_lt_or_eq, List.mem_range, bd.classes_eq]
        constructor
        · rintro (⟨-, rfl, hs⟩ | ⟨hlt, hs⟩)
          · exact ⟨.inr rfl, hb, hs⟩
          · exact ⟨.inl hlt, hs⟩
        · rintro ⟨hlt | rfl, hs⟩
          · exact .inr ⟨hlt, hs⟩
          · exact .inl ⟨hk, rfl, hs.2⟩

lemma Wf.materialize (h : c.Wf bd root q) (granted : Bool) :
    ∃ d, c.maybeMaterializeDirectory bd granted = c.withDirectory d ∧
      (c.withDirectory d).Wf bd root q := by
  have hself : c.withDirectory c.alloc.directory = c := rfl
  simp only [maybeMaterializeDirectory]
  split_ifs
  · exact ⟨c.alloc.directory, rfl, hself ▸ h⟩
  · exact ⟨c.alloc.directory, rfl, hself ▸ h⟩
  · exact ⟨c.alloc.directory, rfl, hself ▸ h⟩
  · refine ⟨_, rfl, h.withDirectory fun d hd => ?_⟩
    obtain rfl := Option.some.inj hd
    obtain ⟨hc, hget⟩ := h.rebuild c.count le_rfl
    refine ⟨hc, fun k hk s _ => (hget k hk s).trans (and_iff_right_of_imp fun hs => ?_)⟩
    exact (baseAt_ne hs.1).1

/-! ## Hits -/

/-- A hit is taken from the pool. -/
lemma Wf.unpoolHit (h : c.Wf bd root q) (ht : c.Tidy q) (hr : c.alloc.registered base = true)
    (hsome : c.head base cls ≠ none) :
    ∃ c', c.unpoolIfPresent base = some c' ∧ c'.Found bd root cls (some base) ∧
      c'.alloc.directory = c.alloc.directory ∧
      ∀ env P, Visits bd env c c' P := by
  obtain ⟨pool, n, he, hw, hout⟩ := h.unpool hr
  refine ⟨_, he, ⟨_, hw, tidyBut_unpool (h.tidyBut ht base), fun b hb => ?_⟩, rfl, fun env P =>
    visits_quiet rfl rfl rfl rfl rfl rfl rfl rfl le_rfl⟩
  obtain rfl := Option.some.inj hb
  exact ⟨hr, hsome, hout⟩

/-- The end of a hit. -/
lemma Wf.finalizeHit (h : c.Wf bd root q) (ht : c.Tidy q) (hcls : cls < bd.small.sizes.count)
    (hr : c.alloc.registered base = true) (hsome : c.head base cls ≠ none) (heal : Bool) :
    ∃ c', c.finalizeHit bd base cls heal = some c' ∧ c'.Found bd root cls (some base) ∧
      ∀ env P, Visits bd env c c' P := by
  obtain ⟨c₁, he, ⟨q₁, hw, ht₁, hhit⟩, -, hv⟩ := h.unpoolHit ht hr hsome
  obtain ⟨hr₁, hsome₁, hout⟩ := hhit base rfl
  rw [Core.finalizeHit, he]
  cases heal with
  | false =>
      exact ⟨c₁, rfl, ⟨q₁, hw, ht₁, hhit⟩, hv⟩
  | true =>
      refine ⟨_, rfl, ⟨q₁, hw.publishNonempty hcls hr₁ hsome₁, ht₁, fun b hb => ?_⟩, fun env P =>
        (hv env P).trans (visits_quiet rfl rfl rfl rfl rfl rfl rfl rfl le_rfl)⟩
      obtain rfl := Option.some.inj hb
      exact ⟨hr₁, hsome₁, hout⟩

/-! ## Drains on the way -/

lemma Wf.drainSegmentSidecar (h : c.Wf bd root q) (ht : c.Tidy q)
    (hr : c.alloc.registered base = true) (env : ℕ → Answers) :
    ∃ c' out q', c.drainSegmentSidecar bd env base = some (c', out) ∧ c'.Wf bd root q' ∧
      c'.Tidy q' ∧ Drained bd env c c' base (fun _ => c.isRouted) ∧
      (out = .decommitted false ↔ c'.alloc.registered base = false) := by
  rw [Core.drainSegmentSidecar]
  cases hroute : c.isRouted with
  | false =>
      refine ⟨c, .skipped, q, rfl, h, ht, ⟨.refl c, fun _ _ => ⟨rfl, fun _ => rfl⟩, fun _ _ _ => rfl⟩,
        by simp [hr]⟩
  | true =>
      rw [if_neg (by simp)]
      exact h.drainCut ht hr env fun _ => true

/-! ## Candidates of the directory -/

lemma Found.miss (h : c.Found bd root cls none) : ∃ q, c.Wf bd root q ∧ c.Tidy q := by
  obtain ⟨q, hw, ht, -⟩ := h
  exact ⟨q, hw, ht⟩

lemma Wf.found (h : c.Wf bd root q) (ht : c.Tidy q) (cls : ℕ) : c.Found bd root cls none :=
  ⟨q, h, ht, fun _ hb => absurd hb (by simp)⟩

/-- A stale candidate loses its bit. -/
lemma Wf.missCandidate (h : c.Wf bd root q) (ht : c.Tidy q) (hcls : cls < bd.small.sizes.count)
    (hclear : c.Clear cls slot) (hslot : slot < maxSegments) :
    (c.publishEmpty bd cls slot).Found bd root cls none ∧
      (c.publishEmpty bd cls slot).Clear cls slot ∧
      ∀ env P, Visits bd env c (c.publishEmpty bd cls slot) P :=
  ⟨(h.publishEmpty hcls hclear hslot).found ht cls, hclear, fun _ _ =>
    visits_quiet rfl rfl rfl rfl rfl rfl rfl rfl le_rfl⟩

lemma Wf.validateDirectoryCandidate (h : c.Wf bd root q) (ht : c.Tidy q)
    (hcls : cls < bd.small.sizes.count) (hslot : slot < maxSegments) (env : ℕ → Answers)
    (drain : Bool) :
    ∃ c' hit, c.validateDirectoryCandidate bd env cls slot drain = some (c', hit) ∧
      c'.Found bd root cls hit ∧ Visits bd env c c' (· = slot) ∧
      (hit = none → c'.Clear cls slot) := by
  rw [Core.validateDirectoryCandidate]
  by_cases h0 : c.baseAt slot = 0
  · obtain ⟨hfound, hclear, hv⟩ := h.missCandidate ht hcls (fun hne => absurd h0 hne) hslot
    exact ⟨_, none, if_pos h0, hfound, hv env _, fun _ => hclear⟩
  obtain ⟨-, -, hr, -⟩ := baseAt_ne h0
  rw [if_neg h0]
  -- With a drain or without, what is left is to look at the segment once more.
  obtain ⟨c₁, out, q₁, he, hw, ht₁, hv, hout⟩ : ∃ c₁ out q₁,
      (if drain = true then c.drainSegmentSidecar bd env (c.baseAt slot)
        else some (c, .skipped)) = some (c₁, out) ∧ c₁.Wf bd root q₁ ∧ c₁.Tidy q₁ ∧
      Visits bd env c c₁ (· = slot) ∧
      (out = .decommitted false ↔ c₁.alloc.registered (c.baseAt slot) = false) := by
    cases drain with
    | false => exact ⟨c, .skipped, q, rfl, h, ht, .refl c, by simp [hr]⟩
    | true =>
        obtain ⟨c₁, out, q₁, he, hw, ht₁, hd, hout⟩ := h.drainSegmentSidecar ht hr env
        exact ⟨c₁, out, q₁, he, hw, ht₁, hd.visits rfl h, hout⟩
  rw [he]
  simp only [Option.bind_eq_bind, Option.bind_some]
  have hb := hv.toSeeks.baseAt slot
  by_cases hgone : out = .decommitted false
  · rw [if_pos hgone]
    rw [if_neg (by simp [hout.mp hgone])] at hb
    exact ⟨c₁, none, rfl, hw.found ht₁ cls, hv, fun _ hne => absurd hb hne⟩
  · rw [if_neg hgone]
    have hr₁ : c₁.alloc.registered (c.baseAt slot) = true := by
      by_contra hno
      exact hgone (hout.mpr (Bool.eq_false_iff.mpr hno))
    rw [if_pos hr₁] at hb
    by_cases hnone : c₁.head (c.baseAt slot) cls = none
    · have hclear : c₁.Clear cls slot := fun _ => by rw [hb, hnone]
      obtain ⟨hfound, hclear', hv'⟩ := hw.missCandidate ht₁ hcls hclear hslot
      exact ⟨_, none, if_pos hnone, hfound, hv.trans (hv' env _), fun _ => hclear'⟩
    · obtain ⟨c₂, he₂, hfound, -, hv₂⟩ := hw.unpoolHit ht₁ hr₁ hnone
      refine ⟨c₂, some (c.baseAt slot), ?_, hfound, hv.trans (hv₂ env _), by simp⟩
      rw [if_neg hnone, he₂]
      rfl

/-- A walk over candidates ends with the first segment that has a free block of the class. -/
lemma Wf.scanCandidates (slots : List ℕ) (h : c.Wf bd root q) (ht : c.Tidy q)
    (hcls : cls < bd.small.sizes.count) (hslots : ∀ s ∈ slots, s < maxSegments)
    (env : ℕ → Answers) (drain : Bool) :
    ∃ c' hit, scanCandidates bd env cls drain slots c = some (c', hit) ∧
      c'.Found bd root cls hit ∧ Seeks bd env c c' ∧
      (hit = none → ∀ s, c.Clear cls s ∨ s ∈ slots → c'.Clear cls s) := by
  induction slots generalizing c q with
  | nil => exact ⟨c, none, rfl, h.found ht cls, .refl c, fun _ s hs => by simpa using hs⟩
  | cons slot slots ih =>
      obtain ⟨c₁, hit, he, hfound, hv, hmiss⟩ :=
        h.validateDirectoryCandidate ht hcls (hslots slot List.mem_cons_self) env drain
      rw [Core.scanCandidates, he]
      cases hit with
      | some base => exact ⟨c₁, some base, rfl, hfound, hv.toSeeks, by simp⟩
      | none =>
          obtain ⟨q₁, hw, ht₁⟩ := hfound.miss
          obtain ⟨c', hit, he', hfound', hs, hmiss'⟩ :=
            ih hw ht₁ fun s hs => hslots s (List.mem_cons_of_mem _ hs)
          refine ⟨c', hit, he', hfound', hv.toSeeks.trans hs, fun hn s hc => hmiss' hn s ?_⟩
          by_cases hsl : s = slot
          · subst hsl
            exact .inl (hmiss rfl)
          · refine hc.imp (hv.clear hsl) fun hm => ?_
            exact (List.mem_cons.mp hm).resolve_left hsl

/-- When a directory names no candidate that is left, no segment has a free block of the class. -/
lemma Wf.scanDirectoryCandidates (h : c.Wf bd root q) (ht : c.Tidy q)
    (hcls : cls < bd.small.sizes.count) (env : ℕ → Answers) (drain : Bool) :
    ∃ c' hit, c.scanDirectoryCandidates bd env cls drain = some (c', hit) ∧
      c'.Found bd root cls hit ∧ Seeks bd env c c' ∧
      (hit = none → c.alloc.directory.isSome = true → ∀ s, c'.Clear cls s) := by
  rw [Core.scanDirectoryCandidates]
  cases hd : c.alloc.directory with
  | none => exact ⟨c, none, rfl, h.found ht cls, .refl c, fun _ hno => absurd hno (by simp)⟩
  | some d =>
      obtain ⟨c', hit, he, hfound, hs, hmiss⟩ := h.scanCandidates
        (Directory.candidates d bd.directory.maxNodes cls) ht hcls
        (fun s hs => Directory.lt_of_mem_candidates hs) env drain
      refine ⟨c', hit, he, hfound, hs, fun hn _ s => hmiss hn s ?_⟩
      by_cases hbit : s < maxSegments ∧ d.get 0 cls s = true
      · exact .inr (bd.shared.symm ▸ Directory.mem_candidates hbit.1 hbit.2)
      · refine .inl fun h0 => not_ne_iff.mp fun hsome => hbit ?_
        have hlt := (baseAt_ne h0).1.trans_le h.count
        exact ⟨hlt, ((h.directory d hd).exact cls hcls s hlt).mpr ⟨h0, hsome⟩⟩

/-! ## Notified slots -/

lemma Wf.drainNotifiedSlot (h : c.Wf bd root q) (ht : c.Tidy q) (env : ℕ → Answers)
    (slot cls : ℕ) :
    ∃ c' hit q', c.drainNotifiedSlot bd env slot cls = some (c', hit) ∧ c'.Wf bd root q' ∧
      c'.Tidy q' ∧ Visits bd env c c' (· = slot) ∧ (hit = none → c'.Clear cls slot) ∧
      ∀ base ∈ hit, base ≠ 0 ∧ c'.baseAt slot = base ∧ c'.head base cls ≠ none := by
  rw [Core.drainNotifiedSlot]
  by_cases h0 : c.baseAt slot = 0
  · exact ⟨c, none, q, if_pos h0, h, ht, .refl c, fun _ hne => absurd h0 hne, by simp⟩
  obtain ⟨-, -, hr, -⟩ := baseAt_ne h0
  obtain ⟨c', out, q', he, hw, ht', hd, hout⟩ := h.drainSegmentSidecar ht hr env
  rw [if_neg h0, he]
  by_cases hhit : out ≠ .decommitted false ∧ c'.head (c.baseAt slot) cls ≠ none
  · refine ⟨c', some (c.baseAt slot), q', ?_, hw, ht', hd.visits rfl h, by simp, fun b hb => ?_⟩
    · exact congrArg (fun hit => some (c', hit)) (if_pos hhit)
    · obtain rfl := Option.some.inj hb
      have hr' : c'.alloc.registered (c.baseAt slot) = true := by
        by_contra hno
        exact hhit.1 (hout.mpr (Bool.eq_false_iff.mpr hno))
      exact ⟨h0, by rw [hd.toSeeks.baseAt, if_pos hr'], hhit.2⟩
  · refine ⟨c', none, q', ?_, hw, ht', hd.visits rfl h, fun _ => hd.clear rfl hout hhit, by simp⟩
    exact congrArg (fun hit => some (c', hit)) (if_neg hhit)

/-- All notified slots are drained; the first hit stays one, and without a hit no slot gets a free
block of the class. -/
lemma Wf.takeNotified (slots : List ℕ) (h : c.Wf bd root q) (ht : c.Tidy q) (hnodup : slots.Nodup)
    (env : ℕ → Answers) (cls : ℕ) :
    ∃ c' hit q', takeNotified bd env cls slots c = some (c', hit) ∧ c'.Wf bd root q' ∧
      c'.Tidy q' ∧ Visits bd env c c' (· ∈ slots) ∧
      (hit = none → ∀ s, c.Clear cls s → c'.Clear cls s) ∧
      ∀ base ∈ hit, c'.alloc.registered base = true ∧ c'.head base cls ≠ none := by
  induction slots generalizing c q with
  | nil => exact ⟨c, none, q, rfl, h, ht, .refl c, fun _ _ hs => hs, by simp⟩
  | cons slot slots ih =>
      rw [List.nodup_cons] at hnodup
      obtain ⟨c₁, hit₁, q₁, he₁, hw₁, ht₁, hv₁, hmiss₁, hhit₁⟩ :=
        h.drainNotifiedSlot ht env slot cls
      obtain ⟨c', hit, q', he, hw, ht', hv, hmiss, hhit⟩ := ih hw₁ ht₁ hnodup.2
      have hvisits : Visits bd env c c' (· ∈ slot :: slots) :=
        (hv₁.mono fun s hs => hs ▸ List.mem_cons_self).trans (hv.mono fun s =>
          List.mem_cons_of_mem _)
      refine ⟨c', hit₁ <|> hit, q', ?_, hw, ht', hvisits, fun hn s hc => ?_, fun base hb => ?_⟩
      · rw [Core.takeNotified, he₁]
        simp only [Option.bind_eq_bind, Option.bind_some, he]
        rfl
      · cases hit₁ with
        | some base => simp at hn
        | none =>
            refine hmiss (by simpa using hn) s ?_
            by_cases hs : s = slot
            · subst hs
              exact hmiss₁ rfl
            · exact hv₁.clear hs hc
      · cases hit₁ with
        | none => exact hhit base (by simpa using hb)
        | some base₁ =>
            obtain rfl : base₁ = base := by simpa using hb
            obtain ⟨h0, hbase, hsome⟩ := hhit₁ base₁ rfl
            obtain ⟨hbase', hhome⟩ := hv.others slot hnodup.1 (hbase.symm ▸ h0)
            rw [hbase] at hbase' hhome
            refine ⟨?_, ?_⟩
            · have := (baseAt_ne (hbase'.symm ▸ h0)).2.2.1
              rwa [hbase'] at this
            · exact (congrArg (fun home : Home => home.seg.head cls) hhome).trans_ne hsome

lemma Wf.processIngress (h : c.Wf bd root q) (ht : c.Tidy q) (hcls : cls < bd.small.sizes.count)
    (env : ℕ → Answers) :
    ∃ c' hit, c.processIngress bd env cls = some (c', hit) ∧ c'.Found bd root cls hit ∧
      Seeks bd env c c' ∧ (hit = none → ∀ s, c.Clear cls s → c'.Clear cls s) := by
  set c₁ : Core := { c with clock := c.clock + 1 } with hc₁
  have hw₁ : c₁.Wf bd root q := h.congr rfl rfl rfl rfl rfl
  have hask : Visits bd env c c₁ (fun _ => False) :=
    visits_quiet rfl rfl rfl rfl rfl rfl rfl rfl (Nat.le_succ _)
  have hnodup : ((List.range maxSegments).filter (env c.clock).notified).Nodup :=
    List.nodup_range.filter _
  obtain ⟨c₂, hit, q₂, he, hw₂, ht₂, hv, hmiss, hhit⟩ :=
    hw₁.takeNotified _ (show c₁.Tidy q from ht) hnodup env cls
  have hseeks := hask.toSeeks.trans hv.toSeeks
  rw [Core.processIngress, ask]
  simp only [Option.bind_eq_bind]
  rw [show Core.takeNotified bd env cls ((List.range maxSegments).filter (env c.clock).notified)
    { c with clock := c.clock + 1 } = _ from he]
  cases hit with
  | none =>
      refine ⟨c₂, none, rfl, hw₂.found ht₂ cls, hseeks, fun _ s hs => hmiss rfl s ?_⟩
      exact hask.clear not_false hs
  | some base =>
      obtain ⟨hr, hsome⟩ := hhit base rfl
      obtain ⟨c₃, he₃, hfound, hv₃⟩ := hw₂.finalizeHit ht₂ hcls hr hsome false
      refine ⟨c₃, some base, ?_, hfound, hseeks.trans (hv₃ env (fun _ => False)).toSeeks, by simp⟩
      simp only [Option.bind_some, he₃]
      rfl

/-! ## The linear scan -/

/-- Only the window and the counters of the search move. -/
lemma Wf.window (h : c.Wf bd root q) (ht : c.Tidy q) (window : ℕ → BitVec 32) :
    ({ c with window := window } : Core).Wf bd root q ∧ ({ c with window := window } : Core).Tidy q ∧
      ∀ env P, Visits bd env c { c with window := window } P :=
  ⟨h.congr rfl rfl rfl rfl rfl, ht, fun _ _ =>
    visits_quiet rfl rfl rfl rfl rfl rfl rfl rfl le_rfl⟩

lemma resetSidecarDeferStreak_eq (c : Core) : ∃ window, c.resetSidecarDeferStreak =
    { c with window := window } := by
  rw [resetSidecarDeferStreak]
  split_ifs
  · exact ⟨_, rfl⟩
  · exact ⟨c.window, rfl⟩

lemma noteEmptySidecarScan_eq (c : Core) (n : ℕ) : ∃ window, c.noteEmptySidecarScan n =
    { c with window := window } := by
  simp only [noteEmptySidecarScan]
  split_ifs
  · exact ⟨_, rfl⟩
  · exact ⟨_, rfl⟩

/-- What a scan leaves behind it: no free block of the class, and if it drained, none that was
published before. -/
def Passed (bd : Build) (env : ℕ → Answers) (root : ℕ) (c c' : Core) (cls : ℕ)
    (deferDrains : Bool) (slot : ℕ) : Prop :=
  c'.Clear cls slot ∧ (deferDrains = false → c.isRouted = true → ∀ c₀ q₀, c₀.Wf bd root q₀ →
    Seeks bd env c₀ c → Combed c₀ c' cls slot)

lemma Passed.after {deferDrains : Bool} {P : ℕ → Prop} {c₁ : Core}
    (h : Passed bd env root c c₁ cls deferDrains slot) (hv : Visits bd env c₁ c' P)
    (hs : ¬P slot) : Passed bd env root c c' cls deferDrains slot :=
  ⟨hv.clear hs h.1, fun hd hr c₀ q₀ hw hc => hv.toSeeks.combed (h.2 hd hr c₀ q₀ hw hc)⟩

lemma Passed.before {deferDrains : Bool} {c₁ : Core}
    (h : Passed bd env root c₁ c' cls deferDrains slot) (hc : Seeks bd env c c₁) :
    Passed bd env root c c' cls deferDrains slot :=
  ⟨h.1, fun hd hr c₀ q₀ hw hc₀ => h.2 hd (hc.isRouted.trans hr) c₀ q₀ hw (hc₀.trans hc)⟩

/-- An empty slot has nothing to pass. -/
lemma passed_empty {deferDrains : Bool} (h0 : c'.baseAt slot = 0) :
    Passed bd env root c c' cls deferDrains slot :=
  ⟨fun hne => absurd h0 hne, fun _ _ _ _ _ _ hne => absurd h0 hne⟩

lemma Wf.scanSlot (h : c.Wf bd root q) (ht : c.Tidy q) (h0 : c.baseAt slot ≠ 0)
    (env : ℕ → Answers) (cls : ℕ) (deferDrains : Bool) (p : Progress) :
    ∃ c' p' hit q', Core.scanSlot bd env cls slot deferDrains p c = some (c', p', hit) ∧
      c'.Wf bd root q' ∧ c'.Tidy q' ∧ Visits bd env c c' (· = slot) ∧
      p'.visited = slot :: p.visited ∧
      (∀ base ∈ hit, base = c.baseAt slot ∧ c'.alloc.registered base = true ∧
        c'.head base cls ≠ none) ∧
      (hit = none → Passed bd env root c c' cls deferDrains slot) := by
  obtain ⟨-, -, hr, -⟩ := baseAt_ne h0
  simp only [Core.scanSlot]
  by_cases hdrain : c.head (c.baseAt slot) cls = none ∧ deferDrains = false
  · obtain ⟨c₁, out, q₁, he, hw, ht₁, hd, hout⟩ := h.drainSegmentSidecar ht hr env
    rw [if_pos hdrain, he]
    simp only [Option.bind_eq_bind, Option.bind_some]
    -- A first reclaimed block ends the streak of empty scans.
    obtain ⟨window, hwindow⟩ : ∃ window, (if p.reclaimed = false ∧ out ≠ .skipped
        then c₁.resetSidecarDeferStreak else c₁) = { c₁ with window := window } := by
      split_ifs
      · exact resetSidecarDeferStreak_eq c₁
      · exact ⟨c₁.window, rfl⟩
    obtain ⟨hw₂, ht₂, hv₂⟩ := hw.window ht₁ window
    rw [hwindow]
    have hv : Visits bd env c { c₁ with window := window } (· = slot) :=
      (hd.visits rfl h).trans (hv₂ env _)
    refine ⟨_, _, _, q₁, rfl, hw₂, ht₂, hv, ?_, fun base hb => ?_, fun hmiss => ?_⟩
    · split_ifs <;> rfl
    · split_ifs at hb with hhit
      · obtain rfl := Option.some.inj hb
        refine ⟨rfl, ?_, hhit.2⟩
        by_contra hno
        exact hhit.1 (hout.mpr (Bool.eq_false_iff.mpr hno))
      · simp at hb
    · split_ifs at hmiss with hhit
      have hclear : c₁.Clear cls slot := hd.clear rfl hout hhit
      refine ⟨hclear, fun _ hroute c₀ q₀ hw₀ hc₀ hne => ?_⟩
      change ∀ r ∈ c₀.pending (c₁.baseAt slot), r.2 ≠ cls
      have hne₁ : c₁.baseAt slot ≠ 0 := hne
      have hr₁ := (baseAt_ne hne₁).2.2.1
      refine (hc₀.trans hd.toSeeks).swept hw₀ hw hr₁ ?_ (hclear hne₁)
      rw [hd.toSeeks.baseAt_of_ne hne₁] at hr₁ ⊢
      refine List.eq_nil_iff_forall_not_mem.mpr fun r hm => ?_
      exact Bool.false_ne_true ((hd.pending hr₁ r hm).symm.trans hroute)
  · rw [if_neg hdrain]
    refine ⟨c, _, _, q, rfl, h, ht, .refl c, rfl, fun base hb => ?_, fun hmiss => ?_⟩
    · split_ifs at hb with hsome
      · obtain rfl := Option.some.inj hb
        exact ⟨rfl, hr, hsome⟩
      · simp at hb
    · split_ifs at hmiss with hsome
      have hnone := not_ne_iff.mp hsome
      exact ⟨fun _ => hnone, fun hd => absurd ⟨hnone, hd⟩ hdrain⟩

/-- The active slots of a range. -/
def active (c : Core) (slot stop : ℕ) : List ℕ :=
  (List.range' slot (stop - slot)).filter fun s => c.baseAt s ≠ 0

lemma active_empty {stop : ℕ} (h : ∀ s, slot ≤ s → s < stop → c.baseAt s = 0) :
    c.active slot stop = [] := by
  refine List.filter_eq_nil_iff.mpr fun s hs => ?_
  obtain ⟨hle, hlt⟩ := List.mem_range'_1.mp hs
  simpa using h s hle (by omega)

/-- The first active slot, and those behind it, which a drain of the first does not change. -/
lemma active_cons {stop : ℕ} (hx : slot ≤ x) (hstop : x < stop) (h0 : c.baseAt x ≠ 0)
    (h : ∀ s, slot ≤ s → s < x → c.baseAt s = 0)
    (hsame : ∀ s, x < s → (c'.baseAt s = 0 ↔ c.baseAt s = 0)) :
    c.active slot stop = x :: c'.active (x + 1) stop := by
  have hsplit : List.range' slot (stop - slot) =
      List.range' slot (x - slot) ++ x :: List.range' (x + 1) (stop - (x + 1)) := by
    have h1 : stop - slot = (x - slot) + ((stop - (x + 1)) + 1) := by omega
    have h2 : slot + (x - slot) = x := by omega
    rw [h1, ← List.range'_append_1, h2, List.range'_succ]
  have hfront : (List.range' slot (x - slot)).filter (fun s => c.baseAt s ≠ 0) = [] :=
    active_empty h
  rw [active, hsplit, List.filter_append, hfront, List.nil_append,
    List.filter_cons_of_pos (by simpa using h0), active]
  refine congrArg (x :: ·) (List.filter_congr fun s hs => ?_)
  have := (List.mem_range'_1.mp hs).1
  simp only [ne_eq, hsame s (by omega)]

/-- A scan of a range visits its active slots in order, up to a hit or all of them. -/
lemma Wf.scanRange (fuel : ℕ) {hi : ℕ} (h : c.Wf bd root q) (ht : c.Tidy q)
    (hcls : cls < bd.small.sizes.count) (env : ℕ → Answers) (deferDrains heal : Bool)
    (p : Progress) (hfuel : hi ≤ slot + fuel) :
    ∃ c' p' hit k, Core.scanRange bd env cls deferDrains heal hi fuel slot p c =
        some (c', p', hit) ∧ c'.Found bd root cls hit ∧
      Visits bd env c c' (fun s => slot ≤ s ∧ s < k) ∧ slot ≤ k ∧
      p'.visited = (c.active slot k).reverse ++ p.visited ∧
      (∀ base ∈ hit, slot < k ∧ k ≤ hi ∧ c.baseAt (k - 1) = base) ∧
      (hit = none → k = max slot hi) ∧
      ∀ s, slot ≤ s → s < k → (hit = none ∨ s + 1 < k) →
        Passed bd env root c c' cls deferDrains s := by
  -- A range without an active slot is passed without a visit.
  have hidle : ∀ {slot : ℕ} {c : Core} {q : List ℕ} (p : Progress), c.Wf bd root q → c.Tidy q →
      (∀ s, slot ≤ s → s < hi → c.baseAt s = 0) →
      c.Found bd root cls none ∧ slot ≤ max slot hi ∧
        p.visited = (c.active slot (max slot hi)).reverse ++ p.visited ∧
        ∀ s, slot ≤ s → s < max slot hi → Passed bd env root c c cls deferDrains s := by
    intro slot c q p hw ht hzero
    have hempty : ∀ s, slot ≤ s → s < max slot hi → c.baseAt s = 0 := fun s hs hlt =>
      hzero s hs ((lt_max_iff.mp hlt).resolve_left (not_lt.mpr hs))
    refine ⟨hw.found ht cls, le_max_left .., ?_, fun s hs hlt =>
      passed_empty (hempty s hs hlt)⟩
    rw [active_empty hempty]
    rfl
  induction fuel generalizing slot p c q with
  | zero =>
      obtain ⟨hf, hle, hvis, hpass⟩ := hidle p h ht fun s hs hlt =>
        absurd hlt (not_lt.mpr (hfuel.trans hs))
      exact ⟨c, p, none, _, rfl, hf, .refl c, hle, hvis, by simp, fun _ => rfl,
        fun s hs hlt _ => hpass s hs hlt⟩
  | succ fuel ih =>
      rw [Core.scanRange]
      cases hnext : c.nextActive slot with
      | none =>
          obtain ⟨hf, hle, hvis, hpass⟩ := hidle p h ht fun s hs _ =>
            nextActive_none hnext s hs
          exact ⟨c, p, none, _, rfl, hf, .refl c, hle, hvis, by simp, fun _ => rfl,
            fun s hs hlt _ => hpass s hs hlt⟩
      | some i =>
          obtain ⟨hle, -, h0, hzero⟩ := nextActive_some hnext
          dsimp only
          by_cases hhi : hi ≤ i
          · obtain ⟨hf, hle, hvis, hpass⟩ := hidle p h ht fun s hs hlt =>
              hzero s hs (hlt.trans_le hhi)
            exact ⟨c, p, none, _, if_pos hhi, hf, .refl c, hle, hvis, by simp, fun _ => rfl,
              fun s hs hlt _ => hpass s hs hlt⟩
          rw [if_neg hhi]
          obtain ⟨c₁, p₁, hit₁, q₁, he, hw₁, ht₁, hv₁, hvis₁, hhit₁, hmiss₁⟩ :=
            h.scanSlot ht h0 env cls deferDrains p
          have hsame : ∀ s, i < s → (c₁.baseAt s = 0 ↔ c.baseAt s = 0) := fun s hs => by
            by_cases hs0 : c.baseAt s = 0
            · refine iff_of_true (not_ne_iff.mp fun hne => hne ?_) hs0
              rw [hv₁.toSeeks.baseAt_of_ne hne, hs0]
            · rw [(hv₁.others s hs.ne' hs0).1]
          rw [he]
          cases hit₁ with
          | some base =>
              obtain ⟨rfl, hr, hsome⟩ := hhit₁ _ rfl
              obtain ⟨c₂, he₂, hfound, hv₂⟩ := hw₁.finalizeHit ht₁ hcls hr hsome heal
              have hactive : c.active slot (i + 1) = [i] := by
                rw [active_cons hle (Nat.lt_succ_self i) h0 hzero fun s _ => Iff.rfl]
                exact congrArg (i :: ·) (active_empty fun s hs hlt => by omega)
              refine ⟨c₂, p₁, some (c.baseAt i), i + 1, ?_, hfound,
                (hv₁.mono fun s hs => ⟨hs ▸ hle, by omega⟩).trans (hv₂ env _), by omega, ?_,
                fun b hb => ⟨by omega, by omega, Option.some.inj hb⟩, by simp, fun s hs hlt hor => ?_⟩
              · simp only [Option.bind_eq_bind, Option.bind_some, he₂]
                rfl
              · rw [hvis₁, hactive]
                rfl
              · have hsi : s < i := by
                  obtain hno | hlt' := hor
                  · simp at hno
                  · omega
                refine passed_empty ?_
                by_contra hne
                have := ((hv₁.toSeeks.trans (hv₂ env (fun _ => False)).toSeeks).baseAt_of_ne hne)
                exact hne (this.trans (hzero s hs hsi))
          | none =>
              have hfuel₁ : hi ≤ i + 1 + fuel := by omega
              obtain ⟨c', p', hit, k, he', hfound, hv, hk, hvis, hhit, hmiss, hpass⟩ :=
                ih hw₁ ht₁ p₁ hfuel₁
              have hpassed := hmiss₁ rfl
              refine ⟨c', p', hit, k, he', hfound, (hv₁.mono fun s hs => ⟨hs ▸ hle, by omega⟩).trans
                (hv.mono fun s hs => ⟨by omega, hs.2⟩), by omega, ?_, fun b hb => ?_,
                fun hn => ?_, fun s hs hlt hor => ?_⟩
              · rw [hvis, hvis₁, active_cons hle (by omega) h0 hzero hsame, List.reverse_cons,
                  List.append_assoc]
                rfl
              · obtain ⟨hlt, hk', hb'⟩ := hhit b hb
                refine ⟨by omega, hk', ?_⟩
                obtain ⟨q', hw', -, hall⟩ := hfound
                have hb0 : c₁.baseAt (k - 1) ≠ 0 := hb'.symm ▸ hw'.ne_zero (hall b hb).1
                rw [← hb', hv₁.toSeeks.baseAt_of_ne hb0]
              · rw [hmiss hn]
                omega
              · by_cases hsi : s = i
                · subst hsi
                  exact hpassed.after hv fun hs' => by omega
                · by_cases hlt' : s < i
                  · refine passed_empty ?_
                    by_contra hne
                    have := (hv₁.toSeeks.trans hv.toSeeks).baseAt_of_ne hne
                    exact hne (this.trans (hzero s hs hlt'))
                  · exact (hpass s (by omega) hlt hor).before hv₁.toSeeks

lemma active_upTo {stop stop' : ℕ} (h : stop ≤ stop') : c.active slot stop <+: c.active slot stop' := by
  refine List.IsPrefix.filter _ ?_
  have hsplit : stop' - slot = (stop - slot) + (stop' - max slot stop) := by omega
  rw [hsplit, ← List.range'_append_1]
  exact List.prefix_append ..

lemma active_congr {stop : ℕ} (h : ∀ s, slot ≤ s → s < stop → (c'.baseAt s = 0 ↔ c.baseAt s = 0)) :
    c'.active slot stop = c.active slot stop := by
  refine List.filter_congr fun s hs => ?_
  obtain ⟨hle, hlt⟩ := List.mem_range'_1.mp hs
  simp only [ne_eq, h s hle (by omega)]

lemma active_self {stop : ℕ} (h : slot ≤ stop) (h0 : c.baseAt stop ≠ 0) :
    c.active slot (stop + 1) = c.active slot stop ++ [stop] := by
  have hsplit : stop + 1 - slot = (stop - slot) + 1 := by omega
  have hlast : slot + (stop - slot) = stop := by omega
  rw [active, hsplit, List.range'_1_concat, List.filter_append, hlast]
  simp [active, h0]

/-- The first slot that a scan visits. -/
def scanStart (c : Core) (cls : ℕ) : ℕ := (c.classCursorScanStart cls c.count).getD 0

lemma scanStart_le (c : Core) (cls : ℕ) : c.scanStart cls ≤ c.count := by
  rw [scanStart, classCursorScanStart]
  cases c.alloc.smallClassCursor cls with
  | none => exact Nat.zero_le _
  | some slot =>
      rw [Option.bind_some]
      split_ifs with hlt
      · exact hlt
      · exact Nat.zero_le _

/-- The slots of a scan: the active ones behind the class cursor, and those up to it. -/
def scanOrder (c : Core) (cls : ℕ) : List ℕ :=
  c.active (c.scanStart cls) c.count ++ c.active 0 (c.scanStart cls)

lemma mem_active {s stop : ℕ} : s ∈ c.active slot stop ↔ (slot ≤ s ∧ s < stop) ∧ c.baseAt s ≠ 0 := by
  rw [active, List.mem_filter, List.mem_range'_1, decide_eq_true_iff]
  refine and_congr_left fun _ => and_congr_right fun hle => ?_
  omega

lemma scanOrder_nodup (c : Core) (cls : ℕ) : (c.scanOrder cls).Nodup := by
  refine List.Nodup.append (.filter _ List.nodup_range') (.filter _ List.nodup_range')
    fun s hs hs' => ?_
  exact absurd (mem_active.mp hs').1.2 (mem_active.mp hs).1.1.not_gt

lemma mem_scanOrder (c : Core) (cls slot : ℕ) : slot ∈ c.scanOrder cls ↔ c.baseAt slot ≠ 0 := by
  rw [scanOrder, List.mem_append, mem_active, mem_active]
  constructor
  · rintro (⟨-, h0⟩ | ⟨-, h0⟩) <;> exact h0
  · intro h0
    have hlt := (baseAt_ne h0).1
    obtain hle | hlt' := le_or_gt (c.scanStart cls) slot
    · exact .inl ⟨⟨hle, hlt⟩, h0⟩
    · exact .inr ⟨⟨Nat.zero_le _, hlt'⟩, h0⟩

/-- A scan visits the active slots once each, from the class cursor on, and ends with the first
that has a free block of the class, or passes them all. -/
structure ScansAround (bd : Build) (env : ℕ → Answers) (root : ℕ) (c c' : Core) (cls : ℕ)
    (deferDrains : Bool) (visited : List ℕ) (hit : Option ℕ) : Prop where
  found : c'.Found bd root cls hit
  seeks : Seeks bd env c c'
  order : visited <+: c.scanOrder cls
  last : ∀ base ∈ hit, ∃ slot, visited.getLast? = some slot ∧ c.baseAt slot = base
  earlier : ∀ s ∈ visited, visited.getLast? ≠ some s → Passed bd env root c c' cls deferDrains s
  all : hit = none → visited = c.scanOrder cls ∧ ∀ s, Passed bd env root c c' cls deferDrains s

lemma Wf.scanAround (h : c.Wf bd root q) (ht : c.Tidy q) (hcls : cls < bd.small.sizes.count)
    (env : ℕ → Answers) (deferDrains heal : Bool) :
    ∃ c' p hit, c.scanAround bd env cls deferDrains heal = some (c', p, hit) ∧
      ScansAround bd env root c c' cls deferDrains p.visited.reverse hit := by
  have hstart := c.scanStart_le cls
  have hfuel : c.count ≤ c.scanStart cls + (c.count - c.scanStart cls) := by omega
  obtain ⟨c₁, p₁, hit₁, k₁, he₁, hfound₁, hv₁, hle₁, hvis₁, hhit₁, hmiss₁, hpass₁⟩ :=
    h.scanRange (c.count - c.scanStart cls) ht hcls env deferDrains heal ⟨0, false, []⟩ hfuel
  rw [List.append_nil] at hvis₁
  rw [Core.scanAround]
  change ∃ c' p hit, (Core.scanRange bd env cls deferDrains heal c.count
    (c.count - c.scanStart cls) (c.scanStart cls) ⟨0, false, []⟩ c).bind _ = _ ∧ _
  rw [he₁, Option.bind_some]
  cases hit₁ with
  | some base =>
      obtain ⟨hlt, hk, hbase⟩ := hhit₁ base rfl
      obtain ⟨q₁, hw₁, -, hall⟩ := id hfound₁
      obtain ⟨k, rfl⟩ := Nat.exists_eq_succ_of_ne_zero (by omega : k₁ ≠ 0)
      have hbase' : c.baseAt k = base := hbase
      have h0 : c.baseAt k ≠ 0 := hbase'.symm ▸ hw₁.ne_zero (hall base rfl).1
      have hvis : p₁.visited.reverse = c.active (c.scanStart cls) k ++ [k] := by
        rw [hvis₁, List.reverse_reverse, active_self (by omega) h0]
      refine ⟨c₁, p₁, some base, rfl, hfound₁, hv₁.toSeeks, ?_, fun b hb => ⟨k, ?_, ?_⟩,
        fun s hs hlast => ?_, by simp⟩
      · rw [hvis₁, List.reverse_reverse]
        exact (active_upTo hk).trans (List.prefix_append ..)
      · rw [hvis, List.getLast?_concat]
      · exact hbase'.trans (Option.some.inj hb)
      · rw [hvis, List.mem_append, List.mem_singleton] at hs
        rw [hvis, List.getLast?_concat] at hlast
        obtain ⟨⟨hle, hlt'⟩, -⟩ := mem_active.mp (hs.resolve_right fun he => hlast (he ▸ rfl))
        exact hpass₁ s hle (by omega) (.inr (by omega))
  | none =>
      obtain ⟨q₁, hw₁, ht₁⟩ := hfound₁.miss
      have hk₁ : k₁ = c.count := by rw [hmiss₁ rfl, max_eq_right hstart]
      subst hk₁
      have hfuel' : c.scanStart cls ≤ 0 + c.scanStart cls := by omega
      obtain ⟨c', p, hit, k, he, hfound, hv, -, hvis, hhit, hmiss, hpass⟩ :=
        hw₁.scanRange (c.scanStart cls) ht₁ hcls env deferDrains heal p₁ hfuel'
      have hsame : ∀ s, s < c.scanStart cls → c₁.baseAt s = c.baseAt s := fun s hs => by
        by_cases h0 : c.baseAt s = 0
        · refine (not_ne_iff.mp fun hne => hne ?_).trans h0.symm
          rw [hv₁.toSeeks.baseAt_of_ne hne, h0]
        · exact (hv₁.others s (by omega) h0).1
      have hactive : ∀ stop, stop ≤ c.scanStart cls → c₁.active 0 stop = c.active 0 stop :=
        fun stop hstop => active_congr fun s _ hs => by rw [hsame s (by omega)]
      have hseeks := hv₁.toSeeks.trans hv.toSeeks
      have hk : k ≤ c.scanStart cls := by
        cases hit with
        | none => rw [hmiss rfl, Nat.zero_max]
        | some base => exact (hhit base rfl).2.1
      -- The first range is passed, and the second one leaves it alone.
      have hfirst : ∀ s, c.scanStart cls ≤ s → s < c.count →
          Passed bd env root c c' cls deferDrains s := fun s hs hs' =>
        (hpass₁ s hs hs' (.inl rfl)).after hv fun hh => by omega
      have hvis' : p.visited.reverse = c.active (c.scanStart cls) c.count ++ c.active 0 k := by
        rw [hvis, hvis₁, hactive k hk, ← List.reverse_append, List.reverse_reverse]
      refine ⟨c', p, hit, he, hfound, hseeks, ?_, fun b hb => ?_, fun s hs hlast => ?_, fun hn => ?_⟩
      · rw [hvis']
        exact List.prefix_append_right_inj _ |>.mpr (active_upTo hk)
      · obtain ⟨hlt, hk, hbase⟩ := hhit b hb
        obtain ⟨q', hw', -, hall⟩ := id hfound
        obtain ⟨k, rfl⟩ := Nat.exists_eq_succ_of_ne_zero (by omega : k ≠ 0)
        have hbase' : c₁.baseAt k = b := hbase
        have h0 : c₁.baseAt k ≠ 0 := hbase'.symm ▸ hw'.ne_zero (hall b hb).1
        refine ⟨k, ?_, (hsame k (by omega)).symm.trans hbase'⟩
        rw [hvis, hvis₁, active_self (Nat.zero_le _) h0, ← List.reverse_append,
          List.reverse_reverse, ← List.append_assoc, List.getLast?_concat]
      · rw [hvis', List.mem_append] at hs
        obtain hs | hs := hs
        · obtain ⟨⟨hle, hlt⟩, -⟩ := mem_active.mp hs
          exact hfirst s hle hlt
        · obtain ⟨⟨-, hlt⟩, h0⟩ := mem_active.mp hs
          refine (hpass s (Nat.zero_le _) hlt (.inr ?_)).before hv₁.toSeeks
          by_contra hge
          obtain rfl : k = s + 1 := by omega
          rw [hvis', active_self (Nat.zero_le _) h0, ← List.append_assoc,
            List.getLast?_concat] at hlast
          exact hlast rfl
      · have hk : k = c.scanStart cls := by rw [hmiss hn, Nat.zero_max]
        subst hk
        refine ⟨?_, fun s => ?_⟩
        · rw [hvis, hvis₁, hactive _ le_rfl, ← List.reverse_append, List.reverse_reverse]
          rfl
        · by_cases hs : s < c.scanStart cls
          · exact (hpass s (Nat.zero_le _) hs (.inl hn)).before hv₁.toSeeks
          · by_cases hs' : s < c.count
            · exact hfirst s (not_lt.mp hs) hs'
            · refine passed_empty ?_
              by_contra h0
              have := (baseAt_ne h0).1
              rw [hseeks.count] at this
              exact hs' this

lemma Wf.linearScan (h : c.Wf bd root q) (ht : c.Tidy q) (hcls : cls < bd.small.sizes.count)
    (env : ℕ → Answers) (deferDrains heal : Bool) :
    ∃ c' hit, c.linearScan bd env cls deferDrains heal = some (c', hit) ∧
      c'.Found bd root cls hit ∧ Seeks bd env c c' ∧
      (hit = none → ∀ s, Passed bd env root c c' cls deferDrains s) := by
  set c₁ : Core := { c with clock := c.clock + 1 } with hc₁
  have hw₁ : c₁.Wf bd root q := h.congr rfl rfl rfl rfl rfl
  obtain ⟨d, hd, hw₂⟩ := hw₁.materialize (env c.clock).directory
  have hquiet : Visits bd env c (c₁.withDirectory d) (fun _ => False) :=
    visits_quiet rfl rfl rfl rfl rfl rfl rfl rfl (Nat.le_succ _)
  obtain ⟨c', p, hit, he, hscan⟩ :=
    hw₂.scanAround (show (c₁.withDirectory d).Tidy q from ht) hcls env deferDrains heal
  have hseeks := hquiet.toSeeks.trans hscan.seeks
  rw [Core.linearScan, ask]
  simp only [Option.bind_eq_bind]
  rw [show Core.maybeMaterializeDirectory bd { c with clock := c.clock + 1 }
    (env c.clock).directory = c₁.withDirectory d from hd, he]
  cases hit with
  | some base => exact ⟨c', some base, rfl, hscan.found, hseeks, by simp⟩
  | none =>
      obtain ⟨q', hw', ht'⟩ := hscan.found.miss
      obtain ⟨window, hwindow⟩ : ∃ window, (if p.drainedBytes ≠ 0 ∧ p.reclaimed = false
          then c'.noteEmptySidecarScan p.drainedBytes else c') = { c' with window := window } := by
        split_ifs
        · exact noteEmptySidecarScan_eq ..
        · exact ⟨c'.window, rfl⟩
      obtain ⟨hw₃, ht₃, hv₃⟩ := hw'.window ht' window
      refine ⟨{ c' with window := window }, none, ?_, hw₃.found ht₃ cls,
        hseeks.trans (hv₃ env (fun _ => False)).toSeeks, fun _ s => ?_⟩
      · rw [Option.bind_some, ← hwindow]
        rfl
      · exact (((hscan.all rfl).2 s).before hquiet.toSeeks).after (hv₃ env fun _ => False) not_false

/-! ## The search -/

/-- The class cursor gets the slot of a hit. -/
lemma Found.recordClassCursor (h : c.Found bd root cls (some base)) (k : ℕ) :
    (c.recordClassCursor k base).Found bd root cls (some base) ∧
      ∀ env P, Visits bd env c (c.recordClassCursor k base) P := by
  obtain ⟨q, hw, ht, hhit⟩ := id h
  rw [Core.recordClassCursor]
  split_ifs
  · exact ⟨h, fun _ _ => .refl c⟩
  · refine ⟨⟨q, ⟨hw.sound.beside rfl rfl rfl, hw.pool, hw.committed, hw.placed, hw.aligned, hw.count,
      hw.root, hw.pending, fun k' slot hk => ?_, fun d hd => ⟨(hw.directory d hd).counted,
        (hw.directory d hd).exact⟩, hw.frontier⟩, ht, hhit⟩,
      fun _ _ => visits_quiet rfl rfl rfl rfl rfl rfl rfl rfl le_rfl⟩
    change c.baseAt slot ≠ 0
    change Function.update c.alloc.smallClassCursor k _ k' = some slot at hk
    by_cases hkk : k' = k
    · subst hkk
      rw [Function.update_self] at hk
      obtain rfl := Option.some.inj hk
      have hr := (hhit base rfl).1
      rw [hw.baseAt_slot hr]
      exact hw.ne_zero hr
    · rw [Function.update_of_ne hkk] at hk
      exact hw.cursors k' slot hk

/-- The directory's part of a search; a miss that is trusted leaves no free block of the class. -/
lemma Wf.searchDirectory (h : c.Wf bd root q) (ht : c.Tidy q) (hcls : cls < bd.small.sizes.count)
    (env : ℕ → Answers) (rescue : Bool) :
    ∃ c' hit trusted, c.searchDirectory bd env cls rescue = some (c', hit, trusted) ∧
      c'.Found bd root cls hit ∧ Seeks bd env c c' ∧
      (trusted = true → hit = none ∧ rescue = false ∧ ∀ s, c'.Clear cls s) := by
  simp only [Core.searchDirectory]
  by_cases hnone : c.alloc.directory.isNone = true
  · exact ⟨c, none, false, if_pos hnone, h.found ht cls, .refl c, by simp⟩
  have hsome : c.alloc.directory.isSome = true := by
    cases hd : c.alloc.directory with
    | none => simp [hd] at hnone
    | some d => rfl
  rw [if_neg hnone]
  set ingress := !rescue && c.ingressArmed with hingress
  obtain ⟨c₁, hit₁, he₁, hfound₁, hs₁, hmiss₁⟩ := h.scanDirectoryCandidates ht hcls env (!ingress)
  rw [he₁]
  cases hit₁ with
  | some base => exact ⟨c₁, some base, false, rfl, hfound₁, hs₁, by simp⟩
  | none =>
      obtain ⟨q₁, hw₁, ht₁⟩ := hfound₁.miss
      have hclear₁ := hmiss₁ rfl hsome
      -- The ingress is asked only when it is armed.
      obtain ⟨c₂, hit₂, he₂, hfound₂, hs₂, hmiss₂⟩ : ∃ c₂ hit₂,
          (if ingress = true then c₁.processIngress bd env cls else some (c₁, none)) =
            some (c₂, hit₂) ∧ c₂.Found bd root cls hit₂ ∧ Seeks bd env c₁ c₂ ∧
          (hit₂ = none → ∀ s, c₁.Clear cls s → c₂.Clear cls s) := by
        split_ifs
        · exact hw₁.processIngress ht₁ hcls env
        · exact ⟨c₁, none, rfl, hfound₁, .refl c₁, fun _ _ hs => hs⟩
      simp only [Option.bind_eq_bind, Option.bind_some, he₂]
      cases hit₂ with
      | some base => exact ⟨c₂, some base, false, rfl, hfound₂, hs₁.trans hs₂, by simp⟩
      | none =>
          obtain ⟨q₂, hw₂, ht₂⟩ := hfound₂.miss
          have hstreak : ∀ n, ({ c₂ with missStreak := Function.update c₂.missStreak cls n } :
              Core).Found bd root cls none ∧ Visits bd env c₂
                { c₂ with missStreak := Function.update c₂.missStreak cls n } fun _ => False :=
            fun n => ⟨⟨q₂, hw₂.congr rfl rfl rfl rfl rfl, ht₂, by simp⟩,
              visits_quiet rfl rfl rfl rfl rfl rfl rfl rfl le_rfl⟩
          dsimp only
          split_ifs with htrust hfew
          · refine ⟨_, none, true, rfl, (hstreak _).1, (hs₁.trans hs₂).trans (hstreak _).2.toSeeks,
              fun _ => ⟨rfl, ?_, fun s => (hstreak _).2.clear not_false
                (hmiss₂ rfl s (hclear₁ s))⟩⟩
            cases rescue with
            | false => rfl
            | true => simp at htrust
          · exact ⟨_, none, false, rfl, (hstreak _).1, (hs₁.trans hs₂).trans (hstreak _).2.toSeeks,
              by simp⟩
          · exact ⟨c₂, none, false, rfl, hfound₂, hs₁.trans hs₂, by simp⟩

/-- What a search comes to: a hit is a segment with a free block of the class, and a miss leaves
none; a forced search of a routed core also leaves nothing of the class that was published. -/
structure Searches (bd : Build) (env : ℕ → Answers) (root : ℕ) (c c' : Core) (cls : ℕ)
    (rescue : Bool) (hit : Option ℕ) : Prop where
  found : c'.Found bd root cls hit
  seeks : Seeks bd env c c'
  miss : hit = none → ∀ s, c'.Clear cls s
  rescued : hit = none → rescue = true → c.isRouted = true → ∀ s, Combed c c' cls s

lemma Wf.findSegmentWithFree (h : c.Wf bd root q) (ht : c.Tidy q)
    (hcls : cls < bd.small.sizes.count) (env : ℕ → Answers) (rescue : Bool) :
    ∃ c' hit, c.findSegmentWithFree bd env cls rescue = some (c', hit) ∧
      Searches bd env root c c' cls rescue hit := by
  have hrecord : ∀ {c₁ : Core} {base : ℕ}, c₁.Found bd root cls (some base) → Seeks bd env c c₁ →
      Searches bd env root c (c₁.recordClassCursor cls base) cls rescue (some base) := by
    intro c₁ base hfound hs
    obtain ⟨hfound', hv⟩ := hfound.recordClassCursor cls
    exact ⟨hfound', hs.trans (hv env fun _ => False).toSeeks, by simp, by simp⟩
  simp only [Core.findSegmentWithFree]
  obtain ⟨c₁, hit₁, trusted, he₁, hfound₁, hs₁, htrust⟩ := h.searchDirectory ht hcls env rescue
  rw [he₁]
  simp only [Option.bind_eq_bind, Option.bind_some]
  cases hit₁ with
  | some base => exact ⟨_, some base, rfl, hrecord hfound₁ hs₁⟩
  | none =>
      cases trusted with
      | true =>
          obtain ⟨-, rfl, hclear⟩ := htrust rfl
          exact ⟨c₁, none, rfl, hfound₁, hs₁, fun _ => hclear, by simp⟩
      | false =>
          obtain ⟨q₁, hw₁, ht₁⟩ := hfound₁.miss
          dsimp only
          set deferDrains := (!rescue && c.ingressArmed) ||
            (!rescue && c.isRouted && c.sidecarDrainsDeferred (bd.small.sizes.blockSize cls))
            with hdefer
          obtain ⟨c₂, hit₂, he₂, hfound₂, hs₂, hmiss₂⟩ := hw₁.linearScan ht₁ hcls env deferDrains
            (rescue || c.alloc.directory.isSome)
          rw [he₂]
          simp only [Option.bind_some]
          cases hit₂ with
          | some base => exact ⟨_, some base, rfl, hrecord hfound₂ (hs₁.trans hs₂)⟩
          | none =>
              obtain ⟨q₂, hw₂, ht₂⟩ := hfound₂.miss
              dsimp only
              by_cases hingress : (!rescue && c.ingressArmed) = true
              · obtain ⟨c₃, hit₃, he₃, hfound₃, hs₃, hmiss₃⟩ := hw₂.processIngress ht₂ hcls env
                rw [if_pos hingress, he₃]
                have hforced : rescue = false := by
                  cases rescue with
                  | false => rfl
                  | true => simp at hingress
                have hs := (hs₁.trans hs₂).trans hs₃
                cases hit₃ with
                | some base => exact ⟨_, some base, rfl, hrecord hfound₃ hs⟩
                | none =>
                    exact ⟨c₃, none, rfl, hfound₃, hs, fun _ s => hmiss₃ rfl s (hmiss₂ rfl s).1,
                      by simp [hforced]⟩
              · rw [if_neg hingress]
                refine ⟨c₂, none, rfl, hfound₂, hs₁.trans hs₂, fun _ s => (hmiss₂ rfl s).1,
                  fun _ hforced hroute s => ?_⟩
                refine (hmiss₂ rfl s).2 ?_ (hs₁.isRouted.trans hroute) c q h hs₁
                simp [hdefer, hforced]

/-- The segment of the class cursor is probed first. -/
lemma Wf.cursorProbeBase (h : c.Wf bd root q) (ht : c.Tidy q) (cls : ℕ) (env : ℕ → Answers) :
    ∃ c' hit, c.cursorProbeBase cls = some (c', hit) ∧ c'.Found bd root cls hit ∧
      Seeks bd env c c' := by
  rw [Core.cursorProbeBase]
  cases hcursor : c.alloc.smallClassCursor cls with
  | none => exact ⟨c, none, rfl, h.found ht cls, .refl c⟩
  | some slot =>
      dsimp only
      split_ifs with hgone hnone
      · have hv : Visits bd env c (c.withAlloc { c.alloc with
            smallClassCursor := Function.update c.alloc.smallClassCursor cls none }) fun _ => False :=
          visits_quiet rfl rfl rfl rfl rfl rfl rfl rfl le_rfl
        refine ⟨_, none, rfl, ⟨q, ⟨h.sound.beside rfl rfl rfl, h.pool, h.committed, h.placed,
          h.aligned, h.count, h.root, h.pending, fun k s hk => ?_, fun d hd =>
          ⟨(h.directory d hd).counted, (h.directory d hd).exact⟩, h.frontier⟩, ht, by simp⟩,
          hv.toSeeks⟩
        change c.baseAt s ≠ 0
        change Function.update c.alloc.smallClassCursor cls none k = some s at hk
        by_cases hkc : k = cls
        · subst hkc
          simp at hk
        · rw [Function.update_of_ne hkc] at hk
          exact h.cursors k s hk
      · exact ⟨c, none, rfl, h.found ht cls, .refl c⟩
      · have h0 : c.baseAt slot ≠ 0 := fun h0 => hgone (.inr h0)
        obtain ⟨c', he, hfound, -, hv⟩ := h.unpoolHit ht (baseAt_ne h0).2.2.1 hnone
        refine ⟨c', some (c.baseAt slot), ?_, hfound, (hv env fun _ => False).toSeeks⟩
        rw [he]
        rfl

end Core

end SmallCore

end SeferAlloc
