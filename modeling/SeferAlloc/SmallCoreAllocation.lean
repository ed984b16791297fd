import SeferAlloc.SmallCoreSearch

/-!
# Allocations and refills

An allocation hands out one block that was out for nobody, and it answers null
only if no segment is left with a free block of the class. A refill hands out
at most the blocks that are wanted. Between the two the pool releases segments,
and a new segment comes in the place of the current one.
-/
namespace SeferAlloc
namespace SmallCore
open Small SmallBatch SmallBatch.AllocCore ScanBackoff

/-- The blocks of the pointers are handed out. -/
def handOut (cls : ℕ) (st : BlockState) (ps : List ℕ) : List (Lending.Event Block BlockState) :=
  ps.map fun p => .issue (blockOf cls p) st

/-- An operation from one sound core to another; `es` are its events but for those of others. -/
structure Does (bd : Build) (env : ℕ → Answers) (root : ℕ) (c : Core)
    (es : List (Lending.Event Block BlockState)) (c' : Core) : Prop where
  ready : c'.Ready bd root
  trace : ∃ all, Traced bd env c all c' ∧ all.filter Lending.Event.own = es

/-- A slot without a free block of a class does not get one. -/
def Dries (c c' : Core) : Prop := ∀ cls slot, c.Clear cls slot → c'.Clear cls slot

section
variable {bd : Build} {env : ℕ → Answers} {root base cls : ℕ} {c c₁ c' : Core} {q : List ℕ}
  {es es' : List (Lending.Event Block BlockState)} {out : List ℕ} {st : BlockState}

lemma Does.trans (h : Does bd env root c es c₁) (h' : Does bd env root c₁ es' c') :
    Does bd env root c (es ++ es') c' := by
  obtain ⟨all, htrace, hown⟩ := h.trace
  obtain ⟨all', htrace', hown'⟩ := h'.trace
  exact ⟨h'.ready, all ++ all', htrace.append htrace', by rw [List.filter_append, hown, hown']⟩

/-- A search comes before the operation on what it found. -/
lemma Seeks.before (h : Seeks bd env c c₁) (h' : Does bd env root c₁ es c') :
    Does bd env root c es c' := by
  obtain ⟨all, htrace, hf⟩ := h.trace
  obtain ⟨all', htrace', hown⟩ := h'.trace
  refine ⟨h'.ready, all ++ all', htrace.append htrace', ?_⟩
  rw [List.filter_append, hown, List.filter_eq_nil_iff.mpr, List.nil_append]
  intro e he
  rw [(hf e he).own]
  exact Bool.false_ne_true

lemma Seeks.does (h : Seeks bd env c c') (hr : c'.Ready bd root) : Does bd env root c [] c' := by
  obtain ⟨all, htrace, hf⟩ := h.trace
  refine ⟨hr, all, htrace, List.filter_eq_nil_iff.mpr fun e he => ?_⟩
  rw [(hf e he).own]
  exact Bool.false_ne_true

/-- The blocks stay with whom they are. -/
lemma Does.silent (hr : c'.Ready bd root) (hl : c'.ledger = c.ledger) (hclock : c.clock ≤ c'.clock) :
    Does bd env root c [] c' := ⟨hr, [], .silent hl hclock, rfl⟩

lemma Dries.refl (c : Core) : Dries c c := fun _ _ h => h

lemma Dries.trans (h : Dries c c₁) (h' : Dries c₁ c') : Dries c c' := fun k s hs => h' k s (h k s hs)

/-- A pointer tells the segment of its block. -/
lemma Core.Wf.base_of_ptr (h : c.Wf bd root q) {x : ℕ} (hheld : c.held (base, x, cls) ≠ none) :
    segmentBaseOfPtr (base + x) = base ∧ base + x - base = x := by
  obtain ⟨hr, hcarved, -⟩ := Core.held_ne_none.mp hheld
  obtain ⟨-, -, -, hend, hbump⟩ := h.placed_block (p := (base, x, cls)) hr hcarved
  have hpos := (bd.small.sizes.blockSize_granular cls).1
  have ha := h.aligned base hr
  dsimp only at *
  simp only [segmentBaseOfPtr, segment] at *
  omega

lemma Issued.held (h : Issued bd root c c' q base cls out st) {x : ℕ} (hx : x ∈ out) :
    c'.held (base, x, cls) = some st := by
  change c'.ledger.held _ = _
  rw [h.ledger]
  exact if_pos (List.mem_map_of_mem hx)

/-- The events of a batch, in terms of its pointers. -/
lemma Issued.events (h : Issued bd root c c' q base cls out st) :
    issues base cls st out = handOut cls st (out.map (base + ·)) := by
  rw [issues, handOut, List.map_map]
  refine List.map_congr_left fun x hx => ?_
  obtain ⟨hbase, hoff⟩ := h.wf.base_of_ptr ((h.held hx).trans_ne (Option.some_ne_none st))
  simp only [Function.comp_apply, blockOf, hbase, hoff]

lemma Issued.does (h : Issued bd root c c' q base cls out st) (env : ℕ → Answers)
    (ht : c.TidyBut q base) (hout : out ≠ [] ∨ base = c.smallCur) :
    Does bd env root c (handOut cls st (out.map (base + ·))) c' := by
  refine ⟨⟨q, h.wf, h.tidy ht hout⟩, _, h.traced env, ?_⟩
  rw [h.events]
  refine List.filter_eq_self.mpr fun e he => ?_
  obtain ⟨p, -, rfl⟩ := List.mem_map.mp he
  rfl

/-- The order in which blocks are carved is not that of the slots. -/
lemma Issued.perm {out' : List ℕ} (h : Issued bd root c c' q base cls out st)
    (hp : out.Perm out') : Issued bd root c c' q base cls out' st := by
  exact ⟨h.wf, h.step, h.clock, h.ledger.trans (Lending.setAll_perm (hp.map _) _),
    fun x hx => h.fresh x (hp.mem_iff.mpr hx), hp.nodup_iff.mp h.nodup,
    fun hne => h.live fun he => hne (List.perm_nil.mp (he ▸ hp.symm)), h.slots⟩

/-- A carve puts nothing on a list. -/
lemma Issued.dries (h : Issued bd root c c' q base cls out st)
    (hhead : (c'.seg base).head = (c.seg base).head) : Dries c c' := fun k slot hclear h0 => by
  have hb : c'.baseAt slot = c.baseAt slot := by
    refine Core.baseAt_congr h.slots.1 h.slots.2 h.step.about.registered (fun x _ => ?_) slot
    by_cases hx : x = base
    · subst hx
      exact h.step.slot
    · exact congrArg Home.segmentId (h.step.about.homes x hx)
  rw [hb] at h0 ⊢
  by_cases hx : c.baseAt slot = base
  · have hnone := hclear h0
    rw [hx] at hnone ⊢
    exact (congrFun hhead k).trans hnone
  · exact (congrArg (fun home : Home => home.seg.head k) (h.step.about.homes _ hx)).trans
      (hclear h0)

end

namespace Core
variable {bd : Build} {env : ℕ → Answers} {root base slot cls x : ℕ} {c c' : Core} {q : List ℕ}
  {st : BlockState}

/-! ## Pops and drains of lists -/

/-- A hit is popped. -/
lemma Found.popFree (h : c.Found bd root cls (some base)) (env : ℕ → Answers) :
    ∃ c' p, c.popFree bd base cls = some (c', .ok (some p)) ∧
      Does bd env root c (handOut cls .live [p]) c' ∧ c'.smallCur = c.smallCur := by
  obtain ⟨q, hw, ht, hhit⟩ := h
  obtain ⟨hr, hsome, hq⟩ := hhit base rfl
  obtain ⟨c', x, he, hi⟩ := hw.popFree hr hq hsome
  exact ⟨c', base + x, he, hi.does env ht (.inl (List.cons_ne_nil x [])),
    hi.step.about.current⟩

/-- A hit is drained. -/
lemma Found.tryDrainFreelistBatch (h : c.Found bd root cls (some base)) (env : ℕ → Answers)
    {want : ℕ} (hwant : want ≠ 0) (hst : st ≠ .free) :
    ∃ c' ps, c.tryDrainFreelistBatch bd base cls want st = some (c', ps) ∧
      Does bd env root c (handOut cls st ps) c' ∧ ps ≠ [] ∧ ps.length ≤ want := by
  obtain ⟨q, hw, ht, hhit⟩ := h
  obtain ⟨hr, hsome, hq⟩ := hhit base rfl
  obtain ⟨c', out, he, hi, hlen, hempty⟩ := hw.tryDrainFreelistBatch hr hq cls want hst
  have hne : out ≠ [] := fun hnil => (hempty.mp hnil).elim hwant hsome
  refine ⟨c', out.map (base + ·), he, hi.does env ht (.inl hne), ?_, ?_⟩
  · simpa using hne
  · simpa using hlen

lemma Wf.popCurrent (h : c.Wf bd root q) (ht : c.Tidy q) (cls : ℕ) (env : ℕ → Answers) :
    ∃ c' r, c.popFree bd c.smallCur cls = some (c', .ok r) ∧
      Does bd env root c (handOut cls .live r.toList) c' ∧ (r = none → c' = c) := by
  by_cases hnone : c.head c.smallCur cls = none
  · exact ⟨c, none, popFree_none hnone, .silent ⟨q, h, ht⟩ rfl le_rfl, fun _ => rfl⟩
  · obtain ⟨c', x, he, hi⟩ := h.popFree h.current h.current_notMem hnone
    exact ⟨c', some (c.smallCur + x), he, hi.does env (h.tidyBut ht _) (.inr rfl), by simp⟩

lemma Wf.drainCurrent (h : c.Wf bd root q) (ht : c.Tidy q) (cls : ℕ) (env : ℕ → Answers) (want : ℕ)
    (hst : st ≠ .free) :
    ∃ c' ps, c.tryDrainFreelistBatch bd c.smallCur cls want st = some (c', ps) ∧
      Does bd env root c (handOut cls st ps) c' ∧ ps.length ≤ want := by
  obtain ⟨c', out, he, hi, hlen, -⟩ :=
    h.tryDrainFreelistBatch h.current h.current_notMem cls want hst
  exact ⟨c', _, he, hi.does env (h.tidyBut ht _) (.inr rfl), by simpa using hlen⟩

lemma Wf.popFromClassCursor (h : c.Wf bd root q) (ht : c.Tidy q) (cls : ℕ) (env : ℕ → Answers) :
    ∃ c' r, c.popFromClassCursor bd cls = some (c', .ok r) ∧
      Does bd env root c (handOut cls .live r.toList) c' := by
  obtain ⟨c₁, hit, he, hfound, hs⟩ := h.cursorProbeBase ht cls env
  rw [Core.popFromClassCursor, he]
  cases hit with
  | none => exact ⟨c₁, none, rfl, hs.does hfound.miss⟩
  | some base =>
      obtain ⟨c', p, he', hd, -⟩ := hfound.popFree env
      exact ⟨c', some p, he', hs.before hd⟩

lemma Wf.batchDrainFromClassCursor (h : c.Wf bd root q) (ht : c.Tidy q) (cls : ℕ)
    (env : ℕ → Answers) {want : ℕ} (hwant : want ≠ 0) (hst : st ≠ .free) :
    ∃ c' ps, c.batchDrainFromClassCursor bd cls want st = some (c', ps) ∧
      Does bd env root c (handOut cls st ps) c' ∧ ps.length ≤ want := by
  obtain ⟨c₁, hit, he, hfound, hs⟩ := h.cursorProbeBase ht cls env
  rw [Core.batchDrainFromClassCursor, he]
  cases hit with
  | none => exact ⟨c₁, [], rfl, hs.does hfound.miss, Nat.zero_le _⟩
  | some base =>
      obtain ⟨c', ps, he', hd, -, hlen⟩ := hfound.tryDrainFreelistBatch env hwant hst
      exact ⟨c', ps, he', hs.before hd, hlen⟩

/-- Without a block, nothing of the class is free. -/
lemma Wf.allocSmallViaDiscovery (h : c.Wf bd root q) (ht : c.Tidy q)
    (hcls : cls < bd.small.sizes.count) (env : ℕ → Answers) :
    ∃ c' r, c.allocSmallViaDiscovery bd env cls = some (c', .ok r) ∧
      Does bd env root c (handOut cls .live r.toList) c' ∧ (r = none → ∀ s, c'.Clear cls s) := by
  obtain ⟨c₁, r₁, he₁, hd₁⟩ := h.popFromClassCursor ht cls env
  rw [Core.allocSmallViaDiscovery, he₁]
  cases r₁ with
  | some p => exact ⟨c₁, some p, rfl, hd₁, by simp⟩
  | none =>
      obtain ⟨q₁, hw₁, ht₁⟩ := hd₁.ready
      obtain ⟨c₂, hit, he₂, hs⟩ := hw₁.findSegmentWithFree ht₁ hcls env false
      simp only [Option.bind_eq_bind, Option.bind_some, he₂]
      cases hit with
      | none => exact ⟨c₂, none, rfl, hd₁.trans (hs.seeks.does hs.found.miss), fun _ => hs.miss rfl⟩
      | some base =>
          obtain ⟨c', p, he', hd, -⟩ := hs.found.popFree env
          exact ⟨c', some p, he', hd₁.trans (hs.seeks.before hd), by simp⟩

/-! ## Carves -/

/-- A block that was carved just now is freed again. -/
lemma Wf.freeCarved (hw : c.Wf bd root q) (ht : c.Tidy q)
    (h : Issued bd root c c' q c.smallCur cls [x] .live) :
    ∃ alloc q', c'.alloc.deallocSmall bd.toBuild c.smallCur x cls = some alloc ∧
      (c'.touch alloc c.smallCur ((c'.blocks c.smallCur).put x .free)).Wf bd root q' ∧
      (c'.touch alloc c.smallCur ((c'.blocks c.smallCur).put x .free)).Tidy q' ∧
      (c'.touch alloc c.smallCur ((c'.blocks c.smallCur).put x .free)).ledger = c.ledger ∧
      alloc.smallCur = c.smallCur := by
  have ht' := h.tidy (hw.tidyBut ht _) (.inr rfl)
  have hheld := h.held (List.mem_singleton_self x)
  obtain ⟨hr, hcarved, hne⟩ := held_ne_none.mp (hheld.trans_ne (Option.some_ne_none _))
  obtain ⟨hbase, hoff⟩ := h.wf.base_of_ptr (hheld.trans_ne (Option.some_ne_none _))
  have hblock : blockOf cls (c.smallCur + x) = (c.smallCur, x, cls) := by
    simp only [blockOf, hbase, hoff]
  have hlive : (c'.blocks c.smallCur).place x = .live := by
    have hin := hheld
    rw [held, if_pos hr, heldIn, if_pos ⟨hcarved, hne⟩] at hin
    exact Option.some.inj hin
  have hret : c'.Returnable cls (c.smallCur + x) := by
    refine ⟨?_, ?_⟩
    · rw [hblock, hheld]
      exact Option.some_ne_none _
    · rw [hblock, h.ledger]
      exact fun hann => hw.sane _ hann (h.fresh x (List.mem_singleton_self x))
  have hp : c.smallCur + x ≠ 0 := by
    have := hw.ne_zero hw.current
    omega
  have hunpark : c'.alloc.unpark bd.toBuild (c.smallCur + x) = c'.alloc := by
    have hhere : (c.smallCur + x - segmentBaseOfPtr (c.smallCur + x), cls) ∈
        (c'.blocks (segmentBaseOfPtr (c.smallCur + x))).carved ∧
        (c'.blocks (segmentBaseOfPtr (c.smallCur + x))).place
          (c.smallCur + x - segmentBaseOfPtr (c.smallCur + x)) = .live := by
      rw [hbase, hoff]
      exact ⟨hcarved, hlive⟩
    exact h.wf.sound.unpark_live fun _ _ => hhere
  have hout := h.wf.notMem_pending hret
  rw [hbase, hoff] at hout
  obtain ⟨alloc, q', he, hw', ht'', hledger, hcur, -⟩ := h.wf.free ht' hp hbase hr
    (hoff.symm ▸ hcarved) (hoff.symm ▸ hne) (hoff.symm ▸ hout)
  rw [hoff] at hw' ht'' hledger
  refine ⟨alloc, q', ?_, hw', ht'', ?_, hcur.trans h.step.about.current⟩
  · rw [hunpark, deallocPtr, hbase, hoff, if_neg (not_or.mpr ⟨hp, by simp [hr]⟩)] at he
    exact he
  · rw [hledger, h.ledger]
    refine Lending.Ledger.ext (funext fun b => ?_) rfl
    by_cases hb : b = (c.smallCur, x, cls)
    · subst hb
      rw [Lending.set_held_self]
      exact (h.fresh x (List.mem_singleton_self x)).symm
    · rw [Lending.set_held_of_ne hb]
      exact if_neg (by simpa using hb)

/-- The blocks behind the one that is handed out. -/
lemma Wf.carveAndFree (n : ℕ) (h : c.Wf bd root q) (ht : c.Tidy q) (hcls : cls < bd.small.sizes.count)
    (env : ℕ → Answers) :
    ∃ c', c.carveAndFree bd env cls n = some c' ∧ Does bd env root c [] c' ∧
      c'.smallCur = c.smallCur := by
  induction n generalizing c q with
  | zero => exact ⟨c, rfl, .silent ⟨q, h, ht⟩ rfl le_rfl, rfl⟩
  | succ n ih =>
      obtain ⟨c₁, off, he₁, hi, -⟩ := h.carveBlock hcls env
      rw [Core.carveAndFree, he₁]
      cases off with
      | none =>
          exact ⟨c₁, rfl, hi.does env (h.tidyBut ht _) (.inr rfl), hi.step.about.current⟩
      | some x =>
          obtain ⟨alloc, q₂, he₂, hw₂, ht₂, hledger, hcur⟩ := h.freeCarved ht hi
          obtain ⟨c', he', hd, hcur'⟩ := ih hw₂ ht₂
          have hcur₁ : c₁.smallCur = c.smallCur := hi.step.about.current
          refine ⟨c', ?_, ?_, hcur'.trans hcur⟩
          · simp only [Option.bind_eq_bind, Option.bind_some, hcur₁, he₂]
            exact he'
          · exact (Does.silent ⟨q₂, hw₂, ht₂⟩ hledger hi.clock).trans hd

lemma Wf.carveBlockWithRefill (h : c.Wf bd root q) (ht : c.Tidy q) (hcls : cls < bd.small.sizes.count)
    (env : ℕ → Answers) :
    ∃ c' r, c.carveBlockWithRefill bd env cls = some (c', r) ∧
      Does bd env root c (handOut cls .live r.toList) c' ∧ (r = none → Dries c c') := by
  obtain ⟨c₁, off, he₁, hi, hhead⟩ := h.carveBlock hcls env
  rw [Core.carveBlockWithRefill, he₁]
  have hd₁ := hi.does env (h.tidyBut ht _) (.inr rfl)
  cases off with
  | none => exact ⟨c₁, none, rfl, hd₁, fun _ => hi.dries hhead⟩
  | some x =>
      obtain ⟨q₁, hw₁, ht₁⟩ := hd₁.ready
      obtain ⟨c', he', hd, -⟩ := hw₁.carveAndFree refillBatch ht₁ hcls env
      have hcur₁ : c₁.smallCur = c.smallCur := hi.step.about.current
      have hboth := hd₁.trans hd
      rw [List.append_nil] at hboth
      refine ⟨c', some (c.smallCur + x), ?_, hboth, by simp⟩
      simp only [Option.bind_eq_bind, Option.bind_some, he', hcur₁]
      rfl

end Core

/-! ## Segments that leave -/

/-- Segments without a block that is out leave the pool and the table. -/
structure Releases (bd : Build) (root : ℕ) (c c' : Core) : Prop where
  ready : c'.Ready bd root
  ledger : c'.ledger = c.ledger
  clock : c'.clock = c.clock
  dries : Dries c c'

section
variable {bd : Build} {root : ℕ} {c c₁ c' : Core}

lemma Releases.refl (h : c.Ready bd root) : Releases bd root c c := ⟨h, rfl, rfl, .refl c⟩

lemma Releases.trans (h : Releases bd root c c₁) (h' : Releases bd root c₁ c') :
    Releases bd root c c' :=
  ⟨h'.ready, h'.ledger.trans h.ledger, h'.clock.trans h.clock, h.dries.trans h'.dries⟩

lemma Releases.does (h : Releases bd root c c') (env : ℕ → Answers) : Does bd env root c [] c' :=
  .silent h.ready h.ledger h.clock.ge

end

namespace Core
variable {bd : Build} {env : ℕ → Answers} {root base slot cls x : ℕ} {c c₁ c' : Core} {q : List ℕ}

/-- A released segment takes its lists with it. -/
lemma Wf.dries_release (h : c.Wf bd root q) (hr : c.alloc.registered base = true) :
    Dries c (c.withAlloc (c.alloc.releaseEmptySegment bd.toBuild base)) := fun k slot hclear h0 => by
  have hb := h.baseAt_release hr slot
  split_ifs at hb with hslot
  · exact absurd hb h0
  · rw [hb] at h0 ⊢
    have hne : c.baseAt slot ≠ base := fun he => hslot ((h.slot_unique he (he ▸ h0)).symm)
    exact (congrArg (fun home : Home => home.seg.head k) (homes_release hne)).trans (hclear h0)

/-- A member of the pool is released. -/
lemma Wf.evicts (h : c.Wf bd root q) (ht : c.Tidy q) (hm : base ∈ q) :
    ∃ alloc, c.alloc.evictPooled bd.toBuild base = some alloc ∧
      (c.withAlloc alloc).Wf bd root (q.erase base) ∧ (c.withAlloc alloc).Tidy (q.erase base) ∧
      Releases bd root c (c.withAlloc alloc) := by
  obtain ⟨alloc, he, hw, ht', hl⟩ := h.evict ht hm
  refine ⟨alloc, he, hw, ht', ⟨_, hw, ht'⟩, hl, rfl, ?_⟩
  rw [evictPooled] at he
  split_ifs at he
  obtain rfl := Option.some.inj he
  obtain ⟨pool, n, -, hw₁, -⟩ := h.unpool (h.registered_of_mem hm)
  exact (h.dries_release (h.registered_of_mem hm))

/-- A decay tick releases the oldest member of the pool or nothing. -/
lemma Wf.maybeDecaySmallPool (h : c.Wf bd root q) (ht : c.Tidy q) (now : ℕ) :
    ∃ c', c.maybeDecaySmallPool bd now = some c' ∧ Releases bd root c c' := by
  rw [Core.maybeDecaySmallPool]
  have htick : ∀ t, Releases bd root c { c with lastPoolDecayTick := t } := fun t =>
    ⟨⟨q, h.congr rfl rfl rfl rfl rfl, ht⟩, rfl, rfl, .refl c⟩
  split_ifs with hcount
  · exact ⟨c, rfl, .refl ⟨q, h, ht⟩⟩
  cases c.lastPoolDecayTick with
  | none => exact ⟨_, rfl, htick _⟩
  | some t =>
      dsimp only
      split_ifs with hearly hnull
      · exact ⟨c, rfl, .refl ⟨q, h, ht⟩⟩
      all_goals
        have hq : q ≠ [] := by
          rintro rfl
          exact hcount h.pool.count
        obtain ⟨x, xs, rfl⟩ := List.exists_cons_of_ne_nil hq
        have htail : c.alloc.pool.tail = x := h.pool.tail
        have hx : x ∈ x :: xs := List.mem_cons_self
      · exact absurd (htail.symm.trans hnull) (h.ne_zero (h.registered_of_mem hx))
      · have hw : ({ c with lastPoolDecayTick := some now } : Core).Wf bd root (x :: xs) :=
          h.congr rfl rfl rfl rfl rfl
        obtain ⟨alloc, he, -, -, hrel⟩ := hw.evicts ht hx
        refine ⟨_, ?_, (htick _).trans hrel⟩
        rw [htail, show c.alloc.evictPooled bd.toBuild x = some alloc from he]
        rfl

/-- A drain of the pool ends, and leaves it empty. -/
lemma Wf.drainLoop (fuel : ℕ) (h : c.Wf bd root q) (ht : c.Tidy q) (hf : q.length < fuel) :
    ∃ c', c.drainLoop bd fuel = some c' ∧ c'.Wf bd root [] ∧ c'.Tidy [] ∧
      Releases bd root c c' := by
  induction fuel generalizing c q with
  | zero => exact absurd hf (Nat.not_lt_zero _)
  | succ fuel ih =>
      rw [Core.drainLoop]
      have hhead : c.alloc.pool.head = q.getLastD 0 := h.pool.head
      cases q using List.reverseRecOn with
      | nil =>
          have hcount : c.alloc.pooledCount = 0 := h.pool.count
          rw [if_pos (show c.alloc.pool.head = 0 from hhead), if_pos hcount]
          exact ⟨c, rfl, h, ht, .refl ⟨[], h, ht⟩⟩
      | append_singleton xs x =>
          rw [List.getLastD_concat] at hhead
          have hx : x ∈ xs ++ [x] := by simp
          have hlen : ((xs ++ [x]).erase x).length < fuel := by
            rw [List.length_erase_of_mem hx, List.length_append, List.length_singleton]
            rw [List.length_append, List.length_singleton] at hf
            omega
          obtain ⟨alloc, he, hw₁, ht₁, hrel₁⟩ := h.evicts ht hx
          obtain ⟨c', he', hw', ht', hrel⟩ := ih hw₁ ht₁ hlen
          rw [hhead, if_neg (h.ne_zero (h.registered_of_mem hx)), he]
          exact ⟨c', he', hw', ht', hrel₁.trans hrel⟩

lemma Wf.drainSmallPool (h : c.Wf bd root q) (ht : c.Tidy q) :
    ∃ c', c.drainSmallPool bd = some c' ∧ c'.Wf bd root [] ∧ c'.Tidy [] ∧
      Releases bd root c c' :=
  h.drainLoop _ ht
    (by rw [show c.alloc.pooledCount = q.length from h.pool.count]; exact q.length.lt_succ_self)

/-! ## New segments -/

/-- What the OS grants is a new address. -/
structure Fresh (c : Core) (base : ℕ) : Prop where
  ne_zero : base ≠ 0
  aligned : base % segment = 0
  unknown : c.alloc.registered base = false

lemma grant_fresh {r : Option ℕ} (hg : c.grant r = some base) : c.Fresh base := by
  obtain ⟨h0, ha, hr⟩ : base ≠ 0 ∧ base % segment = 0 ∧ c.alloc.registered base = false := by
    simpa using (Option.filter_eq_some_iff.mp hg).2
  exact ⟨h0, ha, hr⟩

lemma Wf.requestSegment (h : c.Wf bd root q) (ht : c.Tidy q) (first second : Option ℕ) :
    ∃ c' r, c.requestSegment bd first second = some (c', r) ∧ Releases bd root c c' ∧
      ∀ base ∈ r, c'.Fresh base := by
  rw [Core.requestSegment]
  cases hg : c.grant first with
  | some base =>
      exact ⟨c, some base, rfl, .refl ⟨q, h, ht⟩, fun b hb => grant_fresh (hb ▸ hg)⟩
  | none =>
      dsimp only
      split_ifs
      · obtain ⟨c', he, -, -, hrel⟩ := h.drainSmallPool ht
        rw [he]
        exact ⟨c', _, rfl, hrel, fun b hb => grant_fresh hb⟩
      · exact ⟨c, none, rfl, .refl ⟨q, h, ht⟩, by simp⟩

lemma registerSlot_spec {r : Option ℕ} (hs : c.registerSlot r = some slot) : slot < maxSegments ∧
    (slot < c.count ∧ c.baseAt slot = 0 ∨ slot = c.count) := by
  simpa using (Option.filter_eq_some_iff.mp hs).2

section Header
variable {host : Host} {ans : Answers}

lemma writeHeader_homes_of_ne (hx : x ≠ base) :
    (c.writeHeader bd host base slot ans).alloc.homes x = c.alloc.homes x :=
  Function.update_of_ne hx ..

lemma writeHeader_home : (c.writeHeader bd host base slot ans).alloc.homes base =
    .new bd.toBuild .small ⟨slot, 0, initialCommit bd host .small, ans.system, ans.memory⟩ :=
  Function.update_self ..

lemma writeHeader_registered : (c.writeHeader bd host base slot ans).alloc.registered x = true ↔
    x = base ∨ c.alloc.registered x = true := by
  change Function.update c.alloc.registered base true x = true ↔ _
  by_cases hx : x = base
  · subst hx
    simp
  · rw [Function.update_of_ne hx]
    simp [hx]

/-- The slots after a registration. -/
lemma writeHeader_baseAt (hf : c.Fresh base)
    (hs : slot < c.count ∧ c.baseAt slot = 0 ∨ slot = c.count) (s : ℕ) :
    (c.writeHeader bd host base slot ans).baseAt s = if s = slot then base else c.baseAt s := by
  change (if s < max c.count (slot + 1) ∧ (c.writeHeader bd host base slot ans).alloc.registered
      (Function.update c.slots slot base s) = true ∧
      ((c.writeHeader bd host base slot ans).alloc.homes
        (Function.update c.slots slot base s)).segmentId = s
    then Function.update c.slots slot base s else 0) = _
  by_cases hslot : s = slot
  · subst hslot
    rw [Function.update_self, if_pos rfl, if_pos]
    refine ⟨lt_max_of_lt_right s.lt_succ_self, writeHeader_registered.mpr (.inl rfl), ?_⟩
    rw [writeHeader_home]
    rfl
  · rw [Function.update_of_ne hslot, if_neg hslot, baseAt]
    by_cases hb : c.slots s = base
    · -- The table keeps the base of a segment that has left; its header is new.
      have hid : ((c.writeHeader bd host base slot ans).alloc.homes base).segmentId = slot := by
        rw [writeHeader_home]
        rfl
      rw [hb, if_neg fun hh => hslot (hh.2.2.symm.trans hid), if_neg]
      exact fun hh => Bool.false_ne_true (hf.unknown.symm.trans hh.2.1)
    · have hreg : (c.writeHeader bd host base slot ans).alloc.registered (c.slots s) =
          c.alloc.registered (c.slots s) := Function.update_of_ne hb ..
      rw [writeHeader_homes_of_ne hb, hreg]
      refine if_congr (and_congr_left fun hh => ?_) rfl rfl
      rw [lt_max_iff]
      refine or_iff_left_of_imp fun hlt => ?_
      omega

/-- The pool sees a header without links. -/
lemma poolView_writeHeader : poolView (c.writeHeader bd host base slot ans).alloc root =
    (poolView c.alloc root).writeHeader base .small := by
  simp only [poolView, writeHeader, SmallPool.Core.writeHeader, SmallPool.Core.mk.injEq, and_true]
  funext x
  by_cases hx : x = base
  · subst hx
    simp [Home.new, Segment.new, poolKind]
  · simp [Function.update_of_ne hx]

/-- A new segment starts below its commit frontier. -/
lemma initialCommit_spec (bd : Build) (host : Host) (kind : Kind) :
    bd.small.payloadStart kind ≤ initialCommit bd host kind ∧
      initialCommit bd host kind ≤ segment := by
  have hslack := bd.slack kind
  have hall : bd.small.payloadStart kind ≤ segment := by omega
  rw [initialCommit]
  cases bd.lazy kind with
  | false => exact ⟨hall, le_rfl⟩
  | true =>
      cases hpage : host.page with
      | none => exact ⟨hall, le_rfl⟩
      | some page =>
          obtain ⟨hpos, hle⟩ := host.realistic page hpage
          obtain ⟨hup, -⟩ := alignUp_spec (n := bd.small.payloadStart kind + growChunk) hpos
          have hlt : alignUp (bd.small.payloadStart kind + growChunk) page ≤
              bd.small.payloadStart kind + growChunk + page - 1 := Nat.div_mul_le_self ..
          dsimp only
          omega

/-- A new segment enters the table. -/
lemma Wf.writeHeader (h : c.Wf bd root q) (hf : c.Fresh base) (hslot : slot < maxSegments)
    (hs : slot < c.count ∧ c.baseAt slot = 0 ∨ slot = c.count) (host : Host) (ans : Answers) :
    (c.writeHeader bd host base slot ans).Wf bd root q := by
  have hne : ∀ {x}, c.alloc.registered x = true → x ≠ base := by
    rintro x hx rfl
    exact Bool.false_ne_true (hf.unknown.symm.trans hx)
  have hold : ∀ {x}, x ≠ base → (c.writeHeader bd host base slot ans).alloc.registered x = true →
      c.alloc.registered x = true := fun hx hr => (writeHeader_registered.mp hr).resolve_left hx
  have hblocks : ∀ {x}, x ≠ base → (c.writeHeader bd host base slot ans).blocks x = c.blocks x :=
    fun hx => Function.update_of_ne hx ..
  have hpending : ∀ {x}, x ≠ base → (c.writeHeader bd host base slot ans).pending x =
      c.pending x := fun hx => Function.update_of_ne hx ..
  have hbase := @writeHeader_baseAt bd base slot c host ans hf hs
  -- No segment of the table is in the slot.
  have hfree : ∀ {x}, c.alloc.registered x = true → (c.alloc.homes x).segmentId ≠ slot := by
    rintro x hx rfl
    obtain ⟨-, h0⟩ | heq := hs
    · rw [h.baseAt_slot hx] at h0
      exact h.ne_zero hx h0
    · exact absurd (h.placed x hx).2 (heq ▸ lt_irrefl _)
  have hvacant : c.baseAt slot = 0 := by
    by_contra h0
    obtain ⟨-, -, hr, hid⟩ := baseAt_ne h0
    exact hfree hr hid
  refine ⟨⟨fun x hx => ?_, writeHeader_registered.mpr (.inr h.sound.current)⟩, ?_, fun x hx => ?_,
    fun x hx => ?_, fun x hx => ?_, ?_, ?_, fun x hx => ?_, fun k s hk => ?_, fun d hd => ?_,
    fun hlazy x hx => ?_⟩
  · by_cases hxb : x = base
    · subst hxb
      rw [writeHeader_home, show (c.writeHeader bd host x slot ans).blocks x = .new from
        Function.update_self ..]
      exact kept_new ..
    · rw [writeHeader_homes_of_ne hxb, hblocks hxb]
      exact h.kept (hold hxb hx)
  · rw [poolView_writeHeader]
    exact h.pool.writeHeader hf.unknown hf.ne_zero .small
  · by_cases hxb : x = base
    · subst hxb
      rw [writeHeader_home]
      rfl
    · rw [writeHeader_homes_of_ne hxb]
      exact h.committed x (hold hxb hx)
  · by_cases hxb : x = base
    · subst hxb
      rw [writeHeader_home]
      exact ⟨Function.update_self .., lt_max_of_lt_right slot.lt_succ_self⟩
    · have hr := hold hxb hx
      rw [writeHeader_homes_of_ne hxb]
      refine ⟨(Function.update_of_ne (hfree hr) ..).trans (h.placed x hr).1, ?_⟩
      exact lt_max_of_lt_left (h.placed x hr).2
  · by_cases hxb : x = base
    · exact hxb ▸ hf.aligned
    · exact h.aligned x (hold hxb hx)
  · exact max_le h.count hslot
  · have hroot : root ≠ base := hne h.pool.root.1
    rw [writeHeader_homes_of_ne hroot]
    exact h.root
  · by_cases hxb : x = base
    · subst hxb
      rw [show (c.writeHeader bd host x slot ans).pending x = [] from Function.update_self ..]
      exact ⟨List.nodup_nil, fun _ hr => absurd hr List.not_mem_nil⟩
    · rw [hblocks hxb, hpending hxb]
      exact h.pending x (hold hxb hx)
  · have h0 := h.cursors k s hk
    have hother : s ≠ slot := by
      rintro rfl
      exact h0 hvacant
    rw [hbase, if_neg hother]
    exact h0
  · refine ⟨(h.directory d hd).counted, fun k hk s hs' => ?_⟩
    rw [(h.directory d hd).exact k hk s hs', hbase]
    split_ifs with he
    · subst he
      refine iff_of_false (fun hh => hh.1 hvacant) fun hh => hh.2 ?_
      rw [head, seg, writeHeader_home]
      rfl
    · refine and_congr_right fun h0 => ?_
      have hxb := hne (baseAt_ne h0).2.2.1
      rw [head, head, seg, seg, writeHeader_homes_of_ne hxb]
  · by_cases hxb : x = base
    · subst hxb
      rw [seg, writeHeader_home]
      exact initialCommit_spec bd host .small
    · rw [seg, writeHeader_homes_of_ne hxb]
      exact h.frontier hlazy x (hold hxb hx)

/-- Nobody holds a block of a new segment. -/
lemma ledger_writeHeader (hf : c.Fresh base) (host : Host) (ans : Answers) :
    (c.writeHeader bd host base slot ans).ledger = c.ledger := by
  refine Lending.Ledger.ext (funext fun p => ?_) (Set.ext fun p => ?_)
  · change (c.writeHeader bd host base slot ans).held p = c.held p
    rw [held, held]
    by_cases hp : p.1 = base
    · rw [hp, if_pos (writeHeader_registered.mpr (.inl rfl)), hf.unknown,
        if_neg Bool.false_ne_true, show (c.writeHeader bd host base slot ans).blocks base = .new from
          Function.update_self ..]
      exact heldIn_new _
    · rw [show (c.writeHeader bd host base slot ans).alloc.registered p.1 = c.alloc.registered p.1
        from Function.update_of_ne hp .., show (c.writeHeader bd host base slot ans).blocks p.1 =
          c.blocks p.1 from Function.update_of_ne hp ..]
  · change (c.writeHeader bd host base slot ans).alloc.registered p.1 = true ∧
      p.2 ∈ Function.update c.pending base [] p.1 ↔ c.alloc.registered p.1 = true ∧ p.2 ∈ c.pending p.1
    by_cases hp : p.1 = base
    · rw [hp, Function.update_self, hf.unknown]
      simp
    · rw [Function.update_of_ne hp, writeHeader_registered]
      simp [hp]

/-- A new segment has nothing on its lists. -/
lemma dries_writeHeader (hf : c.Fresh base)
    (hs : slot < c.count ∧ c.baseAt slot = 0 ∨ slot = c.count) (host : Host) (ans : Answers) :
    Dries c (c.writeHeader bd host base slot ans) := fun k s hclear h0 => by
  have hb := @writeHeader_baseAt bd base slot c host ans hf hs s
  split_ifs at hb with he
  · rw [hb, head, seg, writeHeader_home]
    rfl
  · rw [hb] at h0 ⊢
    have hne : c.baseAt s ≠ base := by
      rintro rfl
      exact Bool.false_ne_true (hf.unknown.symm.trans (baseAt_ne h0).2.2.1)
    rw [head, seg, writeHeader_homes_of_ne hne]
    exact hclear h0

end Header

lemma dries_withDirectory (d : Option Directory.SegmentDirectory) : Dries c (c.withDirectory d) :=
  fun _ _ h => h

/-- A new segment beside the current one. -/
structure Arrived (bd : Build) (root : ℕ) (c : Core) (q : List ℕ) (base : ℕ) : Prop where
  wf : c.Wf bd root q
  tidy : c.TidyBut q base
  outside : base ∉ q
  registered : c.alloc.registered base = true
  kind : (c.seg base).kind = .small
  new : base ≠ c.smallCur

lemma Wf.arrived (h : c.Wf bd root q) (ht : c.Tidy q) (hf : c.Fresh base)
    (hslot : slot < maxSegments) (hs : slot < c.count ∧ c.baseAt slot = 0 ∨ slot = c.count)
    (host : Host) (ans : Answers) :
    Arrived bd root (c.writeHeader bd host base slot ans) q base := by
  have hw := h.writeHeader hf hslot hs host ans
  refine ⟨hw, fun x hx hkind hlive => ?_, fun hm => ?_, writeHeader_registered.mpr (.inl rfl), ?_,
    ?_⟩
  · by_cases hxb : x = base
    · exact .inr (.inr hxb)
    · have hhome := @writeHeader_homes_of_ne bd base slot x c host ans hxb
      obtain hin | hin | hin := ht x ((writeHeader_registered.mp hx).resolve_left hxb)
        ((congrArg (fun home : Home => home.seg.kind) hhome).symm.trans hkind)
        ((congrArg (fun home : Home => home.seg.live) hhome).symm.trans hlive)
      · exact .inl hin
      · exact .inr (.inl hin)
      · exact absurd hin (hw.ne_zero hx)
  · exact Bool.false_ne_true (hf.unknown.symm.trans (h.registered_of_mem hm))
  · rw [seg, writeHeader_home]
    rfl
  · intro he
    have hcur : c.alloc.registered base = true := by
      rw [show base = c.smallCur from he]
      exact h.current
    exact Bool.false_ne_true (hf.unknown.symm.trans hcur)

/-- A segment comes from the system, or only what the pool gave up is gone. -/
lemma Wf.reserveSmallSegmentImpl (h : c.Wf bd root q) (ht : c.Tidy q) (host : Host)
    (env : ℕ → Answers) :
    ∃ c' r, c.reserveSmallSegmentImpl bd host env = some (c', r) ∧ c'.ledger = c.ledger ∧
      c.clock ≤ c'.clock ∧ Dries c c' ∧ (r = none → c'.Ready bd root) ∧
      ∀ base ∈ r, ∃ q', Arrived bd root c' q' base := by
  have h₁ : ({ c with clock := c.clock + 1 } : Core).Wf bd root q := h.congr rfl rfl rfl rfl rfl
  rw [Core.reserveSmallSegmentImpl, ask]
  set ans := env c.clock with hans
  obtain ⟨c₂, he₂, hrel₂⟩ := h₁.maybeDecaySmallPool ht ans.now
  obtain ⟨q₂, hw₂, ht₂⟩ := hrel₂.ready
  obtain ⟨c₃, r, he₃, hrel₃, hfresh⟩ := hw₂.requestSegment ht₂ ans.first ans.second
  simp only [Option.bind_eq_bind, he₂, Option.bind_some, he₃]
  have hrel := hrel₂.trans hrel₃
  have hclock : c.clock ≤ c₃.clock := by
    rw [hrel.clock]
    exact Nat.le_succ _
  have hdries : Dries c c₃ := fun k s hs => hrel.dries k s hs
  cases r with
  | none => exact ⟨c₃, none, rfl, hrel.ledger, hclock, hdries, fun _ => hrel.ready, by simp⟩
  | some base =>
      dsimp only
      cases hslot : c₃.registerSlot ans.slot with
      | none => exact ⟨c₃, none, rfl, hrel.ledger, hclock, hdries, fun _ => hrel.ready, by simp⟩
      | some slot =>
          obtain ⟨q₃, hw₃, ht₃⟩ := hrel.ready
          obtain ⟨hlt, hs⟩ := registerSlot_spec hslot
          have hf := hfresh base rfl
          have harr := hw₃.arrived ht₃ hf hlt hs host ans
          have hledger : (c₃.writeHeader bd host base slot ans).ledger = c₃.ledger :=
            ledger_writeHeader hf host ans
          have hdries₄ : Dries c₃ (c₃.writeHeader bd host base slot ans) :=
            dries_writeHeader hf hs host ans
          obtain ⟨d, hd, hw₅⟩ := harr.wf.materialize ans.directory
          refine ⟨_, some base, congrArg (fun c => some (c, some base)) hd,
            hledger.trans hrel.ledger, hclock, (hdries.trans hdries₄).trans (dries_withDirectory d),
            by simp, fun b hb => ⟨q₃, ?_⟩⟩
          obtain rfl := Option.some.inj hb
          exact ⟨hw₅, harr.tidy, harr.outside, harr.registered, harr.kind, harr.new⟩

/-- The current segment moves. -/
lemma Arrived.current (h : Arrived bd root c q base) :
    (c.withAlloc { c.alloc with smallCur := base }).Wf bd root q :=
  ⟨⟨h.wf.sound.kept, h.registered⟩, h.wf.pool.setSmallCur h.registered
    (.inl (poolKind_small.mpr h.kind)) h.outside, h.wf.committed, h.wf.placed, h.wf.aligned,
    h.wf.count, h.wf.root, h.wf.pending, h.wf.cursors, fun d hd =>
    ⟨(h.wf.directory d hd).counted, (h.wf.directory d hd).exact⟩, h.wf.frontier⟩

/-- The segment that was current is pooled or released if it is empty. -/
lemma Arrived.finalize (h : Arrived bd root c q base) :
    ∃ alloc, ({ c.alloc with smallCur := base } : AllocCore).finalizeOldCursorIfOrphaned bd.toBuild
        c.smallCur = some alloc ∧ (c.withAlloc alloc).Ready bd root ∧
      (c.withAlloc alloc).ledger = c.ledger ∧ Dries c (c.withAlloc alloc) := by
  set c₁ := c.withAlloc { c.alloc with smallCur := base } with hc₁
  have hw := h.current
  have hr : c₁.alloc.registered c.smallCur = true := h.wf.current
  have ht : c₁.TidyBut q c.smallCur := fun x hx hkind hlive => by
    obtain hm | hm | hm := h.tidy x hx hkind hlive
    · exact .inl hm
    · exact .inr (.inr hm)
    · exact .inr (.inl hm)
  have hpooled : c₁.alloc.IsPooled c.smallCur ↔ c.smallCur ∈ q := isPooled_iff hw.pool hr
  rw [finalizeOldCursorIfOrphaned]
  split_ifs with hstay
  · refine ⟨_, rfl, ⟨q, hw, ht.tidy fun _ hkind hlive => ?_⟩, rfl, .refl c⟩
    obtain hlive' | hdec | hkind' | hin := hstay
    · exact absurd hlive hlive'
    · exact absurd ((h.wf.committed _ h.wf.current).symm.trans hdec) Bool.false_ne_true
    · exact absurd hkind hkind'
    · exact .inl (hpooled.mp hin)
  · have hlive : (c₁.seg c.smallCur).live = 0 := by
      by_contra hne
      exact hstay (.inl hne)
    have hkind : (c₁.seg c.smallCur).kind = .small := by
      by_contra hne
      exact hstay (.inr (.inr (.inl hne)))
    obtain ⟨alloc, q', he, hw', ht', hl⟩ :=
      hw.releaseOrPool ht hr h.wf.current_notMem h.new.symm hkind hlive
    refine ⟨alloc, he, ⟨q', hw', ht'⟩, hl, ?_⟩
    rw [releaseOrPoolEmptySegment] at he
    split_ifs at he
    · obtain rfl := Option.some.inj he
      exact .refl c
    · obtain rfl := Option.some.inj he
      exact hw.dries_release hr

lemma Wf.reserveSmallSegment (h : c.Wf bd root q) (ht : c.Tidy q) (host : Host)
    (env : ℕ → Answers) :
    ∃ c' ok, c.reserveSmallSegment bd host env = some (c', ok) ∧ Does bd env root c [] c' ∧
      Dries c c' := by
  obtain ⟨c₁, r, he₁, hledger, hclock, hdries, hready, harrived⟩ :=
    h.reserveSmallSegmentImpl ht host env
  rw [Core.reserveSmallSegment, he₁]
  cases r with
  | none => exact ⟨c₁, false, rfl, .silent (hready rfl) hledger hclock, hdries⟩
  | some base =>
      obtain ⟨q₁, harr⟩ := harrived base rfl
      obtain ⟨alloc, he, hready', hledger', hdries'⟩ := harr.finalize
      simp only [Option.bind_eq_bind, Option.bind_some, he]
      exact ⟨_, true, rfl, .silent hready' (hledger'.trans hledger) hclock, hdries.trans hdries'⟩

/-! ## Allocation -/

/-- A forced search, or the knowledge that there is nothing to find. -/
lemma Wf.findForced (h : c.Wf bd root q) (ht : c.Tidy q) (hcls : cls < bd.small.sizes.count)
    (env : ℕ → Answers) :
    ∃ c' hit, c.findForced bd env cls = some (c', hit) ∧ c'.Found bd root cls hit ∧
      Seeks bd env c c' ∧ (hit = none → ∀ s, c.Clear cls s → c'.Clear cls s) := by
  rw [Core.findForced]
  split_ifs
  · obtain ⟨c', hit, he, hs⟩ := h.findSegmentWithFree ht hcls env true
    exact ⟨c', hit, he, hs.found, hs.seeks, fun hn s _ => hs.miss hn s⟩
  · exact ⟨c, none, rfl, h.found ht cls, .refl c, fun _ _ hs => hs⟩

/-- Without a block, a class that had nothing free still has not. -/
lemma Wf.allocReserved (h : c.Wf bd root q) (ht : c.Tidy q) (hcls : cls < bd.small.sizes.count)
    (host : Host) (env : ℕ → Answers) :
    ∃ c' r, c.allocReserved bd host env cls = some (c', r) ∧
      Does bd env root c (handOut cls .live r.toList) c' ∧
      (r = none → ∀ s, (∀ s, c.Clear cls s) → c'.Clear cls s) := by
  obtain ⟨c₁, ok, he₁, hd₁, hdries₁⟩ := h.reserveSmallSegment ht host env
  obtain ⟨q₁, hw₁, ht₁⟩ := hd₁.ready
  rw [Core.allocReserved, he₁]
  cases ok with
  | true =>
      obtain ⟨c₂, r₂, he₂, hd₂, hsame⟩ := hw₁.popCurrent ht₁ cls env
      simp only [Option.bind_eq_bind, Option.bind_some, he₂]
      cases r₂ with
      | some p => exact ⟨c₂, some p, rfl, hd₁.trans hd₂, by simp⟩
      | none =>
          obtain ⟨q₂, hw₂, ht₂⟩ := hd₂.ready
          obtain ⟨c₃, r₃, he₃, hd₃, hdries₃⟩ := hw₂.carveBlockWithRefill ht₂ hcls env
          refine ⟨c₃, r₃, he₃, hd₁.trans (hd₂.trans hd₃), fun hn s hall => ?_⟩
          obtain rfl := hsame rfl
          exact hdries₃ hn cls s (hdries₁ cls s (hall s))
  | false =>
      obtain ⟨c₂, hit, he₂, hfound, hs, hmiss⟩ := hw₁.findForced ht₁ hcls env
      simp only [Option.bind_eq_bind, Option.bind_some, he₂]
      cases hit with
      | none =>
          exact ⟨c₂, none, rfl, hd₁.trans (hs.does hfound.miss), fun _ s hall =>
            hmiss rfl s (hdries₁ cls s (hall s))⟩
      | some base =>
          obtain ⟨c₃, p, he₃, hd₃, -⟩ := hfound.popFree env
          simp only [he₃, Option.bind_some]
          exact ⟨c₃, some p, rfl, hd₁.trans (hs.before hd₃), by simp⟩

/-- An allocation hands out one block, or no segment has a free block of the class. -/
lemma Wf.allocSmall (h : c.Wf bd root q) (ht : c.Tidy q) (hcls : cls < bd.small.sizes.count)
    (host : Host) (env : ℕ → Answers) :
    ∃ c' r, c.allocSmall bd host env cls = some (c', r) ∧
      Does bd env root c (handOut cls .live r.toList) c' ∧ (r = none → ∀ s, c'.Clear cls s) := by
  obtain ⟨c₁, r₁, he₁, hd₁, -⟩ := h.popCurrent ht cls env
  rw [Core.allocSmall, he₁]
  cases r₁ with
  | some p => exact ⟨c₁, some p, rfl, hd₁, by simp⟩
  | none =>
      obtain ⟨q₁, hw₁, ht₁⟩ := hd₁.ready
      obtain ⟨c₂, r₂, he₂, hd₂, hclear₂⟩ := hw₁.allocSmallViaDiscovery ht₁ hcls env
      have hd₁₂ := hd₁.trans hd₂
      simp only [Option.bind_eq_bind, Option.bind_some, he₂]
      cases r₂ with
      | some p => exact ⟨c₂, some p, rfl, hd₁₂, by simp⟩
      | none =>
          obtain ⟨q₂, hw₂, ht₂⟩ := hd₁₂.ready
          obtain ⟨hi₃, hhead₃⟩ := hw₂.prepareCurrentCarve cls
          dsimp only
          cases hprepare : c₂.prepareCurrentCarve bd cls with
          | mk c₃ ok =>
          rw [hprepare] at hi₃ hhead₃
          have hd₃ := hi₃.does env (hw₂.tidyBut ht₂ _) (.inr rfl)
          have hclear₃ := fun s => hi₃.dries hhead₃ cls s (hclear₂ rfl s)
          have hd₁₃ := hd₁₂.trans hd₃
          cases ok with
          | false => exact ⟨c₃, none, rfl, hd₁₃, fun _ => hclear₃⟩
          | true =>
              obtain ⟨q₃, hw₃, ht₃⟩ := hd₃.ready
              obtain ⟨c₄, r₄, he₄, hd₄, hdries₄⟩ := hw₃.carveBlockWithRefill ht₃ hcls env
              have hd₁₄ := hd₁₃.trans hd₄
              simp only [he₄, Option.bind_some]
              cases r₄ with
              | some p => exact ⟨c₄, some p, rfl, hd₁₄, by simp⟩
              | none =>
                  obtain ⟨q₄, hw₄, ht₄⟩ := hd₄.ready
                  obtain ⟨c₅, r₅, he₅, hd₅, hclear₅⟩ := hw₄.allocReserved ht₄ hcls host env
                  exact ⟨c₅, r₅, he₅, hd₁₄.trans hd₅, fun hn s =>
                    hclear₅ hn s fun s => hdries₄ rfl cls s (hclear₃ s)⟩

/-! ## Refills -/

lemma handOut_append (cls : ℕ) (st : BlockState) (ps ps' : List ℕ) :
    handOut cls st (ps ++ ps') = handOut cls st ps ++ handOut cls st ps' := List.map_append

/-- A batch is carved in the current segment. -/
lemma Wf.carveCurrent (h : c.Wf bd root q) (ht : c.Tidy q) (hcls : cls < bd.small.sizes.count)
    (env : ℕ → Answers) (want : ℕ) (hst : st ≠ .free) :
    ∃ c' r, c.tryCarveBatch bd env cls want st = some (c', r) ∧
      Does bd env root c (handOut cls st (handed r)) c' ∧ (handed r).length ≤ want ∧
      Dries c c' := by
  obtain ⟨c', r, he, hi, hlen, hhead⟩ := h.tryCarveBatch hcls env want hst
  have hhanded : handed (r.map fun offs => offs.map (c.smallCur + ·)) =
      (handed r).map (c.smallCur + ·) := by
    cases r <;> rfl
  refine ⟨c', _, he, ?_, ?_, hi.dries hhead⟩
  · rw [hhanded]
    exact (hi.perm (slotOrder_perm st _)).does env (h.tidyBut ht _) (.inr rfl)
  · rw [hhanded, List.length_map]
    exact hlen

/-- Without a block from the lists, nothing of the class is free. -/
lemma Wf.drainLists (h : c.Wf bd root q) (ht : c.Tidy q) (hcls : cls < bd.small.sizes.count)
    (env : ℕ → Answers) {want : ℕ} (hwant : want ≠ 0) (hst : st ≠ .free) :
    ∃ c' ps, c.drainLists bd env cls want st = some (c', ps) ∧
      Does bd env root c (handOut cls st ps) c' ∧ ps.length ≤ want ∧
      (ps = [] → ∀ s, c'.Clear cls s) := by
  obtain ⟨c₁, ps₁, he₁, hd₁, hlen₁⟩ := h.drainCurrent ht cls env want hst
  rw [Core.drainLists, he₁]
  cases ps₁ with
  | cons p ps => exact ⟨c₁, p :: ps, rfl, hd₁, hlen₁, by simp⟩
  | nil =>
      obtain ⟨q₁, hw₁, ht₁⟩ := hd₁.ready
      obtain ⟨c₂, ps₂, he₂, hd₂, hlen₂⟩ := hw₁.batchDrainFromClassCursor ht₁ cls env hwant hst
      have hd₁₂ := hd₁.trans hd₂
      simp only [Option.bind_eq_bind, Option.bind_some, he₂]
      cases ps₂ with
      | cons p ps => exact ⟨c₂, p :: ps, rfl, hd₁₂, hlen₂, by simp⟩
      | nil =>
          obtain ⟨q₂, hw₂, ht₂⟩ := hd₂.ready
          obtain ⟨c₃, hit, he₃, hs⟩ := hw₂.findSegmentWithFree ht₂ hcls env false
          simp only [he₃, Option.bind_some]
          cases hit with
          | none =>
              exact ⟨c₃, [], rfl, hd₁₂.trans (hs.seeks.does hs.found.miss), Nat.zero_le _,
                fun _ => hs.miss rfl⟩
          | some base =>
              obtain ⟨c₄, ps, he₄, hd₄, hne, hlen⟩ :=
                hs.found.tryDrainFreelistBatch env hwant hst
              exact ⟨c₄, ps, he₄, hd₁₂.trans (hs.seeks.before hd₄), hlen, fun hn => absurd hn hne⟩

lemma Wf.drainReserved (h : c.Wf bd root q) (ht : c.Tidy q) (hcls : cls < bd.small.sizes.count)
    (host : Host) (env : ℕ → Answers) {want : ℕ} (hwant : want ≠ 0) (hst : st ≠ .free) :
    ∃ c' ps, c.drainReserved bd host env cls want st = some (c', ps) ∧
      Does bd env root c (handOut cls st ps) c' ∧ ps.length ≤ want ∧
      (ps = [] → (∀ s, c.Clear cls s) → ∀ s, c'.Clear cls s) := by
  obtain ⟨c₁, ok, he₁, hd₁, hdries₁⟩ := h.reserveSmallSegment ht host env
  obtain ⟨q₁, hw₁, ht₁⟩ := hd₁.ready
  rw [Core.drainReserved, he₁]
  cases ok with
  | true =>
      obtain ⟨c₂, r, he₂, hd₂, hlen, hdries₂⟩ := hw₁.carveCurrent ht₁ hcls env want hst
      simp only [Option.bind_eq_bind, Option.bind_some, he₂]
      exact ⟨c₂, handed r, rfl, hd₁.trans hd₂, hlen, fun _ hall s =>
        hdries₂ cls s (hdries₁ cls s (hall s))⟩
  | false =>
      obtain ⟨c₂, hit, he₂, hfound, hs, hmiss⟩ := hw₁.findForced ht₁ hcls env
      simp only [Option.bind_eq_bind, Option.bind_some, he₂]
      cases hit with
      | none =>
          exact ⟨c₂, [], rfl, hd₁.trans (hs.does hfound.miss), Nat.zero_le _, fun _ hall s =>
            hmiss rfl s (hdries₁ cls s (hall s))⟩
      | some base =>
          obtain ⟨c₃, ps, he₃, hd₃, hne, hlen⟩ := hfound.tryDrainFreelistBatch env hwant hst
          exact ⟨c₃, ps, he₃, hd₁.trans (hs.before hd₃), hlen, fun hn => absurd hn hne⟩

/-- A round of a refill ends it if it hands out nothing. -/
lemma Wf.refillRound (h : c.Wf bd root q) (ht : c.Tidy q) (hcls : cls < bd.small.sizes.count)
    (host : Host) (env : ℕ → Answers) {want : ℕ} (hwant : want ≠ 0) (hst : st ≠ .free)
    (exhausted : Bool) :
    ∃ c' ps exhausted' ends, c.refillRound bd host env cls want st exhausted =
        some (c', ps, exhausted', ends) ∧ Does bd env root c (handOut cls st ps) c' ∧
      ps.length ≤ want ∧ (ends = true ↔ ps = []) ∧
      (ps = [] → exhausted = false → ∀ s, c'.Clear cls s) := by
  obtain ⟨c₁, ps₁, he₁, hd₁, hlen₁, hclear₁⟩ : ∃ c₁ ps₁,
      (if exhausted = true then some (c, []) else c.drainLists bd env cls want st) =
        some (c₁, ps₁) ∧ Does bd env root c (handOut cls st ps₁) c₁ ∧ ps₁.length ≤ want ∧
      (ps₁ = [] → exhausted = false → ∀ s, c₁.Clear cls s) := by
    cases exhausted with
    | true =>
        exact ⟨c, [], rfl, .silent ⟨q, h, ht⟩ rfl le_rfl, Nat.zero_le _, fun _ hf => by simp at hf⟩
    | false =>
        obtain ⟨c₁, ps₁, he₁, hd₁, hlen₁, hclear₁⟩ := h.drainLists ht hcls env hwant hst
        exact ⟨c₁, ps₁, he₁, hd₁, hlen₁, fun hn _ => hclear₁ hn⟩
  rw [Core.refillRound, he₁]
  cases ps₁ with
  | cons p ps => exact ⟨c₁, p :: ps, false, false, rfl, hd₁, hlen₁, by simp, by simp⟩
  | nil =>
      obtain ⟨q₁, hw₁, ht₁⟩ := hd₁.ready
      obtain ⟨c₂, r, he₂, hd₂, hlen₂, hdries₂⟩ := hw₁.carveCurrent ht₁ hcls env want hst
      have hd₁₂ := hd₁.trans hd₂
      simp only [Option.bind_eq_bind, Option.bind_some, he₂]
      cases r with
      | error u =>
          exact ⟨c₂, [], true, true, rfl, hd₁₂, Nat.zero_le _, by simp, fun _ hf s =>
            hdries₂ cls s (hclear₁ rfl hf s)⟩
      | ok out =>
          cases out with
          | cons p ps => exact ⟨c₂, p :: ps, true, false, rfl, hd₁₂, hlen₂, by simp, by simp⟩
          | nil =>
              obtain ⟨q₂, hw₂, ht₂⟩ := hd₂.ready
              obtain ⟨c₃, ps, he₃, hd₃, hlen, hclear⟩ :=
                hw₂.drainReserved ht₂ hcls host env hwant hst
              simp only [he₃, Option.bind_some]
              refine ⟨c₃, ps, true, ps.isEmpty, rfl, hd₁₂.trans hd₃, hlen, List.isEmpty_iff,
                fun hn hf => hclear hn fun s => ?_⟩
              exact hdries₂ cls s (hclear₁ rfl hf s)

/-- The rounds of a refill. -/
lemma Wf.refillLoop (fuel : ℕ) (h : c.Wf bd root q) (ht : c.Tidy q)
    (hcls : cls < bd.small.sizes.count) (host : Host) (env : ℕ → Answers) {want : ℕ}
    (hfuel : want ≤ fuel) (hst : st ≠ .free) (exhausted : Bool) :
    ∃ c' ps, c.refillLoop bd host env cls st fuel want exhausted = some (c', ps) ∧
      Does bd env root c (handOut cls st ps) c' ∧ ps.length ≤ want ∧
      (ps = [] → want ≠ 0 → exhausted = false → ∀ s, c'.Clear cls s) := by
  induction fuel generalizing c q want exhausted with
  | zero =>
      exact ⟨c, [], rfl, .silent ⟨q, h, ht⟩ rfl le_rfl, Nat.zero_le _, fun _ hne =>
        absurd (Nat.le_zero.mp hfuel) hne⟩
  | succ fuel ih =>
      rw [Core.refillLoop]
      by_cases hwant : want = 0
      · exact ⟨c, [], if_pos hwant, .silent ⟨q, h, ht⟩ rfl le_rfl, Nat.zero_le _, fun _ hne =>
          absurd hwant hne⟩
      rw [if_neg hwant]
      obtain ⟨c₁, ps₁, exhausted₁, ends, he₁, hd₁, hlen₁, hends, hclear₁⟩ :=
        h.refillRound ht hcls host env hwant hst exhausted
      simp only [Option.bind_eq_bind, Option.bind_some, he₁]
      split_ifs with hend
      · exact ⟨c₁, ps₁, rfl, hd₁, hlen₁, fun hn _ hf => hclear₁ hn hf⟩
      · have hne : ps₁ ≠ [] := fun hn => hend (hends.mpr hn)
        have hpos := List.length_pos_iff.mpr hne
        obtain ⟨q₁, hw₁, ht₁⟩ := hd₁.ready
        have hfuel₁ : want - ps₁.length ≤ fuel := by omega
        obtain ⟨c₂, ps₂, he₂, hd₂, hlen₂, -⟩ := ih hw₁ ht₁ hfuel₁ exhausted₁
        simp only [he₂, Option.bind_some]
        refine ⟨c₂, ps₁ ++ ps₂, rfl, handOut_append .. ▸ hd₁.trans hd₂, ?_, fun hn => ?_⟩
        · rw [List.length_append]
          omega
        · exact absurd (List.append_eq_nil_iff.mp hn).1 hne

/-- A refill hands out at most what is wanted, and nothing only if nothing is free. -/
lemma Wf.refillClassBump (h : c.Wf bd root q) (ht : c.Tidy q) (hcls : cls < bd.small.sizes.count)
    (host : Host) (env : ℕ → Answers) (want : ℕ) (hst : st ≠ .free) :
    ∃ c' ps, c.refillClassBump bd host env cls want st = some (c', ps) ∧
      Does bd env root c (handOut cls st ps) c' ∧ ps.length ≤ want ∧
      (ps = [] → want ≠ 0 → ∀ s, c'.Clear cls s) := by
  obtain ⟨c', ps, he, hd, hlen, hclear⟩ := h.refillLoop want ht hcls host env le_rfl hst false
  exact ⟨c', ps, he, hd, hlen, fun hn hne => hclear hn hne rfl⟩

end Core

end SmallCore

end SeferAlloc
