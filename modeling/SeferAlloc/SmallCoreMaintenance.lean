import SeferAlloc.SmallCoreAllocation

/-!
# Frees, drains of the ingress and trims

The caller gives back blocks of its own, one or an array of them, and parks
blocks in its magazines. A full drain of the ingress takes back all that others
published before it; a bounded one stops at any word. A trim leaves no segment
without a block that is out.
-/
namespace SeferAlloc
namespace SmallCore
open Small SmallBatch SmallBatch.AllocCore ScanBackoff

/-- The blocks of the pointers come back. -/
def giveBack (cls : ℕ) (ps : List ℕ) : List (Lending.Event Block BlockState) :=
  ps.map fun p => .giveBack (blockOf cls p)

section
variable {bd : Build} {env : ℕ → Answers} {root : ℕ} {c c' : Core}
  {es : List (Lending.Event Block BlockState)}

/-- Events that are not of others. -/
lemma Does.of_run (hr : c'.Ready bd root) (hrun : Lending.Run (Clash bd) c.ledger es c'.ledger)
    (hclock : c.clock ≤ c'.clock) (hown : ∀ e ∈ es, e.own = true) : Does bd env root c es c' := by
  refine ⟨hr, es, .quiet hrun hclock (List.filterMap_eq_nil_iff.mpr fun e he => ?_),
    List.filter_eq_self.mpr hown⟩
  have howned := hown e he
  cases e with
  | announce b => exact absurd howned Bool.false_ne_true
  | collect b => rfl
  | issue b s => rfl
  | mark b s => rfl
  | giveBack b => rfl

end

namespace Core
variable {bd : Build} {env : ℕ → Answers} {root base slot cls p x : ℕ} {c c' : Core} {q : List ℕ}
  {ps : List ℕ} {st : BlockState}

/-! ## Frees -/

lemma known_iff : c.known p = true ↔ p ≠ 0 ∧ c.alloc.registered (segmentBaseOfPtr p) = true := by
  simp [known]

lemma not_known_iff : c.known p = false ↔
    p = 0 ∨ c.alloc.registered (segmentBaseOfPtr p) = false := by
  rw [← Bool.not_eq_true, known_iff, not_and_or, not_not, Bool.not_eq_true]

lemma Returnable.out (h : c.Returnable cls p) : c.alloc.registered (segmentBaseOfPtr p) = true ∧
    (p - segmentBaseOfPtr p, cls) ∈ (c.blocks (segmentBaseOfPtr p)).carved ∧
    (c.blocks (segmentBaseOfPtr p)).place (p - segmentBaseOfPtr p) ≠ .free :=
  held_ne_none.mp h.held

/-- The state of a block that is out. -/
lemma place_of_held (h : c.held (base, x, cls) = some st) : (c.blocks base).place x = st := by
  obtain ⟨hr, hx, hne⟩ := held_ne_none.mp (h.trans_ne (Option.some_ne_none st))
  rw [held, if_pos hr, heldIn, if_pos ⟨hx, hne⟩] at h
  exact Option.some.inj h

/-- Single frees of the blocks of an array. -/
lemma Wf.frees (h : c.Wf bd root q) (ht : c.Tidy q) (env : ℕ → Answers)
    (hnodup : (ps.filter (· ≠ 0)).Nodup)
    (hheld : ∀ p ∈ ps, c.known p = true → c.Returnable cls p) :
    ∃ alloc, AllocCore.freeEach bd.toBuild cls ps c.alloc = some alloc ∧
      Does bd env root c (giveBack cls (ps.filter c.known))
        { c with alloc := alloc, blocks := freed (ps.filter c.known) c.blocks } ∧
      Lending.Run (Clash bd) c.ledger (giveBack cls (ps.filter c.known))
        ({ c with alloc := alloc, blocks := freed (ps.filter c.known) c.blocks } : Core).ledger := by
  have hsub : (ps.filter c.known).Nodup := by
    have hsame : ps.filter c.known = (ps.filter (· ≠ 0)).filter c.known := by
      rw [List.filter_filter]
      refine List.filter_congr fun p _ => ?_
      by_cases hp : c.known p = true
      · simp [hp, (known_iff.mp hp).1]
      · simp [hp]
    rw [hsame]
    exact hnodup.filter _
  obtain ⟨alloc, q', he, hw, ht', hrun⟩ := h.freeEach c.known ps ht hsub
    (fun p hp hk => ⟨(known_iff.mp hk).1, hheld p hp hk⟩) fun p _ hk => not_known_iff.mp hk
  refine ⟨alloc, he, .of_run ⟨q', hw, ht'⟩ hrun le_rfl fun e hm => ?_, hrun⟩
  obtain ⟨p, -, rfl⟩ := List.mem_map.mp hm
  rfl

/-- A flush of the blocks of an array. -/
lemma Wf.flushClass (h : c.Wf bd root q) (ht : c.Tidy q) (env : ℕ → Answers)
    (hnodup : (ps.filter (· ≠ 0)).Nodup)
    (hheld : ∀ p ∈ ps, c.known p = true → c.Returnable cls p) :
    ∃ c', c.flushClass bd cls ps = some c' ∧
      Does bd env root c (giveBack cls (ps.filter c.known)) c' ∧
      Lending.Run (Clash bd) c.ledger (giveBack cls (ps.filter c.known)) c'.ledger := by
  obtain ⟨alloc, he, hd, hrun⟩ := h.frees ht env hnodup hheld
  have hflush : c.alloc.Flushable c.blocks cls ps := by
    exact ⟨hnodup, fun p hp hp0 hr => (hheld p hp (known_iff.mpr ⟨hp0, hr⟩)).out.2⟩
  refine ⟨_, ?_, hd, hrun⟩
  rw [Core.flushClass, (h.sound.flush hflush).1, he]
  rfl

/-- The free of one LIVE block. -/
lemma Wf.deallocSmall (h : c.Wf bd root q) (ht : c.Tidy q) (env : ℕ → Answers)
    (hheld : c.known p = true → c.Returnable cls p)
    (hlive : c.known p = true → c.held (blockOf cls p) = some .live) :
    ∃ c', c.deallocSmall bd cls p = some c' ∧
      Does bd env root c (giveBack cls ([p].filter c.known)) c' := by
  have hnodup : ([p].filter (· ≠ 0)).Nodup := (List.nodup_singleton p).filter _
  obtain ⟨alloc, he, hd, -⟩ := h.frees ht env hnodup fun p' hp' =>
    List.mem_singleton.mp hp' ▸ hheld
  have hunpark : c.alloc.unpark bd.toBuild p = c.alloc :=
    h.sound.unpark_live fun hp0 hr =>
      have hk := known_iff.mpr ⟨hp0, hr⟩
      ⟨(hheld hk).out.2.1, place_of_held (hlive hk)⟩
  refine ⟨_, ?_, hd⟩
  have hone : c.alloc.deallocPtr bd.toBuild cls p = some alloc := by
    rw [AllocCore.freeEach, hunpark] at he
    obtain ⟨alloc', he', hrest⟩ := Option.bind_eq_some_iff.mp he
    exact he'.trans hrest
  rw [Core.deallocSmall, hone]
  rfl

/-- A block that is out is parked or taken from a magazine. -/
lemma Wf.setState (h : c.Wf bd root q) (ht : c.Tidy q) (env : ℕ → Answers)
    (hret : c.Returnable cls p) (hst : st ≠ .free) :
    Does bd env root c [.mark (blockOf cls p) st] (c.setState bd p st) := by
  obtain ⟨hr, hx, hne⟩ := hret.out
  have hout := h.notMem_pending hret
  set base := segmentBaseOfPtr p with hbase
  have hq : base ∉ q := h.notMem_of_live (h.live_pos hr hx hne)
  have hrep := (h.kept hr).represents
  have hspec := setState_spec hrep hx hne hst
  have hheld := setState_held hrep hx st
  set s := (c.seg base).setState bd.small (p - base) st with hs
  have hwrite : s = (c.seg base).writeByte bd.small (p - base) cls st := hheld
  have hframe : (c.seg base).Framed s := by
    rw [hwrite]
    exact ⟨(writeByte_framed _ (p - base) cls st).kind, (writeByte_framed _ (p - base) cls st).bump⟩
  have hhead : s.head = (c.seg base).head := by
    rw [hwrite]
    exact (writeByte_frame _ (p - base) cls st).1
  have hl : Local c.alloc (c.alloc.setSeg base s) base := local_setSeg hframe.kind
  have hhome : (c.alloc.setSeg base s).homes base = { c.alloc.homes base with seg := s } :=
    homes_setHome ..
  rw [← Blocks.putAll_singleton] at hspec
  have hrec : Reclaimable ((c.blocks base).putAll [p - base] st) (c.pending base) := by
    obtain ⟨hnodup, hlive⟩ := h.pending base hr
    refine ⟨hnodup, fun r hr' => ?_⟩
    have hother : r.1 ∉ [p - base] := fun hm =>
      hout (List.mem_singleton.mp hm ▸ List.mem_map_of_mem hr')
    simpa only [Blocks.putAll, if_neg hother] using hlive r hr'
  have hw : (c.touch (c.alloc.setSeg base s) base ((c.blocks base).putAll [p - base] st)).Wf bd
      root q := by
    refine h.touch hr hl ?_ (fun hm => absurd hm hq) hrec (fun d hd => ⟨d, hd, ?_⟩) fun hlazy => ?_
    · rw [hhome]
      exact (h.kept hr).setSeg hspec rfl
    · refine .same (h.directory d hd).counted (Lists.at h hr hd) fun k => ?_
      rw [hhome, hhead]
    · rw [hhome]
      exact hframe.bump ▸ h.frontier hlazy base hr
  have hcarved : ∀ y ∈ [p - base], (y, cls) ∈ (c.blocks base).carved := fun y hy =>
    List.mem_singleton.mp hy ▸ hx
  have hledger := h.ledger_putAll hr hl.about.registered hst hcarved
  have hset : c.ledger.setAll ([p - base].map fun x => (base, x, cls)) (some st) =
      c.ledger.set (blockOf cls p) (some st) := by
    rw [List.map_singleton, Lending.setAll_cons, Lending.setAll_nil]
    rfl
  have hput : c.setState bd p st =
      c.touch (c.alloc.setSeg base s) base ((c.blocks base).putAll [p - base] st) := by
    rw [Blocks.putAll_singleton]
    rfl
  rw [hput]
  refine .of_run ⟨q, hw, ((h.tidyBut ht base).local hl).tidy fun _ _ hlive => ?_⟩ ?_ le_rfl
    (by simp [Lending.Event.own])
  · have hzero : s.live = 0 := (congrArg (fun home : Home => home.seg.live) hhome).symm.trans hlive
    rw [hwrite, (writeByte_frame _ (p - base) cls st).2.1] at hzero
    exact absurd hzero (h.live_pos hr hx hne)
  · rw [hledger, hset]
    exact Lending.Step.run (.mark hret.held hret.own)

/-! ## Drains of the ingress -/

/-- What is in stays in during a search or a drain. -/
lemma Seeks.stays {b : Block} (h : Seeks bd env c c') (hb : c.ledger.held b = none) :
    c'.ledger.held b = none := by
  obtain ⟨es, htrace, hf⟩ := h.trace
  exact htrace.run.stays hf hb

lemma Wf.drainSlots (slots : List ℕ) (h : c.Wf bd root q) (ht : c.Tidy q) (env : ℕ → Answers) :
    ∃ c', Core.drainSlots bd env slots c = some c' ∧ c'.Ready bd root ∧ Seeks bd env c c' ∧
      ∀ b ∈ c.ledger.announced, ∀ slot ∈ slots, c.baseAt slot = b.1 → c'.ledger.held b = none := by
  induction slots generalizing c q with
  | nil => exact ⟨c, rfl, ⟨q, h, ht⟩, .refl c, by simp⟩
  | cons slot slots ih =>
      rw [Core.drainSlots]
      by_cases h0 : c.baseAt slot = 0
      · obtain ⟨c', he, hr, hs, hback⟩ := ih h ht
        refine ⟨c', by rw [if_pos h0, he], hr, hs, fun b hb s hs hbase => ?_⟩
        obtain rfl | hs := List.mem_cons.mp hs
        · exact absurd (hbase.symm.trans h0) (h.ne_zero hb.1)
        · exact hback b hb s hs hbase
      · obtain ⟨c₁, out, q₁, he₁, hw₁, ht₁, hd, -⟩ := h.drainCut ht (baseAt_ne h0).2.2.1 env fun _ => true
        obtain ⟨c', he, hr, hs, hback⟩ := ih hw₁ ht₁
        refine ⟨c', ?_, hr, hd.toSeeks.trans hs, fun b hb s hmem hbase => ?_⟩
        · rw [if_neg h0, he₁]
          exact he
        -- The record is still on the route, or its block has come back.
        obtain ⟨es, htrace, hf⟩ := hd.trace
        obtain hann | hin := htrace.run.announced hf h.sane (.inl hb)
        · obtain rfl | hmem := List.mem_cons.mp hmem
          · have hreg : c₁.alloc.registered (c.baseAt s) = true := hbase ▸ hann.1
            have hrec : b.2 ∈ c₁.pending (c.baseAt s) := hbase ▸ hann.2
            exact absurd (hd.pending hreg b.2 hrec) (by simp)
          · refine hback b hann s hmem ?_
            rw [hd.toSeeks.baseAt, hbase, if_pos hann.1]
        · exact Seeks.stays hs hin

/-- A full drain of a routed core takes back all that was published before it. -/
lemma Wf.drainSidecarIngress (h : c.Wf bd root q) (ht : c.Tidy q) (env : ℕ → Answers) :
    ∃ c', c.drainSidecarIngress bd env = some c' ∧ c'.Ready bd root ∧ Seeks bd env c c' ∧
      (c.isRouted = true → ∀ b ∈ c.ledger.announced, c'.ledger.held b = none) := by
  rw [Core.drainSidecarIngress]
  cases hroute : c.isRouted with
  | false => exact ⟨c, rfl, ⟨q, h, ht⟩, .refl c, by simp⟩
  | true =>
      obtain ⟨c', he, hr, hs, hback⟩ := h.drainSlots (List.range c.count) ht env
      refine ⟨c', by simpa using he, hr, hs, fun _ b hb => ?_⟩
      exact hback b hb _ (List.mem_range.mpr (h.placed b.1 hb.1).2) (h.baseAt_slot hb.1)

lemma Wf.drainUnit (h : c.Wf bd root q) (ht : c.Tidy q) (env : ℕ → Answers) (slot word : ℕ) :
    ∃ c' next, c.drainUnit bd env slot word = some (c', next) ∧ c'.Ready bd root ∧
      Seeks bd env c c' := by
  rw [Core.drainUnit]
  by_cases h0 : c.baseAt slot = 0
  · exact ⟨c, _, if_pos h0, ⟨q, h, ht⟩, .refl c⟩
  rw [if_neg h0]
  dsimp only
  split_ifs
  · exact ⟨c, _, rfl, ⟨q, h, ht⟩, .refl c⟩
  · obtain ⟨c₁, out, q₁, he₁, hw₁, ht₁, hd, -⟩ := h.drainCut ht (baseAt_ne h0).2.2.1 env
      fun r => r.1 / Sidecar.sidecarWordBytes = max word (c.sidecarPayloadStartWord bd (c.baseAt slot))
    rw [he₁]
    exact ⟨c₁, _, rfl, ⟨q₁, hw₁, ht₁⟩, hd.toSeeks⟩

lemma Wf.boundedLoop (budget : ℕ) (h : c.Wf bd root q) (ht : c.Tidy q) (env : ℕ → Answers)
    (stop slot word : ℕ) :
    ∃ c' next, Core.boundedLoop bd env stop budget slot word c = some (c', next) ∧
      c'.Ready bd root ∧ Seeks bd env c c' := by
  induction budget generalizing c q slot word with
  | zero => exact ⟨c, _, rfl, ⟨q, h, ht⟩, .refl c⟩
  | succ budget ih =>
      rw [Core.boundedLoop]
      split_ifs
      · exact ⟨c, _, rfl, ⟨q, h, ht⟩, .refl c⟩
      · obtain ⟨c₁, next₁, he₁, ⟨q₁, hw₁, ht₁⟩, hs₁⟩ := h.drainUnit ht env slot word
        obtain ⟨c', next, he, hr, hs⟩ := ih hw₁ ht₁ next₁.1 next₁.2
        rw [he₁]
        exact ⟨c', next, he, hr, hs₁.trans hs⟩

lemma Wf.drainSidecarIngressBounded (h : c.Wf bd root q) (ht : c.Tidy q) (env : ℕ → Answers)
    (slot word budget : ℕ) :
    ∃ c' next, c.drainSidecarIngressBounded bd env slot word budget = some (c', next) ∧
      c'.Ready bd root ∧ Seeks bd env c c' := by
  rw [Core.drainSidecarIngressBounded]
  by_cases hidle : c.isRouted = false ∨ budget = 0
  · exact ⟨c, _, if_pos hidle, ⟨q, h, ht⟩, .refl c⟩
  rw [if_neg hidle]
  obtain ⟨c₁, next₁, he₁, hr, hs⟩ := h.boundedLoop budget ht env c.count
    (if c.count ≤ slot then 0 else slot) (if c.count ≤ slot then c.sidecarWordHint bd 0 else word)
  dsimp only
  rw [he₁]
  by_cases hend : next₁.1 = c.count
  · exact ⟨c₁, (0, c₁.sidecarWordHint bd 0), congrArg some (if_pos hend), hr, hs⟩
  · exact ⟨c₁, next₁, congrArg some (if_neg hend), hr, hs⟩

/-! ## The cold trim -/

/-- Every small segment has a block that is out. -/
def Trimmed (c : Core) : Prop := ∀ base, c.alloc.registered base = true →
  (c.seg base).kind = .small → (c.seg base).live ≠ 0

/-- The current segment goes if it is empty. -/
lemma Wf.releaseEmptyCurrent (h : c.Wf bd root []) (ht : c.Tidy []) :
    ∃ c', c.releaseEmptyCurrentSmallForTrim bd = some c' ∧ c'.Wf bd root [] ∧ c'.Tidy [] ∧
      c'.ledger = c.ledger ∧ c'.clock = c.clock ∧ c'.Trimmed := by
  have hroot : c.baseAt 0 = root := h.root ▸ h.baseAt_slot h.pool.root.1
  have hcur : ¬c.alloc.IsPooled c.smallCur :=
    (isPooled_iff h.pool h.current).not.mpr List.not_mem_nil
  have hout : ∀ base, c.alloc.registered base = true → (c.seg base).kind = .small →
      (c.seg base).live = 0 → base = c.smallCur := fun base hr hkind hlive => by
    obtain hm | hm | hm := ht base hr hkind hlive
    · exact absurd hm List.not_mem_nil
    · exact hm
    · exact absurd hm (h.ne_zero hr)
  rw [Core.releaseEmptyCurrentSmallForTrim, hroot, AllocCore.releaseEmptyCurrentSmallForTrim]
  by_cases hstay : (c.seg c.smallCur).kind ≠ .small ∨ (c.seg c.smallCur).live ≠ 0 ∨
      (c.alloc.homes c.smallCur).decommitted = true
  · refine ⟨c, ?_, h, ht, rfl, rfl, fun base hr hkind hlive => ?_⟩
    · exact congrArg (Option.map c.withAlloc) (if_pos hstay)
    · obtain rfl := hout base hr hkind hlive
      obtain hne | hne | hdec := hstay
      · exact hne hkind
      · exact hne hlive
      · exact Bool.false_ne_true ((h.committed _ hr).symm.trans hdec)
  · obtain ⟨hkind, hlive, hdec⟩ : (c.seg c.smallCur).kind = .small ∧ (c.seg c.smallCur).live = 0 ∧
        (c.alloc.homes c.smallCur).decommitted ≠ true := by
      simpa only [not_or, not_not] using hstay
    have hne : c.smallCur ≠ root := h.pool.ne_primordial (poolKind_small.mpr hkind)
    set c₁ := c.withAlloc { c.alloc with smallCur := root } with hc₁
    have hw₁ : c₁.Wf bd root [] :=
      ⟨⟨h.sound.kept, h.pool.root.1⟩, h.pool.setSmallCur h.pool.root.1 (.inr h.pool.root.2)
        List.not_mem_nil, h.committed, h.placed, h.aligned, h.count, h.root, h.pending, h.cursors,
        fun d hd => ⟨(h.directory d hd).counted, (h.directory d hd).exact⟩, h.frontier⟩
    have hr₁ : c₁.alloc.registered c.smallCur = true := h.current
    have ht₁ : c₁.TidyBut [] c.smallCur := fun x hx hk hl => .inr (.inr (hout x hx hk hl))
    have hw := hw₁.release hr₁ List.not_mem_nil hne hkind
    refine ⟨_, ?_, hw, ht₁.release, hw₁.ledger_release hr₁ hlive, rfl, fun x hx hk hl => ?_⟩
    · exact congrArg (Option.map c.withAlloc) ((if_neg hstay).trans (if_neg fun hd => hcur hd.2))
    · obtain ⟨hxne, hx⟩ := registered_release.mp hx
      have hhome : (c₁.alloc.releaseEmptySegment bd.toBuild c.smallCur).homes x = c.alloc.homes x :=
        homes_release hxne
      exact hxne (hout x hx ((congrArg (fun home : Home => home.seg.kind) hhome).symm.trans hk)
        ((congrArg (fun home : Home => home.seg.live) hhome).symm.trans hl))

/-- The directory and the class cursors go. -/
lemma Wf.releaseDirectory (h : c.Wf bd root q) : c.releaseDirectoryForColdTrim.Wf bd root q :=
  ⟨h.sound.beside rfl rfl rfl, h.pool, h.committed, h.placed, h.aligned, h.count, h.root, h.pending,
    fun _ _ hk => absurd hk (by simp [releaseDirectoryForColdTrim]), fun _ hd =>
    absurd hd (by simp [releaseDirectoryForColdTrim]), h.frontier⟩

/-- The blocks of arrays of pointers. -/
def blocksOf (mags : List (ℕ × List ℕ)) : List Block :=
  mags.flatMap fun g => g.2.map (blockOf g.1)

lemma giveBack_eq (cls : ℕ) (ps : List ℕ) : giveBack cls ps = (ps.map (blockOf cls)).map .giveBack := by
  rw [List.map_map]
  rfl

/-- The magazines are flushed one after the other. -/
lemma Wf.flushAllTcache (mags : List (ℕ × List ℕ)) (h : c.Wf bd root q) (ht : c.Tidy q)
    (env : ℕ → Answers) (hnodup : (mags.flatMap Prod.snd).Nodup)
    (hheld : ∀ g ∈ mags, ∀ p ∈ g.2, c.Returnable g.1 p) :
    ∃ c', Core.flushAllTcache bd mags c = some c' ∧
      Does bd env root c (mags.flatMap fun g => giveBack g.1 g.2) c' ∧
      Lending.Run (Clash bd) c.ledger ((blocksOf mags).map .giveBack) c'.ledger := by
  induction mags generalizing c q with
  | nil => exact ⟨c, rfl, .silent ⟨q, h, ht⟩ rfl le_rfl, .nil _⟩
  | cons g mags ih =>
      obtain ⟨cls, ps⟩ := g
      rw [List.flatMap_cons, List.nodup_append] at hnodup
      obtain ⟨hps, hrest, hdisjoint⟩ := hnodup
      have hret := hheld (cls, ps) List.mem_cons_self
      have hall : ps.filter c.known = ps := List.filter_eq_self.mpr fun p hp => by
        have hr := (hret p hp).out.1
        refine known_iff.mpr ⟨?_, hr⟩
        rintro rfl
        exact h.ne_zero hr rfl
      obtain ⟨c₁, he₁, hd₁, hrun₁⟩ := h.flushClass ht env (hps.filter _) fun p hp _ => hret p hp
      rw [hall] at hd₁ hrun₁
      rw [giveBack_eq] at hrun₁
      obtain ⟨q₁, hw₁, ht₁⟩ := hd₁.ready
      have hheld₁ : ∀ g ∈ mags, ∀ p ∈ g.2, c₁.Returnable g.1 p := fun g hg p hp => by
        obtain ⟨hout, hown⟩ := hheld g (List.mem_cons_of_mem _ hg) p hp
        have hother : blockOf g.1 p ∉ ps.map (blockOf cls) := fun hm => by
          obtain ⟨p', hp', he⟩ := List.mem_map.mp hm
          exact hdisjoint p' hp' p (List.mem_flatMap.mpr ⟨g, hg, hp⟩) (ptr_of_blockOf he)
        obtain ⟨hsame, hann⟩ := hrun₁.others hother
        refine ⟨?_, hann ▸ hown⟩
        change c₁.ledger.held _ ≠ none
        rw [hsame]
        exact hout
      obtain ⟨c', he, hd, hrun⟩ := ih hw₁ ht₁ hrest hheld₁
      refine ⟨c', ?_, hd₁.trans hd, ?_⟩
      · rw [Core.flushAllTcache, he₁]
        exact he
      · rw [blocksOf, List.flatMap_cons, List.map_append]
        exact hrun₁.append hrun

/-- A trim leaves no segment without a block that is out. -/
lemma Wf.trimColdRetention (mags : List (ℕ × List ℕ)) (h : c.Wf bd root q) (ht : c.Tidy q)
    (env : ℕ → Answers) (hnodup : (mags.flatMap Prod.snd).Nodup)
    (hheld : ∀ g ∈ mags, ∀ p ∈ g.2, c.Returnable g.1 p) :
    ∃ c', Core.trimColdRetention bd mags c = some c' ∧
      Does bd env root c (mags.flatMap fun g => giveBack g.1 g.2) c' ∧ c'.Trimmed ∧
      c'.alloc.pooledCount = 0 ∧
      Lending.Run (Clash bd) c.ledger ((blocksOf mags).map .giveBack) c'.ledger := by
  obtain ⟨c₁, he₁, hd₁, hrun⟩ := h.flushAllTcache mags ht env hnodup hheld
  obtain ⟨q₁, hw₁, ht₁⟩ := hd₁.ready
  obtain ⟨c₂, he₂, hw₂, ht₂, hrel⟩ := hw₁.drainSmallPool ht₁
  obtain ⟨c₃, he₃, hw₃, ht₃, hledger, hclock, htrim⟩ := hw₂.releaseEmptyCurrent ht₂
  rw [Core.trimColdRetention, he₁]
  simp only [Option.bind_eq_bind, Option.bind_some, he₂, he₃]
  have hd : Does bd env root c₁ [] c₃.releaseDirectoryForColdTrim :=
    (hrel.does env).trans (.silent ⟨[], hw₃.releaseDirectory, ht₃⟩ hledger hclock.ge)
  refine ⟨_, rfl, ?_, htrim, hw₃.pool.count, ?_⟩
  · have hboth := hd₁.trans hd
    rwa [List.append_nil] at hboth
  · have hsame : c₃.releaseDirectoryForColdTrim.ledger = c₁.ledger := hledger.trans hrel.ledger
    exact hsame ▸ hrun

end Core

end SmallCore

end SeferAlloc
