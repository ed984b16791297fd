import SeferAlloc.SmallCoreMaintenance

/-!
# Runs of the core

Callers ask for blocks, give them back and park them, the owner drains what
other threads published, and trims. A command that breaks the callers' contract
is skipped. No run aborts, and what holds of a core after a command that ends
well holds after every run.
-/
namespace SeferAlloc
namespace SmallCore
open Small SmallBatch SmallBatch.AllocCore ScanBackoff

/-- What a core starts with: its first segment, what the pool holds at most, and its route. -/
structure Start where
  base : ℕ
  ne_zero : base ≠ 0
  aligned : base % segment = 0
  poolCap : ℕ
  owner : Option ℕ
  system : System
  memory : ℕ → ℕ

/-- A core with its primordial segment alone. -/
def Core.init (bd : Build) (host : Host) (s : Start) : Core where
  alloc :=
    { homes := fun _ => .new bd.toBuild .primordial
        ⟨0, 0, initialCommit bd host .primordial, s.system, s.memory⟩
      registered := fun x => x = s.base
      smallCur := s.base
      smallClassCursor := fun _ => none
      directory := none
      pool := ⟨fun _ => 0, fun _ => 0, 0, 0⟩
      pooledCount := 0
      poolCap := s.poolCap }
  blocks _ := .new
  slots _ := s.base
  count := 1
  owner := s.owner
  pending _ := []
  window _ := 0
  missStreak _ := 0
  lastPoolDecayTick := none
  clock := 0

inductive Command where
  | alloc (cls : ℕ)
  | refill (cls want : ℕ) (st : BlockState)
  | flush (cls : ℕ) (ps : List ℕ)
  | dealloc (cls p : ℕ)
  | mark (cls p : ℕ) (st : BlockState)
  | drainIngress
  | drainBounded (slot word budget : ℕ)
  | trim (mags : List (ℕ × List ℕ))

namespace Core

/-- The pointer is to a block of the class that is out and that no other thread has freed. -/
def Returns (c : Core) (cls p : ℕ) : Prop :=
  c.held (blockOf cls p) ≠ none ∧
    p - segmentBaseOfPtr p ∉ (c.pending (segmentBaseOfPtr p)).map Prod.fst

instance (c : Core) (cls p : ℕ) : Decidable (c.Returns cls p) :=
  inferInstanceAs (Decidable (_ ∧ _))

/-- The callers' contract. -/
def Allowed (bd : Build) (c : Core) : Command → Prop
  | .alloc cls => cls < bd.small.sizes.count
  | .refill cls _ st => cls < bd.small.sizes.count ∧ st ≠ .free
  | .flush cls ps => (ps.filter (· ≠ 0)).Nodup ∧ ∀ p ∈ ps, c.known p = true → c.Returns cls p
  | .dealloc cls p =>
      c.known p = true → c.Returns cls p ∧ c.held (blockOf cls p) = some .live
  | .mark cls p st => c.Returns cls p ∧ st ≠ .free
  | .drainIngress | .drainBounded .. => True
  | .trim mags => (mags.flatMap Prod.snd).Nodup ∧ ∀ g ∈ mags, ∀ p ∈ g.2, c.Returns g.1 p

instance (bd : Build) (c : Core) : DecidablePred (c.Allowed bd)
  | .alloc _ => inferInstanceAs (Decidable (_ < _))
  | .refill .. | .flush .. | .mark .. | .trim _ => inferInstanceAs (Decidable (_ ∧ _))
  | .dealloc .. => inferInstanceAs (Decidable (_ → _))
  | .drainIngress | .drainBounded .. => instDecidableTrue

/-- A command, and the blocks that it hands out or takes back; `none` is an abort. -/
def exec (bd : Build) (host : Host) (env : ℕ → Answers) (c : Core) :
    Command → Option (Core × List (Lending.Event Block BlockState))
  | .alloc cls => do
      let (c, r) ← c.allocSmall bd host env cls
      return (c, handOut cls .live r.toList)
  | .refill cls want st => do
      let (c, ps) ← c.refillClassBump bd host env cls want st
      return (c, handOut cls st ps)
  | .flush cls ps => do
      let c' ← c.flushClass bd cls ps
      return (c', giveBack cls (ps.filter c.known))
  | .dealloc cls p => do
      let c' ← c.deallocSmall bd cls p
      return (c', giveBack cls ([p].filter c.known))
  | .mark cls p st => some (c.setState bd p st, [.mark (blockOf cls p) st])
  | .drainIngress => do
      let c ← c.drainSidecarIngress bd env
      return (c, [])
  | .drainBounded slot word budget => do
      let (c, _) ← c.drainSidecarIngressBounded bd env slot word budget
      return (c, [])
  | .trim mags => do
      let c ← trimColdRetention bd mags c
      return (c, mags.flatMap fun g => giveBack g.1 g.2)

def step (bd : Build) (host : Host) (env : ℕ → Answers) (c : Core) (cmd : Command) :
    Option (Core × List (Lending.Event Block BlockState)) :=
  if c.Allowed bd cmd then c.exec bd host env cmd else some (c, [])

def run (bd : Build) (host : Host) (env : ℕ → Answers) :
    List Command → Core → Option (Core × List (Lending.Event Block BlockState))
  | [], c => some (c, [])
  | cmd :: cmds, c => do
      let (c, es) ← c.step bd host env cmd
      let (c, later) ← run bd host env cmds c
      return (c, es ++ later)

variable {bd : Build} {host : Host} {env : ℕ → Answers} {root base slot cls p : ℕ} {c c' : Core}
  {q : List ℕ} {es : List (Lending.Event Block BlockState)}

/-! ## The start -/

lemma init_registered (bd : Build) (host : Host) {s : Start} {x : ℕ} :
    (init bd host s).alloc.registered x = true ↔ x = s.base := decide_eq_true_iff

lemma init_wf (bd : Build) (host : Host) (s : Start) : (init bd host s).Wf bd s.base [] := by
  have hone : ∀ {x}, (init bd host s).alloc.registered x = true → x = s.base := (init_registered bd host).mp
  have hself : (init bd host s).alloc.registered s.base = true := (init_registered bd host).mpr rfl
  have hpool : SmallPool.Core.Fresh (poolView (init bd host s).alloc s.base) :=
    ⟨fun _ => init_registered bd host, s.ne_zero, rfl, rfl, rfl, rfl, ⟨rfl, rfl⟩, rfl⟩
  exact ⟨⟨fun _ _ => kept_new .., hself⟩, hpool.inv, fun _ _ => rfl,
    fun x hx => ⟨(hone hx).symm, Nat.one_pos⟩, fun x hx => hone hx ▸ s.aligned,
    Nat.succ_le_of_lt (by simp [maxSegments]), rfl,
    fun _ _ => ⟨List.nodup_nil, fun _ hr => absurd hr List.not_mem_nil⟩,
    fun _ _ hk => absurd hk (by simp [init]), fun _ hd => absurd hd (by simp [init]),
    fun _ _ _ => initialCommit_spec bd host .primordial⟩

/-- Nobody holds a block at the start. -/
lemma init_ledger (bd : Build) (host : Host) (s : Start) :
    (init bd host s).ledger = ⟨fun _ => none, ∅⟩ := by
  refine Lending.Ledger.ext (funext fun p => ?_) (Set.eq_empty_iff_forall_notMem.mpr fun p hp => ?_)
  · change (init bd host s).held p = none
    refine not_ne_iff.mp fun hn => ?_
    exact List.not_mem_nil (held_ne_none.mp hn).2.1
  · exact List.not_mem_nil hp.2

/-! ## One command -/

lemma Returns.returnable (h : c.Returns cls p) : c.Returnable cls p :=
  ⟨h.1, fun hann => h.2 (List.mem_map.mpr ⟨_, hann.2, rfl⟩)⟩

/-- A command the contract allows ends well. -/
lemma Wf.exec (h : c.Wf bd root q) (ht : c.Tidy q) (host : Host) (env : ℕ → Answers)
    {cmd : Command} (ha : c.Allowed bd cmd) :
    ∃ c' es, c.exec bd host env cmd = some (c', es) ∧ Does bd env root c es c' := by
  cases cmd with
  | alloc cls =>
      obtain ⟨c', r, he, hd, -⟩ := h.allocSmall ht ha host env
      exact ⟨c', _, by rw [Core.exec, he]; rfl, hd⟩
  | refill cls want st =>
      obtain ⟨c', ps, he, hd, -⟩ := h.refillClassBump ht ha.1 host env want ha.2
      exact ⟨c', _, by rw [Core.exec, he]; rfl, hd⟩
  | flush cls ps =>
      obtain ⟨c', he, hd, -⟩ := h.flushClass ht env ha.1 fun p hp hk => (ha.2 p hp hk).returnable
      exact ⟨c', _, by rw [Core.exec, he]; rfl, hd⟩
  | dealloc cls p =>
      obtain ⟨c', he, hd⟩ := h.deallocSmall ht env (fun hk => (ha hk).1.returnable) fun hk => (ha hk).2
      exact ⟨c', _, by rw [Core.exec, he]; rfl, hd⟩
  | mark cls p st => exact ⟨_, _, rfl, h.setState ht env ha.1.returnable ha.2⟩
  | drainIngress =>
      obtain ⟨c', he, hr, hs, -⟩ := h.drainSidecarIngress ht env
      exact ⟨c', [], by rw [Core.exec, he]; rfl, hs.does hr⟩
  | drainBounded slot word budget =>
      obtain ⟨c', next, he, hr, hs⟩ := h.drainSidecarIngressBounded ht env slot word budget
      exact ⟨c', [], by rw [Core.exec, he]; rfl, hs.does hr⟩
  | trim mags =>
      obtain ⟨c', he, hd, -, -⟩ := h.trimColdRetention mags ht env ha.1 fun g hg p hp =>
        (ha.2 g hg p hp).returnable
      exact ⟨c', _, by rw [Core.exec, he]; rfl, hd⟩

lemma Wf.step (h : c.Wf bd root q) (ht : c.Tidy q) (host : Host) (env : ℕ → Answers)
    (cmd : Command) :
    ∃ c' es, c.step bd host env cmd = some (c', es) ∧ Does bd env root c es c' := by
  rw [Core.step]
  split_ifs with ha
  · exact h.exec ht host env ha
  · exact ⟨c, [], rfl, .silent ⟨q, h, ht⟩ rfl le_rfl⟩

/-- No run aborts, and every run keeps the core sound. -/
lemma Wf.run (cmds : List Command) (h : c.Wf bd root q) (ht : c.Tidy q) (host : Host)
    (env : ℕ → Answers) :
    ∃ c' es, Core.run bd host env cmds c = some (c', es) ∧ Does bd env root c es c' := by
  induction cmds generalizing c q with
  | nil => exact ⟨c, [], rfl, .silent ⟨q, h, ht⟩ rfl le_rfl⟩
  | cons cmd cmds ih =>
      obtain ⟨c₁, es₁, he₁, hd₁⟩ := h.step ht host env cmd
      obtain ⟨q₁, hw₁, ht₁⟩ := hd₁.ready
      obtain ⟨c', es, he, hd⟩ := ih hw₁ ht₁
      refine ⟨c', es₁ ++ es, ?_, hd₁.trans hd⟩
      rw [Core.run, he₁]
      simp only [Option.bind_eq_bind, Option.bind_some, he]
      rfl

end Core

/-! ## What holds in every run -/

section
variable (bd : Build) (host : Host) (env : ℕ → Answers) (s : Start) (cmds : List Command)

lemma run_does : ∃ c es, Core.run bd host env cmds (.init bd host s) = some (c, es) ∧
    Does bd env s.base (.init bd host s) es c :=
  (Core.init_wf bd host s).run cmds
    (fun _ hx _ _ => .inr (.inl ((Core.init_registered bd host).mp hx))) host env

/-- A run is a run of loans: what it handed out and took back are its own events, what others
announce are frees of the script in their order, no two blocks that are out overlap, and a block is
out if it was handed out once more often than it came back. -/
theorem run_lends : ∃ c es all, Core.run bd host env cmds (.init bd host s) = some (c, es) ∧
    Lending.Run (Clash bd) ⟨fun _ => none, ∅⟩ all c.ledger ∧
    all.filter Lending.Event.own = es ∧
    (all.filterMap Lending.Event.announced).Sublist
      ((List.range c.clock).flatMap fun i => (env i).posts) ∧
    c.ledger.Apart (Clash bd) ∧
    ∀ b, Lending.issues es b = c.ledger.out b + Lending.returns all b := by
  obtain ⟨c, es, he, hd⟩ := run_does bd host env s cmds
  obtain ⟨all, htrace, hown⟩ := hd.trace
  obtain ⟨q, hw, -⟩ := hd.ready
  have hrun := htrace.run
  rw [Core.init_ledger] at hrun
  refine ⟨c, es, all, he, hrun, hown, ?_, hw.apart, fun b => ?_⟩
  · have hposts := htrace.posts
    rwa [show (Core.init bd host s).clock = 0 from rfl, Nat.sub_zero, ← List.range_eq_range']
      at hposts
  · obtain ⟨hbalance, -⟩ := hrun.balance (fun _ hb => absurd hb (Set.notMem_empty _)) b
    rw [← hown, Lending.issues_own, ← hbalance]
    simp [Lending.Ledger.out]

/-- The pool is a queue of the empty small segments but the current one, and of all of them. -/
theorem run_pool_exact : ∃ (c : Core) (es : List (Lending.Event Block BlockState)) (q : List ℕ),
    Core.run bd host env cmds (.init bd host s) = some (c, es) ∧ q.Nodup ∧
    LinkedDeque.Linked c.alloc.pool q.reverse ∧ c.alloc.pooledCount = q.length ∧
    q.length ≤ c.alloc.poolCap ∧
    ∀ base, base ∈ q ↔ c.alloc.registered base = true ∧ (c.seg base).kind = .small ∧
      (c.seg base).live = 0 ∧ base ≠ c.smallCur := by
  obtain ⟨c, es, he, hd⟩ := run_does bd host env s cmds
  obtain ⟨q, hw, ht⟩ := hd.ready
  have hcount : c.alloc.pooledCount = q.length := hw.pool.count
  refine ⟨c, es, q, he, hw.pool.nodup, hw.pool.linked, hcount, hcount ▸ hw.pool.cap, fun base =>
    ⟨fun hm => ?_, ?_⟩⟩
  · obtain ⟨hr, hkind, hlive, hcur⟩ := hw.pool.member base hm
    exact ⟨hr, poolKind_small.mp hkind, hlive, hcur⟩
  · rintro ⟨hr, hkind, hlive, hcur⟩
    obtain hm | hm | hm := ht base hr hkind hlive
    · exact hm
    · exact absurd hm hcur
    · exact absurd hm (hw.ne_zero hr)

/-- Once it is there, the directory has the bit of a class and a slot if and only if the slot's
segment has a free block of the class, and a class cursor never names a slot without a segment. -/
theorem run_directory_exact : ∃ c es, Core.run bd host env cmds (.init bd host s) = some (c, es) ∧
    (∀ d, c.alloc.directory = some d → ∀ cls < bd.small.sizes.count, ∀ slot < maxSegments,
      (d.get 0 cls slot = true ↔ ∃ base, c.baseAt slot = base ∧ c.alloc.registered base = true ∧
        ∃ off, (off, cls) ∈ (c.blocks base).carved ∧ (c.blocks base).place off = .free)) ∧
    ∀ cls slot, c.alloc.smallClassCursor cls = some slot →
      c.alloc.registered (c.baseAt slot) = true := by
  obtain ⟨c, es, he, hd⟩ := run_does bd host env s cmds
  obtain ⟨q, hw, -⟩ := hd.ready
  refine ⟨c, es, he, fun d hdir cls hcls slot hslot => ?_, fun cls slot hk =>
    (Core.baseAt_ne (hw.cursors cls slot hk)).2.2.1⟩
  rw [(hw.directory d hdir).exact cls hcls slot hslot]
  constructor
  · rintro ⟨h0, hsome⟩
    have hr := (Core.baseAt_ne h0).2.2.1
    refine ⟨_, rfl, hr, ?_⟩
    by_contra hnone
    refine hsome ((head_eq_none (hw.kept hr)).mpr fun x hx hfree => hnone ⟨x, hx, hfree⟩)
  · rintro ⟨base, rfl, hr, off, hx, hfree⟩
    exact ⟨hw.ne_zero hr, fun hnone => (head_eq_none (hw.kept hr)).mp hnone off hx hfree⟩

/-- No block that is out reaches beyond what its segment has committed. -/
theorem run_committed : ∃ c es, Core.run bd host env cmds (.init bd host s) = some (c, es) ∧
    ∀ b, c.held b ≠ none → b.2.1 % bd.small.sizes.blockSize b.2.2 = 0 ∧
      bd.small.payloadStart (c.seg b.1).kind ≤ b.2.1 ∧
      b.2.1 + bd.small.sizes.blockSize b.2.2 ≤ segment ∧
      (bd.lazyCommit = true →
        b.2.1 + bd.small.sizes.blockSize b.2.2 ≤ (c.alloc.homes b.1).committedPayloadEnd) := by
  obtain ⟨c, es, he, hd⟩ := run_does bd host env s cmds
  obtain ⟨q, hw, -⟩ := hd.ready
  refine ⟨c, es, he, fun b hb => ?_⟩
  obtain ⟨hr, hx, -⟩ := Core.held_ne_none.mp hb
  obtain ⟨-, hstart, hmod, hend, hbump⟩ := hw.placed_block hr hx
  exact ⟨hmod, hstart, hend.trans hbump, fun hlazy => hend.trans (hw.frontier hlazy b.1 hr).1⟩

end

/-! ## A run with frees of another thread -/

lemma lazyBuild_classes : 49 = misuseBuild.small.sizes.count := by decide +kernel

lemma lazyBuild_slack (kind : Kind) :
    misuseBuild.small.payloadStart kind + growChunk + maxRealisticPageSize ≤ segment := by
  cases kind <;> decide +kernel

/-- `misuseBuild` with lazy commit and one bucket of the directory. -/
def lazyBuild : Build where
  toBuild := { misuseBuild with directory := ⟨0, 49, classes_fit⟩, lazySmall := true }
  decayInterval := 100
  shared := rfl
  classes_eq := lazyBuild_classes
  slack := lazyBuild_slack

lemma pageHost_realistic : ∀ p ∈ some 4096, 0 < p ∧ p ≤ maxRealisticPageSize := by
  rintro p ⟨⟩
  decide

def pageHost : Host := ⟨some 4096, pageHost_realistic⟩

lemma segment_ne_zero : segment ≠ 0 := by decide

lemma segment_aligned : segment % segment = 0 := by decide

/-- A routed core with the segment at `segment`. -/
def routedStart : Start :=
  ⟨segment, segment_ne_zero, segment_aligned, 2, some 0, packedSystem, fun _ => 0⟩

/-- Two blocks are freed by other threads as soon as they can be; the system grants everything. -/
def twoFrees (i : ℕ) : Answers where
  posts := [(segment, 392704, 20), (segment, 390816, 20)]
  notified slot := slot = 0
  os := grantAll
  now := i
  first := some ((i + 2) * segment)
  second := none
  slot := some 1
  system := packedSystem
  memory _ := 0
  directory := true

/-- Three blocks are parked, two go out, and a bounded drain takes the word of one of these. -/
def parkedRun : List Command :=
  [.refill 20 3 .mag, .mark 20 (segment + 392704) .live, .mark 20 (segment + 390816) .live,
    .drainBounded 0 383 1]

/-- The magazine with the block that is parked still. -/
def parkedBlock : List (ℕ × List ℕ) := [(20, [segment + 394592])]

lemma parkedRun_result :
    (Core.run lazyBuild pageHost twoFrees parkedRun (.init lazyBuild pageHost routedStart)).map
      (fun r => ((r.2.length, (r.1.pending segment).length), r.1.isRouted,
        decide (r.1.Allowed lazyBuild (.trim parkedBlock)))) = some ((5, 1), true, true) := by
  decide +kernel

lemma parkedRun_ends : ∃ c es, Core.run lazyBuild pageHost twoFrees parkedRun
      (.init lazyBuild pageHost routedStart) = some (c, es) ∧
    c.isRouted = true ∧ c.Allowed lazyBuild (.trim parkedBlock) := by
  obtain ⟨⟨c, es⟩, hrun, hr⟩ := Option.map_eq_some_iff.mp parkedRun_result
  simp only [Prod.mk.injEq, decide_eq_true_eq] at hr
  exact ⟨c, es, hrun, hr.2⟩

/-! ## What one operation does after a run -/

section
variable {bd : Build} {host : Host} {env : ℕ → Answers} {s : Start} {cmds : List Command} {cls : ℕ}
  {c : Core} {es : List (Lending.Event Block BlockState)}

/-- No registered segment has a free block of the class. -/
def Core.NothingFree (c : Core) (cls : ℕ) : Prop := ∀ base, c.alloc.registered base = true →
  ∀ off, (off, cls) ∈ (c.blocks base).carved → (c.blocks base).place off ≠ .free

lemma Core.Ready.nothingFree {root : ℕ} (h : c.Ready bd root) (hclear : ∀ s, c.Clear cls s) :
    c.NothingFree cls := fun base hr => by
  obtain ⟨q, hw, -⟩ := h
  have hbase := hw.baseAt_slot hr
  have hnone := hclear (c.alloc.homes base).segmentId (hbase.symm ▸ hw.ne_zero hr)
  rw [hbase] at hnone
  exact (head_eq_none (hw.kept hr)).mp hnone

lemma run_ready (hrun : Core.run bd host env cmds (.init bd host s) = some (c, es)) :
    c.Ready bd s.base := by
  obtain ⟨c', es', he, hd⟩ := run_does bd host env s cmds
  obtain ⟨rfl, rfl⟩ := Prod.mk.inj (Option.some.inj (hrun.symm.trans he))
  exact hd.ready

/-- After every run an allocation answers null only if no segment has a free block of the class,
and a refill hands out at most what is wanted, and nothing only in that case. -/
theorem alloc_null_only_if_nothing_free
    (hrun : Core.run bd host env cmds (.init bd host s) = some (c, es))
    (hcls : cls < bd.small.sizes.count) (want : ℕ) {st : BlockState} (hst : st ≠ .free) :
    (∃ c' r, c.allocSmall bd host env cls = some (c', r) ∧ (r = none → c'.NothingFree cls)) ∧
    ∃ c' ps, c.refillClassBump bd host env cls want st = some (c', ps) ∧ ps.length ≤ want ∧
      (ps = [] → want ≠ 0 → c'.NothingFree cls) := by
  obtain ⟨q, hw, ht⟩ := run_ready hrun
  obtain ⟨c₁, r, he₁, hd₁, hclear₁⟩ := hw.allocSmall ht hcls host env
  obtain ⟨c₂, ps, he₂, hd₂, hlen, hclear₂⟩ := hw.refillClassBump ht hcls host env want hst
  exact ⟨⟨c₁, r, he₁, fun hn => hd₁.ready.nothingFree (hclear₁ hn)⟩,
    c₂, ps, he₂, hlen, fun hn hne => hd₂.ready.nothingFree (hclear₂ hn hne)⟩

theorem parkedRun_alloc : ∃ c es, Core.run lazyBuild pageHost twoFrees parkedRun
      (.init lazyBuild pageHost routedStart) = some (c, es) ∧
    (∃ c' r, c.allocSmall lazyBuild pageHost twoFrees 20 = some (c', r) ∧
      (r = none → c'.NothingFree 20)) ∧
    ∃ c' ps, c.refillClassBump lazyBuild pageHost twoFrees 20 3 .mag = some (c', ps) ∧
      ps.length ≤ 3 ∧ (ps = [] → 3 ≠ 0 → c'.NothingFree 20) := by
  obtain ⟨c, es, hrun, -⟩ := parkedRun_ends
  exact ⟨c, es, hrun, alloc_null_only_if_nothing_free hrun (by decide +kernel) 3 (by decide)⟩

/-- After every run a search finds a segment of the table outside the pool with a free block of the
class, or there is none; and a forced search of a routed core that finds none has taken back every
block of the class that was published before it. -/
theorem search_exact (hrun : Core.run bd host env cmds (.init bd host s) = some (c, es))
    (hcls : cls < bd.small.sizes.count) (rescue : Bool) :
    ∃ c' hit, c.findSegmentWithFree bd env cls rescue = some (c', hit) ∧
      (∀ base ∈ hit, c'.alloc.registered base = true ∧ ¬c'.alloc.IsPooled base ∧
        ∃ off, (off, cls) ∈ (c'.blocks base).carved ∧ (c'.blocks base).place off = .free) ∧
      (hit = none → c'.NothingFree cls ∧ (rescue = true → c.isRouted = true →
        ∀ b ∈ c.ledger.announced, b.2.2 = cls → c'.held b = none)) := by
  obtain ⟨q, hw, ht⟩ := run_ready hrun
  obtain ⟨c', hit, he, hs⟩ := hw.findSegmentWithFree ht hcls env rescue
  obtain ⟨q', hw', htb, hhit⟩ := id hs.found
  refine ⟨c', hit, he, fun base hb => ?_, fun hn => ⟨?_, fun hforced hroute b hb hk => ?_⟩⟩
  · obtain ⟨hr, hsome, hq⟩ := hhit base hb
    refine ⟨hr, (isPooled_iff hw'.pool hr).not.mpr hq, ?_⟩
    by_contra hnone
    exact hsome ((head_eq_none (hw'.kept hr)).mpr fun x hx hfree => hnone ⟨x, hx, hfree⟩)
  · subst hn
    exact Core.Ready.nothingFree ⟨q', hw', htb⟩ (hs.miss rfl)
  · refine not_ne_iff.mp fun hout => ?_
    have hr := (Core.held_ne_none.mp hout).1
    have hbase := hw'.baseAt_slot hr
    have hcombed := hs.rescued hn hforced hroute (c'.alloc.homes b.1).segmentId
      (hbase.symm ▸ hw'.ne_zero hr)
    rw [hbase] at hcombed
    exact hcombed b.2 hb.2 hk

theorem parkedRun_search : ∃ c es, Core.run lazyBuild pageHost twoFrees parkedRun
      (.init lazyBuild pageHost routedStart) = some (c, es) ∧
    ∃ c' hit, c.findSegmentWithFree lazyBuild twoFrees 20 true = some (c', hit) ∧
      (∀ base ∈ hit, c'.alloc.registered base = true ∧ ¬c'.alloc.IsPooled base ∧
        ∃ off, (off, 20) ∈ (c'.blocks base).carved ∧ (c'.blocks base).place off = .free) ∧
      (hit = none → c'.NothingFree 20 ∧ (true = true → c.isRouted = true →
        ∀ b ∈ c.ledger.announced, b.2.2 = 20 → c'.held b = none)) := by
  obtain ⟨c, es, hrun, -⟩ := parkedRun_ends
  exact ⟨c, es, hrun, search_exact hrun (by decide +kernel) true⟩

/-- The segment has a free block of the class. -/
def Core.HasFree (c : Core) (base cls : ℕ) : Prop :=
  ∃ off, (off, cls) ∈ (c.blocks base).carved ∧ (c.blocks base).place off = .free

/-- A linear scan visits the slots with a segment once each, from behind the class cursor and then
from the start. It ends at the first whose segment has a free block of the class: it leaves none in
the segments of the slots before, and visits all slots if there is none. -/
theorem scan_visits_in_order (hrun : Core.run bd host env cmds (.init bd host s) = some (c, es))
    (hcls : cls < bd.small.sizes.count) (deferDrains heal : Bool) :
    ∃ c' p hit, c.scanAround bd env cls deferDrains heal = some (c', p, hit) ∧
      p.visited.reverse <+: c.scanOrder cls ∧
      (∀ base ∈ hit, ∃ slot, p.visited.head? = some slot ∧ c.baseAt slot = base ∧
        c'.alloc.registered base = true ∧ ¬c'.alloc.IsPooled base ∧ c'.HasFree base cls) ∧
      (∀ slot ∈ p.visited, hit = none ∨ p.visited.head? ≠ some slot →
        c'.baseAt slot ≠ 0 → ¬c'.HasFree (c'.baseAt slot) cls) ∧
      (hit = none → p.visited.reverse = c.scanOrder cls) ∧
      (c.scanOrder cls).Nodup ∧ ∀ slot, slot ∈ c.scanOrder cls ↔ c.baseAt slot ≠ 0 := by
  obtain ⟨q, hw, ht⟩ := run_ready hrun
  obtain ⟨c', p, hit, he, hscan⟩ := hw.scanAround ht hcls env deferDrains heal
  obtain ⟨q', hw', -, hfound⟩ := id hscan.found
  have hlast := @List.getLast?_reverse _ p.visited
  refine ⟨c', p, hit, he, hscan.order, fun base hb => ?_, fun slot hm hor h0 => ?_,
    fun hn => (hscan.all hn).1, ?_, ?_⟩
  · obtain ⟨slot, hslot, hbase⟩ := hscan.last base hb
    obtain ⟨hr, hsome, hq⟩ := hfound base hb
    refine ⟨slot, hlast ▸ hslot, hbase, hr, (isPooled_iff hw'.pool hr).not.mpr hq, ?_⟩
    by_contra hnone
    exact hsome ((head_eq_none (hw'.kept hr)).mpr fun x hx hfree => hnone ⟨x, hx, hfree⟩)
  · have hpassed : Core.Passed bd env s.base c c' cls deferDrains slot := by
      obtain hn | hne := hor
      · exact (hscan.all hn).2 slot
      · exact hscan.earlier slot (List.mem_reverse.mpr hm) (hlast.symm ▸ hne)
    rintro ⟨off, hoff, hfree⟩
    exact (head_eq_none (hw'.kept (Core.baseAt_ne h0).2.2.1)).mp (hpassed.1 h0) off hoff hfree
  · exact c.scanOrder_nodup cls
  · exact c.mem_scanOrder cls

theorem parkedRun_scan : ∃ c es, Core.run lazyBuild pageHost twoFrees parkedRun
      (.init lazyBuild pageHost routedStart) = some (c, es) ∧
    ∃ c' p hit, c.scanAround lazyBuild twoFrees 20 false true = some (c', p, hit) ∧
      p.visited.reverse <+: c.scanOrder 20 ∧
      (∀ base ∈ hit, ∃ slot, p.visited.head? = some slot ∧ c.baseAt slot = base ∧
        c'.alloc.registered base = true ∧ ¬c'.alloc.IsPooled base ∧ c'.HasFree base 20) ∧
      (∀ slot ∈ p.visited, hit = none ∨ p.visited.head? ≠ some slot →
        c'.baseAt slot ≠ 0 → ¬c'.HasFree (c'.baseAt slot) 20) ∧
      (hit = none → p.visited.reverse = c.scanOrder 20) ∧
      (c.scanOrder 20).Nodup ∧ ∀ slot, slot ∈ c.scanOrder 20 ↔ c.baseAt slot ≠ 0 := by
  obtain ⟨c, es, hrun, -⟩ := parkedRun_ends
  exact ⟨c, es, hrun, scan_visits_in_order hrun (by decide +kernel) false true⟩

/-- A drain of a routed core takes back every block that was published before it. -/
theorem drain_takes_back (hrun : Core.run bd host env cmds (.init bd host s) = some (c, es))
    (hroute : c.isRouted = true) :
    ∃ c', c.drainSidecarIngress bd env = some c' ∧ ∀ b ∈ c.ledger.announced, c'.held b = none := by
  obtain ⟨q, hw, ht⟩ := run_ready hrun
  obtain ⟨c', he, -, -, hback⟩ := hw.drainSidecarIngress ht env
  exact ⟨c', he, hback hroute⟩

theorem parkedRun_drain : ∃ c es, Core.run lazyBuild pageHost twoFrees parkedRun
      (.init lazyBuild pageHost routedStart) = some (c, es) ∧
    ∃ c', c.drainSidecarIngress lazyBuild twoFrees = some c' ∧
      ∀ b ∈ c.ledger.announced, c'.held b = none := by
  obtain ⟨c, es, hrun, hroute, -⟩ := parkedRun_ends
  exact ⟨c, es, hrun, drain_takes_back hrun hroute⟩

/-- A trim takes back the blocks of the magazines and leaves the others with whom they are. Every
small segment that it leaves in the table has a block that is out. -/
theorem trim_leaves_busy_segments (hrun : Core.run bd host env cmds (.init bd host s) = some (c, es))
    {mags : List (ℕ × List ℕ)} (ha : c.Allowed bd (.trim mags)) :
    ∃ c', Core.trimColdRetention bd mags c = some c' ∧ c'.alloc.pooledCount = 0 ∧
      (∀ b ∈ Core.blocksOf mags, c'.held b = none) ∧ (∀ b ∉ Core.blocksOf mags, c'.held b = c.held b) ∧
      ∀ base, c'.alloc.registered base = true → (c'.seg base).kind = .small →
        ∃ b, b.1 = base ∧ c'.held b ≠ none := by
  obtain ⟨q, hw, ht⟩ := run_ready hrun
  obtain ⟨c', he, hd, htrim, hcount, hback⟩ := hw.trimColdRetention mags ht env ha.1
    fun g hg p hp => (ha.2 g hg p hp).returnable
  obtain ⟨q', hw', -⟩ := hd.ready
  refine ⟨c', he, hcount, fun b hb => hback.givenBack hb, fun b hb => (hback.others hb).1,
    fun base hr hkind => ?_⟩
  have hlive : (c'.seg base).live = _ := (hw'.kept hr).represents.live
  have hbusy := htrim base hr hkind
  rw [hlive, Blocks.liveCount] at hbusy
  obtain ⟨x, hx, hne⟩ := List.countP_pos_iff.mp (Nat.pos_of_ne_zero hbusy)
  exact ⟨(base, x), rfl, Core.held_ne_none.mpr ⟨hr, hx, by simpa using hne⟩⟩

theorem parkedRun_trim : ∃ c es, Core.run lazyBuild pageHost twoFrees parkedRun
      (.init lazyBuild pageHost routedStart) = some (c, es) ∧
    ∃ c', Core.trimColdRetention lazyBuild parkedBlock c = some c' ∧ c'.alloc.pooledCount = 0 ∧
      (∀ b ∈ Core.blocksOf parkedBlock, c'.held b = none) ∧
      (∀ b ∉ Core.blocksOf parkedBlock, c'.held b = c.held b) ∧
      ∀ base, c'.alloc.registered base = true → (c'.seg base).kind = .small →
        ∃ b, b.1 = base ∧ c'.held b ≠ none := by
  obtain ⟨c, es, hrun, -, ha⟩ := parkedRun_ends
  exact ⟨c, es, hrun, trim_leaves_busy_segments hrun ha⟩

end

end SmallCore

end SeferAlloc
