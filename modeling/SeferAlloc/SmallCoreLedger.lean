import SeferAlloc.Lending
import SeferAlloc.SmallCoreInvariant

/-!
# Who holds the blocks of the core

A block is out from the moment it leaves a free list or is carved until its free
is accepted. The frees of other threads are announced on the route, and a drain
collects them.
-/
namespace SeferAlloc
namespace SmallCore
open Small SmallBatch SmallBatch.AllocCore ScanBackoff

/-- The base of a segment, and the offset and the class of a block. -/
abbrev Block := ℕ × ℕ × ℕ

/-- Two blocks share a byte. -/
def Clash (bd : Build) (p q : Block) : Prop :=
  p.1 + p.2.1 < q.1 + q.2.1 + bd.small.sizes.blockSize q.2.2 ∧
    q.1 + q.2.1 < p.1 + p.2.1 + bd.small.sizes.blockSize p.2.2

/-- The state of a block that is out. -/
def heldIn (b : Blocks) (x : ℕ × ℕ) : Option BlockState :=
  haveI := decidableCarved
  if x ∈ b.carved ∧ b.place x.1 ≠ .free then some (b.place x.1) else none

lemma heldIn_ne_none {b : Blocks} {x : ℕ × ℕ} :
    heldIn b x ≠ none ↔ x ∈ b.carved ∧ b.place x.1 ≠ .free := by
  rw [heldIn]
  split_ifs with h <;> simp [h]

lemma heldIn_new (x : ℕ × ℕ) : heldIn .new x = none :=
  not_ne_iff.mp fun h => List.not_mem_nil (heldIn_ne_none.mp h).1

lemma heldIn_putAll {b : Blocks} {offs : List ℕ} {st : BlockState} (hst : st ≠ .free) {cls : ℕ}
    (hoffs : ∀ x ∈ offs, ∀ k, (x, k) ∈ b.carved ↔ k = cls) (x : ℕ × ℕ) :
    heldIn (b.putAll offs st) x = if x ∈ offs.map (·, cls) then some st else heldIn b x := by
  obtain ⟨off, k⟩ := x
  have hmem : (off, k) ∈ offs.map (·, cls) ↔ off ∈ offs ∧ k = cls := by
    simp only [List.mem_map, Prod.mk.injEq]
    exact ⟨fun ⟨_, ha, he, hk⟩ => ⟨he ▸ ha, hk.symm⟩, fun ⟨ha, hk⟩ => ⟨off, ha, rfl, hk.symm⟩⟩
  simp only [heldIn, Blocks.putAll, hmem]
  by_cases hoff : off ∈ offs
  · simp only [hoff, if_true, true_and, hoffs off hoff k]
    by_cases hk : k = cls
    · simp [hk, hst]
    · simp [hk]
  · simp [hoff]

lemma heldIn_putAll_free (b : Blocks) (offs : List ℕ) (x : ℕ × ℕ) :
    heldIn (b.putAll offs .free) x = if x.1 ∈ offs then none else heldIn b x := by
  simp only [heldIn, Blocks.putAll]
  by_cases hx : x.1 ∈ offs <;> simp [hx]

lemma mem_carveAll {b : Blocks} {cls : ℕ} {st : BlockState} (offs : List ℕ) (x : ℕ × ℕ) :
    (x ∈ (b.carveAll cls st offs).carved ↔ x ∈ b.carved ∨ x ∈ offs.map (·, cls)) ∧
      (b.carveAll cls st offs).place x.1 = if x.1 ∈ offs then st else b.place x.1 := by
  induction offs generalizing b with
  | nil => simp [Blocks.carveAll]
  | cons off offs ih =>
      obtain ⟨hmem, hplace⟩ := ih (b := b.carve off cls st)
      rw [Blocks.carveAll, List.foldl_cons]
      refine ⟨hmem.trans ?_, hplace.trans ?_⟩
      · simp only [Blocks.carve, List.mem_cons, List.map_cons]
        tauto
      · simp only [Blocks.carve, List.mem_cons, Function.update_apply]
        by_cases hx : x.1 = off <;> simp [hx]

lemma heldIn_carveAll {b : Blocks} {offs : List ℕ} {st : BlockState} (hst : st ≠ .free) {cls : ℕ}
    (hoffs : ∀ x ∈ offs, ∀ k, (x, k) ∉ b.carved) (x : ℕ × ℕ) :
    heldIn (b.carveAll cls st offs) x = if x ∈ offs.map (·, cls) then some st else heldIn b x := by
  obtain ⟨hmem, hplace⟩ := @mem_carveAll b cls st offs x
  have hoff : x ∈ offs.map (·, cls) → x.1 ∈ offs := fun hx => by
    obtain ⟨off, hoff, rfl⟩ := List.mem_map.mp hx
    exact hoff
  simp only [heldIn, hmem, hplace]
  by_cases hx : x ∈ offs.map (·, cls)
  · simp [hx, hoff hx, hst]
  · simp only [hx, or_false, if_false]
    by_cases hc : x ∈ b.carved
    · have hnot : x.1 ∉ offs := fun hm => hoffs _ hm x.2 hc
      simp [hc, hnot]
    · simp [hc]

namespace Core

/-- The state of a block that is out. -/
def held (c : Core) (p : Block) : Option BlockState :=
  if c.alloc.registered p.1 = true then heldIn (c.blocks p.1) p.2 else none

/-- The blocks that are out and the published frees. -/
def ledger (c : Core) : Lending.Ledger Block BlockState :=
  ⟨c.held, {p | c.alloc.registered p.1 = true ∧ p.2 ∈ c.pending p.1}⟩

section
variable {bd : Build} {root base cls : ℕ} {c c' : Core} {q : List ℕ} {p : Block}

lemma held_ne_none : c.held p ≠ none ↔ c.alloc.registered p.1 = true ∧
    p.2 ∈ (c.blocks p.1).carved ∧ (c.blocks p.1).place p.2.1 ≠ .free := by
  rw [held]
  split_ifs with h
  · exact heldIn_ne_none.trans (and_iff_right h).symm
  · simp [h]

/-- Where a block lies in its segment. -/
lemma Wf.placed_block (h : c.Wf bd root q) (hr : c.alloc.registered p.1 = true)
    (hx : p.2 ∈ (c.blocks p.1).carved) :
    p.2.2 < bd.small.sizes.count ∧ bd.small.payloadStart (c.seg p.1).kind ≤ p.2.1 ∧
      p.2.1 % bd.small.sizes.blockSize p.2.2 = 0 ∧
      p.2.1 + bd.small.sizes.blockSize p.2.2 ≤ (c.seg p.1).bump ∧ (c.seg p.1).bump ≤ segment := by
  have hrep := (h.kept hr).represents
  obtain ⟨h1, h2, h3, h4⟩ := hrep.placed _ hx
  exact ⟨h1, h2, h3, h4, hrep.cursor.2⟩

/-- The offset of a block tells its class. -/
lemma Wf.class_unique (h : c.Wf bd root q) (hr : c.alloc.registered base = true) {off k : ℕ}
    (hx : (off, cls) ∈ (c.blocks base).carved) : (off, k) ∈ (c.blocks base).carved ↔ k = cls := by
  refine ⟨fun hk => ?_, fun hk => hk ▸ hx⟩
  have hinj := List.inj_on_of_nodup_map (h.kept hr).represents.offset_nodup
  exact congrArg Prod.snd (hinj hk hx rfl)

/-- Blocks that are out do not overlap. -/
lemma Wf.apart (h : c.Wf bd root q) : c.ledger.Apart (Clash bd) := by
  rintro ⟨base, x⟩ ⟨base', y⟩ hne hx hy ⟨hxy, hyx⟩
  obtain ⟨hr, hx, -⟩ := held_ne_none.mp hx
  obtain ⟨hr', hy, -⟩ := held_ne_none.mp hy
  obtain ⟨-, -, -, hxe, hxs⟩ := h.placed_block (p := (base, x)) hr hx
  obtain ⟨-, -, -, hye, hys⟩ := h.placed_block (p := (base', y)) hr' hy
  have ha := h.aligned base hr
  have ha' := h.aligned base' hr'
  dsimp only at *
  have hpos := (bd.small.sizes.blockSize_granular x.2).1
  have hpos' := (bd.small.sizes.blockSize_granular y.2).1
  by_cases hb : base = base'
  · subst hb
    have hne' : x ≠ y := fun he => hne (he ▸ rfl)
    have : Std.Symm (Apart bd.small) := ⟨fun _ _ huv => huv.symm⟩
    have hap := (h.kept hr).represents.apart.forall hx hy hne'
    rcases hap with hap | hap <;> omega
  · simp only [segment] at *
    omega

/-- Only blocks that are out are published. -/
lemma Wf.sane (h : c.Wf bd root q) : c.ledger.Sane := fun p hp => by
  obtain ⟨hx, hlive⟩ := (h.pending p.1 hp.1).2 p.2 hp.2
  exact held_ne_none.mpr ⟨hp.1, hx, by simp [hlive]⟩

lemma ledger_congr (hr : c'.alloc.registered = c.alloc.registered)
    (hb : ∀ base, c.alloc.registered base = true → c'.blocks base = c.blocks base)
    (hp : ∀ base, c.alloc.registered base = true → c'.pending base = c.pending base) :
    c'.ledger = c.ledger := by
  refine Lending.Ledger.ext (funext fun p => ?_) (Set.ext fun p => ?_)
  · simp only [ledger, held, hr]
    split_ifs with h
    · rw [hb _ h]
    · rfl
  · simp only [ledger, Set.mem_ofPred_eq, hr]
    refine and_congr_right fun h => ?_
    rw [hp _ h]

/-- An operation on one segment changes the state of its blocks alone. -/
lemma ledger_touch {alloc : AllocCore} {b : Blocks} (hr : c.alloc.registered base = true)
    (hreg : alloc.registered = c.alloc.registered) {l : Lending.Ledger Block BlockState}
    (hl : l.announced = c.ledger.announced)
    (hb : ∀ x, l.held (base, x) = heldIn b x)
    (hother : ∀ p : Block, p.1 ≠ base → l.held p = c.held p) :
    (c.touch alloc base b).ledger = l := by
  refine Lending.Ledger.ext (funext fun p => ?_) ?_
  · obtain ⟨x, y⟩ := p
    change (if alloc.registered x = true then heldIn (Function.update c.blocks base b x) y else none) = _
    by_cases hx : x = base
    · subst hx
      rw [hreg, if_pos hr, Function.update_self, hb]
    · rw [hreg, Function.update_of_ne hx, hother _ hx]
      rfl
  · rw [hl]
    refine Set.ext fun p => ?_
    change alloc.registered p.1 = true ∧ _ ↔ _
    rw [hreg]
    rfl

/-- Blocks leave a free list. -/
lemma Wf.ledger_putAll (h : c.Wf bd root q) (hr : c.alloc.registered base = true)
    {alloc : AllocCore} (hreg : alloc.registered = c.alloc.registered) {offs : List ℕ}
    {st : BlockState} (hst : st ≠ .free) (hoffs : ∀ x ∈ offs, (x, cls) ∈ (c.blocks base).carved) :
    (c.touch alloc base ((c.blocks base).putAll offs st)).ledger =
      c.ledger.setAll (offs.map fun x => (base, x, cls)) (some st) := by
  refine ledger_touch hr hreg rfl (fun x => ?_) fun p hp => ?_
  · rw [@heldIn_putAll _ _ _ hst cls fun y hy k => h.class_unique hr (hoffs y hy)]
    simp [Lending.Ledger.setAll, ledger, held, hr, Prod.ext_iff]
  · have hnot : p ∉ offs.map fun x => (base, x, cls) := fun hm => by
      obtain ⟨x, -, rfl⟩ := List.mem_map.mp hm
      exact hp rfl
    exact if_neg hnot

/-- Blocks are carved. -/
lemma Wf.ledger_carveAll (h : c.Wf bd root q) (hr : c.alloc.registered base = true)
    {alloc : AllocCore} (hreg : alloc.registered = c.alloc.registered) {offs : List ℕ}
    {st : BlockState} (hst : st ≠ .free) (hoffs : ∀ x ∈ offs, (c.seg base).bump ≤ x) :
    (c.touch alloc base ((c.blocks base).carveAll cls st offs)).ledger =
      c.ledger.setAll (offs.map fun x => (base, x, cls)) (some st) := by
  refine ledger_touch hr hreg rfl (fun x => ?_) fun p hp => ?_
  · rw [@heldIn_carveAll _ _ _ hst cls fun y hy k hm => ?_]
    · simp [Lending.Ledger.setAll, ledger, held, hr, Prod.ext_iff]
    · obtain ⟨-, -, -, hend, -⟩ := h.placed_block (p := (base, y, k)) hr hm
      have hle := hoffs y hy
      have hpos := (bd.small.sizes.blockSize_granular k).1
      dsimp only at *
      omega
  · have hnot : p ∉ offs.map fun x => (base, x, cls) := fun hm => by
      obtain ⟨x, -, rfl⟩ := List.mem_map.mp hm
      exact hp rfl
    exact if_neg hnot

/-- A free is accepted. -/
lemma Wf.ledger_put (h : c.Wf bd root q) (hr : c.alloc.registered base = true)
    {alloc : AllocCore} (hreg : alloc.registered = c.alloc.registered) {off : ℕ}
    (hx : (off, cls) ∈ (c.blocks base).carved) :
    (c.touch alloc base ((c.blocks base).put off .free)).ledger =
      c.ledger.set (base, off, cls) none := by
  rw [← Blocks.putAll_singleton]
  refine ledger_touch hr hreg rfl (fun x => ?_) fun p hp => ?_
  · obtain ⟨y, k⟩ := x
    change Function.update _ _ _ _ = _
    rw [heldIn_putAll_free, Function.update_apply]
    simp only [Prod.mk.injEq, true_and, List.mem_singleton]
    by_cases hy : y = off
    · subst hy
      by_cases hk : k = cls
      · simp [hk]
      · have hnot : (y, k) ∉ (c.blocks base).carved := fun hm => hk ((h.class_unique hr hx).mp hm)
        simp only [hk, and_false, if_false, if_true]
        exact not_ne_iff.mp fun hn => hnot (held_ne_none.mp hn).2.1
    · simp [hy, ledger, held, hr]
  · have hne : p ≠ (base, off, cls) := fun he => hp (he ▸ rfl)
    exact Lending.set_held_of_ne hne

end

end Core

/-! ## Traces -/

/-- The events lead from one core to the other, and others announce only what the questions
between the two have as posts. -/
structure Traced (bd : Build) (env : ℕ → Answers) (c : Core)
    (es : List (Lending.Event Block BlockState)) (c' : Core) : Prop where
  run : Lending.Run (Clash bd) c.ledger es c'.ledger
  clock : c.clock ≤ c'.clock
  posts : (es.filterMap Lending.Event.announced).Sublist
    ((List.range' c.clock (c'.clock - c.clock)).flatMap fun i => (env i).posts)

section
variable {bd : Build} {env : ℕ → Answers} {c c₁ c' : Core}
  {es es' : List (Lending.Event Block BlockState)}

lemma Traced.append (h : Traced bd env c es c₁) (h' : Traced bd env c₁ es' c') :
    Traced bd env c (es ++ es') c' := by
  refine ⟨h.run.append h'.run, h.clock.trans h'.clock, ?_⟩
  obtain ⟨m, hm⟩ := Nat.exists_eq_add_of_le h.clock
  obtain ⟨n, hn⟩ := Nat.exists_eq_add_of_le h'.clock
  have hsplit : List.range' c.clock (c'.clock - c.clock) =
      List.range' c.clock (c₁.clock - c.clock) ++ List.range' c₁.clock (c'.clock - c₁.clock) := by
    have h1 : c'.clock - c.clock = m + n := by omega
    have h2 : c₁.clock - c.clock = m := by omega
    have h3 : c'.clock - c₁.clock = n := by omega
    rw [h1, h2, h3, hm, ← List.range'_append_1]
  rw [List.filterMap_append, hsplit, List.flatMap_append]
  exact h.posts.append h'.posts

/-- Events without announcements. -/
lemma Traced.quiet (h : Lending.Run (Clash bd) c.ledger es c'.ledger) (hclock : c.clock ≤ c'.clock)
    (hes : es.filterMap Lending.Event.announced = []) : Traced bd env c es c' :=
  ⟨h, hclock, hes ▸ List.nil_sublist _⟩

/-- The blocks stay with whom they are. -/
lemma Traced.silent (h : c'.ledger = c.ledger) (hclock : c.clock ≤ c'.clock) :
    Traced bd env c [] c' := .quiet (h ▸ .nil _) hclock rfl

lemma Traced.refl (c : Core) : Traced bd env c [] c := .silent rfl le_rfl

end

end SmallCore

end SeferAlloc
