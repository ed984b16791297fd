import SeferAlloc.HeapCoreFrees
import SeferAlloc.SmallHeapRuns

/-!
# Conservation along every run

The caller allocates and frees, the heap ticks and flushes. After every run
each block that the core handed out is in one place, or was flushed.
-/
namespace SeferAlloc
namespace Small

/-- The address of the primordial segment. -/
structure PrimordialBase where
  base : ℕ
  aligned : base % segment = 0
  ne_zero : base ≠ 0

/-- A heap and the blocks that its user holds, by class. -/
structure Machine where
  heap : HeapCore
  user : ℕ → Multiset ℕ

namespace Machine

/-- What the user asks of the heap; `c` is the class of the layout. A tick comes with cold work
of other kinds. -/
inductive Command where
  | alloc (c : ℕ)
  | allocZeroed (c : ℕ)
  | allocBatch (c want : ℕ)
  | dealloc (c p : ℕ)
  | tick
  | segmentTick (c : ℕ)
  | flushAll

/-- A small class; and a free is of a block of the user, or with the misuse checks of any pointer
into a segment of the heap. -/
def Allowed (bd : Build) (m : Machine) : Command → Prop
  | .alloc c | .allocZeroed c | .allocBatch c _ => c < bd.sizes.count
  | .dealloc c p => p ∈ m.user c ∨ bd.misuseChecks = true ∧ c < bd.sizes.count ∧
      m.heap.core.world.heap.mapped (segmentBaseOfPtr p) = true
  | .tick | .segmentTick _ | .flushAll => True

instance (bd : Build) (m : Machine) : (c : Command) → Decidable (m.Allowed bd c)
  | .alloc _ | .allocZeroed _ | .allocBatch .. => inferInstanceAs (Decidable (_ < _))
  | .dealloc .. => inferInstanceAs (Decidable (_ ∨ _ ∧ _ ∧ _))
  | .tick | .segmentTick _ | .flushAll => inferInstanceAs (Decidable True)

/-- `none` is an abort. -/
def exec (bd : Build) (env : Surroundings) (m : Machine) : Command → Option Machine
  | .alloc c => do
      let (h, p) ← m.heap.alloc bd env c
      return ⟨h, give m.user c p⟩
  | .allocZeroed c => do
      let (h, p, _) ← m.heap.allocSmallZeroedViaMagazine bd env c
      return ⟨h, give m.user c p⟩
  | .allocBatch c want => do
      let (h, ps) ← m.heap.allocBatch bd env c want
      return ⟨h, Function.update m.user c (m.user c + ps)⟩
  | .dealloc c p => do
      let h ← m.heap.deallocOwn bd env c p
      return ⟨h, Function.update m.user c ((m.user c).erase p)⟩
  | .tick => do return { m with heap := ← m.heap.depotTick bd env }
  | .segmentTick c => do return { m with heap := ← m.heap.depotSegmentTick bd env c }
  | .flushAll => do return { m with heap := ← m.heap.flushAllTcache bd env }

def step (bd : Build) (env : Surroundings) (m : Machine) (c : Command) : Option Machine :=
  if m.Allowed bd c then m.exec bd env c else some m

def run (bd : Build) (env : Surroundings) : List Command → Machine → Option Machine
  | [], m => some m
  | c :: cs, m => do run bd env cs (← m.step bd env c)

/-- A new heap, with or without the depot of its slot. -/
def start (bd : Build) (b : PrimordialBase) (budget : ℕ) (bound : Bool) : Machine :=
  let h := HeapCore.new bd b.base budget
  ⟨if bound then h.bindDepot bd .empty else h, fun _ => 0⟩

variable {bd : Build} {env : Surroundings} {m : Machine}

/-- Every block has its place, and no call holds one. -/
def Inv (bd : Build) (m : Machine) : Prop := m.heap.Inv bd m.user 0

lemma start_empty (bd : Build) (b : PrimordialBase) (budget : ℕ) (bound : Bool) (c : ℕ) :
    ((start bd b budget bound).heap.tcache c).count = 0 ∧
      ((start bd b budget bound).heap.tcache c).parked = 0 := by
  cases bound
  · exact ⟨rfl, rfl⟩
  · simp only [start, if_true, HeapCore.bindDepot]
    by_cases hc : c < bd.sizes.count
    · rw [if_pos hc]
      exact ⟨rfl, rfl⟩
    · rw [if_neg hc]
      exact ⟨rfl, rfl⟩

lemma start_cached (bd : Build) (b : PrimordialBase) (budget : ℕ) (bound : Bool) :
    (start bd b budget bound).heap.cached = 0 := by
  funext c
  obtain ⟨h0, hp⟩ := start_empty bd b budget bound c
  simp only [HeapCore.cached, PerClass.magazine, HeapCore.floor, h0, hp, Row.blocks_zero]
  cases bound
  · rfl
  · have hring : Depot.empty.ovf.disarmAll.ring c = [] := DepotOverflow.ring_eq_nil rfl
    simp [start, HeapCore.bindDepot, HeapCore.ring, Depot.floor, Depot.ring, hring]

lemma start_inv (bd : Build) (b : PrimordialBase) (budget : ℕ) (bound : Bool) :
    (start bd b budget bound).Inv bd := by
  have hcached := start_cached bd b budget bound
  have hcore : (start bd b budget bound).heap.core = ⟨World.init bd b.base, 0, fun _ => 0,
      fun _ => 0⟩ := by
    cases bound <;> rfl
  refine ⟨?_, ?_, ?_, ?_⟩
  · rw [hcached, hcore]
    have hnone : (World.init bd b.base).Lists 0 .mag := by
      intro c p
      simp [World.Has, World.Holds, World.init, Blocks.new]
    refine ⟨World.sound_init bd b.base, ?_, by rwa [add_zero], ?_, by simp [start], by simp⟩
    · intro x hx
      simp only [World.init, decide_eq_true_eq] at hx
      subst hx
      exact ⟨b.aligned, b.ne_zero⟩
    · intro c p
      simp [start, World.Has, World.Holds, World.init, Blocks.new]
  · rw [hcached, hcore]
    funext c
    simp [start]
  · intro c
    rw [(start_empty bd b budget bound c).1]
    exact Nat.zero_le _
  · intro d hd
    cases bound
    · simp [start, HeapCore.new] at hd
    · obtain rfl := Option.some.inj hd
      exact (DepotOverflow.wf_empty bd.sizes).disarmAll.wf

lemma update_erase {user : ℕ → Multiset ℕ} {c p : ℕ} (hp : p ∈ user c) :
    user = Function.update user c ((user c).erase p) + Pi.single c {p} := by
  funext e
  rw [Pi.add_apply]
  by_cases he : e = c
  · subst e
    rw [Function.update_self, Pi.single_eq_same, add_comm, Multiset.singleton_add,
      Multiset.cons_erase hp]
  · simp [he]

/-- Every command of the user ends, and keeps every block in its place. -/
lemma Inv.exec (h : m.Inv bd) {cmd : Command} (hc : m.Allowed bd cmd) (env : Surroundings) :
    ∃ m', m.exec bd env cmd = some m' ∧ m'.Inv bd := by
  cases cmd with
  | alloc c =>
      obtain ⟨b, p, he, hi⟩ := HeapCore.alloc_spec env h hc
      exact ⟨⟨b, give m.user c p⟩, by simp [Machine.exec, he], hi⟩
  | allocZeroed c =>
      obtain ⟨b, p, v, he, hi⟩ := HeapCore.allocSmallZeroedViaMagazine_spec env h hc
      exact ⟨⟨b, give m.user c p⟩, by simp [Machine.exec, he], hi⟩
  | allocBatch c want =>
      obtain ⟨b, ps, he, hi⟩ := HeapCore.allocBatch_spec env h hc want
      refine ⟨⟨b, Function.update m.user c (m.user c + ps)⟩, by simp [Machine.exec, he], ?_⟩
      unfold Inv
      rw [HeapCore.update_add_single]
      exact hi
  | dealloc c p =>
      by_cases hp : p ∈ m.user c
      · have h' : m.heap.Inv bd (Function.update m.user c ((m.user c).erase p) + Pi.single c {p}) 0 := by
          rw [← update_erase hp]
          exact h
        obtain ⟨b, he, hi⟩ := HeapCore.deallocOwn_live env h'
        exact ⟨⟨b, Function.update m.user c ((m.user c).erase p)⟩, by simp [Machine.exec, he], hi⟩
      · obtain hc | ⟨hm, hc, hmap⟩ := hc
        · exact absurd hc hp
        · refine ⟨m, ?_, h⟩
          simp only [Machine.exec, HeapCore.deallocOwn_other env h hm hc hmap hp]
          simp [Multiset.erase_of_notMem hp]
  | tick =>
      obtain ⟨b, he, hi, -⟩ := HeapCore.depotTick_spec env h
      exact ⟨⟨b, m.user⟩, by simp [Machine.exec, he], hi⟩
  | segmentTick c =>
      obtain ⟨b, he, hi, -⟩ := HeapCore.depotSegmentTick_spec env c h
      exact ⟨⟨b, m.user⟩, by simp [Machine.exec, he], hi⟩
  | flushAll =>
      obtain ⟨b, he, hi⟩ := HeapCore.flushAllTcache_spec env h
      exact ⟨⟨b, m.user⟩, by simp [Machine.exec, he], hi⟩

lemma Inv.run (h : m.Inv bd) (env : Surroundings) (cs : List Command) :
    ∃ m', m.run bd env cs = some m' ∧ m'.Inv bd := by
  induction cs generalizing m with
  | nil => exact ⟨m, rfl, h⟩
  | cons c cs ih =>
      have hstep : ∃ m', m.step bd env c = some m' ∧ m'.Inv bd := by
        unfold step
        split_ifs with hc
        · exact h.exec hc env
        · exact ⟨m, rfl, h⟩
      obtain ⟨x, hx, hi⟩ := hstep
      obtain ⟨y, hy, hj⟩ := ih hi
      exact ⟨y, by rw [Machine.run, hx]; exact hy, hj⟩

/-- Where the blocks of a class are. -/
def places (m : Machine) (c : ℕ) : Multiset ℕ :=
  m.user c + (m.heap.tcache c).magazine + m.heap.floor c + m.heap.ring c

lemma Inv.balanced (h : m.Inv bd) (c : ℕ) :
    m.heap.core.handed c = m.heap.core.flushed c + m.places c := by
  have hb := congrFun h.balance c
  simp only [Pi.add_apply, HeapCore.cached, add_zero] at hb
  rw [hb, places]
  abel

lemma mem_places {c p : ℕ} (hp : p ∈ m.places c) :
    p ∈ m.user c ∨ p ∈ (m.heap.cached + 0 : ℕ → Multiset ℕ) c := by
  simp only [places, Multiset.mem_add] at hp
  simp only [add_zero, HeapCore.cached, Multiset.mem_add]
  tauto

lemma Inv.places_nodup (h : m.Inv bd) (c : ℕ) : (m.places c).Nodup := by
  have hc := h.owned.cached_nodup c
  rw [add_zero, HeapCore.cached] at hc
  have hp : m.places c = m.user c + m.heap.cached c := by
    rw [places, HeapCore.cached]
    abel
  rw [hp, Multiset.nodup_add]
  refine ⟨h.owned.user_nodup c, hc, ?_⟩
  rw [Multiset.disjoint_left]
  intro p hu hp
  exact h.owned.not_both hu (by rwa [add_zero])

lemma Inv.places_disjoint (h : m.Inv bd) {c d : ℕ} (hcd : c ≠ d) :
    Disjoint (m.places c) (m.places d) := by
  rw [Multiset.disjoint_left]
  intro p hc hd
  exact hcd (h.owned.class_eq (mem_places hc) (mem_places hd))

/-- Depot and magazine conservation. Every run of allocations, own frees, ticks and full flushes
ends without an abort. Then, counted by class, the blocks that the core handed out are those
flushed back to it and those in the four places, and in these no block occurs twice; the state
bytes of the core say LIVE for exactly the blocks of the user and MAG for exactly the cached ones.
A park of the depot that is refused sends nothing to the core and leaves the count, the slots and
the floor count of every magazine and all that the heap holds as they are. -/
theorem conservation (bd : Build) (env : Surroundings) (b : PrimordialBase) (budget : ℕ)
    (bound : Bool) (cs : List Command) :
    ∃ m, (start bd b budget bound).run bd env cs = some m ∧
      (∀ c, m.heap.core.handed c = m.heap.core.flushed c +
        (m.user c + (m.heap.tcache c).magazine + m.heap.floor c + m.heap.ring c)) ∧
      (∀ c, (m.user c + (m.heap.tcache c).magazine + m.heap.floor c + m.heap.ring c).Nodup) ∧
      (∀ c d, c ≠ d → Disjoint (m.places c) (m.places d)) ∧
      Owned bd m.heap.core.world m.user m.heap.cached ∧
      ∀ c h, m.heap.depotPark bd env c = some (h, false) →
        h.core = m.heap.core ∧ HeapCore.SameMags m.heap h ∧ h.cached = m.heap.cached := by
  obtain ⟨m, hm, hi⟩ := (start_inv bd b budget bound).run env cs
  refine ⟨m, hm, hi.balanced, hi.places_nodup, fun c d => hi.places_disjoint, ?_, fun c h hp => ?_⟩
  · have ho := hi.owned
    rwa [add_zero] at ho
  obtain ⟨x, ok, hx, hpark⟩ := HeapCore.depotPark_spec (c := c) env hi
  obtain ⟨rfl, rfl⟩ := Prod.mk.inj (Option.some.inj (hp.symm.trans hx))
  exact ⟨hpark.core, hpark.mags, hpark.cached⟩

end Machine

end Small

end SeferAlloc
