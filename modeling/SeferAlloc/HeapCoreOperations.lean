import SeferAlloc.HeapCoreReloads

/-!
# The calls on a heap

Each call returns, and accounts for the blocks it moves: an allocation gives
its block to the user, a free takes one, and a flush sends a magazine to the
core.
-/
namespace SeferAlloc
namespace Small
open BitWord

/-- The user's blocks after a call that returned `p`; 0 is the null pointer. -/
def give (user : ℕ → Multiset ℕ) (c p : ℕ) : ℕ → Multiset ℕ :=
  if p = 0 then user else user + Pi.single c {p}

namespace HeapCore
variable {bd : Build} {env : Surroundings} {a b : HeapCore} {user hand : ℕ → Multiset ℕ}
  {c n p : ℕ} {d : Depot} {k : PerClass} {row : Row}

/-! ## Issue -/

/-- A block in the hand goes to the user. -/
lemma Inv.issue (h : Inv bd a user (hand + Pi.single c {p})) :
    Inv bd (a.clearMagazineOnIssue bd p) (user + Pi.single c {p}) hand := by
  have ho := h.owned
  rw [← add_assoc] at ho
  refine ⟨ho.issue, ?_, h.count_le, h.wf⟩
  have hb := h.balance
  change a.core.handed = a.core.flushed + (user + Pi.single c {p}) + (a.cached + hand)
  rw [hb]
  abel

lemma Inv.ne_zero (h : Inv bd a (user + Pi.single c {p}) hand) : p ≠ 0 := by
  have hp : p ∈ (user + Pi.single c {p} : ℕ → Multiset ℕ) c := mem_add_single.mpr (.inr (by simp))
  exact ((h.owned.out c p).mp hp).ne_zero h.owned.aligned

lemma Inv.give (h : Inv bd a (user + Pi.single c {p}) hand) : Inv bd a (give user c p) hand := by
  unfold Small.give
  rw [if_neg h.ne_zero]
  exact h

lemma give_zero (user : ℕ → Multiset ℕ) (c : ℕ) : give user c 0 = user := by
  simp [Small.give]

/-- The top of a magazine goes to the user. -/
lemma popMagazine_spec (h : Inv bd a user hand) (h0 : (a.tcache c).count ≠ 0) :
    Inv bd (a.popMagazine bd c).1 (give user c (a.popMagazine bd c).2.1) hand := by
  have hle := h.count_le c
  have hpop := PerClass.magazine_pop h0 hle
  have ht : Inv bd (a.setClass c (a.tcache c).pop) user
      (hand + Pi.single c {(a.tcache c).top}) := by
    refine h.takeMagazine ?_ ?_ ?_
    · rfl
    · have : (a.tcache c).pop.count = (a.tcache c).count - 1 := rfl
      omega
    · rw [hpop, Multiset.add_singleton_eq_iff]
      simp
  exact ht.issue.give

lemma setCount_setClass (h : HeapCore) (c n : ℕ) (k : PerClass) :
    (h.setCount c n).setClass c k = h.setClass c k := setClass_setClass h c _ k

/-- The last of the blocks that filled a magazine goes to the user. -/
lemma finishMagazineRefill_spec (h : Inv bd (a.setCount c n) user hand) (h0 : n ≠ 0) :
    Inv bd (a.finishMagazineRefill bd c n).1 (give user c (a.finishMagazineRefill bd c n).2)
      hand := by
  obtain ⟨m, rfl⟩ := Nat.exists_eq_succ_of_ne_zero h0
  have hle := h.count_le c
  have ht : Inv bd (a.setClass c { a.tcache c with count := m }) user
      (hand + Pi.single c {(a.tcache c).slots m}) := by
    rw [← setCount_setClass a c (m + 1)]
    refine h.takeMagazine ?_ ?_ ?_
    · simp [setCount]
    · simp only [setCount, setClass_tcache] at hle
      dsimp only
      omega
    · simp only [setCount, setClass_tcache, PerClass.magazine]
      rw [Row.blocks_succ, ← Multiset.singleton_add, add_comm]
  exact ht.issue.give

/-! ## Refill -/

/-- The core hands out blocks to rest in the heap. -/
lemma Inv.refillMag (env : Surroundings) (h : Inv bd a user hand) (hc : c < bd.sizes.count)
    (want : ℕ) : ∃ core es, a.core.refill bd env c want .mag = some (core, es) ∧
      (issuedPointers es).length ≤ want ∧
      Inv bd { a with core := core } user
        (hand + Pi.single c (issuedPointers es : Multiset ℕ)) := by
  obtain ⟨w', es, he, hlen, ho⟩ := h.owned.refillMag hc want (env.rounds a.core.time)
  have hf : a.core.refill bd env c want .mag = some ({ a.core with
      world := w'
      time := a.core.time + 1
      handed := Function.update a.core.handed c (a.core.handed c + issuedPointers es) }, es) := by
    simp [Core.refill, he]
  refine ⟨_, es, hf, hlen, ?_, ?_, h.count_le, h.wf⟩
  · rw [add_assoc] at ho
    exact ho
  · have hb := h.balance
    change Function.update _ _ _ = a.core.flushed + user + (a.cached + (hand + Pi.single c _))
    rw [update_add_single, hb]
    abel

/-- The core hands out blocks to the user. -/
lemma Inv.refillLive (env : Surroundings) (h : Inv bd a user hand) (hc : c < bd.sizes.count)
    (want : ℕ) : ∃ b ps, a.refillLive bd env c want = some (b, ps) ∧ ps.length ≤ want ∧
      Inv bd b (user + Pi.single c (ps : Multiset ℕ)) hand := by
  obtain ⟨w', es, he, hlen, ho⟩ := h.owned.refillLive hc want (env.rounds a.core.time)
  have hf : a.refillLive bd env c want = some ({ a with core := { a.core with
      world := w'
      time := a.core.time + 1
      handed := Function.update a.core.handed c (a.core.handed c + issuedPointers es) } },
      issuedPointers es) := by
    simp [HeapCore.refillLive, Core.refill, he]
  refine ⟨_, issuedPointers es, hf, hlen, ho, ?_, h.count_le, h.wf⟩
  have hb := h.balance
  change Function.update _ _ _ = a.core.flushed + (user + Pi.single c _) + (a.cached + hand)
  rw [update_add_single, hb]
  abel

lemma fillSlots_blocks (slots : Row) (ps : List ℕ) : (fillSlots slots ps).blocks ps.length = ps := by
  unfold Row.blocks Row.list
  congr 1
  apply List.ext_getElem
  · simp
  · intro i h1 h2
    simp [fillSlots, h2]

/-- A refilled magazine is full up to `n` once its count says so. -/
def Refilled (bd : Build) (b : HeapCore) (c n : ℕ) (user hand : ℕ → Multiset ℕ) : Prop :=
  (b.tcache c).count = 0 ∧ Inv bd (b.setCount c n) user hand

lemma refillSlots_spec (env : Surroundings) (h : Inv bd a user hand) (hc : c < bd.sizes.count)
    (h0 : (a.tcache c).count = 0) :
    ∃ b n mask, a.refillSlots bd env c = some (b, n, mask) ∧ Refilled bd b c n user hand := by
  obtain ⟨core, es, he, hlen, hi⟩ := h.refillMag env hc (bd.sizes.freeParkCap c)
  have hf : a.refillSlots bd env c = some ({ a with core := core }.setClass c
      { a.tcache c with slots := fillSlots (a.tcache c).slots (issuedPointers es) },
      (issuedPointers es).length, maskOf (es.flatMap Event.virgins)) := by
    simp [refillSlots, he]
  refine ⟨_, _, _, hf, ?_, ?_⟩
  · rw [setClass_tcache]
    exact h0
  · have hcap := (refillNForClass_bounds (bd.sizes.blockSize c)).2
    unfold setCount
    rw [setClass_setClass, setClass_tcache]
    refine hi.putMagazine ?_ ?_ ?_
    · rfl
    · exact hlen.trans hcap
    · simp only [PerClass.magazine, h0, Row.blocks_zero, zero_add]
      exact fillSlots_blocks _ _

lemma refillWithLargeRescue_spec (env : Surroundings) (h : Inv bd a user hand)
    (hc : c < bd.sizes.count) (h0 : (a.tcache c).count = 0) :
    ∃ b n mask, a.refillWithLargeRescue bd env c = some (b, n, mask) ∧
      Refilled bd b c n user hand := by
  obtain ⟨b, n, mask, hb, hr⟩ := refillSlots_spec env h hc h0
  unfold refillWithLargeRescue
  rw [hb]
  simp only [Option.bind_eq_bind, Option.bind_some]
  by_cases hn : n = 0
  · subst hn
    rw [if_neg (by simp)]
    have hi := hr.2
    rw [setCount_self hr.1] at hi
    exact refillSlots_spec env hi hc hr.1
  · rw [if_pos hn]
    exact ⟨b, n, mask, rfl, hr⟩

/-! ## The slow paths of an allocation -/

lemma depotReloadTick_spec (env : Surroundings) (h : Inv bd a user hand)
    (h0 : (a.tcache c).count = 0) :
    ∃ b ok, a.depotReloadTick bd env c = some (b, ok) ∧ Inv bd b user hand ∧
      (b.tcache c).count = if ok then tcacheCap else 0 := by
  have hr := depotReload_spec h h0
  unfold depotReloadTick
  generalize hres : a.depotReload bd c = res at hr
  obtain ⟨b, ok⟩ := res
  cases ok with
  | false =>
      have hcount := ((hr.left rfl).1 c).1
      exact ⟨b, false, rfl, hr.inv, by rw [hcount, h0]; rfl⟩
  | true =>
      have hcount := (hr.loaded rfl).1
      dsimp only
      split_ifs
      · exact ⟨b, true, rfl, hr.inv, hcount⟩
      · obtain ⟨x, hx, hxi, hxs⟩ := depotTick_spec env hr.inv
        refine ⟨x, true, by rw [hx]; rfl, hxi, ?_⟩
        rw [(hxs c).1]
        exact hcount

/-- What the depot gives goes to the user, and without its help the magazine stays empty. -/
lemma refillFromDepot_spec (env : Surroundings) (h : Inv bd a user hand)
    (h0 : (a.tcache c).count = 0) :
    (∃ b p, a.refillFromDepot bd env c = some (b, some p) ∧ Inv bd b (give user c p) hand) ∨
      ∃ b, a.refillFromDepot bd env c = some (b, none) ∧ Inv bd b user hand ∧
        (b.tcache c).count = 0 := by
  have hstart : ∃ b ok, a.tryReload bd env c = some (b, ok) ∧ Inv bd b user hand ∧
      (b.tcache c).count = if ok then tcacheCap else 0 := by
    unfold tryReload
    split_ifs
    · exact depotReloadTick_spec env h h0
    · exact ⟨a, false, rfl, h, h0⟩
  obtain ⟨b, ok, he, hi, hcount⟩ := hstart
  unfold refillFromDepot
  rw [he]
  simp only [Option.bind_eq_bind, Option.bind_some]
  cases ok with
  | true =>
      left
      rw [if_pos rfl] at hcount ⊢
      rw [← setCount_self hcount] at hi
      exact ⟨_, _, rfl, finishMagazineRefill_spec hi (by decide)⟩
  | false =>
      right
      rw [if_neg (by decide)] at hcount ⊢
      split_ifs
      · obtain ⟨x, hx, hxi, hxs⟩ := depotSegmentTick_spec env c hi
        exact ⟨x, by rw [hx]; rfl, hxi, by rw [(hxs c).1, hcount]⟩
      · exact ⟨b, rfl, hi, hcount⟩

lemma refillMagazineSlow_spec (env : Surroundings) (h : Inv bd a user hand)
    (hc : c < bd.sizes.count) (h0 : (a.tcache c).count = 0) :
    ∃ b p, a.refillMagazineSlow bd env c = some (b, p) ∧ Inv bd b (give user c p) hand := by
  unfold refillMagazineSlow
  obtain ⟨b, p, he, hi⟩ | ⟨b, he, hi, hcount⟩ := refillFromDepot_spec env h h0
  · exact ⟨b, p, by simp [he], hi⟩
  · obtain ⟨x, n, mask, hx, hx0, hxi⟩ := refillWithLargeRescue_spec env hi hc hcount
    simp only [he, hx, Option.bind_eq_bind, Option.bind_some]
    by_cases hn : n = 0
    · subst hn
      rw [setCount_self hx0] at hxi
      exact ⟨x, 0, rfl, by rwa [give_zero]⟩
    · rw [if_neg hn]
      exact ⟨_, _, rfl, finishMagazineRefill_spec hxi hn⟩

lemma refillMagazineSlowVirgin_spec (env : Surroundings) (h : Inv bd a user hand)
    (hc : c < bd.sizes.count) (h0 : (a.tcache c).count = 0) :
    ∃ b p virgin, a.refillMagazineSlowVirgin bd env c = some (b, p, virgin) ∧
      Inv bd b (give user c p) hand := by
  unfold refillMagazineSlowVirgin
  obtain ⟨b, p, he, hi⟩ | ⟨b, he, hi, hcount⟩ := refillFromDepot_spec env h h0
  · exact ⟨b, p, false, by simp [he], hi⟩
  · obtain ⟨x, n, mask, hx, hx0, hxi⟩ := refillWithLargeRescue_spec env hi hc hcount
    simp only [he, hx, Option.bind_eq_bind, Option.bind_some]
    by_cases hn : n = 0
    · subst hn
      rw [setCount_self hx0] at hxi
      exact ⟨x, 0, false, rfl, by rwa [give_zero]⟩
    · rw [if_neg hn]
      -- The mask changes nothing that is accounted for.
      set y := x.setClass c { x.tcache c with virginMask := mask &&& (virginBit (n - 1) - 1) }
        with hy
      have hq : Quiet bd (x.setCount c n) (y.setCount c n) := by
        have : y.setCount c n = (x.setCount c n).setClass c
            { (x.setCount c n).tcache c with virginMask := mask &&& (virginBit (n - 1) - 1) } := by
          simp [hy, setCount, setClass]
        rw [this]
        exact quiet_setClass hxi.wf rfl rfl rfl
      exact ⟨_, _, _, rfl, finishMagazineRefill_spec (hxi.quiet hq) hn⟩

/-- The steady reload leaves the count to its caller. -/
lemma reloadSimple_spec (h : Inv bd a user hand) (h0 : (a.tcache c).count = 0)
    (hr : a.reloadSimple bd c = some b) : Inv bd (b.setCount c tcacheCap) user hand := by
  unfold reloadSimple at hr
  split_ifs at hr with hcls
  obtain ⟨d, hd, hr⟩ := Option.bind_eq_some_iff.mp hr
  dsimp only at hr
  split_ifs at hr with hp ho
  · obtain ⟨⟨n, row⟩, hrow, rfl⟩ := Option.map_eq_some_iff.mp hr
    unfold setCount
    rw [setClass_setClass, setClass_tcache]
    refine (h.loadFloor hd h0 hrow ?_).2
    exact ⟨rfl, rfl, rfl⟩
  · obtain ⟨⟨o, row, more⟩, hrow, rfl⟩ := Option.map_eq_some_iff.mp hr
    obtain ⟨-, hw, hring⟩ := (h.wf d hd).reloadSimple hrow
    unfold setCount
    rw [setClass_setClass, setClass_tcache]
    refine h.loadRing hd h0 hw hring ?_
    exact ⟨rfl, rfl, rfl⟩

/-! ## Allocation -/

lemma alloc_spec (env : Surroundings) (h : Inv bd a user hand) (hc : c < bd.sizes.count) :
    ∃ b p, a.alloc bd env c = some (b, p) ∧ Inv bd b (give user c p) hand := by
  unfold alloc
  by_cases h0 : (a.tcache c).count = 0
  · rw [if_neg (by omega)]
    unfold refillMagazineMiss
    cases hr : a.reloadSimple bd c with
    | none => exact refillMagazineSlow_spec env h hc h0
    | some b =>
        exact ⟨_, _, rfl, finishMagazineRefill_spec (reloadSimple_spec h h0 hr) (by decide)⟩
  · rw [if_pos (by omega)]
    exact ⟨_, _, rfl, popMagazine_spec h h0⟩

lemma allocSmallZeroedViaMagazine_spec (env : Surroundings) (h : Inv bd a user hand)
    (hc : c < bd.sizes.count) :
    ∃ b p virgin, a.allocSmallZeroedViaMagazine bd env c = some (b, p, virgin) ∧
      Inv bd b (give user c p) hand := by
  unfold allocSmallZeroedViaMagazine
  by_cases h0 : (a.tcache c).count = 0
  · rw [if_neg (by omega)]
    exact refillMagazineSlowVirgin_spec env h hc h0
  · rw [if_pos (by omega)]
    exact ⟨_, _, _, rfl, popMagazine_spec h h0⟩

/-- The popped blocks are in the hand until their state bytes are written. -/
lemma popBatch_spec (want : ℕ) (h : Inv bd a user hand) :
    Inv bd (a.popBatch c want).1 user
      (hand + Pi.single c ((a.popBatch c want).2 : Multiset ℕ)) := by
  induction want generalizing a hand with
  | zero =>
      change Inv bd a user (hand + Pi.single c ((([] : List ℕ)) : Multiset ℕ))
      rw [Multiset.coe_nil, hand_zero]
      exact h
  | succ want ih =>
      unfold popBatch
      dsimp only
      split_ifs with h0
      · rw [Multiset.coe_nil, hand_zero]
        exact h
      · have ht : Inv bd (a.setClass c (a.tcache c).pop) user
            (hand + Pi.single c {(a.tcache c).slots ((a.tcache c).count - 1)}) := by
          obtain ⟨m, hm⟩ := Nat.exists_eq_succ_of_ne_zero h0
          have hle := h.count_le c
          refine h.takeMagazine ?_ ?_ ?_
          · rfl
          · have : (a.tcache c).pop.count = (a.tcache c).count - 1 := rfl
            omega
          · simp only [PerClass.magazine, PerClass.pop, hm, Nat.succ_eq_add_one,
              Nat.add_sub_cancel]
            rw [Row.blocks_succ, ← Multiset.singleton_add, add_comm]
        have hi := ih ht
        rw [add_assoc, ← Pi.single_add, Multiset.singleton_add, Multiset.cons_coe] at hi
        exact hi

lemma refillRest_spec (env : Surroundings) (h : Inv bd a user hand) (hc : c < bd.sizes.count)
    (want : ℕ) : ∃ b ps, a.refillRest bd env c want = some (b, ps) ∧
      Inv bd b (user + Pi.single c (ps : Multiset ℕ)) hand := by
  unfold refillRest
  split_ifs with hw
  · exact ⟨a, [], rfl, by rwa [Multiset.coe_nil, hand_zero]⟩
  · obtain ⟨b, ps, hb, -, hi⟩ := h.refillLive env hc want
    rw [hb]
    simp only [Option.bind_eq_bind, Option.bind_some]
    by_cases hps : ps.length = 0
    · rw [if_neg (by simpa using hps)]
      rw [List.length_eq_zero_iff.mp hps, Multiset.coe_nil, hand_zero] at hi
      obtain ⟨x, qs, hx, -, hxi⟩ := hi.refillLive env hc want
      exact ⟨x, qs, hx, hxi⟩
    · rw [if_pos hps]
      exact ⟨b, ps, rfl, hi⟩

/-- The popped blocks become live one after another. -/
lemma issueAll_spec (ps : List ℕ) (h : Inv bd a user (hand + Pi.single c (ps : Multiset ℕ))) :
    Inv bd (ps.foldl (fun h p => h.clearMagazineOnIssue bd p) a)
      (user + Pi.single c (ps : Multiset ℕ)) hand := by
  induction ps generalizing a user with
  | nil =>
      rw [Multiset.coe_nil, hand_zero] at h ⊢
      exact h
  | cons p ps ih =>
      have hsplit : ∀ f : ℕ → Multiset ℕ, f + Pi.single c ((p :: ps : List ℕ) : Multiset ℕ) =
          f + Pi.single c (ps : Multiset ℕ) + Pi.single c {p} := by
        intro f
        rw [← Multiset.cons_coe, ← Multiset.singleton_add, Pi.single_add]
        abel
      rw [hsplit] at h ⊢
      rw [List.foldl_cons, add_right_comm]
      exact ih h.issue

lemma allocBatch_spec (env : Surroundings) (h : Inv bd a user hand) (hc : c < bd.sizes.count)
    (want : ℕ) : ∃ b ps, a.allocBatch bd env c want = some (b, ps) ∧
      Inv bd b (user + Pi.single c (ps : Multiset ℕ)) hand := by
  have hpop := popBatch_spec (c := c) want h
  unfold allocBatch
  generalize hres : a.popBatch c want = res at hpop
  obtain ⟨x, popped⟩ := res
  obtain ⟨y, fresh, hy, hyi⟩ := refillRest_spec env hpop hc (want - popped.length)
  dsimp only at hy ⊢
  rw [hy]
  refine ⟨_, popped ++ fresh, rfl, ?_⟩
  have hi := issueAll_spec popped hyi
  rw [← Multiset.coe_add, Pi.single_add, ← add_assoc, add_right_comm]
  exact hi

end HeapCore

end Small

end SeferAlloc
