import SeferAlloc.HeapCoreOperations

/-!
# Own frees and the full flush

A free puts the block into its magazine, after a park or a partial flush where
the magazine is full. The full flush empties every magazine, reloading what the
depot holds until nothing is left.
-/
namespace SeferAlloc
namespace Small
open BitWord

namespace HeapCore
variable {bd : Build} {env : Surroundings} {a b : HeapCore} {user hand : ℕ → Multiset ℕ}
  {c n p : ℕ} {d : Depot} {k : PerClass} {row : Row}

/-- A block of the user comes to the hand. -/
lemma Inv.free (h : Inv bd a (user + Pi.single c {p}) hand) :
    Inv bd (a.writeMag bd c p) user (hand + Pi.single c {p}) := by
  refine ⟨?_, ?_, h.count_le, h.wf⟩
  · have ho := h.owned.free
    rw [add_assoc] at ho
    exact ho
  · have hb := h.balance
    change a.core.handed = a.core.flushed + user + (a.cached + (hand + Pi.single c {p}))
    rw [hb]
    abel

lemma writeMag_setClass (h : HeapCore) (c e p : ℕ) (k : PerClass) :
    (h.setClass e k).writeMag bd c p = (h.writeMag bd c p).setClass e k := rfl

/-- A magazine takes the freed block. -/
lemma Inv.freeInto (h : Inv bd a (user + Pi.single c {p}) hand)
    (hp : k.parked = (a.tcache c).parked) (hk : k.count ≤ tcacheCap)
    (hm : k.magazine = p ::ₘ (a.tcache c).magazine) :
    Inv bd ((a.writeMag bd c p).setClass c k) user hand := by
  refine h.free.putMagazine hp hk ?_
  rw [hm, ← Multiset.singleton_add, add_comm]
  rfl

/-- The freed block starts the magazine that a park has emptied. -/
lemma Inv.freeRestart (h : Inv bd (a.setCount c 0) (user + Pi.single c {p}) hand)
    (hk : k.parked = (a.tcache c).parked) :
    Inv bd ((a.writeMag bd c p).setClass c (k.restart p)) user hand := by
  have hi : Inv bd (((a.setCount c 0).writeMag bd c p).setClass c (k.restart p)) user hand := by
    refine h.freeInto ?_ ?_ ?_
    · simpa [setCount, PerClass.restart] using hk
    · simp [PerClass.restart, tcacheCap]
    · rw [PerClass.magazine_restart]
      simp [setCount, PerClass.magazine]
  unfold setCount at hi
  rw [writeMag_setClass, setClass_setClass] at hi
  exact hi

lemma tryPark_spec (env : Surroundings) (h : Inv bd a user hand) (cnt : ℕ) :
    ∃ b ok, a.tryPark bd env c cnt = some (b, ok) ∧ Parks bd a b c ok user hand := by
  unfold tryPark
  split_ifs
  · exact depotPark_spec env h
  · exact ⟨a, false, rfl, .refl h.wf⟩

/-- Some blocks of the magazine go to the core, and the freed block joins the others. -/
lemma Inv.flushAndFree {rest k : PerClass} {ps : List ℕ} (env : Surroundings)
    (h : Inv bd a (user + Pi.single c {p}) hand) (hr : rest.parked = (a.tcache c).parked)
    (hrc : rest.count ≤ tcacheCap) (hrm : rest.magazine + ps = (a.tcache c).magazine)
    (hk : k.parked = rest.parked) (hkc : k.count ≤ tcacheCap)
    (hkm : k.magazine = p ::ₘ rest.magazine) :
    ∃ b, a.flush bd env c ps = some b ∧ b.tcache = a.tcache ∧
      Inv bd ((b.writeMag bd c p).setClass c k) user hand := by
  obtain ⟨b, hb, hbi, hbt, -⟩ := h.flushMagazine env hr hrc hrm
  refine ⟨b, hb, hbt, ?_⟩
  have hi := hbi.freeInto (p := p) (k := k) (by rwa [setClass_tcache]) hkc (by rwa [setClass_tcache])
  rw [writeMag_setClass, setClass_setClass] at hi
  exact hi

/-- A full magazine is parked, or the core takes some of its blocks. -/
lemma freeMagazineFull_spec (env : Surroundings)
    (h : Inv bd a (user + Pi.single c {p}) hand)
    (hfull : bd.sizes.freeParkCap c ≤ (a.tcache c).count) :
    ∃ b, a.freeMagazineFull bd env c (a.tcache c).count p = some b ∧ Inv bd b user hand := by
  obtain ⟨x, ok, hx, hpark⟩ := tryPark_spec (c := c) env h (a.tcache c).count
  unfold freeMagazineFull
  rw [hx]
  simp only [Option.bind_eq_bind, Option.bind_some]
  unfold Parks at hpark
  cases ok with
  | true =>
      rw [if_pos rfl] at hpark ⊢
      exact ⟨_, rfl, hpark.freeRestart rfl⟩
  | false =>
      rw [if_neg (by decide)] at hpark ⊢
      have hi := h.quiet hpark
      have hsame := hpark.mags
      have hcap : 0 < bd.sizes.freeParkCap c ∧ bd.sizes.freeParkCap c ≤ tcacheCap :=
        refillNForClass_bounds (bd.sizes.blockSize c)
      have hle := hi.count_le c
      rw [← (hsame c).1] at hfull ⊢
      by_cases hsmall : bd.sizes.freeParkCap c < tcacheCap
      · -- The top is evicted.
        rw [if_pos hsmall]
        obtain ⟨hm1, hm2⟩ := PerClass.magazine_swapTop (k := x.tcache c) (by omega) p
        have hlow : (x.tcache c).lower.count ≤ tcacheCap := by
          have : (x.tcache c).lower.count = (x.tcache c).count - 1 := rfl
          omega
        have hr : (x.tcache c).lower.parked = (x.tcache c).parked := rfl
        have hk : ((x.tcache c).swapTop p).parked = (x.tcache c).lower.parked := rfl
        rw [← Multiset.coe_singleton] at hm1
        obtain ⟨y, hy, hyt, hyi⟩ := hi.flushAndFree env hr hlow hm1.symm hk hle hm2
        rw [hy]
        refine ⟨_, rfl, ?_⟩
        rw [hyt]
        exact hyi
      · -- The lower half is flushed.
        rw [if_neg hsmall]
        obtain ⟨hm1, hm2⟩ := PerClass.magazine_shiftPush (k := x.tcache c) (by omega) p
        have hup : (x.tcache c).upperHalf.count ≤ tcacheCap := Nat.sub_le tcacheCap flushN
        have hpush : ((x.tcache c).shiftPush p).count ≤ tcacheCap := by
          change tcacheCap - flushN + 1 ≤ tcacheCap
          decide
        have hr : (x.tcache c).upperHalf.parked = (x.tcache c).parked := rfl
        have hk : ((x.tcache c).shiftPush p).parked = (x.tcache c).upperHalf.parked := rfl
        obtain ⟨y, hy, hyt, hyi⟩ := hi.flushAndFree env hr hup hm1.symm hk hpush hm2
        rw [hy]
        refine ⟨_, rfl, ?_⟩
        rw [← hyt] at hyi
        exact hyi

/-- The steady park, which may refuse. -/
lemma parkSimple_spec (h : Inv bd a user hand) (hd : a.depot = some d)
    (hfull : (a.tcache c).count = tcacheCap) :
    (a.parkSimple bd c d).2 = true ∧ Inv bd ((a.parkSimple bd c d).1.setCount c 0) user hand ∨
      (a.parkSimple bd c d).2 = false ∧ Quiet bd a (a.parkSimple bd c d).1 := by
  unfold parkSimple
  dsimp only
  split_ifs with hmay hk
  · cases hp : d.park c (a.tcache c).parked (a.tcache c).slots with
    | none => exact .inr ⟨rfl, quiet_setClass h.wf rfl rfl rfl⟩
    | some r =>
        refine .inl ⟨rfl, h.parkFloor hd hfull hp rfl rfl ?_ ?_ ?_⟩
        · intro e he
          simp [setCount, setClass, he]
        · simp [setCount]
        · simp [setCount]
  · cases hp : d.ovf.parkSimple bd.sizes c (a.tcache c).slots a.depotBudget with
    | none => exact .inr ⟨rfl, .refl h.wf⟩
    | some o =>
        obtain ⟨hw, hring⟩ := (h.wf d hd).parkSimple hp
        refine .inl ⟨rfl, h.parkRing hd hfull hw hring rfl rfl ?_ ?_ ?_⟩
        · intro e he
          simp [setCount, setClass, setOvf, he]
        · simp [setCount]
        · simp [setCount]
  · exact .inr ⟨rfl, .refl h.wf⟩

lemma freeMagazinePark_spec (env : Surroundings)
    (h : Inv bd a (user + Pi.single c {p}) hand)
    (hfull : bd.sizes.freeParkCap c ≤ (a.tcache c).count) :
    ∃ b, a.freeMagazinePark bd env c (a.tcache c).count p = some b ∧ Inv bd b user hand := by
  unfold freeMagazinePark
  split_ifs with hcls
  · obtain ⟨h16, -, -⟩ := hcls
    cases hd : a.depot with
    | none => exact freeMagazineFull_spec env h hfull
    | some d =>
        dsimp only
        obtain ⟨hok, hi⟩ | ⟨hok, hq⟩ := parkSimple_spec h hd h16
        · rw [hok, if_pos rfl]
          exact ⟨_, rfl, hi.freeRestart rfl⟩
        · rw [hok, if_neg (by decide), ← (hq.mags c).1]
          apply freeMagazineFull_spec env (h.quiet hq)
          rwa [(hq.mags c).1]
  · exact freeMagazineFull_spec env h hfull

lemma pushFreed_spec (env : Surroundings) (h : Inv bd a (user + Pi.single c {p}) hand) :
    ∃ b, a.pushFreed bd env c p = some b ∧ Inv bd b user hand := by
  unfold pushFreed
  dsimp only
  split_ifs with hroom
  · have hcap := (refillNForClass_bounds (bd.sizes.blockSize c)).2
    unfold SizeClasses.freeParkCap at hroom
    refine ⟨_, rfl, h.freeInto rfl ?_ (PerClass.magazine_push (by omega) p)⟩
    change (a.tcache c).count + 1 ≤ tcacheCap
    omega
  · exact freeMagazinePark_spec env h (by omega)

/-! ## The full flush -/

lemma flushMagazine_spec (env : Surroundings) (h : Inv bd a user hand) :
    ∃ b, a.flushMagazine bd env c = some b ∧ Inv bd b user hand ∧ (b.tcache c).count = 0 ∧
      b.depotRows = a.depotRows ∧ b.ringLen = a.ringLen := by
  unfold HeapCore.flushMagazine
  dsimp only
  split_ifs with h0
  · exact ⟨a, rfl, h, h0, rfl, rfl⟩
  · have hm : (a.tcache c).emptied.magazine +
        ((a.tcache c).slots.list (a.tcache c).count : Multiset ℕ) = (a.tcache c).magazine :=
      zero_add _
    have hp : (a.tcache c).emptied.parked = (a.tcache c).parked := rfl
    obtain ⟨b, hb, hi, htc, hdp⟩ := h.flushMagazine env hp (Nat.zero_le _) hm
    rw [hb]
    refine ⟨_, rfl, hi, ?_, ?_, ?_⟩
    · rw [setClass_tcache]
      rfl
    · funext e
      by_cases he : e = c
      · subst e
        simp [depotRows, setClass, hdp, PerClass.emptied]
      · simp [depotRows, setClass, hdp, htc, he]
    · funext e
      simp [ringLen, setClass, hdp]

/-- The loop for a class ends with its ring empty. -/
lemma drainClass_spec (env : Surroundings) (c fuel : ℕ) (h : Inv bd a user hand)
    (hfuel : a.depotRows c < fuel) : ∃ b, a.drainClass bd env c fuel = some b ∧
      Inv bd b user hand ∧ b.ringLen c = 0 ∧ ∀ e ≠ c, b.ringLen e = a.ringLen e := by
  induction fuel generalizing a with
  | zero => omega
  | succ fuel ih =>
      obtain ⟨x, hx, hxi, hx0, hxr, hxl⟩ := flushMagazine_spec (c := c) env h
      have hr := depotReload_spec hxi hx0
      unfold drainClass
      rw [hx]
      simp only [Option.bind_eq_bind, Option.bind_some]
      generalize x.depotReload bd c = res at hr
      obtain ⟨y, ok⟩ := res
      dsimp only at hr
      cases ok with
      | true =>
          have hrows := (hr.loaded rfl).2
          rw [congrFun hxr c] at hrows
          obtain ⟨b, hb, hbi, hb0, hbo⟩ := ih hr.inv (show y.depotRows c < fuel by omega)
          refine ⟨b, hb, hbi, hb0, fun e he => ?_⟩
          rw [hbo e he, hr.others e he, hxl]
      | false =>
          refine ⟨y, rfl, hr.inv, (hr.left rfl).2, fun e he => ?_⟩
          rw [hr.others e he, hxl]

lemma emptyClass_spec (env : Surroundings) (c : ℕ) (h : Inv bd a user hand) :
    ∃ b, a.emptyClass bd env c = some b ∧ Inv bd b user hand ∧ b.ringLen c = 0 ∧
      ∀ e ≠ c, b.ringLen e = a.ringLen e := by
  obtain ⟨x, hx, hi, h0, ho⟩ := drainClass_spec env c (a.depotRows c + 1) h (Nat.lt_succ_self _)
  have hq : Quiet bd x
      (x.setClass c { x.tcache c with marks := (x.tcache c).marks &&& ~~~markFloor }) :=
    quiet_setClass hi.wf rfl rfl rfl
  unfold emptyClass
  rw [hx]
  refine ⟨_, rfl, hi.quiet hq, ?_, fun e he => ?_⟩
  · rw [hq.ringLen, h0]
  · rw [hq.ringLen, ho e he]

lemma emptyClasses_spec (env : Surroundings) (cs : List ℕ) (h : Inv bd a user hand) :
    ∃ b, cs.foldlM (emptyClass bd env) a = some b ∧ Inv bd b user hand ∧
      (∀ e ∈ cs, b.ringLen e = 0) ∧ ∀ e, b.ringLen e = 0 ∨ b.ringLen e = a.ringLen e := by
  induction cs generalizing a with
  | nil => exact ⟨a, rfl, h, by simp, fun _ => .inr rfl⟩
  | cons c cs ih =>
      obtain ⟨x, hx, hi, h0, ho⟩ := emptyClass_spec env c h
      obtain ⟨b, hb, hbi, hb0, hbo⟩ := ih hi
      refine ⟨b, ?_, hbi, ?_, ?_⟩
      · rw [List.foldlM_cons, hx]
        exact hb
      · intro e he
        obtain rfl | he := List.mem_cons.mp he
        · obtain h1 | h1 := hbo e
          · exact h1
          · rw [h1, h0]
        · exact hb0 e he
      · intro e
        by_cases he : e = c
        · subst e
          have h1 := hbo c
          rw [h0, or_self_iff] at h1
          exact .inl h1
        · rw [← ho e he]
          exact hbo e

/-- The pages of the rings may go once the rings are empty. -/
lemma depotReleaseOverflowPages_quiet (hw : a.Wf bd) (h0 : ∀ c, a.ringLen c = 0) :
    Quiet bd a (a.depotReleaseOverflowPages bd) := by
  unfold depotReleaseOverflowPages
  cases hd : a.depot with
  | none => exact .refl hw
  | some d =>
      dsimp only
      set x := { a with tcache := fun c =>
        if c < bd.sizes.count
        then { a.tcache c with marks := (a.tcache c).marks &&& ~~~markTick } else a.tcache c }
        with hx
      have h1 : Quiet bd a x := by
        refine quiet_tcache hw ?_ rfl rfl
        intro e
        simp only [hx]
        split_ifs <;> exact ⟨rfl, rfl, rfl⟩
      have hlen : ∀ c, d.ovf.len c = 0 := fun c => by simpa [ringLen, hd] using h0 c
      have hr := (hw d hd).releasePages hlen
      have hk := hr.trans hr.wf.disarmAll
      have hxd : x.depot = some d := hd
      have h2 := quiet_setOvf hxd hk
      have h3 : Quiet bd (x.setOvf d d.ovf.releasePages.disarmAll)
          ((x.setOvf d d.ovf.releasePages.disarmAll).reopenUnstarved bd
            { d with ovf := d.ovf.releasePages.disarmAll }) :=
        quiet_reopenUnstarved rfl h2.wf
      exact (h1.trans h2).trans h3

lemma flushAllTcache_spec (env : Surroundings) (h : Inv bd a user hand) :
    ∃ b, a.flushAllTcache bd env = some b ∧ Inv bd b user hand := by
  obtain ⟨x, hx, hi, h0, -⟩ := emptyClasses_spec env (List.range bd.sizes.count) h
  unfold flushAllTcache
  rw [hx]
  refine ⟨_, rfl, hi.quiet (depotReleaseOverflowPages_quiet hi.wf fun c => ?_)⟩
  by_cases hc : c < bd.sizes.count
  · exact h0 c (List.mem_range.mpr hc)
  · have := bd.sizes.depotClasses_le
    exact ringLen_eq_zero hi.wf (by omega)

/-! ## The guarded free -/

/-- A live block passes the guard. -/
lemma deallocOwn_live (env : Surroundings) (h : Inv bd a (user + Pi.single c {p}) hand) :
    ∃ b, a.deallocOwn bd env c p = some b ∧ Inv bd b user hand := by
  have hlive := (h.owned.out c p).mp (mem_add_single.mpr (.inr (by simp)))
  have hg : smallFreeGuard bd _ false _ _ c = some .accept :=
    smallFreeGuard_live (h.owned.sound.represents _ hlive.1) hlive.2.1 hlive.2.2
  obtain ⟨b, hb, hi⟩ := pushFreed_spec env h
  refine ⟨b, ?_, hi⟩
  unfold deallocOwn
  dsimp only
  rw [hg]
  exact hb

/-- With the misuse checks any other pointer into a segment of the heap changes nothing. -/
lemma deallocOwn_other (env : Surroundings) (h : Inv bd a user hand)
    (hm : bd.misuseChecks = true) (hc : c < bd.sizes.count)
    (hp : a.core.world.heap.mapped (segmentBaseOfPtr p) = true) (hu : p ∉ user c) :
    a.deallocOwn bd env c p = some a := by
  set s := a.core.world.heap.segs (segmentBaseOfPtr p) with hs
  obtain ⟨g, hg⟩ := smallFreeGuard_total hm s.kind.header false s (p - segmentBaseOfPtr p) c
  have hne : g ≠ .accept := by
    rintro rfl
    obtain ⟨h1, h2⟩ := smallFreeGuard_accept hm (h.owned.sound.represents _ hp) hc hg
    exact hu ((h.owned.out c p).mpr ⟨hp, h1, h2⟩)
  unfold deallocOwn
  dsimp only
  rw [← hs, hg]
  cases g with
  | accept => contradiction
  | rejectNoOp | rejectNoOpSilent | routeToLargeFree => rfl

end HeapCore

end Small

end SeferAlloc
