import SeferAlloc.HeapCoreRuns

/-!
# The steady lanes of the depot

A park and a reload have a lane for the steady case. It does what the generic
chain does where nothing besides the record has work: no arming, no latch, no
decay, no ingress check. Where its guard fails it leaves the heap alone.
-/
namespace SeferAlloc
namespace Small
open BitWord

namespace DepotOverflow
variable {sc : SizeClasses} {o o' : DepotOverflow} {c : ℕ}

/-- What `ingress_due` answers. -/
def ingressIsDue (o : DepotOverflow) : Bool := decide (ingressPeriod ≤ o.reloadsSinceIngress + 1)

/-- The steady park is a park that fills no ring, and a tick without decay. -/
lemma park_of_parkSimple {mag : Row} {budget : ℕ} (hpos : 0 < sc.magBytes c)
    (h : o.parkSimple sc c mag budget = some o') (page : ℕ) (reserve commit : Bool) :
    budget ≠ 0 ∧ o.len c ≠ 0 ∧ ∃ o₁, o.park sc page c (o.len c) mag budget reserve commit =
      (o₁, true) ∧ ¬ o₁.cap c ≤ o.len c + 1 ∧ o₁.tick = (o', false) := by
  unfold parkSimple at h
  dsimp only at h
  by_cases h1 : o.len c = 0 ∨ o.cap c ≤ o.len c + 1 ∨ budget < o.bytes + sc.magBytes c ∨
      o.active = false ∨ o.debtMask ≠ 0 ∨ o.epochLen ≤ o.events + 1
  · rw [if_pos h1] at h
    cases h
  by_cases h2 : o.committed c < (o.slot c (o.len c) + 1) * recBytes
  · rw [if_neg h1, if_pos h2] at h
    cases h
  rw [if_neg h1, if_neg h2] at h
  obtain rfl := Option.some.inj h
  simp only [not_or, not_le, not_lt, Bool.not_eq_false, not_not] at h1 h2
  obtain ⟨hlen, hcap, hbudget, hactive, hmask, hepoch⟩ := h1
  refine ⟨by omega, hlen, o.write sc c (o.slot c (o.len c)) mag, ?_, ?_, ?_⟩
  · have hreserved : o.ensureReserved sc page budget reserve = (o, true) := by
      rw [ensureReserved, if_pos hactive]
    have hcommitted : o.ensureCommitted page c (o.slot c (o.len c)) commit = some o := by
      rw [ensureCommitted, if_pos h2]
    rw [park, if_neg (by omega), hreserved]
    dsimp only
    rw [if_neg (by omega), hcommitted]
  · change ¬ o.cap c ≤ o.len c + 1
    omega
  · have hbytes : (o.write sc c (o.slot c (o.len c)) mag).bytes ≠ 0 := by
      change o.bytes + sc.magBytes c ≠ 0
      omega
    rw [tick, if_neg hbytes]
    have hquiet : ¬ (o.epochLen ≤ o.events + 1 ∨ o.debtMask ≠ 0) := by
      rintro (hdue | hdebt)
      · omega
      · exact hdebt hmask
    exact Prod.ext rfl (decide_eq_false hquiet)

/-- Without a debt there is none to cut. -/
lemma setDebt_zero (hmask : o.debtMask = 0) (hdebt : o.debt c = 0) : o.setDebt c 0 = o := by
  have hupdate : Function.update o.debt c 0 = o.debt := by
    rw [← hdebt, Function.update_eq_self]
  have hand : o.debtMask &&& ~~~bit c = o.debtMask := by
    rw [hmask]
    exact BitVec.zero_and
  simp only [setDebt, hupdate, if_true, hand]

/-- The steady reload is a reload that pays no debt, opens no class, lets no ingress check fall due,
and a tick without decay. -/
lemma reload_of_reloadSimple {row : Row} {more : Bool} (hdebt : o.debtMask = 0 → o.debt c = 0)
    (h : o.reloadSimple sc c = some (o', row, more)) (budget : ℕ) :
    o.len c ≠ 0 ∧ o.ingressIsDue = false ∧ more = decide (1 < o.len c) ∧
      (o.reload sc c (o.len c)).2 = row ∧ ∃ o₁,
        (o.reload sc c (o.len c)).1.ingressDue.takeUnstarved sc budget = (o₁, 0) ∧
          o₁.tick = (o', false) := by
  unfold reloadSimple at h
  dsimp only at h
  by_cases h1 : o.len c = 0 ∨ o.debtMask ≠ 0 ∨ o.starved ≠ 0 ∨
      ingressPeriod ≤ o.reloadsSinceIngress + 1
  · rw [if_pos h1] at h
    cases h
  by_cases h2 : o.bytes - sc.magBytes c ≠ 0 ∧ o.epochLen ≤ o.events + 1
  · rw [if_neg h1, if_pos h2] at h
    cases h
  rw [if_neg h1, if_neg h2] at h
  simp only [Option.some.injEq, Prod.mk.injEq] at h
  obtain ⟨rfl, rfl, rfl⟩ := h
  simp only [not_or, not_not] at h1
  obtain ⟨hlen, hmask, hstarved, hingress⟩ := h1
  have hnone := hdebt hmask
  refine ⟨hlen, decide_eq_false hingress, rfl, rfl, (o.reload sc c (o.len c)).1.ingressDue, ?_, ?_⟩
  · rw [takeUnstarved, if_pos (.inl hstarved)]
  · have hreload : (o.reload sc c (o.len c)).1 = { o with
        bytes := o.bytes - sc.magBytes c
        len := Function.update o.len c (o.len c - 1)
        low := Function.update o.low c (min (o.low c) (Function.update o.len c (o.len c - 1) c)) } := by
      unfold reload
      dsimp only
      rw [hnone, Nat.zero_min]
      exact setDebt_zero hmask hnone
    rw [hreload, ingressDue, if_neg hingress, tick]
    dsimp only
    by_cases hbytes : o.bytes - sc.magBytes c = 0
    · rw [if_pos hbytes, if_neg (not_not.mpr hbytes)]
    · rw [if_neg hbytes, if_pos hbytes]
      have hquiet : ¬ (o.epochLen ≤ o.events + 1 ∨ o.debtMask ≠ 0) := by
        rintro (hdue | hd)
        · exact h2 ⟨hbytes, hdue⟩
        · exact hd hmask
      rw [decide_eq_false hquiet]

end DepotOverflow

namespace HeapCore
variable {bd : Build} {h : HeapCore} {c : ℕ}

/-- Bit `c` of the debt mask is set when class `c` has a debt. -/
def Marked (h : HeapCore) : Prop := ∀ d, h.depot = some d → ∀ c,
  d.ovf.debtMask.getLsbD c = true ↔ d.ovf.debt c ≠ 0

lemma Marked.debt_eq_zero (hm : h.Marked) {d : Depot} (hd : h.depot = some d)
    (hmask : d.ovf.debtMask = 0) : d.ovf.debt c = 0 := by
  by_contra hdebt
  have hbit := (hm d hd c).mpr hdebt
  rw [hmask] at hbit
  simp at hbit

lemma magBytes_pos (bd : Build) (c : ℕ) : 0 < bd.sizes.magBytes c :=
  Nat.mul_pos (bd.sizes.blockSize_granular c).1 (by decide)

/-- A lane that does not park leaves the heap alone. -/
lemma parkSimple_refused {d : Depot} (hr : (h.parkSimple bd c d).2 = false) :
    (h.parkSimple bd c d).1 = h := by
  unfold parkSimple at hr ⊢
  dsimp only at hr ⊢
  by_cases hmay : (h.tcache c).mayPark
  · rw [if_pos hmay] at hr ⊢
    by_cases hfloor : (h.tcache c).parked < depotK c
    · rw [if_pos hfloor] at hr
      have hpark : d.park c (h.tcache c).parked (h.tcache c).slots ≠ none := by
        rw [Depot.park, if_neg (by omega)]
        exact Option.some_ne_none _
      cases hd : d.park c (h.tcache c).parked (h.tcache c).slots with
      | none => exact absurd hd hpark
      | some r =>
        rw [hd] at hr
        cases hr
    · rw [if_neg hfloor] at hr ⊢
      cases hd : d.ovf.parkSimple bd.sizes c (h.tcache c).slots h.depotBudget with
      | none => rfl
      | some ovf =>
        rw [hd] at hr
        cases hr
  · rw [if_neg hmay]

/-- Where the lane parks, the generic chain parks, and leaves the same up to the count and the
virgin mask. -/
lemma depotPark_of_parkSimple (env : Surroundings) {d : Depot} (hd : h.depot = some d)
    (hc : c < bd.sizes.depotClasses) (hcount : (h.tcache c).count = tcacheCap)
    (hr : (h.parkSimple bd c d).2 = true) :
    ∃ h', h.depotPark bd env c = some (h', true) ∧ ∀ block,
      (h.parkSimple bd c d).1.setClass c
        ({ (h.parkSimple bd c d).1.tcache c with virginMask := 0 }.restart block) =
      h'.setClass c ((h'.tcache c).restart block) := by
  have hmay : (h.tcache c).mayPark := by
    by_contra hmay
    rw [parkSimple, if_neg hmay] at hr
    cases hr
  rw [depotPark, if_neg (by simp [depotK_ne_zero, hc]), hd]
  dsimp only
  rw [if_neg (by simp [hcount])]
  unfold parkSimple at hr ⊢
  dsimp only at hr ⊢
  rw [if_pos hmay] at hr ⊢
  by_cases hfloor : (h.tcache c).parked < depotK c
  · rw [if_pos hfloor]
    have hpark : d.park c (h.tcache c).parked (h.tcache c).slots = some ({ d with
        mags := Function.update d.mags c
          (Function.update (d.mags c) (h.tcache c).parked (h.tcache c).slots) },
        (h.tcache c).parked + 1) := by
      rw [Depot.park, if_neg (by omega)]
    rw [hpark]
    refine ⟨_, rfl, fun block => ?_⟩
    simp only [setClass_setClass, setClass_tcache, PerClass.restart]
  · rw [if_neg hfloor] at hr ⊢
    have hfull : d.park c (h.tcache c).parked (h.tcache c).slots = none := by
      rw [Depot.park, if_pos (by omega)]
    rw [hfull]
    cases hs : d.ovf.parkSimple bd.sizes c (h.tcache c).slots h.depotBudget with
    | none =>
      rw [hs] at hr
      cases hr
    | some ovf =>
      obtain ⟨hbudget, hlen, o₁, hpark, hcap, htick⟩ :=
        DepotOverflow.park_of_parkSimple (magBytes_pos bd c) hs env.page (env.reserve h.core.time)
          (env.commit h.core.time)
      let k : PerClass := { h.tcache c with ovf := 1, count := 0, virginMask := 0 }
      have htick' : ((h.setOvf d o₁).setClass c k).depotTick bd env =
          some ((h.setOvf d ovf).setClass c k) := by
        simp only [depotTick, setOvf, setClass, htick, Bool.false_eq_true, if_false]
      refine ⟨(h.setOvf d ovf).setClass c k, ?_, fun block => ?_⟩
      · unfold parkOverflow
        rw [hd]
        dsimp only
        rw [if_neg hbudget, hpark]
        simp only [Bool.true_eq_false, if_false, hcap, hlen]
        rw [htick']
        rfl
      · simp only [k, setClass_setClass, setClass_tcache, PerClass.restart]

/-- Where the lane reloads, the generic chain reloads, and leaves the same up to the count. -/
lemma depotReloadTick_of_reloadSimple (env : Surroundings) {h' : HeapCore} (hm : h.Marked)
    (hcount : (h.tcache c).count = 0) (hr : h.reloadSimple bd c = some h') :
    (h.tcache c).mayReload ∧ h.depotReloadTick bd env c =
      some (h'.setClass c { h'.tcache c with count := tcacheCap }, true) := by
  unfold reloadSimple at hr
  by_cases hc : c < bd.sizes.depotClasses ∧ depotK c ≠ 0
  swap
  · rw [if_neg hc] at hr
    cases hr
  rw [if_pos hc] at hr
  obtain ⟨d, hd, hr⟩ := Option.bind_eq_some_iff.mp hr
  dsimp only at hr
  have hdepot : ¬ (bd.sizes.depotClasses ≤ c ∨ depotK c = 0) := by
    rintro (hle | hzero)
    · omega
    · exact hc.2 hzero
  by_cases hparked : (h.tcache c).parked ≠ 0
  · rw [if_pos hparked] at hr
    refine ⟨.inl hparked, ?_⟩
    have hfloor : d.reload c (h.tcache c).parked =
        some ((h.tcache c).parked - 1, d.mags c ((h.tcache c).parked - 1)) := by
      rw [Depot.reload, if_neg hparked]
    rw [hfloor] at hr
    obtain rfl := Option.some.inj hr
    have hreload : h.depotReload bd c = (h.setClass c { h.tcache c with
        parked := (h.tcache c).parked - 1
        slots := d.mags c ((h.tcache c).parked - 1)
        virginMask := 0
        count := tcacheCap }, true) := by
      rw [depotReload, if_neg hdepot, hd]
      dsimp only
      rw [if_neg (not_not.mpr hcount), hfloor]
    rw [depotReloadTick, hreload]
    simp only [setClass_setClass, setClass_tcache]
    rw [if_pos hparked]
    rfl
  · rw [if_neg hparked] at hr
    by_cases hovf : (h.tcache c).ovf ≠ 0
    swap
    · rw [if_neg hovf] at hr
      cases hr
    rw [if_pos hovf] at hr
    refine ⟨.inr hovf, ?_⟩
    obtain ⟨⟨o', row, more⟩, hs, rfl⟩ := Option.map_eq_some_iff.mp hr
    obtain ⟨hlen, -, rfl, hrow, o₁, htake, htick⟩ :=
      DepotOverflow.reload_of_reloadSimple (hm.debt_eq_zero hd) hs h.depotBudget
    have hempty : d.reload c (h.tcache c).parked = none := by
      rw [Depot.reload, if_pos (not_not.mp hparked)]
    let k : PerClass := { h.tcache c with
      slots := row
      ovf := if 1 < d.ovf.len c then 1 else 0
      virginMask := 0
      count := tcacheCap }
    have hreload : h.depotReload bd c = ((h.setOvf d o₁).setClass c k, true) := by
      rw [depotReload, if_neg hdepot, hd]
      dsimp only
      rw [if_neg (not_not.mpr hcount), hempty]
      dsimp only
      unfold reloadOverflow
      rw [hd]
      dsimp only
      rw [if_neg hlen, hrow]
      unfold reopenUnstarved
      simp only [setClass, htake]
      rfl
    rw [depotReloadTick, hreload]
    simp only [hparked, if_false, depotTick, setOvf, setClass, htick, k, Bool.false_eq_true,
      Function.update_idem, Function.update_self, decide_eq_true_eq]
    rfl

/-- The lane answers for an ingress check that is not due. -/
lemma ingress_of_reloadSimple {h' : HeapCore} (hm : h.Marked) (hr : h.reloadSimple bd c = some h')
    (hparked : (h.tcache c).parked = 0) {d : Depot} (hd : h.depot = some d) :
    d.ovf.ingressIsDue = false := by
  unfold reloadSimple at hr
  split at hr
  · rw [hd, Option.bind_some] at hr
    dsimp only at hr
    rw [if_neg (not_not.mpr hparked)] at hr
    split at hr
    · obtain ⟨⟨o', row, more⟩, hs, -⟩ := Option.map_eq_some_iff.mp hr
      exact (DepotOverflow.reload_of_reloadSimple (hm.debt_eq_zero hd) hs h.depotBudget).2.1
    · cases hr
  · cases hr

lemma freeMagazinePark_eq (env : Surroundings) (h : HeapCore) (c block : ℕ) :
    h.freeMagazinePark bd env c (h.tcache c).count block =
      h.freeMagazineFull bd env c (h.tcache c).count block := by
  unfold freeMagazinePark
  by_cases hc : (h.tcache c).count = tcacheCap ∧ c < bd.sizes.depotClasses ∧ depotK c ≠ 0
  · rw [if_pos hc]
    cases hd : h.depot with
    | none => rfl
    | some d =>
      dsimp only
      cases hr : (h.parkSimple bd c d).2 with
      | false =>
        have hsame : h.parkSimple bd c d = (h, false) := Prod.ext (parkSimple_refused hr) hr
        rw [hsame]
        rfl
      | true =>
        obtain ⟨h', hpark, heq⟩ := depotPark_of_parkSimple env hd hc.2.1 hc.1 hr
        have hmay : (h.tcache c).mayPark := by
          by_contra hmay
          rw [parkSimple, if_neg hmay] at hr
          cases hr
        have htry : h.tryPark bd env c (h.tcache c).count = some (h', true) := by
          rw [tryPark, if_pos ⟨hc.1, hmay⟩, hpark]
        rw [if_pos rfl, freeMagazineFull, htry, heq block, writeMag_setClass]
        rfl
  · rw [if_neg hc]
    rfl

lemma refillMagazineMiss_eq (env : Surroundings) (hm : h.Marked) (hcount : (h.tcache c).count = 0) :
    h.refillMagazineMiss bd env c = h.refillMagazineSlow bd env c := by
  unfold refillMagazineMiss
  cases hr : h.reloadSimple bd c with
  | none => rfl
  | some h' =>
    obtain ⟨hmay, hreload⟩ := depotReloadTick_of_reloadSimple env hm hcount hr
    have htry : h.tryReload bd env c =
        some (h'.setClass c { h'.tcache c with count := tcacheCap }, true) := by
      rw [tryReload, if_pos hmay, hreload]
    have hfinish : (h'.setClass c { h'.tcache c with count := tcacheCap }).finishMagazineRefill bd c
        tcacheCap = h'.finishMagazineRefill bd c tcacheCap := by
      simp only [finishMagazineRefill, setClass_setClass, setClass_tcache]
    rw [refillMagazineSlow, refillFromDepot, htry]
    change _ = some ((h'.setClass c _).finishMagazineRefill bd c tcacheCap)
    rw [hfinish]

end HeapCore

/-- On every heap the free through the lane is the free through the generic chain, and so is the
refill of an empty magazine. A lane that refuses leaves the heap alone, the steady reload is never
one with an ingress check, and the marks that it relies on hold after every run. -/
theorem lanes_exact (bd : Build) (env : Surroundings) :
    (∀ (h : HeapCore) (c block : ℕ), h.freeMagazinePark bd env c (h.tcache c).count block =
      h.freeMagazineFull bd env c (h.tcache c).count block) ∧
    (∀ (h : HeapCore) (c : ℕ) (d : Depot), (h.parkSimple bd c d).2 = false →
      (h.parkSimple bd c d).1 = h) ∧
    (∀ (h : HeapCore) (c : ℕ), h.Marked → (h.tcache c).count = 0 →
      h.refillMagazineMiss bd env c = h.refillMagazineSlow bd env c ∧
      ∀ d h', h.depot = some d → h.reloadSimple bd c = some h' → (h.tcache c).parked = 0 →
        d.ovf.ingressIsDue = false) ∧
    ∀ (b : PrimordialBase) (budget : ℕ) (bound : Bool) (cs : List Machine.Command) (m : Machine),
      (Machine.start bd b budget bound).run bd env cs = some m → m.heap.Marked := by
  refine ⟨HeapCore.freeMagazinePark_eq env, fun h c d => HeapCore.parkSimple_refused,
    fun h c hm hcount => ⟨HeapCore.refillMagazineMiss_eq env hm hcount, fun d h' hd hr hparked =>
      HeapCore.ingress_of_reloadSimple hm hr hparked hd⟩, fun b budget bound cs m hrun => ?_⟩
  obtain ⟨m', hm', hinv⟩ := (Machine.start_inv bd b budget bound).run env cs
  obtain rfl := Option.some.inj (hrun.symm.trans hm')
  exact fun d hd => (hinv.wf d hd).owed

/-- An empty magazine with two records of its class in the overflow. -/
def twoRecords : HeapCore :=
  { HeapCore.new releaseBuild 0 0 with
    depot := some ⟨fun _ _ _ => 0, { DepotOverflow.empty with
      active := true
      bytes := 2 * releaseBuild.sizes.magBytes 0
      epochLen := epochMin
      len := Function.update (fun _ => 0) 0 2
      cap := fun _ => 4
      memory := fun _ _ => 4096 }⟩
    tcache := fun c => { Tcache.new releaseBuild.sizes c with ovf := 1 } }

/-- Pages of 4 KiB, and an OS that grants. -/
def granting : Surroundings :=
  ⟨4096, by decide, fun _ => [], fun _ _ => false, fun _ => true, fun _ => true⟩

theorem lanes_exact_twoRecords : (twoRecords.reloadSimple releaseBuild 0).isSome = true ∧
    twoRecords.refillMagazineMiss releaseBuild granting 0 =
      twoRecords.refillMagazineSlow releaseBuild granting 0 := by
  have hmarked : twoRecords.Marked := by
    intro d hd c
    obtain rfl := Option.some.inj hd
    simp [DepotOverflow.empty]
  exact ⟨by decide +kernel,
    ((lanes_exact releaseBuild granting).2.2.1 twoRecords 0 hmarked rfl).1⟩

end Small

end SeferAlloc
