import SeferAlloc.HeapCoreMoves

/-!
# Reloads and flushes of magazines

A reload moves the last row of the floor, or the youngest record of the ring,
into an empty magazine. A magazine that leaves for the core passes through the
hand of the call.
-/
namespace SeferAlloc
namespace Small
open BitWord

namespace HeapCore
variable {bd : Build} {env : Surroundings} {a b : HeapCore} {user hand : ℕ → Multiset ℕ}
  {c n p : ℕ} {d : Depot} {k : PerClass} {row : Row}

lemma hand_zero (hand : ℕ → Multiset ℕ) (c : ℕ) : hand + Pi.single c 0 = hand := by
  rw [Pi.single_zero, add_zero]

lemma cached_setClass (hp : k.parked = (a.tcache c).parked) :
    (a.setClass c k).cached c = k.magazine + a.floor c + a.ring c := by
  simp [cached, floor, ring, setClass, hp]

/-- Blocks pass between a magazine and the hand. -/
lemma Inv.setMagazine {X Y : Multiset ℕ} (h : Inv bd a user (hand + Pi.single c X))
    (hp : k.parked = (a.tcache c).parked) (hk : k.count ≤ tcacheCap)
    (hm : k.magazine + Y = (a.tcache c).magazine + X) :
    Inv bd (a.setClass c k) user (hand + Pi.single c Y) := by
  refine h.move rfl ?_ ?_ ?_ ?_
  · intro e he
    exact cached_setClass_of_ne he
  · rw [cached_setClass hp, cached, add_right_comm, add_right_comm _ (a.floor c), hm,
      add_right_comm _ X, add_right_comm _ X]
  · intro e
    by_cases he : e = c
    · subst e
      simpa [setClass] using hk
    · simpa [setClass, he] using h.count_le e
  · exact h.wf

lemma Inv.takeMagazine {Y : Multiset ℕ} (h : Inv bd a user hand)
    (hp : k.parked = (a.tcache c).parked) (hk : k.count ≤ tcacheCap)
    (hm : k.magazine + Y = (a.tcache c).magazine) :
    Inv bd (a.setClass c k) user (hand + Pi.single c Y) := by
  rw [← hand_zero hand c] at h
  exact h.setMagazine hp hk (by rw [hm, add_zero])

lemma Inv.putMagazine {X : Multiset ℕ} (h : Inv bd a user (hand + Pi.single c X))
    (hp : k.parked = (a.tcache c).parked) (hk : k.count ≤ tcacheCap)
    (hm : k.magazine = (a.tcache c).magazine + X) : Inv bd (a.setClass c k) user hand := by
  rw [← hand_zero hand c]
  exact h.setMagazine hp hk (by rw [hm, add_zero])

lemma setClass_setClass (h : HeapCore) (c : ℕ) (k k' : PerClass) :
    (h.setClass c k).setClass c k' = h.setClass c k' := by
  simp [setClass]

@[simp] lemma setClass_tcache (h : HeapCore) (c : ℕ) (k : PerClass) :
    (h.setClass c k).tcache c = k := by
  simp [setClass]

lemma flush_setClass (h : HeapCore) (c e : ℕ) (k : PerClass) (ps : List ℕ) :
    (h.setClass c k).flush bd env e ps = (h.flush bd env e ps).map (·.setClass c k) := by
  unfold flush
  change (h.core.flush bd env e ps).bind _ = _
  cases h.core.flush bd env e ps <;> rfl

/-- The blocks that are flushed are still in the slots of the magazine. -/
lemma Inv.flushMagazine {ps : List ℕ} (env : Surroundings) (h : Inv bd a user hand)
    (hp : k.parked = (a.tcache c).parked) (hk : k.count ≤ tcacheCap)
    (hm : k.magazine + ps = (a.tcache c).magazine) :
    ∃ b, a.flush bd env c ps = some b ∧ Inv bd (b.setClass c k) user hand ∧
      b.tcache = a.tcache ∧ b.depot = a.depot := by
  obtain ⟨b', hb', hi, htc, hdp⟩ := (h.takeMagazine hp hk hm).flush env
  rw [flush_setClass, Option.map_eq_some_iff] at hb'
  obtain ⟨b, hb, rfl⟩ := hb'
  refine ⟨b, hb, hi, ?_, ?_⟩
  · unfold HeapCore.flush at hb
    cases hf : a.core.flush bd env c ps with
    | none => simp [hf] at hb
    | some core =>
        simp only [hf, Option.bind_eq_bind, Option.bind_some, Option.pure_def,
          Option.some.injEq] at hb
        rw [← hb]
  · exact hdp

/-! ## Reloads -/

/-- The last row of the floor is the magazine. -/
lemma Inv.loadFloor (h : Inv bd a user hand) (hd : a.depot = some d)
    (h0 : (a.tcache c).count = 0) (hr : d.reload c (a.tcache c).parked = some (n, row))
    (hk : k.count = tcacheCap ∧ k.slots = row ∧ k.parked = n) :
    (a.tcache c).parked = n + 1 ∧ Inv bd (a.setClass c k) user hand := by
  obtain ⟨hk1, hk2, hk3⟩ := hk
  unfold Depot.reload at hr
  split_ifs at hr with hz
  simp only [Option.some.injEq, Prod.mk.injEq] at hr
  obtain ⟨hn, hrow⟩ := hr
  have hparked : (a.tcache c).parked = n + 1 := by omega
  refine ⟨hparked, h.rearrange rfl ?_ ?_ h.wf⟩
  · funext e
    by_cases he : e = c
    · subst e
      have hb : (a.setClass c k).depot = some d := hd
      rw [cached_some hd, cached_some hb, hparked, Depot.floor_succ]
      simp only [setClass_tcache, PerClass.magazine, hk1, hk2, hk3, h0, Row.blocks_zero]
      rw [← hrow, hn, zero_add, add_comm (d.floor c n)]
    · exact cached_setClass_of_ne he
  · intro e
    by_cases he : e = c
    · subst e
      simp [hk1]
    · simpa [setClass, he] using h.count_le e

/-- The youngest record of the ring is the magazine. -/
lemma Inv.loadRing (h : Inv bd a user hand) (hd : a.depot = some d)
    (h0 : (a.tcache c).count = 0) {o : DepotOverflow} (hw : o.Wf bd.sizes)
    (hring : d.ovf.ring = Function.update o.ring c (o.ring c ++ [row]))
    (hk : k.count = tcacheCap ∧ k.slots = row ∧ k.parked = (a.tcache c).parked) :
    Inv bd ((a.setOvf d o).setClass c k) user hand := by
  obtain ⟨hk1, hk2, hk3⟩ := hk
  have hb : ((a.setOvf d o).setClass c k).depot = some { d with ovf := o } := rfl
  refine h.rearrange rfl ?_ ?_ ?_
  · funext e
    rw [cached_some hd, cached_some hb]
    have hrow : Depot.ring ⟨d.mags, d.ovf⟩ e = _ := Depot.ring_of_append hring e
    by_cases he : e = c
    · subst e
      rw [Pi.single_eq_same] at hrow
      simp only [setClass_tcache, PerClass.magazine, hk1, hk2, hk3, h0, Row.blocks_zero]
      change _ = 0 + d.floor c _ + Depot.ring ⟨d.mags, d.ovf⟩ c
      rw [hrow]
      simp only [Depot.floor]
      abel
    · rw [Pi.single_eq_of_ne he, add_zero] at hrow
      change _ = _ + Depot.ring ⟨d.mags, d.ovf⟩ e
      rw [hrow]
      simp [setClass, setOvf, he, Depot.floor]
  · intro e
    by_cases he : e = c
    · subst e
      simp [hk1]
    · simpa [setClass, setOvf, he] using h.count_le e
  · intro d' hd'
    obtain rfl := Option.some.inj (hb.symm.trans hd')
    exact hw

/-- The records of a class in the ring. -/
def ringLen (h : HeapCore) (c : ℕ) : ℕ := (h.depot.map fun d => d.ovf.len c).getD 0

lemma depotRows_eq (h : HeapCore) (c : ℕ) : h.depotRows c = (h.tcache c).parked + h.ringLen c := rfl

lemma Quiet.ringLen (h : Quiet bd a b) (e : ℕ) : b.ringLen e = a.ringLen e := by
  have h1 := congrFun h.rows e
  have h2 := (h.mags e).2.2
  rw [depotRows_eq, depotRows_eq] at h1
  omega

/-- What a reload of an empty magazine does. -/
structure Reloads (bd : Build) (a b : HeapCore) (c : ℕ) (ok : Bool) (user hand : ℕ → Multiset ℕ) :
    Prop where
  inv : Inv bd b user hand
  others : ∀ e ≠ c, b.ringLen e = a.ringLen e
  loaded : ok = true → (b.tcache c).count = tcacheCap ∧ b.depotRows c + 1 = a.depotRows c
  left : ok = false → SameMags a b ∧ b.ringLen c = 0

lemma Reloads.ofQuiet (h : Inv bd a user hand) (hq : Quiet bd a b) (h0 : b.ringLen c = 0) :
    Reloads bd a b c false user hand :=
  ⟨h.quiet hq, fun e _ => hq.ringLen e, by simp, fun _ => ⟨hq.mags, h0⟩⟩

lemma ringLen_eq_zero (hw : a.Wf bd) (hc : bd.sizes.depotClasses ≤ c) : a.ringLen c = 0 := by
  unfold ringLen
  cases hd : a.depot with
  | none => rfl
  | some d =>
      by_contra h0
      have := (hw d hd).classes c h0
      omega

lemma reloadOverflow_spec (h : Inv bd a user hand) (h0 : (a.tcache c).count = 0) :
    Reloads bd a (a.reloadOverflow bd c).1 c (a.reloadOverflow bd c).2 user hand := by
  unfold reloadOverflow
  cases hd : a.depot with
  | none => exact .ofQuiet h (.refl h.wf) (by simp [ringLen, hd])
  | some d =>
      dsimp only
      have hlen : ∀ e, a.ringLen e = d.ovf.len e := fun e => by simp [ringLen, hd]
      by_cases hz : d.ovf.len c = 0
      · rw [if_pos hz]
        have hq : Quiet bd a (a.setClass c { a.tcache c with ovf := 0 }) :=
          quiet_setClass h.wf rfl rfl rfl
        exact .ofQuiet h hq (by rw [hq.ringLen, hlen, hz])
      · rw [if_neg hz]
        obtain ⟨hw', hlen', hring⟩ := (h.wf d hd).reload hz
        set o := (d.ovf.reload bd.sizes c (d.ovf.len c)).1 with ho
        set row := (d.ovf.reload bd.sizes c (d.ovf.len c)).2 with hrow
        set k := { a.tcache c with
          slots := row
          ovf := if 1 < d.ovf.len c then 1 else 0
          virginMask := 0
          count := tcacheCap } with hk
        have hi : Inv bd ((a.setOvf d o).setClass c k) user hand :=
          h.loadRing hd h0 hw' hring ⟨rfl, rfl, rfl⟩
        have hdue := hw'.ingressDue
        have hq : Quiet bd ((a.setOvf d o).setClass c k)
            ((a.setClass c k).reopenUnstarved bd { d with ovf := o.ingressDue }) := by
          have h1 : Quiet bd ((a.setOvf d o).setClass c k)
              (((a.setOvf d o).setClass c k).setOvf { d with ovf := o } o.ingressDue) :=
            quiet_setOvf rfl hdue
          exact h1.trans (quiet_reopenUnstarved (d := { d with ovf := o.ingressDue }) rfl h1.wf)
        have hrl : ∀ e, ((a.setOvf d o).setClass c k).ringLen e = o.len e := fun e => rfl
        refine ⟨hi.quiet hq, ?_, ?_, by simp⟩
        · intro e he
          rw [hq.ringLen, hrl, hlen, hlen', Function.update_of_ne he]
        · intro _
          refine ⟨by rw [(hq.mags c).1, setClass_tcache], ?_⟩
          rw [congrFun hq.rows c, depotRows_eq, depotRows_eq, hrl, hlen, hlen',
            Function.update_self, setClass_tcache]
          dsimp only [k]
          omega

lemma depotReload_spec (h : Inv bd a user hand) (h0 : (a.tcache c).count = 0) :
    Reloads bd a (a.depotReload bd c).1 c (a.depotReload bd c).2 user hand := by
  unfold depotReload
  split_ifs with hcls
  · have hc : bd.sizes.depotClasses ≤ c := by
      have := depotK_ne_zero c
      omega
    exact .ofQuiet h (.refl h.wf) (ringLen_eq_zero h.wf hc)
  · cases hd : a.depot with
    | none => exact .ofQuiet h (.refl h.wf) (by simp [ringLen, hd])
    | some d =>
        dsimp only
        rw [if_neg (by omega)]
        cases hr : d.reload c (a.tcache c).parked with
        | none => exact reloadOverflow_spec h h0
        | some r =>
            obtain ⟨n, row⟩ := r
            dsimp only
            set k := { a.tcache c with
              parked := n
              slots := row
              virginMask := 0
              count := tcacheCap } with hk
            obtain ⟨hn, hi⟩ := h.loadFloor hd h0 hr (k := k) ⟨rfl, rfl, rfl⟩
            refine ⟨hi, fun _ _ => rfl, ?_, by simp⟩
            intro _
            have hrl : (a.setClass c k).ringLen c = a.ringLen c := rfl
            refine ⟨by rw [setClass_tcache], ?_⟩
            rw [depotRows_eq, depotRows_eq, hrl, setClass_tcache, hn]
            dsimp only [k]
            omega

end HeapCore

end Small

end SeferAlloc
