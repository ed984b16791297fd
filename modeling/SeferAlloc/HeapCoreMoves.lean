import SeferAlloc.DepotOverflowRings
import SeferAlloc.HeapCoreBlocks

/-!
# How blocks move between the containers

The invariant accounts for every block that the core handed out: it is with the
user, cached in a magazine, on a floor or in a ring, in the hand of a running
call, or flushed. Ticks and reopenings move only records to the core; a park
and a reload move whole rows.
-/
namespace SeferAlloc
namespace Small
open BitWord

namespace HeapCore

/-- The blocks on the depot floor. -/
def floor (h : HeapCore) (c : ℕ) : Multiset ℕ :=
  (h.depot.map fun d => d.floor c (h.tcache c).parked).getD 0

/-- The blocks in the overflow ring. -/
def ring (h : HeapCore) (c : ℕ) : Multiset ℕ := (h.depot.map fun d => d.ring c).getD 0

/-- The blocks that the heap keeps, by class. -/
def cached (h : HeapCore) : ℕ → Multiset ℕ := fun c =>
  (h.tcache c).magazine + h.floor c + h.ring c

def Wf (bd : Build) (h : HeapCore) : Prop := ∀ d, h.depot = some d → d.ovf.Wf bd.sizes

/-- Every block that the core handed out has its one place; `hand` are those in transit. -/
structure Inv (bd : Build) (h : HeapCore) (user hand : ℕ → Multiset ℕ) : Prop where
  owned : Owned bd h.core.world user (h.cached + hand)
  balance : h.core.handed = h.core.flushed + user + (h.cached + hand)
  count_le : ∀ c, (h.tcache c).count ≤ tcacheCap
  wf : h.Wf bd

/-- The magazines and the floor counts are the same. -/
def SameMags (a b : HeapCore) : Prop := ∀ c, (b.tcache c).count = (a.tcache c).count ∧
  (b.tcache c).slots = (a.tcache c).slots ∧ (b.tcache c).parked = (a.tcache c).parked

variable {bd : Build} {env : Surroundings} {a b : HeapCore} {user hand : ℕ → Multiset ℕ}
  {c n p : ℕ} {d : Depot} {k : PerClass} {row : Row}

lemma SameMags.refl (a : HeapCore) : SameMags a a := fun _ => ⟨rfl, rfl, rfl⟩

lemma SameMags.trans {x y z : HeapCore} (h : SameMags x y) (h' : SameMags y z) : SameMags x z :=
  fun c => ⟨(h' c).1.trans (h c).1, (h' c).2.1.trans (h c).2.1, (h' c).2.2.trans (h c).2.2⟩

lemma cached_some (hd : a.depot = some d) (c : ℕ) :
    a.cached c = (a.tcache c).magazine + d.floor c (a.tcache c).parked + d.ring c := by
  simp [cached, floor, ring, hd]

/-- Blocks of one class move between its containers and the hand. -/
lemma Inv.move {X Y : Multiset ℕ} (h : Inv bd a user (hand + Pi.single c X))
    (hcore : b.core = a.core) (hother : ∀ e ≠ c, b.cached e = a.cached e)
    (hself : b.cached c + Y = a.cached c + X) (hcount : ∀ e, (b.tcache e).count ≤ tcacheCap)
    (hwf : b.Wf bd) : Inv bd b user (hand + Pi.single c Y) := by
  have heq : b.cached + (hand + Pi.single c Y) = a.cached + (hand + Pi.single c X) := by
    funext e
    simp only [Pi.add_apply]
    by_cases he : e = c
    · subst e
      rw [Pi.single_eq_same, Pi.single_eq_same, add_left_comm, hself, add_left_comm]
    · rw [Pi.single_eq_of_ne he, Pi.single_eq_of_ne he, hother e he]
  exact ⟨by rw [hcore, heq]; exact h.owned, by rw [hcore, heq]; exact h.balance, hcount, hwf⟩

lemma Inv.rearrange (h : Inv bd a user hand) (hcore : b.core = a.core)
    (hcached : b.cached = a.cached) (hcount : ∀ e, (b.tcache e).count ≤ tcacheCap)
    (hwf : b.Wf bd) : Inv bd b user hand :=
  ⟨by rw [hcore, hcached]; exact h.owned, by rw [hcore, hcached]; exact h.balance, hcount, hwf⟩

lemma update_add_single (f : ℕ → Multiset ℕ) (c : ℕ) (X : Multiset ℕ) :
    Function.update f c (f c + X) = f + Pi.single c X := by
  funext e
  rw [Pi.add_apply]
  by_cases he : e = c
  · subst e
    simp
  · simp [he]

/-- Blocks in the hand go back to the core. -/
lemma Inv.flush {ps : List ℕ} (env : Surroundings)
    (h : Inv bd a user (hand + Pi.single c (ps : Multiset ℕ))) :
    ∃ b, a.flush bd env c ps = some b ∧ Inv bd b user hand ∧ b.tcache = a.tcache ∧
      b.depot = a.depot := by
  have ho := h.owned
  rw [← add_assoc] at ho
  obtain ⟨w', he, hw'⟩ := ho.flush (env.pooled a.core.time)
  have hf : a.flush bd env c ps = some { a with core := { a.core with
      world := w'
      time := a.core.time + 1
      flushed := Function.update a.core.flushed c (a.core.flushed c + ps) } } := by
    simp [HeapCore.flush, Core.flush, he]
  refine ⟨_, hf, ⟨hw', ?_, h.count_le, h.wf⟩, rfl, rfl⟩
  have hb := h.balance
  change a.core.handed = Function.update _ _ _ + user + (a.cached + hand)
  rw [update_add_single, hb]
  abel

/-! ## Controls -/

/-- Only limits, marks, hints and controls of the overflow change. -/
structure Quiet (bd : Build) (a b : HeapCore) : Prop where
  core : b.core = a.core
  mags : SameMags a b
  cached : b.cached = a.cached
  rows : b.depotRows = a.depotRows
  wf : b.Wf bd

lemma Quiet.refl (hw : a.Wf bd) : Quiet bd a a := ⟨rfl, .refl a, rfl, rfl, hw⟩

lemma Quiet.trans {x y z : HeapCore} (h : Quiet bd x y) (h' : Quiet bd y z) : Quiet bd x z :=
  ⟨h'.core.trans h.core, h.mags.trans h'.mags, h'.cached.trans h.cached, h'.rows.trans h.rows,
    h'.wf⟩

lemma Inv.quiet (h : Inv bd a user hand) (hq : Quiet bd a b) : Inv bd b user hand := by
  apply h.rearrange hq.core hq.cached _ hq.wf
  intro e
  rw [(hq.mags e).1]
  exact h.count_le e

lemma SameMags.cached (h : SameMags a b) (hd : a.depot = some d) {o : DepotOverflow}
    (hb : b.depot = some { d with ovf := o }) (hring : o.ring = d.ovf.ring) :
    b.cached = a.cached := by
  funext e
  obtain ⟨h1, h2, h3⟩ := h e
  rw [cached_some hd, cached_some hb]
  simp only [PerClass.magazine, h1, h2, h3, Depot.ring, Depot.floor, hring]

lemma quiet_tcache (hw : a.Wf bd) (h : SameMags a b) (hcore : b.core = a.core)
    (hdepot : b.depot = a.depot) : Quiet bd a b := by
  refine ⟨hcore, h, ?_, ?_, ?_⟩
  · funext e
    obtain ⟨h1, h2, h3⟩ := h e
    simp only [HeapCore.cached, PerClass.magazine, floor, ring, h1, h2, h3, hdepot]
  · funext e
    simp only [depotRows, (h e).2.2, hdepot]
  · intro d hd
    rw [hdepot] at hd
    exact hw d hd

lemma quiet_setOvf (hd : a.depot = some d) {o : DepotOverflow}
    (hk : DepotOverflow.Keeps bd.sizes d.ovf o) : Quiet bd a (a.setOvf d o) := by
  refine ⟨rfl, .refl a, SameMags.cached (.refl a) hd rfl hk.ring, ?_, ?_⟩
  · funext e
    simp [depotRows, setOvf, hd, hk.len]
  · intro d' hd'
    obtain rfl := Option.some.inj hd'
    exact hk.wf

lemma sameMags_setClass (h1 : k.count = (a.tcache c).count) (h2 : k.slots = (a.tcache c).slots)
    (h3 : k.parked = (a.tcache c).parked) : SameMags a (a.setClass c k) := by
  intro e
  by_cases he : e = c
  · subst e
    simp [setClass, h1, h2, h3]
  · simp [setClass, he]

lemma quiet_setClass (hw : a.Wf bd) (h1 : k.count = (a.tcache c).count)
    (h2 : k.slots = (a.tcache c).slots) (h3 : k.parked = (a.tcache c).parked) :
    Quiet bd a (a.setClass c k) :=
  quiet_tcache hw (sameMags_setClass h1 h2 h3) rfl rfl

lemma quiet_foldl {f : HeapCore → ℕ → HeapCore}
    (hf : ∀ a : HeapCore, a.Wf bd → ∀ c, Quiet bd a (f a c)) (cs : List ℕ) (hw : a.Wf bd) :
    Quiet bd a (cs.foldl f a) := by
  induction cs generalizing a with
  | nil => exact .refl hw
  | cons c cs ih =>
      have h := hf a hw c
      exact h.trans (ih h.wf)

lemma quiet_reopen (hw : a.Wf bd) (ready : Word) : Quiet bd a (a.reopen bd ready) :=
  quiet_foldl (f := fun h c => h.setLimit c (openLimit bd.sizes c h.depotBudget))
    (fun _ hw _ => quiet_setClass hw rfl rfl rfl) _ hw

lemma quiet_reopenUnstarved (hd : a.depot = some d) (hw : a.Wf bd) :
    Quiet bd a (a.reopenUnstarved bd d) := by
  have h := quiet_setOvf hd ((hw d hd).takeUnstarved a.depotBudget)
  exact h.trans (quiet_reopen h.wf _)

/-! ## Ticks -/

/-- What a tick does: it may send records to the core. -/
def Ticks (bd : Build) (a b : HeapCore) (user hand : ℕ → Multiset ℕ) : Prop :=
  Inv bd b user hand ∧ SameMags a b

lemma Inv.quietTicks (h : Inv bd a user hand) (hq : Quiet bd a b) : Ticks bd a b user hand :=
  ⟨h.quiet hq, hq.mags⟩

lemma Ticks.after {x y : HeapCore} (h : SameMags a x) (h' : Ticks bd x y user hand) :
    Ticks bd a y user hand :=
  ⟨h'.1, h.trans h'.2⟩

/-- The blocks of a ring of which a record has left an end. -/
lemma Depot.ring_of_cons {o o' : DepotOverflow} {mags : ℕ → ℕ → Row}
    (h : o.ring = Function.update o'.ring c (row :: o'.ring c)) (e : ℕ) :
    Depot.ring ⟨mags, o⟩ e = Depot.ring ⟨mags, o'⟩ e +
      (Pi.single c (row.blocks tcacheCap) : ℕ → Multiset ℕ) e := by
  simp only [Depot.ring, h]
  by_cases he : e = c
  · subst e
    simp [add_comm]
  · simp [he]

lemma Depot.ring_of_append {o o' : DepotOverflow} {mags : ℕ → ℕ → Row}
    (h : o.ring = Function.update o'.ring c (o'.ring c ++ [row])) (e : ℕ) :
    Depot.ring ⟨mags, o⟩ e = Depot.ring ⟨mags, o'⟩ e +
      (Pi.single c (row.blocks tcacheCap) : ℕ → Multiset ℕ) e := by
  simp only [Depot.ring, h]
  by_cases he : e = c
  · subst e
    simp
  · simp [he]

lemma decayLoop_spec (env : Surroundings) (work : ℕ) (h : Inv bd a user hand) :
    ∃ b, a.decayLoop bd env work = some b ∧ Ticks bd a b user hand := by
  induction work generalizing a with
  | zero => exact ⟨a, rfl, h, .refl a⟩
  | succ work ih =>
      unfold decayLoop
      cases hd : a.depot with
      | none => exact ⟨a, rfl, h, .refl a⟩
      | some d =>
          dsimp only
          cases hc : d.ovf.debtClass with
          | none => exact ⟨a, rfl, h, .refl a⟩
          | some c =>
              dsimp only
              have hw := h.wf d hd
              have h0 := hw.debtClass hc
              obtain ⟨hw', -, hring⟩ := hw.popOldest h0
              set o := (d.ovf.popOldest bd.sizes c).1 with ho
              set mag := (d.ovf.popOldest bd.sizes c).2 with hmag
              set x := (a.setOvf d o).setClass c
                { a.tcache c with ovf := if 1 < d.ovf.len c then 1 else 0 } with hx
              have hsame : SameMags a x := sameMags_setClass rfl rfl rfl
              have hxd : x.depot = some { d with ovf := o } := rfl
              have hmove : Inv bd x user (hand + Pi.single c (mag.list tcacheCap : Multiset ℕ)) := by
                have h' : Inv bd a user (hand + Pi.single c 0) := by
                  rw [Pi.single_zero, add_zero]
                  exact h
                have hcached : ∀ e, a.cached e = x.cached e +
                    (Pi.single c (mag.blocks tcacheCap) : ℕ → Multiset ℕ) e := by
                  intro e
                  obtain ⟨h1, h2, h3⟩ := hsame e
                  rw [cached_some hd, cached_some hxd, Depot.ring_of_cons hring e]
                  simp only [PerClass.magazine, h1, h2, h3, Depot.floor, add_assoc]
                apply h'.move (b := x) rfl
                · intro e he
                  rw [hcached e, Pi.single_eq_of_ne he, add_zero]
                · rw [hcached c, Pi.single_eq_same, add_zero]
                  rfl
                · intro e
                  rw [(hsame e).1]
                  exact h.count_le e
                · intro d' hd'
                  obtain rfl := Option.some.inj (hxd.symm.trans hd')
                  exact hw'
              obtain ⟨y, hy, hyi, htc, -⟩ := hmove.flush env
              obtain ⟨b, hb, hbt⟩ := ih hyi
              refine ⟨b, ?_, Ticks.after (hsame.trans fun e => by rw [htc]; exact ⟨rfl, rfl, rfl⟩) hbt⟩
              rw [hy]
              exact hb

lemma depotDecay_spec (env : Surroundings) (h : Inv bd a user hand) :
    ∃ b, a.depotDecay bd env = some b ∧ Ticks bd a b user hand := by
  unfold depotDecay
  cases hd : a.depot with
  | none => exact ⟨a, rfl, h, .refl a⟩
  | some d =>
      dsimp only
      set x := (if d.ovf.epochDue = true then
        ((a.collectFloorMarks bd).2.setOvf d
          (d.ovf.endEpoch bd.sizes (a.collectFloorMarks bd).1)) else a) with hx
      have hq : Quiet bd a x := by
        rw [hx]
        split_ifs
        · have hsame : SameMags a (a.collectFloorMarks bd).2 := by
            intro e
            simp only [collectFloorMarks]
            split_ifs <;> exact ⟨rfl, rfl, rfl⟩
          have h1 : Quiet bd a (a.collectFloorMarks bd).2 := quiet_tcache h.wf hsame rfl rfl
          exact h1.trans (quiet_setOvf (by exact hd) ((h.wf d hd).endEpoch _))
        · exact .refl h.wf
      obtain ⟨y, hy, hyt⟩ := decayLoop_spec env decayWork (h.quiet hq)
      have hay := Ticks.after hq.mags hyt
      rw [hy]
      simp only [Option.bind_eq_bind, Option.bind_some]
      cases hyd : y.depot with
      | none => exact ⟨y, rfl, hay⟩
      | some d' =>
          exact ⟨_, rfl, hay.1.quiet (quiet_reopenUnstarved hyd hay.1.wf),
            hay.2.trans (quiet_reopenUnstarved hyd hay.1.wf).mags⟩

lemma depotTick_spec (env : Surroundings) (h : Inv bd a user hand) :
    ∃ b, a.depotTick bd env = some b ∧ Ticks bd a b user hand := by
  unfold depotTick
  cases hd : a.depot with
  | none => exact ⟨a, rfl, h, .refl a⟩
  | some d =>
      have hq := quiet_setOvf hd (h.wf d hd).tick
      dsimp only
      split_ifs
      · obtain ⟨b, hb, hbt⟩ := depotDecay_spec env (h.quiet hq)
        exact ⟨b, hb, hbt.after hq.mags⟩
      · exact ⟨_, rfl, h.quietTicks hq⟩

lemma depotSegmentTick_spec (env : Surroundings) (c : ℕ) (h : Inv bd a user hand) :
    ∃ b, a.depotSegmentTick bd env c = some b ∧ Ticks bd a b user hand := by
  unfold depotSegmentTick
  cases hd : a.depot with
  | none => exact ⟨_, rfl, h.quietTicks (quiet_setClass h.wf rfl rfl rfl)⟩
  | some d =>
      dsimp only
      split_ifs
      · have hq := quiet_setOvf hd ((h.wf d hd).disarm c)
        exact ⟨_, rfl, h.quietTicks (hq.trans (quiet_setClass hq.wf rfl rfl rfl))⟩
      · exact depotTick_spec env h

/-! ## Parks -/

/-- The magazine of a class with another count. -/
def setCount (h : HeapCore) (c n : ℕ) : HeapCore := h.setClass c { h.tcache c with count := n }

lemma cached_setClass_of_ne {e : ℕ} (he : e ≠ c) : (a.setClass c k).cached e = a.cached e := by
  simp [cached, floor, ring, setClass, he]

lemma Depot.floor_succ (d : Depot) (c n : ℕ) :
    d.floor c (n + 1) = d.floor c n + (d.mags c n).blocks tcacheCap := by
  simp [Depot.floor, List.range_succ]

/-- The floor has room: the row is on it, and the magazine may be emptied. -/
lemma Depot.park_floor {d' : Depot} {m : ℕ} (h : d.park c n row = some (d', m)) :
    m = n + 1 ∧ d'.ovf = d.ovf ∧ d'.floor c m = d.floor c n + row.blocks tcacheCap ∧
      ∀ e ≠ c, ∀ i, d'.floor e i = d.floor e i := by
  unfold Depot.park at h
  split_ifs at h
  simp only [Option.some.injEq, Prod.mk.injEq] at h
  obtain ⟨rfl, rfl⟩ := h
  refine ⟨rfl, rfl, ?_, fun e he i => ?_⟩
  · rw [Depot.floor_succ]
    simp only [Depot.floor, Function.update_self]
    congr 2
    apply List.map_congr_left
    intro i hi
    have := List.mem_range.mp hi
    rw [Function.update_of_ne (by omega)]
  · simp only [Depot.floor, Function.update_of_ne he]

/-- A full magazine has moved to the floor of its class. -/
lemma Inv.parkFloor (h : Inv bd a user hand) (hd : a.depot = some d)
    (hfull : (a.tcache c).count = tcacheCap) {d' : Depot} {m : ℕ}
    (hp : d.park c (a.tcache c).parked (a.tcache c).slots = some (d', m))
    (hb : b.depot = some d') (hcore : b.core = a.core) (hother : ∀ e ≠ c, b.tcache e = a.tcache e)
    (hcount : (b.tcache c).count = 0) (hparked : (b.tcache c).parked = m) :
    Inv bd b user hand := by
  obtain ⟨-, hovf, hfloor, hne⟩ := Depot.park_floor hp
  apply h.rearrange hcore
  · funext e
    rw [cached_some hd, cached_some hb]
    simp only [Depot.ring, hovf]
    by_cases he : e = c
    · subst e
      rw [hparked, hfloor]
      simp only [PerClass.magazine, hcount, hfull, Row.blocks_zero]
      rw [zero_add, add_comm ((a.tcache c).slots.blocks tcacheCap)]
    · rw [hother e he, hne e he]
  · intro e
    by_cases he : e = c
    · subst e
      omega
    · rw [hother e he]
      exact h.count_le e
  · intro d₁ hd₁
    obtain rfl := Option.some.inj (hb.symm.trans hd₁)
    rw [hovf]
    exact h.wf d hd

/-- A full magazine has moved to the ring of its class. -/
lemma Inv.parkRing (h : Inv bd a user hand) (hd : a.depot = some d)
    (hfull : (a.tcache c).count = tcacheCap) {o : DepotOverflow} (hw : o.Wf bd.sizes)
    (hring : o.ring = Function.update d.ovf.ring c (d.ovf.ring c ++ [(a.tcache c).slots]))
    (hb : b.depot = some { d with ovf := o }) (hcore : b.core = a.core)
    (hother : ∀ e ≠ c, b.tcache e = a.tcache e) (hcount : (b.tcache c).count = 0)
    (hparked : (b.tcache c).parked = (a.tcache c).parked) : Inv bd b user hand := by
  have hrow : ∀ e, Depot.ring ⟨d.mags, o⟩ e = d.ring e +
      (Pi.single c ((a.tcache c).slots.blocks tcacheCap) : ℕ → Multiset ℕ) e := by
    intro e
    simp only [Depot.ring, hring]
    by_cases he : e = c
    · subst e
      simp
    · simp [he]
  apply h.rearrange hcore
  · funext e
    rw [cached_some hd, cached_some hb, hrow]
    by_cases he : e = c
    · subst e
      rw [hparked, Pi.single_eq_same]
      simp only [PerClass.magazine, hcount, hfull, Row.blocks_zero, Depot.floor]
      abel
    · rw [hother e he, Pi.single_eq_of_ne he, add_zero]
      rfl
  · intro e
    by_cases he : e = c
    · subst e
      omega
    · rw [hother e he]
      exact h.count_le e
  · intro d₁ hd₁
    obtain rfl := Option.some.inj (hb.symm.trans hd₁)
    exact hw

/-- A park empties the magazine, or refuses and moves no block. -/
def Parks (bd : Build) (a b : HeapCore) (c : ℕ) (ok : Bool) (user hand : ℕ → Multiset ℕ) : Prop :=
  if ok = true then Inv bd (b.setCount c 0) user hand else Quiet bd a b

lemma setCount_self {h : HeapCore} (hn : (h.tcache c).count = n) : h.setCount c n = h := by
  subst hn
  simp [setCount, setClass]

lemma parkOverflow_spec (env : Surroundings) (h : Inv bd a user hand) (hc : c < bd.sizes.depotClasses)
    (hfull : (a.tcache c).count = tcacheCap) :
    ∃ b ok, a.parkOverflow bd env c = some (b, ok) ∧ Parks bd a b c ok user hand := by
  unfold parkOverflow
  cases hd : a.depot with
  | none => exact ⟨a, false, rfl, .refl h.wf⟩
  | some d =>
      dsimp only
      have hw := h.wf d hd
      set r := (if a.depotBudget = 0 then (d.ovf, false)
        else d.ovf.park bd.sizes env.page c (d.ovf.len c) (a.tcache c).slots a.depotBudget
          (env.reserve a.core.time) (env.commit a.core.time)) with hr
      have hpark : (r.2 = true ∧ r.1.Wf bd.sizes ∧ r.1.ring =
          Function.update d.ovf.ring c (d.ovf.ring c ++ [(a.tcache c).slots])) ∨
          r.2 = false ∧ DepotOverflow.Keeps bd.sizes d.ovf r.1 := by
        rw [hr]
        split_ifs
        · exact .inr ⟨rfl, .refl hw⟩
        · obtain ⟨o, he, hw', hring⟩ | ⟨o, he, hk⟩ := hw.park env.page_pos hc (a.tcache c).slots
            a.depotBudget (env.reserve a.core.time) (env.commit a.core.time)
          · rw [he]
            exact .inl ⟨rfl, hw', hring⟩
          · rw [he]
            exact .inr ⟨rfl, hk⟩
      obtain ⟨hok, hw', hring⟩ | ⟨hok, hk⟩ := hpark
      · -- The row is in the ring and the magazine is empty before the tick.
        rw [if_neg (by simp [hok])]
        set full := r.1.cap c ≤ d.ovf.len c + 1
        set o := (if full then r.1.starve c else r.1) with ho
        have hxo : DepotOverflow.Keeps bd.sizes r.1 o := by
          rw [ho]
          split_ifs
          · exact hw'.starve c
          · exact .refl hw'
        set x := (a.setOvf d o).setClass c
          { a.tcache c with
            ovf := 1
            limit := if full then (a.tcache c).parked else (a.tcache c).limit
            count := 0
            virginMask := 0 } with hx
        have hxd : x.depot = some { d with ovf := o } := rfl
        have hxi : Inv bd x user hand := by
          refine h.parkRing hd hfull hxo.wf (hxo.ring.trans hring) hxd ?_ ?_ ?_ ?_
          · rfl
          · intro e he
            simp [hx, setClass, setOvf, he]
          · simp [hx, setClass]
          · simp [hx, setClass]
        set y := (if d.ovf.len c = 0 then
          (bits (o.arm bd.sizes).2).foldl (fun h c =>
            h.setClass c { h.tcache c with marks := (h.tcache c).marks ||| markTick })
            (x.setOvf d (o.arm bd.sizes).1) else x) with hy
        have hq : Quiet bd x y := by
          rw [hy]
          by_cases h0 : d.ovf.len c = 0
          · rw [if_pos h0]
            have h1 := quiet_setOvf hxd hxo.wf.arm
            exact h1.trans (quiet_foldl (f := fun h c =>
              h.setClass c { h.tcache c with marks := (h.tcache c).marks ||| markTick })
              (fun _ hw _ => quiet_setClass hw rfl rfl rfl) _ h1.wf)
          · rw [if_neg h0]
            exact .refl hxi.wf
        obtain ⟨b, hb, hbt⟩ := depotTick_spec env (hxi.quiet hq)
        refine ⟨b, true, ?_, ?_⟩
        · rw [hb]
          rfl
        · rw [Parks, if_pos rfl, setCount_self]
          · exact hbt.1
          · rw [(hbt.2 c).1, (hq.mags c).1]
            simp [hx, setClass]
      · rw [if_pos hok]
        have h1 := quiet_setOvf hd (hk.trans (hk.wf.starve c))
        exact ⟨_, false, rfl, h1.trans (quiet_setClass h1.wf rfl rfl rfl)⟩

lemma depotPark_spec (env : Surroundings) (h : Inv bd a user hand) :
    ∃ b ok, a.depotPark bd env c = some (b, ok) ∧ Parks bd a b c ok user hand := by
  unfold depotPark
  split_ifs with hcls
  · exact ⟨a, false, rfl, .refl h.wf⟩
  · cases hd : a.depot with
    | none => exact ⟨a, false, rfl, .refl h.wf⟩
    | some d =>
        dsimp only
        split_ifs with hfull
        · exact ⟨a, false, rfl, .refl h.wf⟩
        · have hfull := not_not.mp hfull
          cases hp : d.park c (a.tcache c).parked (a.tcache c).slots with
          | none => exact parkOverflow_spec env h (by omega) hfull
          | some r =>
              refine ⟨_, true, rfl, ?_⟩
              rw [Parks, if_pos rfl]
              refine h.parkFloor hd hfull hp ?_ ?_ ?_ ?_ ?_
              · rfl
              · rfl
              · intro e he
                simp [setCount, setClass, he]
              · simp [setCount, setClass]
              · simp [setCount, setClass]

end HeapCore

end Small

end SeferAlloc
