import SeferAlloc.EpochRegionSteps

/-!
# Runs of the epoch region

The stages, the rights and what the calls know are kept along every schedule.
From them: a handle is removed once, a read answers with the value of its
handle, and every index has one place.
-/
namespace SeferAlloc
namespace Epoch
open Interleaving

variable {ι V : Type*} [DecidableEq ι]

/-! ## The invariant of a run -/

/-- What every state of a run has. -/
structure Inv (w : World ι (Region V) (Thread V)) : Prop where
  stages : ∃ stage, Agrees w.shared w.loc stage
  mutex : Owned mutexHold mutexView w
  winner : Owned winnerHold winnerView w
  knows : ∀ j, Knows w.shared (w.loc j).frame
  scratch : w.shared.locked = false → w.shared.drainScratch = []
  returned : Returned w.shared

variable {w : World ι (Region V) (Thread V)} {j : ι}

omit [DecidableEq ι] in
/-- A call that has the writer mutex finds it locked. -/
lemma Inv.locked (hi : Inv w) (hl : (w.loc j).frame.locks = true) : w.shared.locked = true := by
  have hv := hi.mutex.mode j () () (mutexHold_isSome.mpr hl)
  by_contra hne
  simp [mutexView, hne] at hv

omit [DecidableEq ι] in
/-- At most one call has the writer mutex. -/
lemma Inv.lock_unique (hi : Inv w) {i : ι} (h₁ : (w.loc i).frame.locks = true)
    (h₂ : (w.loc j).frame.locks = true) : i = j :=
  hi.mutex.unique i j () () () (mutexHold_isSome.mpr h₁) (mutexHold_isSome.mpr h₂)

omit [DecidableEq ι] in
lemma winnerHold_eq {t : Thread V} {h : EpochHandle} :
    winnerHold t = some (h, ()) ↔ t.frame.winner = some h := by
  simp [winnerHold]

omit [DecidableEq ι] in
/-- The handle of a removal that won, and did not answer yet. -/
lemma Inv.won (hi : Inv w) {h : EpochHandle} (hw : (w.loc j).frame.winner = some h) :
    winnerView w.shared h = some () :=
  hi.winner.mode j h () (winnerHold_eq.mpr hw)

omit [DecidableEq ι] in
/-- What an action keeps, from the invariant. -/
lemma Inv.steps [DecidableEq ι] (hi : Inv w) (j : ι) (c : Command V) :
    ∃ stage, Agrees w.shared w.loc stage ∧
      Steps w.shared (act c w.shared (w.loc j)).1 w.loc stage j (act c w.shared (w.loc j)).2 := by
  obtain ⟨stage, ha⟩ := hi.stages
  exact ⟨stage, ha, act_steps c ha hi.scratch hi.returned hi.locked (fun _ => hi.won) (hi.knows j)⟩

/-- One action keeps the invariant. -/
lemma Inv.step (hi : Inv w) (j : ι) (c : Command V) : Inv (w.step act j c) := by
  obtain ⟨stage, ha, hs⟩ := hi.steps j c
  have hknows : ∀ k, Knows (w.step act j c).shared ((w.step act j c).loc k).frame := by
    refine World.step_forall (A := fun (r : Region V) (t : Thread V) => Knows r t.frame) hi.knows
      hs.knows fun k hk hk' => ?_
    refine hk'.stable hs.leaves (fun i m hh => ?_) fun hl => ?_
    · exact hs.leaves.slots i k m ((ha.held k i m).mp hh) hk
    · rw [Bool.eq_false_iff]
      exact fun hj => hk (hi.lock_unique hl hj)
  exact ⟨hs.agrees, hi.mutex.step hs.mutex, hi.winner.step hs.winner, hknows, hs.scratch,
    hs.returned⟩

omit [DecidableEq ι] in
/-- The slots of a region as it is made. -/
lemma agrees_new {n : ℕ} (hn : n < 2 ^ 32) (id : ℕ) :
    Agrees (⟨id, n, fun _ => ⟨0, none⟩, false, (List.range n).reverse, [], false, [], false, 0, [],
      []⟩ : Region V) (fun _ : ι => Thread.new) fun i => if i < n then .free else .retired := by
  constructor
  · intro i hi
    by_contra hge
    exact hi (if_neg hge)
  · intro i
    simp
  · intro i
    refine iff_of_false (List.not_mem_nil) ?_
    split_ifs <;> simp
  · intro i
    refine iff_of_false (List.not_mem_nil) ?_
    split_ifs <;> simp
  · exact List.nodup_reverse.mpr List.nodup_range
  · exact List.nodup_nil
  · exact List.nodup_nil
  · intro i hi
    rw [if_pos hi]
    have hpos : 0 < maxGeneration := by decide
    exact ⟨rfl, hpos⟩
  · intro k i m
    refine iff_of_false (by simp [Thread.new, Frame.holding]) ?_
    split_ifs <;> simp
  · symm
    rw [Finset.card_eq_zero, Finset.filter_eq_empty_iff]
    intro i hi
    rw [if_pos (Finset.mem_range.mp hi)]
    simp [Stage.counted]
  · exact hn
  · simp
  · intro i hi
    split_ifs at hi
  · exact List.nodup_nil

omit [DecidableEq ι] in
/-- Nobody holds anything in a region as it is made. -/
lemma Inv.start {n id : ℕ} {r : Region V} (hr : withCapacity V id n = some r) :
    Inv (start ι r) := by
  unfold withCapacity at hr
  split_ifs at hr with hn
  obtain rfl := Option.some.inj hr
  refine ⟨⟨_, agrees_new hn id⟩, ?_, ?_, fun _ => trivial, fun _ => rfl, List.nodup_nil,
    fun h hm => absurd hm List.not_mem_nil⟩
  · refine ⟨fun i s h hs => ?_, fun i k s h h' hs => ?_, fun s h hs => ?_⟩
    · exact absurd hs (by simp [mutexHold, Epoch.start, Thread.new, Frame.locks])
    · exact absurd hs (by simp [mutexHold, Epoch.start, Thread.new, Frame.locks])
    · exact absurd hs (by simp [mutexView, Epoch.start])
  · refine ⟨fun i s h hs => ?_, fun i k s h h' hs => ?_, fun s h hs => ?_⟩
    · exact absurd hs (by simp [winnerHold, Epoch.start, Thread.new, Frame.winner])
    · exact absurd hs (by simp [winnerHold, Epoch.start, Thread.new, Frame.winner])
    · exact absurd (winnerView_eq_some.mp hs).1 List.not_mem_nil

/-- Every state of a run. -/
theorem run_inv {n id : ℕ} {r : Region V} (hr : withCapacity V id n = some r)
    (xs : List (ι × Command V)) : Inv (World.run act xs (Epoch.start ι r)) :=
  World.run_invariant (I := Inv) (fun _ j c hi => hi.step j c) xs (.start hr)

/-! ## The handle map -/

/-- The value of the handle is in its slot. -/
def Region.Stands (r : Region V) (h : EpochHandle) (v : V) : Prop :=
  r.slots h.index = ⟨h.generation, some v⟩

/-- The handle of a read. -/
def Frame.reads : Frame V → Option EpochHandle
  | .firstGeneration h | .loadValue h | .secondGeneration h _ => some h
  | _ => none

/-- The index in the hands of the removal that won it. -/
def Frame.inHand (f : Frame V) : Option ℕ :=
  match f.holding with
  | some (i, .won) | some (i, .taken) | some (i, .spare) => some i
  | _ => none

/-- Where an index is. -/
inductive Place where
  | occupied
  | free
  | scratch
  | queue
  | inHand
  | retired

/-- The index is at the place. -/
def At (w : World ι (Region V) (Thread V)) (i : ℕ) : Place → Prop
  | .occupied => (w.shared.slots i).value.isSome = true ∧ ∀ j, (w.loc j).frame.inHand ≠ some i
  | .free => i ∈ w.shared.free
  | .scratch => i ∈ w.shared.drainScratch
  | .queue => i ∈ w.shared.remoteFree
  | .inHand => ∃! j, (w.loc j).frame.inHand = some i
  | .retired => (w.shared.slots i).generation = maxGeneration ∧
      (w.shared.slots i).value = none ∧ ∀ j, (w.loc j).frame.inHand ≠ some i

/-- The region is a map from handles to values, each removed once, and each index has one place. -/
structure HandleMap (w : World ι (Region V) (Thread V)) : Prop where
  /-- No index and generation are given out twice. -/
  minted : w.shared.handles.Nodup ∧ ∀ h ∈ w.shared.handles, h.regionId = w.shared.regionId ∧
    h.index < w.shared.capacity ∧ h.generation < maxGeneration
  /-- A handle stands, or one call is about to answer its removal, or one call did. -/
  fate : ∀ p ∈ w.shared.inserted,
    (w.shared.Stands p.1 p.2 ∧ p.1 ∉ w.shared.removed ∧
      ∀ j, (w.loc j).frame.winner ≠ some p.1) ∨
    ((∀ v, ¬ w.shared.Stands p.1 v) ∧ p.1 ∉ w.shared.removed ∧
      ∃! j, (w.loc j).frame.winner = some p.1) ∨
    ((∀ v, ¬ w.shared.Stands p.1 v) ∧ p.1 ∈ w.shared.removed ∧
      ∀ j, (w.loc j).frame.winner ≠ some p.1)
  removals : w.shared.removed.Nodup ∧ ∀ h ∈ w.shared.removed, h ∈ w.shared.handles
  /-- A read answers with the value inserted for its handle, and only while the handle stands. -/
  found : ∀ j h v, (w.loc j).frame.reads = some h →
    (advance w.shared (w.loc j)).2 = (w.loc j).return (.read (some v)) →
    (h, v) ∈ w.shared.inserted ∧ w.shared.Stands h v ∧ h ∉ w.shared.removed
  missed : ∀ j h, (w.loc j).frame.reads = some h →
    (advance w.shared (w.loc j)).2 = (w.loc j).return (.read none) → ∀ v, ¬ w.shared.Stands h v
  /-- Reads and refused removals change nothing, and a removal is refused iff its handle does not
  stand. -/
  reads : ∀ j h, (w.loc j).frame.reads = some h → (advance w.shared (w.loc j)).1 = w.shared
  refused : ∀ j h remote, (w.loc j).frame = .evict h remote → (∀ v, ¬ w.shared.Stands h v) →
    advance w.shared (w.loc j) = (w.shared, (w.loc j).return (.removed false))
  wins : ∀ j h remote v, (w.loc j).frame = .evict h remote → w.shared.Stands h v →
    (advance w.shared (w.loc j)).2 = (w.loc j).goto (.swapValue h remote)
  taken : ∀ j h remote, (w.loc j).frame = .swapValue h remote →
    (advance w.shared (w.loc j)).2 = (w.loc j).goto (.uncount h remote)
  foreign : ∀ j h, (w.loc j).frame = .idle → h.regionId ≠ w.shared.regionId →
    act (.getWith h) w.shared (w.loc j) = (w.shared, (w.loc j).return (.read none)) ∧
    act (.remove h) w.shared (w.loc j) = (w.shared, (w.loc j).return (.removed false)) ∧
    act (.remoteEvict h) w.shared (w.loc j) = (w.shared, (w.loc j).return (.removed false))
  /-- Every index has one place, and is there once. -/
  places : ∀ i < w.shared.capacity, ∃! p, At w i p
  lists : w.shared.free.Nodup ∧ w.shared.drainScratch.Nodup ∧ w.shared.remoteFree.Nodup ∧
    ∀ i, i ∈ w.shared.free ∨ i ∈ w.shared.drainScratch ∨ i ∈ w.shared.remoteFree →
      i < w.shared.capacity
  len : (∀ j, (w.loc j).frame = .idle) → w.shared.len =
    ((Finset.range w.shared.capacity).filter fun i => (w.shared.slots i).value.isSome = true).card
  uncounts : ∀ j h remote, (w.loc j).frame = .uncount h remote → 0 < w.shared.len

section Facts
variable {stage : ℕ → Stage ι} {r : Region V} {loc : ι → Thread V}

omit [DecidableEq ι]

lemma Region.Stands.generation {h : EpochHandle} {v : V} (hs : r.Stands h v) :
    (r.slots h.index).generation = h.generation := by rw [hs]

/-- A handle that was given out stands, or its slot is beyond it. -/
lemma Agrees.stands (ha : Agrees r loc stage) {p : EpochHandle × V} (hp : p ∈ r.inserted) :
    r.Stands p.1 p.2 ∨ p.1.generation < (r.slots p.1.index).generation := by
  obtain ⟨-, -, hlt | ⟨hg, -, hv⟩⟩ := ha.known p hp
  · exact .inr hlt
  · left
    cases hs : r.slots p.1.index with
    | mk g v =>
      rw [hs] at hg hv
      rw [Region.Stands, hs, hg, ← hv]

/-- The handle whose generation is the one of its slot stands. -/
lemma Agrees.stands_of_eq (ha : Agrees r loc stage) {p : EpochHandle × V} (hp : p ∈ r.inserted)
    (hg : (r.slots p.1.index).generation = p.1.generation) : r.Stands p.1 p.2 :=
  (ha.stands hp).resolve_right fun hlt => hlt.ne' hg

/-- A handle that does not stand has its slot beyond it. -/
lemma Agrees.beyond (ha : Agrees r loc stage) {h : EpochHandle} (hh : h ∈ r.handles)
    (hs : ∀ v, ¬ r.Stands h v) : h.generation < (r.slots h.index).generation := by
  obtain ⟨p, hp, rfl⟩ := List.mem_map.mp hh
  exact (ha.stands hp).resolve_left (hs _)

lemma not_stands {h : EpochHandle} (hlt : h.generation < (r.slots h.index).generation) (v : V) :
    ¬ r.Stands h v := fun hs => hlt.ne' hs.generation

/-- The generation of a handle is never the last one. -/
lemma Agrees.generation_lt (ha : Agrees r loc stage) {h : EpochHandle} (hh : h ∈ r.handles) :
    h.generation < maxGeneration := by
  obtain ⟨p, hp, rfl⟩ := List.mem_map.mp hh
  obtain ⟨-, hidx, hlt | ⟨hg, hlive, -⟩⟩ := ha.known p hp
  · refine hlt.trans_le ?_
    have hfits := (ha.fits _ hidx).2
    split at hfits
    · exact hfits
    · exact hfits
    · exact hfits.le
    · exact hfits.le
  · have hfits := ha.fits _ hidx
    rw [hlive] at hfits
    exact hg ▸ hfits.2

/-- The place of a stage. -/
def Stage.place : Stage ι → Place
  | .free => .free
  | .scratch => .scratch
  | .queued => .queue
  | .live | .held _ .storing | .held _ .counted => .occupied
  | .held _ .won | .held _ .taken | .held _ .spare => .inHand
  | .retired => .retired

/-- The removals that have a slot in their hands. -/
lemma Agrees.inHand (ha : Agrees r loc stage) (j : ι) (i : ℕ) :
    (loc j).frame.inHand = some i ↔
      stage i = .held j .won ∨ stage i = .held j .taken ∨ stage i = .held j .spare := by
  simp only [← ha.held, Frame.inHand]
  cases hh : (loc j).frame.holding with
  | none => simp
  | some x =>
    obtain ⟨k, m⟩ := x
    cases m <;> simp

/-- An index is where its stage says. -/
lemma Agrees.at_iff {w : World ι (Region V) (Thread V)} (ha : Agrees w.shared w.loc stage) {i : ℕ}
    (hi : i < w.shared.capacity) (p : Place) : At w i p ↔ p = (stage i).place := by
  have hfits := ha.fits i hi
  have hin := fun j => ha.inHand j i
  have hnone : (∀ j, ¬ (stage i = .held j .won ∨ stage i = .held j .taken ∨
      stage i = .held j .spare)) → ∀ j, (w.loc j).frame.inHand ≠ some i := fun h j he =>
    h j ((hin j).mp he)
  cases p with
  | free =>
    refine (ha.free i).trans ?_
    cases hst : stage i with
    | held k m => cases m <;> simp [Stage.place]
    | _ => simp [Stage.place]
  | scratch =>
    refine (ha.scratch i).trans ?_
    cases hst : stage i with
    | held k m => cases m <;> simp [Stage.place]
    | _ => simp [Stage.place]
  | queue =>
    refine (ha.queued i).trans ?_
    cases hst : stage i with
    | held k m => cases m <;> simp [Stage.place]
    | _ => simp [Stage.place]
  | occupied =>
    simp only [At, hfits.1, ne_eq, hin]
    cases hst : stage i with
    | held k m => cases m <;> simp [Stage.place, Stage.full]
    | _ => simp [Stage.place, Stage.full]
  | inHand =>
    simp only [At, hin]
    cases hst : stage i with
    | held k m => cases m <;> simp [Stage.place]
    | _ => simp [Stage.place]
  | retired =>
    simp only [At, ne_eq, hin]
    rw [← Option.isNone_iff_eq_none, ← Option.not_isSome, Bool.not_eq_true', hfits.1]
    have hgen := hfits.2
    cases hst : stage i with
    | held k m => cases m <;> simp [Stage.place, Stage.full]
    | retired =>
      rw [hst] at hgen
      simp [Stage.place, Stage.full, hgen]
    | _ =>
      rw [hst] at hgen
      simp [Stage.place, Stage.full, hgen.ne]

end Facts

section Map
variable {h : EpochHandle} {v : V}

omit [DecidableEq ι]

/-- A read changes nothing. -/
lemma reads_fst (r : Region V) (t : Thread V) (hf : t.frame.reads = some h) :
    (advance r t).1 = r := by
  cases hfr : t.frame with
  | firstGeneration | loadValue | secondGeneration => simp only [advance, hfr]
  | _ => simp [hfr, Frame.reads] at hf

/-- A read that answers with a value saw the generation of its handle last. -/
lemma Inv.found (hi : Inv w) (hf : (w.loc j).frame.reads = some h)
    (ha : (advance w.shared (w.loc j)).2 = (w.loc j).return (.read (some v))) :
    (h, v) ∈ w.shared.inserted ∧ w.shared.Stands h v ∧ h ∉ w.shared.removed := by
  obtain ⟨stage, hagrees⟩ := hi.stages
  have hk := hi.knows j
  cases hfr : (w.loc j).frame with
  | firstGeneration =>
    simp only [advance, hfr] at ha
    split_ifs at ha <;> simp [Thread.goto, Thread.return] at ha
  | loadValue =>
    simp only [advance, hfr] at ha
    split at ha <;> simp [Thread.goto, Thread.return] at ha
  | secondGeneration h' v' =>
    obtain rfl : h' = h := by simpa [hfr, Frame.reads] using hf
    simp only [advance, hfr] at ha
    split_ifs at ha with hg
    · obtain rfl : v' = v := by simpa [Thread.return] using ha
      rw [hfr] at hk
      have hmem := hk.2.resolve_left fun hlt => hlt.ne' hg
      exact ⟨hmem, hagrees.stands_of_eq hmem hg, fun hr => (hi.returned.past _ hr).2.ne' hg⟩
    · simp [Thread.return] at ha
  | _ => simp [hfr, Frame.reads] at hf

/-- A read misses only where its handle does not stand. -/
lemma missed (hf : (w.loc j).frame.reads = some h)
    (ha : (advance w.shared (w.loc j)).2 = (w.loc j).return (.read none)) (v : V) :
    ¬ w.shared.Stands h v := by
  intro hs
  have hslot : w.shared.slots h.index = ⟨h.generation, some v⟩ := hs
  cases hfr : (w.loc j).frame with
  | firstGeneration h' =>
    obtain rfl : h' = h := by simpa [hfr, Frame.reads] using hf
    simp [advance, hfr, hslot, Thread.goto, Thread.return] at ha
  | loadValue h' =>
    obtain rfl : h' = h := by simpa [hfr, Frame.reads] using hf
    simp [advance, hfr, hslot, Thread.goto, Thread.return] at ha
  | secondGeneration h' v' =>
    obtain rfl : h' = h := by simpa [hfr, Frame.reads] using hf
    simp [advance, hfr, hslot, Thread.return] at ha
  | _ => simp [hfr, Frame.reads] at hf

/-- A handle stands, or its removal is under way in one call, or it is over. -/
lemma Inv.fate (hi : Inv w) {p : EpochHandle × V} (hp : p ∈ w.shared.inserted) :
    (w.shared.Stands p.1 p.2 ∧ p.1 ∉ w.shared.removed ∧
      ∀ j, (w.loc j).frame.winner ≠ some p.1) ∨
    ((∀ v, ¬ w.shared.Stands p.1 v) ∧ p.1 ∉ w.shared.removed ∧
      ∃! j, (w.loc j).frame.winner = some p.1) ∨
    ((∀ v, ¬ w.shared.Stands p.1 v) ∧ p.1 ∈ w.shared.removed ∧
      ∀ j, (w.loc j).frame.winner ≠ some p.1) := by
  obtain ⟨stage, ha⟩ := hi.stages
  have hwon := fun j (hj : (w.loc j).frame.winner = some p.1) => winnerView_eq_some.mp (hi.won hj)
  obtain hs | hlt := ha.stands hp
  · left
    have hg := hs.generation
    exact ⟨hs, fun hr => (hi.returned.past _ hr).2.ne' hg, fun j hj => (hwon j hj).2.1.ne' hg⟩
  · right
    by_cases hr : p.1 ∈ w.shared.removed
    · exact .inr ⟨not_stands hlt, hr, fun j hj => (hwon j hj).2.2 hr⟩
    · left
      have hview : winnerView w.shared p.1 = some () :=
        winnerView_eq_some.mpr ⟨List.mem_map_of_mem hp, hlt, hr⟩
      obtain ⟨j, hj⟩ := hi.winner.owner _ _ hview
      refine ⟨not_stands hlt, hr, j, winnerHold_eq.mp hj, fun k hk => ?_⟩
      exact hi.winner.unique k j _ _ _ (winnerHold_eq.mpr hk) hj

/-- A removal wins where its handle stands. -/
lemma Inv.wins (hi : Inv w) {remote : Bool} (hf : (w.loc j).frame = .evict h remote)
    (hs : w.shared.Stands h v) :
    (advance w.shared (w.loc j)).2 = (w.loc j).goto (.swapValue h remote) := by
  obtain ⟨stage, ha⟩ := hi.stages
  have hk := hi.knows j
  rw [hf] at hk
  have hlt := ha.generation_lt hk
  simp only [advance, hf]
  rw [if_pos ⟨hlt.ne, hs.generation⟩]

/-- A removal is refused where its handle does not stand. -/
lemma Inv.refused (hi : Inv w) {remote : Bool} (hf : (w.loc j).frame = .evict h remote)
    (hs : ∀ v, ¬ w.shared.Stands h v) :
    advance w.shared (w.loc j) = (w.shared, (w.loc j).return (.removed false)) := by
  obtain ⟨stage, ha⟩ := hi.stages
  have hk := hi.knows j
  rw [hf] at hk
  have hlt := ha.beyond hk hs
  simp only [advance, hf]
  rw [if_neg fun he => hlt.ne' he.2]

/-- A removal that won finds the value. -/
lemma Inv.taken (hi : Inv w) {remote : Bool} (hf : (w.loc j).frame = .swapValue h remote) :
    (advance w.shared (w.loc j)).2 = (w.loc j).goto (.uncount h remote) := by
  obtain ⟨stage, ha⟩ := hi.stages
  have hst : stage h.index = .held j .won :=
    (ha.held j h.index .won).mp (by rw [hf]; rfl)
  have hfull : (w.shared.slots h.index).value.isSome = true := (ha.fits_at hst (by simp)).2.1
  simp only [advance, hf]
  rw [if_pos hfull]

/-- Where no call is under way, the values are counted. -/
lemma Inv.len (hi : Inv w) (hidle : ∀ j, (w.loc j).frame = .idle) : w.shared.len =
    ((Finset.range w.shared.capacity).filter fun i =>
      (w.shared.slots i).value.isSome = true).card := by
  obtain ⟨stage, ha⟩ := hi.stages
  rw [ha.len]
  refine congrArg Finset.card (Finset.filter_congr fun i hir => ?_)
  rw [(ha.fits i (Finset.mem_range.mp hir)).1]
  cases hst : stage i with
  | held k m =>
    have hh := (ha.held k i m).mpr hst
    rw [hidle k] at hh
    simp [Frame.holding] at hh
  | _ => simp [Stage.counted, Stage.full]

/-- The counter is positive where it goes down. -/
lemma Inv.uncounts (hi : Inv w) {remote : Bool} (hf : (w.loc j).frame = .uncount h remote) :
    0 < w.shared.len := by
  obtain ⟨stage, ha⟩ := hi.stages
  have hst : stage h.index = .held j .taken := (ha.held j h.index .taken).mp (by rw [hf]; rfl)
  exact ha.len_pos (ha.fits_at hst (by simp)).1 (by rw [hst]; rfl)

/-- A handle of another region is refused at once. -/
lemma act_foreign (hf : (w.loc j).frame = .idle) (hid : h.regionId ≠ w.shared.regionId) :
    act (.getWith h) w.shared (w.loc j) = (w.shared, (w.loc j).return (.read none)) ∧
    act (.remove h) w.shared (w.loc j) = (w.shared, (w.loc j).return (.removed false)) ∧
    act (.remoteEvict h) w.shared (w.loc j) = (w.shared, (w.loc j).return (.removed false)) := by
  have hkn : w.shared.known h = true := decide_eq_true (.inl hid)
  have hbegin : ∀ f a, begin w.shared h f a (w.loc j) = (w.loc j).return a := fun f a =>
    if_neg fun he => hid he.1
  simp only [act, hf, hkn, if_true, hbegin, and_self]

theorem Inv.handleMap (hi : Inv w) : HandleMap w := by
  obtain ⟨stage, ha⟩ := hi.stages
  constructor
  · refine ⟨ha.distinct, fun h hh => ?_⟩
    obtain ⟨p, hp, rfl⟩ := List.mem_map.mp hh
    obtain ⟨hid, hidx, -⟩ := ha.known p hp
    exact ⟨hid, hidx, ha.generation_lt hh⟩
  · exact fun p hp => hi.fate hp
  · exact ⟨hi.returned.nodup, fun h hh => (hi.returned.past h hh).1⟩
  · exact fun j h v => hi.found
  · exact fun j h => missed
  · exact fun j h => reads_fst _ _
  · exact fun j h remote => hi.refused
  · exact fun j h remote v => hi.wins
  · exact fun j h remote => hi.taken
  · exact fun j h => act_foreign
  · intro i hir
    refine ⟨(stage i).place, (ha.at_iff hir _).mpr rfl, fun p hp => (ha.at_iff hir p).mp hp⟩
  · refine ⟨ha.freeNodup, ha.scratchNodup, ha.queueNodup, fun i hm => ha.bound i ?_⟩
    rw [ha.free, ha.scratch, ha.queued] at hm
    intro he
    simp [he] at hm
  · exact hi.len
  · exact fun j h remote => hi.uncounts

end Map

/-! ## What a failed insert saw -/

/-- The value of an insert that looked at the queue, and what it saw. -/
def Frame.saw : Frame V → Option (V × List ℕ)
  | .drainNext (.insert v _) seen => some (v, seen)
  | .pop v (some seen) => some (v, seen)
  | _ => none

/-- What follows a drain that looked at the queue has what the drain saw. -/
lemma afterDrain_saw {r : Region V} {checked : Option (List ℕ)} {k : After V} {x : V × List ℕ}
    (hs : (afterDrain r checked k).saw = some x) :
    checked = some x.2 ∧ ∃ forced, k = .insert x.1 forced := by
  have hpop : ∀ v, (Frame.pop v checked).saw = some x → checked = some x.2 ∧ v = x.1 := by
    intro v hv
    cases checked with
    | none => simp [Frame.saw] at hv
    | some seen =>
      simp only [Frame.saw, Option.some.injEq] at hv
      subst hv
      exact ⟨rfl, rfl⟩
  cases k with
  | remove h => simp [afterDrain, Frame.saw] at hs
  | insert v forced =>
    cases forced with
    | true =>
      obtain ⟨h₁, rfl⟩ := hpop v hs
      exact ⟨h₁, true, rfl⟩
    | false =>
      simp only [afterDrain] at hs
      split_ifs at hs
      · simp [Frame.saw] at hs
      · obtain ⟨h₁, rfl⟩ := hpop v hs
        exact ⟨h₁, false, rfl⟩

/-- What an insert saw is what the free list and the queue held. -/
lemma advance_saw (r : Region V) (t : Thread V) {x : V × List ℕ}
    (hs : (advance r t).2.frame.saw = some x) : t.frame.saw = some x ∨
      ∃ forced, t.frame = .swapQueue (.insert x.1 forced) ∧ x.2 = r.free ++ r.remoteFree := by
  cases hf : t.frame with
  | swapQueue k =>
    right
    simp only [advance, hf] at hs
    split_ifs at hs
    · obtain ⟨h₁, forced, rfl⟩ := afterDrain_saw hs
      exact ⟨forced, rfl, (Option.some.inj h₁).symm⟩
    · cases k with
      | remove h => simp [Thread.goto, Frame.saw] at hs
      | insert v forced =>
        simp only [Thread.goto, Frame.saw, Option.some.injEq] at hs
        subst hs
        exact ⟨forced, rfl, rfl⟩
  | drainNext k seen =>
    left
    simp only [advance, hf] at hs
    split at hs
    · obtain ⟨h₁, forced, rfl⟩ := afterDrain_saw hs
      rw [Frame.saw, Option.some.inj h₁]
    · split_ifs at hs
      · rwa [hf] at hs
      · rwa [hf] at hs
  | hint k =>
    simp only [advance, hf] at hs
    split_ifs at hs
    · simp [Thread.goto, Frame.saw] at hs
    · exact absurd (afterDrain_saw hs).1 (by simp)
  | _ =>
    left
    revert hs
    simp only [advance, hf, returnRemoved]
    repeat' split
    all_goals simp [Thread.goto, Thread.return, hf, Frame.saw]

/-- An action of a thread brings it nothing to have seen. -/
lemma act_saw (c : Command V) (r : Region V) (t : Thread V) {x : V × List ℕ}
    (hs : (act c r t).2.frame.saw = some x) : t.frame.saw = some x ∨
      ∃ forced, t.frame = .swapQueue (.insert x.1 forced) ∧ x.2 = r.free ++ r.remoteFree := by
  cases c with
  | go => exact advance_saw r t hs
  | _ =>
    left
    revert hs
    cases hf : t.frame with
    | idle =>
      simp only [act, hf, begin]
      repeat' split
      all_goals simp [Thread.goto, Thread.return, hf, Frame.saw]
    | _ =>
      simp only [act, hf]
      exact id

/-- What an insert saw, the free list and the queue held at its last look at the queue. -/
lemma run_saw (w : World ι (Region V) (Thread V)) (hw : ∀ j, (w.loc j).frame.saw = none)
    (xs : List (ι × Command V)) (j : ι) {x : V × List ℕ}
    (hs : ((World.run act xs w).loc j).frame.saw = some x) : ∃ ys zs forced, xs = ys ++ zs ∧
      ((World.run act ys w).loc j).frame = .swapQueue (.insert x.1 forced) ∧
      x.2 = (World.run act ys w).shared.free ++ (World.run act ys w).shared.remoteFree ∧
      ∀ us, us <+: zs → ((World.run act (ys ++ us) w).loc j).frame ≠ .idle := by
  induction xs using List.reverseRecOn with
  | nil => exact absurd ((hw j).symm.trans hs) (by simp)
  | append_singleton xs a ih =>
    have hnot : ((World.run act (xs ++ [a]) w).loc j).frame ≠ .idle := fun he => by
      simp [he, Frame.saw] at hs
    have hrun : World.run act (xs ++ [a]) w = (World.run act xs w).step act a.1 a.2 :=
      World.run_append ..
    have before : ((World.run act xs w).loc j).frame.saw = some x →
        ∃ ys zs forced, xs ++ [a] = ys ++ zs ∧
          ((World.run act ys w).loc j).frame = .swapQueue (.insert x.1 forced) ∧
          x.2 = (World.run act ys w).shared.free ++ (World.run act ys w).shared.remoteFree ∧
          ∀ us, us <+: zs → ((World.run act (ys ++ us) w).loc j).frame ≠ .idle := by
      intro hb
      obtain ⟨ys, zs, forced, rfl, hf, hx, hus⟩ := ih hb
      refine ⟨ys, zs ++ [a], forced, List.append_assoc .., hf, hx, fun us hpre => ?_⟩
      obtain rfl | hpre := List.prefix_concat_iff.mp hpre
      · rwa [← List.append_assoc]
      · exact hus us hpre
    by_cases hj : j = a.1
    · rw [hrun, hj, World.step_loc_self] at hs
      obtain hb | ⟨forced, hf, hx⟩ := act_saw _ _ _ hs
      · exact before (hj ▸ hb)
      · -- The look is this action.
        refine ⟨xs, [a], forced, rfl, hj ▸ hf, hx, fun us hpre => ?_⟩
        have hpre' : us <+: [] ++ [a] := hpre
        obtain rfl | hpre := List.prefix_concat_iff.mp hpre'
        · exact hnot
        · rw [List.prefix_nil.mp hpre, List.append_nil, hj, hf]
          simp
    · rw [hrun, World.step_loc_of_ne hj] at hs
      exact before hs

lemma afterDrain_ne_idle (r : Region V) (checked : Option (List ℕ)) (k : After V) :
    afterDrain r checked k ≠ .idle := by
  cases k with
  | remove h => simp [afterDrain]
  | insert v forced =>
    cases forced with
    | false =>
      rw [afterDrain]
      split_ifs <;> simp
    | true => simp [afterDrain]

/-- Only a pop from an empty free list fails an insert. -/
lemma advance_failed (r : Region V) (t : Thread V) {v : V} (hne : t.frame ≠ .idle)
    (h : (advance r t).2 = t.return (.inserted (.error v))) :
    ∃ seen, t.frame = .pop v seen ∧ r.free = [] := by
  have hidle : (advance r t).2.frame = .idle := congrArg Thread.frame h
  have hanswer : (advance r t).2.answer = some (.inserted (.error v)) := congrArg Thread.answer h
  cases hf : t.frame with
  | idle => exact absurd hf hne
  | pop u seen =>
    simp only [advance, hf] at hidle hanswer
    split at hanswer
    next hfree =>
      obtain rfl : u = v := by simpa [Thread.return] using hanswer
      exact ⟨seen, rfl, hfree⟩
    next hfree =>
      rw [hfree] at hidle
      simp [Thread.goto] at hidle
  | _ =>
    exfalso
    revert hidle hanswer
    simp only [advance, hf, returnRemoved]
    repeat' split
    all_goals simp [Thread.goto, Thread.return, hf, afterDrain_ne_idle]

/-- Over every capacity, any number of threads and every schedule of their calls the region is a
map of handles, and an insert answers that it failed only if neither the free list nor the queue had
an index at its last look at the queue. -/
theorem region_exact {n id : ℕ} {r : Region V} (hr : withCapacity V id n = some r)
    (xs : List (ι × Command V)) : HandleMap (World.run act xs (start ι r)) ∧
      ∀ j v, ((World.run act xs (start ι r)).loc j).frame ≠ .idle →
        (advance (World.run act xs (start ι r)).shared ((World.run act xs (start ι r)).loc j)).2 =
          ((World.run act xs (start ι r)).loc j).return (.inserted (.error v)) →
        ∃ ys zs forced, xs = ys ++ zs ∧
          ((World.run act ys (start ι r)).loc j).frame = .swapQueue (.insert v forced) ∧
          (World.run act ys (start ι r)).shared.free = [] ∧
          (World.run act ys (start ι r)).shared.remoteFree = [] ∧
          ∀ us, us <+: zs → ((World.run act (ys ++ us) (start ι r)).loc j).frame ≠ .idle := by
  have hi := run_inv (ι := ι) hr xs
  refine ⟨hi.handleMap, fun j v hne hanswer => ?_⟩
  obtain ⟨seen, hf, hfree⟩ := advance_failed _ _ hne hanswer
  have hk := hi.knows j
  rw [hf] at hk
  have hsaw : ((World.run act xs (start ι r)).loc j).frame.saw = some (v, []) := by
    rw [hf, hk.2 hfree]
    rfl
  obtain ⟨ys, zs, forced, hxs, hys, hx, hus⟩ := run_saw (start ι r) (fun _ => rfl) xs j hsaw
  obtain ⟨h₁, h₂⟩ := List.append_eq_nil_iff.mp hx.symm
  exact ⟨ys, zs, forced, hxs, hys, h₁, h₂, hus⟩

/-- Two threads race for one handle of a region with a single slot. -/
theorem region_exact_race : ∃ r, withCapacity ℕ 0 1 = some r ∧
    HandleMap (World.run act ([(true, .insert 7)] ++ List.replicate 8 (true, .go) ++
      [(true, .remove ⟨0, 0, 0⟩), (false, .remoteEvict ⟨0, 0, 0⟩), (false, .go), (true, .go)])
        (start Bool r)) :=
  ⟨_, rfl, (region_exact (show withCapacity ℕ 0 1 = some _ from rfl) _).1⟩

end Epoch

end SeferAlloc
