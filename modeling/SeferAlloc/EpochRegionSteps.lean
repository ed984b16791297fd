import SeferAlloc.EpochRegionStages

/-!
# The steps of the epoch region

What a call knows at each place, and what each of its actions keeps: the stages,
the writer mutex, the right to answer a removal with true, and what the other
calls know.
-/
namespace SeferAlloc
namespace Epoch
open Interleaving

variable {ι V : Type*}

/-! ## What a call knows -/

/-- The handle of a removal that won: its slot is at the next generation until its index is handed
back. -/
def EpochHandle.Won (r : Region V) (h : EpochHandle) : Prop :=
  h ∈ r.handles ∧ (h.reusable = true → (r.slots h.index).generation = h.generation + 1)

/-- What the call knows to which a drain returns. -/
def After.Knows (r : Region V) : After V → Prop
  | .insert _ _ => True
  | .remove h => h.Won r

/-- The first drain of an insert, and the one of a removal, look at the hint. -/
def After.hinted : After V → Bool
  | .insert _ forced => !forced
  | .remove _ => true

/-- What a call knows at each place. -/
def Knows (r : Region V) : Frame V → Prop
  | .idle | .lockInsert _ => True
  | .firstGeneration h | .loadValue h | .evict h _ | .setPending h => h ∈ r.handles
  | .secondGeneration h v => h ∈ r.handles ∧
      (h.generation < (r.slots h.index).generation ∨ (h, v) ∈ r.inserted)
  | .hint k => r.drainScratch = [] ∧ k.Knows r ∧ k.hinted = true
  | .lockQueue k | .clearHint k | .swapQueue k => r.drainScratch = [] ∧ k.Knows r
  | .drainNext k seen => (r.free ++ r.drainScratch = [] → seen = []) ∧ k.Knows r
  | .pop _ seen => r.drainScratch = [] ∧ (r.free = [] → seen = some [])
  | .loadGeneration i v => r.drainScratch = [] ∧ (r.slots i).value = some v
  | .count i g v => r.drainScratch = [] ∧ (r.slots i).value = some v ∧ (r.slots i).generation = g
  | .unlockInsert h v => r.drainScratch = [] ∧ (r.slots h.index).value = some v ∧
      (r.slots h.index).generation = h.generation ∧ h.regionId = r.regionId
  | .swapValue h _ | .uncount h _ =>
      h ∈ r.handles ∧ (r.slots h.index).generation = h.generation + 1
  | .lockRemove h => h.Won r
  | .enqueue h => h.reusable = true ∧ h.Won r
  | .giveBack h => r.drainScratch = [] ∧ h.Won r

/-- What thread `j` leaves to the others: handles stay, generations grow, the slots in their hands
stay, and so do the lists of the writer mutex if `j` does not have it. -/
structure Leaves (r r' : Region V) (stage : ℕ → Stage ι) (j : ι) (locks : Bool) : Prop where
  regionId : r'.regionId = r.regionId
  inserted : ∀ p ∈ r.inserted, p ∈ r'.inserted
  generation : ∀ i, (r.slots i).generation ≤ (r'.slots i).generation
  slots : ∀ i k m, stage i = .held k m → k ≠ j → r'.slots i = r.slots i
  lists : locks = false → r'.free = r.free ∧ r'.drainScratch = r.drainScratch

variable {r r' : Region V} {loc : ι → Thread V} {stage : ℕ → Stage ι} {j k : ι} {locks : Bool}

lemma Leaves.handles (h : Leaves r r' stage j locks) {e : EpochHandle} (he : e ∈ r.handles) :
    e ∈ r'.handles := by
  obtain ⟨p, hp, rfl⟩ := List.mem_map.mp he
  exact List.mem_map_of_mem (h.inserted p hp)

/-- What a call knows of its removal stays while its slot is in its hands. -/
lemma EpochHandle.Won.stable {e : EpochHandle} (he : e.Won r) (h : Leaves r r' stage j locks)
    (hs : e.reusable = true → r'.slots e.index = r.slots e.index) : e.Won r' :=
  ⟨h.handles he.1, fun hr => by rw [hs hr]; exact he.2 hr⟩

/-- What a call knows is not disturbed by the others. -/
lemma Knows.stable {f : Frame V} (hk : Knows r f) (h : Leaves r r' stage j locks)
    (hheld : ∀ i m, f.holding = some (i, m) → r'.slots i = r.slots i)
    (hlock : f.locks = true → locks = false) : Knows r' f := by
  have spare : ∀ e : EpochHandle, (∀ i m, e.spare = some (i, m) → r'.slots i = r.slots i) →
      e.reusable = true → r'.slots e.index = r.slots e.index := fun e he hr =>
    he e.index .spare (by rw [EpochHandle.spare, if_pos hr])
  have after : ∀ k : After V, (∀ i m, k.handle.bind EpochHandle.spare = some (i, m) →
      r'.slots i = r.slots i) → k.Knows r → k.Knows r' := by
    intro k hk hkn
    cases k with
    | insert => trivial
    | remove e => exact EpochHandle.Won.stable hkn h (spare e hk)
  cases f with
  | idle | lockInsert => trivial
  | firstGeneration | loadValue | evict | setPending => exact h.handles hk
  | secondGeneration e v =>
    exact ⟨h.handles hk.1, hk.2.imp (fun hg => hg.trans_le (h.generation _)) (h.inserted _)⟩
  | hint k => exact ⟨(h.lists (hlock rfl)).2.trans hk.1, after k hheld hk.2.1, hk.2.2⟩
  | lockQueue k | clearHint k | swapQueue k =>
    exact ⟨(h.lists (hlock rfl)).2.trans hk.1, after k hheld hk.2⟩
  | drainNext k seen =>
    obtain ⟨hf, hs⟩ := h.lists (hlock rfl)
    refine ⟨?_, after k hheld hk.2⟩
    rw [hf, hs]
    exact hk.1
  | pop v seen =>
    obtain ⟨hf, hs⟩ := h.lists (hlock rfl)
    refine ⟨hs.trans hk.1, ?_⟩
    rw [hf]
    exact hk.2
  | loadGeneration i v =>
    refine ⟨(h.lists (hlock rfl)).2.trans hk.1, ?_⟩
    rw [hheld i .storing rfl]
    exact hk.2
  | count i g v =>
    refine ⟨(h.lists (hlock rfl)).2.trans hk.1, ?_⟩
    rw [hheld i .storing rfl]
    exact hk.2
  | unlockInsert e v =>
    refine ⟨(h.lists (hlock rfl)).2.trans hk.1, ?_⟩
    rw [hheld e.index .counted rfl, h.regionId]
    exact hk.2
  | swapValue e remote =>
    refine ⟨h.handles hk.1, ?_⟩
    rw [hheld e.index .won rfl]
    exact hk.2
  | uncount e remote =>
    refine ⟨h.handles hk.1, ?_⟩
    rw [hheld e.index .taken rfl]
    exact hk.2
  | lockRemove e => exact EpochHandle.Won.stable hk h (spare e hheld)
  | enqueue e => exact ⟨hk.1, EpochHandle.Won.stable hk.2 h (spare e hheld)⟩
  | giveBack e =>
    exact ⟨(h.lists (hlock rfl)).2.trans hk.1, EpochHandle.Won.stable hk.2 h (spare e hheld)⟩

/-! ## The mutex and the rights -/

/-- The writer mutex, as a thread has it. -/
def mutexHold (t : Thread V) : Option (Unit × Unit) := if t.frame.locks then some ((), ()) else none

/-- The writer mutex, as the region shows it. -/
def mutexView (r : Region V) (_ : Unit) : Option Unit := if r.locked then some () else none

/-- The removal that a thread won. -/
def winnerHold (t : Thread V) : Option (EpochHandle × Unit) := t.frame.winner.map fun h => (h, ())

/-- The removals that were won and did not answer yet. -/
def winnerView (r : Region V) (h : EpochHandle) : Option Unit :=
  if h ∈ r.handles ∧ h.generation < (r.slots h.index).generation ∧ h ∉ r.removed then some ()
  else none

lemma mutexHold_isSome {t : Thread V} : mutexHold t = some ((), ()) ↔ t.frame.locks = true := by
  unfold mutexHold
  split_ifs with h <;> simp [h]

lemma winnerView_eq_some {h : EpochHandle} {u : Unit} : winnerView r h = some u ↔
    h ∈ r.handles ∧ h.generation < (r.slots h.index).generation ∧ h ∉ r.removed := by
  unfold winnerView
  split_ifs with hc <;> simp [hc]

/-- The removals that answered: each handle at most once, and with its slot beyond it. -/
structure Returned (r : Region V) : Prop where
  nodup : r.removed.Nodup
  past : ∀ h ∈ r.removed, h ∈ r.handles ∧ h.generation < (r.slots h.index).generation

lemma Returned.leaves (hr : Returned r) (h : Leaves r r' stage j locks)
    (he : r'.removed = r.removed) : Returned r' where
  nodup := he ▸ hr.nodup
  past e hm := by
    obtain ⟨hh, hg⟩ := hr.past e (he ▸ hm)
    exact ⟨h.handles hh, hg.trans_le (h.generation _)⟩

/-- What one action of thread `j` keeps. -/
structure Steps [DecidableEq ι] (r r' : Region V) (loc : ι → Thread V) (stage : ℕ → Stage ι) (j : ι)
    (t' : Thread V) : Prop where
  agrees : ∃ stage', Agrees r' (Function.update loc j t') stage'
  leaves : Leaves r r' stage j (loc j).frame.locks
  knows : Knows r' t'.frame
  mutex : Move mutexHold mutexView r r' (loc j) t'
  winner : Move winnerHold winnerView r r' (loc j) t'
  scratch : r'.locked = false → r'.drainScratch = []
  returned : Returned r'

/-! ## Steps that move no slot -/

/-- The regions differ at most in the hint and the mutex of the queue. -/
structure Quiet (r r' : Region V) : Prop where
  regionId : r'.regionId = r.regionId
  capacity : r'.capacity = r.capacity
  slots : r'.slots = r.slots
  locked : r'.locked = r.locked
  free : r'.free = r.free
  drainScratch : r'.drainScratch = r.drainScratch
  remoteFree : r'.remoteFree = r.remoteFree
  len : r'.len = r.len
  inserted : r'.inserted = r.inserted
  removed : r'.removed = r.removed

lemma Quiet.refl (r : Region V) : Quiet r r := by constructor <;> rfl

lemma Quiet.leaves (hq : Quiet r r') (stage : ℕ → Stage ι) (j : ι) (locks : Bool) :
    Leaves r r' stage j locks where
  regionId := hq.regionId
  inserted _ hp := hq.inserted ▸ hp
  generation i := by rw [hq.slots]
  slots i _ _ _ _ := by rw [hq.slots]
  lists _ := ⟨hq.free, hq.drainScratch⟩

lemma Quiet.knows {f : Frame V} (hq : Quiet r r') (hk : Knows r f) : Knows r' f := by
  refine hk.stable (hq.leaves (fun _ => (Stage.retired : Stage Unit)) () false)
    (fun i _ _ => by rw [hq.slots]) fun _ => rfl

variable [DecidableEq ι] {t' : Thread V}

omit [DecidableEq ι] in
lemma winnerView_congr (hi : r'.inserted = r.inserted)
    (hg : ∀ k, (r'.slots k).generation = (r.slots k).generation) (hr : r'.removed = r.removed) :
    winnerView r' = winnerView r := by
  ext1 h
  unfold winnerView
  refine if_congr ?_ rfl rfl
  rw [Region.handles, Region.handles, hi, hg, hr]

omit [DecidableEq ι] in
lemma Quiet.winnerView_eq (hq : Quiet r r') : winnerView r' = winnerView r :=
  winnerView_congr hq.inserted (fun k => by rw [hq.slots]) hq.removed

/-- A removal that answers gives up its right. -/
lemma winnerView_return {h : EpochHandle} (hi : r'.inserted = r.inserted)
    (hg : ∀ k, (r'.slots k).generation = (r.slots k).generation)
    (hr : r'.removed = r.removed ++ [h]) :
    winnerView r' = Function.update (winnerView r) h none := by
  ext1 e
  by_cases he : e = h
  · subst e
    rw [Function.update_self]
    unfold winnerView
    rw [if_neg (by simp [hr])]
  · rw [Function.update_of_ne he]
    unfold winnerView
    refine if_congr ?_ rfl rfl
    rw [Region.handles, Region.handles, hi, hg, hr]
    simp [he]

omit [DecidableEq ι] in
lemma mutexView_congr (hl : r'.locked = r.locked) : mutexView r' = mutexView r := by
  ext1
  simp only [mutexView, hl]

/-- An action that moves no slot, takes no mutex and wins nothing. -/
lemma Steps.quiet (ha : Agrees r loc stage) (hs : r.locked = false → r.drainScratch = [])
    (hr : Returned r) (hq : Quiet r r')
    (hhold : t'.frame.holding = (loc j).frame.holding)
    (hlocks : t'.frame.locks = (loc j).frame.locks)
    (hwin : t'.frame.winner = (loc j).frame.winner) (hknows : Knows r t'.frame) :
    Steps r r' loc stage j t' where
  agrees := ⟨stage, ha.stay hq.regionId hq.capacity hq.free hq.drainScratch hq.remoteFree hq.slots
    hq.len hq.inserted hhold⟩
  leaves := hq.leaves ..
  knows := hq.knows hknows
  mutex := .keep (mutexView_congr hq.locked) (by rw [mutexHold, mutexHold, hlocks])
  winner := .keep hq.winnerView_eq (by rw [winnerHold, winnerHold, hwin])
  scratch hl := hq.drainScratch.trans (hs (hq.locked ▸ hl))
  returned := hr.leaves (hq.leaves stage j false) hq.removed

omit [DecidableEq ι] in
lemma leaves_of_lock (r : Region V) (stage : ℕ → Stage ι) (j : ι) (locks : Bool) :
    Leaves r { r with locked := true } stage j locks :=
  ⟨rfl, fun _ hp => hp, fun _ => le_rfl, fun _ _ _ _ _ => rfl, fun _ => ⟨rfl, rfl⟩⟩

/-- An action that takes the writer mutex. -/
lemma Steps.lock (ha : Agrees r loc stage) (hr : Returned r) (hfree : r.locked = false)
    (hhold : t'.frame.holding = (loc j).frame.holding)
    (hout : (loc j).frame.locks = false) (hin : t'.frame.locks = true)
    (hwin : t'.frame.winner = (loc j).frame.winner) (hknows : Knows r t'.frame) :
    Steps r { r with locked := true } loc stage j t' where
  agrees := ⟨stage, ha.stay rfl rfl rfl rfl rfl rfl rfl rfl hhold⟩
  leaves := leaves_of_lock ..
  knows := hknows.stable (leaves_of_lock r stage j false) (fun _ _ _ => rfl) fun _ => rfl
  mutex := by
    refine .acquire () () ?_ ?_ ?_ (mutexHold_isSome.mpr hin)
    · simp [mutexHold, hout]
    · simp [mutexView, hfree]
    · ext1
      simp [mutexView]
  winner := .keep rfl (by rw [winnerHold, winnerHold, hwin])
  scratch hl := absurd hl (by simp)
  returned := hr.leaves (leaves_of_lock r stage j false) rfl

/-! ## Moves of the index -/

section Moves
variable {i : ℕ} {st : Stage ι}

omit [DecidableEq ι] in
/-- The slots in the hands of `j` where it moves a slot that is in nobody's hands. -/
lemma holds_other (ha : Agrees r loc stage) (hi : ∀ k m, stage i ≠ .held k m)
    (hst : ∀ k m, st ≠ .held k m) (hh : t'.frame.holding = (loc j).frame.holding) (k : ℕ)
    (m : Mode) : t'.frame.holding = some (k, m) ↔
      (k = i ∧ st = .held j m) ∨ (k ≠ i ∧ (loc j).frame.holding = some (k, m)) := by
  have hne : (loc j).frame.holding = some (k, m) → k ≠ i := by
    rintro hk rfl
    exact hi j m ((ha.held j k m).mp hk)
  rw [hh]
  constructor
  · intro hk
    exact .inr ⟨hne hk, hk⟩
  · rintro (⟨-, he⟩ | ⟨-, hk⟩)
    · exact absurd he (hst j m)
    · exact hk

omit [DecidableEq ι] in
/-- The slots in the hands of `j` where it takes a slot, changes it, or gives it away. -/
lemma holds_own (hb : ∀ k m, (loc j).frame.holding = some (k, m) → k = i)
    (ha : ∀ k m, t'.frame.holding = some (k, m) ↔ k = i ∧ st = .held j m) (k : ℕ) (m : Mode) :
    t'.frame.holding = some (k, m) ↔
      (k = i ∧ st = .held j m) ∨ (k ≠ i ∧ (loc j).frame.holding = some (k, m)) := by
  rw [ha]
  constructor
  · exact .inl
  · rintro (h | ⟨hne, hk⟩)
    · exact h
    · exact absurd (hb k m hk) hne

omit [DecidableEq ι] in
/-- The slot that `j` has is in no other's hands. -/
lemma held_unique {m : Mode} (hst : st = .held j m) (k : ι) (m' : Mode) (he : st = .held k m') :
    k = j := (Stage.held.inj (hst.symm.trans he)).1.symm

omit [DecidableEq ι] in
lemma Agrees.fits_at (ha : Agrees r loc stage) (hst : stage i = st) (hne : st ≠ .retired) :
    i < r.capacity ∧ st.Fits (r.slots i) := by
  subst hst
  exact ⟨ha.bound i hne, ha.fits i (ha.bound i hne)⟩

/-- A drained index goes to the free list. -/
lemma drainNext_steps (ha : Agrees r loc stage) (hr : Returned r) (hl : r.locked = true)
    {k : After V} {seen rest : List ℕ} (hf : (loc j).frame = .drainNext k seen)
    (hk : Knows r (loc j).frame) (hi : r.drainScratch = i :: rest) :
    Steps r (advance r (loc j)).1 loc stage j (advance r (loc j)).2 := by
  have hst : stage i = .scratch := (ha.scratch i).mp (hi ▸ List.mem_cons_self ..)
  obtain ⟨hcap, hfull, hgen⟩ := ha.fits_at hst (by simp)
  have hadv : advance r (loc j) = ({ r with drainScratch := rest, free := i :: r.free }, loc j) := by
    have hne : (r.slots i).generation ≠ maxGeneration := hgen.ne
    simp only [advance, hf, hi, hcap, hne, ne_eq, not_false_eq_true, and_self, if_true]
  have hnodup : (i :: rest).Nodup := hi ▸ ha.scratchNodup
  have hnf : i ∉ r.free := by simp [ha.free, hst]
  have hleaves : Leaves r { r with drainScratch := rest, free := i :: r.free } stage j
      (loc j).frame.locks :=
    ⟨rfl, fun _ hp => hp, fun _ => le_rfl, fun _ _ _ _ _ => rfl,
      fun hf' => absurd hf' (by simp [hf, Frame.locks])⟩
  rw [hadv]
  have hmoves : Moves r { r with drainScratch := rest, free := i :: r.free } loc stage j (loc j) i
      .free :=
    ⟨rfl, rfl, hcap, .push ha.freeNodup hnf rfl, hi ▸ .pop hnodup (by simp),
      .same ha.queueNodup (ha.queued i) (by simp [hst]) (by simp), fun _ _ => rfl, ⟨hfull, hgen⟩,
      holds_other ha (by simp [hst]) (by simp) rfl, by simp [hst], by simp,
      by simp [hst, Stage.counted]⟩
  refine ⟨⟨_, ha.move_dead hmoves rfl rfl (by simp [hst]) (by simp)⟩, hleaves, ?_, ?_, ?_, ?_,
    hr.leaves hleaves rfl⟩
  · rw [hf] at hk ⊢
    refine ⟨by simp, ?_⟩
    have hk2 := hk.2
    cases k with
    | insert => trivial
    | remove => exact hk2
  · exact .keep rfl rfl
  · exact .keep rfl rfl
  · intro hl'
    exact absurd (hl.symm.trans hl') (by simp)

omit [DecidableEq ι] in
lemma setSlot_slots_self (s : AtomicSlot V) : (r.setSlot i s).slots i = s := Function.update_self ..

omit [DecidableEq ι] in
lemma setSlot_slots_of_ne {k : ℕ} (s : AtomicSlot V) (hk : k ≠ i) :
    (r.setSlot i s).slots k = r.slots k := Function.update_of_ne hk ..

/-- An insert takes the top of the free list and stores its value. -/
lemma pop_steps (ha : Agrees r loc stage) (hr : Returned r) (hl : r.locked = true) {v : V}
    {seen : Option (List ℕ)} {rest : List ℕ} (hf : (loc j).frame = .pop v seen)
    (hk : Knows r (loc j).frame) (hi : r.free = i :: rest) :
    Steps r (advance r (loc j)).1 loc stage j (advance r (loc j)).2 := by
  have hst : stage i = .free := (ha.free i).mp (hi ▸ List.mem_cons_self ..)
  obtain ⟨hcap, -, hgen⟩ := ha.fits_at hst (by simp)
  set s' : AtomicSlot V := { r.slots i with value := some v } with hs'
  have hadv : advance r (loc j) =
      ({ r with free := rest }.setSlot i s', (loc j).goto (.loadGeneration i v)) := by
    simp only [advance, hf, hi]
    rfl
  have hnodup : (i :: rest).Nodup := hi ▸ ha.freeNodup
  rw [hadv]
  have hslot : ({ r with free := rest }.setSlot i s').slots i = s' := Function.update_self ..
  have hother : ∀ k, k ≠ i → ({ r with free := rest }.setSlot i s').slots k = r.slots k :=
    fun k hk => Function.update_of_ne hk ..
  have hgens : ∀ k, (({ r with free := rest }.setSlot i s').slots k).generation =
      (r.slots k).generation := by
    intro k
    by_cases hki : k = i
    · subst k
      rw [hslot]
    · rw [hother k hki]
  have hmoves : Moves r ({ r with free := rest }.setSlot i s') loc stage j
      ((loc j).goto (.loadGeneration i v)) i (.held j .storing) := by
    refine ⟨rfl, rfl, hcap, hi ▸ .pop hnodup (by simp),
      .same ha.scratchNodup (ha.scratch i) (by simp [hst]) (by simp),
      .same ha.queueNodup (ha.queued i) (by simp [hst]) (by simp), hother, ?_,
      holds_own (by simp [hf, Frame.holding]) (fun k m => ?_), by simp [hst], ?_, ?_⟩
    · rw [hslot]
      exact ⟨rfl, hgen⟩
    · simp [Thread.goto, Frame.holding, eq_comm]
    · exact held_unique rfl
    · simp [hst, Stage.counted, Region.setSlot]
  have hleaves : Leaves r ({ r with free := rest }.setSlot i s') stage j (loc j).frame.locks := by
    refine ⟨rfl, fun _ hp => hp, fun k => (hgens k).ge, fun k k' m hk _ => hother k ?_,
      fun hf' => absurd hf' (by simp [hf, Frame.locks])⟩
    rintro rfl
    simp [hst] at hk
  refine ⟨⟨_, ha.move_dead hmoves rfl (hgens i) (by simp [hst]) (by simp)⟩, hleaves, ?_, ?_, ?_, ?_,
    hr.leaves hleaves rfl⟩
  · rw [hf] at hk
    exact ⟨hk.1, by rw [hslot]⟩
  · exact .keep rfl (by simp [mutexHold, hf, Thread.goto, Frame.locks])
  · exact .keep (winnerView_congr rfl hgens rfl)
      (by simp [winnerHold, hf, Thread.goto, Frame.winner])
  · intro hl'
    exact absurd (hl.symm.trans hl') (by simp)

/-- An insert that finds no index returns. -/
lemma popNone_steps (ha : Agrees r loc stage) (hr : Returned r) {v : V} {seen : Option (List ℕ)}
    (hf : (loc j).frame = .pop v seen) (hk : Knows r (loc j).frame) (hi : r.free = []) :
    Steps r (advance r (loc j)).1 loc stage j (advance r (loc j)).2 := by
  have hadv : advance r (loc j) =
      ({ r with locked := false }, (loc j).return (.inserted (.error v))) := by
    simp only [advance, hf, hi]
  have hleaves : Leaves r { r with locked := false } stage j (loc j).frame.locks :=
    ⟨rfl, fun _ hp => hp, fun _ => le_rfl, fun _ _ _ _ _ => rfl, fun _ => ⟨rfl, rfl⟩⟩
  rw [hadv]
  rw [hf] at hk
  refine ⟨⟨stage, ha.stay rfl rfl rfl rfl rfl rfl rfl rfl ?_⟩, hleaves, trivial, ?_, ?_,
    fun _ => hk.1, hr.leaves hleaves rfl⟩
  · simp [hf, Thread.return, Frame.holding]
  · refine .release () () (by simp [mutexHold, hf, Frame.locks]) ?_
      (by simp [mutexHold, Thread.return, Frame.locks])
    ext1
    simp [mutexView]
  · exact .keep rfl (by simp [winnerHold, hf, Thread.return, Frame.winner])

/-- An insert counts its slot. -/
lemma count_steps (ha : Agrees r loc stage) (hr : Returned r) (hl : r.locked = true) {g : ℕ} {v : V}
    (hf : (loc j).frame = .count i g v) (hk : Knows r (loc j).frame) :
    Steps r (advance r (loc j)).1 loc stage j (advance r (loc j)).2 := by
  have hst : stage i = .held j .storing := (ha.held j i .storing).mp (by simp [hf, Frame.holding])
  obtain ⟨hcap, hfull, hgen⟩ := ha.fits_at hst (by simp)
  have hadv : advance r (loc j) = ({ r with len := (r.len + 1) % 2 ^ 64 },
      (loc j).goto (.unlockInsert ⟨r.regionId, i, g⟩ v)) := by
    simp only [advance, hf]
  have hlen : (r.len + 1) % 2 ^ 64 = r.len + 1 := by
    have hlt := ha.len_lt
    omega
  have hleaves : Leaves r { r with len := (r.len + 1) % 2 ^ 64 } stage j (loc j).frame.locks :=
    ⟨rfl, fun _ hp => hp, fun _ => le_rfl, fun _ _ _ _ _ => rfl, fun _ => ⟨rfl, rfl⟩⟩
  rw [hadv]
  rw [hf] at hk
  have hmoves : Moves r { r with len := (r.len + 1) % 2 ^ 64 } loc stage j
      ((loc j).goto (.unlockInsert ⟨r.regionId, i, g⟩ v)) i (.held j .counted) := by
    refine ⟨rfl, rfl, hcap, .same ha.freeNodup (ha.free i) (by simp [hst]) (by simp),
      .same ha.scratchNodup (ha.scratch i) (by simp [hst]) (by simp),
      .same ha.queueNodup (ha.queued i) (by simp [hst]) (by simp), fun _ _ => rfl, ⟨hfull, hgen⟩,
      holds_own (fun k m hh => ?_) (fun k m => ?_), ?_, ?_, ?_⟩
    · simp only [hf, Frame.holding, Option.some.injEq, Prod.mk.injEq] at hh
      exact hh.1.symm
    · simp [Thread.goto, Frame.holding, eq_comm]
    · exact held_unique hst
    · exact held_unique rfl
    · change (r.len + 1) % 2 ^ 64 + (stage i).counted.toNat = _
      rw [hlen, hst]
      rfl
  refine ⟨⟨_, ha.move_dead hmoves rfl rfl (by simp [hst]) (by simp)⟩, hleaves, ?_, ?_, ?_,
    fun hl' => absurd (hl.symm.trans hl') (by simp), hr.leaves hleaves rfl⟩
  · exact ⟨hk.1, hk.2.1, hk.2.2, rfl⟩
  · exact .keep (mutexView_congr rfl) (by simp [mutexHold, hf, Thread.goto, Frame.locks])
  · exact .keep (winnerView_congr rfl (fun _ => rfl) rfl)
      (by simp [winnerHold, hf, Thread.goto, Frame.winner])

/-- An insert returns its handle, which no insert returned before. -/
lemma unlockInsert_steps (ha : Agrees r loc stage) (hr : Returned r) {h : EpochHandle} {v : V}
    (hf : (loc j).frame = .unlockInsert h v) (hk : Knows r (loc j).frame) :
    Steps r (advance r (loc j)).1 loc stage j (advance r (loc j)).2 := by
  have hst : stage h.index = .held j .counted :=
    (ha.held j h.index .counted).mp (by simp [hf, Frame.holding])
  obtain ⟨hcap, hfull, hgen⟩ := ha.fits_at hst (by simp)
  set r₁ : Region V := { r with locked := false, inserted := r.inserted ++ [(h, v)] } with hr₁
  have hadv : advance r (loc j) = (r₁, (loc j).return (.inserted (.ok h))) := by
    simp only [advance, hf]
    rfl
  have hleaves : Leaves r r₁ stage j (loc j).frame.locks :=
    ⟨rfl, fun _ hp => List.mem_append_left _ hp, fun _ => le_rfl, fun _ _ _ _ _ => rfl,
      fun _ => ⟨rfl, rfl⟩⟩
  rw [hadv]
  rw [hf] at hk
  obtain ⟨hscratch, hval, hg, hid⟩ := hk
  have hmoves : Moves r r₁ loc stage j ((loc j).return (.inserted (.ok h))) h.index .live := by
    refine ⟨rfl, rfl, hcap, .same ha.freeNodup (ha.free _) (by simp [hst]) (by simp),
      .same ha.scratchNodup (ha.scratch _) (by simp [hst]) (by simp),
      .same ha.queueNodup (ha.queued _) (by simp [hst]) (by simp), fun _ _ => rfl, ⟨hfull, hgen⟩,
      holds_own (fun k m hh => ?_) (fun k m => ?_), ?_, by simp, ?_⟩
    · simp only [hf, Frame.holding, Option.some.injEq, Prod.mk.injEq] at hh
      exact hh.1.symm
    · simp [Thread.return, Frame.holding]
    · exact held_unique hst
    · simp [hst, Stage.counted, hr₁]
  have hnew : h ∉ r.handles := by
    intro hm
    obtain ⟨p, hp, rfl⟩ := List.mem_map.mp hm
    obtain ⟨-, -, hlt | ⟨-, hlive, -⟩⟩ := ha.known p hp
    · exact hlt.ne hg.symm
    · simp [hst] at hlive
  refine ⟨⟨_, ha.move hmoves (fun p hp => ?_) (fun k hk => ?_) ?_⟩, hleaves, trivial, ?_, ?_,
    fun _ => hscratch, hr.leaves hleaves rfl⟩
  · obtain hp | hp := List.mem_append.mp hp
    · obtain ⟨hpid, hpi, hor⟩ := ha.known p hp
      refine ⟨hpid, hpi, hor.imp_right ?_⟩
      rintro ⟨hpg, hpl, hpv⟩
      refine ⟨hpg, ?_, hpv⟩
      by_cases he : p.1.index = h.index
      · rw [he, Function.update_self]
      · rw [Function.update_of_ne he]
        exact hpl
    · obtain rfl := List.mem_singleton.mp hp
      exact ⟨hid, hcap, .inr ⟨hg.symm, Function.update_self .., hval⟩⟩
  · by_cases he : k = h.index
    · subst k
      refine ⟨v, List.mem_append_right _ (List.mem_singleton.mpr ?_)⟩
      rw [← hid]
      change (⟨h.regionId, h.index, (r.slots h.index).generation⟩, v) = (h, v)
      rw [hg]
    · rw [Function.update_of_ne he] at hk
      obtain ⟨v', hv'⟩ := ha.live k hk
      exact ⟨v', List.mem_append_left _ hv'⟩
  · simp only [Region.handles, hr₁, List.map_append, List.map_cons, List.map_nil]
    refine List.nodup_append.mpr ⟨ha.distinct, List.nodup_singleton _, ?_⟩
    rintro a ha' b hb rfl
    exact hnew (List.mem_singleton.mp hb ▸ ha')
  · refine .release () () (by simp [mutexHold, hf, Frame.locks]) ?_
      (by simp [mutexHold, Thread.return, Frame.locks])
    ext1
    simp [mutexView, hr₁]
  · refine .keep ?_ (by simp [winnerHold, hf, Thread.return, Frame.winner])
    -- The new handle is at the generation of its slot.
    ext1 e
    unfold winnerView
    refine if_congr ?_ rfl rfl
    simp only [Region.handles, hr₁, List.map_append, List.mem_append, List.map_cons, List.map_nil,
      List.mem_singleton]
    constructor
    · rintro ⟨he | rfl, hlt, hnr⟩
      · exact ⟨he, hlt, hnr⟩
      · exact absurd hg hlt.ne'
    · rintro ⟨he, hrest⟩
      exact ⟨.inl he, hrest⟩

/-- A removal wins its slot: the handle is the one of the value in the slot. -/
lemma evict_steps (ha : Agrees r loc stage) (hs : r.locked = false → r.drainScratch = [])
    (hr : Returned r) {h : EpochHandle} {remote : Bool} (hf : (loc j).frame = .evict h remote)
    (hk : Knows r (loc j).frame) (hne : h.generation ≠ maxGeneration)
    (hg : (r.slots h.index).generation = h.generation) :
    Steps r (advance r (loc j)).1 loc stage j (advance r (loc j)).2 := by
  rw [hf] at hk
  have hmem : h ∈ r.handles := hk
  obtain ⟨⟨h', v⟩, hp, rfl⟩ := List.mem_map.mp hmem
  obtain ⟨hid, hcap, hlt | ⟨-, hst, hval⟩⟩ := ha.known _ hp
  · exact absurd hg hlt.ne'
  dsimp only at hne hg hid hcap hst hval hf
  set h : EpochHandle := h' with hh
  obtain ⟨-, hfull, hgen⟩ := ha.fits_at hst (by simp)
  set s' : AtomicSlot V := { r.slots h.index with generation := h.generation + 1 } with hs'
  have hadv : advance r (loc j) = (r.setSlot h.index s', (loc j).goto (.swapValue h remote)) := by
    simp only [advance, hf]
    rw [if_pos ⟨hne, hg⟩]
  have hslot : (r.setSlot h.index s').slots h.index = s' := setSlot_slots_self _
  have hother : ∀ k, k ≠ h.index → (r.setSlot h.index s').slots k = r.slots k :=
    fun k hk => setSlot_slots_of_ne _ hk
  have hgens : ∀ k, (r.slots k).generation ≤ ((r.setSlot h.index s').slots k).generation := by
    intro k
    by_cases hki : k = h.index
    · subst k
      rw [hslot, hs', hg]
      exact Nat.le_succ _
    · rw [hother k hki]
  have hleaves : Leaves r (r.setSlot h.index s') stage j (loc j).frame.locks := by
    refine ⟨rfl, fun _ hp => hp, hgens, fun k k' m hk _ => hother k ?_, fun _ => ⟨rfl, rfl⟩⟩
    rintro rfl
    simp [hst] at hk
  rw [hadv]
  have hmoves : Moves r (r.setSlot h.index s') loc stage j ((loc j).goto (.swapValue h remote))
      h.index (.held j .won) := by
    refine ⟨rfl, rfl, hcap, .same ha.freeNodup (ha.free _) (by simp [hst]) (by simp),
      .same ha.scratchNodup (ha.scratch _) (by simp [hst]) (by simp),
      .same ha.queueNodup (ha.queued _) (by simp [hst]) (by simp), hother, ?_,
      holds_own (by simp [hf, Frame.holding]) (fun k m => ?_), by simp [hst], held_unique rfl,
      by simp [hst, Stage.counted, Region.setSlot]⟩
    · rw [hslot]
      refine ⟨hfull, ?_⟩
      have hlt : (r.slots h.index).generation < maxGeneration := hgen
      change h.generation + 1 ≤ maxGeneration
      omega
    · simp [Thread.goto, Frame.holding, eq_comm]
  refine ⟨⟨_, ha.move hmoves (fun p hp => ?_) (fun k hk => ?_) ha.distinct⟩, hleaves, ?_, ?_, ?_,
    hs, hr.leaves hleaves rfl⟩
  · obtain ⟨hpid, hpi, hor⟩ := ha.known p hp
    refine ⟨hpid, hpi, ?_⟩
    by_cases he : p.1.index = h.index
    · left
      rw [he, hslot]
      rw [he, hg] at hor
      change p.1.generation < h.generation + 1
      obtain hlt | ⟨heq, -⟩ := hor
      · exact Nat.lt_succ_of_lt hlt
      · exact heq ▸ Nat.lt_succ_self _
    · rw [Function.update_of_ne he, hother _ he]
      exact hor
  · have hki : k ≠ h.index := by
      rintro rfl
      rw [Function.update_self] at hk
      simp at hk
    rw [Function.update_of_ne hki] at hk
    rw [hother k hki]
    exact ha.live k hk
  · exact ⟨hmem, by rw [hslot]⟩
  · exact .keep rfl (by simp [mutexHold, hf, Thread.goto, Frame.locks])
  · refine .acquire h () (by simp [winnerHold, hf, Frame.winner]) ?_ ?_
      (by simp [winnerHold, Thread.goto, Frame.winner])
    · unfold winnerView
      rw [if_neg]
      rintro ⟨-, hlt, -⟩
      exact hlt.ne' hg
    · ext1 e
      by_cases he : e = h
      · subst e
        rw [Function.update_self, winnerView_eq_some, hslot]
        refine ⟨hmem, Nat.lt_succ_self _, fun hrem => ?_⟩
        exact (hr.past h hrem).2.ne' hg
      · rw [Function.update_of_ne he]
        unfold winnerView
        refine if_congr ?_ rfl rfl
        change e ∈ r.handles ∧ _ ∧ e ∉ r.removed ↔ _
        refine and_congr_right fun hme => and_congr_left fun _ => ?_
        by_cases hei : e.index = h.index
        · -- Another handle of the slot is of an earlier generation.
          obtain ⟨q, hq, rfl⟩ := List.mem_map.mp hme
          obtain ⟨hqid, -, -⟩ := ha.known q hq
          rw [hei, hslot, hg]
          change q.1.generation < h.generation + 1 ↔ _
          have hneg : q.1.generation ≠ h.generation := fun hqg =>
            he (EpochHandle.ext (hqid.trans hid.symm) hei hqg)
          omega
        · rw [hother _ hei]

/-- A removal takes the value of the slot that it won. -/
lemma swapValue_steps (ha : Agrees r loc stage) (hs : r.locked = false → r.drainScratch = [])
    (hr : Returned r) {h : EpochHandle} {remote : Bool} (hf : (loc j).frame = .swapValue h remote)
    (hk : Knows r (loc j).frame) :
    Steps r (advance r (loc j)).1 loc stage j (advance r (loc j)).2 := by
  have hst : stage h.index = .held j .won :=
    (ha.held j h.index .won).mp (by simp [hf, Frame.holding])
  obtain ⟨hcap, hfull, hgen⟩ := ha.fits_at hst (by simp)
  set s' : AtomicSlot V := { r.slots h.index with value := none } with hs'
  have hadv : advance r (loc j) = (r.setSlot h.index s', (loc j).goto (.uncount h remote)) := by
    have hsome : (r.slots h.index).value.isSome = true := hfull
    simp only [advance, hf, hsome, if_true]
    rfl
  have hslot : (r.setSlot h.index s').slots h.index = s' := setSlot_slots_self _
  have hother : ∀ k, k ≠ h.index → (r.setSlot h.index s').slots k = r.slots k :=
    fun k hk => setSlot_slots_of_ne _ hk
  have hgens : ∀ k, ((r.setSlot h.index s').slots k).generation = (r.slots k).generation := by
    intro k
    by_cases hki : k = h.index
    · subst k
      rw [hslot]
    · rw [hother k hki]
  have hleaves : Leaves r (r.setSlot h.index s') stage j (loc j).frame.locks := by
    refine ⟨rfl, fun _ hp => hp, fun k => (hgens k).ge, fun k k' m hk hne => hother k ?_,
      fun _ => ⟨rfl, rfl⟩⟩
    rintro rfl
    exact hne (held_unique hst k' m hk)
  rw [hadv]
  rw [hf] at hk
  have hmoves : Moves r (r.setSlot h.index s') loc stage j ((loc j).goto (.uncount h remote))
      h.index (.held j .taken) := by
    refine ⟨rfl, rfl, hcap, .same ha.freeNodup (ha.free _) (by simp [hst]) (by simp),
      .same ha.scratchNodup (ha.scratch _) (by simp [hst]) (by simp),
      .same ha.queueNodup (ha.queued _) (by simp [hst]) (by simp), hother, ?_,
      holds_own (fun k m hh => ?_) (fun k m => ?_), held_unique hst, held_unique rfl,
      by simp [hst, Stage.counted, Region.setSlot]⟩
    · rw [hslot]
      exact ⟨rfl, hgen⟩
    · simp only [hf, Frame.holding, Option.some.injEq, Prod.mk.injEq] at hh
      exact hh.1.symm
    · simp [Thread.goto, Frame.holding, eq_comm]
  refine ⟨⟨_, ha.move_dead hmoves rfl (hgens _) (by simp [hst]) (by simp)⟩, hleaves, ?_, ?_, ?_, hs,
    hr.leaves hleaves rfl⟩
  · refine ⟨hk.1, ?_⟩
    rw [hslot]
    exact hk.2
  · exact .keep rfl (by simp [mutexHold, hf, Thread.goto, Frame.locks])
  · exact .keep (winnerView_congr rfl hgens rfl) (by simp [winnerHold, hf, Thread.goto, Frame.winner])

/-! ## The end of a removal -/

omit [DecidableEq ι] in
/-- The slot of a won handle is in the hands of the removal, if it is used again. -/
lemma spare_stage (ha : Agrees r loc stage) {h : EpochHandle} (hhold : (loc j).frame.holding = h.spare)
    (hreuse : h.reusable = true) : stage h.index = .held j .spare :=
  (ha.held j h.index .spare).mp (by rw [hhold, EpochHandle.spare, if_pos hreuse])

/-- A removal uncounts its slot, which is used again unless its generation is the last one. -/
lemma uncount_agrees (ha : Agrees r loc stage) {h : EpochHandle} {remote : Bool}
    (hf : (loc j).frame = .uncount h remote) (hk : Knows r (loc j).frame) (l : List EpochHandle)
    (hhold : t'.frame.holding = h.spare) :
    Agrees { r with len := fetchSub r.len, removed := l } (Function.update loc j t')
      (Function.update stage h.index (h.spareStage j)) := by
  have hst : stage h.index = .held j .taken :=
    (ha.held j h.index .taken).mp (by simp [hf, Frame.holding])
  obtain ⟨hcap, hfull, hgen⟩ := ha.fits_at hst (by simp)
  rw [hf] at hk
  have hpos := ha.len_pos hcap (by rw [hst]; rfl)
  have hlen : fetchSub r.len = r.len - 1 := by
    have hlt := ha.len_lt
    unfold fetchSub
    omega
  have hfits : (h.spareStage j).Fits (r.slots h.index) := by
    have hle : (r.slots h.index).generation ≤ maxGeneration := hgen
    rw [hk.2] at hle
    unfold EpochHandle.spareStage
    split_ifs with hre
    · refine ⟨hfull, ?_⟩
      change (r.slots h.index).generation < maxGeneration
      rw [hk.2]
      exact lt_of_le_of_ne hle (of_decide_eq_true hre)
    · refine ⟨hfull, ?_⟩
      change (r.slots h.index).generation = maxGeneration
      rw [hk.2]
      by_contra hne
      exact hre (decide_eq_true hne)
  have hcounted : (h.spareStage j).counted = false := by
    unfold EpochHandle.spareStage
    split_ifs <;> rfl
  have hlist : ∀ st : Stage ι, st = .free ∨ st = .scratch ∨ st = .queued ∨ st = .live →
      h.spareStage j ≠ st := by
    unfold EpochHandle.spareStage
    split_ifs <;> simp
  have hmoves : Moves r { r with len := fetchSub r.len, removed := l } loc stage j t' h.index
      (h.spareStage j) := by
    refine ⟨rfl, rfl, hcap, .same ha.freeNodup (ha.free _) (by simp [hst]) (hlist _ (by simp)),
      .same ha.scratchNodup (ha.scratch _) (by simp [hst]) (hlist _ (by simp)),
      .same ha.queueNodup (ha.queued _) (by simp [hst]) (hlist _ (by simp)), fun _ _ => rfl, hfits,
      holds_own (fun k m hh => ?_) (fun k m => ?_), held_unique hst, fun k m he => ?_, ?_⟩
    · simp only [hf, Frame.holding, Option.some.injEq, Prod.mk.injEq] at hh
      exact hh.1.symm
    · rw [hhold]
      unfold EpochHandle.spare EpochHandle.spareStage
      split_ifs <;> simp [eq_comm]
    · unfold EpochHandle.spareStage at he
      split_ifs at he
      exact held_unique rfl k m he
    · change fetchSub r.len + _ = _
      rw [hlen, hcounted, hst]
      simp only [Stage.counted, Bool.toNat_true, Bool.toNat_false]
      omega
  exact ha.move_dead hmoves rfl rfl (by simp [hst]) (hlist _ (by simp))

omit [DecidableEq ι] in
/-- A removal that answers. -/
lemma Returned.removed (hr : Returned r) {h : EpochHandle} (hw : winnerView r h = some ())
    (hl : Leaves r r' stage j locks) (he : r'.removed = r.removed ++ [h]) : Returned r' := by
  obtain ⟨hh, hg, hn⟩ := winnerView_eq_some.mp hw
  constructor
  · rw [he, ← List.concat_eq_append]
    exact hr.nodup.concat hn
  · intro e hm
    rw [he] at hm
    obtain hm | hm := List.mem_append.mp hm
    · obtain ⟨h₁, h₂⟩ := hr.past e hm
      exact ⟨hl.handles h₁, h₂.trans_le (hl.generation _)⟩
    · obtain rfl := List.mem_singleton.mp hm
      exact ⟨hl.handles hh, hg.trans_le (hl.generation _)⟩

/-- A removal uncounts its slot and goes on, or answers. -/
lemma uncount_steps (ha : Agrees r loc stage) (hs : r.locked = false → r.drainScratch = [])
    (hr : Returned r) {h : EpochHandle} {remote : Bool} (hf : (loc j).frame = .uncount h remote)
    (hk : Knows r (loc j).frame) (hw : winnerView r h = some ()) :
    Steps r (advance r (loc j)).1 loc stage j (advance r (loc j)).2 := by
  have hagrees : ∀ (l : List EpochHandle) (t' : Thread V), t'.frame.holding = h.spare →
      Agrees { r with len := fetchSub r.len, removed := l } (Function.update loc j t')
        (Function.update stage h.index (h.spareStage j)) :=
    fun l _ => uncount_agrees ha hf hk l
  have hwon : h.Won r := by
    rw [hf] at hk
    exact ⟨hk.1, fun _ => hk.2⟩
  simp only [advance, hf, returnRemoved]
  have hleaves : ∀ l, Leaves r { r with len := fetchSub r.len, removed := l } stage j (loc j).frame.locks :=
    fun _ => ⟨rfl, fun _ hp => hp, fun _ => le_rfl, fun _ _ _ _ _ => rfl, fun _ => ⟨rfl, rfl⟩⟩
  have hmutex : ∀ l t', (loc j).frame.locks = false → t'.frame.locks = false →
      Move mutexHold mutexView r { r with len := fetchSub r.len, removed := l } (loc j) t' :=
    fun l t' h₁ h₂ => .keep (mutexView_congr rfl) (by rw [mutexHold, mutexHold, h₁, h₂])
  split_ifs with hrem hre <;> dsimp only
  · exact ⟨⟨_, hagrees _ _ rfl⟩, hleaves _, ⟨hre, hwon.stable (hleaves _) fun _ => rfl⟩,
      hmutex _ _ (by rw [hf]; rfl) rfl,
      .keep (winnerView_congr rfl (fun _ => rfl) rfl) (by rw [winnerHold, winnerHold, hf]; rfl), hs,
      hr.leaves (hleaves _) rfl⟩
  · refine ⟨⟨_, hagrees _ _ ?_⟩, hleaves _, trivial, hmutex _ _ (by rw [hf]; rfl) rfl, ?_, hs,
      hr.removed hw (hleaves _) rfl⟩
    · rw [EpochHandle.spare, if_neg hre]
      rfl
    · exact .release h () (by rw [winnerHold, hf]; rfl) (winnerView_return rfl (fun _ => rfl) rfl)
        rfl
  · exact ⟨⟨_, hagrees _ _ rfl⟩, hleaves _, hwon.stable (hleaves _) fun _ => rfl,
      hmutex _ _ (by rw [hf]; rfl) rfl,
      .keep (winnerView_congr rfl (fun _ => rfl) rfl) (by rw [winnerHold, winnerHold, hf]; rfl), hs,
      hr.leaves (hleaves _) rfl⟩

omit [DecidableEq ι] in
/-- The writer mutex is released. -/
lemma mutex_release {t : Thread V} (ht : t.frame.locks = true) (ht' : t'.frame.locks = false)
    (hl : r'.locked = false) : Move mutexHold mutexView r r' t t' := by
  refine .release () () (mutexHold_isSome.mpr ht) ?_ (by simp [mutexHold, ht'])
  ext1
  simp [mutexView, hl]

/-- A removal of the owner hands its index back, releases the writer mutex and answers. -/
lemma giveBack_steps (ha : Agrees r loc stage) (hr : Returned r) {h : EpochHandle}
    (hf : (loc j).frame = .giveBack h) (hk : Knows r (loc j).frame)
    (hw : winnerView r h = some ()) :
    Steps r (advance r (loc j)).1 loc stage j (advance r (loc j)).2 := by
  have hmutex : ∀ r' : Region V, r'.locked = false → ∀ a,
      Move mutexHold mutexView r r' (loc j) ((loc j).return a) := fun r' hl a =>
    mutex_release (by simp [hf, Frame.locks]) rfl hl
  have hwinner : ∀ r' : Region V, r'.inserted = r.inserted → r'.slots = r.slots →
      r'.removed = r.removed ++ [h] → ∀ a,
      Move winnerHold winnerView r r' (loc j) ((loc j).return a) := fun r' hi hs hr' a =>
    .release h () (by simp [winnerHold, hf, Frame.winner])
      (winnerView_return hi (fun k => by rw [hs]) hr') rfl
  have hhold : (loc j).frame.holding = h.spare := by simp [hf, Frame.holding]
  rw [hf] at hk
  simp only [advance, hf, returnRemoved]
  split_ifs with hre
  · have hst := spare_stage ha hhold hre
    obtain ⟨hcap, hfull, hgen⟩ := ha.fits_at hst (by simp)
    have hnf : h.index ∉ r.free := by simp [ha.free, hst]
    set r₁ : Region V :=
      { r with locked := false, free := h.index :: r.free, removed := r.removed ++ [h] } with hr₁
    have hleaves : Leaves r r₁ stage j (loc j).frame.locks :=
      ⟨rfl, fun _ hp => hp, fun _ => le_rfl, fun _ _ _ _ _ => rfl,
        fun hl => absurd hl (by simp [hf, Frame.locks])⟩
    have hmoves : Moves r r₁ loc stage j ((loc j).return (.removed true)) h.index .free := by
      refine ⟨rfl, rfl, hcap, .push ha.freeNodup hnf rfl,
        .same ha.scratchNodup (ha.scratch _) (by simp [hst]) (by simp),
        .same ha.queueNodup (ha.queued _) (by simp [hst]) (by simp), fun _ _ => rfl, ⟨hfull, hgen⟩,
        holds_own (fun k m hh => ?_) (fun k m => ?_), held_unique hst, by simp, ?_⟩
      · simp only [hhold, EpochHandle.spare, if_pos hre, Option.some.injEq, Prod.mk.injEq] at hh
        exact hh.1.symm
      · simp [Thread.return, Frame.holding]
      · simp [hst, Stage.counted, hr₁]
    exact ⟨⟨_, ha.move_dead hmoves rfl rfl (by simp [hst]) (by simp)⟩, hleaves, trivial,
      hmutex r₁ rfl _, hwinner r₁ rfl rfl rfl _, fun _ => hk.1, hr.removed hw hleaves rfl⟩
  · set r₁ : Region V := { r with locked := false, removed := r.removed ++ [h] } with hr₁
    have hleaves : Leaves r r₁ stage j (loc j).frame.locks :=
      ⟨rfl, fun _ hp => hp, fun _ => le_rfl, fun _ _ _ _ _ => rfl, fun _ => ⟨rfl, rfl⟩⟩
    refine ⟨⟨stage, ha.stay rfl rfl rfl rfl rfl rfl rfl rfl ?_⟩, hleaves, trivial, hmutex r₁ rfl _,
      hwinner r₁ rfl rfl rfl _, fun _ => hk.1, hr.removed hw hleaves rfl⟩
    rw [hhold, EpochHandle.spare, if_neg hre]
    rfl

/-- A remote removal hands its index over to the queue. -/
lemma enqueue_steps (ha : Agrees r loc stage) (hs : r.locked = false → r.drainScratch = [])
    (hr : Returned r) {h : EpochHandle} (hf : (loc j).frame = .enqueue h)
    (hk : Knows r (loc j).frame) (hq : r.queueLocked = false) :
    Steps r (advance r (loc j)).1 loc stage j (advance r (loc j)).2 := by
  have hhold : (loc j).frame.holding = h.spare := by simp [hf, Frame.holding]
  have hadv : advance r (loc j) =
      ({ r with remoteFree := r.remoteFree ++ [h.index] }, (loc j).goto (.setPending h)) := by
    simp only [advance, hf, hq]
    rfl
  rw [hadv]
  rw [hf] at hk
  have hst := spare_stage ha hhold hk.1
  obtain ⟨hcap, hfull, hgen⟩ := ha.fits_at hst (by simp)
  have hnq : h.index ∉ r.remoteFree := by simp [ha.queued, hst]
  have hleaves : Leaves r { r with remoteFree := r.remoteFree ++ [h.index] } stage j
      (loc j).frame.locks :=
    ⟨rfl, fun _ hp => hp, fun _ => le_rfl, fun _ _ _ _ _ => rfl, fun _ => ⟨rfl, rfl⟩⟩
  have hmoves : Moves r { r with remoteFree := r.remoteFree ++ [h.index] } loc stage j
      ((loc j).goto (.setPending h)) h.index .queued := by
    refine ⟨rfl, rfl, hcap, .same ha.freeNodup (ha.free _) (by simp [hst]) (by simp),
      .same ha.scratchNodup (ha.scratch _) (by simp [hst]) (by simp),
      .append ha.queueNodup hnq rfl, fun _ _ => rfl, ⟨hfull, hgen⟩,
      holds_own (fun k m hh => ?_) (fun k m => ?_), held_unique hst, by simp, ?_⟩
    · simp only [hhold, EpochHandle.spare, if_pos hk.1, Option.some.injEq, Prod.mk.injEq] at hh
      exact hh.1.symm
    · simp [Thread.goto, Frame.holding]
    · simp [hst, Stage.counted]
  exact ⟨⟨_, ha.move_dead hmoves rfl rfl (by simp [hst]) (by simp)⟩, hleaves, hk.2.1,
    .keep rfl (by simp [mutexHold, hf, Thread.goto, Frame.locks]),
    .keep rfl (by simp [winnerHold, hf, Thread.goto, Frame.winner]), hs, hr.leaves hleaves rfl⟩

/-- A remote removal leaves the hint and answers. -/
lemma setPending_steps (ha : Agrees r loc stage) (hs : r.locked = false → r.drainScratch = [])
    (hr : Returned r) {h : EpochHandle} (hf : (loc j).frame = .setPending h)
    (hw : winnerView r h = some ()) :
    Steps r (advance r (loc j)).1 loc stage j (advance r (loc j)).2 := by
  simp only [advance, hf, returnRemoved]
  set r₁ : Region V := { r with remoteFreePending := true, removed := r.removed ++ [h] } with hr₁
  have hleaves : Leaves r r₁ stage j (loc j).frame.locks :=
    ⟨rfl, fun _ hp => hp, fun _ => le_rfl, fun _ _ _ _ _ => rfl, fun _ => ⟨rfl, rfl⟩⟩
  refine ⟨⟨stage, ha.stay rfl rfl rfl rfl rfl rfl rfl rfl ?_⟩, hleaves, trivial, ?_, ?_, hs,
    hr.removed hw hleaves rfl⟩
  · simp [hf, Thread.return, Frame.holding]
  · exact .keep rfl (by simp [mutexHold, hf, Thread.return, Frame.locks])
  · exact .release h () (by simp [winnerHold, hf, Frame.winner])
      (winnerView_return rfl (fun _ => rfl) rfl) rfl

/-! ## The drain of the queue -/

omit [DecidableEq ι] in
/-- What follows a drain has the slots that the drain had. -/
lemma afterDrain_frame (r : Region V) (checked : Option (List ℕ)) (k : After V) :
    (afterDrain r checked k).holding = k.handle.bind EpochHandle.spare ∧
      (afterDrain r checked k).winner = k.handle ∧ (afterDrain r checked k).locks = true := by
  cases k with
  | remove h => exact ⟨rfl, rfl, rfl⟩
  | insert v forced =>
    cases forced with
    | true => exact ⟨rfl, rfl, rfl⟩
    | false =>
      simp only [afterDrain]
      split_ifs <;> exact ⟨rfl, rfl, rfl⟩

omit [DecidableEq ι] in
/-- A drain is done when it looked at the queue, or was not the one that has to look at it. -/
lemma afterDrain_knows {checked : Option (List ℕ)} {k : After V} (hs : r.drainScratch = [])
    (hk : k.Knows r) (hc : ∀ seen, checked = some seen → r.free = [] → seen = [])
    (hn : checked = none → k.hinted = true) : Knows r (afterDrain r checked k) := by
  cases k with
  | remove h => exact ⟨hs, hk⟩
  | insert v forced =>
    have hpop : (r.free = [] → checked ≠ none) → Knows r (.pop v checked) := by
      refine fun hne => ⟨hs, fun hf => ?_⟩
      obtain ⟨seen, rfl⟩ := Option.ne_none_iff_exists'.mp (hne hf)
      rw [hc seen rfl hf]
    cases forced with
    | true => exact hpop fun _ he => by simpa [After.hinted] using hn he
    | false =>
      simp only [afterDrain]
      split_ifs with hif
      · exact ⟨hs, trivial⟩
      · exact hpop fun hf he => hif ⟨hf, he⟩

/-- A step of a drain that goes on or ends, and moves no slot. -/
lemma Steps.drain (ha : Agrees r loc stage) (hs : r.locked = false → r.drainScratch = [])
    (hr : Returned r) (hq : Quiet r r') {k : After V} {f : Frame V}
    (hold : (loc j).frame.holding = k.handle.bind EpochHandle.spare)
    (hwin : (loc j).frame.winner = k.handle) (hlock : (loc j).frame.locks = true)
    (hf : f.holding = k.handle.bind EpochHandle.spare ∧ f.winner = k.handle ∧ f.locks = true)
    (hknows : Knows r f) : Steps r r' loc stage j ((loc j).goto f) :=
  .quiet ha hs hr hq (hf.1.trans hold.symm) (hf.2.2.trans hlock.symm) (hf.2.1.trans hwin.symm) hknows

/-- The queue goes to the drain as a whole. -/
lemma swapQueue_steps (ha : Agrees r loc stage) (hs : r.locked = false → r.drainScratch = [])
    (hr : Returned r) (hl : r.locked = true) {k : After V}
    (hf : (loc j).frame = .swapQueue k) (hk : Knows r (loc j).frame) :
    Steps r (advance r (loc j)).1 loc stage j (advance r (loc j)).2 := by
  rw [hf] at hk
  obtain ⟨hscratch, hknows⟩ := hk
  by_cases hempty : r.remoteFree = []
  · have hadv : advance r (loc j) = ({ r with queueLocked := false },
        (loc j).goto (afterDrain r (some (r.free ++ r.remoteFree)) k)) := by
      simp only [advance, hf]
      rw [if_pos hempty]
    rw [hadv]
    refine .drain ha hs hr (by constructor <;> rfl) (by rw [hf]; rfl) (by rw [hf]; rfl)
      (by rw [hf]; rfl) (afterDrain_frame ..) (afterDrain_knows hscratch hknows ?_ (by simp))
    rintro seen he hfree
    rw [← Option.some.inj he, hfree, hempty]
    rfl
  · set r₁ : Region V :=
      { r with queueLocked := false, remoteFree := r.drainScratch, drainScratch := r.remoteFree }
      with hr₁
    have hadv : advance r (loc j) =
        (r₁, (loc j).goto (.drainNext k (r.free ++ r.remoteFree))) := by
      simp only [advance, hf]
      rw [if_neg hempty]
    have hleaves : Leaves r r₁ stage j (loc j).frame.locks :=
      ⟨rfl, fun _ hp => hp, fun _ => le_rfl, fun _ _ _ _ _ => rfl,
        fun hl => absurd hl (by simp [hf, Frame.locks])⟩
    have hno : ∀ i, stage i ≠ .scratch := fun i hi => by
      have hmem := (ha.scratch i).mpr hi
      simp [hscratch] at hmem
    -- Every queued slot moves at once.
    set stage' : ℕ → Stage ι := fun i => if stage i = .queued then .scratch else stage i with hstage'
    have hother : ∀ i st, st ≠ .scratch → st ≠ .queued → (stage' i = st ↔ stage i = st) := by
      intro i st h₁ h₂
      simp only [hstage']
      split_ifs with hi
      · rw [hi]
        exact iff_of_false h₁.symm h₂.symm
      · exact Iff.rfl
    have hsame : ∀ i, (stage' i).counted = (stage i).counted := by
      intro i
      simp only [hstage']
      split_ifs with hi
      · rw [hi]
        rfl
      · rfl
    rw [hadv]
    refine ⟨⟨stage', ?_⟩, hleaves, ⟨id, ?_⟩, ?_, ?_, fun hl' => absurd (hl.symm.trans hl') (by simp),
      hr.leaves hleaves rfl⟩
    · constructor
      · intro i hi
        exact ha.bound i fun he => hi ((hother i _ (by simp) (by simp)).mpr he)
      · intro i
        exact (ha.free i).trans (hother i _ (by simp) (by simp)).symm
      · intro i
        refine (ha.queued i).trans ?_
        simp only [hstage']
        split_ifs with hi
        · exact iff_of_true hi rfl
        · exact iff_of_false hi (hno i)
      · intro i
        refine (ha.scratch i).trans ?_
        simp only [hstage']
        split_ifs with hi
        · simp [hi]
        · exact iff_of_false (hno i) hi
      · exact ha.freeNodup
      · exact ha.queueNodup
      · exact ha.scratchNodup
      · intro i hi
        have hfits := ha.fits i hi
        simp only [hstage']
        split_ifs with hq
        · rw [hq] at hfits
          exact hfits
        · exact hfits
      · intro j' i m
        rw [hother i _ (by simp) (by simp), ← ha.held]
        by_cases hj : j' = j
        · subst j'
          rw [Function.update_self, hf]
          rfl
        · rw [Function.update_of_ne hj]
      · simp only [hsame]
        exact ha.len
      · exact ha.small
      · intro p hp
        obtain ⟨h₁, h₂, h₃⟩ := ha.known p hp
        refine ⟨h₁, h₂, h₃.imp_right ?_⟩
        rintro ⟨hg, hlive, hv⟩
        exact ⟨hg, (hother _ _ (by simp) (by simp)).mpr hlive, hv⟩
      · intro i hi
        exact ha.live i ((hother i _ (by simp) (by simp)).mp hi)
      · exact ha.distinct
    · cases k with
      | insert => trivial
      | remove => exact hknows
    · exact .keep rfl (by simp [mutexHold, hf, Thread.goto, Frame.locks])
    · exact .keep rfl (by simp [winnerHold, hf, Thread.goto, Frame.winner])

/-! ## Every action -/

omit [DecidableEq ι] in
/-- A read that found a value: it is the one of the handle, or the handle was removed. -/
lemma loaded (ha : Agrees r loc stage) {h : EpochHandle} (hh : h ∈ r.handles) {v : V}
    (hv : (r.slots h.index).value = some v) :
    h.generation < (r.slots h.index).generation ∨ (h, v) ∈ r.inserted := by
  obtain ⟨⟨h, v'⟩, hp, rfl⟩ := List.mem_map.mp hh
  obtain ⟨-, -, hlt | ⟨-, -, hval⟩⟩ := ha.known _ hp
  · exact .inl hlt
  · obtain rfl := Option.some.inj (hval.symm.trans hv)
    exact .inr hp

/-- What the next action of a call keeps. -/
theorem advance_steps (ha : Agrees r loc stage) (hs : r.locked = false → r.drainScratch = [])
    (hr : Returned r) (hl : (loc j).frame.locks = true → r.locked = true)
    (hw : ∀ h, (loc j).frame.winner = some h → winnerView r h = some ())
    (hk : Knows r (loc j).frame) :
    Steps r (advance r (loc j)).1 loc stage j (advance r (loc j)).2 := by
  have stays : advance r (loc j) = (r, loc j) →
      Steps r (advance r (loc j)).1 loc stage j (advance r (loc j)).2 := fun he => by
    rw [he]
    exact .quiet ha hs hr (.refl r) rfl rfl rfl hk
  -- A read, or a removal that did not win.
  have plain : ∀ t' : Thread V, (loc j).frame.holding = none → (loc j).frame.locks = false →
      (loc j).frame.winner = none → t'.frame.holding = none → t'.frame.locks = false →
      t'.frame.winner = none → Knows r t'.frame → Steps r r loc stage j t' :=
    fun t' h₁ h₂ h₃ h₄ h₅ h₆ hk' =>
      .quiet ha hs hr (.refl r) (h₄.trans h₁.symm) (h₅.trans h₂.symm) (h₆.trans h₃.symm) hk'
  have hk' := hk
  cases hf : (loc j).frame with
  | idle => exact stays (by simp only [advance, hf])
  | firstGeneration h =>
    rw [hf] at hk'
    simp only [advance, hf]
    refine plain _ (by rw [hf]; rfl) (by rw [hf]; rfl) (by rw [hf]; rfl) ?_ ?_ ?_ ?_ <;>
      split_ifs <;> first | rfl | exact hk' | trivial
  | loadValue h =>
    rw [hf] at hk'
    simp only [advance, hf]
    cases hv : (r.slots h.index).value with
    | none => exact plain _ (by rw [hf]; rfl) (by rw [hf]; rfl) (by rw [hf]; rfl) rfl rfl rfl trivial
    | some v =>
      exact plain _ (by rw [hf]; rfl) (by rw [hf]; rfl) (by rw [hf]; rfl) rfl rfl rfl
        ⟨hk', loaded ha hk' hv⟩
  | secondGeneration h v =>
    simp only [advance, hf]
    refine plain _ (by rw [hf]; rfl) (by rw [hf]; rfl) (by rw [hf]; rfl) ?_ ?_ ?_ ?_ <;>
      split_ifs <;> first | rfl | trivial
  | hint k =>
    rw [hf] at hk'
    obtain ⟨hscratch, hknows, hhint⟩ := hk'
    simp only [advance, hf]
    refine .drain (k := k) ha hs hr (.refl r) (by rw [hf]; rfl) (by rw [hf]; rfl) (by rw [hf]; rfl)
      ?_ ?_
    · split_ifs
      · exact ⟨rfl, rfl, rfl⟩
      · exact afterDrain_frame ..
    · split_ifs
      · exact ⟨hscratch, hknows⟩
      · exact afterDrain_knows hscratch hknows (by simp) fun _ => hhint
  | lockQueue k =>
    rw [hf] at hk'
    by_cases hq : r.queueLocked = true
    · exact stays (by simp only [advance, hf, hq, if_true])
    · simp only [advance, hf]
      rw [if_neg hq]
      exact .drain (k := k) ha hs hr (by constructor <;> rfl) (by rw [hf]; rfl) (by rw [hf]; rfl)
        (by rw [hf]; rfl) ⟨rfl, rfl, rfl⟩ hk'
  | clearHint k =>
    rw [hf] at hk'
    simp only [advance, hf]
    exact .drain (k := k) ha hs hr (by constructor <;> rfl) (by rw [hf]; rfl) (by rw [hf]; rfl)
      (by rw [hf]; rfl) ⟨rfl, rfl, rfl⟩ hk'
  | swapQueue k => exact swapQueue_steps ha hs hr (hl (by rw [hf]; rfl)) hf hk
  | drainNext k seen =>
    cases hi : r.drainScratch with
    | cons i rest => exact drainNext_steps ha hr (hl (by rw [hf]; rfl)) hf hk hi
    | nil =>
      rw [hf] at hk'
      simp only [advance, hf, hi]
      refine .drain (k := k) ha hs hr (.refl r) (by rw [hf]; rfl) (by rw [hf]; rfl)
        (by rw [hf]; rfl) (afterDrain_frame ..) (afterDrain_knows hi hk'.2 ?_ (by simp))
      rintro seen' he hfree
      rw [← Option.some.inj he]
      exact hk'.1 (by rw [hfree, hi]; rfl)
  | lockInsert v =>
    by_cases hlock : r.locked = true
    · exact stays (by simp only [advance, hf, hlock, if_true])
    · simp only [advance, hf]
      rw [if_neg hlock]
      have hfree := Bool.eq_false_iff.mpr hlock
      exact .lock ha hr hfree (by rw [hf]; rfl) (by rw [hf]; rfl) rfl (by rw [hf]; rfl)
        ⟨hs hfree, trivial, rfl⟩
  | pop v seen =>
    cases hi : r.free with
    | cons i rest => exact pop_steps ha hr (hl (by rw [hf]; rfl)) hf hk hi
    | nil => exact popNone_steps ha hr hf hk hi
  | loadGeneration i v =>
    rw [hf] at hk'
    simp only [advance, hf]
    exact .quiet ha hs hr (.refl r) (by rw [hf]; rfl) (by rw [hf]; rfl) (by rw [hf]; rfl)
      ⟨hk'.1, hk'.2, rfl⟩
  | count i g v => exact count_steps ha hr (hl (by rw [hf]; rfl)) hf hk
  | unlockInsert h v => exact unlockInsert_steps ha hr hf hk
  | evict h remote =>
    by_cases hg : h.generation ≠ maxGeneration ∧ (r.slots h.index).generation = h.generation
    · exact evict_steps ha hs hr hf hk hg.1 hg.2
    · simp only [advance, hf]
      rw [if_neg hg]
      exact plain _ (by rw [hf]; rfl) (by rw [hf]; rfl) (by rw [hf]; rfl) rfl rfl rfl trivial
  | swapValue h remote => exact swapValue_steps ha hs hr hf hk
  | uncount h remote => exact uncount_steps ha hs hr hf hk (hw h (by rw [hf]; rfl))
  | lockRemove h =>
    rw [hf] at hk'
    by_cases hlock : r.locked = true
    · exact stays (by simp only [advance, hf, hlock, if_true])
    · simp only [advance, hf]
      rw [if_neg hlock]
      have hfree := Bool.eq_false_iff.mpr hlock
      exact .lock ha hr hfree (by rw [hf]; rfl) (by rw [hf]; rfl) rfl (by rw [hf]; rfl)
        ⟨hs hfree, hk', rfl⟩
  | giveBack h => exact giveBack_steps ha hr hf hk (hw h (by rw [hf]; rfl))
  | enqueue h =>
    by_cases hq : r.queueLocked = true
    · exact stays (by simp only [advance, hf, hq, if_true])
    · exact enqueue_steps ha hs hr hf hk (Bool.eq_false_iff.mpr hq)
  | setPending h => exact setPending_steps ha hs hr hf (hw h (by rw [hf]; rfl))

/-- What an action of a thread keeps. -/
theorem act_steps (c : Command V) (ha : Agrees r loc stage)
    (hs : r.locked = false → r.drainScratch = []) (hr : Returned r)
    (hl : (loc j).frame.locks = true → r.locked = true)
    (hw : ∀ h, (loc j).frame.winner = some h → winnerView r h = some ())
    (hk : Knows r (loc j).frame) :
    Steps r (act c r (loc j)).1 loc stage j (act c r (loc j)).2 := by
  have quiet : ∀ t' : Thread V, t'.frame.holding = (loc j).frame.holding →
      t'.frame.locks = (loc j).frame.locks → t'.frame.winner = (loc j).frame.winner →
      Knows r t'.frame → Steps r r loc stage j t' := fun t' => .quiet ha hs hr (.refl r)
  -- A call that looks at its handle.
  have begins : ∀ (h : EpochHandle) (f : Frame V) (a : Answer V), (loc j).frame = .idle →
      f.holding = none → f.locks = false → f.winner = none → (h ∈ r.handles → Knows r f) →
      Steps r r loc stage j (if r.known h then begin r h f a (loc j) else loc j) := by
    intro h f a hidle h₁ h₂ h₃ hf
    unfold begin
    split_ifs with hkn hb
    · refine quiet _ (h₁.trans (by rw [hidle]; rfl)) (h₂.trans (by rw [hidle]; rfl))
        (h₃.trans (by rw [hidle]; rfl)) (hf ?_)
      exact (of_decide_eq_true hkn).resolve_left fun hne => hne hb.1
    · exact quiet _ (by rw [hidle]; rfl) (by rw [hidle]; rfl) (by rw [hidle]; rfl) trivial
    · exact quiet _ rfl rfl rfl hk
  cases c with
  | go => exact advance_steps ha hs hr hl hw hk
  | getWith h =>
    cases hf : (loc j).frame with
    | idle =>
      simp only [act, hf]
      exact begins h _ _ hf rfl rfl rfl id
    | _ =>
      simp only [act, hf]
      exact quiet _ rfl rfl rfl hk
  | insert v =>
    cases hf : (loc j).frame with
    | idle =>
      simp only [act, hf]
      exact quiet _ (by rw [hf]; rfl) (by rw [hf]; rfl) (by rw [hf]; rfl) trivial
    | _ =>
      simp only [act, hf]
      exact quiet _ rfl rfl rfl hk
  | remove h =>
    cases hf : (loc j).frame with
    | idle =>
      simp only [act, hf]
      exact begins h _ _ hf rfl rfl rfl id
    | _ =>
      simp only [act, hf]
      exact quiet _ rfl rfl rfl hk
  | remoteEvict h =>
    cases hf : (loc j).frame with
    | idle =>
      simp only [act, hf]
      exact begins h _ _ hf rfl rfl rfl id
    | _ =>
      simp only [act, hf]
      exact quiet _ rfl rfl rfl hk

end Moves

end Epoch

end SeferAlloc
