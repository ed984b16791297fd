import SeferAlloc.LargeHeapOperations

/-!
# The Large cache over whole runs

Every run from an empty heap ends without an abort, and what the invariant says
of the reached heap is read off: the slots, the bits and the counter agree, and
each deposit of the history has one end.
-/
namespace SeferAlloc
namespace LargeHeap
open LargeCache CacheLedger
open LargeReservation (Transition LargePhase packLargeState largePhase largeGeneration
  nextLargeGeneration pack maxLargeGeneration)
open LargeCache.Cache (Wf Frame Quiet totalSlots)

namespace Heap
variable {h h' : Heap} {busy : Option ℕ} {i base : ℕ} {x : CachedLarge}

lemma step_spec (hi : h.Inv none) (cmd : Command) :
    ∃ h', h.step cmd = some h' ∧ h'.Inv none ∧ h'.cache.config = h.cache.config := by
  cases cmd with
  | alloc size align answers =>
      obtain ⟨r, hr, hout⟩ := allocLarge_spec hi answers size align
      refine ⟨r.2, by rw [step, hr]; rfl, ?_⟩
      obtain ⟨-, hu, -⟩ | ⟨-, -, base, span, hp, -⟩ := hout
      · exact ⟨hu.inv, hu.config⟩
      · exact ⟨hp.inv, hp.config⟩
  | dealloc base now grants =>
      rw [step]
      split_ifs with hreg
      · obtain ⟨h', he, hf⟩ := deallocLargeAtBase_spec hi hreg now grants
        exact ⟨h', he, hf.inv, hf.config⟩
      · exact ⟨h, rfl, hi, rfl⟩
  | reclaim base now grants =>
      rw [step]
      split_ifs with hreg
      · obtain ⟨h', he, hf⟩ := reclaimLargeSegment_spec hi hreg now grants
        exact ⟨h', he, hf.inv, hf.config⟩
      · exact ⟨h, rfl, hi, rfl⟩
  | grow base ptr oldSize newSize commits =>
      rw [step]
      split_ifs
      · refine ⟨_, rfl, ?_⟩
        cases hg : h.reallocLargeInplace base ptr oldSize newSize commits with
        | none => exact ⟨hi, rfl⟩
        | some h' =>
            have hr := reallocLargeInplace_spec hi hg
            exact ⟨hr.inv, congrArg Cache.config hr.cache⟩
      · exact ⟨h, rfl, hi, rfl⟩
  | evictAll =>
      obtain ⟨h', he, hk⟩ := evictAll_spec hi
      exact ⟨h', he, hk.inv, hk.config⟩

lemma run_inv (cmds : List Command) (hi : h.Inv none) :
    ∃ h', run cmds h = some h' ∧ h'.Inv none ∧ h'.cache.config = h.cache.config := by
  induction cmds generalizing h with
  | nil => exact ⟨h, rfl, hi, rfl⟩
  | cons cmd cmds ih =>
      obtain ⟨h₁, hs, hi₁, hc₁⟩ := step_spec hi cmd
      obtain ⟨h₂, hr, hi₂, hc₂⟩ := ih hi₁
      exact ⟨h₂, by rw [run, hs, Option.bind_some, hr], hi₂, hc₂.trans hc₁⟩

/-! ## The cache of a reached heap -/

/-- A heap before its first Large allocation. -/
structure Fresh (h : Heap) : Prop where
  slots : ∀ i, h.cache.slots i = none
  occupied : h.cache.occupied = 0
  extension : h.cache.extension = none
  usedBytes : h.cache.usedBytes = 0
  registered : ∀ b, h.registered b = false
  log : h.log = []

lemma Fresh.slotGet (hf : h.Fresh) (i : ℕ) : h.cache.slotGet i = none := by
  rw [Cache.slotGet]
  split_ifs
  · exact hf.slots i
  · rw [hf.extension]
    rfl

lemma Fresh.inv (hf : h.Fresh) : h.Inv none := by
  have hno : ∀ {i x}, h.cache.slotGet i ≠ some x := by simp [hf.slotGet]
  have hl : ∀ b, h.ledger b = .absent := fun b => by rw [ledger, hf.log]; rfl
  refine ⟨⟨fun i _ => ?_, fun i x hx => absurd hx hno, by simp [hf.extension], ?_, fun b _ => ?_,
    fun i j x y hx => absurd hx hno⟩, by rw [hf.log]; trivial, fun i x hx => absurd hx hno,
    fun b e hb => ?_, fun b => ?_, fun b hb => ?_, fun i x hx => absurd hx hno⟩
  · rw [hf.slotGet]
    have hocc : ∀ w, h.cache.occWords w = 0 := fun w => by
      simp only [Cache.occWords, hf.occupied, hf.extension, ite_self]
    rw [BitWord.member, hocc]
    simp
  · rw [hf.usedBytes, Cache.sumUsable]
    simp [Cache.usableAt, hf.slotGet]
  · rw [hf.usedBytes]
    exact Nat.zero_le _
  · rw [hl] at hb
    cases hb
  · rw [hl, hf.registered]
    simp
  · rw [hf.registered] at hb
    contradiction

/-- Slot `i` holds the entry. -/
def Holds (h : Heap) (i : ℕ) (e : Entry ℕ) : Prop := ∃ x, h.cache.slotGet i = some x ∧ entry x = e

structure Integrity (h : Heap) : Prop where
  bit : ∀ i < totalSlots,
    BitWord.member h.cache.occWords i = true ↔ ∃ x, h.cache.slotGet i = some x
  below : ∀ i x, h.cache.slotGet i = some x → i < h.cache.scanBound ∧ i < totalSlots
  used : h.cache.usedBytes =
    ∑ i ∈ Finset.range totalSlots, (h.cache.slotGet i).elim 0 CachedLarge.usableSize
  /-- Every subtraction from the byte counter was of at most the counter. -/
  exact : ∀ v ∈ h.log, ∀ e used, v.withdrawal = some (e, used) → e.weight ≤ used
  budget : ∀ b, h.cache.effectiveBudget = some b → h.cache.usedBytes ≤ b
  once : ∀ i j e d, h.Holds i e → h.Holds j d → e.key = d.key → i = j
  /-- What has been deposited sits in a slot, or the next event about it withdrew it. -/
  fate : ∀ before e after, h.log = before ++ .deposited e :: after →
    ((∃ i, h.Holds i e) ∧ ∀ v ∈ after, v.key ≠ e.key) ∨
      ∃ mid v rest used, after = mid ++ v :: rest ∧ v.withdrawal = some (e, used) ∧
        ∀ w ∈ mid, w.key ≠ e.key
  /-- What is withdrawn was deposited, and nothing happened to it since. -/
  origin : ∀ before v after e used, h.log = before ++ v :: after →
    v.withdrawal = some (e, used) →
      ∃ pre mid, before = pre ++ .deposited e :: mid ∧ ∀ w ∈ mid, w.key ≠ e.key
  /-- What sits in a slot was deposited, and nothing happened to it since. -/
  deposited : ∀ i e, h.Holds i e →
    ∃ pre post, h.log = pre ++ .deposited e :: post ∧ ∀ w ∈ post, w.key ≠ e.key
  /-- An eviction takes the smallest sequence number of what is cached then. -/
  oldest : ∀ before e used after, h.log = before ++ .evicted e used :: after →
    ∀ k d, Ledger.after (fun _ => .absent) before k = .cached d → e.stamp ≤ d.stamp

lemma origin_of_cached {es : List (Event ℕ)} {k : ℕ} {e : Entry ℕ}
    (hc : Ledger.after (fun _ => .absent) es k = .cached e) :
    ∃ pre post, es = pre ++ .deposited e :: post ∧ ∀ w ∈ post, w.key ≠ e.key := by
  obtain h0 | ⟨pre, post, hes, rfl, hout⟩ := Ledger.origin hc
  · cases h0
  · exact ⟨pre, post, hes, hout⟩

lemma Inv.integrity (hi : h.Inv none) : h.Integrity := by
  refine ⟨fun i hi' => ?_, fun i x hx => ⟨hi.wf.below i x hx, hi.wf.lt_total hx⟩, hi.wf.used,
    fun v hv e used hw => ?_, hi.wf.budget, ?_, fun before e after hlog => ?_,
    fun before v after e used hlog hw => ?_, ?_, fun before e used after hlog => ?_⟩
  · rw [hi.wf.bit i hi']
    exact Option.isSome_iff_exists
  · obtain ⟨before, after, hlog⟩ := List.append_of_mem hv
    have hf := hi.follows
    rw [hlog] at hf
    exact (hf.fits.cached hw).2
  · rintro i j _ _ ⟨x, hx, rfl⟩ ⟨y, hy, rfl⟩ hxy
    exact hi.wf.once i j x y hx hy hxy
  · have hf := hi.follows
    rw [hlog, follows_append] at hf
    have hdep : ((Ledger.after (fun _ => .absent) before).record (.deposited e)) e.key = .cached e :=
      Ledger.record_self _ (.deposited e)
    obtain ⟨hstay, hout⟩ | hw := Follows.fate hf.2.2 hdep
    · refine .inl ⟨?_, hout⟩
      have hnow : h.ledger e.key = .cached e := by
        rw [ledger, hlog, Ledger.after_append]
        exact hstay
      obtain ⟨i, x, hx, hxe⟩ := hi.cached e.key e hnow
      exact ⟨i, x, hx, hxe⟩
    · exact .inr hw
  · have hf := hi.follows
    rw [hlog] at hf
    exact origin_of_cached (hf.fits.cached hw).1
  · rintro i _ ⟨x, hx, rfl⟩
    exact origin_of_cached (hi.slot i x hx)
  · have hf := hi.follows
    rw [hlog] at hf
    exact hf.fits.2.2

end Heap

/-- Every run ends, without an abort and with the budget it began with, in a heap whose cache
is intact. -/
theorem run_integrity (cmds : List Command) {h : Heap} (hf : h.Fresh) :
    ∃ h', h.run cmds = some h' ∧ h'.Integrity ∧ h'.cache.config = h.cache.config := by
  obtain ⟨h', hr, hi, hc⟩ := Heap.run_inv cmds hf.inv
  exact ⟨h', hr, hi.integrity, hc⟩

/-- A heap with room for two segments of 4 MiB in its budget, and no decay. -/
def twoSegmentHeap : Heap where
  build := ⟨256, 4096, false, false⟩
  cache := ⟨⟨some (2 * segment), 0, 0, 0, false, false⟩, fun _ => none, 0, none, 0, 0, none, 0⟩
  header _ := ⟨0, 0, 0, 0, 0, 0, 0, 0⟩
  registered _ := false
  log := []

lemma twoSegmentHeap_fresh : twoSegmentHeap.Fresh :=
  ⟨fun _ => rfl, rfl, rfl, rfl, fun _ => rfl, rfl⟩

/-- An allocation, its free, and an allocation that reuses the segment. -/
def reuseRun : List Command :=
  [.alloc 1000000 16 ⟨0, true, some ⟨segment, segment, segment⟩, true⟩,
    .dealloc segment 0 fun _ => false, .alloc 2000000 16 ⟨0, true, none, true⟩]

theorem reuseRun_integrity :
    ∃ h', twoSegmentHeap.run reuseRun = some h' ∧ h'.Integrity ∧
      h'.cache.config = twoSegmentHeap.cache.config :=
  run_integrity reuseRun twoSegmentHeap_fresh

end LargeHeap
end SeferAlloc
