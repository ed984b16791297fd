import SeferAlloc.SmallBatchDrains
import SeferAlloc.SmallHeapTraffic

/-!
# Batch flushes

A flush links the blocks of a run behind each other and stores the head and the
counter at the end. The counter of a segment does not reach zero before the last
of its blocks is back, so the segment leaves once, after the run, as it leaves
after the last of the single frees.
-/
namespace SeferAlloc
namespace SmallBatch
open Small IntrusiveList ClassLeaves

/-! ## Segments -/

section
variable {bd : Small.Build} {s : Segment} {b : Blocks} {cls x L : ℕ} {prev : Option ℕ}

lemma setState_held (h : Represents bd s b) (hx : (x, cls) ∈ b.carved) (st : BlockState) :
    s.setState bd x st = s.writeByte bd x cls st := by
  rw [Segment.setState, Segment.writeByte]
  split_ifs with ht
  · rw [show s.byte (x / minBlock) = _ from h.bytes ht _ hx,
      encode_setState (h.in_payload hx).2.2.2]
  · rfl

/-- The free of a block that the callers hold, once it is LIVE. -/
lemma deallocSmall_unparked (h : Represents bd (s.settle cls prev L) b)
    (hx : (x, cls) ∈ b.carved) (hne : b.place x ≠ .free) :
    ((s.settle cls prev L).setState bd x .live).deallocSmall bd x cls =
      some (((s.writeNext x prev).writeByte bd x cls .free).settle cls (some x) (L - 1), true) := by
  have hlive : BlockState.live ≠ .free := by decide
  obtain ⟨hL, -⟩ := h.give hx hne
  have hrep := setState_spec h hx hne hlive
  obtain ⟨h1, h2, h3, h63⟩ := hrep.in_payload hx
  have hbyte : bd.tracked = true →
      ((s.settle cls prev L).setState bd x .live).byte (x / minBlock) = encode cls .live := by
    intro ht
    rw [hrep.bytes ht _ hx]
    simp [Blocks.put]
  have haccept : ¬(bd.tracked = true ∧ (x < bd.payloadStart
      ((s.settle cls prev L).setState bd x .live).kind ∨
        ((s.settle cls prev L).setState bd x .live).bump ≤ x ∨ x % minBlock ≠ 0 ∨
        ((s.settle cls prev L).setState bd x .live).byte (x / minBlock) ≠ encode cls .live)) := by
    rintro ⟨ht, hc⟩
    rcases hc with hc | hc | hc | hc
    · omega
    · omega
    · exact hc h3
    · exact hc (hbyte ht)
  rw [Segment.deallocSmall, if_neg haccept, if_neg (by simpa using h3), setState_held h hx]
  have hstate : (((((s.settle cls prev L).writeByte bd x cls .live).writeNext x
      (((s.settle cls prev L).writeByte bd x cls .live).head cls)).setHead cls
        (some x)).writeByte bd x cls .free) =
      ((s.writeNext x prev).writeByte bd x cls .free).settle cls (some x) L := by
    simp only [Segment.writeByte, Segment.writeNext, Segment.setHead, Segment.settle]
    split_ifs <;> simp
  rw [hstate, Segment.subLive, if_pos (by exact hL)]
  simp [Segment.settle]

end

/-! ## Runs of one segment -/

namespace AllocCore

variable {bd : Build} {c : AllocCore} {base cls : ℕ} {b : Blocks}

/-- A list gets a block, and the directory learns of it if the list was empty. -/
def enlist (bd : Build) (c : AllocCore) (base cls : ℕ) (oldHead : Option ℕ) (s : Segment) :
    AllocCore :=
  if oldHead = none then (c.setSeg base s).publishNonempty bd base cls else c.setSeg base s

@[simp] lemma homes_enlist (oldHead : Option ℕ) (s : Segment) :
    (c.enlist bd base cls oldHead s).homes base = { c.homes base with seg := s } := by
  rw [enlist]
  split_ifs
  · exact homes_setHome c base _
  · exact homes_setHome c base _

/-- The core after a command that was about one segment. -/
structure About (c c' : AllocCore) (base : ℕ) : Prop where
  registered : c'.registered = c.registered
  current : c'.smallCur = c.smallCur
  homes : ∀ x, x ≠ base → c'.homes x = c.homes x

lemma about_setHome (c : AllocCore) (base : ℕ) (home : Home) :
    c.About (c.setHome base home) base := ⟨rfl, rfl, fun _ hx => Function.update_of_ne hx _ _⟩

lemma about_enlist (c : AllocCore) (base cls : ℕ) (oldHead : Option ℕ) (s : Segment) :
    c.About (c.enlist bd base cls oldHead s) base := by
  rw [enlist]
  split_ifs
  · exact ⟨rfl, rfl, fun _ hx => Function.update_of_ne hx _ _⟩
  · exact about_setHome ..

/-- A second block finds the list it goes on not empty. -/
lemma enlist_enlist (oldHead : Option ℕ) (x : ℕ) (s s' : Segment) :
    (c.enlist bd base cls oldHead s).enlist bd base cls (some x) s' =
      c.enlist bd base cls oldHead s' := by
  have hset : (c.enlist bd base cls oldHead s).setSeg base s' =
      c.enlist bd base cls oldHead s' := by
    rw [enlist, enlist]
    split_ifs
    · simp [publishNonempty, setSeg, setHome]
    · exact setSeg_setSeg ..
  rw [enlist, if_neg (Option.some_ne_none x), hset]

lemma finishFree_of_live {k : ℕ} (h : (c.homes base).seg.live ≠ 0) :
    c.finishFree bd base k = some (c, false) := by
  rw [finishFree, if_neg (by simp [decLiveAndMaybeDecommit, h])]

lemma finishFree_pos {k : ℕ} (hk : k ≠ 0) : c.finishFree bd base k = c.finishFree bd base 1 := by
  simp [finishFree, decLiveAndMaybeDecommit, hk]

/-- One free of a block that the callers hold. -/
lemma free_eq {s : Segment} {p L : ℕ} {prev : Option ℕ} (hp : p ≠ 0)
    (hbase : segmentBaseOfPtr p = base) (hr : c.registered base = true)
    (hs : (c.homes base).seg = s.settle cls prev L)
    (h : Represents bd.small (s.settle cls prev L) b) (hx : (p - base, cls) ∈ b.carved)
    (hne : b.place (p - base) ≠ .free) :
    (c.unpark bd p).deallocPtr bd cls p = ((c.enlist bd base cls prev
      (((s.writeNext (p - base) prev).writeByte bd.small (p - base) cls .free).settle cls
        (some (p - base)) (L - 1))).finishFree bd base 1).map Prod.fst := by
  subst hbase
  have hunpark : c.unpark bd p = c.setSeg (segmentBaseOfPtr p)
      ((s.settle cls prev L).setState bd.small (p - segmentBaseOfPtr p) .live) := by
    rw [unpark, if_neg (by simp [hp, hr]), hs]
  have hhome : (c.unpark bd p).homes (segmentBaseOfPtr p) = { c.homes (segmentBaseOfPtr p) with
      seg := (s.settle cls prev L).setState bd.small (p - segmentBaseOfPtr p) .live } := by
    rw [hunpark, setSeg, homes_setHome]
  have hregistered : (c.unpark bd p).registered = c.registered := by
    rw [hunpark]
    rfl
  have hhead : ((s.settle cls prev L).setState bd.small (p - segmentBaseOfPtr p) .live).head cls =
      prev := by
    rw [setState_held h hx, (writeByte_frame ..).1, settle_head]
  rw [deallocPtr, hregistered, if_neg (by simp [hp, hr]), deallocSmall, hhome]
  simp only [deallocSmall_unparked h hx hne, hhead, Option.bind_eq_bind, Option.bind_some,
    Bool.true_eq_false, if_false, hunpark, setSeg_setSeg]
  rw [enlist]
  cases (if prev = none then _ else _ : AllocCore).finishFree bd (segmentBaseOfPtr p) 1 <;> rfl

/-- The blocks of a run: of one segment, each once, and held by the callers. -/
structure Run (c : AllocCore) (b : Blocks) (base cls : ℕ) (ps : List ℕ) : Prop where
  registered : c.registered base = true
  here : ∀ p ∈ ps, p ≠ 0 ∧ segmentBaseOfPtr p = base
  nodup : (ps.map (· - base)).Nodup
  held : ∀ p ∈ ps, (p - base, cls) ∈ b.carved ∧ b.place (p - base) ≠ .free

/-- Single frees of a run, over the loop of a flush. -/
lemma freeEach_run (ps : List ℕ) {c : AllocCore} {b : Blocks} {s : Segment} {prev : Option ℕ}
    {L : ℕ} (hrun : c.Run b base cls ps) (hs : (c.homes base).seg = s.settle cls prev L)
    (h : Represents bd.small (s.settle cls prev L) b) :
    ∃ s' prev', Segment.flushLoop bd.small cls (ps.map (· - base)) prev s =
        some (s', prev', ps.length) ∧ s'.live = s.live ∧ ps.length ≤ L ∧
      Represents bd.small (s'.settle cls prev' (L - ps.length))
        (b.putAll (ps.map (· - base)) .free) ∧
      freeEach bd cls ps c = if ps = [] then some c else ((c.enlist bd base cls prev
        (s'.settle cls prev' (L - ps.length))).finishFree bd base 1).map Prod.fst := by
  induction ps generalizing c b s prev L with
  | nil =>
      refine ⟨s, prev, rfl, rfl, Nat.zero_le L, ?_, rfl⟩
      rw [List.map_nil, b.putAll_nil, List.length_nil, Nat.sub_zero]
      exact h
  | cons p ps ih =>
      obtain ⟨hp, hbase⟩ := hrun.here p List.mem_cons_self
      obtain ⟨hx, hne⟩ := hrun.held p List.mem_cons_self
      have hnodup := hrun.nodup
      rw [List.map_cons, List.nodup_cons] at hnodup
      obtain ⟨hL, hrep⟩ := h.give hx hne
      set s₁ := (s.writeNext (p - base) prev).writeByte bd.small (p - base) cls .free with hs₁
      have hfree := free_eq hp hbase hrun.registered hs h hx hne
      set c₁ := c.enlist bd base cls prev (s₁.settle cls (some (p - base)) (L - 1)) with hc₁
      have hhome : (c₁.homes base).seg = s₁.settle cls (some (p - base)) (L - 1) := by
        rw [hc₁, homes_enlist]
      have hrun₁ : c₁.Run (b.put (p - base) .free) base cls ps := by
        refine ⟨?_, fun q hq => hrun.here q (List.mem_cons_of_mem _ hq), hnodup.2, fun q hq => ?_⟩
        · rw [hc₁, (about_enlist ..).registered]
          exact hrun.registered
        · obtain ⟨hq₁, hq₂⟩ := hrun.held q (List.mem_cons_of_mem _ hq)
          have hpq : q - base ≠ p - base := fun he => hnodup.1 (he ▸ List.mem_map_of_mem hq)
          exact ⟨hq₁, by simpa [Blocks.put, hpq] using hq₂⟩
      obtain ⟨s', prev', hloop, hlive, hle, hrep', heach⟩ := ih hrun₁ hhome hrep
      refine ⟨s', prev', ?_, hlive.trans (writeByte_frame _ _ _ _).2.1, ?_, ?_, ?_⟩
      · exact flushLoop_held h hx hne hloop
      · rw [List.length_cons]
        omega
      · rw [List.map_cons, b.putAll_cons, List.length_cons, Nat.add_comm, ← Nat.sub_sub]
        exact hrep'
      · rw [freeEach, hfree, if_neg (List.cons_ne_nil p ps)]
        by_cases hnil : ps = []
        · subst hnil
          simp only [List.map_nil, Segment.flushLoop, Option.some.injEq, Prod.mk.injEq] at hloop
          obtain ⟨rfl, rfl, -⟩ := hloop
          rw [List.length_singleton, ← hc₁]
          cases c₁.finishFree bd base 1 with
          | none => rfl
          | some r => rfl
        · -- The next block is still counted, so the segment is not empty yet.
          obtain ⟨q, hq⟩ := List.exists_mem_of_ne_nil ps hnil
          obtain ⟨hqx, hqne⟩ := hrun₁.held q hq
          have hcounted : (c₁.homes base).seg.live ≠ 0 := by
            rw [hhome]
            exact Nat.one_le_iff_ne_zero.mp (hrep.give hqx hqne).1
          rw [finishFree_of_live hcounted]
          simp only [Option.map_some, Option.bind_eq_bind, Option.bind_some]
          rw [heach, if_neg hnil, hc₁, enlist_enlist, List.length_cons, Nat.sub_sub,
            Nat.add_comm 1]

/-- A flush of a run is its single frees. -/
lemma flushRun_eq {ps : List ℕ} (hrun : c.Run b base cls ps) (hne : ps ≠ [])
    (h : Represents bd.small (c.homes base).seg b) :
    ∃ s', Represents bd.small s' (b.putAll (ps.map (· - base)) .free) ∧
      c.flushRun bd base cls (ps.map (· - base)) = (c.enlist bd base cls
        ((c.homes base).seg.head cls) s').finishFree bd base 1 ∧
      freeEach bd cls ps c = ((c.enlist bd base cls
        ((c.homes base).seg.head cls) s').finishFree bd base 1).map Prod.fst := by
  set s := (c.homes base).seg with hs
  have hself : s = s.settle cls (s.head cls) s.live := (Segment.settle_self _ _).symm
  obtain ⟨s', prev', hloop, hlive, hle, hrep, heach⟩ :=
    freeEach_run ps hrun (hs.symm.trans hself) (hself ▸ h)
  rw [if_neg hne] at heach
  refine ⟨_, hrep, ?_, heach⟩
  have hlen : ps.length ≠ 0 := by simpa using hne
  have hsegment : s.flushRun bd.small cls (ps.map (· - base)) =
      some (s'.settle cls prev' (s.live - ps.length), ps.length) := by
    rw [Segment.flushRun, hloop]
    simp only [Option.bind_eq_bind, Option.bind_some]
    rw [if_neg hlen, Segment.subLive, if_pos (by rw [Segment.setHead, hlive]; exact hle)]
    simp [Segment.setHead, Segment.settle, hlive]
  rw [AllocCore.flushRun, ← hs, hsegment]
  simp only [Option.bind_eq_bind, Option.bind_some]
  rw [finishFree_pos hlen, enlist]
  simp only [hlen, ne_eq, not_false_eq_true, true_and]

/-! ## Runs of several segments -/

/-- Every registered segment represents its blocks, and their codes are there. -/
structure Sound (bd : Build) (c : AllocCore) (blocks : ℕ → Blocks) : Prop where
  kept : ∀ base, c.registered base = true → Kept bd (c.homes base) (blocks base)
  current : c.registered c.smallCur = true

/-- What the end of a free leaves: the segment it was about may be gone, and was empty then. -/
structure Finished (c c' : AllocCore) (base : ℕ) (gone : Bool) : Prop where
  stays : gone = false → c' = c
  empty : gone = true → (c.homes base).seg.live = 0 ∧ base ≠ c.smallCur
  current : c'.smallCur = c.smallCur
  registered : ∀ x, x ≠ base → c'.registered x = c.registered x
  homes : ∀ x, c'.registered x = true → c.registered x = true ∧ c'.homes x = c.homes x

lemma releaseOrPoolEmptySegment_finished {c' : AllocCore}
    (he : (c.homes base).seg.live = 0 ∧ base ≠ c.smallCur)
    (h : c.releaseOrPoolEmptySegment bd base = some c') : c.Finished c' base true := by
  rw [releaseOrPoolEmptySegment] at h
  split_ifs at h
  · obtain rfl := Option.some.inj h
    exact ⟨by simp, fun _ => he, rfl, fun _ _ => rfl, fun _ hx => ⟨hx, rfl⟩⟩
  · obtain rfl := Option.some.inj h
    refine ⟨by simp, fun _ => he, rfl, fun x hx => Function.update_of_ne hx _ _, fun x hx => ?_⟩
    have hne : x ≠ base := by
      rintro rfl
      exact Bool.false_ne_true ((Function.update_self ..).symm.trans hx)
    exact ⟨(Function.update_of_ne hne _ _).symm.trans hx, Function.update_of_ne hne _ _⟩

lemma finishFree_finished {c' : AllocCore} {k : ℕ} {gone : Bool}
    (h : c.finishFree bd base k = some (c', gone)) : c.Finished c' base gone := by
  rw [finishFree] at h
  split_ifs at h with hdead
  · obtain ⟨c₁, hr, he⟩ := Option.map_eq_some_iff.mp h
    obtain ⟨rfl, rfl⟩ := Prod.mk.inj he
    obtain ⟨-, hlive, hcur, -⟩ := of_decide_eq_true hdead
    exact releaseOrPoolEmptySegment_finished ⟨hlive, hcur⟩ hr
  · obtain ⟨rfl, rfl⟩ := Prod.mk.inj (Option.some.inj h)
    exact ⟨fun _ => rfl, by simp, rfl, fun _ _ => rfl, fun _ hx => ⟨hx, rfl⟩⟩

lemma Sound.about {blocks : ℕ → Blocks} {c' : AllocCore} {b' : Blocks} (h : c.Sound bd blocks)
    (ha : c.About c' base) (hk : Kept bd (c'.homes base) b') :
    c'.Sound bd (Function.update blocks base b') := by
  refine ⟨fun x hx => ?_, ?_⟩
  · by_cases hxb : x = base
    · subst hxb
      rwa [Function.update_self]
    · rw [Function.update_of_ne hxb, ha.homes x hxb]
      exact h.kept x (ha.registered ▸ hx)
  · rw [ha.registered, ha.current]
    exact h.current

lemma Sound.finished {blocks : ℕ → Blocks} {c' : AllocCore} {gone : Bool} (h : c.Sound bd blocks)
    (hf : c.Finished c' base gone) : c'.Sound bd blocks := by
  refine ⟨fun x hx => ?_, ?_⟩
  · obtain ⟨hx', hhome⟩ := hf.homes x hx
    rw [hhome]
    exact h.kept x hx'
  · rw [hf.current]
    cases gone with
    | false =>
        rw [hf.stays rfl]
        exact h.current
    | true =>
        rw [hf.registered _ (hf.empty rfl).2.symm]
        exact h.current

/-- A free that has ended leaves a sound core. -/
lemma Sound.finish {blocks : ℕ → Blocks} {b' : Blocks} {c' : AllocCore} {s : Segment}
    {oldHead : Option ℕ} {gone : Bool} (h : c.Sound bd blocks)
    (hr : c.registered base = true) (hs : Represents bd.small s b')
    (hb : b'.carved = (blocks base).carved)
    (hf : (c.enlist bd base cls oldHead s).Finished c' base gone) :
    c'.Sound bd (Function.update blocks base b') := by
  refine (h.about (about_enlist ..) ?_).finished hf
  rw [homes_enlist]
  exact (h.kept base hr).setSeg hs hb

lemma Sound.congr {blocks blocks' : ℕ → Blocks} (h : c.Sound bd blocks)
    (hb : ∀ x, c.registered x = true → blocks' x = blocks x) : c.Sound bd blocks' :=
  ⟨fun x hx => hb x hx ▸ h.kept x hx, h.current⟩

/-- The pointers that the callers may flush: each once, and those of the core's segments to blocks
of the class that the callers hold. -/
structure Flushable (c : AllocCore) (blocks : ℕ → Blocks) (cls : ℕ) (ps : List ℕ) : Prop where
  nodup : (ps.filter (· ≠ 0)).Nodup
  held : ∀ p ∈ ps, p ≠ 0 → c.registered (segmentBaseOfPtr p) = true →
    (p - segmentBaseOfPtr p, cls) ∈ (blocks (segmentBaseOfPtr p)).carved ∧
      (blocks (segmentBaseOfPtr p)).place (p - segmentBaseOfPtr p) ≠ .free

/-- A carved block is found by search. -/
def decidableCarved (b : Blocks) (p : ℕ × ℕ) : Decidable (p ∈ b.carved) :=
  decidable_of_iff (∃ q ∈ b.carved, q = p) exists_eq_right

instance (c : AllocCore) (blocks : ℕ → Blocks) (cls : ℕ) (ps : List ℕ) :
    Decidable (c.Flushable blocks cls ps) :=
  haveI := decidableCarved
  decidable_of_iff (_ ∧ _) ⟨fun h => ⟨h.1, h.2⟩, fun h => ⟨h.nodup, h.held⟩⟩

lemma freeEach_append (ps qs : List ℕ) (c : AllocCore) :
    freeEach bd cls (ps ++ qs) c = (freeEach bd cls ps c).bind (freeEach bd cls qs) := by
  induction ps generalizing c with
  | nil => rfl
  | cons p ps ih =>
      rw [List.cons_append, freeEach, freeEach, Option.bind_eq_bind, Option.bind_assoc]
      congr 1
      funext c
      exact ih c

/-- Pointers outside the core are skipped. -/
lemma freeEach_unknown {ps : List ℕ}
    (h : ∀ p ∈ ps, p = 0 ∨ c.registered (segmentBaseOfPtr p) = false) :
    freeEach bd cls ps c = some c := by
  induction ps with
  | nil => rfl
  | cons p ps ih =>
      have hp := h p List.mem_cons_self
      have hunpark : c.unpark bd p = c := by rw [unpark, if_pos hp]
      rw [freeEach, hunpark, deallocPtr, if_pos hp]
      exact ih fun q hq => h q (List.mem_cons_of_mem _ hq)

lemma Flushable.rest {blocks : ℕ → Blocks} {run rest : List ℕ}
    (h : c.Flushable blocks cls (run ++ rest)) : c.Flushable blocks cls rest := by
  refine ⟨?_, fun p hp => h.held p (List.mem_append_right _ hp)⟩
  have hnodup := h.nodup
  rw [List.filter_append, List.nodup_append] at hnodup
  exact hnodup.2.1

/-- The front of an array, of one segment of the core. -/
lemma Flushable.run {blocks : ℕ → Blocks} {run rest : List ℕ}
    (h : c.Flushable blocks cls (run ++ rest)) (hr : c.registered base = true)
    (hrun : ∀ p ∈ run, Heap.sameSegment base p = true) : c.Run (blocks base) base cls run := by
  have hhere : ∀ p ∈ run, p ≠ 0 ∧ segmentBaseOfPtr p = base := fun p hp =>
    World.sameSegment_iff.mp (hrun p hp)
  have hself : run.filter (· ≠ 0) = run := List.filter_eq_self.mpr fun p hp => by
    simpa using (hhere p hp).1
  have hnodup := h.nodup
  rw [List.filter_append, hself, List.nodup_append] at hnodup
  refine ⟨hr, hhere, ?_, fun p hp => ?_⟩
  · exact List.Nodup.map_on (fun p hp q hq he =>
      World.offset_injective (hhere p hp).2 (hhere q hq).2 he) hnodup.1
  · obtain ⟨hp0, hbase⟩ := hhere p hp
    have := h.held p (List.mem_append_left _ hp) hp0 (hbase ▸ hr)
    rwa [hbase] at this

/-- The flush of a run and its single frees end alike, with what is left still held. -/
lemma Sound.flushRun {blocks : ℕ → Blocks} {run rest : List ℕ} (h : c.Sound bd blocks)
    (hf : c.Flushable blocks cls (run ++ rest)) (hr : c.registered base = true)
    (hrun : ∀ p ∈ run, Heap.sameSegment base p = true) (hne : run ≠ []) :
    freeEach bd cls run c = (c.flushRun bd base cls (run.map (· - base))).map Prod.fst ∧
      ∀ c' gone, c.flushRun bd base cls (run.map (· - base)) = some (c', gone) →
        c'.Sound bd (Function.update blocks base
          ((blocks base).putAll (run.map (· - base)) .free)) ∧
        c'.Flushable (Function.update blocks base
          ((blocks base).putAll (run.map (· - base)) .free)) cls rest ∧
        (∀ q ∈ rest, q ≠ 0 → c'.registered (segmentBaseOfPtr q) = true →
          segmentBaseOfPtr q = base → gone = false) ∧
        ∀ x, c'.registered x = true → c.registered x = true := by
  have hfront := hf.run hr hrun
  obtain ⟨s', hrep, hflush, heach⟩ := flushRun_eq hfront hne (h.kept base hr).represents
  refine ⟨by rw [hflush, heach], fun c' gone he => ?_⟩
  rw [hflush] at he
  have hfin := finishFree_finished he
  have hregistered : (c.enlist bd base cls ((c.homes base).seg.head cls) s').registered =
      c.registered := (about_enlist ..).registered
  set blocks' := Function.update blocks base ((blocks base).putAll (run.map (· - base)) .free)
    with hblocks
  have hmono : ∀ x, c'.registered x = true → c.registered x = true := fun x hx =>
    hregistered ▸ (hfin.homes x hx).1
  have hnodup := hf.nodup
  rw [List.filter_append, List.nodup_append] at hnodup
  -- A block that is left is none of the run, so it is still held.
  have hheld : ∀ q ∈ rest, q ≠ 0 → c'.registered (segmentBaseOfPtr q) = true →
      (q - segmentBaseOfPtr q, cls) ∈ (blocks' (segmentBaseOfPtr q)).carved ∧
        (blocks' (segmentBaseOfPtr q)).place (q - segmentBaseOfPtr q) ≠ .free := by
    intro q hq hq0 hqr
    obtain ⟨hx, hplace⟩ := hf.held q (List.mem_append_right _ hq) hq0 (hmono _ hqr)
    by_cases hqb : segmentBaseOfPtr q = base
    · rw [hqb] at hx hplace ⊢
      have hmem : q - base ∉ run.map (· - base) := by
        intro hm
        obtain ⟨p, hp, he⟩ := List.mem_map.mp hm
        obtain ⟨hp0, hpb⟩ := hfront.here p hp
        have hpq := World.offset_injective hpb hqb he
        exact hnodup.2.2 p (List.mem_filter.mpr ⟨hp, by simpa using hp0⟩) q
          (List.mem_filter.mpr ⟨hq, by simpa using hq0⟩) hpq
      rw [hblocks, Function.update_self]
      simpa only [Blocks.putAll, if_neg hmem] using ⟨hx, hplace⟩
    · rw [hblocks, Function.update_of_ne hqb]
      exact ⟨hx, hplace⟩
  refine ⟨h.finish hr hrep rfl hfin, ⟨hnodup.2.1, hheld⟩, fun q hq hq0 hqr hqb => ?_, hmono⟩
  cases gone with
  | false => rfl
  | true =>
      obtain ⟨hx, hplace⟩ := hheld q hq hq0 hqr
      rw [hqb, hblocks, Function.update_self] at hx hplace
      have hempty := (hfin.empty rfl).1
      rw [homes_enlist] at hempty
      exact absurd hempty (World.live_ne_zero hrep hx hplace)

/-- A flush ends as the single frees of its pointers do. -/
lemma Sound.flushClass (n : ℕ) : ∀ {c : AllocCore} {blocks : ℕ → Blocks} {ps : List ℕ}
    (recycled : List ℕ), ps.length ≤ n → c.Sound bd blocks → c.Flushable blocks cls ps →
      (∀ p ∈ ps, p ≠ 0 → c.registered (segmentBaseOfPtr p) = true →
        segmentBaseOfPtr p ∉ recycled) →
      flushClass bd cls ps recycled c = freeEach bd cls ps c ∧
        ∀ c', freeEach bd cls ps c = some c' → c'.Sound bd (World.freeAll blocks ps) ∧
          ∀ x, c'.registered x = true → c.registered x = true := by
  induction n with
  | zero =>
      intro c blocks ps _ hlen h _ _
      obtain rfl := List.eq_nil_of_length_eq_zero (Nat.le_zero.mp hlen)
      refine ⟨by rw [AllocCore.flushClass, freeEach], fun c' he => ?_⟩
      obtain rfl := Option.some.inj he
      rw [World.freeAll_nil]
      exact ⟨h, fun _ hx => hx⟩
  | succ n ih =>
      intro c blocks ps recycled hlen h hf hrec
      cases ps with
      | nil =>
          refine ⟨by rw [AllocCore.flushClass, freeEach], fun c' he => ?_⟩
          obtain rfl := Option.some.inj he
          rw [World.freeAll_nil]
          exact ⟨h, fun _ hx => hx⟩
      | cons p rest =>
          rw [AllocCore.flushClass]
          by_cases hp0 : p = 0
          · subst hp0
            have hskip : freeEach bd cls (0 :: rest) c = freeEach bd cls rest c := by
              have hnull : freeEach bd cls [0] c = some c := freeEach_unknown (by simp)
              rw [← List.singleton_append, freeEach_append, hnull, Option.bind_some]
            rw [if_pos rfl, hskip, World.freeAll_cons_null]
            have hf' : c.Flushable blocks cls ([0] ++ rest) := hf
            exact ih recycled (Nat.le_of_succ_le_succ hlen) h hf'.rest fun q hq =>
              hrec q (List.mem_cons_of_mem _ hq)
          rw [if_neg hp0]
          set base := segmentBaseOfPtr p with hbase
          set run := p :: rest.takeWhile (Heap.sameSegment base) with hrundef
          set rest' := rest.dropWhile (Heap.sameSegment base) with hrestdef
          have hsplit : p :: rest = run ++ rest' := by
            rw [hrundef, hrestdef, List.cons_append, List.takeWhile_append_dropWhile]
          have hrun : ∀ q ∈ run, Heap.sameSegment base q = true := by
            intro q hq
            obtain rfl | hq := List.mem_cons.mp hq
            · exact World.sameSegment_iff.mpr ⟨hp0, rfl⟩
            · exact List.mem_takeWhile_imp hq
          have hlen' : rest'.length ≤ n := by
            have := (List.dropWhile_suffix (l := rest) (Heap.sameSegment base)).length_le
            rw [List.length_cons] at hlen
            rw [hrestdef]
            omega
          rw [hsplit] at hf hrec ⊢
          rw [freeEach_append, World.freeAll_append blocks hrun]
          by_cases hr : c.registered base = true
          · obtain ⟨heach, hend⟩ := h.flushRun hf hr hrun (List.cons_ne_nil _ _)
            have hnot := hrec p (List.mem_append_left _ List.mem_cons_self) hp0 hr
            rw [if_pos ⟨hnot, hr⟩, heach]
            cases hflush : c.flushRun bd base cls (run.map (· - base)) with
            | none => exact ⟨rfl, fun c' he => by contradiction⟩
            | some r =>
                obtain ⟨c₁, gone⟩ := r
                obtain ⟨hsound, hleft, hgone, hmono⟩ := hend c₁ gone hflush
                simp only [Option.bind_eq_bind, Option.bind_some, Option.map_some]
                have hrec₁ : ∀ q ∈ rest', q ≠ 0 → c₁.registered (segmentBaseOfPtr q) = true →
                    segmentBaseOfPtr q ∉ (if gone = true ∧ recycled.length < Heap.recycledCap
                      then base :: recycled else recycled) := by
                  intro q hq hq0 hqr
                  have hold := hrec q (List.mem_append_right _ hq) hq0 (hmono _ hqr)
                  by_cases hqb : segmentBaseOfPtr q = base
                  · rw [hgone q hq hq0 hqr hqb, if_neg (by simp)]
                    exact hold
                  · split_ifs
                    · simpa using ⟨hqb, hold⟩
                    · exact hold
                obtain ⟨heq, hafter⟩ := ih _ hlen' hsound hleft hrec₁
                refine ⟨heq, fun c' he => ?_⟩
                obtain ⟨hs', hmono'⟩ := hafter c' he
                exact ⟨hs', fun x hx => hmono x (hmono' x hx)⟩
          · have hskip : freeEach bd cls run c = some c := freeEach_unknown fun q hq => .inr (by
              rw [(World.sameSegment_iff.mp (hrun q hq)).2]
              exact Bool.eq_false_iff.mpr hr)
            rw [if_neg fun hc => hr hc.2, hskip, Option.bind_some]
            obtain ⟨heq, hafter⟩ := ih recycled hlen' h hf.rest fun q hq =>
              hrec q (List.mem_append_right _ hq)
            refine ⟨heq, fun c' he => ?_⟩
            obtain ⟨hs', hmono⟩ := hafter c' he
            refine ⟨hs'.congr fun x hx => ?_, hmono⟩
            have hne : x ≠ base := fun he => hr (he ▸ hmono x hx)
            simp only [World.freeAll, Function.update_of_ne hne]

/-! ## Several arrays -/

/-- The arrays that the callers may flush, each with its class. -/
structure AllFlushable (c : AllocCore) (blocks : ℕ → Blocks) (groups : List (ℕ × List ℕ)) :
    Prop where
  nodup : ((groups.flatMap Prod.snd).filter (· ≠ 0)).Nodup
  held : ∀ g ∈ groups, ∀ p ∈ g.2, p ≠ 0 → c.registered (segmentBaseOfPtr p) = true →
    (p - segmentBaseOfPtr p, g.1) ∈ (blocks (segmentBaseOfPtr p)).carved ∧
      (blocks (segmentBaseOfPtr p)).place (p - segmentBaseOfPtr p) ≠ .free

instance (c : AllocCore) (blocks : ℕ → Blocks) (groups : List (ℕ × List ℕ)) :
    Decidable (c.AllFlushable blocks groups) :=
  haveI := decidableCarved
  decidable_of_iff (_ ∧ _) ⟨fun h => ⟨h.1, h.2⟩, fun h => ⟨h.nodup, h.held⟩⟩

/-- A block that is not freed stays as it was. -/
lemma place_freeAll {blocks : ℕ → Blocks} {ps : List ℕ} {p : ℕ} (hp : p ∉ ps) :
    (World.freeAll blocks ps (segmentBaseOfPtr p)).place (p - segmentBaseOfPtr p) =
      (blocks (segmentBaseOfPtr p)).place (p - segmentBaseOfPtr p) := by
  have hmem : p - segmentBaseOfPtr p ∉
      (ps.filter (Heap.sameSegment (segmentBaseOfPtr p))).map (· - segmentBaseOfPtr p) := by
    intro hm
    obtain ⟨q, hq, he⟩ := List.mem_map.mp hm
    obtain ⟨hq, hseg⟩ := List.mem_filter.mp hq
    exact hp (World.offset_injective (World.sameSegment_iff.mp hseg).2 rfl he ▸ hq)
  simp only [World.freeAll, Blocks.putAll, if_neg hmem]

lemma AllFlushable.head {blocks : ℕ → Blocks} {g : ℕ × List ℕ} {groups : List (ℕ × List ℕ)}
    (h : c.AllFlushable blocks (g :: groups)) : c.Flushable blocks g.1 g.2 := by
  have hnodup := h.nodup
  rw [List.flatMap_cons, List.filter_append, List.nodup_append] at hnodup
  exact ⟨hnodup.1, h.held g List.mem_cons_self⟩

lemma AllFlushable.tail {blocks : ℕ → Blocks} {g : ℕ × List ℕ} {groups : List (ℕ × List ℕ)}
    (h : c.AllFlushable blocks (g :: groups)) {c' : AllocCore}
    (hmono : ∀ x, c'.registered x = true → c.registered x = true) :
    c'.AllFlushable (World.freeAll blocks g.2) groups := by
  have hnodup := h.nodup
  rw [List.flatMap_cons, List.filter_append, List.nodup_append] at hnodup
  refine ⟨hnodup.2.1, fun g' hg' p hp hp0 hpr => ?_⟩
  have hout : p ∉ g.2 := fun hm => hnodup.2.2 p (List.mem_filter.mpr ⟨hm, by simpa using hp0⟩) p
    (List.mem_filter.mpr ⟨List.mem_flatMap.mpr ⟨g', hg', hp⟩, by simpa using hp0⟩) rfl
  rw [place_freeAll hout]
  exact h.held g' (List.mem_cons_of_mem _ hg') p hp hp0 (hmono _ hpr)

lemma Sound.flush {blocks : ℕ → Blocks} {ps : List ℕ} (h : c.Sound bd blocks)
    (hf : c.Flushable blocks cls ps) : AllocCore.flushClass bd cls ps [] c = freeEach bd cls ps c ∧
      ∀ c', freeEach bd cls ps c = some c' → c'.Sound bd (World.freeAll blocks ps) ∧
        ∀ x, c'.registered x = true → c.registered x = true :=
  h.flushClass ps.length [] le_rfl hf fun _ _ _ _ => List.not_mem_nil

/-- Flushes of several arrays end as the single frees of their pointers do. -/
lemma Sound.flushAll (groups : List (ℕ × List ℕ)) {c : AllocCore} {blocks : ℕ → Blocks}
    (h : c.Sound bd blocks) (hf : c.AllFlushable blocks groups) :
    AllocCore.flushAll bd groups c = freeAll bd groups c := by
  induction groups generalizing c blocks with
  | nil => rfl
  | cons g groups ih =>
      obtain ⟨cls, ps⟩ := g
      obtain ⟨heq, hafter⟩ := h.flush hf.head
      rw [AllocCore.flushAll, freeAll, heq]
      cases he : freeEach bd cls ps c with
      | none => rfl
      | some c' =>
          obtain ⟨hs, hmono⟩ := hafter c' he
          exact ih hs (hf.tail hmono)

/-- A block that is LIVE is not changed by the step before its free. -/
lemma Sound.unpark_live {blocks : ℕ → Blocks} (h : c.Sound bd blocks) {p : ℕ}
    (hp : p ≠ 0 → c.registered (segmentBaseOfPtr p) = true →
      (p - segmentBaseOfPtr p, cls) ∈ (blocks (segmentBaseOfPtr p)).carved ∧
        (blocks (segmentBaseOfPtr p)).place (p - segmentBaseOfPtr p) = .live) :
    c.unpark bd p = c := by
  rw [unpark]
  split_ifs with hskip
  · rfl
  · obtain ⟨hp0, hr⟩ := not_or.mp hskip
    have hr := Bool.not_eq_false _ ▸ hr
    obtain ⟨hx, hlive⟩ := hp hp0 hr
    have hrep := (h.kept _ hr).represents
    rw [setState_held hrep hx, Segment.writeByte]
    split_ifs with ht
    · rw [← hlive, ← hrep.bytes ht _ hx, Function.update_eq_self]
      exact c.setSeg_self _
    · exact c.setSeg_self _

/-- The first pointer of an array, apart from the others. -/
lemma Flushable.split {blocks : ℕ → Blocks} {p : ℕ} {ps : List ℕ}
    (h : c.Flushable blocks cls (p :: ps)) : c.AllFlushable blocks [(cls, [p]), (cls, ps)] := by
  refine ⟨by simpa using h.nodup, fun g hg q hq => ?_⟩
  obtain rfl | rfl : g = (cls, [p]) ∨ g = (cls, ps) := by simpa using hg
  · exact h.held q (List.mem_cons.mpr (.inl (List.mem_singleton.mp hq)))
  · exact h.held q (List.mem_cons_of_mem _ hq)

/-- The blocks of an array that are LIVE. -/
def AllLive (c : AllocCore) (blocks : ℕ → Blocks) (ps : List ℕ) : Prop :=
  ∀ p ∈ ps, p ≠ 0 → c.registered (segmentBaseOfPtr p) = true →
    (blocks (segmentBaseOfPtr p)).place (p - segmentBaseOfPtr p) = .live

instance (c : AllocCore) (blocks : ℕ → Blocks) (ps : List ℕ) : Decidable (c.AllLive blocks ps) :=
  inferInstanceAs (Decidable (∀ p ∈ ps, _))

/-- A free changes no other block. -/
lemma AllLive.after {blocks : ℕ → Blocks} {ps qs : List ℕ} (h : c.AllLive blocks qs)
    (hd : ((ps ++ qs).filter (· ≠ 0)).Nodup) {c' : AllocCore}
    (hmono : ∀ x, c'.registered x = true → c.registered x = true) :
    c'.AllLive (World.freeAll blocks ps) qs := by
  intro q hq hq0 hr
  rw [List.filter_append, List.nodup_append] at hd
  have hout : q ∉ ps := fun hm => hd.2.2 q (List.mem_filter.mpr ⟨hm, by simpa using hq0⟩) q
    (List.mem_filter.mpr ⟨hq, by simpa using hq0⟩) rfl
  rw [place_freeAll hout]
  exact h q hq hq0 (hmono _ hr)

/-- Blocks that are LIVE need no step before their frees. -/
lemma Sound.deallocEach (ps : List ℕ) {c : AllocCore} {blocks : ℕ → Blocks}
    (h : c.Sound bd blocks) (hf : c.Flushable blocks cls ps) (hlive : c.AllLive blocks ps) :
    AllocCore.deallocEach bd cls ps c = freeEach bd cls ps c := by
  induction ps generalizing c blocks with
  | nil => rfl
  | cons p ps ih =>
      have hsplit := hf.split
      have hunpark : c.unpark bd p = c := h.unpark_live fun hp0 hr =>
        ⟨(hf.held p List.mem_cons_self hp0 hr).1, hlive p List.mem_cons_self hp0 hr⟩
      have hone : freeEach bd cls [p] c = c.deallocPtr bd cls p := by
        rw [freeEach, hunpark]
        cases c.deallocPtr bd cls p <;> rfl
      obtain ⟨-, hafter⟩ := h.flush hsplit.head
      rw [AllocCore.deallocEach, freeEach, hunpark]
      cases he : c.deallocPtr bd cls p with
      | none => rfl
      | some c' =>
          obtain ⟨hs, hmono⟩ := hafter c' (hone.trans he)
          have hleft : c.AllLive blocks ps := fun q hq => hlive q (List.mem_cons_of_mem _ hq)
          exact ih hs (hsplit.tail hmono).head (hleft.after hf.nodup hmono)

/-- Flushes of LIVE blocks end as the calls of `dealloc_small` do. -/
lemma Sound.deallocAll (groups : List (ℕ × List ℕ)) {c : AllocCore} {blocks : ℕ → Blocks}
    (h : c.Sound bd blocks) (hf : c.AllFlushable blocks groups)
    (hlive : c.AllLive blocks (groups.flatMap Prod.snd)) :
    AllocCore.deallocAll bd groups c = AllocCore.flushAll bd groups c := by
  induction groups generalizing c blocks with
  | nil => rfl
  | cons g groups ih =>
      obtain ⟨cls, ps⟩ := g
      have hnodup := hf.nodup
      rw [List.flatMap_cons] at hlive hnodup
      obtain ⟨heq, hafter⟩ := h.flush hf.head
      rw [AllocCore.flushAll, AllocCore.deallocAll, heq, h.deallocEach ps hf.head fun p hp =>
        hlive p (List.mem_append_left _ hp)]
      cases he : freeEach bd cls ps c with
      | none => rfl
      | some c' =>
          obtain ⟨hs, hmono⟩ := hafter c' he
          have hleft : c.AllLive blocks (groups.flatMap Prod.snd) := fun p hp =>
            hlive p (List.mem_append_right _ hp)
          exact ih hs (hf.tail hmono) (hleft.after hnodup hmono)

end AllocCore

end SmallBatch

end SeferAlloc
