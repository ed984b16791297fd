import SeferAlloc.SmallHeapTraffic

/-!
# Accounting along every run

The callers' commands act on the heap and on the record of its blocks. Every
mapped segment keeps representing its part of the record, and no command
aborts.
-/
namespace SeferAlloc
namespace Small
open IntrusiveList

/-- What callers ask of the heap; `trim` drops an emptied segment from the pool. -/
inductive Command where
  | carve (cls : ℕ) (ok : Bool)
  | carveBatch (cls want : ℕ) (st : BlockState) (grant : Grant)
  | popFree (base cls : ℕ) (ok : Bool)
  | drainBatch (base cls want : ℕ) (st : BlockState)
  | refill (cls want : ℕ) (st : BlockState) (rounds : List RefillRound)
  | flush (cls : ℕ) (ps : List ℕ) (pooled : ℕ → Bool)
  | dealloc (base off cls : ℕ) (pooled : Bool)
  | reclaim (base off cls : ℕ) (pooled : Bool)
  | setState (base off cls : ℕ) (st : BlockState)
  | reserve (base : ℕ) (pooled : Bool)
  | trim (base : ℕ)

namespace World

/-- The callers' contract. -/
def Allowed (bd : Build) (w : World) : Command → Prop
  | .carve cls _ => cls < bd.sizes.count
  | .carveBatch cls _ st _ => cls < bd.sizes.count ∧ st ≠ .free
  | .popFree base _ _ => w.heap.mapped base = true
  | .drainBatch base _ _ st => w.heap.mapped base = true ∧ st ≠ .free
  | .refill cls _ st _ => cls < bd.sizes.count ∧ st ≠ .free
  | .flush cls ps _ => w.Flushable cls ps
  | .dealloc base off cls _ | .reclaim base off cls _ =>
      w.heap.mapped base = true ∧ (off, cls) ∈ (w.blocks base).carved ∧
        (w.blocks base).place off = .live
  | .setState base off cls st => w.heap.mapped base = true ∧
      (off, cls) ∈ (w.blocks base).carved ∧ (w.blocks base).place off ≠ .free ∧ st ≠ .free
  | .reserve base _ => w.heap.Grantable base
  | .trim _ => True

instance (bd : Build) (w : World) : (c : Command) → Decidable (w.Allowed bd c)
  | .carve .. => inferInstanceAs (Decidable (_ < _))
  | .carveBatch .. | .drainBatch .. | .refill .. => inferInstanceAs (Decidable (_ ∧ _))
  | .popFree .. => inferInstanceAs (Decidable (_ = _))
  | .reserve base _ => inferInstanceAs (Decidable (w.heap.Grantable base))
  | .trim _ => inferInstanceAs (Decidable True)
  | .flush cls ps _ => inferInstanceAs (Decidable (w.Flushable cls ps))
  | .dealloc .. | .reclaim .. => inferInstanceAs (Decidable (_ ∧ _ ∧ _))
  | .setState .. => inferInstanceAs (Decidable (_ ∧ _ ∧ _ ∧ _))

/-- A command the contract allows; `none` is an abort. -/
def exec (bd : Build) (w : World) : Command → Option World
  | .carve cls ok => do
      let cur := w.heap.smallCur
      match ← (w.heap.segs cur).carveBlock bd cls ok with
      | (s, some off) => return w.put cur s ((w.blocks cur).carve off cls .live)
      | (s, none) => return w.put cur s (w.blocks cur)
  | .carveBatch cls want st grant => do
      let cur := w.heap.smallCur
      let virgin := (w.heap.segs cur).payloadVirgin
      match ← w.heap.carveCurrent bd cls want st grant with
      | (h, .ok offs) => return w.record cls st h [.carved cur offs virgin]
      | (h, .error ()) => return ⟨h, w.blocks⟩
  | .popFree base cls ok => do
      match ← (w.heap.segs base).popFree bd cls ok with
      | (s, .ok (some off)) => return w.put base s ((w.blocks base).put off .live)
      | (s, _) => return w.put base s (w.blocks base)
  | .drainBatch base cls want st => do
      let (h, out) ← w.heap.drainFrom bd cls want st (some base)
      return w.record cls st h [.drained base out]
  | .refill cls want st rounds => do
      let (w, _) ← w.refill bd cls want st rounds
      return w
  | .flush cls ps pooled => w.flush bd cls ps pooled
  | .dealloc base off cls pooled => do
      let (s, accepted) ← (w.heap.segs base).deallocSmall bd off cls
      let w := w.put base s (if accepted then (w.blocks base).put off .free else w.blocks base)
      return if accepted then w.retire base pooled else w
  | .reclaim base off cls pooled => do
      let (s, accepted) ← (w.heap.segs base).reclaimSidecarRecord bd off cls
      let w := w.put base s (if accepted then (w.blocks base).put off .free else w.blocks base)
      return if accepted then w.retire base pooled else w
  | .setState base off _ st =>
      some (w.put base ((w.heap.segs base).setState bd off st) ((w.blocks base).put off st))
  | .reserve base pooled =>
      some ⟨w.heap.reserve bd base pooled, Function.update w.blocks base .new⟩
  | .trim base => some (w.retire base false)

def step (bd : Build) (w : World) (c : Command) : Option World :=
  if w.Allowed bd c then w.exec bd c else some w

def run (bd : Build) : List Command → World → Option World
  | [], w => some w
  | c :: cs, w => do run bd cs (← w.step bd c)

variable {bd : Build} {w : World}

/-! ## Runs -/

/-- A command the contract allows runs to its end and keeps the heap sound. -/
lemma Sound.exec (h : w.Sound bd) {c : Command} (hc : w.Allowed bd c) :
    ∃ w', w.exec bd c = some w' ∧ w'.Sound bd := by
  cases c with
  | carve cls ok =>
      obtain ⟨off, s, he, -, hrep⟩ | he := carveBlock_spec (h.represents _ h.current) hc ok
      · exact ⟨_, by simp [World.exec, he]; rfl, h.put hrep⟩
      · exact ⟨_, by simp [World.exec, he]; rfl, h.put (h.represents _ h.current)⟩
  | carveBatch cls want st grant =>
      obtain ⟨h', offs, he, -, hi⟩ | he := h.carveCurrent hc.1 want hc.2 grant
      · refine ⟨_, ?_, (hi (w.heap.segs w.heap.smallCur).payloadVirgin).sound⟩
        simp [World.exec, he]
      · exact ⟨w, by simp [World.exec, he], h⟩
  | popFree base cls ok =>
      obtain ⟨x, s, he, -, -, hrep⟩ | ⟨r, he, hr⟩ := popFree_spec (h.represents base hc) cls ok
      · exact ⟨_, by simp [World.exec, he]; rfl, h.put hrep⟩
      · refine ⟨w.put base (w.heap.segs base) (w.blocks base), ?_, h.put (h.represents base hc)⟩
        rcases r with _ | _ | x
        · simp [World.exec, he]
        · simp [World.exec, he]
        · exact (hr x rfl).elim
  | drainBatch base cls want st =>
      obtain ⟨h', out, he, -, hi⟩ := h.drainFrom cls want hc.2 (some base)
      exact ⟨_, by simp [World.exec, he], hi.sound⟩
  | refill cls want st rounds =>
      obtain ⟨w', es, he, -, hi⟩ := h.refill hc.1 want hc.2 rounds
      exact ⟨w', by simp [World.exec, he], hi.sound⟩
  | flush cls ps pooled =>
      obtain ⟨w', he, hr⟩ := h.flush hc pooled
      exact ⟨w', he, hr.sound⟩
  | dealloc base off cls pooled =>
      obtain ⟨hm, hx, hlive⟩ := hc
      obtain ⟨s, he, hrep⟩ := deallocSmall_spec (h.represents base hm) hx (.inl hlive)
      rw [if_pos hlive] at hrep
      exact ⟨_, by simp [World.exec, he, hlive]; rfl, (h.put hrep).retire base pooled⟩
  | reclaim base off cls pooled =>
      obtain ⟨hm, hx, hlive⟩ := hc
      obtain ⟨s, he, hrep⟩ :=
        reclaimSidecarRecord_spec (h.represents base hm) hx (.inl hlive)
      rw [if_pos hlive] at hrep
      exact ⟨_, by simp [World.exec, he, hlive]; rfl, (h.put hrep).retire base pooled⟩
  | setState base off cls st =>
      obtain ⟨hm, hx, hne, hst⟩ := hc
      exact ⟨_, rfl, h.put (setState_spec (h.represents base hm) hx hne hst)⟩
  | reserve base pooled => exact ⟨_, rfl, h.reserve base pooled⟩
  | trim base => exact ⟨_, rfl, h.retire base false⟩

lemma Sound.run (cs : List Command) (h : w.Sound bd) : ∃ w', w.run bd cs = some w' ∧ w'.Sound bd := by
  induction cs generalizing w with
  | nil => exact ⟨w, rfl, h⟩
  | cons c cs ih =>
      have hstep : ∃ w', w.step bd c = some w' ∧ w'.Sound bd := by
        rw [World.step]
        split_ifs with hc
        · exact h.exec hc
        · exact ⟨w, rfl, h⟩
      obtain ⟨w₁, he, hs⟩ := hstep
      obtain ⟨w₂, hr, hs₂⟩ := ih hs
      exact ⟨w₂, by rw [World.run, he]; exact hr, hs₂⟩

lemma sound_init (bd : Build) (base : ℕ) : (World.init bd base).Sound bd := by
  refine ⟨fun x _ => represents_new bd .primordial, ?_⟩
  simp [World.init]

end World

/-- The bytes that encode FREE under a class are those of the class's list. -/
lemma Represents.byte_free_iff {bd : Build} {s : Segment} {b : Blocks} (h : Represents bd s b)
    (ht : bd.tracked = true) {cls : ℕ} (hcls : cls < bd.sizes.count) (g : ℕ) :
    s.byte g = encode cls .free ↔
      (g * minBlock, cls) ∈ b.carved ∧ b.place (g * minBlock) = .free := by
  constructor
  · intro hb
    obtain ⟨p, hp, hpg⟩ : ∃ p ∈ b.carved, p.1 = g * minBlock := by
      by_contra hno
      push Not at hno
      exact encode_ne_zero (bd.class_lt hcls) .free (hb.symm.trans (h.blank ht g hno))
    have hbyte := h.bytes ht p hp
    rw [hpg, Nat.mul_div_cancel _ (by decide), hb] at hbyte
    obtain ⟨hc, hplace⟩ :=
      encode_injective (bd.class_lt hcls) (bd.class_lt (h.placed p hp).1) hbyte
    obtain ⟨x, d⟩ := p
    simp only at hpg hc
    subst hpg hc
    exact ⟨hp, hplace.symm⟩
  · rintro ⟨hp, hfree⟩
    have := h.bytes ht _ hp
    rwa [Nat.mul_div_cancel _ (by decide), hfree] at this

/-- Small-block accounting. Every run of commands that keep the callers' contract ends without
an abort. Then in every mapped segment the list of each class is a finite chain without a
repeated block, made of the carved blocks of that class that are free, and where the state
bytes are compiled in of exactly the granules whose byte encodes FREE of the class. The counter
counts the carved blocks that are on no list; the carved blocks start on their grid above the
metadata, end below the bump cursor, and lie apart. With the misuse checks, freeing a granule
whose byte says FREE leaves any segment as it is. -/
theorem accounting (bd : Build) (base₀ : ℕ) (cs : List Command) :
    (∃ w, (World.init bd base₀).run bd cs = some w ∧
      ∀ base, w.heap.mapped base = true →
        (∀ cls, ∃ l, Chain (w.heap.segs base).next ((w.heap.segs base).head cls) l ∧ l.Nodup ∧
          (∀ x, x ∈ l ↔ (x, cls) ∈ (w.blocks base).carved ∧ (w.blocks base).place x = .free) ∧
          (bd.tracked = true → cls < bd.sizes.count → ∀ g,
            (w.heap.segs base).byte g = encode cls .free ↔ g * minBlock ∈ l)) ∧
        (w.heap.segs base).live =
          (w.blocks base).carved.countP (fun p => (w.blocks base).place p.1 ≠ .free) ∧
        (∀ p ∈ (w.blocks base).carved, bd.payloadStart (w.heap.segs base).kind ≤ p.1 ∧
          p.1 % bd.sizes.blockSize p.2 = 0 ∧
          p.1 + bd.sizes.blockSize p.2 ≤ (w.heap.segs base).bump) ∧
        (w.blocks base).carved.Pairwise (Apart bd)) ∧
    (bd.misuseChecks = true → ∀ (s : Segment) (off cls d : ℕ), cls < bd.sizes.count →
      d < bd.sizes.count → s.byte (off / minBlock) = encode d .free →
      s.deallocSmall bd off cls = some (s, false) ∧ s.flushRun bd cls [off] = some (s, 0)) := by
  refine ⟨?_, fun hm s off cls d hcls hd hb => ⟨deallocSmall_of_free hm (bd.class_lt hd)
    (bd.class_lt hcls) hb, flushRun_of_free hm (bd.class_lt hd) hb⟩⟩
  obtain ⟨w, hrun, hs⟩ := World.Sound.run cs (World.sound_init bd base₀)
  refine ⟨w, hrun, fun base hbase => ?_⟩
  have h := hs.represents base hbase
  refine ⟨fun cls => ?_, h.live, fun p hp => (h.placed p hp).2, h.apart⟩
  obtain ⟨l, hl, hmem⟩ := h.lists cls
  refine ⟨l, hl, hl.nodup, hmem, fun ht hcls g => ?_⟩
  rw [h.byte_free_iff ht hcls, hmem]

/-- A release build without `misuse-checks`. -/
def releaseBuild : Build where
  sizes := .build .none
  smallMetaEnd := 270336
  primordialMetaEnd := 389120
  misuseChecks := false
  debugAssertions := false
  metaEnd_le := by decide

/-- The first granule of the primordial payload is carved and freed. -/
def carveAndFree : List Command :=
  [.carve 0 true, .dealloc 0 389120 0 true]

lemma carveAndFree_result :
    ((World.init releaseBuild 0).run releaseBuild carveAndFree).map (fun w =>
      (w.heap.mapped 0, (w.heap.segs 0).head 0, (w.heap.segs 0).next 389120,
        (w.heap.segs 0).byte 24320)) = some (true, some 389120, none, 0) := by
  decide +kernel

/-- Where the state bytes are compiled out, a freed block is on its list and its byte is 0. -/
theorem releaseBuild_byte_blank :
    ¬∀ (cs : List Command) (w : World), (World.init releaseBuild 0).run releaseBuild cs = some w →
      ∀ base, w.heap.mapped base = true → ∀ cls l,
        Chain (w.heap.segs base).next ((w.heap.segs base).head cls) l →
        ∀ g, (w.heap.segs base).byte g = encode cls .free ↔ g * minBlock ∈ l := by
  intro h
  obtain ⟨w, hrun, hw⟩ := Option.map_eq_some_iff.mp carveAndFree_result
  simp only [Prod.mk.injEq] at hw
  obtain ⟨hmapped, hhead, hnext, hbyte⟩ := hw
  have hchain : Chain (w.heap.segs 0).next ((w.heap.segs 0).head 0) [389120] := by
    rw [hhead]
    refine ⟨rfl, ?_⟩
    rw [hnext, chain_none]
  have hbad := (h _ w hrun 0 hmapped 0 _ hchain 24320).mpr (by decide)
  rw [hbyte] at hbad
  exact absurd hbad (by decide)

end Small

end SeferAlloc
