import Mathlib.Algebra.Group.Pi.Basic
import Mathlib.Algebra.Notation.Pi.Basic
import SeferAlloc.HeapCore

/-!
# Who holds a block

A block that the core handed out is either live, and then with the user, or
rests in a magazine or in the depot. A refill adds blocks, a flush takes
resting ones, and a state byte turns one kind into the other; each is one lemma
about the two families of blocks, by class.
-/
namespace SeferAlloc
namespace Small

namespace World

/-- The pointer is a block of the class in the state. -/
def Has (w : World) (p c : ℕ) (st : BlockState) : Prop :=
  w.Holds (segmentBaseOfPtr p) (p - segmentBaseOfPtr p) c st

variable {bd : Build} {w w' : World} {p q c d : ℕ} {st t : BlockState}

lemma base_add_off (p : ℕ) : segmentBaseOfPtr p + (p - segmentBaseOfPtr p) = p := by
  unfold segmentBaseOfPtr
  omega

lemma Has.unique (hs : w.Sound bd) (h : w.Has p c st) (h' : w.Has p d t) : c = d ∧ st = t :=
  hs.holds_unique h h'

lemma Has.class_lt (hs : w.Sound bd) (h : w.Has p c st) : c < bd.sizes.count :=
  ((hs.represents _ h.1).placed _ h.2.1).1

/-- Segments start at segment boundaries. -/
def Aligned (w : World) : Prop :=
  ∀ base, w.heap.mapped base = true → base % segment = 0 ∧ base ≠ 0

lemma Has.ne_zero (ha : w.Aligned) (h : w.Has p c st) : p ≠ 0 := by
  rintro rfl
  exact (ha _ h.1).2 (by simp [segmentBaseOfPtr])

/-- A block lies in the segment it is an offset of. -/
lemma Sound.base_of_add (hs : w.Sound bd) (ha : w.Aligned) {base off : ℕ}
    (h : w.Holds base off c st) : segmentBaseOfPtr (base + off) = base := by
  have h1 := (hs.represents _ h.1).placed _ h.2.1
  have h2 := (hs.represents _ h.1).cursor.2
  have h3 := (bd.sizes.blockSize_granular c).1
  have h4 := (ha base h.1).1
  dsimp only at h1
  unfold segmentBaseOfPtr
  rw [Nat.add_mod, h4, Nat.zero_add, Nat.mod_mod, Nat.mod_eq_of_lt (by omega)]
  omega

lemma Sound.has_add (hs : w.Sound bd) (ha : w.Aligned) {base off : ℕ}
    (h : w.Holds base off c st) : w.Has (base + off) c st := by
  unfold Has
  rw [hs.base_of_add ha h, Nat.add_sub_cancel_left]
  exact h

/-! ## Refill -/

section Refill
variable {es : List Event}

lemma Issues.aligned (hi : Issues bd w w' c st es) (ha : w.Aligned) : w'.Aligned := by
  intro base hm
  by_cases hr : base ∈ reservedBases es
  · exact ⟨(hi.granted base hr).1, (hi.granted base hr).2.1⟩
  · exact ha base (hi.cursor base hm hr).1

lemma Issues.has_issued (hi : Issues bd w w' c st es) (ha : w.Aligned)
    (hp : p ∈ issuedPointers es) : w'.Has p c st := by
  obtain ⟨q, hq, rfl⟩ := List.mem_map.mp hp
  exact hi.sound.has_add (hi.aligned ha) (hi.issued q hq)

lemma Issues.pointers_nodup (hi : Issues bd w w' c st es) (ha : w.Aligned) :
    (issuedPointers es).Nodup := by
  apply hi.nodup.map_on
  rintro ⟨b₁, o₁⟩ h₁ ⟨b₂, o₂⟩ h₂ he
  have e₁ := hi.sound.base_of_add (hi.aligned ha) (hi.issued _ h₁)
  have e₂ := hi.sound.base_of_add (hi.aligned ha) (hi.issued _ h₂)
  dsimp only at e₁ e₂ he
  rw [he, e₂] at e₁
  subst e₁
  simp only [Prod.mk.injEq, true_and]
  omega

/-- An issued pointer was no block that is out. -/
lemma Issues.fresh_pointer (hi : Issues bd w w' c st es) (ha : w.Aligned)
    (hp : p ∈ issuedPointers es) (h : w.Has p d t) : t = .free := by
  obtain ⟨q, hq, rfl⟩ := List.mem_map.mp hp
  have hb := hi.sound.base_of_add (hi.aligned ha) (hi.issued q hq)
  unfold Has at h
  rw [hb, Nat.add_sub_cancel_left] at h
  exact hi.fresh q hq d t h

lemma Issues.has_of_not_issued (hi : Issues bd w w' c st es) (ht : t ≠ .free)
    (hq : q ∉ issuedPointers es) : w'.Has q d t ↔ w.Has q d t := by
  apply hi.kept _ _ _ _ ht
  intro hmem
  apply hq
  have := List.mem_map_of_mem (f := fun q : ℕ × ℕ => q.1 + q.2) hmem
  rwa [base_add_off] at this

end Refill

/-! ## Flush -/

lemma Returns.place_eq {ps : List ℕ} (hr : Returns bd w w' ps) (hq : q ∉ ps) :
    (w'.blocks (segmentBaseOfPtr q)).place (q - segmentBaseOfPtr q) =
      (w.blocks (segmentBaseOfPtr q)).place (q - segmentBaseOfPtr q) := by
  rw [hr.blocks]
  simp only [freeAll, Blocks.putAll]
  rw [if_neg]
  intro hmem
  obtain ⟨x, hx, hxq⟩ := List.mem_map.mp hmem
  obtain ⟨hxp, hxs⟩ := List.mem_filter.mp hx
  have hbase := (sameSegment_iff.mp hxs).2
  exact hq (offset_injective hbase rfl hxq ▸ hxp)

lemma Returns.has_of_not_flushed {ps : List ℕ} (hr : Returns bd w w' ps) (ht : t ≠ .free)
    (hq : q ∉ ps) : w'.Has q d t ↔ w.Has q d t := by
  have hplace := hr.place_eq hq
  have hcarved : (w'.blocks (segmentBaseOfPtr q)).carved = (w.blocks (segmentBaseOfPtr q)).carved := by
    rw [hr.blocks]
    rfl
  constructor
  · rintro ⟨hm, hc, hp⟩
    exact ⟨hr.mapped _ hm, hcarved ▸ hc, hplace ▸ hp⟩
  · rintro ⟨hm, hc, hp⟩
    have hp' := hplace.trans hp
    exact ⟨hr.kept _ _ d hm hc (by rwa [hp']), by rwa [hcarved], hp'⟩

/-- Flushed pointers are free. -/
lemma Returns.free_of_flushed {ps : List ℕ} (hr : Returns bd w w' ps) (hp : p ∈ ps) (h0 : p ≠ 0)
    (h : w'.Has p d t) : t = .free := by
  have hplace := h.2.2
  rw [hr.blocks] at hplace
  simp only [freeAll, Blocks.putAll] at hplace
  rw [if_pos] at hplace
  · exact hplace.symm
  · apply List.mem_map_of_mem
    rw [List.mem_filter]
    exact ⟨hp, sameSegment_iff.mpr ⟨h0, rfl⟩⟩

/-! ## State bytes -/

lemma setState_eq_writeByte {s : Segment} {b : Blocks} (h : Represents bd s b) {x : ℕ}
    (hx : (x, c) ∈ b.carved) (st : BlockState) : s.setState bd x st = s.writeByte bd x c st := by
  simp only [Segment.setState, Segment.writeByte]
  split_ifs with ht
  · rw [h.bytes ht _ hx, encode_setState (h.in_payload hx).2.2.2]
  · rfl

lemma Has.writeState (hs : w.Sound bd) (h : w.Has p c t) (st : BlockState) :
    w.writeState bd p c st = w.setState bd p st := by
  simp only [World.writeState, World.setState]
  rw [setState_eq_writeByte (hs.represents _ h.1) h.2.1]

/-- A block that is out changes its state; the others keep theirs. -/
lemma Has.setState (hs : w.Sound bd) (h : w.Has p c t) (ht : t ≠ .free) (st : BlockState)
    (hst : st ≠ .free) :
    (w.setState bd p st).Sound bd ∧ (∀ base, (w.setState bd p st).heap.mapped base =
      w.heap.mapped base) ∧ ∀ q d u, (w.setState bd p st).Has q d u ↔
        if q = p then d = c ∧ u = st else w.Has q d u := by
  obtain ⟨hm, hc, hp⟩ := h
  have hrep := setState_spec (hs.represents _ hm) hc (by rwa [hp]) hst
  have hsound : (w.setState bd p st).Sound bd := hs.put hrep
  refine ⟨hsound, fun _ => rfl, fun q d u => ?_⟩
  have hself : (w.setState bd p st).Has p c st := by
    refine ⟨hm, ?_, ?_⟩ <;> simp [World.setState, World.put, Blocks.put, hc]
  split_ifs with hq
  · subst q
    constructor
    · intro hh
      obtain ⟨rfl, rfl⟩ := Has.unique hsound hh hself
      exact ⟨rfl, rfl⟩
    · rintro ⟨rfl, rfl⟩
      exact hself
  · unfold Has Holds
    by_cases hb : segmentBaseOfPtr q = segmentBaseOfPtr p
    · have hoff : q - segmentBaseOfPtr p ≠ p - segmentBaseOfPtr p := by
        intro he
        exact hq (offset_injective hb rfl he)
      simp [World.setState, World.put, Heap.set, Blocks.put, hb, hoff]
    · simp [World.setState, World.put, Heap.set, hb]

end World

/-! ## The two families -/

section Families
variable {f : ℕ → Multiset ℕ} {X : Multiset ℕ} {c d p : ℕ}

lemma mem_add_single : p ∈ (f + Pi.single c X : ℕ → Multiset ℕ) d ↔ p ∈ f d ∨ d = c ∧ p ∈ X := by
  rw [Pi.add_apply, Multiset.mem_add]
  by_cases hd : d = c
  · subst d
    simp
  · simp [hd]

lemma nodup_add_single : (∀ d, ((f + Pi.single c X : ℕ → Multiset ℕ) d).Nodup) ↔
    (∀ d, (f d).Nodup) ∧ X.Nodup ∧ Disjoint (f c) X := by
  constructor
  · intro h
    have hc := h c
    rw [Pi.add_apply, Pi.single_eq_same, Multiset.nodup_add] at hc
    exact ⟨fun d => Multiset.nodup_of_le (Multiset.le_add_right _ _) (h d), hc.2⟩
  · rintro ⟨h1, h2, h3⟩ d
    rw [Pi.add_apply]
    by_cases hd : d = c
    · subst d
      rw [Pi.single_eq_same, Multiset.nodup_add]
      exact ⟨h1 c, h2, h3⟩
    · rw [Pi.single_eq_of_ne hd, add_zero]
      exact h1 d

end Families

/-! ## Families by state -/

namespace World
variable {bd : Build} {w w' : World} {f : ℕ → Multiset ℕ} {p q c d : ℕ} {st t : BlockState}
  {es : List Event} {ps : List ℕ}

/-- The family has exactly the blocks in the state. -/
def Lists (w : World) (f : ℕ → Multiset ℕ) (st : BlockState) : Prop :=
  ∀ c p, p ∈ f c ↔ w.Has p c st

/-- A refill adds the blocks that it issues. -/
lemma Issues.lists_issued (hi : Issues bd w w' c st es) (ha : w.Aligned) (hst : st ≠ .free)
    (h : w.Lists f st) : w'.Lists (f + Pi.single c (issuedPointers es : Multiset ℕ)) st := by
  intro d p
  rw [mem_add_single, h d p]
  by_cases hq : p ∈ issuedPointers es
  · have hself := hi.has_issued ha hq
    constructor
    · rintro (hh | ⟨rfl, -⟩)
      · exact absurd (hi.fresh_pointer ha hq hh) hst
      · exact hself
    · intro hh
      exact .inr ⟨(World.Has.unique hi.sound hh hself).1, by simpa using hq⟩
  · rw [hi.has_of_not_issued hst hq]
    simp [hq]

/-- A refill leaves the blocks of another state. -/
lemma Issues.lists_kept (hi : Issues bd w w' c st es) (ha : w.Aligned) (ht : t ≠ .free)
    (hne : t ≠ st) (h : w.Lists f t) : w'.Lists f t := by
  intro d p
  rw [h d p]
  by_cases hq : p ∈ issuedPointers es
  · constructor
    · intro hh
      exact absurd (hi.fresh_pointer ha hq hh) ht
    · intro hh
      exact absurd (World.Has.unique hi.sound hh (hi.has_issued ha hq)).2 hne
  · exact (hi.has_of_not_issued ht hq).symm

/-- A flush takes the flushed blocks from their family. -/
lemma Returns.lists_returned (hr : Returns bd w w' ps) (hs : w.Sound bd) (ha : w.Aligned)
    (ht : t ≠ .free) (hdisj : Disjoint (f c) (ps : Multiset ℕ))
    (h : w.Lists (f + Pi.single c (ps : Multiset ℕ)) t) : w'.Lists f t := by
  intro d p
  have hp := h d p
  rw [mem_add_single] at hp
  by_cases hq : p ∈ ps
  · have hhas : w.Has p c t := (h c p).mp (mem_add_single.mpr (.inr ⟨rfl, by simpa using hq⟩))
    constructor
    · intro hmem
      obtain rfl := (World.Has.unique hs (hp.mp (.inl hmem)) hhas).1
      exact absurd (by simpa using hq) (Multiset.disjoint_left.mp hdisj hmem)
    · intro hh
      exact absurd (hr.free_of_flushed hq (hhas.ne_zero ha) hh) ht
  · rw [hr.has_of_not_flushed ht hq, ← hp]
    simp [hq]

/-- A flush leaves the blocks of another state. -/
lemma Returns.lists_kept (hr : Returns bd w w' ps) (hs : w.Sound bd) (ha : w.Aligned)
    (ht : t ≠ .free) (hne : t ≠ st) (hps : ∀ p ∈ ps, w.Has p c st) (h : w.Lists f t) :
    w'.Lists f t := by
  intro d p
  rw [h d p]
  by_cases hq : p ∈ ps
  · constructor
    · intro hh
      exact absurd (World.Has.unique hs hh (hps p hq)).2 hne
    · intro hh
      exact absurd (hr.free_of_flushed hq ((hps p hq).ne_zero ha) hh) ht
  · exact (hr.has_of_not_flushed ht hq).symm

/-- A block that takes a state joins the blocks of that state. -/
lemma Lists.entered (h : w.Lists f st) (hs : w.Sound bd) (hp : w.Has p c t) (hne : t ≠ st)
    (hhas : ∀ q d u, w'.Has q d u ↔ if q = p then d = c ∧ u = st else w.Has q d u) :
    w'.Lists (f + Pi.single c {p}) st := by
  intro d q
  rw [hhas, mem_add_single, h d q, Multiset.mem_singleton]
  split_ifs with hq
  · subst q
    constructor
    · rintro (hh | ⟨rfl, -⟩)
      · exact absurd (World.Has.unique hs hp hh).2 hne
      · exact ⟨rfl, rfl⟩
    · rintro ⟨rfl, -⟩
      exact .inr ⟨rfl, rfl⟩
  · simp [hq]

/-- A block that changes its state leaves the blocks of the old one. -/
lemma Lists.left (h : w.Lists (f + Pi.single c {p}) t) (hs : w.Sound bd) (hp : w.Has p c t)
    (hne : t ≠ st) (hdisj : Disjoint (f c) {p})
    (hhas : ∀ q d u, w'.Has q d u ↔ if q = p then d = c ∧ u = st else w.Has q d u) :
    w'.Lists f t := by
  intro d q
  have hq' := h d q
  rw [mem_add_single, Multiset.mem_singleton] at hq'
  rw [hhas]
  split_ifs with hq
  · subst q
    refine iff_of_false (fun hmem => ?_) fun hd => hne hd.2
    obtain rfl := (World.Has.unique hs (hq'.mp (.inl hmem)) hp).1
    exact Multiset.disjoint_left.mp hdisj hmem (by simp)
  · rw [← hq']
    simp [hq]

end World

/-- The user holds exactly the live blocks, and the cached blocks are exactly the resting ones; each
once. -/
structure Owned (bd : Build) (w : World) (user cached : ℕ → Multiset ℕ) : Prop where
  sound : w.Sound bd
  aligned : w.Aligned
  resting : w.Lists cached .mag
  out : w.Lists user .live
  user_nodup : ∀ c, (user c).Nodup
  cached_nodup : ∀ c, (cached c).Nodup

namespace Owned
variable {bd : Build} {w : World} {user cached rest : ℕ → Multiset ℕ} {c d p : ℕ}

lemma class_eq (h : Owned bd w user cached) (hc : p ∈ user c ∨ p ∈ cached c)
    (hd : p ∈ user d ∨ p ∈ cached d) : c = d := by
  have hhas : ∀ e, p ∈ user e ∨ p ∈ cached e → ∃ st, w.Has p e st := by
    rintro e (he | he)
    · exact ⟨_, (h.out e p).mp he⟩
    · exact ⟨_, (h.resting e p).mp he⟩
  obtain ⟨st, hst⟩ := hhas c hc
  obtain ⟨t, ht⟩ := hhas d hd
  exact (World.Has.unique h.sound hst ht).1

lemma not_both (h : Owned bd w user cached) (hu : p ∈ user c) (hc : p ∈ cached d) : False := by
  have := (World.Has.unique h.sound ((h.out c p).mp hu) ((h.resting d p).mp hc)).2
  contradiction

/-- The core hands out blocks that rest in a magazine. -/
lemma refillMag (h : Owned bd w user cached) (hc : c < bd.sizes.count) (want : ℕ)
    (rounds : List RefillRound) : ∃ w' es, w.refill bd c want .mag rounds = some (w', es) ∧
      (issuedPointers es).length ≤ want ∧
      Owned bd w' user (cached + Pi.single c (issuedPointers es : Multiset ℕ)) := by
  have hst : BlockState.mag ≠ .free := by decide
  obtain ⟨w', es, he, hlen, hi⟩ := h.sound.refill hc want hst rounds
  refine ⟨w', es, he, by simpa [issuedPointers] using hlen, hi.sound, hi.aligned h.aligned,
    hi.lists_issued h.aligned hst h.resting,
    hi.lists_kept h.aligned (by decide) (by decide) h.out, h.user_nodup, ?_⟩
  rw [nodup_add_single]
  refine ⟨h.cached_nodup, hi.pointers_nodup h.aligned, ?_⟩
  rw [Multiset.disjoint_left]
  intro p hp hq
  have := hi.fresh_pointer h.aligned (by simpa using hq) ((h.resting c p).mp hp)
  contradiction

/-- The core hands out blocks that go to the user. -/
lemma refillLive (h : Owned bd w user cached) (hc : c < bd.sizes.count) (want : ℕ)
    (rounds : List RefillRound) : ∃ w' es, w.refill bd c want .live rounds = some (w', es) ∧
      (issuedPointers es).length ≤ want ∧
      Owned bd w' (user + Pi.single c (issuedPointers es : Multiset ℕ)) cached := by
  have hst : BlockState.live ≠ .free := by decide
  obtain ⟨w', es, he, hlen, hi⟩ := h.sound.refill hc want hst rounds
  refine ⟨w', es, he, by simpa [issuedPointers] using hlen, hi.sound, hi.aligned h.aligned,
    hi.lists_kept h.aligned (by decide) (by decide) h.resting,
    hi.lists_issued h.aligned hst h.out, ?_, h.cached_nodup⟩
  rw [nodup_add_single]
  refine ⟨h.user_nodup, hi.pointers_nodup h.aligned, ?_⟩
  rw [Multiset.disjoint_left]
  intro p hp hq
  have := hi.fresh_pointer h.aligned (by simpa using hq) ((h.out c p).mp hp)
  contradiction

/-- Resting blocks are flushed. -/
lemma flush {ps : List ℕ} (h : Owned bd w user (rest + Pi.single c (ps : Multiset ℕ)))
    (pooled : ℕ → Bool) : ∃ w', w.flush bd c ps pooled = some w' ∧ Owned bd w' user rest := by
  obtain ⟨hrest, hn, hdisj⟩ := nodup_add_single.mp h.cached_nodup
  have hmag : ∀ p ∈ ps, w.Has p c .mag := fun p hp =>
    (h.resting c p).mp (mem_add_single.mpr (.inr ⟨rfl, by simpa using hp⟩))
  have hf : w.Flushable c ps := by
    refine ⟨List.Nodup.filter _ (by simpa using hn), fun p hp _ => ?_⟩
    obtain ⟨h1, h2, h3⟩ := hmag p hp
    exact ⟨h1, h2, by rw [h3]; decide⟩
  obtain ⟨w', he, hr⟩ := h.sound.flush hf pooled
  exact ⟨w', he, hr.sound, fun base hm => h.aligned base (hr.mapped base hm),
    hr.lists_returned h.sound h.aligned (by decide) hdisj h.resting,
    hr.lists_kept h.sound h.aligned (by decide) (by decide) hmag h.out, h.user_nodup, hrest⟩

/-- A resting block is issued. -/
lemma issue (h : Owned bd w user (rest + Pi.single c {p})) :
    Owned bd (w.setState bd p .live) (user + Pi.single c {p}) rest := by
  have hmem : p ∈ (rest + Pi.single c {p} : ℕ → Multiset ℕ) c :=
    mem_add_single.mpr (.inr ⟨rfl, by simp⟩)
  have hmag : w.Has p c .mag := (h.resting c p).mp hmem
  obtain ⟨hs, hm, hhas⟩ := hmag.setState h.sound (by decide) .live (by decide)
  obtain ⟨hrest, hn, hdisj⟩ := nodup_add_single.mp h.cached_nodup
  refine ⟨hs, fun base hb => h.aligned base (by rwa [hm] at hb),
    h.resting.left h.sound hmag (by decide) hdisj hhas,
    h.out.entered h.sound hmag (by decide) hhas, ?_, hrest⟩
  rw [nodup_add_single]
  refine ⟨h.user_nodup, hn, ?_⟩
  rw [Multiset.disjoint_left]
  intro q hu hq
  rw [Multiset.mem_singleton.mp hq] at hu
  exact h.not_both hu hmem

/-- A live block comes to rest. -/
lemma free (h : Owned bd w (rest + Pi.single c {p}) cached) :
    Owned bd (w.writeState bd p c .mag) rest (cached + Pi.single c {p}) := by
  have hmem : p ∈ (rest + Pi.single c {p} : ℕ → Multiset ℕ) c :=
    mem_add_single.mpr (.inr ⟨rfl, by simp⟩)
  have hlive : w.Has p c .live := (h.out c p).mp hmem
  obtain ⟨hs, hm, hhas⟩ := hlive.setState h.sound (by decide) .mag (by decide)
  obtain ⟨hrest, hn, hdisj⟩ := nodup_add_single.mp h.user_nodup
  rw [hlive.writeState h.sound]
  refine ⟨hs, fun base hb => h.aligned base (by rwa [hm] at hb),
    h.resting.entered h.sound hlive (by decide) hhas,
    h.out.left h.sound hlive (by decide) hdisj hhas, hrest, ?_⟩
  rw [nodup_add_single]
  refine ⟨h.cached_nodup, hn, ?_⟩
  rw [Multiset.disjoint_left]
  intro q hc hq
  rw [Multiset.mem_singleton.mp hq] at hc
  exact h.not_both hmem hc

end Owned

end Small

end SeferAlloc
