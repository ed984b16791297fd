import SeferAlloc.ClassLeavesRuns
import SeferAlloc.SmallBatch

/-!
# Batch drains

A batch drain follows the links of a free list as single pops do and stores the
head and the counter at the end. The blocks of a list keep the code of their
class, so a pop issues a code that is there, and no leaf is prepared.
-/
namespace SeferAlloc
namespace SmallBatch
open Small IntrusiveList ClassLeaves RoutedIssueRun

/-! ## Codes that are there -/

/-- The leaf of a block is published and holds the code of the class. -/
def Coded (home : Home) (cls off : ℕ) : Prop :=
  Published home.codes off ∧ home.codes.encoded (off / minBlock) = cls + 1

section
variable {sc : SizeClasses} {sys : System} {s : ClassLeaves} {cls off granule : ℕ}

lemma prepare_published (hs : s.Slab sys) (hp : Published s off) (hcls : cls < sc.count) :
    SmallSidecar.prepare sc sys off cls s = (s, true) := by
  obtain ⟨g, hg, hleaf⟩ := hp
  have hr : inRange sc g cls = true := decide_eq_true ⟨granuleOf_lt hg, hcls⟩
  have hprepared : s.prepared sc g cls = true := by
    rw [ClassLeaves.prepared, hr, Bool.true_and]
    exact decide_eq_true hleaf
  rw [sidecar_prepare hg, ClassLeaves.prepare, hr, if_neg Bool.true_eq_false.mp, if_pos hprepared]

lemma put_encoded (hleaf : s.mixed (leafIndex granule) ≠ 0) (he : s.encoded granule = cls + 1) :
    s.put granule cls = s := by
  rw [encoded, if_neg hleaf] at he
  rw [ClassLeaves.put, store, ← he, Function.update_eq_self]

/-- An issue of a code that is there changes nothing. -/
lemma issueBlock_coded {home : Home} (hs : home.codes.Slab home.system) (hcls : cls < sc.count)
    (hc : Coded home cls off) :
    issueBlock sc home.system cls off home.codes = (home.codes, .issued) := by
  obtain ⟨hp, he⟩ := hc
  obtain ⟨g, hg, hleaf⟩ := hp
  rw [hs.issueBlock, prepare_published hs ⟨g, hg, hleaf⟩ hcls, if_pos rfl, granuleOf_eq hg]
  rw [granuleOf_eq hg] at he
  rw [put_encoded hleaf he]

end

/-! ## Segments -/

/-- State bytes written at several blocks of a class. -/
def writeStates (bd : Small.Build) (cls : ℕ) (st : BlockState) (offs : List ℕ) (s : Segment) :
    Segment :=
  offs.foldl (fun s off => s.writeByte bd off cls st) s

section
variable {bd : Small.Build} {s : Segment} {b : Blocks} {cls x L : ℕ} {head : Option ℕ}
  {st : BlockState}

lemma writeStates_eq (offs : List ℕ) (s : Segment) :
    writeStates bd cls st offs s = if bd.tracked then
      { s with byte := fun g => if g ∈ offs.map (· / minBlock) then encode cls st else s.byte g }
      else s := by
  induction offs generalizing s with
  | nil => simp [writeStates]
  | cons x offs ih =>
      rw [writeStates, List.foldl_cons]
      refine (ih _).trans ?_
      rw [Segment.writeByte]
      split_ifs
      · congr 1
        funext g
        simp only [List.map_cons, List.mem_cons, Function.update_apply]
        by_cases hx : g = x / minBlock
        · simp [hx]
        · simp only [hx, false_or, if_false]
      · rfl

/-- The bytes written last remain. -/
lemma writeStates_writeStates (st st' : BlockState) (offs : List ℕ) (s : Segment) :
    writeStates bd cls st offs (writeStates bd cls st' offs s) = writeStates bd cls st offs s := by
  simp only [writeStates_eq]
  split_ifs
  · congr 1
    funext g
    by_cases hg : g ∈ offs.map (· / minBlock) <;> simp [hg]
  · rfl

lemma writeStates_settle (offs : List ℕ) (s : Segment) :
    (writeStates bd cls st offs s).settle cls head L =
      writeStates bd cls st offs (s.settle cls head L) := by
  simp only [writeStates_eq, Segment.settle]
  split_ifs <;> rfl

@[simp] lemma settle_head (s : Segment) : (s.settle cls head L).head cls = head :=
  Function.update_self ..

lemma settle_settle (s : Segment) (head' : Option ℕ) (L' : ℕ) :
    (s.settle cls head' L').settle cls head L = s.settle cls head L := by
  simp [Segment.settle]

/-- A pop of the head, whatever was stored for the class before. -/
lemma popFree_settle (h : Represents bd (s.settle cls (some x) L) b) :
    (s.settle cls (some x) L).popFree bd cls true =
      some ((s.writeByte bd x cls .live).settle cls (s.next x) (L + 1), .ok (some x)) := by
  have hlive : BlockState.live ≠ .free := by decide
  obtain ⟨-, -, hbyte, hcont, hs'⟩ := h.take hlive
  have hok : ¬(bd.debugAssertions = true ∧
      ((s.settle cls (some x) L).setHead cls (s.next x)).byte (x / minBlock) ≠
        encode cls .free) := by
    rintro ⟨hd, hb⟩
    exact hb (hbyte (by simp [Small.Build.tracked, hd]))
  have hcomm : ((s.settle cls (some x) L).setHead cls (s.next x)).writeByte bd x cls .live =
      ((s.writeByte bd x cls .live).settle cls (some x) L).setHead cls (s.next x) := by
    simp only [Segment.writeByte, Segment.setHead, Segment.settle]
    split_ifs <;> rfl
  have hstore : (((s.writeByte bd x cls .live).settle cls (some x) L).setHead cls
      (s.next x)).addLive 1 = some ((s.writeByte bd x cls .live).settle cls (s.next x) (L + 1)) := by
    rw [Represents.store (b := b.put x .live) rfl (by rw [settle_settle]; exact hs'), settle_settle]
    rfl
  have hhead : (s.settle cls (some x) L).head cls = some x := settle_head s
  have hcont' : (s.settle cls (some x) L).continuation bd x = some (s.next x) := hcont
  simp only [Segment.popFree, hhead, hcont', Option.bind_eq_bind, Option.bind_some, if_true]
  rw [if_neg hok, hcomm, hstore]
  rfl

lemma writeByte_next (s : Segment) (off : ℕ) (st : BlockState) :
    (s.writeByte bd off cls st).next = s.next :=
  (writeByte_frame s off cls st).2.2.2.2

/-- The loop of a batch drain takes the first blocks of the list. -/
lemma drainLoop_eq (hst : st ≠ .free) (want : ℕ) {l : List ℕ}
    (h : Represents bd (s.settle cls head L) b) (hl : Chain s.next head l) :
    Segment.drainLoop bd cls st want head s =
      some (writeStates bd cls st (l.take want) s, l.take want, (l.drop want).head?) := by
  induction want generalizing s b head L l with
  | zero =>
      rw [List.take_zero, List.drop_zero, hl.head?_eq]
      rfl
  | succ want ih =>
      cases head with
      | none =>
          rw [chain_none.mp hl]
          rfl
      | some x =>
          obtain ⟨l, rfl, hl⟩ := chain_some hl
          obtain ⟨-, -, -, hcont, hs⟩ := h.take hst
          have hloop := ih hs (by rwa [writeByte_next])
          rw [Segment.drainLoop, hcont]
          simp only [Option.bind_eq_bind, Option.bind_some, hloop]
          rfl

end

/-! ## Pops -/

namespace AllocCore

variable {bd : Build} {c : AllocCore} {base cls : ℕ}

@[simp] lemma homes_setHome (c : AllocCore) (base : ℕ) (home : Home) :
    (c.setHome base home).homes base = home := Function.update_self ..

@[simp] lemma setHome_setHome (c : AllocCore) (base : ℕ) (home home' : Home) :
    (c.setHome base home).setHome base home' = c.setHome base home' := by
  simp [setHome]

lemma setHome_self (c : AllocCore) (base : ℕ) : c.setHome base (c.homes base) = c := by
  simp [setHome]

@[simp] lemma setSeg_setSeg (c : AllocCore) (base : ℕ) (s s' : Segment) :
    (c.setSeg base s).setSeg base s' = c.setSeg base s' := by
  simp [setSeg]

lemma setSeg_self (c : AllocCore) (base : ℕ) : c.setSeg base (c.homes base).seg = c := c.setHome_self base

lemma publishEmpty_setSeg (c : AllocCore) (base cls : ℕ) (s : Segment) :
    (c.publishEmpty bd base cls).setSeg base s = (c.setSeg base s).publishEmpty bd base cls := by
  simp [setSeg, setHome, publishEmpty]

/-- A segment of the core represents its blocks, and each block has its class code. -/
structure Kept (bd : Build) (home : Home) (b : Blocks) : Prop where
  represents : Represents bd.small home.seg b
  slab : home.codes.Slab home.system
  coded : ∀ p ∈ b.carved, Coded home p.2 p.1

/-- A list loses its head, and the directory learns that it is empty. -/
def unlist (bd : Build) (c : AllocCore) (base cls : ℕ) (seg : Segment) : AllocCore :=
  if seg.head cls = none then (c.setSeg base seg).publishEmpty bd base cls else c.setSeg base seg

lemma popFree_eq {s : Segment} {b : Blocks} {x L : ℕ}
    (hs : (c.homes base).seg = s.settle cls (some x) L) (h : Kept bd (c.homes base) b) :
    c.popFree bd base cls = some (c.unlist bd base cls
      ((s.writeByte bd.small x cls .live).settle cls (s.next x) (L + 1)), .ok (some x)) := by
  have hrep := h.represents
  rw [hs] at hrep
  have hlive : BlockState.live ≠ .free := by decide
  obtain ⟨hx, -⟩ := hrep.take hlive
  have hissue := issueBlock_coded h.slab (hrep.placed _ hx).1 (h.coded _ hx)
  simp only [popFree, hs, settle_head, hissue, popFree_settle hrep, Option.bind_eq_bind,
    Option.bind_some, Option.pure_def]
  rw [unlist, settle_head]
  rfl

@[simp] lemma homes_unlist (c : AllocCore) (base cls : ℕ) (s : Segment) :
    (c.unlist bd base cls s).homes base = { c.homes base with seg := s } := by
  rw [unlist]
  split_ifs
  · exact homes_setHome c base _
  · exact homes_setHome c base _

lemma setSeg_unlist (c : AllocCore) (base cls : ℕ) (s s' : Segment) :
    (c.setSeg base s).unlist bd base cls s' = c.unlist bd base cls s' := by
  rw [unlist, unlist, setSeg_setSeg]

lemma unlist_setSeg {s s' : Segment} (hs : s'.head cls = s.head cls) :
    (c.unlist bd base cls s).setSeg base s' = c.unlist bd base cls s' := by
  rw [unlist, unlist, hs]
  split_ifs
  · rw [publishEmpty_setSeg, setSeg_setSeg]
  · exact setSeg_setSeg ..

lemma Kept.setSeg {home : Home} {b b' : Blocks} {s : Segment} (h : Kept bd home b)
    (hs : Represents bd.small s b') (hb : b'.carved = b.carved) :
    Kept bd { home with seg := s } b' :=
  ⟨hs, h.slab, fun p hp => h.coded p (hb ▸ hp)⟩

/-- Single pops take the first blocks of the list, and the last one may empty it. -/
lemma popEach_eq (k : ℕ) {c : AllocCore} {s : Segment} {b : Blocks} {head : Option ℕ} {L : ℕ}
    {l : List ℕ} (hs : (c.homes base).seg = s.settle cls head L) (h : Kept bd (c.homes base) b)
    (hl : Chain s.next head l) (hk : k ≤ l.length) :
    popEach bd base cls k c = some (if k = 0 then c else c.unlist bd base cls
      ((writeStates bd.small cls .live (l.take k) s).settle cls (l.drop k).head? (L + k)),
      l.take k) := by
  induction k generalizing c s b head L l with
  | zero => rfl
  | succ k ih =>
      cases head with
      | none =>
          rw [chain_none.mp hl] at hk
          simp at hk
      | some x =>
          obtain ⟨l, rfl, htail⟩ := chain_some hl
          have hrep := h.represents
          rw [hs] at hrep
          have hlive : BlockState.live ≠ .free := by decide
          obtain ⟨-, -, -, -, hrep₁⟩ := hrep.take hlive
          set s₁ := (s.writeByte bd.small x cls .live).settle cls (s.next x) (L + 1) with hs₁
          have hpop : c.popFree bd base cls = some (c.unlist bd base cls s₁, .ok (some x)) :=
            popFree_eq hs h
          have hkept : Kept bd ((c.unlist bd base cls s₁).homes base) (b.put x .live) := by
            rw [homes_unlist]
            exact h.setSeg hrep₁ rfl
          have hseg : ((c.unlist bd base cls s₁).homes base).seg =
              (s.writeByte bd.small x cls .live).settle cls (s.next x) (L + 1) := by
            rw [homes_unlist]
          have hrest := ih hseg hkept (by rwa [writeByte_next]) (Nat.le_of_succ_le_succ hk)
          rw [popEach, hpop]
          simp only [Option.bind_eq_bind, Option.bind_some, hrest, Option.pure_def]
          congr 2
          rw [if_neg k.succ_ne_zero, List.drop_succ_cons]
          cases k with
          | zero =>
              rw [if_pos rfl, List.drop_zero, htail.head?_eq]
              rfl
          | succ k =>
              -- A block is left, so the list is not empty after the first pop.
              have hne : s₁.head cls ≠ none := by
                intro hnone
                rw [hs₁, settle_head] at hnone
                rw [hnone] at htail
                rw [chain_none.mp htail] at hk
                simp at hk
              have hfirst : c.unlist bd base cls s₁ = c.setSeg base s₁ := if_neg hne
              rw [if_neg k.succ_ne_zero, hfirst, setSeg_unlist, Nat.add_assoc, Nat.add_comm 1]
              rfl

/-- A batch drain takes the first blocks of the list. -/
lemma tryDrainFreelistBatch_eq {b : Blocks} {st : BlockState} (hst : st ≠ .free) (want : ℕ)
    {l : List ℕ} (h : Kept bd (c.homes base) b)
    (hl : Chain (c.homes base).seg.next ((c.homes base).seg.head cls) l) :
    c.tryDrainFreelistBatch bd base cls want st =
      some (if l.take want = [] then c else c.unlist bd base cls
        ((writeStates bd.small cls st (l.take want) (c.homes base).seg).settle cls
          (l.drop want).head? ((c.homes base).seg.live + (l.take want).length)), l.take want) := by
  set s := (c.homes base).seg with hs
  rw [tryDrainFreelistBatch]
  simp only [← hs]
  by_cases hnone : want = 0 ∨ s.head cls = none
  · have hempty : l.take want = [] := by
      obtain rfl | hn := hnone
      · exact List.take_zero
      · rw [hn] at hl
        rw [chain_none.mp hl, List.take_nil]
    rw [if_pos hnone, hempty, if_pos rfl]
  have hne : l.take want ≠ [] := by
    intro hempty
    obtain h0 | hl0 := List.take_eq_nil_iff.mp hempty
    · exact hnone (.inl h0)
    · subst hl0
      refine hnone (.inr ?_)
      rw [← hl.head?_eq, List.head?_nil]
  have hself : Represents bd.small (s.settle cls (s.head cls) s.live) b := by
    rw [Segment.settle_self]
    exact h.represents
  obtain ⟨s', out, rest, hloop, -, -, -, hout, hrep⟩ := drainLoop_spec hst want hself
  have heq := drainLoop_eq hst want hself hl
  rw [heq] at hloop
  obtain ⟨rfl, rfl, rfl⟩ : writeStates bd.small cls st (l.take want) s = s' ∧ l.take want = out ∧
      (l.drop want).head? = rest := by simpa using hloop
  have hlive : (writeStates bd.small cls st (l.take want) s).live = s.live := by
    rw [writeStates_eq]
    split_ifs <;> rfl
  have hsegment : s.tryDrainFreelistBatch bd.small cls want st = some ((writeStates bd.small cls st
      (l.take want) s).settle cls (l.drop want).head? (s.live + (l.take want).length),
        l.take want) := by
    rw [Segment.tryDrainFreelistBatch, if_neg hnone, heq]
    simp only [Option.bind_eq_bind, Option.bind_some, hrep.store hlive, Option.pure_def]
  have hcodes : ¬(bd.small.debugAssertions = true ∧
      (l.take want).all (codePresent (c.homes base) cls) = false) := by
    rintro ⟨-, hall⟩
    rw [List.all_eq_false] at hall
    obtain ⟨x, hx, hcode⟩ := hall
    exact hcode (decide_eq_true (h.coded _ (hout x hx).1).2)
  rw [if_neg hnone, hsegment]
  simp only [Option.bind_eq_bind, Option.bind_some, if_neg hcodes, if_neg hne]
  rfl

/-- A batch drain is as many pops as the list has blocks for; with another state than LIVE it
leaves that state in the bytes of the blocks. -/
lemma drain_eq_pops {b : Blocks} (want : ℕ) (h : Kept bd (c.homes base) b) :
    ∃ l c', Chain (c.homes base).seg.next ((c.homes base).seg.head cls) l ∧
      popEach bd base cls (min want l.length) c = some (c', l.take want) ∧
      writeStates bd.small cls .live (l.take want) (c'.homes base).seg = (c'.homes base).seg ∧
      ∀ st, st ≠ .free → c.tryDrainFreelistBatch bd base cls want st =
        some (c'.setSeg base (writeStates bd.small cls st (l.take want) (c'.homes base).seg),
          l.take want) := by
  obtain ⟨l, hl, -⟩ := h.represents.lists cls
  have hself : (c.homes base).seg = (c.homes base).seg.settle cls ((c.homes base).seg.head cls)
      (c.homes base).seg.live := (Segment.settle_self _ _).symm
  have hpops := popEach_eq (min want l.length) hself h hl (min_le_right _ _)
  have htake : l.take (min want l.length) = l.take want := by
    rw [← List.take_take, List.take_length]
  have hdrop : l.drop (min want l.length) = l.drop want := by
    obtain hle | hle := le_total want l.length
    · rw [min_eq_left hle]
    · rw [min_eq_right hle, List.drop_length, List.drop_eq_nil_of_le hle]
  rw [htake, hdrop] at hpops
  by_cases hempty : l.take want = []
  · have hlen : min want l.length = 0 := by rw [← List.length_take, hempty, List.length_nil]
    rw [hempty, hlen, if_pos rfl] at hpops
    refine ⟨l, c, hl, by rw [hlen, hempty, hpops], by rw [hempty]; rfl, fun st hst => ?_⟩
    rw [tryDrainFreelistBatch_eq hst want h hl, hempty, if_pos rfl]
    exact congrArg (fun c => some (c, [])) (c.setSeg_self base).symm
  · have hlen : min want l.length ≠ 0 := by
      rw [← List.length_take]
      simpa using hempty
    rw [if_neg hlen] at hpops
    refine ⟨l, _, hl, hpops, ?_, fun st hst => ?_⟩
    · rw [homes_unlist, ← writeStates_settle, writeStates_writeStates]
    · rw [tryDrainFreelistBatch_eq hst want h hl, if_neg hempty, homes_unlist,
        ← writeStates_settle, writeStates_writeStates, ← List.length_take,
        unlist_setSeg (by rw [settle_head, settle_head])]

end AllocCore

end SmallBatch

end SeferAlloc
