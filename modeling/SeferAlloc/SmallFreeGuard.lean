import SeferAlloc.ActiveKindIndex
import SeferAlloc.SmallSegmentOperations

/-!
# The guard of an own free

Before a freed block enters a magazine, the guard reads the kind of its segment
and, with the misuse checks, the state byte of its granule. What it accepts is
a live block of the class; a live block of the class is always accepted.
-/
namespace SeferAlloc
namespace Small

inductive SmallFreeGuard where
  | accept
  | rejectNoOp
  | rejectNoOpSilent
  | routeToLargeFree
deriving DecidableEq

/-- The header's kind of a small segment. -/
def Kind.header : Kind → SegmentKind
  | .small => .small
  | .primordial => .primordial

/-- The payload start by the header's kind, as the guard computes it. -/
def Build.guardStart (bd : Build) (kind : SegmentKind) : ℕ :=
  if kind = .primordial then bd.primordialMetaEnd else bd.smallMetaEnd

/-- `small_free_guard` at offset `off`; `interior` says whether a Large segment's payload starts
elsewhere, and `none` is the abort of `shadow_reject`. -/
def smallFreeGuard (bd : Build) (kind : SegmentKind) (interior : Bool) (s : Segment) (off c : ℕ) :
    Option SmallFreeGuard :=
  if kind = .large then
    if bd.tracked ∧ interior then shadowReject bd .rejectNoOp else some .routeToLargeFree
  else if kind = .unknown then some .rejectNoOp
  else if bd.tracked ∧ off < bd.guardStart kind then shadowReject bd .rejectNoOp
  else
    let byte := s.byte (off / minBlock)
    if off % minBlock ≠ 0 then some .rejectNoOpSilent
    else if bd.tracked ∧ byte ≠ encode c .live then
      shadowReject bd
        (if byte ≠ 0 ∧ byte >>> 6 = BitVec.ofNat 8 BlockState.live.code then .rejectNoOpSilent
        else if byte = 0 ∧ off < s.bump then .rejectNoOpSilent else .rejectNoOp)
    else if bd.tracked ∧ s.bump ≤ off then shadowReject bd .rejectNoOp
    else some .accept

variable {bd : Build} {s : Segment} {b : Blocks} {x c : ℕ} {interior : Bool}

lemma guardStart_header (bd : Build) (kind : Kind) :
    bd.guardStart kind.header = bd.payloadStart kind := by
  cases kind <;> rfl

/-- A live block may be freed under its class. -/
lemma smallFreeGuard_live (h : Represents bd s b) (hx : (x, c) ∈ b.carved) (hlive : b.place x = .live) :
    smallFreeGuard bd s.kind.header interior s x c = some .accept := by
  obtain ⟨h1, h2, h3, -⟩ := h.in_payload hx
  have hl : s.kind.header ≠ .large := by cases s.kind <;> simp [Kind.header]
  have hu : s.kind.header ≠ .unknown := by cases s.kind <;> simp [Kind.header]
  have hbyte : ¬(bd.tracked = true ∧ s.byte (x / minBlock) ≠ encode c .live) := by
    rintro ⟨ht, hne⟩
    exact hne (by rw [h.bytes ht _ hx, hlive])
  unfold smallFreeGuard
  rw [if_neg hl, if_neg hu, guardStart_header, if_neg (by omega)]
  dsimp only
  rw [if_neg (by omega), if_neg hbyte, if_neg (by omega)]

/-- With the misuse checks only a live block of the class is accepted. -/
lemma smallFreeGuard_accept (hm : bd.misuseChecks = true) (h : Represents bd s b)
    (hc : c < bd.sizes.count)
    (ha : smallFreeGuard bd s.kind.header interior s x c = some .accept) :
    (x, c) ∈ b.carved ∧ b.place x = .live := by
  have ht : bd.tracked = true := by simp [Build.tracked, hm]
  have h63 := bd.class_lt hc
  unfold smallFreeGuard at ha
  simp only [shadowReject_of_misuse hm, ht, true_and] at ha
  split_ifs at ha with h1 h2 h3 h4 h5 h6 h7 h8 h9
  all_goals first | contradiction | skip
  have hbyte : s.byte (x / minBlock) = encode c .live := not_not.mp h6
  have hx : x / minBlock * minBlock = x := by
    simp only [minBlock] at h5 ⊢
    omega
  -- A byte that is not blank belongs to a carved block, whose class and state it encodes.
  obtain ⟨p, hp, hpx⟩ : ∃ p ∈ b.carved, p.1 = x := by
    by_contra hno
    push Not at hno
    exact encode_ne_zero h63 .live (hbyte.symm.trans (h.blank ht _ (by rwa [hx])))
  have hcls := bd.class_lt (h.placed p hp).1
  have he := h.bytes ht p hp
  rw [hpx, hbyte] at he
  obtain ⟨h1, h2⟩ := encode_injective h63 hcls he
  obtain ⟨y, d⟩ := p
  simp only at hpx h1
  subst hpx h1
  exact ⟨hp, h2.symm⟩

/-- With the misuse checks the guard never aborts. -/
lemma smallFreeGuard_total (hm : bd.misuseChecks = true) (kind : SegmentKind) (interior : Bool)
    (s : Segment) (x c : ℕ) : ∃ g, smallFreeGuard bd kind interior s x c = some g := by
  unfold smallFreeGuard
  simp only [shadowReject_of_misuse hm]
  split_ifs <;> exact ⟨_, rfl⟩

end Small

end SeferAlloc
