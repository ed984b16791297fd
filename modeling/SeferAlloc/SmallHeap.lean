import SeferAlloc.SmallSegmentOperations

/-!
# A heap of small segments

The magazine refill and the class flush work over several segments: a refill
drains and carves wherever the search for free blocks leads, and a flush groups
its pointers into runs of one segment. What the search finds, whether pages and
segments are granted, and whether an emptied segment is pooled or released are
inputs.

Beside the heap runs a record of the blocks each segment has carved, which
tells what the callers hold; they free each block once and under its class.
-/
namespace SeferAlloc
namespace Small

/-- The segments by their base, those that are mapped, the current one, and the address ranges
that the rest of the process holds. -/
structure Heap where
  segs : ℕ → Segment
  mapped : ℕ → Bool
  smallCur : ℕ
  others : List (ℕ × ℕ)

namespace Heap

def set (h : Heap) (base : ℕ) (s : Segment) : Heap :=
  { h with segs := Function.update h.segs base s }

/-- A small segment other than the current one that has no live block is pooled, or released:
`release_or_pool_empty_segment`. The flag says whether it was emptied now. -/
def retire (h : Heap) (base : ℕ) (pooled : Bool) : Heap × Bool :=
  if (h.segs base).live = 0 ∧ base ≠ h.smallCur ∧ (h.segs base).kind = .small then
    (if pooled then h else { h with mapped := Function.update h.mapped base false }, true)
  else (h, false)

/-- What the system can grant: a free range of one segment at a segment boundary. -/
def Grantable (h : Heap) (base : ℕ) : Prop :=
  h.mapped base = false ∧ base % segment = 0 ∧ base ≠ 0 ∧
    ∀ range ∈ h.others, range.1 + range.2 ≤ base ∨ base + segment ≤ range.1

instance (h : Heap) (base : ℕ) : Decidable (h.Grantable base) :=
  inferInstanceAs (Decidable (_ ∧ _))

/-- `reserve_small_segment` at a base the system granted. -/
def reserve (bd : Build) (h : Heap) (base : ℕ) (pooled : Bool) : Heap :=
  let h' := { h with
    segs := Function.update h.segs base (.new bd .small)
    mapped := Function.update h.mapped base true
    smallCur := base }
  (h'.retire h.smallCur pooled).1

end Heap

/-- What an operation did: blocks left a free list, blocks were carved, a segment came. -/
inductive Event where
  | drained (base : ℕ) (offs : List ℕ)
  | carved (base : ℕ) (offs : List ℕ) (virgin : Bool)
  | reserved (base : ℕ)

namespace Event

/-- The blocks of an event, in the order they fill the slots. -/
def blocks : Event → List (ℕ × ℕ)
  | .drained base offs | .carved base offs _ => offs.map (base, ·)
  | .reserved _ => []

def carvings : Event → List (ℕ × ℕ)
  | .carved base offs _ => offs.map (base, ·)
  | .drained .. | .reserved _ => []

def reservations : Event → List ℕ
  | .reserved base => [base]
  | .drained .. | .carved .. => []

end Event

def issuedBlocks (es : List Event) : List (ℕ × ℕ) := es.flatMap Event.blocks

def carvedBlocks (es : List Event) : List (ℕ × ℕ) := es.flatMap Event.carvings

def reservedBases (es : List Event) : List ℕ := es.flatMap Event.reservations

/-- Carved blocks enter the record in the order they were carved. -/
def Blocks.carveAll (b : Blocks) (cls : ℕ) (st : BlockState) (offs : List ℕ) : Blocks :=
  offs.foldl (fun b off => b.carve off cls st) b

def Event.record (cls : ℕ) (st : BlockState) (blocks : ℕ → Blocks) : Event → ℕ → Blocks
  | .drained base offs => Function.update blocks base ((blocks base).putAll offs st)
  | .carved base offs _ =>
      Function.update blocks base
        ((blocks base).carveAll cls st (if st = .mag then offs.reverse else offs))
  | .reserved base => Function.update blocks base .new

/-! ## Magazine refill -/

/-- What one round of a refill meets: the segment of the class cursor, the segment the search
finds, the grants, a new segment, and the segment of the last-resort search. -/
structure RefillRound where
  cursor : Option ℕ
  found : Option ℕ
  grant : Grant
  reserved : Option ℕ
  pooled : Bool
  reservedGrant : Grant
  forced : Option ℕ

namespace Heap

/-- A batch drain of a segment the search named. -/
def drainFrom (bd : Build) (cls want : ℕ) (st : BlockState) (h : Heap) :
    Option ℕ → Option (Heap × List ℕ)
  | none => some (h, [])
  | some base =>
      if h.mapped base then do
        let (s, out) ← (h.segs base).tryDrainFreelistBatch bd cls want st
        return (h.set base s, out)
      else some (h, [])

/-- A batch carve from the current segment. -/
def carveCurrent (bd : Build) (cls want : ℕ) (st : BlockState) (grant : Grant) (h : Heap) :
    Option (Heap × Except Unit (List ℕ)) := do
  let (s, out) ← (h.segs h.smallCur).tryCarveBatch bd cls want st grant
  return (h.set h.smallCur s, out)

/-- Drains in their order; the first that yields a block ends them. -/
def drainSources (bd : Build) (cls want : ℕ) (st : BlockState) :
    List (Option ℕ) → Heap → Option (Heap × List Event × ℕ)
  | [], h => some (h, [], 0)
  | source :: rest, h => do
      let (h', out) ← h.drainFrom bd cls want st source
      if out = [] then drainSources bd cls want st rest h'
      else return (h', [.drained (source.getD h.smallCur) out], out.length)

/-- The free lists, unless they are known to be exhausted. -/
def refillFree (bd : Build) (cls want : ℕ) (st : BlockState) (round : RefillRound)
    (freeExhausted : Bool) (h : Heap) : Option (Heap × List Event × ℕ) :=
  if freeExhausted then some (h, [], 0)
  else drainSources bd cls want st [some h.smallCur, round.cursor, round.found] h

/-- The current segment is full: a new segment, or the last-resort search. -/
def refillLast (bd : Build) (cls want : ℕ) (st : BlockState) (round : RefillRound) (h : Heap) :
    Option (Heap × List Event × ℕ) :=
  match round.reserved with
  | some base =>
      if h.Grantable base then do
        let h := h.reserve bd base round.pooled
        let virgin := (h.segs h.smallCur).payloadVirgin
        match ← h.carveCurrent bd cls want st round.reservedGrant with
        | (h', .ok offs) => return (h', [.reserved base, .carved base offs virgin], offs.length)
        | (h', .error ()) => return (h', [.reserved base], 0)
      else some (h, [], 0)
  | none => do
      let (h', out) ← h.drainFrom bd cls want st round.forced
      return (h', [.drained (round.forced.getD h.smallCur) out], out.length)

/-- The bump cursor of the current segment. -/
def refillFresh (bd : Build) (cls want : ℕ) (st : BlockState) (round : RefillRound) (h : Heap) :
    Option (Heap × List Event × ℕ) := do
  let virgin := (h.segs h.smallCur).payloadVirgin
  match ← h.carveCurrent bd cls want st round.grant with
  | (h', .error ()) => return (h', [], 0)
  | (h', .ok []) => refillLast bd cls want st round h'
  | (h', .ok (off :: offs)) =>
      return (h', [.carved h.smallCur (off :: offs) virgin], (off :: offs).length)

/-- `refill_class_bump_impl` for the slots still wanted. -/
def refillLoop (bd : Build) (cls : ℕ) (st : BlockState) :
    List RefillRound → ℕ → Bool → Heap → Option (Heap × List Event)
  | [], _, _, h => some (h, [])
  | round :: rounds, want, freeExhausted, h =>
      if want = 0 then some (h, [])
      else do
        let (h, drained, n) ← refillFree bd cls want st round freeExhausted h
        if n ≠ 0 then
          let (h, events) ← refillLoop bd cls st rounds (want - n) false h
          return (h, drained ++ events)
        else
          let (h, fresh, n) ← refillFresh bd cls want st round h
          if n = 0 then return (h, drained ++ fresh)
          else
            let (h, events) ← refillLoop bd cls st rounds (want - n) true h
            return (h, drained ++ fresh ++ events)

/-! ## Magazine flush -/

/-- The pointers of one segment at the front of a list. -/
def sameSegment (candidate p : ℕ) : Bool := p ≠ 0 ∧ segmentBaseOfPtr p = candidate

/-- The recycled bases that one flush remembers. -/
def recycledCap : ℕ := 16

/-- `flush_class_internal`: nulls and unknown or emptied segments are skipped. -/
def flushClass (bd : Build) (cls : ℕ) (pooled : ℕ → Bool) :
    List ℕ → List ℕ → Heap → Option Heap
  | [], _, h => some h
  | p :: rest, recycled, h =>
      if p = 0 then flushClass bd cls pooled rest recycled h
      else
        let candidate := segmentBaseOfPtr p
        let run := p :: rest.takeWhile (sameSegment candidate)
        let rest' := rest.dropWhile (sameSegment candidate)
        if candidate ∉ recycled ∧ h.mapped candidate then do
          let (s, accepted) ← (h.segs candidate).flushRun bd cls (run.map (· - candidate))
          let (h, recycledNow) := if accepted = 0 then (h.set candidate s, false)
            else (h.set candidate s).retire candidate (pooled candidate)
          flushClass bd cls pooled rest'
            (if recycledNow ∧ recycled.length < recycledCap then candidate :: recycled
              else recycled) h
        else flushClass bd cls pooled rest' recycled h
  termination_by ps => ps.length
  decreasing_by
    all_goals simp only [List.length_cons]
    · omega
    · exact Nat.lt_succ_of_le (List.dropWhile_suffix _).length_le
    · exact Nat.lt_succ_of_le (List.dropWhile_suffix _).length_le

end Heap

end Small

end SeferAlloc
