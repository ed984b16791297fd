import SeferAlloc.BitWord
import SeferAlloc.SegmentLayout
import SeferAlloc.SizeClasses

/-!
# Class leaves

The owner of a segment writes the class of a block, plus one, for the granule
where the block starts. The codes lie in leaves of 256 granules. A leaf gets the
next slot of a slab when its first block is issued, and the slab grows by chunks
that System may refuse. A batch of blocks resolves a leaf once and keeps a cursor
to it.
-/
namespace SeferAlloc
open BitWord

/-- The granules whose codes one leaf holds. -/
def leafGranules : ℕ := 256

/-- The leaves of a segment. -/
def leafCount : ℕ := 1024

/-- The leaves one system request is cut into. -/
def chunkLeaves : ℕ := 16

/-- The bytes of one system request. -/
def chunkBytes : ℕ := chunkLeaves * leafGranules

/-- The most requests a segment can make. -/
def chunkCount : ℕ := leafCount / chunkLeaves

/-- A span of memory from System, with the bytes it holds. -/
structure Grant where
  base : ℕ
  bytes : ℕ → ℕ

/-- The addresses of the span. -/
def Grant.Spans (g : Grant) (a : ℕ) : Prop := g.base ≤ a ∧ a < g.base + chunkBytes

instance (g : Grant) : DecidablePred g.Spans := fun _ => inferInstanceAs (Decidable (_ ∧ _))

/-- The answers of System to the chunk requests of one route. Spans in use are not null and do
not overlap. -/
structure System where
  answer : ℕ → Option Grant
  ne_null : ∀ {i g}, answer i = some g → g.base ≠ 0
  apart : ∀ {i j g h}, i < j → answer i = some g → answer j = some h →
    g.base + chunkBytes ≤ h.base ∨ h.base + chunkBytes ≤ g.base

/-- One chunk behind the other. -/
def packedAnswer (i : ℕ) : Option Grant := some ⟨(i + 1) * chunkBytes, fun _ => 0⟩

lemma packedAnswer_ne_null {i : ℕ} {g : Grant} (hg : packedAnswer i = some g) : g.base ≠ 0 := by
  obtain rfl := Option.some.inj hg
  simp [chunkBytes, chunkLeaves, leafGranules]

lemma packedAnswer_apart {i j : ℕ} {g h : Grant} (hij : i < j) (hg : packedAnswer i = some g)
    (hh : packedAnswer j = some h) :
    g.base + chunkBytes ≤ h.base ∨ h.base + chunkBytes ≤ g.base := by
  obtain rfl := Option.some.inj hg
  obtain rfl := Option.some.inj hh
  exact .inl (by simpa [← Nat.succ_mul] using Nat.mul_le_mul_right chunkBytes (by omega))

/-- System grants one chunk behind the other. -/
def packedSystem : System := ⟨packedAnswer, packedAnswer_ne_null, packedAnswer_apart⟩

/-- The leaves of a route; null pointers are 0. Beside the fields of the code it has the bytes
that `mixed` points into, the number of requests System has answered, and the order in which
leaves were promoted. -/
@[ext]
structure ClassLeaves where
  mixed : ℕ → ℕ
  present : ℕ → Word
  chunks : ℕ → ℕ
  promoted : ℕ
  memory : ℕ → ℕ
  requests : ℕ
  promotions : List ℕ

/-- A leaf resolved once, for a run of issues inside it. -/
structure LeafCursor where
  leafIdx : ℕ
  leaf : ℕ

/-- The leaf a granule's code lies in. -/
def leafIndex (granule : ℕ) : ℕ := granule / leafGranules

namespace ClassLeaves

/-- A sidecar without a leaf, over whatever the memory holds. -/
def init (memory : ℕ → ℕ) : ClassLeaves := ⟨fun _ => 0, fun _ => 0, fun _ => 0, 0, memory, 0, []⟩

/-- A granule of the segment and a small class. -/
def inRange (sc : SizeClasses) (granule cls : ℕ) : Bool :=
  decide (granule < leafCount * leafGranules ∧ cls < sc.count)

/-- The leaf of the granule is there, so an issue cannot fail. -/
def prepared (sc : SizeClasses) (granule cls : ℕ) (s : ClassLeaves) : Bool :=
  inRange sc granule cls && decide (s.mixed (leafIndex granule) ≠ 0)

/-- A store of one byte. -/
def store (a v : ℕ) (s : ClassLeaves) : ClassLeaves :=
  { s with memory := Function.update s.memory a v }

/-- The chunk request of `next_leaf_slot`, and whether System grants it. -/
def requestChunk (sys : System) (chunk : ℕ) (s : ClassLeaves) : ClassLeaves × Bool :=
  match sys.answer s.requests with
  | none => ({ s with requests := s.requests + 1 }, false)
  | some g =>
      ({ s with
        requests := s.requests + 1
        memory := fun a => if g.Spans a then g.bytes (a - g.base) else s.memory a
        chunks := Function.update s.chunks chunk g.base }, true)

/-- `next_leaf_slot`: null if System refuses a chunk. -/
def nextLeafSlot (sys : System) (s : ClassLeaves) : ClassLeaves × ℕ :=
  let n := s.promoted
  let chunk := n / chunkLeaves
  let slot := n % chunkLeaves
  match if slot = 0 then s.requestChunk sys chunk else (s, true) with
  | (s, false) => (s, 0)
  | (s, true) => ({ s with promoted := n + 1 }, s.chunks chunk + slot * leafGranules)

/-- Gives the leaf a zeroed slot, or answers that the system has none. -/
def promote (sys : System) (leaf : ℕ) (s : ClassLeaves) : ClassLeaves × Bool :=
  let (s, fresh) := s.nextLeafSlot sys
  if fresh = 0 then (s, false)
  else
    ({ s with
      memory := fun a => if fresh ≤ a ∧ a < fresh + leafGranules then 0 else s.memory a
      mixed := Function.update s.mixed leaf fresh
      present := Function.update s.present (leaf / 64) (s.present (leaf / 64) ||| bit (leaf % 64))
      promotions := s.promotions ++ [leaf] }, true)

/-- Makes an issue at the granule possible, with a new leaf if it needs one. -/
def prepare (sc : SizeClasses) (sys : System) (granule cls : ℕ) (s : ClassLeaves) :
    ClassLeaves × Bool :=
  if inRange sc granule cls = false then (s, false)
  else if s.prepared sc granule cls then (s, true)
  else s.promote sys (leafIndex granule)

/-- The leaf of the granule, if it has one. -/
def resolveLeaf (granule : ℕ) (s : ClassLeaves) : Option LeafCursor :=
  if leafCount * leafGranules ≤ granule then none
  else
    let leaf := s.mixed (leafIndex granule)
    if leaf = 0 then none else some ⟨leafIndex granule, leaf⟩

/-- Makes the leaf as `prepare` does and resolves it. -/
def prepareLeaf (sc : SizeClasses) (sys : System) (granule cls : ℕ) (s : ClassLeaves) :
    ClassLeaves × Option LeafCursor :=
  if inRange sc granule cls = false then (s, none)
  else
    match if s.prepared sc granule cls then (s, true) else s.promote sys (leafIndex granule) with
    | (s, false) => (s, none)
    | (s, true) =>
        let leaf := s.mixed (leafIndex granule)
        (s, if leaf = 0 then none else some ⟨leafIndex granule, leaf⟩)

/-- Writes the granule's code through a resolved leaf. -/
def issueIn (cursor : LeafCursor) (granule cls : ℕ) (s : ClassLeaves) : ClassLeaves :=
  s.store (cursor.leaf + granule % leafGranules) (cls + 1)

/-- Writes the granule's code, if its leaf is there. -/
def issue (sc : SizeClasses) (granule cls : ℕ) (s : ClassLeaves) : ClassLeaves × Bool :=
  if inRange sc granule cls = false then (s, false)
  else
    let mixed := s.mixed (leafIndex granule)
    if mixed = 0 then (s, false)
    else (s.store (mixed + granule % leafGranules) (cls + 1), true)

/-- The byte stored for the granule, zero where no leaf is. -/
def encoded (s : ClassLeaves) (granule : ℕ) : ℕ :=
  let mixed := s.mixed (leafIndex granule)
  if mixed = 0 then 0 else s.memory (mixed + granule % leafGranules)

end ClassLeaves

/-! ## Blocks of a segment -/

/-- `granule`: offsets of the segment that can start a block. -/
def granuleOf (offset : ℕ) : Option ℕ :=
  if offset < segment ∧ offset % minBlock = 0 then some (offset / minBlock) else none

namespace SmallSidecar
open ClassLeaves

/-- `prepared` for a block offset, which has a granule only on a granule's start. -/
def prepared (sc : SizeClasses) (offset cls : ℕ) (s : ClassLeaves) : Bool :=
  match granuleOf offset with
  | none => false
  | some granule => s.prepared sc granule cls

/-- `prepare` for a block offset. -/
def prepare (sc : SizeClasses) (sys : System) (offset cls : ℕ) (s : ClassLeaves) :
    ClassLeaves × Bool :=
  match granuleOf offset with
  | none => (s, false)
  | some granule => s.prepare sc sys granule cls

/-- The bitmap's half of an issue: it writes, and never makes a leaf. -/
def bitmapIssue (sc : SizeClasses) (offset cls : ℕ) (s : ClassLeaves) : ClassLeaves × Bool :=
  match granuleOf offset with
  | none => (s, false)
  | some granule => if sc.count ≤ cls then (s, false) else s.issue sc granule cls

/-- Issues one block: the leaf is made first where it is missing, then the code is written. -/
def issue (sc : SizeClasses) (sys : System) (offset cls : ℕ) (s : ClassLeaves) :
    ClassLeaves × Bool :=
  match if prepared sc offset cls s then (s, true) else prepare sc sys offset cls s with
  | (s, false) => (s, false)
  | (s, true) => bitmapIssue sc offset cls s

end SmallSidecar

/-- How an issue ends: System refused a leaf, all blocks are issued, or the process dies. -/
inductive Issued where
  | refused
  | issued
  | fatal
deriving DecidableEq

/-- `RouteSlots::prepare_small_issue`, then `commit` of its transaction. -/
def issueBlock (sc : SizeClasses) (sys : System) (cls offset : ℕ) (s : ClassLeaves) :
    ClassLeaves × Issued :=
  match SmallSidecar.prepare sc sys offset cls s with
  | (s, false) => (s, .refused)
  | (s, true) =>
      if SmallSidecar.prepared sc offset cls s = false then (s, .fatal)
      else
        match SmallSidecar.issue sc sys offset cls s with
        | (s, false) => (s, .fatal)
        | (s, true) => (s, .issued)

/-- The blocks one at a time. -/
def issueEach (sc : SizeClasses) (sys : System) (cls : ℕ) :
    List ℕ → ClassLeaves → ClassLeaves × Issued
  | [], s => (s, .issued)
  | offset :: offsets, s =>
      match issueBlock sc sys cls offset s with
      | (s, .issued) => issueEach sc sys cls offsets s
      | (s, ended) => (s, ended)

/-- `RoutedIssueRun`, without its leaves. -/
structure RoutedIssueRun where
  cls : ℕ
  cursor : Option LeafCursor

namespace RoutedIssueRun

/-- The cursor is in the leaf of the granule. -/
def sameLeaf (run : RoutedIssueRun) (granule : ℕ) : Bool :=
  run.cursor.any fun c => c.leafIdx == leafIndex granule

/-- Moves a run's cursor to the leaf of the next block, making the leaf if it is missing. -/
def prepareFor (sc : SizeClasses) (sys : System) (offset : ℕ) (run : RoutedIssueRun)
    (s : ClassLeaves) : RoutedIssueRun × ClassLeaves × Bool :=
  match granuleOf offset with
  | none => (run, s, false)
  | some granule =>
      if run.sameLeaf granule then (run, s, true)
      else
        match s.prepareLeaf sc sys granule run.cls with
        | (s, some cursor) => ({ run with cursor := some cursor }, s, true)
        | (s, none) => (run, s, false)

/-- `commit`; none is the fatal exit. -/
def commit (offset : ℕ) (run : RoutedIssueRun) (s : ClassLeaves) :
    Option (RoutedIssueRun × ClassLeaves) :=
  let granule := offset / minBlock
  let cursor := if run.sameLeaf granule then run.cursor else s.resolveLeaf granule
  cursor.map fun c => ({ run with cursor := cursor }, s.issueIn c granule run.cls)

/-- `prepare_for` on each block until one is refused. -/
def prepareAll (sc : SizeClasses) (sys : System) :
    List ℕ → RoutedIssueRun → ClassLeaves → RoutedIssueRun × ClassLeaves × Bool
  | [], run, s => (run, s, true)
  | offset :: offsets, run, s =>
      match run.prepareFor sc sys offset s with
      | (run, s, true) => prepareAll sc sys offsets run s
      | (run, s, false) => (run, s, false)

/-- `commit` on each block. -/
def commitAll : List ℕ → RoutedIssueRun → ClassLeaves → Option ClassLeaves
  | [], _, s => some s
  | offset :: offsets, run, s =>
      match run.commit offset s with
      | none => none
      | some (run, s) => commitAll offsets run s

end RoutedIssueRun

/-- The run of a batch: all blocks are prepared before the first is committed. -/
def issueRun (sc : SizeClasses) (sys : System) (cls : ℕ) (offsets : List ℕ) (s : ClassLeaves) :
    ClassLeaves × Issued :=
  match RoutedIssueRun.prepareAll sc sys offsets ⟨cls, none⟩ s with
  | (_, s, false) => (s, .refused)
  | (run, s, true) =>
      match run.commitAll offsets s with
      | none => (s, .fatal)
      | some s => (s, .issued)

end SeferAlloc
