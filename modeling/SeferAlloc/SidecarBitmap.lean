import SeferAlloc.BitWord
import SeferAlloc.Interleaving
import SeferAlloc.SegmentLayout

/-!
# The remote-free sidecar

Every routed small segment has a bitmap with one pending bit for each granule
and a class byte for each granule, kept in leaves that are allocated on demand.
The owner issues blocks and cuts the bitmap word by word; any thread publishes
the block it frees. A block is tracked by its granule: it is with the owner,
with the user, on its way into the bitmap, or in the bitmap or an unfinished
cut. An abort of the source is the location `fatal`.
-/
namespace SeferAlloc
namespace Sidecar
open BitWord Interleaving

/-- The granules of a segment. -/
def granules : ℕ := segment / minBlock

/-- The bitmap's words. -/
def words : ℕ := granules / 64

/-- The bytes one word of the bitmap stands for. -/
def sidecarWordBytes : ℕ := 64 * minBlock

/-- The granules whose codes one leaf holds. -/
def leafGranules : ℕ := 256

/-- `SMALL_CLASS_COUNT`, and whether the misuse checks are compiled in. -/
structure Build where
  smallClassCount : ℕ
  checked : Bool

/-- The pending words and the class leaves; `mixed` says which leaves exist. -/
structure Bitmap where
  pending : ℕ → Word
  mixed : ℕ → Bool
  classes : ℕ → ℕ

def Bitmap.new : Bitmap := ⟨fun _ => 0, fun _ => false, fun _ => 0⟩

/-- The granule of an offset that starts one. -/
def granule (offset : ℕ) : Option ℕ :=
  if offset < segment ∧ offset % minBlock = 0 then some (offset / minBlock) else none

namespace Bitmap

def encoded (b : Bitmap) (g : ℕ) : ℕ := if b.mixed (g / leafGranules) then b.classes g else 0

/-- `prepare`: the leaf of the granule exists afterwards, zero-filled when it is new. -/
def prepare (bd : Build) (b : Bitmap) (offset cls : ℕ) (ok : Bool) : Bitmap × Bool :=
  match granule offset with
  | none => (b, false)
  | some g =>
      if bd.smallClassCount ≤ cls then (b, false)
      else if b.mixed (g / leafGranules) then (b, true)
      else if ok then
        ({ b with
            mixed := Function.update b.mixed (g / leafGranules) true
            classes := fun x => if x / leafGranules = g / leafGranules then 0 else b.classes x },
          true)
      else (b, false)

/-- `issue` on a prepared leaf. -/
def issue (bd : Build) (b : Bitmap) (offset cls : ℕ) (ok : Bool) : Bitmap × Bool :=
  match b.prepare bd offset cls ok, granule offset with
  | (b, true), some g => ({ b with classes := Function.update b.classes g (cls + 1) }, true)
  | (b, _), _ => (b, false)

/-- The granule whose bit `publish` will set; `none` when it drops the block. -/
def publishTarget (bd : Build) (b : Bitmap) (offset : ℕ) : Option ℕ :=
  match granule offset with
  | none => none
  | some g => if bd.checked ∧ b.encoded g = 0 then none else some g

/-- The `fetch_or` of `publish`. -/
def setPending (b : Bitmap) (g : ℕ) : Bitmap :=
  { b with pending := Function.update b.pending (g / 64) (b.pending (g / 64) ||| bit (g % 64)) }

def clearWord (b : Bitmap) (w : ℕ) : Bitmap := { b with pending := Function.update b.pending w 0 }

end Bitmap

/-- `BitmapScan`: the words still to be cut. -/
structure Scan where
  nextWord : ℕ
  endWord : ℕ

/-- The words a scan up to `highWater` covers, if its ends make sense. -/
def scanFrom (highWater startWord : ℕ) : Option Scan :=
  if segment < highWater then none
  else
    let endWord := (highWater + sidecarWordBytes - 1) / sidecarWordBytes
    if endWord < startWord then none
    else if words < startWord then none
    else some ⟨startWord, endWord⟩

/-- The cursor half of `next_cut`: the word to cut and the scan after it. -/
def Scan.advance (s : Scan) : Option (ℕ × Scan) :=
  if s.nextWord = s.endWord then none else some (s.nextWord, { s with nextWord := s.nextWord + 1 })

/-- A bounded scan: the words of at most `budget` cuts, and the word to resume from. -/
def Scan.cuts : ℕ → Scan → List ℕ × ℕ
  | 0, s => ([], s.nextWord)
  | budget + 1, s =>
      match s.advance with
      | none => ([], s.nextWord)
      | some (w, s) => (w :: (s.cuts budget).1, (s.cuts budget).2)

/-- Bounded scans in a row, each resumed from the word the last one returned and with the high
water read again. -/
def resumedScans : List (ℕ × ℕ) → ℕ → List ℕ × ℕ
  | [], word => ([], word)
  | (highWater, budget) :: rest, word =>
      match scanFrom highWater word with
      | none => resumedScans rest word
      | some s =>
          let later := resumedScans rest (s.cuts budget).2
          ((s.cuts budget).1 ++ later.1, later.2)

/-- `BitmapCut`: the detached bits of one word. -/
structure Cut where
  word : ℕ
  bits : Word

/-- A pending free: its offset and class. -/
structure Record where
  offset : ℕ
  cls : ℕ
deriving DecidableEq

/-- `pop`: `none` aborts, `some none` is an exhausted cut. -/
def Cut.pop (bd : Build) (b : Bitmap) (c : Cut) : Option (Option (Record × Cut)) :=
  if c.bits = 0 then some none
  else
    let g := c.word * 64 + trailingZeros c.bits
    let encoded := b.encoded g
    if encoded = 0 ∨ bd.smallClassCount < encoded then none
    else some (some (⟨g * minBlock, encoded - 1⟩, { c with bits := c.bits &&& (c.bits - 1) }))

lemma member_clearWord (b : Bitmap) (w g : ℕ) :
    member (b.clearWord w).pending g = (!decide (g / 64 = w) && member b.pending g) := by
  simp only [member, Bitmap.clearWord]
  by_cases hw : g / 64 = w
  · rw [hw, Function.update_self]
    simp
  · rw [Function.update_of_ne hw]
    simp [hw]

lemma scanFrom_spec {highWater startWord : ℕ} {s : Scan} (h : scanFrom highWater startWord = some s) :
    s.nextWord = startWord ∧ s.nextWord ≤ s.endWord ∧ s.endWord ≤ words ∧
      s.endWord = (highWater + sidecarWordBytes - 1) / sidecarWordBytes := by
  rw [scanFrom] at h
  have hw : words = 4096 := by decide
  simp only [segment, sidecarWordBytes, minBlock, hw] at h ⊢
  split_ifs at h with h1 h2 h3
  obtain rfl := Option.some.inj h
  exact ⟨rfl, not_lt.mp h2, by dsimp only; omega, rfl⟩

/-! ## Threads -/

/-- Where the block of a granule is. -/
inductive Holder where
  | owner
  | user
  | publishing
  | returned
deriving DecidableEq

/-- The bitmap, and a record of what has been issued, published and popped. -/
structure Shared where
  bitmap : Bitmap
  holder : ℕ → Holder
  issued : ℕ → Option ℕ
  published : List (ℕ × ℕ)
  popped : List Record

def Shared.new : Shared := ⟨.new, fun _ => .owner, fun _ => none, [], []⟩

inductive Loc where
  -- a thread that frees blocks
  | outside
  | publishing (g : ℕ)
  -- the owner
  | owner
  | scanning (s : Scan)
  | cutLoad (s : Scan) (w : ℕ)
  | cutSwap (s : Scan) (w : ℕ)
  | popping (s : Scan) (c : Cut)
  | fatal

inductive Command where
  | publish (offset : ℕ)
  | issue (offset cls : ℕ)
  | ownFree (g : ℕ)
  | scan (highWater startWord : ℕ)
  | cut
  | stop

/-- The command of a thread, and whether the system allocator serves it. -/
structure Choice where
  command : Command
  ok : Bool

/-- One atomic action. The callers keep to the contract: a block is issued while the owner
has it, and freed once by the user it was issued to. -/
def act (bd : Build) (e : Choice) (r : Shared) : Loc → Shared × Loc
  | .outside =>
      match e.command with
      | .publish offset =>
          match r.bitmap.publishTarget bd offset with
          | some g =>
              if r.holder g = .user then
                ({ r with holder := Function.update r.holder g .publishing }, .publishing g)
              else (r, .outside)
          | none => (r, .outside)
      | _ => (r, .outside)
  | .publishing g =>
      ({ r with
          bitmap := r.bitmap.setPending g
          holder := Function.update r.holder g .returned
          published := (g, (r.issued g).getD 0) :: r.published }, .outside)
  | .owner =>
      match e.command with
      | .issue offset cls =>
          match granule offset, r.bitmap.issue bd offset cls e.ok with
          | some g, (b, true) =>
              if r.holder g = .owner then
                ({ r with
                    bitmap := b
                    holder := Function.update r.holder g .user
                    issued := Function.update r.issued g (some cls) }, .owner)
              else (r, .owner)
          | _, (b, _) => ({ r with bitmap := b }, .owner)
      | .ownFree g =>
          if r.holder g = .user then
            ({ r with holder := Function.update r.holder g .owner }, .owner)
          else (r, .owner)
      | .scan highWater startWord =>
          match scanFrom highWater startWord with
          | some s => (r, .scanning s)
          | none => (r, .owner)
      | _ => (r, .owner)
  | .scanning s =>
      match e.command with
      | .cut =>
          match s.advance with
          | some (w, s) => (r, if w < words then .cutLoad s w else .fatal)
          | none => (r, .owner)
      | .stop => (r, .owner)
      | _ => (r, .scanning s)
  | .cutLoad s w => (r, if r.bitmap.pending w = 0 then .scanning s else .cutSwap s w)
  | .cutSwap s w =>
      ({ r with bitmap := r.bitmap.clearWord w }, .popping s ⟨w, r.bitmap.pending w⟩)
  | .popping s c =>
      match c.pop bd r.bitmap with
      | none => (r, .fatal)
      | some none => (r, .scanning s)
      | some (some (record, c)) =>
          ({ r with
              holder := Function.update r.holder (record.offset / minBlock) .owner
              popped := record :: r.popped }, .popping s c)
  | .fatal => (r, .fatal)

/-- The owner `none` and the threads `some i` on a fresh sidecar. -/
def World.init (ι : Type*) : Interleaving.World (Option ι) Shared Loc where
  shared := .new
  loc
    | none => .owner
    | some _ => .outside

end Sidecar

end SeferAlloc
