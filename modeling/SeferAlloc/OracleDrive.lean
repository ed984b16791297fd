import Mathlib.Algebra.Group.Nat.Even
import Mathlib.Data.Multiset.AddSub
import Mathlib.Tactic.NormNum

/-!
# The differential oracle

The driver replays operations on an allocator and on a list of the blocks it
holds. Each block carries a pattern. The driver checks where a block is put, and
reads the pattern back before it gives the block away. `trace` is no part of the
program; it records the calls and the writes of the driver.
-/
namespace SeferAlloc
namespace AllocatorOracle

def usizeMax : ℕ := 2 ^ 64 - 1

def isizeMax : ℕ := 2 ^ 63 - 1

structure Layout where
  size : ℕ
  align : ℕ
deriving DecidableEq

/-- `Layout::from_size_align`: the size can be rounded up to a power of two without overflow. -/
def Layout.fromSizeAlign (size align : ℕ) : Option Layout :=
  if align.isPowerOfTwo ∧ size ≤ isizeMax + 1 - align then some ⟨size, align⟩ else none

abbrev Memory := ℕ → UInt8

/-- An allocator with a state of its own, which it may change with every call as it may change
the memory. Null is address `0`. -/
structure RawAllocator (σ : Type) where
  alloc : Layout → σ → Memory → ℕ × σ × Memory
  allocZeroed : Layout → σ → Memory → ℕ × σ × Memory
  dealloc : ℕ → Layout → σ → Memory → σ × Memory
  realloc : ℕ → Layout → ℕ → σ → Memory → ℕ × σ × Memory

inductive Op where
  | alloc (size align : ℕ)
  | allocZeroed (size align : ℕ)
  | dealloc (i : ℕ)
  | realloc (i newSize : ℕ)

/-- The token that permits the double free. -/
structure DoubleFreeOk where

structure Config where
  doubleFree : Option DoubleFreeOk

/-- A block of the reference model. -/
structure Live where
  ptr : ℕ
  size : ℕ
  align : ℕ
  fill : UInt8
  fillOp : ℕ

/-- The failures, with what their messages name. -/
inductive Panic where
  | align (opIdx align : ℕ)
  | layout (opIdx size align : ℕ)
  | null (what : String) (opIdx size originalSize align : ℕ)
  | misaligned (what : String) (opIdx size align ptr : ℕ)
  | overlap (opIdx ptr size : ℕ) (other : Live)
  | notZero (opIdx ptr size byte : ℕ) (read : UInt8)
  | readBack (oracle : String) (step : ℕ) (what : String) (ptr size byte : ℕ)
      (read expected fill : UInt8)
  | lostPrefix (opIdx ptr byte len oldSize newSize : ℕ) (read expected fill : UInt8)

/-- A call of the allocator with its answer, or a fill of the driver. -/
inductive Event where
  | alloc (zeroed : Bool) (layout : Layout) (ptr : ℕ) (after : Memory)
  | dealloc (ptr : ℕ) (layout : Layout) (before : Memory)
  | freeAgain (ptr : ℕ) (layout : Layout)
  | realloc (ptr : ℕ) (layout : Layout) (newSize result : ℕ) (before after : Memory)
  | wrote (ptr size : ℕ) (after : Memory)

/-! ## Helpers of the driver -/

def satAdd (a b : ℕ) : ℕ := min (a + b) usizeMax

def rangesOverlap (a asize b bsize : ℕ) : Bool :=
  !(decide (satAdd a asize ≤ b) || decide (satAdd b bsize ≤ a))

/-- The fill and the next state of the cycle. -/
def nextFill (cycle : UInt8) : UInt8 × UInt8 := (cycle, max (cycle + 1) 1)

def patternByte (fill : UInt8) (offset : ℕ) : UInt8 :=
  if offset = 0 then fill
  else
    let x := fill.toUInt32 ^^^ UInt32.ofNat offset * 0x9E3779B1
    let x := x * 0x85EBCA6B
    let x := x ^^^ (x >>> 13)
    let x := x * 0xC2B2AE35
    let x := x ^^^ (x >>> 16)
    x.toUInt8

/-- Panics at the first live block the new range overlaps. -/
def assertNoOverlap (live : List Live) (skip : Option ℕ) (ptr size opIdx : ℕ) : Option Panic :=
  (live.zipIdx.find? fun p => skip ≠ some p.2 ∧ rangesOverlap ptr size p.1.ptr p.1.size).map
    fun p => .overlap opIdx ptr size p.1

/-- The memory after `fill_block`. -/
def filled (m : Memory) (ptr size : ℕ) (fill : UInt8) : Memory := fun a =>
  if ptr ≤ a ∧ a < ptr + size then patternByte fill (a - ptr) else m a

def verifyBlock (m : Memory) (ptr size : ℕ) (fill : UInt8) (oracle : String) (step : ℕ)
    (what : String) : Option Panic :=
  ((List.range size).find? fun off => m (ptr + off) ≠ patternByte fill off).map fun off =>
    .readBack oracle step what ptr size off (m (ptr + off)) (patternByte fill off) fill

def verifyZeroedBlock (m : Memory) (ptr size opIdx : ℕ) : Option Panic :=
  ((List.range size).find? fun b => m (ptr + b) ≠ 0).map fun b =>
    .notZero opIdx ptr size b (m (ptr + b))

def verifyPrefixBlock (m : Memory) (ptr len : ℕ) (fill : UInt8) (opIdx oldSize newSize : ℕ) :
    Option Panic :=
  ((List.range len).find? fun b => m (ptr + b) ≠ patternByte fill b).map fun b =>
    .lostPrefix opIdx ptr b len oldSize newSize (m (ptr + b)) (patternByte fill b) fill

def clamp (x lo hi : ℕ) : ℕ := if x < lo then lo else if hi < x then hi else x

/-- `Vec::swap_remove`: the last element takes the removed one's place. -/
def swapRemove {α : Type} (l : List α) (i : ℕ) : List α :=
  match l.getLast? with
  | none => l
  | some z => (l.set i z).dropLast

def peakLiveCountLoop : List Op → ℕ → ℕ → ℕ
  | [], _, peak => peak
  | op :: ops, live, peak =>
      match op with
      | .alloc _ _ | .allocZeroed _ _ => peakLiveCountLoop ops (live + 1) (max peak (live + 1))
      | .dealloc _ => peakLiveCountLoop ops (live - 1) peak
      | .realloc _ _ => peakLiveCountLoop ops live peak

def peakLiveCount (ops : List Op) : ℕ := peakLiveCountLoop ops 0 0

/-! ## Calls -/

structure World (σ : Type) where
  allocator : σ
  memory : Memory
  trace : List Event

namespace World
variable {σ : Type} (w : World σ) (A : RawAllocator σ)

def callAlloc (zeroed : Bool) (layout : Layout) : ℕ × World σ :=
  let r := if zeroed then A.allocZeroed layout w.allocator w.memory
    else A.alloc layout w.allocator w.memory
  (r.1, ⟨r.2.1, r.2.2, w.trace ++ [.alloc zeroed layout r.1 r.2.2]⟩)

def callDealloc (ptr : ℕ) (layout : Layout) : World σ :=
  let r := A.dealloc ptr layout w.allocator w.memory
  ⟨r.1, r.2, w.trace ++ [.dealloc ptr layout w.memory]⟩

/-- The second `dealloc` of the same block. -/
def callDeallocAgain (ptr : ℕ) (layout : Layout) : World σ :=
  let r := A.dealloc ptr layout w.allocator w.memory
  ⟨r.1, r.2, w.trace ++ [.freeAgain ptr layout]⟩

def callRealloc (ptr : ℕ) (layout : Layout) (newSize : ℕ) : ℕ × World σ :=
  let r := A.realloc ptr layout newSize w.allocator w.memory
  (r.1, ⟨r.2.1, r.2.2, w.trace ++ [.realloc ptr layout newSize r.1 w.memory r.2.2]⟩)

def fillBlock (ptr size : ℕ) (fill : UInt8) : World σ :=
  let m := filled w.memory ptr size fill
  ⟨w.allocator, m, w.trace ++ [.wrote ptr size m]⟩

end World

/-! ## The replay -/

structure State (σ : Type) where
  live : List Live
  cycle : UInt8
  world : World σ

/-- What a step comes to, with the world a failure stops in. -/
abbrev Outcome (σ α : Type) := Except (Panic × World σ) α

section
variable {σ : Type} (A : RawAllocator σ)

/-- The part common to the arms that create a block: the fill, its read-back and the entry. -/
def enter (what : String) (ptr size align opIdx : ℕ) (place : Live → List Live) (cycle : UInt8)
    (w : World σ) : Outcome σ (State σ) :=
  let w := w.fillBlock ptr size (nextFill cycle).1
  match verifyBlock w.memory ptr size (nextFill cycle).1 "M1" opIdx what with
  | some p => .error (p, w)
  | none => .ok ⟨place ⟨ptr, size, align, (nextFill cycle).1, opIdx⟩, (nextFill cycle).2, w⟩

def checkNull (what : String) (ptr opIdx size originalSize align : ℕ) : Option Panic :=
  if ptr = 0 then some (.null what opIdx size originalSize align) else none

def checkAligned (what : String) (ptr opIdx size align : ℕ) : Option Panic :=
  if ptr % align = 0 then none else some (.misaligned what opIdx size align ptr)

/-- The arms of `Op::Alloc` and `Op::AllocZeroed`. -/
def allocArm (zeroed : Bool) (size align opIdx : ℕ) (st : State σ) : Outcome σ (State σ) :=
  let what := if zeroed then "alloc_zeroed" else "alloc"
  if Layout.fromSizeAlign 1 align = none then .error (.align opIdx align, st.world)
  else
    let originalSize := size
    let size := clamp size 1 (isizeMax / align * align)
    match Layout.fromSizeAlign size align with
    | none => .error (.layout opIdx size align, st.world)
    | some layout =>
        let r := st.world.callAlloc A zeroed layout
        match checkNull what r.1 opIdx size originalSize align <|>
            checkAligned what r.1 opIdx size align <|>
            assertNoOverlap st.live none r.1 size opIdx <|>
            (if zeroed then verifyZeroedBlock r.2.memory r.1 size opIdx else none) with
        | some p => .error (p, r.2)
        | none => enter what r.1 size align opIdx (fun l => st.live ++ [l]) st.cycle r.2

/-- The arm of `Op::Dealloc`; an empty model has no entry to look up. -/
def deallocArm (config : Config) (i opIdx : ℕ) (st : State σ) : Outcome σ (State σ) :=
  match st.live[i % st.live.length]? with
  | none => .ok st
  | some l =>
      match verifyBlock st.world.memory l.ptr l.size l.fill "M3" opIdx
          "before dealloc: live block clobbered" with
      | some p => .error (p, st.world)
      | none =>
          match Layout.fromSizeAlign l.size l.align with
          | none => .error (.layout opIdx l.size l.align, st.world)
          | some layout =>
              let w := st.world.callDealloc A l.ptr layout
              .ok ⟨swapRemove st.live (i % st.live.length), st.cycle,
                if config.doubleFree.isSome then w.callDeallocAgain A l.ptr layout else w⟩

/-- The arm of `Op::Realloc`; null leaves the block as it is. -/
def reallocArm (i newSize opIdx : ℕ) (st : State σ) : Outcome σ (State σ) :=
  let i := i % st.live.length
  match st.live[i]? with
  | none => .ok st
  | some l =>
      match verifyBlock st.world.memory l.ptr l.size l.fill "M3" opIdx
          "before realloc: live block clobbered" with
      | some p => .error (p, st.world)
      | none =>
          match Layout.fromSizeAlign l.size l.align with
          | none => .error (.layout opIdx l.size l.align, st.world)
          | some oldLayout =>
              let newSize := clamp newSize 1 (isizeMax / oldLayout.align * oldLayout.align)
              let r := st.world.callRealloc A l.ptr oldLayout newSize
              if r.1 = 0 then .ok { st with world := r.2 }
              else
                match checkAligned "realloc" r.1 opIdx newSize l.align <|>
                    assertNoOverlap st.live (some i) r.1 newSize opIdx <|>
                    verifyPrefixBlock r.2.memory r.1 (min l.size newSize) l.fill opIdx l.size
                      newSize with
                | some p => .error (p, r.2)
                | none =>
                    enter "realloc" r.1 newSize l.align opIdx (st.live.set i) st.cycle r.2

def step (config : Config) (opIdx : ℕ) (op : Op) (st : State σ) : Outcome σ (State σ) :=
  match op with
  | .alloc size align => allocArm A false size align opIdx st
  | .allocZeroed size align => allocArm A true size align opIdx st
  | .dealloc i => deallocArm A config i opIdx st
  | .realloc i newSize => reallocArm A i newSize opIdx st

def replay (config : Config) : ℕ → List Op → State σ → Outcome σ (State σ)
  | _, [], st => .ok st
  | opIdx, op :: ops, st => (step A config opIdx op st).bind (replay config (opIdx + 1) ops)

/-- The sweep at the end of the stream. -/
def sweep (live : List Live) (m : Memory) : Option Panic :=
  live.findSome? fun l =>
    verifyBlock m l.ptr l.size l.fill "M3" l.fillOp "run-end sweep: live block clobbered"

def teardown : List Live → World σ → Outcome σ (World σ)
  | [], w => .ok w
  | l :: live, w =>
      match verifyBlock w.memory l.ptr l.size l.fill "M3" l.fillOp
          "teardown: live block clobbered before dealloc" with
      | some p => .error (p, w)
      | none =>
          match Layout.fromSizeAlign l.size l.align with
          | none => .error (.layout l.fillOp l.size l.align, w)
          | some layout => teardown live (w.callDealloc A l.ptr layout)

/-- The end of the stream: the sweep, then the free of every survivor. -/
def finish (st : State σ) : Outcome σ (World σ) :=
  match sweep st.live st.world.memory with
  | some p => .error (p, st.world)
  | none => teardown A st.live st.world

def start (s : σ) (m : Memory) : State σ := ⟨[], 1, ⟨s, m, []⟩⟩

def drive (config : Config) (ops : List Op) (s : σ) (m : Memory) : Outcome σ (World σ) :=
  (replay A config 0 ops (start s m)).bind (finish A)

end

end AllocatorOracle
end SeferAlloc
