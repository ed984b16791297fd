import SeferAlloc.Interleaving
import SeferAlloc.SortedBlocks
import Mathlib.Algebra.Group.Nat.Defs

/-!
# A shard of the route directory

A shard is a sorted sequence of entries, cut into blocks that an index links.
Blocks are named by the order of their installation, and `block` holds the
occupied slots of every block. What is done under the shard lock is one action;
an abort of the source is `none`.
-/
namespace SeferAlloc
namespace RouteShard

/-- The entries of a full block. -/
def blockCap : ℕ := 64

/-- Where a full block is cut. -/
def blockHalf : ℕ := blockCap / 2

/-- The blocks the first index has room for. -/
def initialIndexCap : ℕ := 8

/-- `usize::MAX`. -/
def usizeMax : ℕ := 2 ^ 64 - 1

/-- The address of an `Entry`, and its key. -/
structure Entry where
  name : ℕ
  key : ℕ
  deriving DecidableEq

/-! ## Blocks -/

/-- The key at an index of a block. -/
def keyAt (b : List Entry) (index : ℕ) : Option ℕ := (b[index]?).map (·.key)

/-- The index of a key in a block, or the index it would be put at. -/
def blockFind (b : List Entry) (key : ℕ) : Option (Except ℕ ℕ) :=
  match Bisection.search (fun mid => (keyAt b mid).map fun k => decide (k < key)) 0 b.length with
  | none => none
  | some lo => if lo < b.length ∧ keyAt b lo = some key then some (.ok lo) else some (.error lo)

/-- `Shard`: its index with the capacity of the index, the spare block, the blocks, and the
name of the next block. -/
structure Shard where
  index : List ℕ
  cap : ℕ
  spare : Option ℕ
  block : ℕ → List Entry
  fresh : ℕ

/-- A shard with no block. -/
def Shard.empty : Shard where
  index := []
  cap := 0
  spare := none
  block _ := []
  fresh := 0

/-- The answer of an insert. -/
inductive Insert where
  | done
  | duplicate
  | need (block : Bool) (indexCap : ℕ)
  deriving DecidableEq

namespace Shard
variable (s : Shard)

def setBlock (b : ℕ) (slots : List Entry) : Shard :=
  { s with block := Function.update s.block b slots }

/-- Puts an entry into a block that has room. -/
def insertAt (b index : ℕ) (value : Entry) : Option Shard :=
  if (s.block b).length = blockCap ∨ index > (s.block b).length then none
  else some (s.setBlock b ((s.block b).insertIdx index value))

/-- Takes an entry out of a block. -/
def removeAt (b index : ℕ) : Option Shard :=
  if index ≥ (s.block b).length then none
  else some (s.setBlock b ((s.block b).eraseIdx index))

/-- Moves the upper half of a full block into an empty one. -/
def splitInto (b dst : ℕ) : Option Shard :=
  if (s.block dst).length ≠ 0 ∨ (s.block b).length ≠ blockCap then none
  else some ((s.setBlock b ((s.block b).take blockHalf)).setBlock dst
    ((s.block b).drop blockHalf))

/-- Moves another block's entries behind this one's. -/
def absorb (b other : ℕ) : Option Shard :=
  if (s.block b).length + (s.block other).length > blockCap then none
  else some ((s.setBlock b (s.block b ++ s.block other)).setBlock other [])

/-- Puts a block into the index. -/
def indexInsert (index value : ℕ) : Option Shard :=
  if s.index.length = s.cap ∨ index > s.index.length then none
  else some { s with index := s.index.insertIdx index value }

/-- Takes a block out of the index. -/
def indexRemove (index : ℕ) : Option Shard :=
  if index ≥ s.index.length then none else some { s with index := s.index.eraseIdx index }

/-! ## Lookup -/

/-- The block that owns or would own a key, and the position inside it. -/
def locate (key : ℕ) : Option (Option (ℕ × Except ℕ ℕ)) :=
  if s.index.length = 0 then some none
  else
    match Bisection.search (fun mid => (s.index[mid]?).bind fun b =>
      (keyAt (s.block b) 0).map fun k => decide (k ≤ key)) 0 s.index.length with
    | none => none
    | some lo => (s.index[lo - 1]?).bind fun b =>
        (blockFind (s.block b) key).map fun found => some (lo - 1, found)

def find (key : ℕ) : Option (Option Entry) :=
  match s.locate key with
  | none => none
  | some (some (block, .ok pos)) => (s.index[block]?).bind fun b => ((s.block b)[pos]?).map some
  | some _ => some none

/-! ## Insertion -/

/-- The capacity of the index that an insert needs for one more block, or 0. -/
def indexCapNeeded : ℕ :=
  if s.index.length < s.cap then 0
  else if s.cap = 0 then initialIndexCap
  else min (s.cap * 2) usizeMax

/-- The block and the position where the entry goes, after a split if one is needed. -/
def target (needsBlock : Bool) (block pos : ℕ) : Option (Shard × ℕ × ℕ) :=
  if needsBlock = false then (s.index[block]?).map fun b => (s, b, pos)
  else
    match s.spare with
    | none => none
    | some fresh =>
        if s.index.length = 0 then
          ({ s with spare := none }.indexInsert 0 fresh).map fun s => (s, fresh, 0)
        else
          (s.index[block]?).bind fun old =>
            ({ s with spare := none }.splitInto old fresh).bind fun s =>
              (s.indexInsert (block + 1) fresh).map fun s =>
                if pos ≤ blockHalf then (s, old, pos) else (s, fresh, pos - blockHalf)

/-- `Shard::insert` behind its lookup. -/
def insertAtPos (block pos : ℕ) (entry : Entry) : Option (Shard × Insert) :=
  let needsBlock := s.index.length = 0 ∨
    ((s.index[block]?).map fun b => (s.block b).length) = some blockCap
  if needsBlock ∧ (s.spare = none ∨ s.indexCapNeeded ≠ 0) then
    some (s, .need (decide (s.spare = none)) s.indexCapNeeded)
  else
    (s.target (decide needsBlock) block pos).bind fun (s, b, pos) =>
      (s.insertAt b pos entry).map fun s => (s, .done)

def insert (key : ℕ) (entry : Entry) : Option (Shard × Insert) :=
  match s.locate key with
  | none => none
  | some none => s.insertAtPos 0 0 entry
  | some (some (_, .ok _)) => some (s, .duplicate)
  | some (some (block, .error pos)) => s.insertAtPos block pos entry

/-- Installs what was allocated outside the lock: a block, and an index of a capacity. -/
def install (block : Bool) (indexCap : Option ℕ) : Option Shard :=
  let s :=
    if block = true ∧ s.spare = none then
      { s.setBlock s.fresh [] with spare := some s.fresh, fresh := s.fresh + 1 }
    else s
  match indexCap with
  | none => some s
  | some cap =>
      if s.index.length = s.cap ∧ s.cap < cap then
        if cap < s.index.length then none else some { s with cap }
      else some s

/-! ## Removal -/

/-- Keeps a displaced block as the spare one, or retires it. -/
def retire (block : ℕ) (retired : List ℕ) : Shard × List ℕ :=
  match s.spare with
  | none => ({ s with spare := some block }, retired)
  | some _ => (s, retired ++ [block])

/-- The block absorbs its right neighbour if both fit into half a block. -/
def mergeNext (block raw : ℕ) (retired : List ℕ) : Option (Shard × List ℕ) :=
  if block + 1 < s.index.length then
    (s.index[block + 1]?).bind fun next =>
      if (s.block raw).length + (s.block next).length ≤ blockHalf then
        (s.absorb raw next).bind fun s =>
          (s.indexRemove (block + 1)).map fun s => s.retire next retired
      else some (s, retired)
  else some (s, retired)

/-- The left neighbour absorbs the block if both fit into half a block. -/
def mergePrev (block raw : ℕ) (retired : List ℕ) : Option (Shard × List ℕ) :=
  if block > 0 then
    (s.index[block - 1]?).bind fun prev =>
      if (s.block prev).length + (s.block raw).length ≤ blockHalf then
        (s.absorb prev raw).bind fun s =>
          (s.indexRemove block).map fun s => s.retire raw retired
      else some (s, retired)
  else some (s, retired)

/-- `Shard::remove` behind its lookup. -/
def removeAtPos (block raw pos : ℕ) : Option (Shard × List ℕ) :=
  (s.removeAt raw pos).bind fun s =>
    if (s.block raw).length = 0 then
      (s.indexRemove block).map fun s => s.retire raw []
    else (s.mergeNext block raw []).bind fun (s, retired) => s.mergePrev block raw retired

def remove (key : ℕ) (entry : Entry) : Option (Shard × List ℕ) :=
  match s.locate key with
  | some (some (block, .ok pos)) =>
      (s.index[block]?).bind fun raw =>
        if (s.block raw)[pos]? = some entry then s.removeAtPos block raw pos else none
  | _ => none

end Shard

/-! ## Threads -/

/-- What a thread is to do: `register_route`, `remove` or `find`. -/
inductive Op where
  | register (e : Entry)
  | remove (e : Entry)
  | find (key : ℕ)

/-- What the environment decides in a turn: the operation of an idle thread, whether the process
is exiting, and whether the system grants the block and the index that are asked for. -/
structure Choice where
  op : Op
  exiting : Bool
  blockOk : Bool
  indexOk : Bool

/-- The shard, with the entries last inserted and not removed, and the number of inserts done. -/
structure State where
  shard : Shard
  present : ℕ → Option Entry
  inserted : ℕ

/-- Where a thread stands; `asked` is the number of inserts done when it was last told a need. -/
inductive Loc where
  | idle
  | insert (e : Entry) (asked : Option ℕ)
  | allocate (e : Entry) (block : Bool) (indexCap asked : ℕ)
  | install (e : Entry) (block : Bool) (indexCap : Option ℕ) (asked : ℕ)
  | fatal

/-- The layout of an index of `cap` pointers is within `isize::MAX`. -/
def layoutFits (cap : ℕ) : Prop := cap * 8 ≤ 2 ^ 63 - 8

instance (cap : ℕ) : Decidable (layoutFits cap) := inferInstanceAs (Decidable (_ ≤ _))

/-- The retry loop of `register_route` at its insert. -/
def insertTurn (x : State) (e : Entry) : State × Loc :=
  match x.shard.insert e.key e with
  | none => (x, .fatal)
  | some (s, .done) =>
      ({ shard := s
         present := Function.update x.present e.key (some e)
         inserted := x.inserted + 1 }, .idle)
  | some (s, .duplicate) => ({ x with shard := s }, .idle)
  | some (s, .need block indexCap) =>
      ({ x with shard := s }, .allocate e block indexCap x.inserted)

/-- One lock section of a thread, or its allocations between two. -/
def act (c : Choice) (x : State) : Loc → State × Loc
  | .idle =>
      match c.op with
      | .register e => (x, .insert e none)
      | .remove e =>
          if c.exiting then (x, .idle)
          else
            match x.shard.remove e.key e with
            | none => (x, .fatal)
            | some (s, _) =>
                ({ x with shard := s, present := Function.update x.present e.key none }, .idle)
      | .find _ => (x, .idle)
  | .insert e _ => if c.exiting then (x, .idle) else insertTurn x e
  | .allocate e block indexCap asked =>
      if block = true ∧ c.blockOk = false then (x, .idle)
      else if indexCap = 0 then (x, .install e block none asked)
      else if c.indexOk = true ∧ layoutFits indexCap then
        (x, .install e block (some indexCap) asked)
      else (x, .idle)
  | .install e block indexCap asked =>
      if c.exiting then (x, .idle)
      else
        match x.shard.install block indexCap with
        | none => (x, .fatal)
        | some s => ({ x with shard := s }, .insert e (some asked))
  | .fatal => (x, .fatal)

/-- An empty shard and idle threads. -/
def start {ι : Type*} : Interleaving.World ι State Loc where
  shared := { shard := .empty, present := fun _ => none, inserted := 0 }
  loc _ := .idle

end RouteShard
end SeferAlloc
