import Mathlib.Data.Multiset.AddSub
import SeferAlloc.BitWord
import SeferAlloc.SizeClasses

/-!
# Magazines

Each size class has a magazine of sixteen slots, filled from below. A refill
and a free both keep a class within the byte budget of one refill. Classes of
at most 1024 bytes also have a depot, whose floor holds a few full magazines.
-/
namespace SeferAlloc
open BitWord

/-- The blocks a magazine holds. -/
def tcacheCap : ℕ := 16

/-- The bytes one refill may bring. -/
def refillByteBudget : ℕ := 64 * 1024

/-- The blocks one flush takes out. -/
def flushN : ℕ := tcacheCap / 2

/-- The blocks a refill asks for: the byte budget's worth, between one and a magazine. -/
def refillNForClass (blockSize : ℕ) : ℕ :=
  if blockSize = 0 then tcacheCap
  else
    let byBudget := refillByteBudget / blockSize
    if byBudget = 0 then 1 else if tcacheCap < byBudget then tcacheCap else byBudget

lemma refillNForClass_bounds (b : ℕ) : 0 < refillNForClass b ∧ refillNForClass b ≤ tcacheCap := by
  unfold refillNForClass
  dsimp only
  split_ifs with h0 h1 h2
  · decide
  · decide
  · decide
  · exact ⟨Nat.pos_of_ne_zero h1, not_lt.mp h2⟩

namespace SizeClasses
variable (sc : SizeClasses)

/-- The blocks of a class that a free may keep in its magazine. -/
def freeParkCap (c : ℕ) : ℕ := refillNForClass (sc.blockSize c)

/-- The classes small enough for the depot. -/
def depotClasses : ℕ := (sc.table.takeWhile (· ≤ 1024)).length

/-- The bytes of a full magazine. -/
def magBytes (c : ℕ) : ℕ := sc.blockSize c * tcacheCap

/-- The mask of every class. -/
def allSmall : Word := bit sc.count - 1

lemma depotClasses_le : sc.depotClasses ≤ sc.count :=
  (List.takeWhile_prefix _).length_le

end SizeClasses

/-- The rows of a class the depot keeps before its overflow. -/
def depotK (c : ℕ) : ℕ := [8, 8, 8, 8, 8, 8, 7, 1].getD c 2

lemma depotK_ne_zero (c : ℕ) : depotK c ≠ 0 := by
  unfold depotK
  rcases c with _ | _ | _ | _ | _ | _ | _ | _ | c <;> simp

/-- `depotK` for every small class, zero where there is no depot. -/
def depotCap (sc : SizeClasses) (c : ℕ) : ℕ := if c < sc.depotClasses then depotK c else 0

namespace Small

/-- An array of sixteen pointers. -/
abbrev Row := ℕ → ℕ

/-- The pointers in the first `n` slots. -/
def Row.list (r : Row) (n : ℕ) : List ℕ := (List.range n).map r

def Row.blocks (r : Row) (n : ℕ) : Multiset ℕ := Row.list r n

namespace Row
variable {r r' : Row} {n : ℕ}

@[simp] lemma blocks_zero (r : Row) : r.blocks 0 = 0 := rfl

lemma blocks_succ (r : Row) (n : ℕ) : r.blocks (n + 1) = r n ::ₘ r.blocks n := by
  unfold blocks list
  rw [List.range_succ, List.map_append, ← Multiset.coe_add, add_comm]
  rfl

lemma blocks_congr (h : ∀ i < n, r' i = r i) : r'.blocks n = r.blocks n := by
  unfold blocks list
  rw [List.map_congr_left fun i hi => h i (List.mem_range.mp hi)]

/-- Slots from `n` on do not matter. -/
lemma blocks_update {i : ℕ} (h : n ≤ i) (p : ℕ) : blocks (Function.update r i p) n = r.blocks n :=
  blocks_congr fun j hj => Function.update_of_ne (by omega) p r

lemma blocks_push (r : Row) (n p : ℕ) :
    blocks (Function.update r n p) (n + 1) = p ::ₘ r.blocks n := by
  rw [blocks_succ, Function.update_self, blocks_update le_rfl]

end Row

/-- One class's magazine. `parked` counts its rows on the depot floor, `ovf` says whether its
overflow ring may hold one. -/
structure PerClass where
  count : ℕ
  parked : ℕ
  ovf : ℕ
  marks : BitVec 8
  virginMask : BitVec 16
  limit : ℕ
  slots : Row

/-- The mark of a class that parked into its floor in this epoch. -/
def markFloor : BitVec 8 := 1

/-- The mark of a class whose refills tick the decay. -/
def markTick : BitVec 8 := 2

/-- The bit of a slot in a virgin mask. -/
def virginBit (i : ℕ) : BitVec 16 := 1#16 <<< i

namespace PerClass

/-- The blocks in the magazine. -/
def magazine (k : PerClass) : Multiset ℕ := k.slots.blocks k.count

/-- A class may park while it is below its limit. -/
def mayPark (k : PerClass) : Prop := k.parked < k.limit

/-- A class may reload while anything of it is parked. -/
def mayReload (k : PerClass) : Prop := k.parked ≠ 0 ∨ k.ovf ≠ 0

/-- A class that carries the tick mark must tick. -/
def mayTick (k : PerClass) : Prop := k.marks &&& markTick ≠ 0

instance (k : PerClass) : Decidable k.mayPark := inferInstanceAs (Decidable (_ < _))
instance (k : PerClass) : Decidable k.mayReload := inferInstanceAs (Decidable (_ ∨ _))
instance (k : PerClass) : Decidable k.mayTick := inferInstanceAs (Decidable (_ ≠ _))

/-- The slot that a pop empties. -/
def top (k : PerClass) : ℕ := k.slots ((k.count - 1) &&& (tcacheCap - 1))

/-- `count` and the virgin bit after a pop. -/
def pop (k : PerClass) : PerClass :=
  { k with count := k.count - 1, virginMask := k.virginMask &&& ~~~virginBit (k.count - 1) }

/-- The push of a free below the park cap. -/
def push (k : PerClass) (block : ℕ) : PerClass :=
  { k with
    slots := Function.update k.slots (k.count &&& (tcacheCap - 1)) block
    count := k.count + 1
    virginMask := k.virginMask &&& ~~~virginBit k.count }

/-- A magazine that starts with one freed block. -/
def restart (k : PerClass) (block : ℕ) : PerClass :=
  { k with slots := Function.update k.slots 0 block, count := 1 }

/-- A freed block takes the place of the evicted top. -/
def swapTop (k : PerClass) (block : ℕ) : PerClass :=
  { k with
    slots := Function.update k.slots (k.count - 1) block
    virginMask := k.virginMask &&& ~~~virginBit (k.count - 1) }

/-- The upper half moves down and a freed block follows it. -/
def shiftPush (k : PerClass) (block : ℕ) : PerClass :=
  let remaining := tcacheCap - flushN
  { k with
    slots := Function.update (fun i => if i < remaining then k.slots (i + flushN) else k.slots i)
      remaining block
    count := remaining + 1
    virginMask := (k.virginMask >>> flushN) &&& ~~~virginBit remaining }

/-- A flushed magazine. -/
def emptied (k : PerClass) : PerClass := { k with count := 0, virginMask := 0 }

lemma and_pred_tcacheCap {i : ℕ} (h : i < tcacheCap) : i &&& (tcacheCap - 1) = i := by
  rw [show tcacheCap - 1 = 2 ^ 4 - 1 by decide, Nat.and_two_pow_sub_one_eq_mod]
  exact Nat.mod_eq_of_lt h

lemma magazine_pop {k : PerClass} (h0 : k.count ≠ 0) (hle : k.count ≤ tcacheCap) :
    k.magazine = k.top ::ₘ k.pop.magazine := by
  obtain ⟨n, hn⟩ := Nat.exists_eq_succ_of_ne_zero h0
  simp only [magazine, top, pop, hn, Nat.succ_eq_add_one, Nat.add_sub_cancel]
  rw [and_pred_tcacheCap (by omega), Row.blocks_succ]

lemma magazine_push {k : PerClass} (h : k.count < tcacheCap) (p : ℕ) :
    (k.push p).magazine = p ::ₘ k.magazine := by
  simp only [magazine, push, and_pred_tcacheCap h]
  exact Row.blocks_push k.slots k.count p

lemma magazine_restart (k : PerClass) (p : ℕ) : (k.restart p).magazine = {p} := by
  simp only [magazine, restart]
  rw [Row.blocks_push k.slots 0 p, Row.blocks_zero]
  rfl

/-- The magazine without its top. -/
def lower (k : PerClass) : PerClass := { k with count := k.count - 1 }

lemma magazine_swapTop {k : PerClass} (h0 : k.count ≠ 0) (p : ℕ) :
    k.magazine = k.lower.magazine + {k.slots (k.count - 1)} ∧
      (k.swapTop p).magazine = p ::ₘ k.lower.magazine := by
  obtain ⟨n, hn⟩ := Nat.exists_eq_succ_of_ne_zero h0
  simp only [magazine, lower, swapTop, hn, Nat.succ_eq_add_one, Nat.add_sub_cancel]
  constructor
  · rw [Row.blocks_succ, ← Multiset.singleton_add, add_comm]
  · exact Row.blocks_push k.slots n p

/-- The upper half of a full magazine. -/
def upperHalf (k : PerClass) : PerClass :=
  { k with slots := fun i => k.slots (i + flushN), count := tcacheCap - flushN }

/-- The lower half leaves a full magazine. -/
lemma magazine_shiftPush {k : PerClass} (h : k.count = tcacheCap) (p : ℕ) :
    k.magazine = k.upperHalf.magazine + k.slots.blocks flushN ∧
      (k.shiftPush p).magazine = p ::ₘ k.upperHalf.magazine := by
  constructor
  · simp only [magazine, upperHalf, h, Row.blocks, Row.list]
    rw [add_comm, Multiset.coe_add, show tcacheCap = flushN + (tcacheCap - flushN) by decide,
      List.range_add, List.map_append, List.map_map]
    simp only [Nat.add_sub_cancel_left]
    simp only [Function.comp_def, Nat.add_comm]
  · simp only [magazine, upperHalf, shiftPush, Row.blocks_push]
    congr 1

end PerClass

/-- The classes' magazines of a new heap. -/
def Tcache.new (sc : SizeClasses) (c : ℕ) : PerClass :=
  ⟨0, 0, 0, 0, 0, depotCap sc c, fun _ => 0⟩

end Small

end SeferAlloc
