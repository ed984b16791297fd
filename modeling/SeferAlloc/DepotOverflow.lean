import SeferAlloc.Magazine
import SeferAlloc.RingBuffer
import SeferAlloc.SmallSegment

/-!
# The depot overflow

Full magazines above the floor are records in one reservation, in a ring for
each class: a park writes behind the youngest record, a reload reads that
record again, and the decay takes the oldest. A record is named by its offset
in the reservation. Classes that stay idle for an epoch owe half of what they
never used to the decay.
-/
namespace SeferAlloc
namespace Small
open BitWord RingBuffer

/-- `REC`: the bytes of a record. -/
def recBytes : ℕ := 128

/-- The fewest events an epoch lasts. -/
def epochMin : ℕ := 256

/-- The most rows the decay gives back for one event. -/
def decayWork : ℕ := 4

/-- Every so many reloads look at the ingress. -/
def ingressPeriod : ℕ := 8

/-- The overflow control and, under `memory`, the records of its reservation. It is `active`
once `base` is not null. Entries of the arrays from `DEPOT_CLASSES` on do not exist. -/
structure DepotOverflow where
  active : Bool
  bytes : ℕ
  armed : Word
  events : ℕ
  epochLen : ℕ
  debtMask : Word
  parkedInEpoch : Word
  starved : Word
  reloadsSinceIngress : ℕ
  reserveFailed : Bool
  len : ℕ → ℕ
  head : ℕ → ℕ
  cap : ℕ → ℕ
  low : ℕ → ℕ
  debt : ℕ → ℕ
  off : ℕ → ℕ
  committed : ℕ → ℕ
  memory : ℕ → Row

namespace DepotOverflow

/-- The zeroed control of a new registry slot. -/
def empty : DepotOverflow :=
  ⟨false, 0, 0, 0, 0, 0, 0, 0, 0, false, fun _ => 0, fun _ => 0, fun _ => 0, fun _ => 0,
    fun _ => 0, fun _ => 0, fun _ => 0, fun _ => fun _ => 0⟩

/-- The rows of class `c` that the byte budget pays for. -/
def capFor (sc : SizeClasses) (budget c : ℕ) : ℕ := budget / sc.magBytes c

/-- The bytes that class `c` takes in the reservation. -/
def regionBytes (sc : SizeClasses) (page budget c : ℕ) : ℕ :=
  alignUp (capFor sc budget c * recBytes) page

/-- `total` of `ensure_reserved` before class `c`. -/
def regionStart (sc : SizeClasses) (page budget c : ℕ) : ℕ :=
  ((List.range c).map (regionBytes sc page budget)).sum

/-- `ensure_reserved`; `ok` is the answer of the OS. -/
def ensureReserved (sc : SizeClasses) (page budget : ℕ) (ok : Bool) (o : DepotOverflow) :
    DepotOverflow × Bool :=
  if o.active then (o, true)
  else if o.reserveFailed then (o, false)
  else
    let total := regionStart sc page budget sc.depotClasses
    let o := { o with
      cap := fun c => if c < sc.depotClasses then capFor sc budget c % 2 ^ 16 else o.cap c
      off := fun c => if c < sc.depotClasses then regionStart sc page budget c else o.off c }
    if total = 0 then (o, false)
    else if ok then
      ({ o with
        active := true
        committed := Function.update o.committed 0 (min page total)
        epochLen := epochMin }, true)
    else ({ o with reserveFailed := true }, false)

/-- `ensure_committed`; `ok` is the answer of the OS. -/
def ensureCommitted (page c idx : ℕ) (ok : Bool) (o : DepotOverflow) : Option DepotOverflow :=
  let need := (idx + 1) * recBytes
  if need ≤ o.committed c then some o
  else if ok then
    some { o with
      committed := Function.update o.committed c
        (min (alignUp need page) (alignUp (o.cap c * recBytes) page)) }
  else none

/-- `record`: where record `idx` of class `c` lies. -/
def record (o : DepotOverflow) (c idx : ℕ) : ℕ := o.off c + idx * recBytes

/-- The cell of the `i`-th oldest row of a ring. -/
def slot (o : DepotOverflow) (c i : ℕ) : ℕ := cell (o.cap c) (o.head c) i

/-- The record of the ring cell. -/
def cells (o : DepotOverflow) (c idx : ℕ) : Row := o.memory (o.record c idx)

/-- Class `c`'s records, oldest first. -/
def ring (o : DepotOverflow) (c : ℕ) : List Row := entries (o.cells c) (o.cap c) (o.head c) (o.len c)

/-- The writes of `park` once the record has its place. -/
def write (sc : SizeClasses) (c idx : ℕ) (mag : Row) (o : DepotOverflow) : DepotOverflow :=
  { o with
    memory := Function.update o.memory (o.record c idx) mag
    bytes := o.bytes + sc.magBytes c
    len := Function.update o.len c (o.len c + 1)
    parkedInEpoch := o.parkedInEpoch ||| bit c }

/-- `park`: a refusal may still have settled the layout of the reservation. -/
def park (sc : SizeClasses) (page c n : ℕ) (mag : Row) (budget : ℕ) (reserve commit : Bool)
    (o : DepotOverflow) : DepotOverflow × Bool :=
  if budget < o.bytes + sc.magBytes c then (o, false)
  else
    match o.ensureReserved sc page budget reserve with
    | (o, false) => (o, false)
    | (o, true) =>
        if o.cap c ≤ n then (o, false)
        else
          match o.ensureCommitted page c (o.slot c n) commit with
          | none => (o, false)
          | some o => (o.write sc c (o.slot c n) mag, true)

/-- Sets a class's debt and keeps the mask of classes in debt. -/
def setDebt (c d : ℕ) (o : DepotOverflow) : DepotOverflow :=
  { o with
    debt := Function.update o.debt c d
    debtMask := if d = 0 then o.debtMask &&& ~~~bit c else o.debtMask ||| bit c }

/-- `reload`: the youngest record. -/
def reload (sc : SizeClasses) (c n : ℕ) (o : DepotOverflow) : DepotOverflow × Row :=
  let out := o.cells c (o.slot c (n - 1))
  let o := { o with bytes := o.bytes - sc.magBytes c, len := Function.update o.len c (o.len c - 1) }
  let o := { o with low := Function.update o.low c (min (o.low c) (o.len c)) }
  (o.setDebt c (min (o.debt c) (o.len c)), out)

/-- `park_simple`: `park` and `tick` where neither has work besides the record. -/
def parkSimple (sc : SizeClasses) (c : ℕ) (mag : Row) (budget : ℕ) (o : DepotOverflow) :
    Option DepotOverflow :=
  let n := o.len c
  if n = 0 ∨ o.cap c ≤ n + 1 ∨ budget < o.bytes + sc.magBytes c ∨ o.active = false ∨
      o.debtMask ≠ 0 ∨ o.epochLen ≤ o.events + 1 then none
  else
    let idx := o.slot c n
    if o.committed c < (idx + 1) * recBytes then none
    else
      let o := o.write sc c idx mag
      some { o with events := o.events + 1 }

/-- `reload_simple`: `reload` where neither the ingress check nor the tick has work, and whether
records remain. -/
def reloadSimple (sc : SizeClasses) (c : ℕ) (o : DepotOverflow) :
    Option (DepotOverflow × Row × Bool) :=
  let n := o.len c
  if n = 0 ∨ o.debtMask ≠ 0 ∨ o.starved ≠ 0 ∨ ingressPeriod ≤ o.reloadsSinceIngress + 1 then none
  else
    let bytes := o.bytes - sc.magBytes c
    if bytes ≠ 0 ∧ o.epochLen ≤ o.events + 1 then none
    else
      let out := o.cells c (o.slot c (n - 1))
      let o := { o with bytes := bytes, len := Function.update o.len c (n - 1) }
      let o := { o with
        low := Function.update o.low c (min (o.low c) (o.len c))
        reloadsSinceIngress := o.reloadsSinceIngress + 1
        events := if bytes ≠ 0 then o.events + 1 else o.events }
      some (o, out, decide (1 < n))

/-- Takes the oldest row off its ring, which pays one row of the class's debt. -/
def popOldest (sc : SizeClasses) (c : ℕ) (o : DepotOverflow) : DepotOverflow × Row :=
  let out := o.cells c (o.head c)
  let o := { o with
    head := Function.update o.head c (o.slot c 1)
    bytes := o.bytes - sc.magBytes c
    len := Function.update o.len c (o.len c - 1) }
  let o := { o with low := Function.update o.low c (min (o.low c) (o.len c)) }
  (o.setDebt c (o.debt c - 1), out)

/-- Counts a reload and starts the count again at the period. -/
def ingressDue (o : DepotOverflow) : DepotOverflow :=
  { o with reloadsSinceIngress :=
      if ingressPeriod ≤ o.reloadsSinceIngress + 1 then 0 else o.reloadsSinceIngress + 1 }

/-- `tick`, and whether decay work is due. -/
def tick (o : DepotOverflow) : DepotOverflow × Bool :=
  if o.bytes = 0 then (o, false)
  else
    let o := { o with events := o.events + 1 }
    (o, decide (o.epochLen ≤ o.events ∨ o.debtMask ≠ 0))

/-- The epoch has seen as many events as it was given. -/
def epochDue (o : DepotOverflow) : Bool := decide (max o.epochLen epochMin ≤ o.events)

/-- One class of `end_epoch`. -/
def endEpochClass (parked : Word) (o : DepotOverflow) (c : ℕ) : DepotOverflow :=
  let d := if parked.getLsbD c = false then min ((o.low c + 1) / 2) (o.len c) else 0
  let o := o.setDebt c d
  { o with low := Function.update o.low c (o.len c) }

/-- Closes every class's epoch and sizes the next one by what is parked. -/
def endEpoch (sc : SizeClasses) (floorParked : Word) (o : DepotOverflow) : DepotOverflow :=
  let classes := List.range sc.depotClasses
  let o' := classes.foldl (endEpochClass (o.parkedInEpoch ||| floorParked)) o
  { o' with
    parkedInEpoch := 0
    events := 0
    epochLen := max (2 * (classes.map o.len).sum) epochMin }

/-- The lowest class in debt. -/
def debtClass (o : DepotOverflow) : Option ℕ :=
  if o.debtMask = 0 then none else some (trailingZeros o.debtMask)

/-- Notes that the class found its ring full. -/
def starve (c : ℕ) (o : DepotOverflow) : DepotOverflow := { o with starved := o.starved ||| bit c }

/-- `take_unstarved`: the latched classes that may park again. -/
def takeUnstarved (sc : SizeClasses) (budget : ℕ) (o : DepotOverflow) : DepotOverflow × Word :=
  if o.starved = 0 ∨ o.reserveFailed then (o, 0)
  else
    let ready := (bits o.starved).foldl (fun ready c =>
      if o.bytes + sc.magBytes c ≤ budget ∧ (o.active = false ∨ o.len c < o.cap c)
      then ready ||| bit c else ready) 0
    ({ o with starved := o.starved &&& ~~~ready }, ready)

/-- `arm`: the classes that were not armed yet. -/
def arm (sc : SizeClasses) (o : DepotOverflow) : DepotOverflow × Word :=
  if o.armed = sc.allSmall then (o, 0)
  else ({ o with armed := sc.allSmall }, ~~~o.armed &&& sc.allSmall)

/-- Takes the tick mark off the class. -/
def disarm (c : ℕ) (o : DepotOverflow) : DepotOverflow := { o with armed := o.armed &&& ~~~bit c }

/-- Takes every tick mark off. -/
def disarmAll (o : DepotOverflow) : DepotOverflow := { o with armed := 0 }

/-- Empties every ring, the pages under them given back. -/
def resetRings (o : DepotOverflow) : DepotOverflow :=
  { o with
    committed := fun _ => 0
    len := fun _ => 0
    debtMask := 0
    head := fun _ => 0
    low := fun _ => 0
    debt := fun _ => 0
    parkedInEpoch := 0
    events := 0
    epochLen := epochMin
    reloadsSinceIngress := 0 }

/-- Gives the ring's pages back, or forgets that reserving them failed. -/
def releasePages (o : DepotOverflow) : DepotOverflow :=
  if o.active then o.resetRings else { o with reserveFailed := false }

end DepotOverflow

/-- A heap slot's depot: the rows on the floor of each class, and the overflow. -/
structure Depot where
  mags : ℕ → ℕ → Row
  ovf : DepotOverflow

namespace Depot

/-- The zeroed depot of a new registry slot. -/
def empty : Depot := ⟨fun _ _ _ => 0, .empty⟩

/-- `depot_park`: the floor and its count, unless it is full. -/
def park (c n : ℕ) (magazine : Row) (d : Depot) : Option (Depot × ℕ) :=
  if depotK c ≤ n then none
  else some ({ d with mags := Function.update d.mags c (Function.update (d.mags c) n magazine) },
    n + 1)

/-- `depot_reload`: the count and the row of the floor, unless it is empty. -/
def reload (c n : ℕ) (d : Depot) : Option (ℕ × Row) :=
  if n = 0 then none else some (n - 1, d.mags c (n - 1))

/-- The blocks in the first `n` rows of the floor. -/
def floor (d : Depot) (c n : ℕ) : Multiset ℕ :=
  ((List.range n).map fun i => (d.mags c i).blocks tcacheCap).sum

/-- The blocks in the overflow ring. -/
def ring (d : Depot) (c : ℕ) : Multiset ℕ := ((d.ovf.ring c).map (·.blocks tcacheCap)).sum

end Depot

/-- The rows a class may park in all: its floor and its ring. -/
def openLimit (sc : SizeClasses) (c budget : ℕ) : ℕ :=
  let k := depotCap sc c
  if k = 0 ∨ budget = 0 then k else (k + DepotOverflow.capFor sc budget c) % 2 ^ 16

end Small

end SeferAlloc
