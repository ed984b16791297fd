import SeferAlloc.PageTable
import SeferAlloc.IntrusiveList

/-!
# The lock-free region

Writers, one at a time, copy the current snapshot, change one page of the copy
and publish it; readers look at the snapshot that is current when they come. The
free list is threaded through the vacant slots of all pages, and the region grows
by one page when it is empty.
-/
namespace SeferAlloc
namespace LockFree
open PageTable

/-- The bits of an index inside its page. -/
def pageBits : ℕ := 6

/-- The slots of one page. -/
def page : ℕ := 1 <<< pageBits

/-- The last generation, `u32::MAX`. -/
def maxGeneration : ℕ := 2 ^ 32 - 1

/-- A slot holds a value or links to the next free one. -/
inductive SlotState (T : Type*) where
  | occupied (value : T)
  | vacant (nextFree : Option ℕ)

/-- A slot with the generation its handles carry. -/
structure Slot (T : Type*) where
  generation : ℕ
  state : SlotState T

/-- A page of slots. -/
abbrev Page (T : Type*) := List (Slot T)

/-- A version of the whole region: its pages, free list and length. -/
structure Snapshot (T : Type*) where
  pages : Table (Page T)
  freeHead : Option ℕ
  len : ℕ

/-- A handle names its region, the slot and the slot's generation. -/
@[ext]
structure Handle where
  regionId : ℕ
  index : ℕ
  generation : ℕ
deriving DecidableEq

/-- `LockFreeRegion`: the current snapshot, and whether a writer panicked with the mutex. -/
structure Region (T : Type*) where
  regionId : ℕ
  state : Snapshot T
  poisoned : Bool

variable {T : Type*}

/-- The slot of an index, through its page. -/
def Snapshot.slot (s : Snapshot T) (index : ℕ) : Option (Slot T) :=
  (s.pages.get (index >>> pageBits)).bind fun p => p[index &&& (page - 1)]?

/-- A region with no page. -/
def new (T : Type*) (regionId : ℕ) : Region T := ⟨regionId, ⟨.new, none, 0⟩, false⟩

/-- The slots of `pageCount` pages, while an index can name them. -/
def checkedTotalSlots (pageCount : ℕ) : Option ℕ :=
  if pageCount * page < 2 ^ 32 then some (pageCount * page) else none

/-- A page of `with_pages`. The sums are of 32 bits. -/
def vacantPage (T : Type*) (total base : ℕ) : Page T :=
  (List.range page).map fun off =>
    let global := (base + off) % 2 ^ 32
    ⟨0, .vacant (if total ≤ (global + 1) % 2 ^ 32 then none else some ((global + 1) % 2 ^ 32))⟩

/-- `with_pages`, which wants the slots to be numbered in 32 bits. -/
def withPages (T : Type*) (regionId pageCount : ℕ) : Option (Region T) :=
  (checkedTotalSlots pageCount).map fun total =>
    let pages := (List.range pageCount).map fun pageIdx => vacantPage T total (pageIdx * page)
    ⟨regionId, ⟨.fromVec pages, if 0 < pageCount then some 0 else none, 0⟩, false⟩

/-- Reads the value a handle names, if it is still there. -/
def Region.get (r : Region T) (h : Handle) : Option T :=
  if h.regionId ≠ r.regionId then none
  else
    match r.state.slot h.index with
    | some ⟨generation, .occupied v⟩ => if generation ≠ h.generation then none else some v
    | _ => none

/-- Tells whether a handle's value is still there. -/
def Region.contains (r : Region T) (h : Handle) : Bool :=
  if h.regionId ≠ r.regionId then false
  else
    match r.state.slot h.index with
    | some ⟨generation, .occupied _⟩ => decide (generation = h.generation)
    | _ => false

/-- `insert_reusing`: the next snapshot, and the index and generation of the handle. None where the
code panics. -/
def insertReusing (next : Snapshot T) (head : ℕ) (value : T) : Option (Snapshot T × ℕ × ℕ) :=
  (next.pages.get (head >>> pageBits)).bind fun p =>
    match p[head &&& (page - 1)]? with
    | some ⟨generation, .vacant advancedHead⟩ =>
      let newPage := p.set (head &&& (page - 1)) ⟨generation, .occupied value⟩
      some ({ next with
        pages := (next.pages.set (head >>> pageBits) newPage).1, freeHead := advancedHead },
        head, generation)
    | _ => none

/-- `insert_growing`. None where the index of the page overflows. -/
def insertGrowing (next : Snapshot T) (value : T) : Option (Snapshot T × ℕ × ℕ) :=
  let base := next.pages.len * page
  if 2 ^ 32 ≤ base then none
  else
    let newPage : Page T := (List.range page).map fun off =>
      let global := (base + off) % 2 ^ 32
      if off = 0 then ⟨0, .occupied value⟩
      else ⟨0, .vacant (if off + 1 = page then none else some ((global + 1) % 2 ^ 32))⟩
    some ({ next with pages := next.pages.push newPage, freeHead := some ((base + 1) % 2 ^ 32) },
      base, 0)

/-- `insert`: the snapshot to publish, and the handle. None where the code panics. -/
def Region.insert (r : Region T) (value : T) : Option (Snapshot T × Handle) :=
  if r.poisoned then none
  else
    let next := match r.state.freeHead with
      | some head => insertReusing r.state head value
      | none => insertGrowing r.state value
    next.map fun (s, index, generation) =>
      ({ s with len := s.len + 1 }, ⟨r.regionId, index, generation⟩)

/-- How a `remove` ends. -/
inductive Removal (T : Type*) where
  | panicked
  | rejected
  | removed (next : Snapshot T) (value : T)

/-- Takes a handle's value out and publishes a version without it. -/
def Region.remove (r : Region T) (h : Handle) : Removal T :=
  if h.regionId ≠ r.regionId then .rejected
  else if r.poisoned then .panicked
  else
    match r.state.slot h.index with
    | some ⟨generation, .occupied value⟩ =>
      if generation ≠ h.generation then .rejected
      else
        match r.state.pages.get (h.index >>> pageBits) with
        | none => .panicked
        | some p =>
          let off := h.index &&& (page - 1)
          let reused := decide (generation < maxGeneration)
          let slot : Slot T :=
            if reused then ⟨generation + 1, .vacant r.state.freeHead⟩ else ⟨generation, .vacant none⟩
          .removed
            { pages := (r.state.pages.set (h.index >>> pageBits) (p.set off slot)).1,
              freeHead := if reused then some h.index else r.state.freeHead,
              len := r.state.len - 1 } value
    | _ => .rejected

/-! ## Runs -/

/-- A region, and what was published, inserted and removed so far. -/
structure World (T : Type*) where
  region : Region T
  published : List (Snapshot T)
  inserted : List (Handle × T)
  removed : List Handle

/-- A call of a region. -/
inductive Op (T : Type*) where
  | insert (value : T)
  | remove (h : Handle)
  | get (h : Handle)
  | contains (h : Handle)

/-- A region before the first call. -/
def World.start (r : Region T) : World T := ⟨r, [r.state], [], []⟩

/-- The writer stores the next snapshot. -/
def World.publish (w : World T) (s : Snapshot T) : World T :=
  { w with region := { w.region with state := s }, published := w.published ++ [s] }

/-- A call. A writer that panics with the mutex poisons it. -/
def World.step (w : World T) : Op T → World T
  | .insert v =>
    match w.region.insert v with
    | none => { w with region := { w.region with poisoned := true } }
    | some (s, h) => { w.publish s with inserted := w.inserted ++ [(h, v)] }
  | .remove h =>
    match w.region.remove h with
    | .panicked => { w with region := { w.region with poisoned := true } }
    | .rejected => w
    | .removed s _ => { w.publish s with removed := w.removed ++ [h] }
  | .get _ | .contains _ => w

def World.handles (w : World T) : List Handle := w.inserted.map Prod.fst

/-! ## The slots of a list of pages -/

/-- The slot of an index. -/
def slotAt (ps : List (Page T)) (i : ℕ) : Option (Slot T) :=
  (ps[i / page]?).bind fun p => p[i % page]?

/-- All pages have the same number of slots. -/
def Full (ps : List (Page T)) : Prop := ∀ p ∈ ps, p.length = page

variable {ps : List (Page T)} {i : ℕ}

lemma page_eq : page = 64 := rfl

lemma shift_eq (i : ℕ) : i >>> pageBits = i / page := Nat.shiftRight_eq_div_pow ..

lemma and_eq (i : ℕ) : i &&& (page - 1) = i % page := Nat.and_two_pow_sub_one_eq_mod _ pageBits

/-- A snapshot whose pages are these has these slots. -/
lemma slot_eq {s : Snapshot T} (hs : s.pages = ofList ps) : s.slot = slotAt ps := by
  funext i
  rw [Snapshot.slot, slotAt, shift_eq, and_eq, hs, get_ofList]

/-- The pages with one slot changed. -/
lemma slotAt_set (hf : Full ps) {p : Page T} (hp : ps[i / page]? = some p) (s : Slot T) (k : ℕ) :
    slotAt (ps.set (i / page) (p.set (i % page) s)) k = if k = i then some s else slotAt ps k := by
  have hmem := List.mem_of_getElem? hp
  have hlt : i / page < ps.length := (List.getElem?_eq_some_iff.mp hp).1
  have hmod : i % page < p.length := by
    rw [hf p hmem]
    exact Nat.mod_lt _ (by decide)
  unfold slotAt
  rw [List.getElem?_set]
  by_cases hpg : i / page = k / page
  · rw [if_pos hpg, if_pos (hpg ▸ hlt), Option.bind_some, List.getElem?_set, ← hpg, hp,
      Option.bind_some]
    have hi := Nat.div_add_mod i page
    have hk := Nat.div_add_mod k page
    by_cases hki : k = i
    · subst k
      rw [if_pos rfl, if_pos hmod, if_pos rfl]
    · rw [if_neg hki, if_neg]
      intro he
      rw [← hpg, ← he] at hk
      exact hki (hk.symm.trans hi)
  · rw [if_neg hpg, if_neg]
    rintro rfl
    exact hpg rfl

lemma full_set (hf : Full ps) {k : ℕ} {p : Page T} (hp : p.length = page) : Full (ps.set k p) := by
  intro q hq
  obtain hq | rfl := List.mem_or_eq_of_mem_set hq
  · exact hf q hq
  · exact hp

/-- The pages with one more. -/
lemma slotAt_append (hf : Full ps) {p : Page T} (k : ℕ) : slotAt (ps ++ [p]) k =
    if k < page * ps.length then slotAt ps k
    else if k < page * (ps.length + 1) then p[k - page * ps.length]? else none := by
  unfold slotAt
  have hk := Nat.div_add_mod k page
  have hmod := Nat.mod_lt k (show 0 < page by decide)
  by_cases hlt : k < page * ps.length
  · have hdiv : k / page < ps.length := Nat.div_lt_of_lt_mul hlt
    rw [if_pos hlt, List.getElem?_append_left hdiv]
  · rw [if_neg hlt]
    by_cases hlt' : k < page * (ps.length + 1)
    · have hdiv : k / page = ps.length := by
        rw [page_eq] at *
        omega
      rw [if_pos hlt', hdiv, List.getElem?_append_right (Nat.le_refl _), Nat.sub_self,
        (by rw [page_eq] at *; omega : k % page = k - page * ps.length)]
      rfl
    · have hdiv : ps.length + 1 ≤ k / page := by
        rw [page_eq] at *
        omega
      rw [if_neg hlt', List.getElem?_eq_none]
      · rfl
      · rw [List.length_append, List.length_singleton]
        exact hdiv

end LockFree

end SeferAlloc
