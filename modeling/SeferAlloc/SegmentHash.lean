import Mathlib.Data.Finmap
import SeferAlloc.LinearProbing
import SeferAlloc.SegmentLayout

/-!
# The open-addressing hash of the segment table

A hash slot is one machine word: `0` is empty, anything else is a
segment-aligned key with `slot id + 1` in its low bits (`0` in the low bits for
a bare base). The loops below follow the source's masks; a loop that does not
finish within `hashCapacity` iterations answers `none`. Their meaning comes
from the linear-probing library, instantiated at these words.
-/
namespace SeferAlloc
open LinearProbing

/-- The segments a heap may have. -/
def maxSegments : ℕ := 4096

/-- The cells of the hash, twice the segments. -/
def hashCapacity : ℕ := 2 * maxSegments

/-- The hash slot array. -/
abbrev HashSlots := ℕ → ℕ

/-- The cell a base is hashed to. -/
def hashIndex (base : ℕ) : ℕ :=
  let key := base >>> segmentShift
  (key ^^^ (key >>> 13) ^^^ (key >>> 26)) &&& (hashCapacity - 1)

/-- The probe step `(i + 1) & (HASH_CAPACITY - 1)`. -/
def maskNext (i : ℕ) : ℕ := (i + 1) &&& (hashCapacity - 1)

/-- The forward distance `i.wrapping_sub(home) & mask`. -/
def maskDist (home i : ℕ) : ℕ := (i + 2 ^ 64 - home) % 2 ^ 64 &&& (hashCapacity - 1)

/-- Low bits of a hash word. -/
def entryId (entry : ℕ) : ℕ := entry % segment

/-- The common loop of `hash_insert` and `hash_insert_identity`. -/
def hashInsertLoop (h : HashSlots) (value : ℕ) : ℕ → ℕ → Option HashSlots
  | 0, _ => none
  | fuel + 1, i =>
      if h i = 0 then some (Function.update h i value)
      else hashInsertLoop h value fuel (maskNext i)

def hashInsert (h : HashSlots) (base : ℕ) : Option HashSlots :=
  hashInsertLoop h base hashCapacity (hashIndex base)

def hashInsertIdentity (h : HashSlots) (key id : ℕ) : Option HashSlots :=
  hashInsertLoop h (key ||| (id + 1)) hashCapacity (hashIndex key)

/-- First loop of `hash_remove`: the slot that holds `base`, if any. -/
def hashRemoveFind (h : HashSlots) (base : ℕ) : ℕ → ℕ → Option (Option ℕ)
  | 0, _ => none
  | fuel + 1, i =>
      if h i = 0 then some none
      else if segmentBaseOfPtr (h i) = base then some (some i)
      else hashRemoveFind h base fuel (maskNext i)

/-- Second loop of `hash_remove`: the backward shift. -/
def hashRemoveShift : ℕ → HashSlots → ℕ → ℕ → Option HashSlots
  | 0, _, _, _ => none
  | fuel + 1, h, hole, j =>
      let entry := h j
      if entry = 0 then some (Function.update h hole 0)
      else
        let home := hashIndex entry
        if maskDist home hole ≤ maskDist home j then
          hashRemoveShift fuel (Function.update h hole entry) j (maskNext j)
        else hashRemoveShift fuel h hole (maskNext j)

def hashRemove (h : HashSlots) (base : ℕ) : Option HashSlots :=
  match hashRemoveFind h base hashCapacity (hashIndex base) with
  | none => none
  | some none => some h
  | some (some i) => hashRemoveShift hashCapacity h i (maskNext i)

/-- What `hash_find` answers on a matching word: a bare base is its own root, an
identity goes through the owner slot, and an empty owner slot is no member. -/
def resolveEntry (baseAt : ℕ → ℕ) (entry : ℕ) : Option ℕ :=
  let id := entryId entry
  let root := if id = 0 then entry else baseAt (id - 1)
  if root = 0 then none else some root

/-- The loop of `hash_find`, with its stop after a full turn. -/
def hashFindLoop (baseAt : ℕ → ℕ) (h : HashSlots) (base start : ℕ) :
    ℕ → ℕ → Option (Option ℕ)
  | 0, _ => none
  | fuel + 1, i =>
      if h i = 0 then some none
      else if segmentBaseOfPtr (h i) = base then some (resolveEntry baseAt (h i))
      else if maskNext i = start then some none
      else hashFindLoop baseAt h base start fuel (maskNext i)

def hashFind (baseAt : ℕ → ℕ) (h : HashSlots) (base : ℕ) : Option (Option ℕ) :=
  hashFindLoop baseAt h base (hashIndex base) hashCapacity (hashIndex base)

/-! ## The masks are ring arithmetic -/

lemma hashCapacity_eq : hashCapacity = 8192 := rfl

lemma and_capacity_mask (a : ℕ) : a &&& (hashCapacity - 1) = a % 8192 :=
  Nat.and_two_pow_sub_one_eq_mod a 13

lemma hashIndex_lt (base : ℕ) : hashIndex base < hashCapacity := by
  simp only [hashIndex, and_capacity_mask]
  exact Nat.mod_lt _ (by decide)

lemma maskNext_eq {i : ℕ} (hi : i < hashCapacity) : maskNext i = next hashCapacity i := by
  rw [hashCapacity_eq] at *
  rw [maskNext, and_capacity_mask, next]
  split_ifs <;> omega

lemma maskDist_eq {home i : ℕ} (hh : home < hashCapacity) (hi : i < hashCapacity) :
    maskDist home i = fwd hashCapacity home i := by
  rw [hashCapacity_eq] at *
  rw [maskDist, and_capacity_mask, fwd]
  split_ifs <;> omega

lemma hashIndex_segmentBase (e : ℕ) : hashIndex (segmentBaseOfPtr e) = hashIndex e := by
  have h : segmentBaseOfPtr e / segment = e / segment := by
    simp only [segmentBaseOfPtr, segment]
    omega
  simp only [hashIndex, shiftRight_segmentShift, h]

lemma segmentBaseOfPtr_add {k id : ℕ} (hk : k % segment = 0) (hid : id < segment) :
    segmentBaseOfPtr (k + id) = k := by
  simp only [segmentBaseOfPtr, segment] at *
  omega

lemma entryId_add {k id : ℕ} (hk : k % segment = 0) (hid : id < segment) :
    entryId (k + id) = id := by
  simp only [entryId, segment] at *
  omega

lemma segmentBase_add_entryId (e : ℕ) : segmentBaseOfPtr e + entryId e = e := by
  simp only [segmentBaseOfPtr, entryId]
  have := Nat.mod_le e segment
  omega

/-! ## The loops are walks -/

lemma hashInsertLoop_eq (h : HashSlots) (value fuel i : ℕ) (hi : i < hashCapacity) :
    hashInsertLoop h value fuel i =
      (walk hashCapacity h (fun _ => false) fuel i).map fun j => Function.update h j value := by
  induction fuel generalizing i with
  | zero => rfl
  | succ fuel ih =>
      simp only [hashInsertLoop, walk, maskNext_eq hi, ih _ (next_lt hi)]
      split_ifs <;> simp_all

lemma hashRemoveFind_eq (h : HashSlots) (base fuel i : ℕ) (hi : i < hashCapacity) :
    hashRemoveFind h base fuel i =
      (walk hashCapacity h (fun e => decide (segmentBaseOfPtr e = base)) fuel i).map
        fun j => if h j = 0 then none else some j := by
  induction fuel generalizing i with
  | zero => rfl
  | succ fuel ih =>
      simp only [hashRemoveFind, walk, maskNext_eq hi, ih _ (next_lt hi), decide_eq_true_eq]
      split_ifs <;> simp_all

lemma hashRemoveShift_eq (fuel : ℕ) (h : HashSlots) (hole j : ℕ)
    (hh : hole < hashCapacity) (hj : j < hashCapacity) :
    hashRemoveShift fuel h hole j = shift hashCapacity hashIndex fuel h hole j := by
  induction fuel generalizing h hole j with
  | zero => rfl
  | succ fuel ih =>
      simp only [hashRemoveShift, shift, maskNext_eq hj, maskDist_eq (hashIndex_lt _) hh,
        maskDist_eq (hashIndex_lt _) hj, ih _ _ _ hj (next_lt hj), ih _ _ _ hh (next_lt hj)]

/-- `hash_find` stops after one turn on every table, full ones included. -/
theorem hashFind_total (baseAt : ℕ → ℕ) (h : HashSlots) (base : ℕ) :
    ∃ r, hashFind baseAt h base = some r := by
  have hs := hashIndex_lt base
  suffices loop : ∀ fuel i, i < hashCapacity →
      hashCapacity ≤ fwd hashCapacity (hashIndex base) i + fuel →
      ∃ r, hashFindLoop baseAt h base (hashIndex base) fuel i = some r from
    loop _ _ hs (by simp)
  intro fuel
  induction fuel with
  | zero =>
      intro i hi hf
      have := fwd_lt hs hi
      omega
  | succ fuel ih =>
      intro i hi hf
      simp only [hashFindLoop]
      split_ifs with h0 hk hw
      · exact ⟨_, rfl⟩
      · exact ⟨_, rfl⟩
      · exact ⟨_, rfl⟩
      · rw [maskNext_eq hi] at hw ⊢
        have hd := fwd_next_right hs hw
        exact ih _ (next_lt hi) (by omega)

lemma hashFindLoop_eq (baseAt : ℕ → ℕ) (h : HashSlots) (base : ℕ) {z : ℕ}
    (hz : z < hashCapacity) (hz0 : h z = 0) (fuel i j : ℕ) (hi : i < hashCapacity)
    (hle : fwd hashCapacity (hashIndex base) i ≤ fwd hashCapacity (hashIndex base) z)
    (hw : walk hashCapacity h (fun e => decide (segmentBaseOfPtr e = base)) fuel i = some j) :
    hashFindLoop baseAt h base (hashIndex base) fuel i =
      some (if h j = 0 then none else resolveEntry baseAt (h j)) := by
  have hs := hashIndex_lt base
  induction fuel generalizing i with
  | zero => simp [walk] at hw
  | succ fuel ih =>
      simp only [walk, decide_eq_true_eq] at hw
      simp only [hashFindLoop]
      split_ifs at hw with h0 hk
      · obtain rfl := Option.some.inj hw
        simp [h0]
      · obtain rfl := Option.some.inj hw
        simp [h0, hk]
      · have hiz : i ≠ z := fun e => h0 (e ▸ hz0)
        have hne : fwd hashCapacity (hashIndex base) i ≠ fwd hashCapacity (hashIndex base) z :=
          fun e => hiz (fwd_inj hs hi hz e)
        have hnext : next hashCapacity i ≠ hashIndex base := by
          intro e
          have := fwd_lt hs hz
          simp only [fwd, next] at *
          split_ifs at * <;> omega
        have hd := fwd_next_right hs hnext
        rw [if_neg h0, if_neg hk, maskNext_eq hi, if_neg hnext]
        exact ih _ (next_lt hi) (by omega) hw

/-! ## Refinement of a finite map -/

/-- The abstract content: key to low-bits id. -/
abbrev KeyMap := Finmap (fun _ : ℕ => ℕ)

/-- The hash array implements the finite map `m`. -/
structure HashRefines (h : HashSlots) (m : KeyMap) : Prop where
  wf : WellFormed hashCapacity hashIndex segmentBaseOfPtr h
  entry : ∀ k id, m.lookup k = some id → k % segment = 0 ∧ id < segment ∧ k + id ≠ 0
  holds : ∀ e, e ≠ 0 → (Holds hashCapacity h e ↔ m.lookup (segmentBaseOfPtr e) = some (entryId e))

theorem hashRefines_empty : HashRefines (fun _ => 0) ∅ := by
  refine ⟨wellFormed_empty _ _ _, fun k id h => by simp at h, fun e he => ?_⟩
  simp only [Finmap.lookup_empty, reduceCtorEq, iff_false]
  rintro ⟨x, _, hx⟩
  exact he hx.symm

namespace HashRefines
variable {h : HashSlots} {m : KeyMap}

lemma exists_empty (hr : HashRefines h m) (hcard : m.keys.card < hashCapacity) :
    ∃ z < hashCapacity, h z = 0 := by
  refine hr.wf.exists_empty m.keys (fun x hx hx0 => ?_) hcard
  rw [Finmap.mem_keys]
  exact Finmap.mem_of_lookup_eq_some ((hr.holds _ hx0).mp ⟨x, hx, rfl⟩)

/-- A walk for a key ends at its entry, or at an empty cell when it is absent. -/
lemma walk_key (hr : HashRefines h m) (hcard : m.keys.card < hashCapacity) (k : ℕ) :
    ∃ j, walk hashCapacity h (fun e => decide (segmentBaseOfPtr e = k)) hashCapacity
        (hashIndex k) = some j ∧ j < hashCapacity ∧
      (∀ id, m.lookup k = some id → h j = k + id) ∧ (m.lookup k = none → h j = 0) := by
  obtain ⟨z, hz, hz0⟩ := hr.exists_empty hcard
  have hs := hashIndex_lt k
  obtain ⟨j, hj, hstop⟩ := walk_spec (p := fun e => decide (segmentBaseOfPtr e = k)) hz hz0
    hashCapacity (hashIndex k) hs (fwd_lt hs hz)
  obtain ⟨hkey, huniq⟩ := stopped_key hr.wf hs
    (fun e he => by rw [← he, hashIndex_segmentBase]) hstop
  refine ⟨j, hj, hstop.lt, fun id hid => ?_, fun hnone => ?_⟩
  · obtain ⟨hk, hlt, hne⟩ := hr.entry k id hid
    have hbase := segmentBaseOfPtr_add hk hlt
    obtain ⟨x, hx, hxe⟩ := (hr.holds (k + id) hne).mpr (by rw [hbase, entryId_add hk hlt, hid])
    rw [← huniq x hx (by rwa [hxe]) (by rw [hxe, hbase]), hxe]
  · by_contra h0
    have := (hr.holds (h j) h0).mp ⟨j, hstop.lt, rfl⟩
    rw [hkey h0, hnone] at this
    contradiction

/-- `hash_find` reads the finite map. -/
theorem find (hr : HashRefines h m) (hcard : m.keys.card < hashCapacity) (baseAt : ℕ → ℕ)
    (k : ℕ) :
    hashFind baseAt h k = some ((m.lookup k).bind fun id => resolveEntry baseAt (k + id)) := by
  obtain ⟨z, hz, hz0⟩ := hr.exists_empty hcard
  obtain ⟨j, hj, _, hsome, hnone⟩ := hr.walk_key hcard k
  rw [hashFind, hashFindLoop_eq baseAt h k hz hz0 _ _ j (hashIndex_lt k) (by simp) hj]
  cases hm : m.lookup k with
  | none => simp [hnone hm]
  | some id =>
      have hne := (hr.entry k id hm).2.2
      rw [hsome id hm, if_neg hne, Option.bind_some]

/-- Inserting an absent key. -/
theorem insert (hr : HashRefines h m) {k : ℕ} (id : ℕ) (hcard : m.keys.card < hashCapacity)
    (hk : k % segment = 0) (hid : id < segment) (hne : k + id ≠ 0) (hfresh : k ∉ m) :
    ∃ h', hashInsertLoop h (k + id) hashCapacity (hashIndex k) = some h' ∧
      HashRefines h' (m.insert k id) := by
  obtain ⟨z, hz, hz0⟩ := hr.exists_empty hcard
  have hs := hashIndex_lt k
  obtain ⟨j, hj, hstop⟩ := walk_spec (p := fun _ => false) hz hz0 hashCapacity (hashIndex k) hs
    (fwd_lt hs hz)
  have hbase := segmentBaseOfPtr_add hk hid
  have hhome : hashIndex (k + id) = hashIndex k := by rw [← hashIndex_segmentBase, hbase]
  have hj0 : h j = 0 := by simpa using hstop.stop
  refine ⟨_, by rw [hashInsertLoop_eq _ _ _ _ hs, hj]; rfl, ?_, ?_, fun e he => ?_⟩
  · refine hr.wf.insert (fun x hx hx0 heq => hfresh ?_) (hhome ▸ hstop)
    rw [hbase] at heq
    have := (hr.holds _ hx0).mp ⟨x, hx, rfl⟩
    rw [heq] at this
    exact Finmap.mem_of_lookup_eq_some this
  · intro k' id' hl
    by_cases hkk : k' = k
    · subst hkk
      rw [Finmap.lookup_insert] at hl
      obtain rfl := Option.some.inj hl
      exact ⟨hk, hid, hne⟩
    · rw [Finmap.lookup_insert_of_ne _ hkk] at hl
      exact hr.entry k' id' hl
  · rw [holds_update hstop.lt hj0 he, hr.holds e he]
    by_cases hkk : segmentBaseOfPtr e = k
    · rw [hkk, Finmap.lookup_insert, Finmap.lookup_eq_none.mpr hfresh]
      have hsum := segmentBase_add_entryId e
      simp only [reduceCtorEq, or_false, Option.some.injEq]
      omega
    · rw [Finmap.lookup_insert_of_ne _ hkk, or_iff_right]
      rintro rfl
      exact hkk hbase

/-- Removing any key; absent keys change nothing. -/
theorem remove (hr : HashRefines h m) (hcard : m.keys.card < hashCapacity) (k : ℕ) :
    ∃ h', hashRemove h k = some h' ∧ HashRefines h' (m.erase k) := by
  obtain ⟨z, hz, hz0⟩ := hr.exists_empty hcard
  obtain ⟨i, hi, hilt, hsome, hnone⟩ := hr.walk_key hcard k
  rw [hashRemove, hashRemoveFind_eq _ _ _ _ (hashIndex_lt k), hi]
  cases hm : m.lookup k with
  | none =>
      refine ⟨h, by simp [hnone hm], ?_⟩
      have herase : m.erase k = m := Finmap.ext_lookup fun x => by
        by_cases hx : x = k
        · rw [hx, Finmap.lookup_erase, hm]
        · rw [Finmap.lookup_erase_ne hx]
      rwa [herase]
  | some id =>
      obtain ⟨hk, hid, hne⟩ := hr.entry k id hm
      have hbase := segmentBaseOfPtr_add hk hid
      have hie := hsome id hm
      have hi0 : h i ≠ 0 := by rwa [hie]
      have hinv := hr.wf.shiftInv hilt hz hi0 hz0
      obtain ⟨h', hh', hw, hc⟩ := shift_spec hashIndex_lt hashCapacity h i (next hashCapacity i) z
        hinv (fwd_lt hinv.j_lt hz)
      refine ⟨h', ?_, hw, fun k' id' hl => ?_, fun e he => (hc e he).trans ?_⟩
      · simp [hi0, maskNext_eq hilt, hashRemoveShift_eq _ _ _ _ hilt hinv.j_lt, hh']
      · have hkk : k' ≠ k := by rintro rfl; simp at hl
        rw [Finmap.lookup_erase_ne hkk] at hl
        exact hr.entry k' id' hl
      · by_cases hkk : segmentBaseOfPtr e = k
        · rw [hkk, Finmap.lookup_erase]
          simp only [reduceCtorEq, iff_false]
          rintro ⟨x, hx, hxi, hxe⟩
          exact hxi (hr.wf.inj x hx i hilt (by rwa [hxe]) hi0 (by rw [hxe, hie, hkk, hbase]))
        · rw [Finmap.lookup_erase_ne hkk, ← hr.holds e he]
          constructor
          · rintro ⟨x, hx, _, hxe⟩
            exact ⟨x, hx, hxe⟩
          · rintro ⟨x, hx, hxe⟩
            refine ⟨x, hx, ?_, hxe⟩
            rintro rfl
            exact hkk (by rw [← hxe, hie, hbase])

end HashRefines

/-! ## Whole runs -/

/-- Calls on the hash. -/
inductive HashOp where
  | insert (base : ℕ)
  | insertIdentity (key id : ℕ)
  | remove (base : ℕ)

namespace HashOp

def run : HashOp → HashSlots → Option HashSlots
  | insert base, h => hashInsert h base
  | insertIdentity key id, h => hashInsertIdentity h key id
  | remove base, h => hashRemove h base

/-- The same call on the finite map. -/
def spec : HashOp → KeyMap → KeyMap
  | insert base, m => m.insert base 0
  | insertIdentity key id, m => m.insert key (id + 1)
  | remove base, m => m.erase base

/-- The documented preconditions: an aligned key that is not in the table, and a
load factor of at most one half after the insertion. Any word may be removed. -/
def Legal : HashOp → KeyMap → Prop
  | insert base, m =>
      base % segment = 0 ∧ base ≠ 0 ∧ base ∉ m ∧ m.keys.card < hashCapacity / 2
  | insertIdentity key id, m =>
      key % segment = 0 ∧ id < maxSegments ∧ key ∉ m ∧ m.keys.card < hashCapacity / 2
  | remove _, _ => True

end HashOp

def runHash : List HashOp → HashSlots → Option HashSlots
  | [], h => some h
  | op :: ops, h => (op.run h).bind (runHash ops)

def specHash : List HashOp → KeyMap → KeyMap
  | [], m => m
  | op :: ops, m => specHash ops (op.spec m)

/-- Every call of the run meets its precondition when it is made. -/
def LegalRun : List HashOp → KeyMap → Prop
  | [], _ => True
  | op :: ops, m => op.Legal m ∧ LegalRun ops (op.spec m)

lemma card_keys_erase_le (m : KeyMap) (k : ℕ) : (m.erase k).keys.card ≤ m.keys.card := by
  rw [Finmap.keys_erase]
  exact Finset.card_erase_le

lemma card_keys_insert_le (m : KeyMap) (k v : ℕ) :
    (m.insert k v).keys.card ≤ m.keys.card + 1 := by
  have hsub : (m.insert k v).keys ⊆ insert k m.keys := fun x hx => by
    rw [Finmap.mem_keys, Finmap.mem_insert] at hx
    rw [Finset.mem_insert, Finmap.mem_keys]
    exact hx
  exact (Finset.card_le_card hsub).trans (Finset.card_insert_le _ _)

/-- One legal call keeps the refinement and the load factor. -/
theorem HashOp.run_refines (op : HashOp) {h : HashSlots} {m : KeyMap} (hr : HashRefines h m)
    (hcard : m.keys.card ≤ hashCapacity / 2) (hl : op.Legal m) :
    ∃ h', op.run h = some h' ∧ HashRefines h' (op.spec m) ∧
      (op.spec m).keys.card ≤ hashCapacity / 2 := by
  have hlt : m.keys.card < hashCapacity := lt_of_le_of_lt hcard (by decide)
  cases op with
  | insert base =>
      obtain ⟨hk, h0, hfresh, hload⟩ := hl
      obtain ⟨h', hh', hr'⟩ := hr.insert 0 hlt hk (by decide) (by omega) hfresh
      exact ⟨h', hh', hr', (card_keys_insert_le m base 0).trans hload⟩
  | insertIdentity key id =>
      obtain ⟨hk, hid, hfresh, hload⟩ := hl
      have hid' : id + 1 < segment := by simp only [maxSegments, segment] at *; omega
      obtain ⟨h', hh', hr'⟩ := hr.insert (id + 1) hlt hk hid' (by omega) hfresh
      refine ⟨h', ?_, hr', (card_keys_insert_le m key (id + 1)).trans hload⟩
      rw [HashOp.run, hashInsertIdentity, aligned_or hk hid', hh']
  | remove base =>
      obtain ⟨h', hh', hr'⟩ := hr.remove hlt base
      exact ⟨h', hh', hr', (card_keys_erase_le m base).trans hcard⟩

theorem runHash_refines (ops : List HashOp) {h : HashSlots} {m : KeyMap} (hr : HashRefines h m)
    (hcard : m.keys.card ≤ hashCapacity / 2) (hl : LegalRun ops m) :
    ∃ h', runHash ops h = some h' ∧ HashRefines h' (specHash ops m) ∧
      (specHash ops m).keys.card ≤ hashCapacity / 2 := by
  induction ops generalizing h m with
  | nil => exact ⟨h, rfl, hr, hcard⟩
  | cons op ops ih =>
      obtain ⟨h₁, hrun, hr₁, hcard₁⟩ := op.run_refines hr hcard hl.1
      obtain ⟨h₂, hrun₂, hr₂, hcard₂⟩ := ih hr₁ hcard₁ hl.2
      exact ⟨h₂, by rw [runHash, hrun, Option.bind_some, hrun₂], hr₂, hcard₂⟩

/-- The hash array is an exact image of the finite map `m`. -/
structure ExactMap (h : HashSlots) (m : KeyMap) : Prop where
  /-- A live key yields the slot it was inserted for, through that slot's root. -/
  find_live : ∀ baseAt k id, m.lookup k = some (id + 1) → baseAt id ≠ 0 →
    hashFind baseAt h k = some (some (baseAt id))
  find_bare : ∀ baseAt k, m.lookup k = some 0 → hashFind baseAt h k = some (some k)
  find_absent : ∀ baseAt k, m.lookup k = none → hashFind baseAt h k = some none
  /-- Non-empty cells hold live keys only: there is no tombstone. -/
  cells : ∀ x < hashCapacity, h x ≠ 0 →
    m.lookup (segmentBaseOfPtr (h x)) = some (entryId (h x))
  nodup : ∀ x < hashCapacity, ∀ y < hashCapacity, h x ≠ 0 → h y ≠ 0 →
    segmentBaseOfPtr (h x) = segmentBaseOfPtr (h y) → x = y
  /-- Every live key sits at the end of a cyclic run of occupied cells from its home. -/
  reach : ∀ k id, m.lookup k = some id → ∃ x < hashCapacity, h x = k + id ∧
    ∀ i < hashCapacity, fwd hashCapacity (hashIndex k) i < fwd hashCapacity (hashIndex k) x →
      h i ≠ 0
  /-- Removals of any key and insertions of absent keys finish. -/
  remove_terminates : ∀ k, ∃ h', hashRemove h k = some h'
  insert_terminates : ∀ k id, k % segment = 0 → id < maxSegments → k ∉ m →
    ∃ h', hashInsertIdentity h k id = some h'

theorem HashRefines.exactMap {h : HashSlots} {m : KeyMap} (hr : HashRefines h m)
    (hcard : m.keys.card < hashCapacity) : ExactMap h m where
  find_live baseAt k id hl hb := by
    obtain ⟨hk, hid, _⟩ := hr.entry k _ hl
    rw [hr.find hcard, hl, Option.bind_some, resolveEntry, entryId_add hk hid]
    simp [hb]
  find_bare baseAt k hl := by
    obtain ⟨hk, hid, hne⟩ := hr.entry k _ hl
    rw [hr.find hcard, hl, Option.bind_some, resolveEntry, entryId_add hk hid]
    simpa using hne
  find_absent baseAt k hl := by rw [hr.find hcard, hl, Option.bind_none]
  cells x hx hx0 := (hr.holds _ hx0).mp ⟨x, hx, rfl⟩
  nodup := hr.wf.inj
  reach k id hl := by
    obtain ⟨hk, hid, hne⟩ := hr.entry k id hl
    have hbase := segmentBaseOfPtr_add hk hid
    obtain ⟨x, hx, hxe⟩ := (hr.holds (k + id) hne).mpr (by rw [hbase, entryId_add hk hid, hl])
    have hhome : hashIndex (h x) = hashIndex k := by rw [hxe, ← hashIndex_segmentBase, hbase]
    refine ⟨x, hx, hxe, fun i hi hd => ?_⟩
    exact hr.wf.reach x hx (by rwa [hxe]) i hi (by rwa [hhome])
  remove_terminates k := let ⟨h', hh', _⟩ := hr.remove hcard k; ⟨h', hh'⟩
  insert_terminates k id hk hid hfresh := by
    have hid' : id + 1 < segment := by simp only [maxSegments, segment] at *; omega
    obtain ⟨h', hh', _⟩ := hr.insert (id + 1) hcard hk hid' (by omega) hfresh
    exact ⟨h', by rw [hashInsertIdentity, aligned_or hk hid', hh']⟩

/-- Backward-shift open addressing is an exact map after every legal run. -/
theorem runHash_exactMap (ops : List HashOp) (hl : LegalRun ops ∅) :
    ∃ h, runHash ops (fun _ => 0) = some h ∧ ExactMap h (specHash ops ∅) := by
  obtain ⟨h, hrun, hr, hcard⟩ := runHash_refines ops hashRefines_empty (by decide) hl
  exact ⟨h, hrun, hr.exactMap (lt_of_le_of_lt hcard (by decide))⟩

/-- Two keys whose home is the last cell: the second wraps to cell 0 and is
pulled back when the first is removed. -/
def wrapRun : List HashOp :=
  [.insertIdentity (8191 * segment) 1, .insertIdentity (16382 * segment) 2,
    .remove (8191 * segment)]

theorem wrapRun_exactMap :
    ∃ h, runHash wrapRun (fun _ => 0) = some h ∧ ExactMap h (specHash wrapRun ∅) := by
  refine runHash_exactMap wrapRun ?_
  simp only [wrapRun, LegalRun, HashOp.Legal, HashOp.spec]
  refine ⟨⟨by decide, by decide, Finmap.notMem_empty, by decide⟩,
    ⟨by decide, by decide, ?_, ?_⟩, trivial, trivial⟩
  · rw [Finmap.mem_insert]
    rintro (h | h)
    · exact absurd h (by decide)
    · exact Finmap.notMem_empty h
  · exact lt_of_le_of_lt (card_keys_insert_le _ _ _) (by decide)

end SeferAlloc
