import SeferAlloc.CellCount
import SeferAlloc.TombstoneProbing

/-!
# The exact-object descriptor shard

An open-addressed array of descriptors, keyed by the address of the object. A
removal leaves a tombstone. An insertion that would use more than three quarters
of the array first moves the live descriptors to a fresh one, twice as large when
half of the old one was live.
-/
namespace SeferAlloc.ExactObject
open LinearProbing TombstoneProbing

/-- `EMPTY` is the zero word. -/
def tomb : ℕ := 2 ^ 64 - 1

def initCap : ℕ := 64

/-- What is kept about an object. -/
structure Descriptor where
  size : ℕ
  align : ℕ
  generation : ℕ
  deriving DecidableEq

structure Slot where
  addr : ℕ
  size : ℕ
  align : ℕ
  generation : ℕ
  deriving DecidableEq

def Slot.descriptor (s : Slot) : Descriptor := ⟨s.size, s.align, s.generation⟩

/-- `slots` is an array of the system allocator, null before the first; `used` counts the live
slots and the tombstones. -/
structure Inner where
  array : Option ℕ
  slots : ℕ → Slot
  cap : ℕ
  used : ℕ
  live : ℕ

/-- How an insertion ends. -/
inductive InsertOutcome where
  | inserted
  | oom
  | duplicate
  | exiting
  deriving DecidableEq

/-- How a call does not return: the process stops, or a loop goes on past its round. -/
inductive Stuck where
  | fatal (text : String)
  | diverges

/-- `array_layout`, in bytes; a size above `isize::MAX` stops the process. -/
def arrayLayout (cap : ℕ) : Except Stuck ℕ :=
  if cap * 32 ≤ 2 ^ 63 - 8 then .ok (cap * 32)
  else .error (.fatal "exact-shard: descriptor layout overflow\n")

/-- The multiplicative hash of an address. -/
def hash (addr : ℕ) : ℕ := (((addr >>> 3) * 0x9E3779B97F4A7C15) % 2 ^ 64) >>> 24

namespace Inner

/-- `start`: the low six bits of the hash pick the shard. -/
def start (inner : Inner) (h : ℕ) : ℕ := (h >>> 6) &&& (inner.cap - 1)

def write (inner : Inner) (i : ℕ) (s : Slot) : Inner :=
  { inner with slots := Function.update inner.slots i s }

/-- The loop of `place`. -/
def placeLoop (inner : Inner) (s : Slot) : ℕ → ℕ → Except Stuck Inner
  | 0, _ => .error .diverges
  | fuel + 1, i =>
      let cur := inner.slots i
      if cur.addr = 0 ∨ cur.addr = tomb then
        let inner := if cur.addr = 0 then { inner with used := inner.used + 1 } else inner
        .ok (inner.write i s)
      else placeLoop inner s fuel ((i + 1) &&& (inner.cap - 1))

def place (inner : Inner) (h : ℕ) (s : Slot) : Except Stuck Inner :=
  inner.placeLoop s inner.cap (inner.start h)

/-- The loop of `rehash` over the old slots, with `left` of them to go. -/
def placeAll (old : ℕ → Slot) (oldCap : ℕ) : ℕ → Inner → Except Stuck Inner
  | 0, inner => .ok inner
  | left + 1, inner => do
      let s := old (oldCap - (left + 1))
      let inner ←
        if s.addr ≠ 0 ∧ s.addr ≠ tomb then inner.place (hash s.addr) s else .ok inner
      placeAll old oldCap left inner

/-- `rehash`; `fresh` is the array that `System` answers, if any. The old array comes back with
its capacity, to be freed after the lock is released. -/
def rehash (fresh : Option ℕ) (inner : Inner) :
    Except Stuck (Option (Inner × Option (ℕ × ℕ))) := do
  let newCap :=
    if inner.cap = 0 then initCap
    else if inner.cap ≤ inner.live * 2 then inner.cap * 2
    else inner.cap
  let _ ← arrayLayout newCap
  match fresh with
  | none => .ok none
  | some array => do
      let moved ← placeAll inner.slots inner.cap inner.cap
        { inner with array := some array, slots := fun _ => ⟨0, 0, 0, 0⟩, cap := newCap, used := 0 }
      .ok (some (moved, inner.array.map fun old => (old, inner.cap)))

/-- The loop of `insert`; no `first_free` is `usize::MAX`. -/
def insertLoop (inner : Inner) (s : Slot) :
    ℕ → ℕ → Option ℕ → Except Stuck (InsertOutcome × Inner)
  | 0, _, _ => .error .diverges
  | fuel + 1, i, firstFree =>
      let cur := inner.slots i
      let i' := (i + 1) &&& (inner.cap - 1)
      if cur.addr = 0 then
        let inner := match firstFree with
          | none => { inner with used := inner.used + 1 }.write i s
          | some free => inner.write free s
        .ok (.inserted, { inner with live := inner.live + 1 })
      else if cur.addr = tomb then
        insertLoop inner s fuel i' (firstFree.orElse fun _ => some i)
      else if cur.addr = s.addr then .ok (.duplicate, inner)
      else insertLoop inner s fuel i' firstFree

/-- Inserts after the growth check; a table that had to grow and could not refuses. -/
def insert (fresh : Option ℕ) (inner : Inner) (h : ℕ) (s : Slot) :
    Except Stuck (InsertOutcome × Inner × Option (ℕ × ℕ)) := do
  let room ←
    if inner.cap * 3 < (inner.used + 1) * 4 then inner.rehash fresh else .ok (some (inner, none))
  match room with
  | none => .ok (.oom, inner, none)
  | some (inner, retired) => do
      let (out, inner) ← inner.insertLoop s inner.cap (inner.start h) none
      .ok (out, inner, retired)

/-- The loop of `find`. -/
def findLoop (inner : Inner) (addr : ℕ) : ℕ → ℕ → Except Stuck (Option ℕ)
  | 0, _ => .error .diverges
  | fuel + 1, i =>
      let cur := inner.slots i
      if cur.addr = 0 then .ok none
      else if cur.addr = addr then .ok (some i)
      else findLoop inner addr fuel ((i + 1) &&& (inner.cap - 1))

/-- The slot of the live address, looked for along its probe sequence. -/
def find (inner : Inner) (h addr : ℕ) : Except Stuck (Option ℕ) :=
  if inner.cap = 0 then .ok none else inner.findLoop addr inner.cap (inner.start h)

/-- The part of `peek` under the lock. -/
def peek (inner : Inner) (addr : ℕ) : Except Stuck (Option Descriptor) := do
  let found ← inner.find (hash addr) addr
  .ok (found.map fun i => (inner.slots i).descriptor)

/-- The part of `take` under the lock. -/
def take (inner : Inner) (addr : ℕ) : Except Stuck (Option Descriptor × Inner) := do
  match ← inner.find (hash addr) addr with
  | none => .ok (none, inner)
  | some i =>
      .ok (some (inner.slots i).descriptor,
        { inner.write i ⟨tomb, 0, 0, 0⟩ with live := inner.live - 1 })

end Inner

/-! ## What a probe finds -/

def Slot.isUsed (s : Slot) : Bool := decide (s.addr ≠ 0)

def Slot.isLive (s : Slot) : Bool := IsLive tomb s.addr

namespace Inner

/-- The addresses of the slots. -/
def keys (inner : Inner) (i : ℕ) : ℕ := (inner.slots i).addr

/-- The home slot of an address. -/
def home (cap addr : ℕ) : ℕ := (hash addr >>> 6) &&& (cap - 1)

/-- An array whose slots are in order: a power of two of them, every live address within reach
of its home slot, and `used` exact. -/
structure Sound (inner : Inner) : Prop where
  pow : ∃ k, 6 ≤ k ∧ k ≤ 57 ∧ inner.cap = 2 ^ k
  wf : WellFormed inner.cap (home inner.cap) tomb inner.keys
  used : inner.used = CellCount.count Slot.isUsed inner.slots inner.cap

/-- The number of live descriptors in the slots. -/
def liveCount (inner : Inner) : ℕ :=
  CellCount.count Slot.isLive inner.slots inner.cap

/-- A descriptor written into a free slot; only an unused one was not counted before. -/
def put (inner : Inner) (i : ℕ) (s : Slot) : Inner :=
  { inner with
    slots := Function.update inner.slots i s
    used := if inner.keys i = 0 then inner.used + 1 else inner.used }

/-- Some slot holds this descriptor of an address. -/
def Holds (inner : Inner) (addr : ℕ) (d : Descriptor) : Prop :=
  ∃ x < inner.cap, inner.slots x = ⟨addr, d.size, d.align, d.generation⟩

end Inner

variable {inner : Inner} {addr i : ℕ}

lemma mask_eq_next {k i : ℕ} (hi : i < 2 ^ k) : (i + 1) &&& (2 ^ k - 1) = next (2 ^ k) i := by
  rw [Nat.and_two_pow_sub_one_eq_mod, next]
  split
  · rename_i h
    rw [h, Nat.mod_self]
  · exact Nat.mod_eq_of_lt (by omega)

namespace Inner.Sound

lemma cap_pos (h : inner.Sound) : 0 < inner.cap := by
  obtain ⟨k, -, -, hk⟩ := h.pow
  rw [hk]
  exact Nat.two_pow_pos k

lemma next_eq (h : inner.Sound) (hi : i < inner.cap) :
    (i + 1) &&& (inner.cap - 1) = next inner.cap i := by
  obtain ⟨k, -, -, hk⟩ := h.pow
  rw [hk] at hi ⊢
  exact mask_eq_next hi

lemma home_lt (h : inner.Sound) (addr : ℕ) : Inner.home inner.cap addr < inner.cap := by
  have := h.cap_pos
  have hle := Nat.and_le_right (n := hash addr >>> 6) (m := inner.cap - 1)
  unfold Inner.home
  omega

/-- A slot that was never used ends every probe. -/
lemma exists_empty (h : inner.Sound) (hused : inner.used < inner.cap) :
    ∃ z < inner.cap, inner.keys z = 0 := by
  rw [h.used] at hused
  obtain ⟨z, hz, hempty⟩ := CellCount.exists_of_count_lt hused
  exact ⟨z, hz, by simpa [Slot.isUsed, Inner.keys] using hempty⟩

/-- The loop of `find` is the walk to the address. -/
lemma findLoop_eq (h : inner.Sound) (fuel i : ℕ) (hi : i < inner.cap) :
    inner.findLoop addr fuel i =
      match walk inner.cap inner.keys (fun a => decide (a = addr)) fuel i with
      | none => .error .diverges
      | some j => .ok (if inner.keys j = 0 then none else some j) := by
  induction fuel generalizing i with
  | zero => rfl
  | succ fuel ih =>
    rw [Inner.findLoop, walk, h.next_eq hi, ih (next inner.cap i) (next_lt hi)]
    change (if inner.keys i = 0 then _ else if inner.keys i = addr then _ else _) = _
    by_cases h0 : inner.keys i = 0
    · simp [h0]
    · by_cases ha : inner.keys i = addr
      · rw [if_neg h0, if_pos ha, if_neg h0, if_pos (by simpa using ha)]
        simp [h0]
      · simp [h0, ha]

/-- `find` answers the slot of an address, and none only when no slot has it. -/
lemma find_spec (h : inner.Sound) (hused : inner.used < inner.cap)
    (ha : IsLive tomb addr = true) :
    ∃ found, inner.find (hash addr) addr = .ok found ∧
      (∀ j, found = some j → j < inner.cap ∧ inner.keys j = addr) ∧
      (found = none → ∀ x < inner.cap, inner.keys x ≠ addr) := by
  obtain ⟨z, hz, hz0⟩ := h.exists_empty hused
  have hhome := h.home_lt addr
  obtain ⟨j, hwalk, hs⟩ := walk_spec (p := fun a => decide (a = addr)) hz hz0 inner.cap _ hhome
    (fwd_lt hhome hz)
  have hfind : inner.find (hash addr) addr =
      .ok (if inner.keys j = 0 then none else some j) := by
    rw [Inner.find, if_neg h.cap_pos.ne']
    change inner.findLoop addr inner.cap (Inner.home inner.cap addr) = _
    rw [h.findLoop_eq _ _ hhome, hwalk]
  refine ⟨_, hfind, ?_, ?_⟩
  · intro j' hj'
    split at hj'
    · simp at hj'
    · rename_i h0
      obtain rfl : j = j' := by simpa using hj'
      rcases stopped_key h.wf hhome ha hs with hk | ⟨hk, -⟩
      · exact ⟨hs.lt, hk⟩
      · exact absurd hk h0
  · intro hnone
    rcases stopped_key h.wf hhome ha hs with hk | ⟨-, hk⟩
    · rw [if_neg (hk ▸ (isLive_iff.mp ha).1)] at hnone
      simp at hnone
    · exact hk

/-- A descriptor put into a free slot that its probe reached. -/
lemma put (h : inner.Sound) {s : Slot} (hs : IsLive tomb s.addr = true)
    (hfresh : ∀ x < inner.cap, inner.keys x ≠ s.addr) (hi : i < inner.cap)
    (hfree : inner.keys i = 0 ∨ inner.keys i = tomb)
    (hpath : ∀ x < inner.cap, fwd inner.cap (Inner.home inner.cap s.addr) x <
      fwd inner.cap (Inner.home inner.cap s.addr) i → inner.keys x ≠ 0) :
    (inner.put i s).Sound ∧ (inner.put i s).liveCount = inner.liveCount + 1 := by
  have hkeys : (inner.put i s).keys = Function.update inner.keys i s.addr := by
    funext x
    by_cases hx : x = i
    · subst hx
      simp [Inner.keys, Inner.put]
    · simp [Inner.keys, Inner.put, hx]
  have hdead : (inner.slots i).isLive = false := by
    rcases hfree with h0 | h0
    · rw [Slot.isLive, show (inner.slots i).addr = 0 from h0]
      rfl
    · rw [Slot.isLive, show (inner.slots i).addr = tomb from h0]
      rfl
  have hused : s.isUsed = true := by simpa [Slot.isUsed] using (isLive_iff.mp hs).1
  refine ⟨⟨h.pow, ?_, ?_⟩, ?_⟩
  · rw [hkeys]
    exact h.wf.put hs hfresh hpath
  · have hcount := CellCount.count_update (p := Slot.isUsed) (t := inner.slots) hi s
    rw [hused] at hcount
    change (if inner.keys i = 0 then inner.used + 1 else inner.used) =
      CellCount.count Slot.isUsed (Function.update inner.slots i s) inner.cap
    by_cases h0 : inner.keys i = 0
    · have hwas : (inner.slots i).isUsed = false := by
        rw [Slot.isUsed, show (inner.slots i).addr = 0 from h0]
        rfl
      rw [hwas] at hcount
      rw [if_pos h0, h.used]
      exact hcount.symm
    · have hwas : (inner.slots i).isUsed = true := by simpa [Slot.isUsed, Inner.keys] using h0
      rw [hwas] at hcount
      rw [if_neg h0, h.used]
      omega
  · have hcount := CellCount.count_update (p := Slot.isLive) (t := inner.slots) hi s
    rw [hdead, show s.isLive = true from hs] at hcount
    exact hcount

/-- A descriptor goes, and its tombstone stays. -/
lemma bury (h : inner.Sound) (hi : i < inner.cap) (hlive : (inner.slots i).isLive = true) :
    (inner.write i ⟨tomb, 0, 0, 0⟩).Sound ∧
      (inner.write i ⟨tomb, 0, 0, 0⟩).liveCount + 1 = inner.liveCount := by
  have hkeys : (inner.write i ⟨tomb, 0, 0, 0⟩).keys = Function.update inner.keys i tomb := by
    funext x
    by_cases hx : x = i
    · subst hx
      simp [Inner.keys, Inner.write]
    · simp [Inner.keys, Inner.write, hx]
  have hused : (inner.slots i).isUsed = true := by
    simpa [Slot.isUsed] using (isLive_iff.mp hlive).1
  refine ⟨⟨h.pow, ?_, ?_⟩, ?_⟩
  · rw [hkeys]
    exact h.wf.bury (by decide) i
  · have hcount := CellCount.count_update (p := Slot.isUsed) (t := inner.slots) hi ⟨tomb, 0, 0, 0⟩
    rw [hused, show Slot.isUsed ⟨tomb, 0, 0, 0⟩ = true from rfl] at hcount
    change inner.used = _
    rw [h.used]
    exact (Nat.add_right_cancel hcount).symm
  · have hcount := CellCount.count_update (p := Slot.isLive) (t := inner.slots) hi ⟨tomb, 0, 0, 0⟩
    rw [hlive, show Slot.isLive ⟨tomb, 0, 0, 0⟩ = false from rfl] at hcount
    exact hcount

/-- `place` puts the descriptor of an absent address into a free slot. -/
lemma place_spec (h : inner.Sound) (hroom : inner.used < inner.cap) {s : Slot}
    (hs : IsLive tomb s.addr = true) (hfresh : ∀ x < inner.cap, inner.keys x ≠ s.addr) :
    ∃ i < inner.cap, inner.place (hash s.addr) s = .ok (inner.put i s) ∧
      (inner.keys i = 0 ∨ inner.keys i = tomb) ∧ (inner.put i s).Sound ∧
      (inner.put i s).liveCount = inner.liveCount + 1 := by
  obtain ⟨z, hz, hz0⟩ := h.exists_empty hroom
  have hhome := h.home_lt s.addr
  have hloop : ∀ fuel i, i < inner.cap → inner.placeLoop s fuel i =
      match walk inner.cap inner.keys (fun a => decide (a = tomb)) fuel i with
      | none => .error .diverges
      | some j => .ok (inner.put j s) := by
    intro fuel
    induction fuel with
    | zero => exact fun i _ => rfl
    | succ fuel ih =>
      intro i hi
      rw [Inner.placeLoop, walk, h.next_eq hi, ih (next inner.cap i) (next_lt hi)]
      change (if inner.keys i = 0 ∨ inner.keys i = tomb then
        Except.ok (Inner.write (if inner.keys i = 0 then _ else inner) i s) else _) = _
      by_cases h0 : inner.keys i = 0
      · rw [if_pos (.inl h0), if_pos h0, if_pos h0]
        simp only [Inner.put, if_pos h0]
        rfl
      · by_cases hdead : inner.keys i = tomb
        · rw [if_pos (.inr hdead), if_neg h0, if_neg h0, if_pos (by simpa using hdead)]
          simp only [Inner.put, if_neg h0]
          rfl
        · rw [if_neg (by simp [h0, hdead]), if_neg h0, if_neg (by simpa using hdead)]
  obtain ⟨j, hwalk, hstop⟩ := walk_spec (p := fun a => decide (a = tomb)) hz hz0 inner.cap _ hhome
    (fwd_lt hhome hz)
  have hfree : inner.keys j = 0 ∨ inner.keys j = tomb :=
    hstop.stop.imp_right fun hp => by simpa using hp
  obtain ⟨hsound, hcount⟩ := h.put hs hfresh hstop.lt hfree
    fun x hx hlt => (hstop.passed x hx hlt).1
  refine ⟨j, hstop.lt, ?_, hfree, hsound, hcount⟩
  change inner.placeLoop s inner.cap (Inner.home inner.cap s.addr) = _
  rw [hloop _ _ hhome, hwalk]

end Inner.Sound

/-! ## The rehash -/

/-- The live slots of an array are the live ones among the first `n` of another. -/
def Moved (old : ℕ → Slot) (n : ℕ) (inner : Inner) : Prop :=
  ∀ s : Slot, s.isLive = true → ((∃ x < inner.cap, inner.slots x = s) ↔ ∃ y < n, old y = s)

/-- An array without tombstones. -/
def Clean (inner : Inner) : Prop := ∀ x < inner.cap, inner.keys x ≠ tomb

lemma Clean.used (h : Clean inner) (hs : inner.Sound) : inner.used = inner.liveCount := by
  rw [hs.used]
  apply CellCount.count_congr
  intro x hx
  have hne : (inner.slots x).addr ≠ tomb := h x hx
  simp [Slot.isUsed, Slot.isLive, IsLive, hne]

/-- The loop moves every live descriptor, each once, and leaves the tombstones. -/
lemma placeAll_spec (old : ℕ → Slot) (oldCap : ℕ)
    (hinj : ∀ x < oldCap, ∀ y < oldCap, (old x).isLive = true → (old x).addr = (old y).addr → x = y)
    (left : ℕ) (inner : Inner) (hleft : left ≤ oldCap) (h : inner.Sound) (hclean : Clean inner)
    (hcount : inner.liveCount = CellCount.count Slot.isLive old (oldCap - left))
    (hmoved : Moved old (oldCap - left) inner)
    (hroom : CellCount.count Slot.isLive old oldCap < inner.cap) :
    ∃ inner', Inner.placeAll old oldCap left inner = .ok inner' ∧ inner'.Sound ∧ Clean inner' ∧
      inner'.liveCount = CellCount.count Slot.isLive old oldCap ∧ Moved old oldCap inner' ∧
      inner'.cap = inner.cap ∧ inner'.array = inner.array ∧ inner'.live = inner.live := by
  induction left generalizing inner with
  | zero => exact ⟨inner, rfl, h, hclean, hcount, hmoved, rfl, rfl, rfl⟩
  | succ left ih =>
    rw [Inner.placeAll]
    have hn : oldCap - left = oldCap - (left + 1) + 1 := by omega
    have hlt : oldCap - (left + 1) < oldCap := by omega
    generalize oldCap - (left + 1) = n at hcount hmoved hn hlt
    have hsucc : CellCount.count Slot.isLive old (n + 1) =
        CellCount.count Slot.isLive old n + (old n).isLive.toNat := CellCount.count_succ
    by_cases hlive : (old n).isLive = true
    · have hne : (old n).addr ≠ 0 ∧ (old n).addr ≠ tomb := isLive_iff.mp hlive
      have hfresh : ∀ x < inner.cap, inner.keys x ≠ (old n).addr := by
        intro x hx hkey
        have hx' : (inner.slots x).isLive = true := by
          rw [Slot.isLive, show (inner.slots x).addr = (old n).addr from hkey]
          exact hlive
        obtain ⟨y, hy, hyx⟩ := (hmoved _ hx').mp ⟨x, hx, rfl⟩
        have heq := hinj n hlt y (by omega) hlive (by rw [hyx]; exact hkey.symm)
        omega
      have hused : inner.used < inner.cap := by
        rw [hclean.used h, hcount]
        have hmono : CellCount.count Slot.isLive old n ≤ CellCount.count Slot.isLive old oldCap :=
          Finset.card_le_card (Finset.filter_subset_filter _ (Finset.range_mono hlt.le))
        omega
      obtain ⟨i, hi, hplace, hfree, hsound, hcount'⟩ := h.place_spec hused hlive hfresh
      have hi0 : inner.keys i = 0 := hfree.resolve_right (hclean i hi)
      dsimp only
      rw [if_pos hne, hplace]
      change ∃ inner', Inner.placeAll old oldCap left (inner.put i (old n)) = .ok inner' ∧ _
      have hput : ∀ x, (inner.put i (old n)).slots x =
          if x = i then old n else inner.slots x := fun x => by
        simp [Inner.put, Function.update_apply]
      apply ih (inner.put i (old n)) (by omega) hsound
      · intro x hx
        change ((inner.put i (old n)).slots x).addr ≠ tomb
        rw [hput]
        split
        · exact hne.2
        · exact hclean x hx
      · rw [hcount', hcount, hn, hsucc, hlive]
        rfl
      · intro s hs
        rw [hn]
        constructor
        · rintro ⟨x, hx, hxs⟩
          rw [hput] at hxs
          split at hxs
          · exact ⟨n, by omega, hxs⟩
          · obtain ⟨y, hy, hys⟩ := (hmoved s hs).mp ⟨x, hx, hxs⟩
            exact ⟨y, by omega, hys⟩
        · rintro ⟨y, hy, hys⟩
          by_cases hyn : y = n
          · exact ⟨i, hi, by rw [hput, if_pos rfl, ← hyn, hys]⟩
          · obtain ⟨x, hx, hxs⟩ := (hmoved s hs).mpr ⟨y, by omega, hys⟩
            refine ⟨x, hx, ?_⟩
            rw [hput, if_neg, hxs]
            rintro rfl
            rw [← hxs] at hs
            exact (isLive_iff.mp hs).1 hi0
      · exact hroom
    · have hne : ¬ ((old n).addr ≠ 0 ∧ (old n).addr ≠ tomb) := fun hne => hlive (isLive_iff.mpr hne)
      dsimp only
      rw [if_neg hne]
      change ∃ inner', Inner.placeAll old oldCap left inner = .ok inner' ∧ _
      apply ih inner (by omega) h hclean
      · rw [hcount, hn, hsucc, Bool.eq_false_iff.mpr hlive]
        rfl
      · intro s hs
        rw [hmoved s hs, hn]
        constructor
        · rintro ⟨y, hy, hys⟩
          exact ⟨y, by omega, hys⟩
        · rintro ⟨y, hy, hys⟩
          refine ⟨y, ?_, hys⟩
          have hyn : y ≠ n := by
            rintro rfl
            exact hlive (hys ▸ hs)
          omega
      · exact hroom

/-- What a shard keeps between the calls: no array yet, or one of which a quarter was never
used. -/
def Inner.Inv (inner : Inner) : Prop :=
  (inner.array = none ∧ inner.cap = 0 ∧ inner.used = 0 ∧ inner.live = 0) ∨
    (inner.array.isSome ∧ inner.Sound ∧ inner.live = inner.liveCount ∧
      inner.used * 4 ≤ inner.cap * 3)

/-- `Inner.Holds` of live addresses says the same of two arrays. -/
def SameDescriptors (inner inner' : Inner) : Prop :=
  ∀ addr d, IsLive tomb addr = true → (inner'.Holds addr d ↔ inner.Holds addr d)

/-- The capacity after a rehash. -/
def Inner.newCap (inner : Inner) : ℕ :=
  if inner.cap = 0 then initCap
  else if inner.cap ≤ inner.live * 2 then inner.cap * 2
  else inner.cap

/-- The fresh array, all zero. -/
def Inner.cleared (inner : Inner) (array : ℕ) : Inner :=
  { inner with
    array := some array, slots := fun _ => ⟨0, 0, 0, 0⟩, cap := inner.newCap, used := 0 }

lemma count_zeroed (p : Slot → Bool) (hp : p ⟨0, 0, 0, 0⟩ = false) (n : ℕ) :
    CellCount.count p (fun _ => ⟨0, 0, 0, 0⟩) n = 0 := by
  simp [CellCount.count, hp]

lemma Inner.cleared_sound {inner : Inner} {k : ℕ} (array : ℕ) (h6 : 6 ≤ k) (h57 : k ≤ 57)
    (hk : inner.newCap = 2 ^ k) : (inner.cleared array).Sound where
  pow := ⟨k, h6, h57, hk⟩
  wf := wellFormed_empty
  used := (count_zeroed _ rfl _).symm

/-- There is more room in the new array than live descriptors in the old one. -/
lemma Inner.Inv.room (h : inner.Inv) :
    inner.live = CellCount.count Slot.isLive inner.slots inner.cap ∧
      (inner.live + 1) * 4 ≤ inner.newCap * 3 ∧ inner.live < inner.newCap := by
  unfold Inner.newCap
  rcases h with ⟨-, h0, -, hlive⟩ | ⟨-, hs, hlive, hused⟩
  · rw [if_pos h0, h0, hlive]
    exact ⟨rfl, by decide, by decide⟩
  · have hpos := hs.cap_pos
    have hcap : 2 ^ 6 ≤ inner.cap := by
      obtain ⟨k, h6, -, hk⟩ := hs.pow
      rw [hk]
      exact Nat.pow_le_pow_right (by omega) h6
    have hle : inner.live ≤ inner.used := by
      rw [hlive, hs.used]
      exact CellCount.count_mono fun s hs => by simpa [Slot.isUsed] using (isLive_iff.mp hs).1
    rw [if_neg hpos.ne']
    refine ⟨hlive, ?_⟩
    split <;> omega

/-- A rehash is refused by the system allocator, or it moves the descriptors to the new array and
gives the old one back; only a layout of more than 2^57 slots stops the process. -/
theorem Inner.Inv.rehash_spec (h : inner.Inv) (fresh : Option ℕ) :
    (inner.newCap = 2 ^ 58 ∧
      inner.rehash fresh = .error (.fatal "exact-shard: descriptor layout overflow\n")) ∨
    (fresh = none ∧ inner.rehash fresh = .ok none) ∨
    ∃ array inner', fresh = some array ∧
      inner.rehash fresh = .ok (some (inner', inner.array.map fun old => (old, inner.cap))) ∧
      inner'.Inv ∧ inner'.array = some array ∧ inner'.live = inner.live ∧
      (inner'.used + 1) * 4 ≤ inner'.cap * 3 ∧ Clean inner' ∧ SameDescriptors inner inner' := by
  have hcap : ∃ k, 6 ≤ k ∧ k ≤ 58 ∧ inner.newCap = 2 ^ k := by
    unfold Inner.newCap
    rcases h with ⟨-, h0, -, -⟩ | ⟨-, hs, -, -⟩
    · exact ⟨6, by omega, by omega, by rw [if_pos h0]; rfl⟩
    · rw [if_neg hs.cap_pos.ne']
      obtain ⟨k, h6, h57, hk⟩ := hs.pow
      split
      · exact ⟨k + 1, by omega, by omega, by rw [hk, Nat.pow_succ]⟩
      · exact ⟨k, h6, by omega, hk⟩
  obtain ⟨k, h6, h58, hk⟩ := hcap
  by_cases hfit : inner.newCap * 32 ≤ 2 ^ 63 - 8
  · right
    have hrehash : inner.rehash fresh = match fresh with
        | none => .ok none
        | some array =>
            Inner.placeAll inner.slots inner.cap inner.cap (inner.cleared array) >>= fun moved =>
              .ok (some (moved, inner.array.map fun old => (old, inner.cap))) := by
      change (arrayLayout inner.newCap >>= fun _ => _) = _
      rw [arrayLayout, if_pos hfit]
      rfl
    cases fresh with
    | none => exact .inl ⟨rfl, hrehash⟩
    | some array =>
      right
      have h57 : k ≤ 57 := by
        by_contra hgt
        obtain rfl : k = 58 := by omega
        omega
      have hinj : ∀ x < inner.cap, ∀ y < inner.cap, (inner.slots x).isLive = true →
          (inner.slots x).addr = (inner.slots y).addr → x = y := by
        intro x hx y hy hlive heq
        rcases h with ⟨-, h0, -, -⟩ | ⟨-, hs, -, -⟩
        · omega
        · exact hs.wf.inj x hx y hy hlive heq
      obtain ⟨hlive, hroom, hlt⟩ := h.room
      obtain ⟨inner', hall, hsound, hclean, hcount, hmoved, hcap', harray, hlive'⟩ :=
        placeAll_spec inner.slots inner.cap hinj inner.cap (inner.cleared array) le_rfl
          (Inner.cleared_sound array h6 h57 hk) (fun _ _ => show 0 ≠ tomb by decide)
          (by rw [Nat.sub_self]; exact count_zeroed _ rfl _)
          (by
            rw [Nat.sub_self]
            rintro s hs
            constructor
            · rintro ⟨x, -, rfl⟩
              exact absurd hs (show ¬ Slot.isLive ⟨0, 0, 0, 0⟩ = true by decide)
            · rintro ⟨y, hy, -⟩
              exact absurd hy (Nat.not_lt_zero y))
          (hlive ▸ hlt)
      have hused' : inner'.used = inner.live := by rw [hclean.used hsound, hcount, hlive]
      refine ⟨array, inner', rfl, ?_, .inr ⟨?_, hsound, ?_, ?_⟩, harray, hlive', ?_, hclean, ?_⟩
      · rw [hrehash]
        dsimp only
        rw [hall]
        rfl
      · rw [harray]
        rfl
      · rw [hlive', hcount]
        exact hlive
      · rw [hused', hcap']
        change inner.live * 4 ≤ inner.newCap * 3
        omega
      · rw [hused', hcap']
        exact hroom
      · intro addr d haddr
        exact hmoved ⟨addr, d.size, d.align, d.generation⟩ haddr
  · left
    have hk58 : k = 58 := by
      by_contra hne
      have : inner.newCap ≤ 2 ^ 57 := by
        rw [hk]
        exact Nat.pow_le_pow_right (by omega) (by omega)
      omega
    constructor
    · rw [hk, hk58]
    · change (arrayLayout inner.newCap >>= fun _ => _) = _
      rw [arrayLayout, if_neg hfit]
      rfl

/-! ## The calls under the lock -/

/-- A descriptor put at slot `i` and counted. -/
def Inner.added (inner : Inner) (i : ℕ) (s : Slot) : Inner :=
  { inner.put i s with live := inner.live + 1 }

namespace Inner.Sound
variable {s : Slot}

/-- The loop of `insert` is the walk that remembers the first tombstone. -/
lemma insertLoop_eq (h : inner.Sound) (fuel i : ℕ) (free : Option ℕ) (hi : i < inner.cap)
    (hfree : ∀ j, free = some j → inner.keys j = tomb) :
    inner.insertLoop s fuel i free =
      match insertWalk inner.cap inner.keys tomb s.addr fuel i free with
      | none => .error .diverges
      | some (.inl _) => .ok (.duplicate, inner)
      | some (.inr j) => .ok (.inserted, inner.added j s) := by
  induction fuel generalizing i free with
  | zero => rfl
  | succ fuel ih =>
    have hfree' : ∀ j, (free.orElse fun _ => some i) = some j → inner.keys i = tomb →
        inner.keys j = tomb := by
      intro j hj hdead
      cases free with
      | none =>
        obtain rfl : i = j := by simpa using hj
        exact hdead
      | some f => exact hfree j (by simpa using hj)
    unfold Inner.insertLoop insertWalk
    rw [h.next_eq hi]
    change (if inner.keys i = 0 then _ else if inner.keys i = tomb then _ else
      if inner.keys i = s.addr then _ else _) = _
    by_cases h0 : inner.keys i = 0
    · rw [if_pos h0, if_pos h0]
      cases free with
      | none =>
        simp only [Option.getD_none, Inner.added, Inner.put, if_pos h0]
        rfl
      | some j =>
        have hj : inner.keys j ≠ 0 := by
          rw [hfree j rfl]
          decide
        simp only [Option.getD_some, Inner.added, Inner.put, if_neg hj]
        rfl
    · rw [if_neg h0, if_neg h0]
      by_cases hdead : inner.keys i = tomb
      · rw [if_pos hdead, if_pos hdead]
        exact ih _ _ (next_lt hi) fun j hj => hfree' j hj hdead
      · rw [if_neg hdead, if_neg hdead]
        by_cases ha : inner.keys i = s.addr
        · rw [if_pos ha, if_pos ha]
        · rw [if_neg ha, if_neg ha]
          exact ih _ _ (next_lt hi) hfree

/-- With room in the array the loop ends: at the live address, or with the descriptor added. -/
lemma insertLoop_spec (h : inner.Sound) (hroom : inner.used < inner.cap)
    (hs : IsLive tomb s.addr = true) :
    (inner.insertLoop s inner.cap (inner.start (hash s.addr)) none = .ok (.duplicate, inner) ∧
      ∃ x < inner.cap, inner.keys x = s.addr) ∨
    ∃ i < inner.cap, inner.insertLoop s inner.cap (inner.start (hash s.addr)) none =
        .ok (.inserted, inner.added i s) ∧ (inner.keys i = 0 ∨ inner.keys i = tomb) ∧
      (∀ x < inner.cap, inner.keys x ≠ s.addr) ∧ (inner.put i s).Sound ∧
      (inner.put i s).liveCount = inner.liveCount + 1 := by
  obtain ⟨z, hz, hz0⟩ := h.exists_empty hroom
  have hhome := h.home_lt s.addr
  obtain ⟨j, hstop, hfound, hfree⟩ :=
    insertWalk_spec hz hz0 hs inner.cap _ none hhome (fwd_lt hhome hz)
  change (inner.insertLoop s inner.cap (Inner.home inner.cap s.addr) none = _ ∧ _) ∨
    ∃ i < inner.cap, inner.insertLoop s inner.cap (Inner.home inner.cap s.addr) none = _ ∧ _
  rw [h.insertLoop_eq _ _ none hhome (by simp)]
  rcases stopped_key h.wf hhome hs hstop with hk | ⟨h0, hfresh⟩
  · left
    rw [hfound hk]
    exact ⟨rfl, j, hstop.lt, hk⟩
  · right
    obtain ⟨a, ha, hchosen⟩ := hfree h0
    have hchosen : Chosen inner.cap inner.keys tomb (Inner.home inner.cap s.addr) j a := by
      simpa using hchosen
    have hcell : a < inner.cap ∧ (inner.keys a = 0 ∨ inner.keys a = tomb) := by
      rcases hchosen with rfl | ⟨hlt, hdead, -⟩
      · exact ⟨hstop.lt, .inl h0⟩
      · exact ⟨hlt, .inr hdead⟩
    obtain ⟨hsound, hcount⟩ := h.put hs hfresh hcell.1 hcell.2 (hchosen.path hstop)
    refine ⟨a, hcell.1, ?_, hcell.2, hfresh, hsound, hcount⟩
    rw [ha]

end Inner.Sound

/-- What the descriptors are after one has been added. -/
lemma holds_put {s : Slot} {i : ℕ} (hi : i < inner.cap)
    (hfree : inner.keys i = 0 ∨ inner.keys i = tomb)
    (hfresh : ∀ x < inner.cap, inner.keys x ≠ s.addr) (addr : ℕ) (d : Descriptor)
    (haddr : IsLive tomb addr = true) :
    (inner.put i s).Holds addr d ↔
      if addr = s.addr then d = s.descriptor else inner.Holds addr d := by
  have hslot : ∀ x, (inner.put i s).slots x = if x = i then s else inner.slots x := fun x => by
    simp [Inner.put, Function.update_apply]
  obtain ⟨h0, hdead⟩ := isLive_iff.mp haddr
  constructor
  · rintro ⟨x, hx, hslotx⟩
    rw [hslot] at hslotx
    split at hslotx
    · rw [hslotx, if_pos rfl]
      rfl
    · rw [if_neg]
      · exact ⟨x, hx, hslotx⟩
      · rintro rfl
        apply hfresh x hx
        rw [Inner.keys, hslotx]
  · intro h
    split at h
    · rename_i heq
      refine ⟨i, hi, ?_⟩
      rw [hslot, if_pos rfl, heq, h]
      rfl
    · obtain ⟨x, hx, hslotx⟩ := h
      refine ⟨x, hx, ?_⟩
      rw [hslot, if_neg, hslotx]
      rintro rfl
      rw [Inner.keys, hslotx] at hfree
      rcases hfree with h | h
      · exact h0 h
      · exact hdead h

/-- An insertion would use more than three quarters of the array. -/
def Inner.due (inner : Inner) : Bool := decide (inner.cap * 3 < (inner.used + 1) * 4)

/-- The array that an insertion goes on with: the old one, or a fresh one with its descriptors. -/
inductive Room (inner : Inner) (fresh : Option ℕ) : Inner → Option (ℕ × ℕ) → Prop
  | old (hdue : inner.due = false) : Room inner fresh inner none
  | rehashed (array : ℕ) (base : Inner) (hdue : inner.due = true) (hfresh : fresh = some array)
      (harray : base.array = some array) (hlive : base.live = inner.live) (hclean : Clean base)
      (hsame : SameDescriptors inner base) :
      Room inner fresh base (inner.array.map fun old => (old, inner.cap))

/-- What an insertion does. -/
inductive Inserts (inner : Inner) (fresh : Option ℕ) (s : Slot) :
    Except Stuck (InsertOutcome × Inner × Option (ℕ × ℕ)) → Prop
  | fatal (hdue : inner.due = true) (hcap : inner.newCap = 2 ^ 58) :
      Inserts inner fresh s (.error (.fatal "exact-shard: descriptor layout overflow\n"))
  | oom (hdue : inner.due = true) (hfresh : fresh = none) :
      Inserts inner fresh s (.ok (.oom, inner, none))
  | duplicate (base : Inner) (retired : Option (ℕ × ℕ)) (hroom : Room inner fresh base retired)
      (hinv : base.Inv) (hlive : ∃ x < base.cap, base.keys x = s.addr) :
      Inserts inner fresh s (.ok (.duplicate, base, retired))
  | inserted (base : Inner) (retired : Option (ℕ × ℕ)) (hroom : Room inner fresh base retired)
      (i : ℕ) (hi : i < base.cap) (hfree : base.keys i = 0 ∨ base.keys i = tomb)
      (hfresh : ∀ x < base.cap, base.keys x ≠ s.addr) (hinv : (base.added i s).Inv) :
      Inserts inner fresh s (.ok (.inserted, base.added i s, retired))

/-- The probe of an insertion that has room. -/
lemma Inserts.of_room {inner base : Inner} {fresh : Option ℕ} {retired : Option (ℕ × ℕ)} {s : Slot}
    (hs : IsLive tomb s.addr = true) (hinv : base.Inv) (hquarter : (base.used + 1) * 4 ≤ base.cap * 3)
    (hroom : Room inner fresh base retired) :
    Inserts inner fresh s (do
      let (out, inner) ← base.insertLoop s base.cap (base.start (hash s.addr)) none
      .ok (out, inner, retired)) := by
  rcases hinv with ⟨-, h0, -, -⟩ | ⟨harray, hsound, hlive, hused⟩
  · omega
  · rcases hsound.insertLoop_spec (by omega) hs with ⟨hloop, hx⟩ |
      ⟨i, hi, hloop, hfree, hfresh, hput, hcount⟩
    · rw [hloop]
      exact .duplicate base retired hroom (.inr ⟨harray, hsound, hlive, hused⟩) hx
    · rw [hloop]
      refine .inserted base retired hroom i hi hfree hfresh (.inr ⟨harray, ?_, ?_, ?_⟩)
      · exact ⟨hput.pow, hput.wf, hput.used⟩
      · change base.live + 1 = (base.put i s).liveCount
        rw [hcount, hlive]
      · change (if base.keys i = 0 then base.used + 1 else base.used) * 4 ≤ base.cap * 3
        split <;> omega

theorem Inner.Inv.insert_spec (h : inner.Inv) (fresh : Option ℕ) {s : Slot}
    (hs : IsLive tomb s.addr = true) :
    Inserts inner fresh s (inner.insert fresh (hash s.addr) s) := by
  unfold Inner.insert
  by_cases hdue : inner.cap * 3 < (inner.used + 1) * 4
  · have hdue' : inner.due = true := by simpa [Inner.due] using hdue
    rw [if_pos hdue]
    rcases h.rehash_spec fresh with ⟨hcap, herror⟩ | ⟨hfresh, hnone⟩ |
      ⟨array, base, hfresh, hsome, hinv, harray, hlive, hquarter, hclean, hsame⟩
    · rw [herror]
      exact .fatal hdue' hcap
    · rw [hnone]
      exact .oom hdue' hfresh
    · rw [hsome]
      exact Inserts.of_room hs hinv hquarter
        (.rehashed array base hdue' hfresh harray hlive hclean hsame)
  · rw [if_neg hdue]
    exact Inserts.of_room hs h (by omega) (.old (by simpa [Inner.due] using hdue))

/-- The invariant leaves a slot that was never used in any array. -/
lemma Inner.Inv.find_spec (h : inner.Inv) (ha : IsLive tomb addr = true) :
    ∃ found, inner.find (hash addr) addr = .ok found ∧
      (∀ j, found = some j → j < inner.cap ∧ inner.keys j = addr) ∧
      (found = none → ∀ x < inner.cap, inner.keys x ≠ addr) := by
  rcases h with ⟨-, h0, -, -⟩ | ⟨-, hsound, -, hused⟩
  · refine ⟨none, by rw [Inner.find, if_pos h0], fun j hj => by simp at hj, fun _ x hx => ?_⟩
    omega
  · have := hsound.cap_pos
    exact hsound.find_spec (by omega) ha

end SeferAlloc.ExactObject
