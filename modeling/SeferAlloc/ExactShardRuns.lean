import SeferAlloc.ExactShard
import SeferAlloc.Interleaving

/-!
# Runs of the exact-object shard

A shard is a map from addresses to descriptors: along every sequence of calls,
whatever the system allocator refuses, and under every interleaving of callers
that wait for the lock of the shard and look at its hint without it.
-/
namespace SeferAlloc.ExactObject
open TombstoneProbing

/-! ## The map of a shard -/

/-- A call on a shard. -/
inductive Request where
  | insert (addr : ℕ) (d : Descriptor)
  | peek (addr : ℕ)
  | take (addr : ℕ)

def Request.addr : Request → ℕ
  | .insert addr _ | .peek addr | .take addr => addr

/-- What a call answers. -/
inductive Answer where
  | outcome (o : InsertOutcome)
  | descriptor (d : Option Descriptor)

/-- What the calls mean on a map of descriptors. -/
inductive Means : (ℕ → Option Descriptor) → Request → Answer → (ℕ → Option Descriptor) → Prop
  | inserted {m addr d} (h : m addr = none) :
      Means m (.insert addr d) (.outcome .inserted) (Function.update m addr (some d))
  | duplicate {m addr d} (h : m addr ≠ none) : Means m (.insert addr d) (.outcome .duplicate) m
  | oom {m addr d} : Means m (.insert addr d) (.outcome .oom) m
  | peek {m addr} : Means m (.peek addr) (.descriptor (m addr)) m
  | take {m addr} : Means m (.take addr) (.descriptor (m addr)) (Function.update m addr none)

/-- The shard; `arrays` numbers the arrays that the system allocator has answered. -/
structure Shard where
  lock : Bool
  liveHint : ℕ
  inner : Inner
  arrays : ℕ
  freed : List ℕ

def Shard.new : Shard := ⟨false, 0, ⟨none, fun _ => ⟨0, 0, 0, 0⟩, 0, 0, 0⟩, 0, []⟩

/-- The part of a call under the lock; `grant` says whether the system allocator has memory. -/
def Shard.locked (sh : Shard) (grant : Bool) :
    Request → Except Stuck (Answer × Option (ℕ × ℕ) × Shard)
  | .insert addr d => do
      let (out, inner, retired) ← sh.inner.insert (if grant then some sh.arrays else none)
        (hash addr) ⟨addr, d.size, d.align, d.generation⟩
      let arrays := if sh.inner.due && grant then sh.arrays + 1 else sh.arrays
      .ok (.outcome out, retired, { sh with inner := inner, arrays := arrays })
  | .peek addr => do
      let found ← sh.inner.peek addr
      .ok (.descriptor found, none, sh)
  | .take addr => do
      let (found, inner) ← sh.inner.take addr
      .ok (.descriptor found, none, { sh with inner := inner })

/-- A lookup stops at a hint of zero. -/
def Shard.hides (sh : Shard) : Request → Bool
  | .insert _ _ => false
  | .peek _ | .take _ => decide (sh.liveHint = 0)

/-- Only the calls that may change the number of descriptors store the hint. -/
def Request.stores : Request → Bool
  | .insert _ _ | .take _ => true
  | .peek _ => false

/-- The store of the hint. -/
def Shard.storeHint (sh : Shard) (r : Request) : Shard :=
  if r.stores then { sh with liveHint := sh.inner.live } else sh

/-- The old array of a rehash is freed after the lock is released. -/
def Shard.retire (sh : Shard) (retired : Option (ℕ × ℕ)) : Shard :=
  { sh with freed := sh.freed ++ (retired.map Prod.fst).toList }

/-- A whole call while nobody else has the lock. -/
def Shard.call (sh : Shard) (grant : Bool) (r : Request) : Except Stuck (Answer × Shard) :=
  if sh.hides r then .ok (.descriptor none, sh)
  else do
    let (answer, retired, sh) ← sh.locked grant r
    .ok (answer, (sh.storeHint r).retire retired)

/-- A sequence of calls, each with the memory that it would get. -/
def Shard.calls : List (Request × Bool) → Shard → Except Stuck (List Answer × Shard)
  | [], sh => .ok ([], sh)
  | (r, grant) :: rest, sh => do
      let (answer, sh) ← sh.call grant r
      let (answers, sh) ← Shard.calls rest sh
      .ok (answer :: answers, sh)

/-- The addresses of objects: neither of the two marks of a slot. -/
def Request.Admissible (r : Request) : Prop := IsLive tomb r.addr = true

/-- The map is the one that the slots hold. -/
structure Models (inner : Inner) (m : ℕ → Option Descriptor) : Prop where
  live : ∀ addr d, IsLive tomb addr = true → (m addr = some d ↔ inner.Holds addr d)
  marks : ∀ addr, ¬ IsLive tomb addr = true → m addr = none

/-- Every array is the current one or was freed once. -/
def ArraysExact (sh : Shard) : Prop :=
  (sh.inner.array.toList ++ sh.freed).Perm (List.range sh.arrays)

variable {sh : Shard} {inner : Inner} {m : ℕ → Option Descriptor}

/-- The number of descriptors that a call has added, and that it has taken. -/
def Answer.adds : Answer → ℕ
  | .outcome .inserted => 1
  | _ => 0

def Answer.takes : Answer → Request → ℕ
  | .descriptor (some _), .take _ => 1
  | _, _ => 0

/-- A call is an insertion that first has to move the descriptors. -/
def Shard.rehashes (sh : Shard) : Request → Bool
  | .insert _ _ => sh.inner.due
  | _ => false

/-- What a finished call has done. -/
structure Done (sh : Shard) (m : ℕ → Option Descriptor) (grant : Bool) (r : Request)
    (answer : Answer) (retired : Option (ℕ × ℕ)) (sh' : Shard) (m' : ℕ → Option Descriptor) :
    Prop where
  inv : sh'.inner.Inv
  models : Models sh'.inner m'
  means : Means m r answer m'
  frame : sh'.lock = sh.lock ∧ sh'.liveHint = sh.liveHint ∧ sh'.freed = sh.freed
  live : sh'.inner.live + answer.takes r = sh.inner.live + answer.adds
  arrays : ArraysExact sh → ArraysExact (sh'.retire retired)
  oom : answer = .outcome .oom ↔ sh.rehashes r = true ∧ grant = false
  unchanged : sh.rehashes r = false ∨ grant = false →
    answer = .outcome .oom ∨ answer = .outcome .duplicate → sh' = sh ∧ retired = none
  clean : sh.rehashes r = true → grant = true → Clean sh'.inner ∧ retired.map Prod.fst = sh.inner.array

lemma Models.same {inner' : Inner} (h : Models inner m) (hs : SameDescriptors inner inner') :
    Models inner' m where
  live addr d ha := (h.live addr d ha).trans (hs addr d ha).symm
  marks := h.marks

/-- The map knows an address just when some slot has it. -/
lemma Models.isSome_iff (h : Models inner m) {addr : ℕ} (ha : IsLive tomb addr = true) :
    m addr ≠ none ↔ ∃ x < inner.cap, inner.keys x = addr := by
  constructor
  · intro hne
    obtain ⟨d, hd⟩ := Option.ne_none_iff_exists'.mp hne
    obtain ⟨x, hx, hslot⟩ := (h.live addr d ha).mp hd
    exact ⟨x, hx, by rw [Inner.keys, hslot]⟩
  · rintro ⟨x, hx, hkey⟩ hnone
    have hd := (h.live addr (inner.slots x).descriptor ha).mpr ⟨x, hx, by
      rw [← show (inner.slots x).addr = addr from hkey]
      rfl⟩
    rw [hnone] at hd
    cases hd

lemma Models.none_iff (h : Models inner m) {addr : ℕ} (ha : IsLive tomb addr = true) :
    m addr = none ↔ ∀ x < inner.cap, inner.keys x ≠ addr := by
  rw [← not_iff_not, ← ne_eq, h.isSome_iff ha]
  simp

/-- The descriptor that a search finds is the one of the map. -/
lemma Models.found (h : Models inner m) {addr : ℕ} (ha : IsLive tomb addr = true)
    {found : Option ℕ} (hsome : ∀ j, found = some j → j < inner.cap ∧ inner.keys j = addr)
    (hnone : found = none → ∀ x < inner.cap, inner.keys x ≠ addr) :
    found.map (fun i => (inner.slots i).descriptor) = m addr := by
  cases found with
  | none => exact ((h.none_iff ha).mpr (hnone rfl)).symm
  | some j =>
    obtain ⟨hj, hkey⟩ := hsome j rfl
    refine ((h.live addr (inner.slots j).descriptor ha).mpr ⟨j, hj, ?_⟩).symm
    rw [← show (inner.slots j).addr = addr from hkey]
    rfl

/-- A descriptor put at a free slot is a new entry of the map. -/
lemma Models.added (h : Models inner m) {s : Slot} {i : ℕ} (hs : IsLive tomb s.addr = true)
    (hi : i < inner.cap) (hfree : inner.keys i = 0 ∨ inner.keys i = tomb)
    (hfresh : ∀ x < inner.cap, inner.keys x ≠ s.addr) :
    Models (inner.added i s) (Function.update m s.addr (some s.descriptor)) where
  live addr d ha := by
    have hput := holds_put hi hfree hfresh addr d ha
    change _ ↔ (inner.put i s).Holds addr d
    rw [hput]
    by_cases heq : addr = s.addr
    · rw [heq, Function.update_self, if_pos rfl, Option.some_inj, eq_comm]
    · rw [Function.update_of_ne heq, if_neg heq]
      exact h.live addr d ha
  marks addr ha := by
    rw [Function.update_of_ne (by rintro rfl; exact ha hs)]
    exact h.marks addr ha

/-- A tombstone takes the address out of the map. -/
lemma Models.buried (h : Models inner m) (hinv : inner.Sound) {addr i : ℕ} (hi : i < inner.cap)
    (hkey : inner.keys i = addr) (ha : IsLive tomb addr = true) :
    Models (inner.write i ⟨tomb, 0, 0, 0⟩) (Function.update m addr none) where
  live addr' d ha' := by
    have hslot : ∀ x, (inner.write i ⟨tomb, 0, 0, 0⟩).slots x =
        if x = i then ⟨tomb, 0, 0, 0⟩ else inner.slots x := fun x => by
      simp [Inner.write, Function.update_apply]
    by_cases heq : addr' = addr
    · rw [heq, Function.update_self]
      simp only [reduceCtorEq, false_iff]
      rintro ⟨x, hx, hslotx⟩
      rw [hslot] at hslotx
      split at hslotx
      · exact (isLive_iff.mp ha).2 (congrArg Slot.addr hslotx).symm
      · rename_i hxi
        have hkeyx : inner.keys x = addr := by rw [Inner.keys, hslotx]
        exact hxi (hinv.wf.inj x hx i hi (hkeyx ▸ ha) (hkeyx.trans hkey.symm))
    · rw [Function.update_of_ne heq, h.live addr' d ha']
      constructor
      · rintro ⟨x, hx, hslotx⟩
        refine ⟨x, hx, ?_⟩
        rw [hslot, if_neg, hslotx]
        rintro rfl
        rw [Inner.keys, hslotx] at hkey
        exact heq hkey
      · rintro ⟨x, hx, hslotx⟩
        rw [hslot] at hslotx
        split at hslotx
        · exact absurd (congrArg Slot.addr hslotx).symm (isLive_iff.mp ha').2
        · exact ⟨x, hx, hslotx⟩
  marks addr' ha' := by
    rw [Function.update_of_ne (by rintro rfl; exact ha' ha)]
    exact h.marks addr' ha'

/-- A rehash takes the next array and gives the old one to be freed. -/
lemma ArraysExact.rehashed (h : ArraysExact sh) {inner' : Inner} (harray : inner'.array = some sh.arrays) :
    ArraysExact (({ sh with inner := inner', arrays := sh.arrays + 1 } : Shard).retire
      (sh.inner.array.map fun old => (old, sh.inner.cap))) := by
  unfold ArraysExact at h ⊢
  have hfreed : (({ sh with inner := inner', arrays := sh.arrays + 1 } : Shard).retire
      (sh.inner.array.map fun old => (old, sh.inner.cap))).freed =
        sh.freed ++ sh.inner.array.toList := by
    cases harr : sh.inner.array <;> simp [Shard.retire, harr]
  rw [hfreed]
  change (inner'.array.toList ++ (sh.freed ++ sh.inner.array.toList)).Perm
    (List.range (sh.arrays + 1))
  rw [harray, List.range_succ]
  calc [sh.arrays] ++ (sh.freed ++ sh.inner.array.toList)
      |>.Perm ([sh.arrays] ++ (sh.inner.array.toList ++ sh.freed)) :=
        List.Perm.append_left _ List.perm_append_comm
    _ |>.Perm ([sh.arrays] ++ List.range sh.arrays) := List.Perm.append_left _ h
    _ |>.Perm (List.range sh.arrays ++ [sh.arrays]) := List.perm_append_comm

lemma ArraysExact.kept (h : ArraysExact sh) {inner' : Inner} (harray : inner'.array = sh.inner.array) :
    ArraysExact (({ sh with inner := inner' } : Shard).retire none) := by
  unfold ArraysExact at h ⊢
  change (inner'.array.toList ++ (sh.freed ++ [])).Perm (List.range sh.arrays)
  rw [harray, List.append_nil]
  exact h

lemma grant_of {grant : Bool} {n array : ℕ} (h : (if grant then some n else none) = some array) :
    grant = true ∧ n = array := by
  cases grant
  · simp at h
  · exact ⟨rfl, by simpa using h⟩

lemma Clean.added {s : Slot} {i : ℕ} (h : Clean inner) (hs : IsLive tomb s.addr = true) :
    Clean (inner.added i s) := by
  intro x hx
  by_cases hxi : x = i
  · subst hxi
    simpa [Inner.keys, Inner.added, Inner.put] using (isLive_iff.mp hs).2
  · simpa [Inner.keys, Inner.added, Inner.put, hxi] using h x hx

/-- An insertion answers by the map, or is refused memory that it needs; only an array of more
than 2^57 slots stops the process. -/
lemma Shard.locked_insert (h : sh.inner.Inv) (hm : Models sh.inner m) (grant : Bool) {addr : ℕ}
    (d : Descriptor) (ha : IsLive tomb addr = true) :
    (sh.inner.newCap = 2 ^ 58 ∧ ∃ text, sh.locked grant (.insert addr d) = .error (.fatal text)) ∨
    ∃ answer retired sh' m', sh.locked grant (.insert addr d) = .ok (answer, retired, sh') ∧
      Done sh m grant (.insert addr d) answer retired sh' m' := by
  have hspec := h.insert_spec (if grant then some sh.arrays else none)
    (s := ⟨addr, d.size, d.align, d.generation⟩) ha
  have hlocked : sh.locked grant (.insert addr d) =
      (sh.inner.insert (if grant then some sh.arrays else none) (hash addr)
        ⟨addr, d.size, d.align, d.generation⟩ >>= fun x =>
          .ok (.outcome x.1, x.2.2, { sh with
            inner := x.2.1
            arrays := if sh.inner.due && grant then sh.arrays + 1 else sh.arrays })) := rfl
  rw [hlocked]
  generalize sh.inner.insert (if grant then some sh.arrays else none) (hash addr)
    ⟨addr, d.size, d.align, d.generation⟩ = result at hspec
  cases hspec with
  | fatal hdue hcap => exact .inl ⟨hcap, _, rfl⟩
  | oom hdue hfresh =>
    right
    have hgrant : grant = false := by
      cases grant
      · rfl
      · simp at hfresh
    subst hgrant
    refine ⟨_, _, { sh with arrays := _ }, m, rfl, ?_⟩
    rw [Bool.and_false, if_neg Bool.false_ne_true]
    exact {
      inv := h
      models := hm
      means := .oom
      frame := ⟨rfl, rfl, rfl⟩
      live := rfl
      arrays := fun he => he.kept rfl
      oom := by simp [Shard.rehashes, hdue]
      unchanged := fun _ _ => ⟨rfl, rfl⟩
      clean := fun _ hg => by simp at hg }
  | duplicate base retired hroom hinv hlive =>
    right
    cases hroom with
    | old hdue =>
      refine ⟨_, _, { sh with arrays := _ }, m, rfl, ?_⟩
      rw [hdue, Bool.false_and, if_neg Bool.false_ne_true]
      exact {
        inv := h
        models := hm
        means := .duplicate ((hm.isSome_iff ha).mpr hlive)
        frame := ⟨rfl, rfl, rfl⟩
        live := rfl
        arrays := fun he => he.kept rfl
        oom := by simp [Shard.rehashes, hdue]
        unchanged := fun _ _ => ⟨rfl, rfl⟩
        clean := fun hr => by simp [Shard.rehashes, hdue] at hr }
    | rehashed array base hdue hfresh harray hlive' hclean hsame =>
      obtain ⟨rfl, rfl⟩ := grant_of hfresh
      refine ⟨_, _, { sh with inner := base, arrays := _ }, m, rfl, ?_⟩
      rw [hdue, Bool.true_and, if_pos rfl]
      exact {
        inv := hinv
        models := hm.same hsame
        means := .duplicate (((hm.same hsame).isSome_iff ha).mpr hlive)
        frame := ⟨rfl, rfl, rfl⟩
        live := hlive'
        arrays := fun he => he.rehashed harray
        oom := by simp
        unchanged := fun hr => by simp [Shard.rehashes, hdue] at hr
        clean := fun _ _ => ⟨hclean, by simp [Function.comp_def]⟩ }
  | inserted base retired hroom i hi hfree hfresh hinv =>
    right
    cases hroom with
    | old hdue =>
      refine ⟨_, _, { sh with inner := sh.inner.added i _, arrays := _ },
        Function.update m addr (some d), rfl, ?_⟩
      rw [hdue, Bool.false_and, if_neg Bool.false_ne_true]
      exact {
        inv := hinv
        models := hm.added ha hi hfree hfresh
        means := .inserted ((hm.none_iff ha).mpr hfresh)
        frame := ⟨rfl, rfl, rfl⟩
        live := rfl
        arrays := fun he => he.kept rfl
        oom := by simp [Shard.rehashes, hdue]
        unchanged := fun _ hans => by simp at hans
        clean := fun hr => by simp [Shard.rehashes, hdue] at hr }
    | rehashed array base hdue hfresh' harray hlive' hclean hsame =>
      obtain ⟨rfl, rfl⟩ := grant_of hfresh'
      refine ⟨_, _, { sh with inner := base.added i _, arrays := _ },
        Function.update m addr (some d), rfl, ?_⟩
      rw [hdue, Bool.true_and, if_pos rfl]
      exact {
        inv := hinv
        models := (hm.same hsame).added ha hi hfree hfresh
        means := .inserted (((hm.same hsame).none_iff ha).mpr hfresh)
        frame := ⟨rfl, rfl, rfl⟩
        live := congrArg (· + 1) hlive'
        arrays := fun he => he.rehashed harray
        oom := by simp
        unchanged := fun hr => by simp [Shard.rehashes, hdue] at hr
        clean := fun _ _ => ⟨hclean.added ha, by simp [Function.comp_def]⟩ }

/-- A lookup under the lock answers by the map. -/
lemma Shard.locked_peek (h : sh.inner.Inv) (hm : Models sh.inner m) (grant : Bool) {addr : ℕ}
    (ha : IsLive tomb addr = true) :
    sh.locked grant (.peek addr) = .ok (.descriptor (m addr), none, sh) := by
  obtain ⟨found, hfind, hsome, hnone⟩ := h.find_spec ha
  have hfound := hm.found ha hsome hnone
  rw [← hfound]
  change (sh.inner.find (hash addr) addr >>= _) >>= _ = _
  rw [hfind]
  rfl

/-- A removal answers by the map and leaves a tombstone. -/
lemma Shard.locked_take (h : sh.inner.Inv) (hm : Models sh.inner m) (grant : Bool) {addr : ℕ}
    (ha : IsLive tomb addr = true) :
    ∃ sh', sh.locked grant (.take addr) = .ok (.descriptor (m addr), none, sh') ∧
      Done sh m grant (.take addr) (.descriptor (m addr)) none sh' (Function.update m addr none) := by
  obtain ⟨found, hfind, hsome, hnone⟩ := h.find_spec ha
  have hfound := hm.found ha hsome hnone
  cases found with
  | none =>
    have hm0 : m addr = none := hfound.symm
    have hlocked : sh.locked grant (.take addr) = .ok (.descriptor none, none, sh) := by
      change (sh.inner.find (hash addr) addr >>= _) >>= _ = _
      rw [hfind]
      rfl
    refine ⟨sh, by rw [hlocked, hm0], ?_⟩
    exact {
      inv := h
      models := by
        rw [Function.update_eq_self_iff.mpr hm0.symm]
        exact hm
      means := .take
      frame := ⟨rfl, rfl, rfl⟩
      live := by
        rw [hm0]
        rfl
      arrays := fun he => he.kept rfl
      oom := by simp [Shard.rehashes]
      unchanged := fun _ _ => ⟨rfl, rfl⟩
      clean := fun hr => by simp [Shard.rehashes] at hr }
  | some i =>
    obtain ⟨hi, hkey⟩ := hsome i rfl
    have hmi : m addr = some (sh.inner.slots i).descriptor := hfound.symm
    rcases h with ⟨-, h0, -, -⟩ | ⟨harray, hsound, hlive, hused⟩
    · omega
    have hislive : (sh.inner.slots i).isLive = true := by
      rw [Slot.isLive, show (sh.inner.slots i).addr = addr from hkey]
      exact ha
    obtain ⟨hsound', hcount⟩ := hsound.bury hi hislive
    let inner' : Inner := { sh.inner.write i ⟨tomb, 0, 0, 0⟩ with live := sh.inner.live - 1 }
    have hlocked : sh.locked grant (.take addr) =
        .ok (.descriptor (some (sh.inner.slots i).descriptor), none,
          { sh with inner := inner' }) := by
      change (sh.inner.find (hash addr) addr >>= _) >>= _ = _
      rw [hfind]
      rfl
    refine ⟨{ sh with inner := inner' }, by rw [hlocked, hmi], ?_⟩
    have hbury := hm.buried hsound hi hkey ha
    exact {
      inv := by
        refine .inr ⟨harray, ⟨hsound'.pow, hsound'.wf, hsound'.used⟩, ?_, hused⟩
        change sh.inner.live - 1 = (sh.inner.write i ⟨tomb, 0, 0, 0⟩).liveCount
        omega
      models := ⟨fun a d ha' => hbury.live a d ha', hbury.marks⟩
      means := .take
      frame := ⟨rfl, rfl, rfl⟩
      live := by
        rw [hmi]
        change sh.inner.live - 1 + 1 = sh.inner.live
        omega
      arrays := fun he => he.kept rfl
      oom := by simp [Shard.rehashes]
      unchanged := fun _ hans => by simp at hans
      clean := fun hr => by simp [Shard.rehashes] at hr }

/-- A call under the lock answers by the map. -/
theorem Shard.locked_spec (h : sh.inner.Inv) (hm : Models sh.inner m) (grant : Bool) (r : Request)
    (hr : r.Admissible) :
    (sh.inner.newCap = 2 ^ 58 ∧ ∃ text, sh.locked grant r = .error (.fatal text)) ∨
    ∃ answer retired sh' m', sh.locked grant r = .ok (answer, retired, sh') ∧
      Done sh m grant r answer retired sh' m' := by
  cases r with
  | insert addr d => exact Shard.locked_insert h hm grant d hr
  | peek addr =>
    right
    refine ⟨_, _, _, m, Shard.locked_peek h hm grant hr, ?_⟩
    exact {
      inv := h
      models := hm
      means := .peek
      frame := ⟨rfl, rfl, rfl⟩
      live := by cases m addr <;> rfl
      arrays := fun he => he.kept rfl
      oom := by simp [Shard.rehashes]
      unchanged := fun _ _ => ⟨rfl, rfl⟩
      clean := fun hr => by simp [Shard.rehashes] at hr }
  | take addr =>
    right
    obtain ⟨sh', hlocked, hdone⟩ := Shard.locked_take h hm grant hr
    exact ⟨_, _, sh', _, hlocked, hdone⟩

/-! ## Sequences of calls -/

/-- What a shard keeps between the calls. -/
structure Kept (sh : Shard) (m : ℕ → Option Descriptor) : Prop where
  inv : sh.inner.Inv
  models : Models sh.inner m
  hint : sh.liveHint = sh.inner.live
  arrays : ArraysExact sh

/-- The addresses of the map are as many as the live slots. -/
lemma Models.card (h : Models inner m) (hinv : inner.Inv) :
    ∃ addrs : Finset ℕ, (∀ a, a ∈ addrs ↔ m a ≠ none) ∧ addrs.card = inner.live := by
  let cells := (Finset.range inner.cap).filter fun x => (inner.slots x).isLive = true
  refine ⟨cells.image inner.keys, fun a => ?_, ?_⟩
  · rw [Finset.mem_image]
    constructor
    · rintro ⟨x, hx, rfl⟩
      obtain ⟨hx, hlive⟩ := Finset.mem_filter.mp hx
      exact (h.isSome_iff hlive).mpr ⟨x, Finset.mem_range.mp hx, rfl⟩
    · intro hne
      have ha : IsLive tomb a = true := by
        by_contra hnot
        exact hne (h.marks a hnot)
      obtain ⟨x, hx, rfl⟩ := (h.isSome_iff ha).mp hne
      exact ⟨x, Finset.mem_filter.mpr ⟨Finset.mem_range.mpr hx, ha⟩, rfl⟩
  · rcases hinv with ⟨-, h0, -, hlive⟩ | ⟨-, hsound, hlive, -⟩
    · rw [hlive]
      simp [cells, h0]
    · rw [hlive]
      apply Finset.card_image_of_injOn
      intro x hx y hy hxy
      obtain ⟨hx, hlx⟩ := Finset.mem_filter.mp hx
      obtain ⟨hy, -⟩ := Finset.mem_filter.mp hy
      exact hsound.wf.inj x (Finset.mem_range.mp hx) y (Finset.mem_range.mp hy) hlx hxy

/-- Without live slots the map is empty. -/
lemma Models.empty_of_live (h : Models inner m) (hinv : inner.Inv) (h0 : inner.live = 0) (a : ℕ) :
    m a = none := by
  obtain ⟨addrs, hmem, hcard⟩ := h.card hinv
  rw [h0, Finset.card_eq_zero] at hcard
  by_contra hne
  have := (hmem a).mpr hne
  simp [hcard] at this

lemma Shard.kept_new : Kept Shard.new (fun _ => none) where
  inv := .inl ⟨rfl, rfl, rfl, rfl⟩
  models := ⟨fun addr d _ => by simp [Shard.new, Inner.Holds], fun _ _ => rfl⟩
  hint := rfl
  arrays := List.Perm.refl _

/-- What a call does to a shard that keeps a map. -/
structure Called (sh : Shard) (m : ℕ → Option Descriptor) (grant : Bool) (r : Request)
    (answer : Answer) (sh' : Shard) (m' : ℕ → Option Descriptor) : Prop where
  kept : Kept sh' m'
  means : Means m r answer m'
  oom : answer = .outcome .oom ↔ sh.rehashes r = true ∧ grant = false
  unchanged : sh.rehashes r = false ∨ grant = false →
    answer = .outcome .oom ∨ answer = .outcome .duplicate → sh' = sh
  clean : sh.rehashes r = true → grant = true →
    Clean sh'.inner ∧ sh'.freed = sh.freed ++ sh.inner.array.toList

/-- The step: a call answers by the map. -/
theorem Kept.call (h : Kept sh m) (grant : Bool) (r : Request) (hr : r.Admissible) :
    (sh.inner.newCap = 2 ^ 58 ∧ ∃ text, sh.call grant r = .error (.fatal text)) ∨
    ∃ answer sh' m', sh.call grant r = .ok (answer, sh') ∧ Called sh m grant r answer sh' m' := by
  unfold Shard.call
  by_cases hhides : sh.hides r = true
  · right
    rw [if_pos hhides]
    have hlive : sh.inner.live = 0 := by
      rw [← h.hint]
      cases r with
      | insert addr d => simp [Shard.hides] at hhides
      | peek addr | take addr => simpa [Shard.hides] using hhides
    have hempty := h.models.empty_of_live h.inv hlive
    refine ⟨_, sh, m, rfl, h, ?_, ?_, fun _ _ => rfl, ?_⟩
    · cases r with
      | insert addr d => simp [Shard.hides] at hhides
      | peek addr =>
        rw [← hempty addr]
        exact .peek
      | take addr =>
        have hsame : m = Function.update m addr none := (Function.update_eq_self_iff.mpr
          (hempty addr).symm).symm
        have htake : Means m (.take addr) (.descriptor (m addr)) (Function.update m addr none) := .take
        rwa [hempty addr, ← hsame] at htake
    · cases r with
      | insert addr d => simp [Shard.hides] at hhides
      | peek addr | take addr => simp [Shard.rehashes]
    · cases r with
      | insert addr d => simp [Shard.hides] at hhides
      | peek addr | take addr => simp [Shard.rehashes]
  · rw [if_neg hhides]
    rcases Shard.locked_spec h.inv h.models grant r hr with ⟨hcap, text, herror⟩ |
      ⟨answer, retired, sh', m', hlocked, hdone⟩
    · left
      exact ⟨hcap, text, by rw [herror]; rfl⟩
    · right
      have hmodels := hdone.models
      obtain ⟨hlock, hhint, hfreed⟩ := hdone.frame
      have hinner : ((sh'.storeHint r).retire retired).inner = sh'.inner := by
        unfold Shard.storeHint Shard.retire
        split <;> rfl
      have hstored : ((sh'.storeHint r).retire retired).liveHint = sh'.inner.live := by
        unfold Shard.storeHint Shard.retire
        cases r with
        | insert addr d | take addr => rfl
        | peek addr =>
          have hlive := hdone.live
          have hmeans := hdone.means
          cases hmeans
          change sh'.inner.live + Answer.takes _ (.peek addr) = sh.inner.live + 0 at hlive
          change sh'.liveHint = sh'.inner.live
          rw [hhint, h.hint]
          cases hm : m addr <;> simp [hm, Answer.takes] at hlive <;> omega
      refine ⟨answer, _, m', by rw [hlocked]; rfl, ⟨?_, ?_, hstored.trans ?_, ?_⟩, hdone.means,
        hdone.oom, fun hr hans => ?_, fun hr hg => ?_⟩
      · rw [hinner]
        exact hdone.inv
      · rw [hinner]
        exact hmodels
      · rw [hinner]
      · have harrays := hdone.arrays h.arrays
        unfold ArraysExact at harrays ⊢
        unfold Shard.storeHint
        split <;> exact harrays
      · obtain ⟨rfl, rfl⟩ := hdone.unchanged hr hans
        unfold Shard.storeHint Shard.retire
        rw [← h.hint]
        split <;> simp
      · obtain ⟨hclean, hretired⟩ := hdone.clean hr hg
        constructor
        · rw [hinner]
          exact hclean
        · unfold Shard.storeHint Shard.retire
          rw [hretired, ← hfreed]
          split <;> rfl

/-- What a sequence of calls means on the map. -/
inductive MeansAll : (ℕ → Option Descriptor) → List Request → List Answer →
    (ℕ → Option Descriptor) → Prop
  | nil (m₀ : ℕ → Option Descriptor) : MeansAll m₀ [] [] m₀
  | cons {m₀ m₁ m₂ : ℕ → Option Descriptor} {r : Request} {answer : Answer} {rs : List Request}
      {answers : List Answer} (h : Means m₀ r answer m₁) (hrest : MeansAll m₁ rs answers m₂) :
      MeansAll m₀ (r :: rs) (answer :: answers) m₂

/-- The run: a sequence of calls ends with a map that its answers tell, or at a layout that stops
the process. -/
theorem Kept.calls (h : Kept sh m) (calls : List (Request × Bool))
    (hcalls : ∀ c ∈ calls, c.1.Admissible) :
    (∃ before c after answers sh', calls = before ++ c :: after ∧
      Shard.calls before sh = .ok (answers, sh') ∧ sh'.inner.newCap = 2 ^ 58 ∧
      ∃ text, Shard.calls calls sh = .error (.fatal text)) ∨
    ∃ answers sh' m', Shard.calls calls sh = .ok (answers, sh') ∧
      MeansAll m (calls.map Prod.fst) answers m' ∧ Kept sh' m' := by
  induction calls generalizing sh m with
  | nil => exact .inr ⟨[], sh, m, rfl, .nil m, h⟩
  | cons c rest ih =>
    obtain ⟨hc, hrest⟩ := List.forall_mem_cons.mp hcalls
    rcases h.call c.2 c.1 hc with ⟨hcap, text, herror⟩ | ⟨answer, sh₁, m₁, hcall, hdone⟩
    · left
      refine ⟨[], c, rest, [], sh, rfl, rfl, hcap, text, ?_⟩
      rw [Shard.calls, herror]
      rfl
    · rcases ih hdone.kept hrest with ⟨before, c', after, answers, sh', rfl, hbefore, hcap, text,
        herror⟩ | ⟨answers, sh', m', hok, hmeans, hkept⟩
      · left
        refine ⟨c :: before, c', after, answer :: answers, sh', rfl, ?_, hcap, text, ?_⟩
        · rw [Shard.calls, hcall]
          change (Shard.calls before sh₁ >>= _) = _
          rw [hbefore]
          rfl
        · rw [Shard.calls, hcall]
          change (Shard.calls (before ++ c' :: after) sh₁ >>= _) = _
          rw [herror]
          rfl
      · right
        refine ⟨answer :: answers, sh', m', ?_, .cons hdone.means hmeans, hkept⟩
        rw [Shard.calls, hcall]
        change (Shard.calls rest sh₁ >>= _) = _
        rw [hok]
        rfl

/-- `ExactTable`: 64 shards, picked by the low bits of the hash. -/
def tableCall (shards : ℕ → Shard) (grant : Bool) (r : Request) :
    Except Stuck (Answer × (ℕ → Shard)) := do
  let k := hash r.addr &&& (64 - 1)
  let (answer, sh) ← (shards k).call grant r
  .ok (answer, Function.update shards k sh)

def tableCalls : List (Request × Bool) → (ℕ → Shard) → Except Stuck (List Answer × (ℕ → Shard))
  | [], shards => .ok ([], shards)
  | (r, grant) :: rest, shards => do
      let (answer, shards) ← tableCall shards grant r
      let (answers, shards) ← tableCalls rest shards
      .ok (answer :: answers, shards)

/-- Each shard of the table sees the calls on its own addresses. -/
theorem tableCalls_shard (calls : List (Request × Bool)) (shards shards' : ℕ → Shard)
    (answers : List Answer) (h : tableCalls calls shards = .ok (answers, shards')) (k : ℕ) :
    ∃ answers', Shard.calls (calls.filter fun c => hash c.1.addr &&& (64 - 1) = k) (shards k) =
      .ok (answers', shards' k) := by
  induction calls generalizing shards answers with
  | nil =>
    obtain ⟨-, rfl⟩ : answers = [] ∧ shards' = shards := by simpa [tableCalls, eq_comm] using h
    exact ⟨[], rfl⟩
  | cons c rest ih =>
    rw [tableCalls, tableCall] at h
    cases hcall : (shards (hash c.1.addr &&& (64 - 1))).call c.2 c.1 with
    | error e =>
      rw [hcall] at h
      cases h
    | ok result =>
      rw [hcall] at h
      change (tableCalls rest (Function.update shards (hash c.1.addr &&& (64 - 1)) result.2) >>= _) =
        _ at h
      cases hrest : tableCalls rest
          (Function.update shards (hash c.1.addr &&& (64 - 1)) result.2) with
      | error e =>
        rw [hrest] at h
        cases h
      | ok result' =>
        rw [hrest] at h
        change Except.ok (result.1 :: result'.1, result'.2) = _ at h
        obtain ⟨-, rfl⟩ : result.1 :: result'.1 = answers ∧ result'.2 = shards' := by simpa using h
        obtain ⟨answers', hk⟩ := ih _ _ hrest
        by_cases hroute : hash c.1.addr &&& (64 - 1) = k
        · rw [hroute, Function.update_self] at hk
          refine ⟨result.1 :: answers', ?_⟩
          rw [List.filter_cons_of_pos (by simpa using hroute), Shard.calls, ← hroute, hcall]
          change (Shard.calls _ result.2 >>= _) = _
          rw [hroute, hk]
          rfl
        · rw [Function.update_of_ne (Ne.symm hroute)] at hk
          rw [List.filter_cons_of_neg (by simpa using hroute)]
          exact ⟨answers', hk⟩

end SeferAlloc.ExactObject
