import SeferAlloc.CellCount
import SeferAlloc.LockFreeRegion
import Mathlib.Algebra.Order.BigOperators.Group.Finset

/-!
# Runs of the lock-free region

The region seen as a map of slots, what each call does to the map, and what is
kept along every sequence of calls: the free list, the count and the handles.
-/
namespace SeferAlloc
namespace LockFree
open PageTable IntrusiveList

variable {T : Type*}

/-! ## The map of slots -/

/-- A snapshot as a map of slots, with the handles that were inserted and removed. -/
structure SlotMap (T : Type*) where
  regionId : ℕ
  total : ℕ
  slots : ℕ → Option (Slot T)
  freeHead : Option ℕ
  len : ℕ
  inserted : List (Handle × T)
  removed : List Handle

/-- The link of a slot. -/
def link (slots : ℕ → Option (Slot T)) (i : ℕ) : Option ℕ :=
  match slots i with
  | some ⟨_, .vacant nextFree⟩ => nextFree
  | _ => none

def Vacant (slots : ℕ → Option (Slot T)) (i : ℕ) : Prop :=
  ∃ g n, slots i = some ⟨g, .vacant n⟩

/-- Whether the slot has a value. -/
def occupied (slots : ℕ → Option (Slot T)) (i : ℕ) : Bool :=
  match slots i with
  | some ⟨_, .occupied _⟩ => true
  | _ => false

def SlotMap.handles (m : SlotMap T) : List Handle := m.inserted.map Prod.fst

/-- A slot whose last generation was handed out is not used again once it is vacant. -/
def SlotMap.Retired (m : SlotMap T) (i : ℕ) : Prop := ⟨m.regionId, i, maxGeneration⟩ ∈ m.handles

/-- The value of the handle is in its slot. -/
def SlotMap.Stands (m : SlotMap T) (h : Handle) (v : T) : Prop :=
  m.slots h.index = some ⟨h.generation, .occupied v⟩

/-- The slots agree with the handles. -/
structure SlotMap.Handled (m : SlotMap T) : Prop where
  known : ∀ p ∈ m.inserted, p.1.regionId = m.regionId ∧ ∃ s, m.slots p.1.index = some s ∧
    (p.1.generation < s.generation ∨ p.1.generation = s.generation ∧
      (s.state = .occupied p.2 ∨ Vacant m.slots p.1.index ∧ s.generation = maxGeneration))
  values : ∀ i g v, m.slots i = some ⟨g, .occupied v⟩ → (⟨m.regionId, i, g⟩, v) ∈ m.inserted
  distinct : m.handles.Nodup
  removedNodup : m.removed.Nodup
  removed : ∀ h, h ∈ m.removed ↔ h ∈ m.handles ∧ ∀ v, ¬ m.Stands h v

/-- The map of slots is sound. -/
structure SlotMap.Inv (m : SlotMap T) : Prop extends m.Handled where
  range : ∀ i, (m.slots i).isSome = true ↔ i < m.total
  chain : ∃ l, Chain (link m.slots) m.freeHead l ∧
    ∀ i, i ∈ l ↔ Vacant m.slots i ∧ ¬ m.Retired i
  len : m.len = ((Finset.range m.total).filter fun i => occupied m.slots i = true).card
  bounded : ∀ i s, m.slots i = some s → s.generation ≤ maxGeneration

variable {m : SlotMap T} {i g : ℕ} {v : T}

lemma link_update (slots : ℕ → Option (Slot T)) (i g : ℕ) (n : Option ℕ) :
    link (Function.update slots i (some ⟨g, .vacant n⟩)) = Function.update (link slots) i n := by
  funext k
  by_cases hk : k = i
  · subst k
    simp [link]
  · simp [link, hk]

lemma link_update_occupied (slots : ℕ → Option (Slot T)) (i g : ℕ) (v : T) :
    link (Function.update slots i (some ⟨g, .occupied v⟩)) =
      Function.update (link slots) i none := by
  funext k
  by_cases hk : k = i
  · subst k
    simp [link]
  · simp [link, hk]

/-- The generation of a handle is at most the one of its slot. -/
lemma SlotMap.Inv.generation_le (hm : m.Inv) {h : Handle} (hh : h ∈ m.handles) {s : Slot T}
    (hs : m.slots h.index = some s) : h.generation ≤ s.generation := by
  obtain ⟨p, hp, rfl⟩ := List.mem_map.mp hh
  obtain ⟨-, s', hs', hor⟩ := hm.known p hp
  obtain rfl := Option.some.inj (hs'.symm.trans hs)
  obtain hlt | ⟨heq, -⟩ := hor
  · exact hlt.le
  · exact heq.le

/-- A vacant slot that is not retired has a generation that was not handed out. -/
lemma SlotMap.Inv.fresh (hm : m.Inv) {n : Option ℕ} (hs : m.slots i = some ⟨g, .vacant n⟩)
    (hr : ¬ m.Retired i) : (⟨m.regionId, i, g⟩ : Handle) ∉ m.handles := by
  intro hh
  obtain ⟨p, hp, he⟩ := List.mem_map.mp hh
  obtain ⟨-, s, hs', hor⟩ := hm.known p hp
  rw [he] at hs' hor
  obtain rfl := Option.some.inj (hs.symm.trans hs')
  obtain hlt | ⟨-, ho | ⟨-, hmax⟩⟩ := hor
  · exact lt_irrefl _ hlt
  · cases ho
  · rw [show g = maxGeneration from hmax] at hh
    exact hr hh

/-- A handle that stands is the one of the value. -/
lemma SlotMap.Inv.stands_mem (hm : m.Inv) {h : Handle} (hid : h.regionId = m.regionId)
    (hs : m.Stands h v) : (h, v) ∈ m.inserted ∧ h ∉ m.removed := by
  have hmem := hm.values _ _ _ hs
  rw [← hid] at hmem
  exact ⟨hmem, fun hr => ((hm.removed h).mp hr).2 v hs⟩

/-- A handle that was not removed stands with its value. -/
lemma SlotMap.Inv.stands_of_mem (hm : m.Inv) {h : Handle} (hmem : (h, v) ∈ m.inserted)
    (hr : h ∉ m.removed) : m.Stands h v := by
  have hst : ∃ v', m.Stands h v' := by
    by_contra hne
    exact hr ((hm.removed h).mpr ⟨List.mem_map_of_mem hmem, fun v' hs => hne ⟨v', hs⟩⟩)
  obtain ⟨v', hs⟩ := hst
  obtain ⟨-, s, hs', hor⟩ := hm.known _ hmem
  have he : s = ⟨h.generation, .occupied v'⟩ := Option.some.inj (hs'.symm.trans hs)
  subst s
  obtain hlt | ⟨-, ho | ⟨⟨g, n, hv⟩, -⟩⟩ := hor
  · exact absurd hlt (lt_irrefl _)
  · rw [SlotMap.Stands, hs, show v' = v from SlotState.occupied.inj ho]
  · rw [hs] at hv
    cases hv

/-! ## What the calls do to the map -/

/-- An insert into a vacant slot. -/
def SlotMap.fill (m : SlotMap T) (i g : ℕ) (nextFree : Option ℕ) (v : T) : SlotMap T :=
  { m with
    slots := Function.update m.slots i (some ⟨g, .occupied v⟩), freeHead := nextFree,
    len := m.len + 1, inserted := m.inserted ++ [(⟨m.regionId, i, g⟩, v)] }

/-- The slots with one more page, whose first slot has the value. -/
def grown (slots : ℕ → Option (Slot T)) (total : ℕ) (v : T) (k : ℕ) : Option (Slot T) :=
  if k < total then slots k
  else if k = total then some ⟨0, .occupied v⟩
  else if k < total + page then
    some ⟨0, .vacant (if k + 1 = total + page then none else some (k + 1))⟩
  else none

/-- An insert that grows the region. -/
def SlotMap.grow (m : SlotMap T) (v : T) : SlotMap T :=
  { m with
    total := m.total + page, slots := grown m.slots m.total v, freeHead := some (m.total + 1),
    len := m.len + 1, inserted := m.inserted ++ [(⟨m.regionId, m.total, 0⟩, v)] }

/-- A removal, after which the slot is used again or retired. -/
def SlotMap.release (m : SlotMap T) (i g : ℕ) : SlotMap T :=
  if g < maxGeneration then
    { m with
      slots := Function.update m.slots i (some ⟨g + 1, .vacant m.freeHead⟩), freeHead := some i,
      len := m.len - 1, removed := m.removed ++ [⟨m.regionId, i, g⟩] }
  else
    { m with
      slots := Function.update m.slots i (some ⟨g, .vacant none⟩),
      len := m.len - 1, removed := m.removed ++ [⟨m.regionId, i, g⟩] }

/-- The handles after an insert: slot `i` gets a value, at a generation that was not handed out. -/
lemma SlotMap.Handled.insert {m' : SlotMap T} (hm : m.Handled) (hid : m'.regionId = m.regionId)
    (hins : m'.inserted = m.inserted ++ [(⟨m.regionId, i, g⟩, v)]) (hrem : m'.removed = m.removed)
    (hi : m'.slots i = some ⟨g, .occupied v⟩)
    (hkeep : ∀ k s, k ≠ i → m.slots k = some s → m'.slots k = some s)
    (hocc : ∀ k g' v', k ≠ i → m'.slots k = some ⟨g', .occupied v'⟩ →
      m.slots k = some ⟨g', .occupied v'⟩)
    (hwas : ∀ s, m.slots i = some s → s.generation = g)
    (hfresh : (⟨m.regionId, i, g⟩ : Handle) ∉ m.handles) : m'.Handled := by
  have hhandles : m'.handles = m.handles ++ [⟨m.regionId, i, g⟩] := by
    rw [SlotMap.handles, hins, List.map_append]
    rfl
  have hlt : ∀ p ∈ m.inserted, p.1.index = i → p.1.generation < g := by
    intro p hp he
    obtain ⟨hpid, s, hs, hor⟩ := hm.known p hp
    have hsg := hwas s (he ▸ hs)
    refine lt_of_le_of_ne ?_ fun heq => hfresh ?_
    · obtain h | ⟨h, -⟩ := hor
      · exact hsg ▸ h.le
      · exact hsg ▸ h.le
    · rw [← hpid, ← he, ← heq]
      exact List.mem_map_of_mem hp
  have hstands : ∀ h ∈ m.handles, ∀ v', m'.Stands h v' ↔ m.Stands h v' := by
    intro h hh v'
    obtain ⟨p, hp, rfl⟩ := List.mem_map.mp hh
    by_cases he : p.1.index = i
    · have hg := hlt p hp he
      refine iff_of_false (fun hs => ?_) fun hs => ?_
      · rw [SlotMap.Stands, he, hi] at hs
        exact hg.ne (congrArg Slot.generation (Option.some.inj hs)).symm
      · rw [SlotMap.Stands, he] at hs
        exact hg.ne (hwas _ hs)
    · exact ⟨fun hs => hocc _ _ _ he hs, fun hs => hkeep _ _ he hs⟩
  constructor
  · intro p hp
    rw [hins] at hp
    rw [hid]
    obtain hp | hp := List.mem_append.mp hp
    · obtain ⟨hpid, s, hs, hor⟩ := hm.known p hp
      refine ⟨hpid, ?_⟩
      by_cases he : p.1.index = i
      · exact ⟨_, he ▸ hi, .inl (hlt p hp he)⟩
      · refine ⟨s, hkeep _ _ he hs, hor.imp_right fun ⟨hg, ho⟩ => ⟨hg, ho.imp_right ?_⟩⟩
        rintro ⟨⟨g', n, hv⟩, hmax⟩
        exact ⟨⟨g', n, hkeep _ _ he hv⟩, hmax⟩
    · obtain rfl := List.mem_singleton.mp hp
      exact ⟨rfl, _, hi, .inr ⟨rfl, .inl rfl⟩⟩
  · intro k g' v' hk
    rw [hins, hid]
    by_cases he : k = i
    · subst k
      rw [hi] at hk
      cases hk
      exact List.mem_append_right _ (List.mem_singleton_self _)
    · exact List.mem_append_left _ (hm.values _ _ _ (hocc _ _ _ he hk))
  · rw [hhandles]
    refine List.nodup_append.mpr ⟨hm.distinct, List.nodup_singleton _, ?_⟩
    rintro a ha b hb rfl
    exact hfresh (List.mem_singleton.mp hb ▸ ha)
  · exact hrem ▸ hm.removedNodup
  · intro h
    rw [hrem, hm.removed, hhandles, List.mem_append, List.mem_singleton]
    constructor
    · rintro ⟨hh, hs⟩
      exact ⟨.inl hh, fun v' hs' => hs v' ((hstands h hh v').mp hs')⟩
    · rintro ⟨hh | rfl, hs⟩
      · exact ⟨hh, fun v' hs' => hs v' ((hstands h hh v').mpr hs')⟩
      · exact absurd hi (hs v)

/-- The handles after a removal: slot `i` is vacant, and beyond the handle or at the last
generation. -/
lemma SlotMap.Handled.remove {m' : SlotMap T} (hm : m.Handled) (hid : m'.regionId = m.regionId)
    (hins : m'.inserted = m.inserted) (hrem : m'.removed = m.removed ++ [⟨m.regionId, i, g⟩])
    (hwas : m.slots i = some ⟨g, .occupied v⟩) {g' : ℕ} {n : Option ℕ}
    (hi : m'.slots i = some ⟨g', .vacant n⟩) (hg : g < g' ∨ g = g' ∧ g' = maxGeneration)
    (hkeep : ∀ k, k ≠ i → m'.slots k = m.slots k) : m'.Handled := by
  have hmem := hm.values _ _ _ hwas
  have hstands : ∀ h : Handle, h ≠ ⟨m.regionId, i, g⟩ → h ∈ m.handles → ∀ v',
      m'.Stands h v' ↔ m.Stands h v' := by
    intro h hne hh v'
    by_cases he : h.index = i
    · refine iff_of_false (fun hs => ?_) fun hs => hne ?_
      · rw [SlotMap.Stands, he, hi] at hs
        cases hs
      · obtain ⟨p, hp, rfl⟩ := List.mem_map.mp hh
        rw [SlotMap.Stands, he, hwas] at hs
        exact Handle.ext (hm.known p hp).1 he
          (congrArg Slot.generation (Option.some.inj hs)).symm
    · rw [SlotMap.Stands, SlotMap.Stands, hkeep _ he]
  have hnot : ∀ v', ¬ m'.Stands ⟨m.regionId, i, g⟩ v' := by
    intro v' hs
    rw [SlotMap.Stands, hi] at hs
    cases hs
  constructor
  · intro p hp
    rw [hins] at hp
    rw [hid]
    obtain ⟨hpid, s, hs, hor⟩ := hm.known p hp
    refine ⟨hpid, ?_⟩
    by_cases he : p.1.index = i
    · rw [he] at hs
      obtain rfl := Option.some.inj (hwas.symm.trans hs)
      refine ⟨_, he ▸ hi, ?_⟩
      have hle : p.1.generation ≤ g := by
        obtain h | ⟨h, -⟩ := hor
        · exact Nat.le_of_lt h
        · exact Nat.le_of_eq h
      obtain hg | ⟨hg, hmax⟩ := hg
      · exact .inl (Nat.lt_of_le_of_lt hle hg)
      · obtain hlt | heq := Nat.lt_or_eq_of_le hle
        · exact .inl (Nat.lt_of_lt_of_eq hlt hg)
        · exact .inr ⟨heq.trans hg, .inr ⟨⟨g', n, he ▸ hi⟩, hmax⟩⟩
    · refine ⟨s, (hkeep _ he).trans hs, hor.imp_right fun ⟨hg, ho⟩ => ⟨hg, ho.imp_right ?_⟩⟩
      rintro ⟨⟨g₁, n₁, hv⟩, hmax⟩
      exact ⟨⟨g₁, n₁, (hkeep _ he).trans hv⟩, hmax⟩
  · intro k g₁ v₁ hk
    rw [hins, hid]
    by_cases he : k = i
    · subst k
      rw [hi] at hk
      cases hk
    · exact hm.values _ _ _ ((hkeep _ he) ▸ hk)
  · rw [SlotMap.handles, hins]
    exact hm.distinct
  · rw [hrem, ← List.concat_eq_append]
    refine hm.removedNodup.concat fun hr => ?_
    exact ((hm.removed _).mp hr).2 v hwas
  · intro h
    rw [hrem, List.mem_append, List.mem_singleton, hm.removed,
      show m'.handles = m.handles by rw [SlotMap.handles, hins]; rfl]
    by_cases he : h = ⟨m.regionId, i, g⟩
    · subst he
      exact iff_of_true (.inr rfl) ⟨List.mem_map_of_mem hmem, hnot⟩
    · constructor
      · rintro (⟨hh, hs⟩ | rfl)
        · exact ⟨hh, fun v' hs' => hs v' ((hstands h he hh v').mp hs')⟩
        · exact absurd rfl he
      · rintro ⟨hh, hs⟩
        exact .inl ⟨hh, fun v' hs' => hs v' ((hstands h he hh v').mpr hs')⟩

/-- The number of values after one slot changed. -/
lemma card_occupied (slots : ℕ → Option (Slot T)) {i n : ℕ} (hi : i < n) (s : Slot T) :
    ((Finset.range n).filter fun k => occupied (Function.update slots i (some s)) k = true).card +
        (occupied slots i).toNat =
      ((Finset.range n).filter fun k => occupied slots k = true).card +
        (occupied (Function.update slots i (some s)) i).toNat := by
  have hv : occupied (Function.update slots i (some s)) i = occupied (fun _ => some s) 0 := by
    rw [occupied, Function.update_self]
    rfl
  rw [hv]
  exact CellCount.count_update (t := slots) (p := fun o => occupied (fun _ => o) 0) hi (some s)

/-- An update of a slot keeps the range and the bound of the generations. -/
lemma SlotMap.Inv.update (hm : m.Inv) (hi : i < m.total) {s : Slot T}
    (hs : s.generation ≤ maxGeneration) :
    (∀ k, (Function.update m.slots i (some s) k).isSome = true ↔ k < m.total) ∧
      ∀ k s', Function.update m.slots i (some s) k = some s' → s'.generation ≤ maxGeneration := by
  constructor
  · intro k
    by_cases hk : k = i
    · subst k
      simp [hi]
    · rw [Function.update_of_ne hk]
      exact hm.range k
  · intro k s' hk
    by_cases hki : k = i
    · subst k
      rw [Function.update_self] at hk
      exact Option.some.inj hk ▸ hs
    · rw [Function.update_of_ne hki] at hk
      exact hm.bounded k s' hk

lemma vacant_update {slots : ℕ → Option (Slot T)} {s : Slot T} {k : ℕ} (hk : k ≠ i) :
    Vacant (Function.update slots i (some s)) k ↔ Vacant slots k := by
  rw [Vacant, Vacant, Function.update_of_ne hk]

/-- An insert takes the head of the free list. -/
lemma SlotMap.Inv.fill (hm : m.Inv) (hhead : m.freeHead = some i) {n : Option ℕ}
    (hs : m.slots i = some ⟨g, .vacant n⟩) : (m.fill i g n v).Inv := by
  obtain ⟨l, hchain, hl⟩ := hm.chain
  rw [hhead] at hchain
  obtain ⟨l', rfl, hchain'⟩ := chain_some hchain
  obtain ⟨hil', -⟩ := List.nodup_cons.mp hchain.nodup
  have hvac := (hl i).mp (List.mem_cons_self ..)
  have hi : i < m.total := (hm.range i).mp (by rw [hs]; rfl)
  have hfresh := hm.fresh hs hvac.2
  have hhandles : (m.fill i g n v).handles = m.handles ++ [⟨m.regionId, i, g⟩] := by
    simp [SlotMap.handles, SlotMap.fill]
  have hupd := hm.update hi (s := ⟨g, .occupied v⟩) (show g ≤ maxGeneration from hm.bounded i _ hs)
  refine ⟨.insert hm.toHandled rfl rfl rfl (Function.update_self ..) ?_ ?_ ?_ hfresh, hupd.1, ?_, ?_,
    hupd.2⟩
  · intro k s hk hs
    exact (Function.update_of_ne hk ..).trans hs
  · intro k g' v' hk hs
    exact (Function.update_of_ne hk ..).symm.trans hs
  · intro s hs'
    obtain rfl := Option.some.inj (hs.symm.trans hs')
    rfl
  · refine ⟨l', ?_, fun k => ?_⟩
    · have hlink : link m.slots i = n := by rw [link, hs]
      rw [hlink] at hchain'
      change Chain (link (Function.update m.slots i _)) n l'
      rw [link_update_occupied]
      exact hchain'.update hil' none
    · by_cases hk : k = i
      · subst k
        refine iff_of_false hil' ?_
        rintro ⟨⟨g', n', hv⟩, -⟩
        have hself : (m.fill i g n v).slots i = some ⟨g, .occupied v⟩ := Function.update_self ..
        rw [hself] at hv
        cases hv
      · have hmem := hl k
        rw [List.mem_cons, or_iff_right hk] at hmem
        rw [hmem]
        refine and_congr (vacant_update hk).symm (not_congr ?_)
        rw [SlotMap.Retired, SlotMap.Retired, hhandles, List.mem_append, List.mem_singleton]
        refine (or_iff_left ?_).symm
        intro he
        exact hk (congrArg Handle.index he)
  · have hcard := card_occupied m.slots hi ⟨g, .occupied v⟩
    have h₀ : occupied m.slots i = false := by rw [occupied, hs]
    have h₁ : occupied (Function.update m.slots i (some ⟨g, .occupied v⟩)) i = true := by
      rw [occupied, Function.update_self]
    rw [h₀, h₁, ← hm.len] at hcard
    change m.len + 1 = _
    exact hcard.symm.trans (by rfl)

/-- A removal gives the slot back to the free list, unless its generation is the last one. -/
lemma SlotMap.Inv.release (hm : m.Inv) (hs : m.slots i = some ⟨g, .occupied v⟩) :
    (m.release i g).Inv := by
  obtain ⟨l, hchain, hl⟩ := hm.chain
  have hi : i < m.total := (hm.range i).mp (by rw [hs]; rfl)
  have hle : g ≤ maxGeneration := hm.bounded i _ hs
  have hmem : (⟨m.regionId, i, g⟩ : Handle) ∈ m.handles :=
    List.mem_map_of_mem (hm.values _ _ _ hs)
  have hil : i ∉ l := by
    intro h
    obtain ⟨⟨g', n', hv⟩, -⟩ := (hl i).mp h
    rw [hs] at hv
    cases hv
  have hother : ∀ (s : Slot T) k, k ≠ i →
      (k ∈ l ↔ Vacant (Function.update m.slots i (some s)) k ∧ ¬ m.Retired k) := by
    intro s k hk
    rw [hl k, vacant_update hk]
  have hlen : ∀ (g' : ℕ) (n : Option ℕ), m.len - 1 = ((Finset.range m.total).filter fun k =>
      occupied (Function.update m.slots i (some ⟨g', .vacant n⟩)) k = true).card := by
    intro g' n
    have hcard := card_occupied m.slots hi (⟨g', .vacant n⟩ : Slot T)
    have h₀ : occupied m.slots i = true := by rw [occupied, hs]
    have h₁ : occupied (Function.update m.slots i (some ⟨g', .vacant n⟩)) i = false := by
      rw [occupied, Function.update_self]
    rw [h₀, h₁, ← hm.len, Bool.toNat_true, Bool.toNat_false] at hcard
    omega
  unfold SlotMap.release
  split_ifs with hlt
  · have hupd := hm.update hi (s := ⟨g + 1, .vacant m.freeHead⟩) hlt
    refine ⟨.remove hm.toHandled rfl rfl rfl hs (Function.update_self ..) (.inl (Nat.lt_succ_self g))
      (fun k hk => Function.update_of_ne hk ..), hupd.1, ?_, hlen .., hupd.2⟩
    refine ⟨i :: l, ?_, fun k => ?_⟩
    · change Chain (link (Function.update m.slots i _)) (some i) (i :: l)
      rw [link_update]
      exact hchain.push hil
    · by_cases hk : k = i
      · rw [hk]
        refine iff_of_true (List.mem_cons_self ..) ⟨⟨g + 1, m.freeHead, Function.update_self ..⟩, ?_⟩
        -- Its last handle has an earlier generation.
        intro hr
        have hgen := hm.generation_le (h := ⟨m.regionId, i, maxGeneration⟩) hr hs
        exact absurd hgen (Nat.not_le.mpr hlt)
      · rw [List.mem_cons, or_iff_right hk]
        exact hother _ k hk
  · have hmax : g = maxGeneration := Nat.le_antisymm hle (Nat.not_lt.mp hlt)
    have hupd := hm.update hi (s := ⟨g, .vacant none⟩) hle
    refine ⟨.remove hm.toHandled rfl rfl rfl hs (Function.update_self ..) (.inr ⟨rfl, hmax⟩)
      (fun k hk => Function.update_of_ne hk ..), hupd.1, ?_, hlen .., hupd.2⟩
    refine ⟨l, ?_, fun k => ?_⟩
    · change Chain (link (Function.update m.slots i _)) m.freeHead l
      rw [link_update]
      exact hchain.update hil none
    · by_cases hk : k = i
      · subst k
        refine iff_of_false hil fun h => h.2 ?_
        exact hmax ▸ hmem
      · exact hother _ k hk

/-- An insert that grows the region, whose free list is empty. -/
lemma SlotMap.Inv.grow (hm : m.Inv) (hhead : m.freeHead = none) : (m.grow v).Inv := by
  obtain ⟨l, hchain, hl⟩ := hm.chain
  rw [hhead, chain_none] at hchain
  subst hchain
  have hpage := page_eq
  have hself : (m.grow v).slots m.total = some ⟨0, .occupied v⟩ := by
    simp [SlotMap.grow, grown]
  have hold : ∀ k, k < m.total → (m.grow v).slots k = m.slots k := fun k hk => if_pos hk
  have hnew : ∀ k, m.total < k → k < m.total + page → (m.grow v).slots k =
      some ⟨0, .vacant (if k + 1 = m.total + page then none else some (k + 1))⟩ := by
    intro k h₁ h₂
    simp only [SlotMap.grow, grown]
    rw [if_neg (by omega), if_neg (by omega), if_pos h₂]
  have hout : ∀ k, m.total + page ≤ k → (m.grow v).slots k = none := by
    intro k hk
    simp only [SlotMap.grow, grown]
    rw [if_neg (by omega), if_neg (by omega), if_neg (by omega)]
  have hnone : ∀ k, m.total ≤ k → m.slots k = none := by
    intro k hk
    rw [← Option.not_isSome_iff_eq_none, hm.range]
    omega
  have hrange : ∀ h ∈ m.handles, h.index < m.total := by
    intro h hh
    obtain ⟨p, hp, rfl⟩ := List.mem_map.mp hh
    obtain ⟨-, s, hs, -⟩ := hm.known p hp
    exact (hm.range _).mp (by rw [hs]; rfl)
  have hfresh : (⟨m.regionId, m.total, 0⟩ : Handle) ∉ m.handles := fun hh =>
    absurd (hrange _ hh) (lt_irrefl _)
  have hhandles : (m.grow v).handles = m.handles ++ [⟨m.regionId, m.total, 0⟩] := by
    simp [SlotMap.handles, SlotMap.grow]
  have hretired : ∀ k, (m.grow v).Retired k ↔ m.Retired k := by
    intro k
    rw [SlotMap.Retired, SlotMap.Retired, hhandles, List.mem_append, List.mem_singleton]
    have hmax : maxGeneration ≠ 0 := by decide
    exact or_iff_left fun he => hmax (congrArg Handle.generation he)
  refine ⟨.insert hm.toHandled rfl rfl rfl hself ?_ ?_ ?_ hfresh, fun k => ?_, ?_, ?_, fun k s hs => ?_⟩
  · intro k s hk hs
    have hlt : k < m.total := (hm.range k).mp (by rw [hs]; rfl)
    rw [hold k hlt, hs]
  · intro k g' v' hk hs
    by_cases hlt : k < m.total
    · rwa [hold k hlt] at hs
    · by_cases hlt' : k < m.total + page
      · rw [hnew k (by omega) hlt'] at hs
        cases hs
      · rw [hout k (by omega)] at hs
        cases hs
  · intro s hs
    rw [hnone _ (Nat.le_refl _)] at hs
    cases hs
  · change _ ↔ k < m.total + page
    by_cases hlt : k < m.total
    · rw [hold k hlt, hm.range]
      omega
    · by_cases hk : k = m.total
      · rw [hk, hself]
        exact iff_of_true rfl (by omega)
      · by_cases hlt' : k < m.total + page
        · rw [hnew k (by omega) hlt']
          exact iff_of_true rfl hlt'
        · rw [hout k (by omega)]
          exact iff_of_false (by simp) hlt'
  · have hlink : ∀ k, m.total < k → k < m.total + page → link (m.grow v).slots k =
        if k + 1 = m.total + page then none else some (k + 1) := by
      intro k h₁ h₂
      rw [link, hnew k h₁ h₂]
    refine ⟨List.range' (m.total + 1) (62 + 1), chain_range' (fun k h₁ h₂ => ?_) ?_, fun k => ?_⟩
    · rw [hlink k (by omega) (by omega), if_neg (by omega)]
    · rw [hlink _ (by omega) (by omega), if_pos (by omega)]
    · rw [List.mem_range'_1, hretired]
      constructor
      · rintro ⟨h₁, h₂⟩
        refine ⟨⟨0, _, hnew k (by omega) (by omega)⟩, fun hr => ?_⟩
        have hlt := hrange _ hr
        dsimp only at hlt
        omega
      · rintro ⟨⟨g', n, hv⟩, hr⟩
        by_cases hlt : k < m.total
        · rw [hold k hlt] at hv
          exact absurd ((hl k).mpr ⟨⟨g', n, hv⟩, hr⟩) List.not_mem_nil
        · have hne : k ≠ m.total := by
            rintro rfl
            rw [hself] at hv
            cases hv
          have hlt' : k < m.total + page := by
            by_contra hge
            rw [hout k (by omega)] at hv
            cases hv
          omega
  · -- Only the first slot of the page has a value.
    have hfilter : (Finset.range (m.total + page)).filter
        (fun k => occupied (m.grow v).slots k = true) =
          insert m.total ((Finset.range m.total).filter fun k => occupied m.slots k = true) := by
      ext k
      simp only [Finset.mem_filter, Finset.mem_range, Finset.mem_insert]
      by_cases hlt : k < m.total
      · rw [occupied, hold k hlt]
        have hne : k ≠ m.total := hlt.ne
        simp only [hne, false_or, hlt, true_and]
        exact ⟨fun h => h.2, fun h => ⟨by omega, h⟩⟩
      · by_cases hk : k = m.total
        · subst k
          rw [occupied, hself]
          simp [hpage]
        · simp only [hk, hlt, false_and, or_false, iff_false, not_and]
          intro hlt'
          rw [occupied, hnew k (by omega) hlt']
          simp
    change m.len + 1 = ((Finset.range (m.total + page)).filter _).card
    rw [hfilter, Finset.card_insert_of_notMem (by simp), ← hm.len]
  · by_cases hlt : k < m.total
    · rw [hold k hlt] at hs
      exact hm.bounded k s hs
    · have hle : s.generation = 0 := by
        by_cases hk : k = m.total
        · rw [hk, hself] at hs
          exact (congrArg Slot.generation (Option.some.inj hs)).symm
        · by_cases hlt' : k < m.total + page
          · rw [hnew k (by omega) hlt'] at hs
            exact (congrArg Slot.generation (Option.some.inj hs)).symm
          · rw [hout k (by omega)] at hs
            cases hs
      rw [hle]
      exact Nat.zero_le _

/-! ## What the calls do to the region -/

/-- The region as a map of the slots of its pages. -/
def World.slotMap (w : World T) (ps : List (Page T)) : SlotMap T :=
  ⟨w.region.regionId, page * ps.length, slotAt ps, w.region.state.freeHead, w.region.state.len,
    w.inserted, w.removed⟩

/-- The pages of a region, numbered in 32 bits, are a sound map of slots. -/
structure World.Inv (w : World T) (ps : List (Page T)) : Prop where
  pages : w.region.state.pages = ofList ps
  full : Full ps
  small : page * ps.length ≤ 2 ^ 32
  slots : (w.slotMap ps).Inv

variable {w : World T} {ps : List (Page T)}

/-- The page of a slot. -/
lemma exists_page {i : ℕ} {s : Slot T} (hs : slotAt ps i = some s) :
    ∃ p, ps[i / page]? = some p ∧ p[i % page]? = some s :=
  Option.bind_eq_some_iff.mp hs

lemma slotAt_set_eq (hf : Full ps) {p : Page T} {i : ℕ} (hp : ps[i / page]? = some p) (s : Slot T) :
    slotAt (ps.set (i / page) (p.set (i % page) s)) = Function.update (slotAt ps) i (some s) := by
  funext k
  rw [slotAt_set hf hp, Function.update_apply]

/-- The pages after one slot is written. -/
lemma World.Inv.set (hw : w.Inv ps) {p : Page T} {i : ℕ} (hp : ps[i / page]? = some p)
    (s : Slot T) : (w.region.state.pages.set (i / page) (p.set (i % page) s)).1 =
      ofList (ps.set (i / page) (p.set (i % page) s)) ∧
        Full (ps.set (i / page) (p.set (i % page) s)) := by
  refine ⟨by rw [hw.pages, set_ofList], full_set hw.full ?_⟩
  rw [List.length_set]
  exact hw.full p (List.mem_of_getElem? hp)

lemma World.Inv.get_page (hw : w.Inv ps) (i : ℕ) : w.region.state.pages.get i = ps[i]? := by
  rw [hw.pages, get_ofList]

/-- The head of the free list is a vacant slot. -/
lemma World.Inv.head (hw : w.Inv ps) {i : ℕ} (hi : w.region.state.freeHead = some i) :
    ∃ g n, slotAt ps i = some ⟨g, .vacant n⟩ := by
  obtain ⟨l, hchain, hl⟩ := hw.slots.chain
  have hchain' : Chain (link (w.slotMap ps).slots) (some i) l := by
    rw [← hi]
    exact hchain
  obtain ⟨l', rfl, -⟩ := chain_some hchain'
  exact ((hl i).mp (List.mem_cons_self ..)).1

/-- The page that a growing insert makes. -/
def grownPage (base : ℕ) (v : T) : Page T :=
  (List.range page).map fun off =>
    if off = 0 then ⟨0, .occupied v⟩
    else ⟨0, .vacant (if off + 1 = page then none else some (base + off + 1))⟩

lemma insertReusing_eq (hw : w.Inv ps) {i g : ℕ} {n : Option ℕ} {p : Page T}
    (hp : ps[i / page]? = some p) (hs : p[i % page]? = some ⟨g, .vacant n⟩) (v : T) :
    insertReusing w.region.state i v = some ({ w.region.state with
      pages := ofList (ps.set (i / page) (p.set (i % page) ⟨g, .occupied v⟩)), freeHead := n },
      i, g) := by
  simp only [insertReusing, shift_eq, and_eq, hw.get_page, hp, Option.bind_some, hs,
    (hw.set hp _).1]

/-- No sum wraps while the base of the page fits in 32 bits. -/
lemma insertGrowing_eq (hw : w.Inv ps) (hbase : page * ps.length < 2 ^ 32) (v : T) :
    insertGrowing w.region.state v = some ({ w.region.state with
      pages := ofList (ps ++ [grownPage (page * ps.length) v]),
      freeHead := some (page * ps.length + 1) }, page * ps.length, 0) := by
  have hlen : w.region.state.pages.len = ps.length := by rw [hw.pages]; rfl
  have hcomm : ps.length * page = page * ps.length := Nat.mul_comm ..
  have hroom : page * ps.length + page ≤ 2 ^ 32 := by
    rw [page_eq] at hbase ⊢
    omega
  have hpage : (List.range page).map (fun off =>
      if off = 0 then (⟨0, .occupied v⟩ : Slot T)
      else ⟨0, .vacant (if off + 1 = page then none
        else some (((page * ps.length + off) % 2 ^ 32 + 1) % 2 ^ 32))⟩) =
      grownPage (page * ps.length) v := by
    refine List.map_congr_left fun off hoff => ?_
    have hlt := List.mem_range.mp hoff
    by_cases h₀ : off = 0
    · rw [if_pos h₀, if_pos h₀]
    · rw [if_neg h₀, if_neg h₀]
      by_cases hlast : off + 1 = page
      · rw [if_pos hlast, if_pos hlast]
      · rw [if_neg hlast, if_neg hlast, Nat.mod_eq_of_lt (by omega : _ + off < 2 ^ 32),
          Nat.mod_eq_of_lt (by omega)]
  have hone : (page * ps.length + 1) % 2 ^ 32 = page * ps.length + 1 := by
    rw [page_eq] at hroom ⊢
    omega
  simp only [insertGrowing, hlen, hcomm]
  rw [if_neg (by omega), hpage, hone, hw.pages, push_ofList]

/-- The slots with the page of a growing insert. -/
lemma slotAt_grown (hf : Full ps) (v : T) :
    slotAt (ps ++ [grownPage (page * ps.length) v]) = grown (slotAt ps) (page * ps.length) v := by
  funext k
  rw [slotAt_append hf, grown, Nat.mul_succ]
  by_cases hlt : k < page * ps.length
  · rw [if_pos hlt, if_pos hlt]
  · rw [if_neg hlt, if_neg hlt]
    by_cases hlt' : k < page * ps.length + page
    · rw [if_pos hlt', if_pos hlt', grownPage, List.getElem?_map, List.getElem?_range (by omega),
        Option.map_some]
      by_cases hk : k = page * ps.length
      · rw [if_pos hk, if_pos (by omega)]
      · rw [if_neg hk, if_neg (by omega)]
        by_cases hlast : k + 1 = page * ps.length + page
        · rw [if_pos hlast, if_pos (by omega)]
        · rw [if_neg hlast, if_neg (by omega), Nat.add_sub_cancel' (Nat.not_lt.mp hlt)]
    · have hne : k ≠ page * ps.length := by
        rw [page_eq] at *
        omega
      rw [if_neg hlt', if_neg hne, if_neg hlt']

lemma full_append (hf : Full ps) (base : ℕ) (v : T) : Full (ps ++ [grownPage base v]) := by
  intro q hq
  obtain hq | hq := List.mem_append.mp hq
  · exact hf q hq
  · rw [List.mem_singleton.mp hq, grownPage, List.length_map, List.length_range]

/-- An insert publishes, unless the mutex is poisoned or the indices are used up. -/
theorem World.Inv.insert (hw : w.Inv ps) (v : T) :
    (w.region.insert v = none ∧ (w.region.poisoned = true ∨
      w.region.state.freeHead = none ∧ page * ps.length = 2 ^ 32)) ∨
    ∃ s h, w.region.insert v = some (s, h) ∧
      ∃ ps', ({ w.publish s with inserted := w.inserted ++ [(h, v)] } : World T).Inv ps' := by
  unfold Region.insert
  by_cases hpoison : w.region.poisoned = true
  · exact .inl ⟨if_pos hpoison, .inl hpoison⟩
  · rw [if_neg hpoison]
    cases hhead : w.region.state.freeHead with
    | some i =>
      right
      obtain ⟨g, n, hs⟩ := hw.head hhead
      obtain ⟨p, hp, hslot⟩ := exists_page hs
      obtain ⟨hset, hfull⟩ := hw.set hp ⟨g, .occupied v⟩
      simp only [insertReusing_eq hw hp hslot]
      refine ⟨_, _, rfl, ps.set (i / page) (p.set (i % page) ⟨g, .occupied v⟩), rfl, hfull, ?_, ?_⟩
      · rw [List.length_set]
        exact hw.small
      · have hfill := hw.slots.fill (v := v) hhead hs
        rw [World.slotMap, List.length_set, slotAt_set_eq hw.full hp]
        exact hfill
    | none =>
      have hsmall := hw.small
      by_cases hbase : page * ps.length < 2 ^ 32
      · right
        simp only [insertGrowing_eq hw hbase]
        refine ⟨_, _, rfl, ps ++ [grownPage (page * ps.length) v], rfl, full_append hw.full _ v, ?_, ?_⟩
        · rw [List.length_append, List.length_singleton, page_eq] at *
          omega
        · have hgrow := hw.slots.grow (v := v) hhead
          rw [World.slotMap, List.length_append, List.length_singleton, slotAt_grown hw.full]
          exact hgrow
      · left
        have hlen : w.region.state.pages.len = ps.length := by rw [hw.pages]; rfl
        have hfull : page * ps.length = 2 ^ 32 := by omega
        refine ⟨?_, .inr ⟨rfl, hfull⟩⟩
        simp only [insertGrowing, hlen]
        rw [if_pos (by rw [Nat.mul_comm]; omega)]
        rfl

/-- How a removal ends: it is refused and changes nothing, it finds the mutex poisoned, or it
publishes and gives the value of its handle, which stood. -/
theorem World.Inv.remove (hw : w.Inv ps) (h : Handle) :
    (w.region.remove h = .rejected ∧
      (h.regionId ≠ w.region.regionId ∨ ∀ v, ¬ (w.slotMap ps).Stands h v)) ∨
    (w.region.remove h = .panicked ∧ w.region.poisoned = true) ∨
    ∃ s v, w.region.remove h = .removed s v ∧ h.regionId = w.region.regionId ∧
      (w.slotMap ps).Stands h v ∧
      ∃ ps', ({ w.publish s with removed := w.removed ++ [h] } : World T).Inv ps' := by
  unfold Region.remove
  by_cases hid : h.regionId = w.region.regionId
  · rw [if_neg (not_not.mpr hid)]
    by_cases hpoison : w.region.poisoned = true
    · exact .inr (.inl ⟨if_pos hpoison, hpoison⟩)
    · rw [if_neg hpoison]
      have hslots := slot_eq hw.pages
      rw [hslots]
      have hstands : ∀ v, (w.slotMap ps).Stands h v ↔
          slotAt ps h.index = some ⟨h.generation, .occupied v⟩ := fun _ => Iff.rfl
      simp only [hstands]
      cases hs : slotAt ps h.index with
      | none => exact .inl ⟨rfl, .inr (by simp)⟩
      | some s =>
        obtain ⟨g, st⟩ := s
        cases st with
        | vacant n => exact .inl ⟨rfl, .inr (by simp)⟩
        | occupied v =>
          by_cases hg : g = h.generation
          · subst hg
            right
            right
            obtain ⟨p, hp, hslot⟩ := exists_page hs
            have hrelease := hw.slots.release hs
            have hh : (⟨(w.slotMap ps).regionId, h.index, h.generation⟩ : Handle) = h :=
              Handle.ext hid.symm rfl rfl
            have hslots : ∀ s, (w.region.state.pages.set (h.index / page)
                (p.set (h.index % page) s)).1 = ofList (ps.set (h.index / page)
                  (p.set (h.index % page) s)) := fun s => (hw.set hp s).1
            have hsmall : ∀ q, page * (ps.set (h.index / page) q).length ≤ 2 ^ 32 := fun q => by
              rw [List.length_set]
              exact hw.small
            unfold SlotMap.release at hrelease
            rw [hh] at hrelease
            simp only [ne_eq, not_true_eq_false, if_false, shift_eq, and_eq, hw.get_page, hp, hslots]
            by_cases hlt : h.generation < maxGeneration
            · rw [if_pos hlt] at hrelease
              simp only [hlt, decide_true, if_true]
              refine ⟨_, v, rfl, hid, rfl, ps.set (h.index / page) (p.set (h.index % page)
                ⟨h.generation + 1, .vacant w.region.state.freeHead⟩), rfl, (hw.set hp _).2,
                hsmall _, ?_⟩
              rw [World.slotMap, List.length_set, slotAt_set_eq hw.full hp]
              exact hrelease
            · rw [if_neg hlt] at hrelease
              simp only [hlt, decide_false, Bool.false_eq_true, if_false]
              refine ⟨_, v, rfl, hid, rfl, ps.set (h.index / page) (p.set (h.index % page)
                ⟨h.generation, .vacant none⟩), rfl, (hw.set hp _).2, hsmall _, ?_⟩
              rw [World.slotMap, List.length_set, slotAt_set_eq hw.full hp]
              exact hrelease
          · left
            refine ⟨by simp [hg], .inr ?_⟩
            intro v' he
            exact hg (congrArg Slot.generation (Option.some.inj he))
  · exact .inl ⟨if_pos hid, .inl hid⟩

/-! ## Runs -/

/-- A call keeps the invariant. -/
lemma World.Inv.step (hw : w.Inv ps) (op : Op T) : ∃ ps', (w.step op).Inv ps' := by
  have poison : ({ w with region := { w.region with poisoned := true } } : World T).Inv ps :=
    ⟨hw.pages, hw.full, hw.small, hw.slots⟩
  cases op with
  | insert v =>
    obtain ⟨hn, -⟩ | ⟨s, h, he, hps⟩ := hw.insert v
    · refine ⟨ps, ?_⟩
      simp only [World.step, hn]
      exact poison
    · simp only [World.step, he]
      exact hps
  | remove h =>
    obtain ⟨hr, -⟩ | ⟨hr, -⟩ | ⟨s, v, hr, -, -, hps⟩ := hw.remove h
    · refine ⟨ps, ?_⟩
      simp only [World.step, hr]
      exact hw
    · refine ⟨ps, ?_⟩
      simp only [World.step, hr]
      exact poison
    · simp only [World.step, hr]
      exact hps
  | get | contains => exact ⟨ps, hw⟩

lemma run_inv (hw : ∃ ps, w.Inv ps) (ops : List (Op T)) :
    ∃ ps, (ops.foldl World.step w).Inv ps := by
  induction ops generalizing w with
  | nil => exact hw
  | cons op ops ih =>
    obtain ⟨ps, hw⟩ := hw
    exact ih (hw.step op)

/-- Vacant slots that are linked in order. -/
lemma inv_vacant (id total : ℕ) (slots : ℕ → Option (Slot T)) (freeHead : Option ℕ)
    (hslots : ∀ k, slots k = if k < total then
      some ⟨0, .vacant (if k + 1 = total then none else some (k + 1))⟩ else none)
    (hhead : freeHead = if 0 < total then some 0 else none) :
    (⟨id, total, slots, freeHead, 0, [], []⟩ : SlotMap T).Inv := by
  have hnot : ∀ i g v, slots i ≠ some ⟨g, .occupied v⟩ := by
    intro i g v hs
    rw [hslots] at hs
    split_ifs at hs <;> cases hs
  have hlink : ∀ k, k < total → link slots k = if k + 1 = total then none else some (k + 1) := by
    intro k hk
    rw [link, hslots, if_pos hk]
  have hvacant : ∀ k, Vacant slots k ↔ k < total := by
    intro k
    rw [Vacant, hslots]
    by_cases hk : k < total
    · rw [if_pos hk]
      exact iff_of_true ⟨0, _, rfl⟩ hk
    · rw [if_neg hk]
      refine iff_of_false ?_ hk
      rintro ⟨g, n, he⟩
      cases he
  refine ⟨⟨by simp, fun i g v hs => absurd hs (hnot i g v), List.nodup_nil, List.nodup_nil,
    by simp [SlotMap.handles]⟩, fun k => ?_, ?_, ?_, fun i s hs => ?_⟩
  · dsimp only
    rw [hslots]
    by_cases hk : k < total <;> simp [hk]
  · have hmem : ∀ k, k < total ↔ Vacant slots k ∧ ¬ SlotMap.Retired
        (⟨id, total, slots, freeHead, 0, [], []⟩ : SlotMap T) k := by
      intro k
      rw [hvacant]
      exact ⟨fun h => ⟨h, List.not_mem_nil⟩, fun h => h.1⟩
    cases total with
    | zero =>
      refine ⟨[], ?_, fun k => (iff_of_false List.not_mem_nil (Nat.not_lt_zero k)).trans (hmem k)⟩
      rw [hhead]
      rfl
    | succ n =>
      refine ⟨List.range' 0 (n + 1), ?_, fun k => ?_⟩
      · rw [hhead, if_pos (Nat.succ_pos n)]
        refine chain_range' (fun i _ hi => ?_) ?_
        · rw [hlink i (by omega), if_neg (by omega)]
        · rw [hlink _ (by omega), if_pos (by omega)]
      · rw [List.mem_range'_1, ← hmem]
        omega
  · symm
    rw [Finset.card_eq_zero, Finset.filter_eq_empty_iff]
    intro i _ ho
    unfold occupied at ho
    split at ho
    · rename_i hs
      exact hnot _ _ _ hs
    · cases ho
  · dsimp only at hs
    rw [hslots] at hs
    by_cases hi : i < total
    · rw [if_pos hi] at hs
      rw [← Option.some.inj hs]
      exact Nat.zero_le _
    · rw [if_neg hi] at hs
      cases hs

/-- A region without slots. -/
lemma inv_new (T : Type*) (id : ℕ) : (World.start (new T id)).Inv [] := by
  refine ⟨rfl, by simp [Full], by simp, inv_vacant id 0 _ none (fun k => ?_) rfl⟩
  simp [slotAt]

/-- The slots of `with_pages` are linked in order, and no sum wraps. -/
lemma slotAt_withPages {n : ℕ} (hn : n * page < 2 ^ 32) (k : ℕ) :
    slotAt ((List.range n).map fun pageIdx => vacantPage T (n * page) (pageIdx * page)) k =
      if k < n * page then some ⟨0, .vacant (if k + 1 = n * page then none else some (k + 1))⟩
      else none := by
  have hmod := Nat.mod_lt k (show 0 < page by decide)
  have hdiv := Nat.div_add_mod k page
  unfold slotAt
  by_cases hlt : k < n * page
  · have hpg : k / page < n := (Nat.div_lt_iff_lt_mul (by decide)).mpr hlt
    rw [List.getElem?_map, List.getElem?_range hpg, Option.map_some, Option.bind_some, vacantPage,
      List.getElem?_map, List.getElem?_range hmod, Option.map_some, if_pos hlt]
    have hk : (k / page * page + k % page) % 2 ^ 32 = k := by
      rw [Nat.mul_comm, hdiv, Nat.mod_eq_of_lt (by omega)]
    simp only [hk, Nat.mod_eq_of_lt (by omega : k + 1 < 2 ^ 32)]
    congr 4
    exact propext (by omega)
  · have hpg : n ≤ k / page := (Nat.le_div_iff_mul_le (by decide)).mpr (Nat.not_lt.mp hlt)
    rw [if_neg hlt, List.getElem?_eq_none (by simpa using hpg)]
    rfl

/-- A region with vacant pages. -/
lemma inv_withPages {id n : ℕ} {r : Region T} (hr : withPages T id n = some r) :
    ∃ ps, (World.start r).Inv ps := by
  unfold withPages checkedTotalSlots at hr
  by_cases hn : n * page < 2 ^ 32
  · rw [if_pos hn, Option.map_some] at hr
    obtain rfl := Option.some.inj hr
    set ps : List (Page T) :=
      (List.range n).map fun pageIdx => vacantPage T (n * page) (pageIdx * page) with hps
    have hlen : page * ps.length = n * page := by
      rw [hps, List.length_map, List.length_range, Nat.mul_comm]
    refine ⟨ps, fromVec_eq ps, ?_, hlen ▸ hn.le, ?_⟩
    · intro p hp
      obtain ⟨k, -, rfl⟩ := List.mem_map.mp hp
      rw [vacantPage, List.length_map, List.length_range]
    · rw [World.slotMap, hlen]
      refine inv_vacant id (n * page) _ _ (slotAt_withPages hn) ?_
      refine if_congr ?_ rfl rfl
      rw [page_eq]
      omega
  · rw [if_neg hn] at hr
    cases hr

/-! ## What the region promises -/

/-- The current snapshot is well formed, and the handles are a map. -/
structure World.WellFormed (w : World T) : Prop where
  /-- The free list visits exactly the vacant slots that are not retired. -/
  chain : ∃ l, Chain (link w.region.state.slot) w.region.state.freeHead l ∧ l.Nodup ∧
    (∀ i ∈ l, i < page * w.region.state.pages.len) ∧
    ∀ i, i ∈ l ↔ Vacant w.region.state.slot i ∧
      (⟨w.region.regionId, i, maxGeneration⟩ : Handle) ∉ w.handles
  range : page * w.region.state.pages.len ≤ 2 ^ 32 ∧
    ∀ i, (w.region.state.slot i).isSome = true ↔ i < page * w.region.state.pages.len
  len : w.region.state.len = ((Finset.range (page * w.region.state.pages.len)).filter
    fun i => occupied w.region.state.slot i = true).card
  /-- A handle finds its value from its insertion to its removal. -/
  get : ∀ h v, w.region.get h = some v ↔ (h, v) ∈ w.inserted ∧ h ∉ w.removed
  contains : ∀ h, w.region.contains h = (w.region.get h).isSome
  minted : w.handles.Nodup ∧ ∀ h ∈ w.handles, h.regionId = w.region.regionId ∧
    h.index < page * w.region.state.pages.len ∧ h.generation ≤ maxGeneration
  removals : w.removed.Nodup ∧ ∀ h ∈ w.removed, h ∈ w.handles
  /-- A removal gives the value of its handle. If the handle finds nothing, nothing is published. -/
  gives : ∀ h v, w.region.get h = some v → w.region.poisoned = false →
    ∃ s, w.region.remove h = .removed s v
  rejects : ∀ h, w.region.get h = none → (w.step (.remove h)).published = w.published ∧
    (w.step (.remove h)).region.state = w.region.state ∧ (w.step (.remove h)).removed = w.removed
  /-- An insert panics only where the mutex is poisoned, or all indices are used. -/
  panics : ∀ v, w.region.insert v = none → w.region.poisoned = true ∨
    w.region.state.freeHead = none ∧ page * w.region.state.pages.len = 2 ^ 32

/-- What a handle finds. -/
lemma World.Inv.get_eq_some (hw : w.Inv ps) {h : Handle} {v : T} : w.region.get h = some v ↔
    h.regionId = w.region.regionId ∧ (w.slotMap ps).Stands h v := by
  unfold Region.get
  rw [slot_eq hw.pages]
  have hstands : (w.slotMap ps).Stands h v ↔
      slotAt ps h.index = some ⟨h.generation, .occupied v⟩ := Iff.rfl
  rw [hstands]
  by_cases hid : h.regionId = w.region.regionId
  · rw [if_neg (not_not.mpr hid)]
    simp only [hid, true_and]
    cases hs : slotAt ps h.index with
    | none => simp
    | some s =>
      obtain ⟨g, st⟩ := s
      cases st with
      | vacant n => simp
      | occupied v' =>
        by_cases hg : g = h.generation <;> simp [hg]
  · simp [hid]

lemma contains_eq (r : Region T) (h : Handle) : r.contains h = (r.get h).isSome := by
  unfold Region.contains Region.get
  by_cases hid : h.regionId = r.regionId
  · rw [if_neg (not_not.mpr hid), if_neg (not_not.mpr hid)]
    cases hs : r.state.slot h.index with
    | none => rfl
    | some s =>
      obtain ⟨g, st⟩ := s
      cases st with
      | vacant n => rfl
      | occupied v =>
        by_cases hg : g = h.generation <;> simp [hg]
  · rw [if_pos hid, if_pos hid]
    rfl

theorem World.Inv.wellFormed (hw : w.Inv ps) : w.WellFormed := by
  have hslot := slot_eq hw.pages
  have hlen : page * w.region.state.pages.len = page * ps.length := by rw [hw.pages]; rfl
  have hm := hw.slots
  have hget := fun h v => hw.get_eq_some (h := h) (v := v)
  constructor
  · obtain ⟨l, hchain, hl⟩ := hm.chain
    rw [hslot, hlen]
    refine ⟨l, hchain, hchain.nodup, fun i hi => ?_, hl⟩
    obtain ⟨⟨g, n, hs⟩, -⟩ := (hl i).mp hi
    exact (hm.range i).mp (by rw [hs]; rfl)
  · rw [hslot, hlen]
    exact ⟨hw.small, hm.range⟩
  · rw [hslot, hlen]
    exact hm.len
  · intro h v
    rw [hget]
    constructor
    · rintro ⟨hid, hs⟩
      exact hm.stands_mem hid hs
    · rintro ⟨hmem, hr⟩
      exact ⟨(hm.known _ hmem).1, hm.stands_of_mem hmem hr⟩
  · exact contains_eq w.region
  · refine ⟨hm.distinct, fun h hh => ?_⟩
    obtain ⟨p, hp, rfl⟩ := List.mem_map.mp hh
    obtain ⟨hid, s, hs, -⟩ := hm.known p hp
    rw [hlen]
    exact ⟨hid, (hm.range _).mp (by rw [hs]; rfl),
      (hm.generation_le hh hs).trans (hm.bounded _ s hs)⟩
  · exact ⟨hm.removedNodup, fun h hh => ((hm.removed h).mp hh).1⟩
  · intro h v hv hp
    obtain ⟨hid, hs⟩ := (hget h v).mp hv
    obtain ⟨-, hne | hne⟩ | ⟨-, hpoison⟩ | ⟨s, v', hr, -, hs', -⟩ := hw.remove h
    · exact absurd hid hne
    · exact absurd hs (hne v)
    · rw [hp] at hpoison
      cases hpoison
    · have he : v' = v := by
        have hss := hs'.symm.trans hs
        cases hss
        rfl
      exact ⟨s, he ▸ hr⟩
  · intro h hn
    obtain ⟨hr, -⟩ | ⟨hr, -⟩ | ⟨s, v, -, hid, hs, -⟩ := hw.remove h
    · simp only [World.step, hr, and_self]
    · simp only [World.step, hr, and_self]
    · rw [(hget h v).mpr ⟨hid, hs⟩] at hn
      cases hn
  · intro v hn
    rw [hlen]
    obtain ⟨-, hor⟩ | ⟨s, h, he, -⟩ := hw.insert v
    · exact hor
    · rw [hn] at he
      cases he

/-- A call publishes at most the state that it leaves. -/
lemma step_published (w : World T) (op : Op T) : (w.step op).published = w.published ∨
    (w.step op).published = w.published ++ [(w.step op).region.state] := by
  cases op with
  | insert v =>
    cases he : w.region.insert v with
    | none => simp only [World.step, he, true_or]
    | some x => exact .inr (by simp only [World.step, he, World.publish])
  | remove h =>
    cases hr : w.region.remove h with
    | panicked => simp only [World.step, hr, true_or]
    | rejected => simp only [World.step, hr, true_or]
    | removed s v => exact .inr (by simp only [World.step, hr, World.publish])
  | get | contains => exact .inl rfl

/-- What was published stays as it is. -/
lemma published_prefix (w : World T) (ops : List (Op T)) :
    w.published <+: (ops.foldl World.step w).published := by
  induction ops generalizing w with
  | nil => exact List.prefix_rfl
  | cons op ops ih =>
    refine List.IsPrefix.trans ?_ (ih (w.step op))
    obtain h | h := step_published w op
    · rw [h]
    · rw [h]
      exact List.prefix_append ..

/-- Every published snapshot was the state after some of the calls. -/
lemma published_state (w : World T) (ops : List (Op T)) {s : Snapshot T}
    (hs : s ∈ (ops.foldl World.step w).published) : s ∈ w.published ∨
      ∃ k, s = ((ops.take k).foldl World.step w).region.state := by
  induction ops using List.reverseRecOn with
  | nil => exact .inl hs
  | append_singleton ops op ih =>
    have hlater : (s ∈ w.published ∨ ∃ k, s = ((ops.take k).foldl World.step w).region.state) →
        s ∈ w.published ∨
          ∃ k, s = (((ops ++ [op]).take k).foldl World.step w).region.state := by
      refine Or.imp_right ?_
      rintro ⟨k, rfl⟩
      refine ⟨min k ops.length, ?_⟩
      rw [List.take_append_of_le_length (Nat.min_le_right ..), List.take_eq_take_min]
    rw [List.foldl_append, List.foldl_cons, List.foldl_nil] at hs
    obtain h | h := step_published (ops.foldl World.step w) op
    · exact hlater (ih (h ▸ hs))
    · rw [h] at hs
      obtain hs | hs := List.mem_append.mp hs
      · exact hlater (ih hs)
      · right
        refine ⟨ops.length + 1, ?_⟩
        rw [List.take_of_length_le (by simp), List.foldl_append, List.foldl_cons, List.foldl_nil]
        exact List.mem_singleton.mp hs

/-- After every sequence of calls of a region that `new` or `with_pages` made, the snapshot is well
formed, every published snapshot was the state at some moment, and later calls leave it alone. -/
theorem slotMap_exact {r : Region T}
    (hr : (∃ id, r = new T id) ∨ ∃ id n, withPages T id n = some r) (ops : List (Op T)) :
    (ops.foldl World.step (.start r)).WellFormed ∧
      (∀ s ∈ (ops.foldl World.step (.start r)).published, ∃ k,
        s = ((ops.take k).foldl World.step (.start r)).region.state) ∧
      ∀ more, (ops.foldl World.step (.start r)).published <+:
        ((ops ++ more).foldl World.step (.start r)).published := by
  have hstart : ∃ ps, (World.start r).Inv ps := by
    obtain ⟨id, rfl⟩ | ⟨id, n, hn⟩ := hr
    · exact ⟨[], inv_new T id⟩
    · exact inv_withPages hn
  obtain ⟨ps, hw⟩ := run_inv hstart ops
  refine ⟨hw.wellFormed, fun s hs => ?_, fun more => ?_⟩
  · obtain hs | hk := published_state _ ops hs
    · exact ⟨0, List.mem_singleton.mp hs⟩
    · exact hk
  · rw [List.foldl_append]
    exact published_prefix ..

/-- An insert, its removal and a reuse of its slot. -/
theorem slotMap_exact_reuse : (([.insert 3, .remove ⟨0, 0, 0⟩, .insert 4] : List (Op ℕ)).foldl
    World.step (.start (new ℕ 0))).WellFormed :=
  (slotMap_exact (.inl ⟨0, rfl⟩) _).1

end LockFree

end SeferAlloc
