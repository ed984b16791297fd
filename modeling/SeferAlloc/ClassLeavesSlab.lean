import SeferAlloc.ClassLeaves

/-!
# The slab of class leaves

Slots are handed out in the order of promotions, whatever the leaves are. A
chunk request comes before the first slot of its chunk, so a refusal leaves the
place of the next slot as it was. No two slots share a byte, and no promotion
changes a code.
-/
namespace SeferAlloc
open BitWord

namespace ClassLeaves

/-- Slot `k` of the slab. -/
def slotAt (s : ClassLeaves) (k : ℕ) : ℕ :=
  s.chunks (k / chunkLeaves) + k % chunkLeaves * leafGranules

/-- What System granted in its first `n` answers. -/
def granted (sys : System) (n : ℕ) : List Grant := (List.range n).filterMap sys.answer

/-- The leaves that were promoted own the first slots, in that order. -/
structure Slab (sys : System) (s : ClassLeaves) : Prop where
  nodup : s.promotions.Nodup
  lt : ∀ l ∈ s.promotions, l < leafCount
  promoted : s.promoted = s.promotions.length
  filled : (granted sys s.requests).length = (s.promoted + (chunkLeaves - 1)) / chunkLeaves
  chunks : ∀ k g, (granted sys s.requests)[k]? = some g → s.chunks k = g.base
  mixed : ∀ l, s.mixed l = if l ∈ s.promotions then s.slotAt (s.promotions.idxOf l) else 0
  present : ∀ l, member s.present l = decide (l ∈ s.promotions)

variable {sc : SizeClasses} {sys : System} {s s' : ClassLeaves} {leaf granule cls k j n : ℕ}

lemma slab_init (sys : System) (memory : ℕ → ℕ) : (init memory).Slab sys where
  nodup := List.nodup_nil
  lt _ hl := by contradiction
  promoted := rfl
  filled := by simp [granted, init, chunkLeaves]
  chunks _ _ hg := by contradiction
  mixed _ := rfl
  present l := by simp [member, init]

/-! ## Grants -/

lemma granted_succ (sys : System) (n : ℕ) :
    granted sys (n + 1) = granted sys n ++ (sys.answer n).toList := by
  rw [granted, List.range_succ, List.filterMap_append, ← granted]
  cases h : sys.answer n with
  | none => simp [h]
  | some g => simp [h]

lemma mem_granted {g : Grant} (h : g ∈ granted sys n) : ∃ i < n, sys.answer i = some g := by
  obtain ⟨i, hi, hg⟩ := List.mem_filterMap.mp h
  exact ⟨i, List.mem_range.mp hi, hg⟩

/-- Two grants do not overlap. -/
lemma granted_apart {g h : Grant} (hkj : k < j) (hg : (granted sys n)[k]? = some g)
    (hh : (granted sys n)[j]? = some h) :
    g.base + chunkBytes ≤ h.base ∨ h.base + chunkBytes ≤ g.base := by
  have hall : (granted sys n).Pairwise fun g h =>
      g.base + chunkBytes ≤ h.base ∨ h.base + chunkBytes ≤ g.base := by
    rw [granted, List.pairwise_filterMap]
    exact List.pairwise_lt_range.imp fun hij g hg h hh => sys.apart hij hg hh
  obtain ⟨hk, rfl⟩ := List.getElem?_eq_some_iff.mp hg
  obtain ⟨hj, rfl⟩ := List.getElem?_eq_some_iff.mp hh
  exact List.pairwise_iff_getElem.mp hall k j hk hj hkj

/-! ## Slots -/

/-- A slot in use lies in a grant. -/
lemma Slab.slot (h : s.Slab sys) (hk : k < s.promoted) :
    ∃ g, (granted sys s.requests)[k / chunkLeaves]? = some g ∧
      s.slotAt k = g.base + k % chunkLeaves * leafGranules := by
  have hlt : k / chunkLeaves < (granted sys s.requests).length := by
    rw [h.filled]
    simp only [chunkLeaves]
    omega
  refine ⟨_, List.getElem?_eq_getElem hlt, ?_⟩
  rw [slotAt, h.chunks _ _ (List.getElem?_eq_getElem hlt)]

lemma Slab.slot_ne_zero (h : s.Slab sys) (hk : k < s.promoted) : s.slotAt k ≠ 0 := by
  obtain ⟨g, hg, he⟩ := h.slot hk
  obtain ⟨i, -, hi⟩ := mem_granted (List.mem_of_getElem? hg)
  have := sys.ne_null hi
  omega

lemma places_apart {g h : Grant} (hkj : k < j)
    (hg : (granted sys n)[k / chunkLeaves]? = some g)
    (hh : (granted sys n)[j / chunkLeaves]? = some h) :
    g.base + k % chunkLeaves * leafGranules + leafGranules ≤
        h.base + j % chunkLeaves * leafGranules ∨
      h.base + j % chunkLeaves * leafGranules + leafGranules ≤
        g.base + k % chunkLeaves * leafGranules := by
  by_cases hc : k / chunkLeaves = j / chunkLeaves
  · rw [hc, hh] at hg
    obtain rfl := Option.some.inj hg
    simp only [chunkLeaves, leafGranules] at hc ⊢
    omega
  · have hlt : k / chunkLeaves < j / chunkLeaves :=
      lt_of_le_of_ne (Nat.div_le_div_right hkj.le) hc
    have := granted_apart hlt hg hh
    simp only [chunkBytes, chunkLeaves, leafGranules] at this ⊢
    omega

/-- Two slots in use share no byte. -/
lemma Slab.slots_apart (h : s.Slab sys) (hkj : k ≠ j) (hk : k < s.promoted) (hj : j < s.promoted) :
    s.slotAt k + leafGranules ≤ s.slotAt j ∨ s.slotAt j + leafGranules ≤ s.slotAt k := by
  obtain ⟨g, hg, hgk⟩ := h.slot hk
  obtain ⟨g', hg', hgj⟩ := h.slot hj
  rw [hgk, hgj]
  obtain hlt | hlt := Nat.lt_or_gt_of_ne hkj
  · exact places_apart hlt hg hg'
  · exact (places_apart hlt hg' hg).symm

lemma Slab.mixed_eq_zero (h : s.Slab sys) : s.mixed leaf = 0 ↔ leaf ∉ s.promotions := by
  rw [h.mixed]
  split_ifs with hl
  · have hlt := List.idxOf_lt_length_of_mem hl
    rw [← h.promoted] at hlt
    simp [h.slot_ne_zero hlt, hl]
  · simp [hl]

/-- Where the leaf lies that was promoted. -/
lemma Slab.mixed_of_mem (h : s.Slab sys) (hl : leaf ∈ s.promotions) :
    ∃ k < s.promoted, s.promotions.idxOf leaf = k ∧ s.mixed leaf = s.slotAt k := by
  have hlt := List.idxOf_lt_length_of_mem hl
  rw [← h.promoted] at hlt
  exact ⟨_, hlt, rfl, by rw [h.mixed, if_pos hl]⟩

/-- Codes of two granules are not in one byte. -/
lemma Slab.code_ne (h : s.Slab sys) {a b : ℕ} (hab : a ≠ b)
    (ha : s.mixed (leafIndex a) ≠ 0) (hb : s.mixed (leafIndex b) ≠ 0) :
    s.mixed (leafIndex a) + a % leafGranules ≠ s.mixed (leafIndex b) + b % leafGranules := by
  have hma := not_not.mp (mt h.mixed_eq_zero.mpr ha)
  have hmb := not_not.mp (mt h.mixed_eq_zero.mpr hb)
  obtain ⟨k, hk, hka, hsk⟩ := h.mixed_of_mem hma
  obtain ⟨j, hj, hjb, hsj⟩ := h.mixed_of_mem hmb
  by_cases hkj : k = j
  · have hl : leafIndex a = leafIndex b :=
      List.idxOf_inj hma |>.mp (hka.trans (hkj.trans hjb.symm))
    rw [hl]
    simp only [leafIndex, leafGranules] at hl ⊢
    omega
  · have := h.slots_apart hkj hk hj
    rw [hsk, hsj]
    simp only [leafGranules] at this ⊢
    omega

/-- Fewer leaves are promoted than there are while one is not. -/
lemma Slab.promoted_le (h : s.Slab sys) : s.promoted ≤ leafCount := by
  rw [h.promoted]
  have := (h.nodup.subperm fun l hl => List.mem_range.mpr (h.lt l hl)).length_le
  rwa [List.length_range] at this

/-! ## Promotion -/

/-- After its chunk request, `s₁` has a place for the next slot of `s`. -/
structure Ready (sys : System) (s s₁ : ClassLeaves) : Prop where
  mixed : s₁.mixed = s.mixed
  present : s₁.present = s.present
  promoted : s₁.promoted = s.promoted
  promotions : s₁.promotions = s.promotions
  filled : (granted sys s₁.requests).length = s.promoted / chunkLeaves + 1
  chunks : ∀ k g, (granted sys s₁.requests)[k]? = some g → s₁.chunks k = g.base
  slots : ∀ k < s.promoted, s₁.slotAt k = s.slotAt k
  memory : ∀ k < s.promoted, ∀ i < leafGranules,
    s₁.memory (s.slotAt k + i) = s.memory (s.slotAt k + i)

/-- The chunk request of a promotion, where one is due. -/
lemma Slab.request (h : s.Slab sys) :
    let r := if s.promoted % chunkLeaves = 0 then s.requestChunk sys (s.promoted / chunkLeaves)
      else (s, true)
    (r = ({ s with requests := s.requests + 1 }, false) ∧ s.promoted % chunkLeaves = 0 ∧
      sys.answer s.requests = none) ∨ ∃ s₁, r = (s₁, true) ∧ Ready sys s s₁ := by
  have hfilled := h.filled
  by_cases h0 : s.promoted % chunkLeaves = 0
  · rw [if_pos h0, requestChunk]
    cases ha : sys.answer s.requests with
    | none => exact .inl ⟨rfl, h0, rfl⟩
    | some g =>
        have hold : (granted sys s.requests).length = s.promoted / chunkLeaves := by
          rw [hfilled]
          simp only [chunkLeaves] at h0 ⊢
          omega
        have hnew : granted sys (s.requests + 1) = granted sys s.requests ++ [g] := by
          rw [granted_succ, ha]
          rfl
        have hslot : ∀ k < s.promoted, k / chunkLeaves ≠ s.promoted / chunkLeaves := by
          intro k hk
          simp only [chunkLeaves] at h0 ⊢
          omega
        refine .inr ⟨_, rfl, rfl, rfl, rfl, rfl, ?_, fun k g' hg' => ?_, fun k hk => ?_,
          fun k hk i hi => ?_⟩
        · change (granted sys (s.requests + 1)).length = _
          rw [hnew, List.length_append, hold]
          rfl
        · change (granted sys (s.requests + 1))[k]? = some g' at hg'
          change Function.update s.chunks (s.promoted / chunkLeaves) g.base k = _
          rw [hnew] at hg'
          by_cases hk : k = s.promoted / chunkLeaves
          · subst k
            rw [← hold, List.getElem?_concat_length] at hg'
            rw [Function.update_self, Option.some.inj hg']
          · have hlt := (List.getElem?_eq_some_iff.mp hg').1
            rw [List.length_append, hold, List.length_singleton] at hlt
            rw [List.getElem?_append_left (by omega)] at hg'
            rw [Function.update_of_ne hk]
            exact h.chunks k g' hg'
        · change Function.update s.chunks (s.promoted / chunkLeaves) g.base (k / chunkLeaves) + _ = _
          rw [Function.update_of_ne (hslot k hk), slotAt]
        · obtain ⟨g', hg', he⟩ := h.slot hk
          obtain ⟨m, hm, ha'⟩ := mem_granted (List.mem_of_getElem? hg')
          have hapart := sys.apart hm ha' ha
          have hnot : ¬ g.Spans (s.slotAt k + i) := by
            rw [he]
            simp only [Grant.Spans, chunkBytes, chunkLeaves, leafGranules] at hapart hi ⊢
            omega
          exact if_neg hnot
  · rw [if_neg h0]
    refine .inr ⟨s, rfl, rfl, rfl, rfl, rfl, ?_, h.chunks, fun _ _ => rfl, fun _ _ _ _ => rfl⟩
    rw [hfilled]
    simp only [chunkLeaves] at h0 ⊢
    omega

/-- The next slot is in the youngest grant. -/
lemma Ready.fresh {s₁ : ClassLeaves} (h : Ready sys s s₁) :
    ∃ g, (granted sys s₁.requests)[s.promoted / chunkLeaves]? = some g ∧
      s₁.slotAt s.promoted = g.base + s.promoted % chunkLeaves * leafGranules := by
  have hlast : s.promoted / chunkLeaves < (granted sys s₁.requests).length := by
    rw [h.filled]
    exact Nat.lt_succ_self _
  have hg := List.getElem?_eq_getElem hlast
  exact ⟨_, hg, by rw [slotAt, h.chunks _ _ hg]⟩

lemma Ready.fresh_ne_zero {s₁ : ClassLeaves} (h : Ready sys s s₁) : s₁.slotAt s.promoted ≠ 0 := by
  obtain ⟨g, hg, he⟩ := h.fresh
  obtain ⟨m, -, hm⟩ := mem_granted (List.mem_of_getElem? hg)
  have := sys.ne_null hm
  omega

/-- The next slot is apart from the slots in use. -/
lemma Ready.fresh_apart {s₁ : ClassLeaves} (h : Ready sys s s₁) (hk : k < s.promoted) :
    s.slotAt k + leafGranules ≤ s₁.slotAt s.promoted ∨
      s₁.slotAt s.promoted + leafGranules ≤ s.slotAt k := by
  obtain ⟨g, hg, he⟩ := h.fresh
  have hkin : k / chunkLeaves < (granted sys s₁.requests).length := by
    rw [h.filled]
    exact Nat.lt_succ_of_le (Nat.div_le_div_right hk.le)
  have hg' := List.getElem?_eq_getElem hkin
  rw [he, ← h.slots k hk, slotAt, h.chunks _ _ hg']
  exact places_apart hk hg' hg

/-- The leaf is zeroed in its slot and published. -/
def install (leaf fresh : ℕ) (s : ClassLeaves) : ClassLeaves :=
  { s with
    promoted := s.promoted + 1
    memory := fun a => if fresh ≤ a ∧ a < fresh + leafGranules then 0 else s.memory a
    mixed := Function.update s.mixed leaf fresh
    present := Function.update s.present (leaf / 64) (s.present (leaf / 64) ||| bit (leaf % 64))
    promotions := s.promotions ++ [leaf] }

lemma promote_eq {s₁ : ClassLeaves}
    (hr : (if s.promoted % chunkLeaves = 0 then s.requestChunk sys (s.promoted / chunkLeaves)
      else (s, true)) = (s₁, true)) (hpromoted : s₁.promoted = s.promoted)
    (hfresh : s₁.slotAt s.promoted ≠ 0) (leaf : ℕ) :
    s.promote sys leaf = (s₁.install leaf (s₁.slotAt s.promoted), true) := by
  rw [ClassLeaves.promote, nextLeafSlot, hr]
  dsimp only
  change (if s₁.slotAt s.promoted = 0 then _ else _) = _
  rw [if_neg hfresh, install, hpromoted]
  rfl

/-- What a promotion leaves to the other leaves. -/
structure Extends (s s' : ClassLeaves) : Prop where
  pointers : ∀ l, s.mixed l ≠ 0 → s'.mixed l = s.mixed l
  codes : ∀ g, s'.encoded g = s.encoded g

lemma Extends.refl (s : ClassLeaves) : Extends s s := ⟨fun _ _ => rfl, fun _ => rfl⟩

/-- A promotion takes the next slot, or System refused its chunk and it changes nothing. -/
lemma Slab.promote (h : s.Slab sys) (hleaf : leaf < leafCount) (hnew : s.mixed leaf = 0) :
    (s.promote sys leaf = ({ s with requests := s.requests + 1 }, false) ∧
      s.promoted % chunkLeaves = 0 ∧ sys.answer s.requests = none) ∨
    ∃ s', s.promote sys leaf = (s', true) ∧ s'.Slab sys ∧ Extends s s' ∧
      s'.promotions = s.promotions ++ [leaf] := by
  have hmem := h.mixed_eq_zero.mp hnew
  obtain ⟨hr, h0, ha⟩ | ⟨s₁, hr, hready⟩ := h.request
  · rw [ClassLeaves.promote, nextLeafSlot, hr]
    exact .inl ⟨rfl, h0, ha⟩
  · have hfresh := hready.fresh_ne_zero
    rw [promote_eq hr hready.promoted hfresh]
    refine .inr ⟨_, rfl, ⟨?_, ?_, ?_, ?_, hready.chunks, fun l => ?_, fun l => ?_⟩,
      ⟨fun l hl => ?_, fun g => ?_⟩, by rw [install, hready.promotions]⟩
    · simp only [install, hready.promotions]
      rw [← List.concat_eq_append]
      exact h.nodup.concat hmem
    · simp only [install, hready.promotions]
      intro l hl
      obtain hl | hl := List.mem_append.mp hl
      · exact h.lt l hl
      · rwa [List.mem_singleton.mp hl]
    · simp only [install, hready.promoted, hready.promotions, List.length_append,
        List.length_singleton, h.promoted]
    · simp only [install, hready.filled, hready.promoted, chunkLeaves]
      omega
    · have hslots : ∀ k < s.promoted, s₁.slotAt k = s.slotAt k := hready.slots
      change Function.update s₁.mixed leaf (s₁.slotAt s.promoted) l =
        if l ∈ s₁.promotions ++ [leaf] then s₁.slotAt ((s₁.promotions ++ [leaf]).idxOf l) else 0
      rw [hready.mixed, hready.promotions]
      by_cases hl : l = leaf
      · subst l
        rw [Function.update_self, if_pos (by simp), List.idxOf_append_of_notMem hmem]
        simp [slotAt, h.promoted]
      · rw [Function.update_of_ne hl, h.mixed]
        by_cases hin : l ∈ s.promotions
        · have hlt := List.idxOf_lt_length_of_mem hin
          rw [if_pos hin, if_pos (by simp [hin]), List.idxOf_append_of_mem hin]
          exact (hslots _ (h.promoted ▸ hlt)).symm
        · rw [if_neg hin, if_neg (by simp [hin, hl])]
    · simp only [install, member_set, hready.present, h.present, hready.promotions]
      by_cases hl : l = leaf <;> simp [hl]
    · have hlne : l ≠ leaf := by
        rintro rfl
        exact hl hnew
      change Function.update s₁.mixed leaf (s₁.slotAt s.promoted) l = _
      rw [Function.update_of_ne hlne, hready.mixed]
    · simp only [encoded, install, hready.mixed]
      by_cases hg : leafIndex g = leaf
      · -- A leaf starts with the codes that no leaf gave.
        have hlt : g % leafGranules < leafGranules := Nat.mod_lt _ (by decide)
        rw [hg, Function.update_self, if_neg hfresh, hnew, if_pos rfl, if_pos (by omega)]
      · rw [Function.update_of_ne hg]
        split_ifs with hz hin
        · rfl
        · obtain ⟨k, hk, -, hsk⟩ := h.mixed_of_mem (not_not.mp (mt h.mixed_eq_zero.mpr hz))
          have hapart := hready.fresh_apart hk
          have hlt : g % leafGranules < leafGranules := Nat.mod_lt _ (by decide)
          omega
        · obtain ⟨k, hk, -, hsk⟩ := h.mixed_of_mem (not_not.mp (mt h.mixed_eq_zero.mpr hz))
          rw [hsk]
          exact hready.memory k hk _ (Nat.mod_lt _ (by decide))

end ClassLeaves

end SeferAlloc
