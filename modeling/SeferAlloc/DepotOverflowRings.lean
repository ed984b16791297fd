import SeferAlloc.DepotOverflow
import SeferAlloc.SmallSegmentOperations

/-!
# The rings of the depot overflow

Every ring stays within its region of the reservation, so a record of one class
never overwrites another. A park appends one record, a reload takes the last
and the decay the first; no other call moves a record.
-/
namespace SeferAlloc
namespace Small
open BitWord RingBuffer

namespace DepotOverflow

/-- The rings lie within their regions, and only classes with records have decay debt. -/
structure Wf (sc : SizeClasses) (o : DepotOverflow) : Prop where
  inert : o.active = false → ∀ c, o.len c = 0 ∧ o.head c = 0
  len_le : ∀ c, o.len c ≤ o.cap c
  head_lt : ∀ c, o.cap c ≠ 0 → o.head c < o.cap c
  classes : ∀ c, o.len c ≠ 0 → c < sc.depotClasses
  owed : ∀ c, o.debtMask.getLsbD c = true ↔ o.debt c ≠ 0
  debt_le : ∀ c, o.debt c ≤ o.len c
  apart : o.active = true → ∀ c k, c < k → k < sc.depotClasses →
    o.off c + o.cap c * recBytes ≤ o.off k

/-- No record moves. -/
structure Keeps (sc : SizeClasses) (o o' : DepotOverflow) : Prop where
  wf : o'.Wf sc
  ring : o'.ring = o.ring
  len : o'.len = o.len

/-- What `Wf` and the rings depend on besides the debts. -/
structure SameRings (o o' : DepotOverflow) : Prop where
  active : o'.active = o.active
  len : o'.len = o.len
  head : o'.head = o.head
  cap : o'.cap = o.cap
  off : o'.off = o.off
  memory : o'.memory = o.memory

variable {sc : SizeClasses} {o o' : DepotOverflow} {c k n : ℕ}

lemma SameRings.ring (h : SameRings o o') : o'.ring = o.ring := by
  funext c
  unfold DepotOverflow.ring
  rw [h.len, h.head, h.cap]
  apply entries_congr
  intro i _
  simp only [cells, record, h.off, h.memory]

lemma SameRings.keeps (h : SameRings o o') (hw : o.Wf sc)
    (howed : ∀ c, o'.debtMask.getLsbD c = true ↔ o'.debt c ≠ 0)
    (hdebt : ∀ c, o'.debt c ≤ o.len c) : Keeps sc o o' := by
  refine ⟨⟨?_, ?_, ?_, ?_, howed, ?_, ?_⟩, h.ring, h.len⟩
  · rw [h.active, h.len, h.head]
    exact hw.inert
  · rw [h.len, h.cap]
    exact hw.len_le
  · rw [h.head, h.cap]
    exact hw.head_lt
  · rw [h.len]
    exact hw.classes
  · rw [h.len]
    exact hdebt
  · rw [h.active, h.off, h.cap]
    exact hw.apart

lemma Wf.keeps (hw : o.Wf sc) (h : SameRings o o') (hmask : o'.debtMask = o.debtMask)
    (hdebt : o'.debt = o.debt) : Keeps sc o o' := by
  apply h.keeps hw
  · rw [hmask, hdebt]
    exact hw.owed
  · rw [hdebt]
    exact hw.debt_le

lemma Keeps.refl (hw : o.Wf sc) : Keeps sc o o := ⟨hw, rfl, rfl⟩

lemma Keeps.trans {o₁ o₂ o₃ : DepotOverflow} (h : Keeps sc o₁ o₂) (h' : Keeps sc o₂ o₃) :
    Keeps sc o₁ o₃ :=
  ⟨h'.wf, h'.ring.trans h.ring, h'.len.trans h.len⟩

lemma wf_empty (sc : SizeClasses) : empty.Wf sc := by
  constructor <;> simp [empty]

lemma ring_eq_nil (h : o.len c = 0) : o.ring c = [] := by
  simp [DepotOverflow.ring, h, entries]

/-! ## Quiet calls -/

lemma Wf.tick (hw : o.Wf sc) : Keeps sc o o.tick.1 := by
  unfold DepotOverflow.tick
  split_ifs
  · exact .refl hw
  · exact hw.keeps ⟨rfl, rfl, rfl, rfl, rfl, rfl⟩ rfl rfl

lemma Wf.starve (hw : o.Wf sc) (c : ℕ) : Keeps sc o (o.starve c) :=
  hw.keeps ⟨rfl, rfl, rfl, rfl, rfl, rfl⟩ rfl rfl

lemma Wf.disarm (hw : o.Wf sc) (c : ℕ) : Keeps sc o (o.disarm c) :=
  hw.keeps ⟨rfl, rfl, rfl, rfl, rfl, rfl⟩ rfl rfl

lemma Wf.disarmAll (hw : o.Wf sc) : Keeps sc o o.disarmAll :=
  hw.keeps ⟨rfl, rfl, rfl, rfl, rfl, rfl⟩ rfl rfl

lemma Wf.ingressDue (hw : o.Wf sc) : Keeps sc o o.ingressDue :=
  hw.keeps ⟨rfl, rfl, rfl, rfl, rfl, rfl⟩ rfl rfl

lemma Wf.arm (hw : o.Wf sc) : Keeps sc o (o.arm sc).1 := by
  unfold DepotOverflow.arm
  split_ifs
  · exact .refl hw
  · exact hw.keeps ⟨rfl, rfl, rfl, rfl, rfl, rfl⟩ rfl rfl

lemma Wf.takeUnstarved (hw : o.Wf sc) (budget : ℕ) : Keeps sc o (o.takeUnstarved sc budget).1 := by
  unfold DepotOverflow.takeUnstarved
  split_ifs
  · exact .refl hw
  · exact hw.keeps ⟨rfl, rfl, rfl, rfl, rfl, rfl⟩ rfl rfl

lemma class_lt (hc : c < sc.depotClasses) : c < 64 := by
  have h1 := sc.depotClasses_le
  have h2 := sc.count_le
  have h3 : sc.count = sc.table.length := rfl
  omega

/-- The mask holds the classes that owe something. -/
lemma owed_setDebt (h : ∀ k, o.debtMask.getLsbD k = true ↔ o.debt k ≠ 0) (hc : c < 64) (d k : ℕ) :
    (o.setDebt c d).debtMask.getLsbD k = true ↔ (o.setDebt c d).debt k ≠ 0 := by
  simp only [setDebt]
  by_cases hkc : k = c
  · subst k
    rw [Function.update_self]
    split_ifs with h0
    · rw [getLsbD_clear_bit]
      simp [h0]
    · rw [getLsbD_or_bit hc]
      simp [h0]
  · rw [Function.update_of_ne hkc, ← h k]
    split_ifs
    · rw [getLsbD_clear_bit]
      simp [hkc]
    · rw [BitVec.getLsbD_or, getLsbD_bit]
      simp [hkc]

lemma Wf.endEpochClass (hw : o.Wf sc) (parked : Word) (hc : c < sc.depotClasses) :
    Keeps sc o (endEpochClass parked o c) := by
  have hsame : SameRings o (DepotOverflow.endEpochClass parked o c) :=
    ⟨rfl, rfl, rfl, rfl, rfl, rfl⟩
  apply hsame.keeps hw (owed_setDebt hw.owed (class_lt hc) _)
  intro k
  simp only [DepotOverflow.endEpochClass, setDebt]
  by_cases hk : k = c
  · subst k
    rw [Function.update_self]
    split_ifs <;> omega
  · rw [Function.update_of_ne hk]
    exact hw.debt_le k

lemma Wf.endEpoch (hw : o.Wf sc) (floorParked : Word) : Keeps sc o (o.endEpoch sc floorParked) := by
  have hfold : ∀ (cs : List ℕ) (parked : Word) (o : DepotOverflow), o.Wf sc →
      (∀ c ∈ cs, c < sc.depotClasses) →
      Keeps sc o (cs.foldl (DepotOverflow.endEpochClass parked) o) := by
    intro cs parked
    induction cs with
    | nil => exact fun o hw _ => .refl hw
    | cons c cs ih =>
        intro o hw hcs
        have h := hw.endEpochClass parked (hcs c List.mem_cons_self)
        exact h.trans (ih _ h.wf fun k hk => hcs k (List.mem_cons_of_mem _ hk))
  have h := hfold (List.range sc.depotClasses) (o.parkedInEpoch ||| floorParked) o hw
    fun c hc => List.mem_range.mp hc
  exact h.trans (h.wf.keeps ⟨rfl, rfl, rfl, rfl, rfl, rfl⟩ rfl rfl)

/-- A class whose debt is due has a record. -/
lemma Wf.debtClass (hw : o.Wf sc) (h : o.debtClass = some c) : o.len c ≠ 0 := by
  unfold DepotOverflow.debtClass at h
  split_ifs at h with h0
  obtain rfl := Option.some.inj h
  have h1 := (hw.owed _).mp (getLsbD_trailingZeros h0)
  have h2 := hw.debt_le (trailingZeros o.debtMask)
  omega

/-! ## The reservation -/

lemma regionStart_mono (sc : SizeClasses) {page : ℕ} (hp : 0 < page) (budget : ℕ) (h : c < k) :
    regionStart sc page budget c + capFor sc budget c * recBytes ≤ regionStart sc page budget k := by
  have hstep : ∀ j, regionStart sc page budget (j + 1) =
      regionStart sc page budget j + regionBytes sc page budget j := by
    intro j
    simp [regionStart, List.range_succ]
  have hregion : capFor sc budget c * recBytes ≤ regionBytes sc page budget c := (alignUp_spec hp).1
  induction k with
  | zero => omega
  | succ k ih =>
      rw [hstep k]
      by_cases hk : c = k
      · subst k
        omega
      · have := ih (by omega)
        omega

/-- The layout is settled while every ring is empty. -/
lemma Wf.layout (hw : o.Wf sc) {page : ℕ} (hp : 0 < page) {budget : ℕ}
    (hzero : ∀ c, o.len c = 0 ∧ o.head c = 0) (hlen : o'.len = o.len) (hhead : o'.head = o.head)
    (hdebt : o'.debt = o.debt) (hmask : o'.debtMask = o.debtMask)
    (hcap : o'.cap = fun c => if c < sc.depotClasses then capFor sc budget c % 2 ^ 16 else o.cap c)
    (hoff : o'.off = fun c =>
      if c < sc.depotClasses then regionStart sc page budget c else o.off c) : Keeps sc o o' := by
  refine ⟨⟨?_, ?_, ?_, ?_, ?_, ?_, ?_⟩, ?_, hlen⟩
  · rw [hlen, hhead]
    exact fun _ => hzero
  · intro c
    rw [hlen, (hzero c).1]
    omega
  · intro c hc
    rw [hhead, (hzero c).2]
    omega
  · rw [hlen]
    exact hw.classes
  · rw [hmask, hdebt]
    exact hw.owed
  · rw [hdebt, hlen]
    exact hw.debt_le
  · intro _ c k hck hk
    rw [hcap, hoff]
    simp only [hk, hck.trans hk, if_true]
    have h1 := regionStart_mono sc hp budget hck
    have h2 : capFor sc budget c % 2 ^ 16 * recBytes ≤ capFor sc budget c * recBytes :=
      Nat.mul_le_mul_right _ (Nat.mod_le _ _)
    omega
  · funext c
    rw [ring_eq_nil (by rw [hlen]; exact (hzero c).1), ring_eq_nil (hzero c).1]

lemma Wf.ensureReserved (hw : o.Wf sc) {page : ℕ} (hp : 0 < page) (budget : ℕ) (ok : Bool) :
    Keeps sc o (o.ensureReserved sc page budget ok).1 ∧
      ((o.ensureReserved sc page budget ok).2 = true →
        (o.ensureReserved sc page budget ok).1.active = true) := by
  unfold DepotOverflow.ensureReserved
  dsimp only
  by_cases ha : o.active = true
  · rw [if_pos ha]
    exact ⟨.refl hw, fun _ => ha⟩
  · have hzero := hw.inert (by simpa using ha)
    rw [if_neg ha]
    split_ifs
    · exact ⟨.refl hw, by simp⟩
    · exact ⟨hw.layout hp hzero rfl rfl rfl rfl rfl rfl, by simp⟩
    · exact ⟨hw.layout hp hzero rfl rfl rfl rfl rfl rfl, fun _ => rfl⟩
    · exact ⟨hw.layout hp hzero rfl rfl rfl rfl rfl rfl, by simp⟩

lemma Wf.ensureCommitted (hw : o.Wf sc) {page idx : ℕ} {ok : Bool}
    (h : o.ensureCommitted page c idx ok = some o') : Keeps sc o o' ∧ SameRings o o' := by
  unfold DepotOverflow.ensureCommitted at h
  dsimp only at h
  split_ifs at h <;> obtain rfl := Option.some.inj h
  · exact ⟨.refl hw, rfl, rfl, rfl, rfl, rfl, rfl⟩
  · exact ⟨hw.keeps ⟨rfl, rfl, rfl, rfl, rfl, rfl⟩ rfl rfl, rfl, rfl, rfl, rfl, rfl, rfl⟩

/-! ## Records move -/

/-- Records of one ring, or of two, do not share their place. -/
lemma Wf.record_ne (hw : o.Wf sc) (ha : o.active = true) (hc : c < sc.depotClasses)
    (hk : k < sc.depotClasses) (hck : c ≠ k) {i j : ℕ} (hi : i < o.cap c) (hj : j < o.cap k) :
    o.record c i ≠ o.record k j := by
  have h1 := Nat.mul_le_mul_right recBytes (show i + 1 ≤ o.cap c from hi)
  have h2 := Nat.mul_le_mul_right recBytes (show j + 1 ≤ o.cap k from hj)
  simp only [record, recBytes] at h1 h2 ⊢
  rcases Nat.lt_or_gt_of_ne hck with h | h
  · have := hw.apart ha c k h hk
    simp only [recBytes] at this
    omega
  · have := hw.apart ha k c h hc
    simp only [recBytes] at this
    omega

lemma Wf.slot_lt (hw : o.Wf sc) {i : ℕ} (hi : i < o.cap c) : o.slot c i < o.cap c :=
  cell_lt (hw.head_lt c (by omega)) hi

/-- The record behind the youngest is written. -/
lemma Wf.write (hw : o.Wf sc) (ha : o.active = true) (hc : c < sc.depotClasses)
    (hroom : o.len c < o.cap c) (mag : Row) :
    (o.write sc c (o.slot c (o.len c)) mag).Wf sc ∧
      (o.write sc c (o.slot c (o.len c)) mag).ring =
        Function.update o.ring c (o.ring c ++ [mag]) := by
  constructor
  · refine ⟨?_, ?_, hw.head_lt, ?_, hw.owed, ?_, hw.apart⟩
    · intro hf
      simp only [DepotOverflow.write] at hf
      rw [ha] at hf
      contradiction
    · intro k
      simp only [DepotOverflow.write]
      by_cases hk : k = c
      · subst k
        rw [Function.update_self]
        exact hroom
      · rw [Function.update_of_ne hk]
        exact hw.len_le k
    · intro k
      simp only [DepotOverflow.write]
      by_cases hk : k = c
      · subst k
        exact fun _ => hc
      · rw [Function.update_of_ne hk]
        exact hw.classes k
    · intro k
      simp only [DepotOverflow.write]
      have := hw.debt_le k
      by_cases hk : k = c
      · subst k
        rw [Function.update_self]
        omega
      · rwa [Function.update_of_ne hk]
  · funext k
    by_cases hk : k = c
    · subst k
      rw [Function.update_self]
      simp only [DepotOverflow.ring, DepotOverflow.write, Function.update_self]
      rw [← entries_push _ _ hroom]
      congr 1
      funext idx
      simp only [cells, record, slot]
      by_cases hidx : idx = cell (o.cap c) (o.head c) (o.len c)
      · rw [hidx, Function.update_self, Function.update_self]
      · have hne : o.off c + idx * recBytes ≠
            o.off c + cell (o.cap c) (o.head c) (o.len c) * recBytes := by
          intro he
          simp only [recBytes] at he
          omega
        rw [Function.update_of_ne hidx, Function.update_of_ne hne]
        rfl
    · rw [Function.update_of_ne hk]
      simp only [DepotOverflow.ring, DepotOverflow.write, Function.update_of_ne hk]
      apply entries_congr
      intro i hi
      have hik := lt_of_lt_of_le hi (hw.len_le k)
      have hkc := hw.classes k (by omega)
      exact Function.update_of_ne (hw.record_ne ha hkc hc hk (hw.slot_lt hik)
        (hw.slot_lt hroom)) _ _

/-- A park appends a record, or moves none. -/
lemma Wf.park (hw : o.Wf sc) {page : ℕ} (hp : 0 < page) (hc : c < sc.depotClasses) (mag : Row)
    (budget : ℕ) (reserve commit : Bool) :
    (∃ o', o.park sc page c (o.len c) mag budget reserve commit = (o', true) ∧ o'.Wf sc ∧
      o'.ring = Function.update o.ring c (o.ring c ++ [mag])) ∨
    ∃ o', o.park sc page c (o.len c) mag budget reserve commit = (o', false) ∧ Keeps sc o o' := by
  obtain ⟨hkeeps, hactive⟩ := hw.ensureReserved hp budget reserve
  unfold DepotOverflow.park
  split_ifs
  · exact .inr ⟨o, rfl, .refl hw⟩
  · cases hr : o.ensureReserved sc page budget reserve with
    | mk o₁ ok =>
        rw [hr] at hkeeps hactive
        cases ok with
        | false => exact .inr ⟨o₁, rfl, hkeeps⟩
        | true =>
            dsimp only
            split_ifs with hfull
            · exact .inr ⟨o₁, rfl, hkeeps⟩
            · cases he : o₁.ensureCommitted page c (o₁.slot c (o.len c)) commit with
              | none => exact .inr ⟨o₁, rfl, hkeeps⟩
              | some o₂ =>
                  obtain ⟨hk₂, hs₂⟩ := hkeeps.wf.ensureCommitted he
                  have hlen : o₂.len = o.len := hk₂.len.trans hkeeps.len
                  have hroom : o₂.len c < o₂.cap c := by
                    rw [hlen, hs₂.cap]
                    exact not_le.mp hfull
                  obtain ⟨hw₃, hring⟩ := hk₂.wf.write
                    (by rw [hs₂.active]; exact hactive rfl) hc hroom mag
                  rw [hk₂.ring, hkeeps.ring, hlen] at hring
                  rw [hlen] at hw₃
                  exact .inl ⟨_, rfl, hw₃, hring⟩

lemma Wf.parkSimple (hw : o.Wf sc) {mag : Row} {budget : ℕ}
    (h : o.parkSimple sc c mag budget = some o') :
    o'.Wf sc ∧ o'.ring = Function.update o.ring c (o.ring c ++ [mag]) := by
  unfold DepotOverflow.parkSimple at h
  dsimp only at h
  split_ifs at h with h1 h2
  obtain rfl := Option.some.inj h
  simp only [not_or] at h1
  obtain ⟨h0, hroom, -, ha, -, -⟩ := h1
  obtain ⟨hw', hring⟩ := hw.write (by simpa using ha) (hw.classes c h0)
    (show o.len c < o.cap c by omega) mag
  have hk : Keeps sc _ { o.write sc c (o.slot c (o.len c)) mag with events := o.events + 1 } :=
    hw'.keeps ⟨rfl, rfl, rfl, rfl, rfl, rfl⟩ rfl rfl
  exact ⟨hk.wf, hk.ring.trans hring⟩

/-- The ring without its youngest record. -/
lemma ring_pop (hlen : o'.len = Function.update o.len c (o.len c - 1)) (hcap : o'.cap = o.cap)
    (hhead : o'.head = o.head) (hoff : o'.off = o.off) (hmem : o'.memory = o.memory)
    (h0 : o.len c ≠ 0) :
    o.ring = Function.update o'.ring c (o'.ring c ++ [o.cells c (o.slot c (o.len c - 1))]) := by
  have hcells : ∀ k, o'.cells k = o.cells k := by
    intro k
    funext idx
    simp only [cells, record, hoff, hmem]
  funext k
  by_cases hk : k = c
  · subst k
    obtain ⟨n, hn⟩ := Nat.exists_eq_succ_of_ne_zero h0
    rw [Function.update_self]
    simp only [DepotOverflow.ring, hcap, hhead, hcells, hlen, Function.update_self, hn,
      Nat.succ_eq_add_one, Nat.add_sub_cancel]
    rw [entries_succ]
    rfl
  · rw [Function.update_of_ne hk]
    simp only [DepotOverflow.ring, hcap, hhead, hcells, hlen, Function.update_of_ne hk]

/-- A shorter ring that stays in its region. -/
lemma Wf.shrink (hw : o.Wf sc) (hactive : o'.active = o.active)
    (hlen : o'.len = Function.update o.len c (o.len c - 1)) (hcap : o'.cap = o.cap)
    (hoff : o'.off = o.off) (hhead : ∀ k, o.cap k ≠ 0 → o'.head k < o.cap k)
    (h0 : o.len c ≠ 0) (howed : ∀ k, o'.debtMask.getLsbD k = true ↔ o'.debt k ≠ 0)
    (hdebt : ∀ k, o'.debt k ≤ o'.len k) : o'.Wf sc := by
  have hle : ∀ k, o'.len k ≤ o.len k := by
    intro k
    rw [hlen]
    by_cases hk : k = c
    · subst k
      rw [Function.update_self]
      omega
    · rw [Function.update_of_ne hk]
  refine ⟨?_, ?_, ?_, ?_, howed, hdebt, ?_⟩
  · intro hf
    rw [hactive] at hf
    exact absurd (hw.inert hf c).1 h0
  · intro k
    rw [hcap]
    exact (hle k).trans (hw.len_le k)
  · rw [hcap]
    exact hhead
  · intro k hk
    have := hle k
    exact hw.classes k (by omega)
  · rw [hactive, hoff, hcap]
    exact hw.apart

lemma Wf.reload (hw : o.Wf sc) (h0 : o.len c ≠ 0) :
    (o.reload sc c (o.len c)).1.Wf sc ∧
      (o.reload sc c (o.len c)).1.len = Function.update o.len c (o.len c - 1) ∧
      o.ring = Function.update (o.reload sc c (o.len c)).1.ring c
        ((o.reload sc c (o.len c)).1.ring c ++ [(o.reload sc c (o.len c)).2]) := by
  have hc := class_lt (hw.classes c h0)
  refine ⟨hw.shrink rfl rfl rfl rfl hw.head_lt h0 (owed_setDebt hw.owed hc _) ?_, rfl,
    ring_pop rfl rfl rfl rfl rfl h0⟩
  intro k
  simp only [DepotOverflow.reload, setDebt]
  by_cases hk : k = c
  · subst k
    simp
  · rw [Function.update_of_ne hk, Function.update_of_ne hk]
    exact hw.debt_le k

lemma Wf.reloadSimple (hw : o.Wf sc) {row : Row} {more : Bool}
    (h : o.reloadSimple sc c = some (o', row, more)) :
    o.len c ≠ 0 ∧ o'.Wf sc ∧ o.ring = Function.update o'.ring c (o'.ring c ++ [row]) := by
  unfold DepotOverflow.reloadSimple at h
  dsimp only at h
  by_cases h1 : o.len c = 0 ∨ o.debtMask ≠ 0 ∨ o.starved ≠ 0 ∨
      ingressPeriod ≤ o.reloadsSinceIngress + 1
  · rw [if_pos h1] at h
    contradiction
  by_cases h2 : o.bytes - sc.magBytes c ≠ 0 ∧ o.epochLen ≤ o.events + 1
  · rw [if_neg h1, if_pos h2] at h
    contradiction
  rw [if_neg h1, if_neg h2] at h
  simp only [Option.some.injEq, Prod.mk.injEq] at h
  obtain ⟨rfl, rfl, -⟩ := h
  simp only [not_or, not_not] at h1
  obtain ⟨h0, hmask, -⟩ := h1
  refine ⟨h0, hw.shrink rfl rfl rfl rfl hw.head_lt h0 hw.owed fun k => ?_,
    ring_pop rfl rfl rfl rfl rfl h0⟩
  have hnone : o.debt k = 0 := by
    by_contra hk
    have := (hw.owed k).mpr hk
    simp [hmask] at this
  simp [hnone]

/-- The decay takes the oldest record. -/
lemma Wf.popOldest (hw : o.Wf sc) (h0 : o.len c ≠ 0) :
    (o.popOldest sc c).1.Wf sc ∧
      (o.popOldest sc c).1.len = Function.update o.len c (o.len c - 1) ∧
      o.ring = Function.update (o.popOldest sc c).1.ring c
        ((o.popOldest sc c).2 :: (o.popOldest sc c).1.ring c) := by
  have hcap : o.len c ≤ o.cap c := hw.len_le c
  have hhead := hw.head_lt c (by omega)
  have hc := class_lt (hw.classes c h0)
  refine ⟨hw.shrink rfl rfl rfl rfl ?_ h0 (owed_setDebt hw.owed hc _) ?_, rfl, ?_⟩
  · intro k hk
    simp only [DepotOverflow.popOldest, setDebt]
    by_cases hkc : k = c
    · subst k
      rw [Function.update_self]
      exact cell_one_lt hhead
    · rw [Function.update_of_ne hkc]
      exact hw.head_lt k hk
  · intro k
    have := hw.debt_le k
    simp only [DepotOverflow.popOldest, setDebt]
    by_cases hk : k = c
    · subst k
      simp only [Function.update_self]
      omega
    · rwa [Function.update_of_ne hk, Function.update_of_ne hk]
  · funext k
    by_cases hk : k = c
    · subst k
      obtain ⟨n, hn⟩ := Nat.exists_eq_succ_of_ne_zero h0
      rw [Function.update_self]
      simp only [DepotOverflow.ring, DepotOverflow.popOldest, setDebt, Function.update_self, hn,
        Nat.succ_eq_add_one, Nat.add_sub_cancel]
      rw [entries_shift _ hhead (by omega)]
      rfl
    · rw [Function.update_of_ne hk]
      simp only [DepotOverflow.ring, DepotOverflow.popOldest, setDebt, Function.update_of_ne hk]
      rfl

/-- After a full drain the rings are reset where they are empty. -/
lemma Wf.releasePages (hw : o.Wf sc) (h : ∀ c, o.len c = 0) : Keeps sc o o.releasePages := by
  unfold DepotOverflow.releasePages
  split_ifs with ha
  · refine ⟨⟨?_, ?_, ?_, ?_, ?_, ?_, hw.apart⟩, ?_, ?_⟩
    · simp [resetRings]
    · simp [resetRings]
    · intro c hc
      simp only [resetRings] at hc ⊢
      omega
    · simp [resetRings]
    · simp [resetRings]
    · simp [resetRings]
    · funext c
      rw [ring_eq_nil (h c), ring_eq_nil rfl]
    · funext c
      simp [resetRings, h]
  · exact hw.keeps ⟨rfl, rfl, rfl, rfl, rfl, rfl⟩ rfl rfl

end DepotOverflow

end Small

end SeferAlloc
