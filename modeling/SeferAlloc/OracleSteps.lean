import Mathlib.Data.List.Perm.Basic
import SeferAlloc.OracleTrace

/-!
# The arms of the driver

Each arm is inverted once. It stops at a check, which then says what is wrong,
or it goes on, and then every check has passed.
-/
namespace SeferAlloc
namespace AllocatorOracle

/-! ## Checks -/

lemma orElse_eq_none {α : Type} {a b : Option α} : (a <|> b) = none ↔ a = none ∧ b = none := by
  cases a with
  | none => simp
  | some x => simp

lemma verifyBlock_eq_none {m : Memory} {ptr size : ℕ} {fill : UInt8} {oracle what : String}
    {step : ℕ} : verifyBlock m ptr size fill oracle step what = none ↔
      ∀ off < size, m (ptr + off) = patternByte fill off := by
  simp [verifyBlock, List.find?_eq_none]

lemma verifyZeroedBlock_eq_none {m : Memory} {ptr size opIdx : ℕ} :
    verifyZeroedBlock m ptr size opIdx = none ↔ ∀ off < size, m (ptr + off) = 0 := by
  simp [verifyZeroedBlock, List.find?_eq_none]

lemma verifyPrefixBlock_eq_none {m : Memory} {ptr len opIdx oldSize newSize : ℕ} {fill : UInt8} :
    verifyPrefixBlock m ptr len fill opIdx oldSize newSize = none ↔
      ∀ off < len, m (ptr + off) = patternByte fill off := by
  simp [verifyPrefixBlock, List.find?_eq_none]

lemma assertNoOverlap_eq_none {live : List Live} {skip : Option ℕ} {ptr size opIdx : ℕ} :
    assertNoOverlap live skip ptr size opIdx = none ↔
      ∀ i l, live[i]? = some l → skip ≠ some i → rangesOverlap ptr size l.ptr l.size = false := by
  rw [assertNoOverlap, Option.map_eq_none_iff, List.find?_eq_none]
  constructor
  · intro h i l hi hskip
    have hno := h (l, i) (List.mem_zipIdx_iff_getElem?.mpr hi)
    rw [decide_eq_true_eq, not_and, Bool.not_eq_true] at hno
    exact hno hskip
  · intro h p hp
    rw [decide_eq_true_eq, not_and, Bool.not_eq_true]
    exact h p.2 p.1 (List.mem_zipIdx_iff_getElem?.mp hp)

/-- A new block is compared with every block of the model. -/
lemma assertNoOverlap_none_eq_none {live : List Live} {ptr size opIdx : ℕ} :
    assertNoOverlap live none ptr size opIdx = none ↔
      ∀ l ∈ live, rangesOverlap ptr size l.ptr l.size = false := by
  rw [assertNoOverlap_eq_none]
  constructor
  · intro h l hl
    obtain ⟨i, hi⟩ := List.mem_iff_getElem?.mp hl
    exact h i l hi nofun
  · exact fun h i l hi _ => h l (List.mem_of_getElem? hi)

/-- A block that was resized is compared with the others. -/
lemma assertNoOverlap_some_eq_none {live : List Live} {k ptr size opIdx : ℕ} :
    assertNoOverlap live (some k) ptr size opIdx = none ↔
      ∀ l ∈ live.eraseIdx k, rangesOverlap ptr size l.ptr l.size = false := by
  rw [assertNoOverlap_eq_none]
  constructor
  · intro h l hl
    obtain ⟨i, hne, hi⟩ := List.mem_eraseIdx_iff_getElem?.mp hl
    exact h i l hi fun hk => hne (Option.some.inj hk).symm
  · intro h i l hi hne
    exact h l (List.mem_eraseIdx_iff_getElem?.mpr ⟨i, fun hk => hne (by rw [hk]), hi⟩)

lemma checkNull_eq_none {what : String} {ptr opIdx size originalSize align : ℕ} :
    checkNull what ptr opIdx size originalSize align = none ↔ ptr ≠ 0 := by
  rw [checkNull]
  split_ifs with h
  · simp [h]
  · simp [h]

lemma checkAligned_eq_none {what : String} {ptr opIdx size align : ℕ} :
    checkAligned what ptr opIdx size align = none ↔ align ∣ ptr := by
  rw [checkAligned, Nat.dvd_iff_mod_eq_zero]
  split_ifs with h
  · simp [h]
  · simp [h]

/-- Blocks that do not overlap pass, wherever they end. -/
lemma rangesOverlap_of_disjoint {b c : Block} (h : b.Disjoint c) :
    rangesOverlap b.ptr b.layout.size c.ptr c.layout.size = false := by
  unfold Block.Disjoint at h
  unfold rangesOverlap satAdd
  rcases h with h | h
  · simp [(min_le_left _ usizeMax).trans h]
  · simp [(min_le_left _ usizeMax).trans h]

/-- A saturated end hides an overlap in the last byte of the address space only. -/
lemma disjoint_of_rangesOverlap {b c : Block} (hb : b.ptr + b.layout.size ≤ usizeMax)
    (hc : c.ptr + c.layout.size ≤ usizeMax)
    (h : rangesOverlap b.ptr b.layout.size c.ptr c.layout.size = false) : b.Disjoint c := by
  unfold rangesOverlap satAdd at h
  rw [min_eq_left hb, min_eq_left hc] at h
  simpa [Block.Disjoint, or_iff_not_imp_left] using h

/-! ## Layouts -/

lemma Layout.fromSizeAlign_eq_some {size align : ℕ} {layout : Layout} :
    Layout.fromSizeAlign size align = some layout ↔
      layout = ⟨size, align⟩ ∧ align.isPowerOfTwo ∧ size ≤ isizeMax + 1 - align := by
  rw [fromSizeAlign, Option.ite_none_right_eq_some, Option.some.injEq]
  constructor
  · rintro ⟨h, rfl⟩
    exact ⟨rfl, h⟩
  · rintro ⟨rfl, h⟩
    exact ⟨h, rfl⟩

/-- A layout `from_size_align` accepts, with a size. -/
lemma Layout.admissible_of {size align : ℕ} (ha : align.isPowerOfTwo) (hpos : 0 < size)
    (hsize : size ≤ isizeMax + 1 - align) : Layout.Admissible ⟨size, align⟩ := by
  refine ⟨ha, hpos, ?_⟩
  have hdiv := Nat.div_mul_le_self (size + align - 1) align
  have halign := Nat.pos_of_isPowerOfTwo ha
  dsimp only
  omega

/-- The ceiling of the clamped sizes is the largest size `from_size_align` accepts. -/
lemma ceiling_eq {align : ℕ} (ha : align.isPowerOfTwo) (hle : align ≤ isizeMax) :
    isizeMax / align * align = isizeMax + 1 - align := by
  have hpos := Nat.pos_of_isPowerOfTwo ha
  obtain ⟨k, rfl⟩ := ha
  have hk : k ≤ 62 := by
    by_contra hlt
    have hpow := Nat.pow_le_pow_right (n := 2) (by decide) (Nat.lt_of_not_le hlt)
    have hmax : isizeMax < 2 ^ (62 + 1) := by decide
    omega
  have hmul : isizeMax + 1 = 2 ^ (63 - k) * 2 ^ k := by
    rw [← Nat.pow_add, Nat.sub_add_cancel (by omega)]
    decide
  have hbig : 0 < 2 ^ (63 - k) := Nat.two_pow_pos _
  have hdiv : isizeMax / 2 ^ k = 2 ^ (63 - k) - 1 := by
    apply Nat.div_eq_of_lt_le
    · rw [Nat.sub_mul]
      omega
    · rw [Nat.sub_add_cancel hbig]
      omega
  rw [hdiv, hmul, Nat.sub_mul, Nat.one_mul]

lemma clamp_le (x : ℕ) {lo hi : ℕ} (h : lo ≤ hi) : lo ≤ clamp x lo hi ∧ clamp x lo hi ≤ hi := by
  unfold clamp
  split_ifs <;> omega

/-- A clamped size makes a layout, whatever it was before. -/
lemma fromSizeAlign_clamp {align : ℕ} (ha : align.isPowerOfTwo) (hle : align ≤ isizeMax) (x : ℕ) :
    ∃ layout, layout = ⟨clamp x 1 (isizeMax / align * align), align⟩ ∧ layout.Admissible ∧
      Layout.fromSizeAlign layout.size align = some layout := by
  rw [ceiling_eq ha hle]
  have hone : 1 ≤ isizeMax + 1 - align := by omega
  obtain ⟨hpos, hmax⟩ := clamp_le x hone
  exact ⟨_, rfl, Layout.admissible_of ha hpos hmax,
    Layout.fromSizeAlign_eq_some.mpr ⟨rfl, ha, hmax⟩⟩

/-! ## The blocks of the model -/

def Live.block (l : Live) : Block := ⟨l.ptr, l.size, l.align⟩

/-- The block still carries its pattern. -/
def Live.Intact (l : Live) (m : Memory) : Prop :=
  ∀ off < l.size, m (l.ptr + off) = patternByte l.fill off

/-- The layout of the block can be built again. -/
structure Live.Valid (l : Live) : Prop where
  admissible : l.block.layout.Admissible
  built : Layout.fromSizeAlign l.size l.align = some l.block.layout

lemma Live.Valid.align_le {l : Live} (h : l.Valid) : l.align ≤ isizeMax := by
  obtain ⟨-, -, hsize⟩ := Layout.fromSizeAlign_eq_some.mp h.built
  have hpos : 0 < l.size := h.admissible.pos
  omega

section
variable {α : Type} {l : List α} {i : ℕ} {x : α}

lemma swapRemove_perm (h : l[i]? = some x) : (swapRemove l i).Perm (l.eraseIdx i) := by
  obtain rfl | ⟨init, z, rfl⟩ := List.eq_nil_or_concat' l
  · simp at h
  · have hi := (List.getElem?_eq_some_iff.mp h).1
    rw [swapRemove, List.getLast?_concat]
    dsimp only
    rw [List.length_append, List.length_singleton] at hi
    by_cases hlt : i < init.length
    · rw [List.set_append_left _ _ hlt, List.dropLast_concat, List.eraseIdx_append_of_lt_length hlt]
      exact (List.set_perm_cons_eraseIdx hlt z).trans (List.perm_append_singleton z _).symm
    · obtain rfl : i = init.length := by omega
      rw [List.set_append_right _ _ le_rfl, List.eraseIdx_append_of_length_le le_rfl]
      simp

lemma perm_cons_eraseIdx (h : l[i]? = some x) : l.Perm (x :: l.eraseIdx i) := by
  obtain ⟨hi, rfl⟩ := List.getElem?_eq_some_iff.mp h
  exact (List.getElem_cons_eraseIdx_perm hi).symm

lemma set_perm (h : l[i]? = some x) (y : α) : (l.set i y).Perm (y :: l.eraseIdx i) :=
  List.set_perm_cons_eraseIdx (List.getElem?_eq_some_iff.mp h).1 y

end

/-! ## The arms -/

section
variable {σ : Type} (A : RawAllocator σ) {st : State σ} {w : World σ} (opIdx : ℕ)

/-- The read-back after the fill never fails. -/
lemma enter_eq (what : String) (ptr size align : ℕ) (place : Live → List Live) (cycle : UInt8) :
    enter what ptr size align opIdx place cycle w =
      .ok ⟨place ⟨ptr, size, align, cycle, opIdx⟩, (nextFill cycle).2,
        w.fillBlock ptr size cycle⟩ := by
  have hread : verifyBlock (w.fillBlock ptr size cycle).memory ptr size cycle "M1" opIdx what =
      none := by
    rw [verifyBlock_eq_none]
    intro off hoff
    rw [World.fillBlock]
    simp only [filled]
    rw [if_pos (by omega), Nat.add_sub_cancel_left]
  have hfill : (nextFill cycle).1 = cycle := rfl
  simp only [enter, hfill, hread]

/-- The checks of a new block. -/
structure Placed (zeroed : Bool) (live : List Live) (layout : Layout) (ptr : ℕ) (m : Memory) :
    Prop where
  notNull : ptr ≠ 0
  aligned : layout.align ∣ ptr
  apart : ∀ l ∈ live, rangesOverlap ptr layout.size l.ptr l.size = false
  zero : zeroed = true → ∀ off < layout.size, m (ptr + off) = 0

lemma placed_iff {zeroed : Bool} {live : List Live} {layout : Layout} {ptr : ℕ} {m : Memory} :
    Placed zeroed live layout ptr m ↔ ptr ≠ 0 ∧ layout.align ∣ ptr ∧
      (∀ l ∈ live, rangesOverlap ptr layout.size l.ptr l.size = false) ∧
      (zeroed = true → ∀ off < layout.size, m (ptr + off) = 0) :=
  ⟨fun h => ⟨h.notNull, h.aligned, h.apart, h.zero⟩,
    fun h => ⟨h.1, h.2.1, h.2.2.1, h.2.2.2⟩⟩

/-- An arm that allocates rejects the alignment, or calls the allocator and checks the block. -/
lemma allocArm_cases (st : State σ) (zeroed : Bool) (size align : ℕ) :
    (¬(align.isPowerOfTwo ∧ align ≤ isizeMax) ∧
      ∃ p, allocArm A zeroed size align opIdx st = .error (p, st.world)) ∨
    ∃ layout r, layout.Admissible ∧ Layout.fromSizeAlign layout.size layout.align = some layout ∧
      st.world.callAlloc A zeroed layout = r ∧
      ((¬Placed zeroed st.live layout r.1 r.2.memory ∧
          ∃ p, allocArm A zeroed size align opIdx st = .error (p, r.2)) ∨
        (Placed zeroed st.live layout r.1 r.2.memory ∧
          allocArm A zeroed size align opIdx st =
            .ok ⟨st.live ++ [⟨r.1, layout.size, layout.align, st.cycle, opIdx⟩],
              (nextFill st.cycle).2, r.2.fillBlock r.1 layout.size st.cycle⟩)) := by
  unfold allocArm
  dsimp only
  by_cases halign : align.isPowerOfTwo ∧ align ≤ isizeMax
  · right
    have hone : Layout.fromSizeAlign 1 align ≠ none := by
      rw [Layout.fromSizeAlign, if_pos ⟨halign.1, by omega⟩]
      exact nofun
    rw [if_neg hone]
    obtain ⟨layout, hlayout, hadm, hbuilt⟩ := fromSizeAlign_clamp halign.1 halign.2 size
    have hsize : clamp size 1 (isizeMax / align * align) = layout.size := by rw [hlayout]
    obtain rfl : align = layout.align := by rw [hlayout]
    rw [hsize, hbuilt]
    refine ⟨layout, _, hadm, hbuilt, rfl, ?_⟩
    dsimp only
    generalize st.world.callAlloc A zeroed layout = r
    generalize hcheck : (checkNull _ r.1 opIdx layout.size size layout.align <|> _) = check
    have hplaced : check = none ↔ Placed zeroed st.live layout r.1 r.2.memory := by
      rw [← hcheck, placed_iff]
      simp only [orElse_eq_none, checkNull_eq_none, checkAligned_eq_none,
        assertNoOverlap_none_eq_none]
      cases zeroed with
      | false => simp
      | true => simp [verifyZeroedBlock_eq_none]
    cases check with
    | some p => exact .inl ⟨fun h => Option.some_ne_none p (hplaced.mpr h), p, rfl⟩
    | none => exact .inr ⟨hplaced.mp rfl, enter_eq _ _ _ _ _ _ _⟩
  · left
    refine ⟨halign, ?_⟩
    have hone : Layout.fromSizeAlign 1 align = none := by
      rw [Layout.fromSizeAlign, if_neg fun h => halign ⟨h.1, by omega⟩]
    rw [if_pos hone]
    exact ⟨_, rfl⟩

/-- A free skips an empty model, or looks at the block first and then gives it away. -/
lemma deallocArm_cases (config : Config) (i : ℕ) (hvalid : ∀ l ∈ st.live, l.Valid) :
    (st.live = [] ∧ deallocArm A config i opIdx st = .ok st) ∨
    ∃ k l, st.live[k]? = some l ∧
      ((¬l.Intact st.world.memory ∧
          ∃ p, deallocArm A config i opIdx st = .error (p, st.world)) ∨
        (l.Intact st.world.memory ∧ ∃ w, st.world.callDealloc A l.ptr l.block.layout = w ∧
          deallocArm A config i opIdx st = .ok ⟨swapRemove st.live k, st.cycle,
            if config.doubleFree.isSome then w.callDeallocAgain A l.ptr l.block.layout else w⟩)) := by
  unfold deallocArm
  cases hl : st.live[i % st.live.length]? with
  | none =>
      refine .inl ⟨?_, rfl⟩
      rw [List.getElem?_eq_none_iff] at hl
      by_contra hne
      exact absurd (Nat.mod_lt i (List.length_pos_iff.mpr hne)) (not_lt.mpr hl)
  | some l =>
      have hbuilt := (hvalid l (List.mem_of_getElem? hl)).built
      refine .inr ⟨_, l, hl, ?_⟩
      dsimp only
      cases hcheck : verifyBlock st.world.memory l.ptr l.size l.fill "M3" opIdx
          "before dealloc: live block clobbered" with
      | some p =>
          refine .inl ⟨fun h => ?_, p, rfl⟩
          rw [verifyBlock_eq_none.mpr h] at hcheck
          contradiction
      | none =>
          refine .inr ⟨verifyBlock_eq_none.mp hcheck, _, rfl, ?_⟩
          rw [hbuilt]

/-- The checks of a block that was resized. -/
structure Resized (l : Live) (others : List Live) (newSize ptr : ℕ) (m : Memory) : Prop where
  aligned : l.align ∣ ptr
  apart : ∀ l' ∈ others, rangesOverlap ptr newSize l'.ptr l'.size = false
  kept : ∀ off < min l.size newSize, m (ptr + off) = patternByte l.fill off

/-- A resize skips an empty model, or looks at the block first, lets the allocator resize it, and
checks the block it gets. -/
lemma reallocArm_cases (i newSize : ℕ) (hvalid : ∀ l ∈ st.live, l.Valid) :
    (st.live = [] ∧ reallocArm A i newSize opIdx st = .ok st) ∨
    ∃ k l, st.live[k]? = some l ∧
      ((¬l.Intact st.world.memory ∧ ∃ p, reallocArm A i newSize opIdx st = .error (p, st.world)) ∨
        (l.Intact st.world.memory ∧ ∃ n r, Layout.Admissible ⟨n, l.align⟩ ∧
          Layout.fromSizeAlign n l.align = some ⟨n, l.align⟩ ∧
          st.world.callRealloc A l.ptr l.block.layout n = r ∧
          ((r.1 = 0 ∧ reallocArm A i newSize opIdx st = .ok { st with world := r.2 }) ∨
            (r.1 ≠ 0 ∧ ¬Resized l (st.live.eraseIdx k) n r.1 r.2.memory ∧
              ∃ p, reallocArm A i newSize opIdx st = .error (p, r.2)) ∨
            (r.1 ≠ 0 ∧ Resized l (st.live.eraseIdx k) n r.1 r.2.memory ∧
              reallocArm A i newSize opIdx st =
                .ok ⟨st.live.set k ⟨r.1, n, l.align, st.cycle, opIdx⟩, (nextFill st.cycle).2,
                  r.2.fillBlock r.1 n st.cycle⟩)))) := by
  unfold reallocArm
  dsimp only
  cases hl : st.live[i % st.live.length]? with
  | none =>
      refine .inl ⟨?_, rfl⟩
      rw [List.getElem?_eq_none_iff] at hl
      by_contra hne
      exact absurd (Nat.mod_lt i (List.length_pos_iff.mpr hne)) (not_lt.mpr hl)
  | some l =>
      have hv := hvalid l (List.mem_of_getElem? hl)
      refine .inr ⟨_, l, hl, ?_⟩
      dsimp only
      cases hcheck : verifyBlock st.world.memory l.ptr l.size l.fill "M3" opIdx
          "before realloc: live block clobbered" with
      | some p =>
          refine .inl ⟨fun h => ?_, p, rfl⟩
          rw [verifyBlock_eq_none.mpr h] at hcheck
          contradiction
      | none =>
          obtain ⟨layout, hlayout, hadm, hnew⟩ :=
            fromSizeAlign_clamp hv.admissible.align hv.align_le newSize
          rw [hv.built]
          refine .inr ⟨verifyBlock_eq_none.mp hcheck, layout.size, _, ?_, ?_, rfl, ?_⟩
          · rw [hlayout] at hadm ⊢
            exact hadm
          · rw [hlayout] at hnew ⊢
            exact hnew
          · have hsize : clamp newSize 1 (isizeMax / l.block.layout.align * l.block.layout.align) =
                layout.size := by
              rw [hlayout]
            dsimp only
            rw [hsize]
            generalize st.world.callRealloc A l.ptr l.block.layout layout.size = r
            by_cases hnull : r.1 = 0
            · rw [if_pos hnull]
              exact .inl ⟨hnull, rfl⟩
            · rw [if_neg hnull]
              refine .inr ?_
              generalize hmade : (checkAligned "realloc" r.1 opIdx layout.size l.align <|> _) = check
              have hresized : check = none ↔
                  Resized l (st.live.eraseIdx (i % st.live.length)) layout.size r.1 r.2.memory := by
                rw [← hmade, orElse_eq_none, orElse_eq_none, checkAligned_eq_none,
                  assertNoOverlap_some_eq_none, verifyPrefixBlock_eq_none]
                exact ⟨fun h => ⟨h.1, h.2.1, h.2.2⟩, fun h => ⟨h.aligned, h.apart, h.kept⟩⟩
              cases check with
              | some p => exact .inl ⟨hnull, fun h =>
                  Option.some_ne_none p (hresized.mpr h), p, rfl⟩
              | none => exact .inr ⟨hnull, hresized.mp rfl, enter_eq _ _ _ _ _ _ _⟩

end

/-! ## The calls of an operation -/

/-- The size that a request is clamped to. -/
def legalSize (size align : ℕ) : ℕ := clamp size 1 (isizeMax / align * align)

/-- What an operation that ends adds to the trace: its call, the second free where it is on, and
the fill of a new block. An empty model has no block to free or to resize. -/
def Op.Makes (doubleFree : Bool) (live : List Live) : Op → List Event → Prop
  | .alloc size align, es => ∃ ptr after m,
      es = [.alloc false ⟨legalSize size align, align⟩ ptr after,
        .wrote ptr (legalSize size align) m]
  | .allocZeroed size align, es => ∃ ptr after m,
      es = [.alloc true ⟨legalSize size align, align⟩ ptr after,
        .wrote ptr (legalSize size align) m]
  | .dealloc i, es => live = [] ∧ es = [] ∨ ∃ l before, live[i % live.length]? = some l ∧
      es = .dealloc l.ptr l.block.layout before ::
        if doubleFree then [.freeAgain l.ptr l.block.layout] else []
  | .realloc i newSize, es => live = [] ∧ es = [] ∨ ∃ l result before after fills,
      live[i % live.length]? = some l ∧
      es = .realloc l.ptr l.block.layout (legalSize newSize l.align) result before after :: fills ∧
      (result = 0 ∧ fills = [] ∨ ∃ m, fills = [.wrote result (legalSize newSize l.align) m])

section
variable {σ : Type} {A : RawAllocator σ} {st st' : State σ} {opIdx : ℕ} {config : Config}

lemma live_nil_of_getElem? {i : ℕ} (h : st.live[i % st.live.length]? = none) : st.live = [] := by
  rw [List.getElem?_eq_none_iff] at h
  by_contra hne
  exact absurd (Nat.mod_lt i (List.length_pos_iff.mpr hne)) (not_lt.mpr h)

lemma allocArm_makes {zeroed : Bool} {size align : ℕ}
    (heq : allocArm A zeroed size align opIdx st = .ok st') : ∃ ptr after m,
      st'.world.trace = st.world.trace ++ [.alloc zeroed ⟨legalSize size align, align⟩ ptr after,
        .wrote ptr (legalSize size align) m] := by
  unfold allocArm at heq
  dsimp only at heq
  rw [← legalSize] at heq
  by_cases hone : Layout.fromSizeAlign 1 align = none
  · rw [if_pos hone] at heq
    contradiction
  rw [if_neg hone] at heq
  cases hlayout : Layout.fromSizeAlign (legalSize size align) align with
  | none =>
      rw [hlayout] at heq
      contradiction
  | some layout =>
      obtain ⟨rfl, -⟩ := Layout.fromSizeAlign_eq_some.mp hlayout
      rw [hlayout] at heq
      dsimp only at heq
      split at heq
      · contradiction
      · rw [enter_eq] at heq
        obtain rfl := Except.ok.inj heq
        exact ⟨_, _, _, List.append_assoc _ _ _⟩

lemma deallocArm_makes {i : ℕ} (heq : deallocArm A config i opIdx st = .ok st') :
    ∃ es, st'.world.trace = st.world.trace ++ es ∧
      Op.Makes config.doubleFree.isSome st.live (.dealloc i) es := by
  unfold deallocArm at heq
  cases hl : st.live[i % st.live.length]? with
  | none =>
      rw [hl] at heq
      obtain rfl := Except.ok.inj heq
      exact ⟨[], (List.append_nil _).symm, .inl ⟨live_nil_of_getElem? hl, rfl⟩⟩
  | some l =>
      rw [hl] at heq
      dsimp only at heq
      split at heq
      · contradiction
      cases hlayout : Layout.fromSizeAlign l.size l.align with
      | none =>
          rw [hlayout] at heq
          contradiction
      | some layout =>
          obtain ⟨rfl, -⟩ := Layout.fromSizeAlign_eq_some.mp hlayout
          rw [hlayout] at heq
          obtain rfl := Except.ok.inj heq
          refine ⟨_, ?_, .inr ⟨l, st.world.memory, hl, rfl⟩⟩
          cases config.doubleFree.isSome with
          | false => rfl
          | true => exact List.append_assoc _ _ _

lemma reallocArm_makes {i newSize : ℕ} (heq : reallocArm A i newSize opIdx st = .ok st') :
    ∃ es, st'.world.trace = st.world.trace ++ es ∧
      Op.Makes config.doubleFree.isSome st.live (.realloc i newSize) es := by
  unfold reallocArm at heq
  dsimp only at heq
  cases hl : st.live[i % st.live.length]? with
  | none =>
      rw [hl] at heq
      obtain rfl := Except.ok.inj heq
      exact ⟨[], (List.append_nil _).symm, .inl ⟨live_nil_of_getElem? hl, rfl⟩⟩
  | some l =>
      rw [hl] at heq
      dsimp only at heq
      split at heq
      · contradiction
      cases hlayout : Layout.fromSizeAlign l.size l.align with
      | none =>
          rw [hlayout] at heq
          contradiction
      | some layout =>
          obtain ⟨rfl, -⟩ := Layout.fromSizeAlign_eq_some.mp hlayout
          rw [hlayout] at heq
          dsimp only at heq
          rw [← legalSize] at heq
          split_ifs at heq with hnull
          · obtain rfl := Except.ok.inj heq
            exact ⟨_, rfl, .inr ⟨l, _, _, _, [], hl, rfl, .inl ⟨hnull, rfl⟩⟩⟩
          · split at heq
            · contradiction
            · rw [enter_eq] at heq
              obtain rfl := Except.ok.inj heq
              exact ⟨_, List.append_assoc _ _ _, .inr ⟨l, _, _, _, _, hl, rfl, .inr ⟨_, rfl⟩⟩⟩

lemma step_makes {op : Op} (heq : step A config opIdx op st = .ok st') :
    ∃ es, st'.world.trace = st.world.trace ++ es ∧
      op.Makes config.doubleFree.isSome st.live es := by
  cases op with
  | alloc size align =>
      obtain ⟨ptr, after, m, htrace⟩ := allocArm_makes heq
      exact ⟨_, htrace, ptr, after, m, rfl⟩
  | allocZeroed size align =>
      obtain ⟨ptr, after, m, htrace⟩ := allocArm_makes heq
      exact ⟨_, htrace, ptr, after, m, rfl⟩
  | dealloc i => exact deallocArm_makes heq
  | realloc i newSize => exact reallocArm_makes heq

end

end AllocatorOracle
end SeferAlloc
