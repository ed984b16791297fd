import SeferAlloc.MaintenanceDrainSteps
import SeferAlloc.SmallHeapRuns
import SeferAlloc.Sweep

/-!
# Drains in a row

The full drain takes every pending free. The cursor of the bounded drain passes
a place only when nothing is pending there any more, and only moves forward
until it is put back to the first slot, so a round of bounded drains takes what
a full drain takes. The hot drain serves the Large slots in turns.
-/
namespace SeferAlloc
namespace MaintenanceDrain
open SeferAlloc.Small BitWord Sweep

namespace Core
variable {bd : Build} {c c₁ c₂ : Core}

/-! ## Where a pending free can be -/

lemma Valid.pending_word (h : c.Valid bd) {i : ℕ} (hi : c.table.Live i)
    (hk : SmallKind (c.kindAt (c.table.slots i))) {g : ℕ}
    (hg : member (c.bitmap (c.table.slots i)).pending g = true) :
    c.sidecarPayloadStartWord bd (c.table.slots i) ≤ g / 64 ∧
      g / 64 < c.endWord (c.table.slots i) := by
  obtain ⟨hrep, hkind⟩ := h.segments i hi hk
  obtain ⟨cls, -, hin, -⟩ := h.held i hi hk g hg
  obtain ⟨hcls, hstart, -, hend⟩ := hrep.placed _ hin
  have hsize := (bd.sizes.blockSize_granular cls).1
  have hmeta : (if c.kindAt (c.table.slots i) = .primordial then bd.primordialMetaEnd
      else bd.smallMetaEnd) = bd.payloadStart (c.segs (c.table.slots i)).kind := by
    cases hseg : (c.segs (c.table.slots i)).kind with
    | primordial =>
        rw [if_pos (hkind.mp hseg)]
        rfl
    | small =>
        rw [if_neg fun he => by rw [hkind.mpr he] at hseg; contradiction]
        rfl
  rw [sidecarPayloadStartWord, hmeta, endWord]
  simp only [Sidecar.sidecarWordBytes, minBlock] at *
  omega

lemma Valid.endWord_le (h : c.Valid bd) {i : ℕ} (hi : c.table.Live i)
    (hk : SmallKind (c.kindAt (c.table.slots i))) :
    c.endWord (c.table.slots i) ≤ Sidecar.words := by
  have hwords : Sidecar.words = 4096 := by decide
  have hbump := (h.segments i hi hk).1.cursor.2
  rw [endWord, hwords]
  simp only [Sidecar.sidecarWordBytes, minBlock, segment] at *
  omega

/-- A scan from a word that is not behind the last one is granted. -/
lemma Valid.scanFrom (h : c.Valid bd) {i : ℕ} (hi : c.table.Live i)
    (hk : SmallKind (c.kindAt (c.table.slots i))) {w : ℕ} (hw : w ≤ c.endWord (c.table.slots i)) :
    Sidecar.scanFrom (c.segs (c.table.slots i)).bump w =
      some ⟨w, c.endWord (c.table.slots i)⟩ := by
  have hbump := (h.segments i hi hk).1.cursor.2
  have hend := h.endWord_le hi hk
  rw [Sidecar.scanFrom, if_neg (not_lt.mpr hbump)]
  rw [endWord] at *
  rw [if_neg (not_lt.mpr hw), if_neg (not_lt.mpr (hw.trans hend))]

lemma Pending.live {x : Freed} (hx : c.Pending x) : c.table.Live x.index := by
  cases x <;> exact hx.1

/-- A live slot holds a small or a Large segment. -/
lemma Valid.kind_cases (h : c.Valid bd) {i : ℕ} (hi : c.table.Live i) :
    SmallKind (c.kindAt (c.table.slots i)) ∨ c.kindAt (c.table.slots i) = .large := by
  obtain ⟨lane, hl⟩ := h.table.known i hi
  cases hk : c.kindAt (c.table.slots i) with
  | small => exact .inl (.inl rfl)
  | primordial => exact .inl (.inr rfl)
  | large => exact .inr rfl
  | unknown =>
      rw [kindAt] at hk
      rw [hk] at hl
      simp [ActiveKindIndex.offsets] at hl

/-! ## The full drain -/

lemma Valid.drainSlot_small (h : c.Valid bd) {i : ℕ} (hi : c.table.Live i)
    (hk : SmallKind (c.kindAt (c.table.slots i))) (now : ℕ) :
    ∃ c' out, c.drainSlot bd i now = some (c', out) ∧ c.Took bd c' out ∧
      ∀ x, c'.Pending x → x.index ≠ i := by
  set base := c.table.slots i with hbase
  set start := min (c.sidecarPayloadStartWord bd base) (c.endWord base) with hstart
  have hscan : Sidecar.scanFrom (c.segs base).bump start = some ⟨start, c.endWord base⟩ :=
    h.scanFrom hi hk (min_le_right _ _)
  obtain ⟨c₁, hconsume, htook, htable, hmem, hpool, -, hleft⟩ := h.consume hi hk
    (show (List.range' start (c.endWord base - start)).Nodup from List.nodup_range' 1)
  rw [← hbase] at hconsume hleft
  set out := c.wordFrees i base (List.range' start (c.endWord base - start)) with hout
  have hi₁ : c₁.table.Live i := by rwa [htable]
  have hs₁ : c₁.table.slots i = base := by rw [htable]
  obtain ⟨c₂, fate, hfinish, htook₂, -⟩ := htook.valid.finishSmall hi₁ (decide (out ≠ []))
    fun hne => by
      rw [hs₁, hpool]
      exact h.not_pooled hi hk (of_decide_eq_true hne)
  rw [hs₁] at hfinish
  have hrun : c.drainSlot bd i now = some (c₂, out) := by
    have hne : base ≠ 0 := hi.2
    rw [drainSlot, hi.baseAt, ← hbase]
    dsimp only
    rw [if_neg hne, ← hstart]
    obtain hk | hk := hk
    · rw [hk]
      simp only [hscan, hconsume, hfinish, Option.bind_eq_bind, Option.bind_some, Option.pure_def]
    · rw [hk]
      simp only [hscan, hconsume, hfinish, Option.bind_eq_bind, Option.bind_some, Option.pure_def]
  have htotal := htook.trans htook₂
  rw [List.append_nil] at htotal
  refine ⟨c₂, out, hrun, htotal, fun x hx he => ?_⟩
  have hx₁ := ((htook₂.rest x).mp hx).1
  cases x with
  | small j b off cls =>
      obtain rfl : j = i := he
      obtain ⟨-, hs, -, g, hg, -⟩ := hx₁
      rw [hs₁] at hs
      subst hs
      obtain ⟨hg, hnot⟩ := (hleft g).mp hg
      obtain ⟨hlo, hhi⟩ := h.pending_word hi hk hg
      rw [← hbase] at hlo hhi
      apply hnot
      rw [List.mem_range'_1]
      omega
  | large j b =>
      obtain rfl : j = i := he
      obtain ⟨-, hs, hkl, -⟩ := hx₁
      rw [hs₁] at hs
      subst hs
      rw [kindAt, hmem] at hkl
      rw [kindAt, hkl] at hk
      obtain hk | hk := hk <;> contradiction

lemma Valid.drainSlot (h : c.Valid bd) (i now : ℕ) :
    ∃ c' out, c.drainSlot bd i now = some (c', out) ∧ c.Took bd c' out ∧
      ∀ x, c'.Pending x → x.index ≠ i := by
  by_cases hi : c.table.Live i
  swap
  · have hnull : c.table.baseAt i = 0 := by
      by_contra hne
      exact hi ((c.table.live_iff_baseAt i).mpr hne)
    refine ⟨c, [], by rw [Core.drainSlot, hnull]; rfl, .refl h, fun x hx he => hi ?_⟩
    rw [← he]
    exact hx.live
  obtain hk | hk := h.kind_cases hi
  · exact h.drainSlot_small hi hk now
  obtain ⟨c', out, he, htook, hout, -, hlarge, -, -⟩ := h.retireLarge ⟨hi, hk⟩ now
  have hne : c.table.slots i ≠ 0 := hi.2
  refine ⟨c', out, ?_, htook, fun x hx hxi => ?_⟩
  · rw [Core.drainSlot, hi.baseAt]
    dsimp only
    rw [if_neg hne, hk]
    exact he
  · have hx₀ := ((htook.rest x).mp hx)
    cases x with
    | small j b off cls =>
        obtain rfl : j = i := hxi
        obtain ⟨-, hs, hkj, -⟩ := hx₀.1
        rw [← hs, hk] at hkj
        obtain hkj | hkj := hkj <;> contradiction
    | large j b =>
        obtain rfl : j = i := hxi
        obtain ⟨⟨-, hs, -, hp⟩, hnot⟩ := hx₀
        subst hs
        rw [hout, if_pos hp] at hnot
        exact hnot List.mem_cons_self

lemma Valid.drainSlots (clock : ℕ → ℕ) (l : List ℕ) :
    ∀ {c : Core}, c.Valid bd → ∃ c' out, Core.drainSlots bd clock l c = some (c', out) ∧
      c.Took bd c' out ∧ ∀ x, c'.Pending x → x.index ∉ l := by
  induction l with
  | nil =>
      intro c h
      exact ⟨c, [], rfl, .refl h, fun x _ => List.not_mem_nil⟩
  | cons i l ih =>
      intro c h
      obtain ⟨c₁, out, he, htook, hgone⟩ := h.drainSlot i (clock i)
      obtain ⟨c₂, later, he₂, htook₂, hgone₂⟩ := ih htook.valid
      refine ⟨c₂, out ++ later, by simp [Core.drainSlots, he, he₂], htook.trans htook₂,
        fun x hx => ?_⟩
      rw [List.mem_cons, not_or]
      exact ⟨hgone x ((htook₂.rest x).mp hx).1, hgone₂ x hx⟩

/-- The full drain of a routed heap takes every pending free once. -/
lemma Valid.drainAll (h : c.Valid bd) (hr : c.table.routes ≠ none) (clock : ℕ → ℕ) :
    ∃ c' out, c.drainSidecarIngress bd clock = some (c', out) ∧ c.Took bd c' out ∧
      ∀ x, x ∈ out ↔ c.Pending x := by
  obtain ⟨c', out, he, htook, hgone⟩ := Valid.drainSlots clock (List.range c.table.count) h
  refine ⟨c', out, by rw [drainSidecarIngress, if_neg hr, he], htook, fun x => ?_⟩
  refine ⟨htook.taken x, fun hx => ?_⟩
  by_contra hnot
  have hleft := (htook.rest x).mpr ⟨hx, hnot⟩
  exact hgone x hleft (List.mem_range.mpr hx.live.1)

/-! ## The bounded drain -/

/-- The cursor has not passed the place of a free: its word, or the slot of a Large segment. -/
def Ahead (cursor : ℕ ×ₗ ℕ) : Freed → Prop
  | .small i _ off _ => cursor ≤ toLex (i, off / Sidecar.sidecarWordBytes)
  | .large i _ => (ofLex cursor).1 ≤ i

lemma ahead_mono (p q : ℕ ×ₗ ℕ) (x : Freed) (hpq : p ≤ q) (hx : Ahead q x) : Ahead p x := by
  cases x with
  | small i base off cls => exact hpq.trans hx
  | large i base =>
      have hle : (ofLex p).1 ≤ (ofLex q).1 := by
        obtain hlt | ⟨heq, -⟩ := Prod.Lex.le_iff.mp hpq
        · exact hlt.le
        · exact heq.le
      exact hle.trans hx

lemma ahead_of_lt {cursor : Cursor} {x : Freed} (h : cursor.1 < x.index) :
    Ahead (toLex cursor) x := by
  cases x with
  | small i base off cls => exact Prod.Lex.le_iff.mpr (.inl h)
  | large i base => exact h.le

lemma index_le_of_ahead {cursor : Cursor} {x : Freed} (h : Ahead (toLex cursor) x) :
    cursor.1 ≤ x.index := by
  cases x with
  | small i base off cls =>
      obtain hlt | ⟨heq, -⟩ := Prod.Lex.le_iff.mp h
      · exact hlt.le
      · exact heq.le
  | large i base => exact h

lemma recordAt_word {bm : Sidecar.Bitmap} {g off cls : ℕ} (h : recordAt bm g = ⟨off, cls⟩) :
    off / Sidecar.sidecarWordBytes = g / 64 := by
  rw [recordAt, Sidecar.Record.mk.injEq] at h
  simp only [Sidecar.sidecarWordBytes, minBlock] at *
  omega

lemma Valid.hint_le (h : c.Valid bd) {i base off cls : ℕ} (hx : c.Pending (.small i base off cls)) :
    c.sidecarWordHint bd i ≤ off / Sidecar.sidecarWordBytes := by
  obtain ⟨hi, rfl, hk, g, hg, hrec⟩ := hx
  have hword := (h.pending_word hi hk hg).1
  have hne : c.table.slots i ≠ 0 := hi.2
  rw [recordAt_word hrec, sidecarWordHint, hi.baseAt]
  simp only [if_neg hne]
  obtain hk | hk := hk
  · rw [hk]
    exact hword
  · rw [hk]
    exact hword

/-- Everything from a slot on is ahead of its first word. -/
lemma Valid.ahead_hint (h : c.Valid bd) {i : ℕ} {x : Freed} (hx : c.Pending x)
    (hle : i ≤ x.index) : Ahead (toLex (i, c.sidecarWordHint bd i)) x := by
  obtain hlt | heq := hle.lt_or_eq
  · exact ahead_of_lt hlt
  · cases x with
    | small j base off cls =>
        obtain rfl : i = j := heq
        exact Prod.Lex.le_iff.mpr (.inr ⟨rfl, h.hint_le hx⟩)
    | large j base => exact hle

/-- What one unit does: it takes something, moves the cursor on, and leaves nothing behind it. -/
structure Moved (bd : Build) (c c' : Core) (cursor cursor' : Cursor) (out : List Freed) : Prop where
  took : c.Took bd c' out
  next : cursor'.1 = cursor.1 + 1 ∨
    cursor'.1 = cursor.1 ∧ cursor.2 < cursor'.2 ∧ cursor'.2 ≤ Sidecar.words
  ahead : ∀ x, c'.Pending x → Ahead (toLex cursor) x → Ahead (toLex cursor') x

lemma Took.toNextSlot {out : List Freed} (h : c.Took bd c₁ out) {cursor : Cursor}
    (hgone : ∀ x, c₁.Pending x → Ahead (toLex cursor) x → x.index ≠ cursor.1) :
    Moved bd c c₁ cursor (c₁.nextSlot bd cursor.1) out where
  took := h
  next := .inl rfl
  ahead x hx ha := by
    apply h.valid.ahead_hint hx
    have hle := index_le_of_ahead ha
    have hne := hgone x hx ha
    omega

/-- A free of a small segment that is still ahead lies in a word that a unit can look at. -/
lemma Valid.ahead_in_slot (h : c.Valid bd) {i w : ℕ} (hi : c.table.Live i)
    (hk : SmallKind (c.kindAt (c.table.slots i))) {x : Freed} (hx : c.Pending x)
    (ha : Ahead (toLex (i, w)) x) (hxi : x.index = i) :
    ∃ g cls, x = .small i (c.table.slots i) (g * minBlock) cls ∧
      max w (c.sidecarPayloadStartWord bd (c.table.slots i)) ≤ g / 64 ∧
      g / 64 < c.endWord (c.table.slots i) := by
  cases x with
  | small j b off cls =>
      obtain rfl : j = i := hxi
      obtain ⟨-, rfl, -, g, hg, hrec⟩ := hx
      obtain ⟨hlo, hhi⟩ := h.pending_word hi hk hg
      have hoff : off = g * minBlock := by
        rw [recordAt, Sidecar.Record.mk.injEq] at hrec
        exact hrec.1.symm
      have hw : w ≤ g / 64 := by
        rw [← recordAt_word hrec]
        obtain hlt | ⟨-, hle⟩ := Prod.Lex.le_iff.mp ha
        · exact absurd hlt (lt_irrefl _)
        · exact hle
      exact ⟨g, cls, by rw [hoff], max_le hw hlo, hhi⟩
  | large j b =>
      obtain rfl : j = i := hxi
      obtain ⟨-, rfl, hkl, -⟩ := hx
      rw [hkl] at hk
      obtain hk | hk := hk <;> contradiction

lemma Valid.drainUnit_small (h : c.Valid bd) {cursor : Cursor} (hi : c.table.Live cursor.1)
    (hk : SmallKind (c.kindAt (c.table.slots cursor.1))) (now : ℕ) :
    ∃ c' cursor' out, c.drainUnit bd cursor now = some (c', cursor', out) ∧
      Moved bd c c' cursor cursor' out := by
  obtain ⟨i, w₀⟩ := cursor
  dsimp only at hi hk
  set base := c.table.slots i with hbase
  have hne : base ≠ 0 := hi.2
  set word := max w₀ (c.sidecarPayloadStartWord bd base) with hword
  by_cases hdone : c.endWord base ≤ word
  · refine ⟨c, c.nextSlot bd i, [], ?_, (Took.refl h).toNextSlot fun x hx ha hxi => ?_⟩
    · rw [drainUnit]
      dsimp only
      rw [hi.baseAt, ← hbase, if_neg hne]
      obtain hk | hk := hk
      · rw [hk]
        exact if_pos hdone
      · rw [hk]
        exact if_pos hdone
    · obtain ⟨g, cls, -, hlo, hhi⟩ := h.ahead_in_slot hi hk hx ha hxi
      rw [← hbase] at hlo hhi
      omega
  have hscan := h.scanFrom hi hk (w := word) (by rw [← hbase]; omega)
  obtain ⟨c₁, hconsume, htook, htable, hmem, hpool, hbump, hleft⟩ := h.consume hi hk
    (List.nodup_singleton word)
  rw [← hbase] at hscan hconsume hleft hbump
  set out := c.wordFrees i base [word] with hout
  have hi₁ : c₁.table.Live i := by rwa [htable]
  have hs₁ : c₁.table.slots i = base := by rw [htable]
  obtain ⟨c₂, fate, hfinish, htook₂, hfate⟩ := htook.valid.finishSmall hi₁ (decide (out ≠ []))
    fun hne => by
      rw [hs₁, hpool]
      exact h.not_pooled hi hk (of_decide_eq_true hne)
  rw [hs₁] at hfinish
  have htotal := htook.trans htook₂
  rw [List.append_nil] at htotal
  have hadvance : Sidecar.Scan.advance ⟨word, c.endWord base⟩ =
      some (word, ⟨word + 1, c.endWord base⟩) := by
    rw [Sidecar.Scan.advance, if_neg (show ¬word = c.endWord base by omega)]
  -- What is still ahead in the slot lies behind the word that was consumed.
  have hbehind : ∀ x, c₂.Pending x → Ahead (toLex (i, w₀)) x → x.index = i →
      ∃ g cls, x = .small i base (g * minBlock) cls ∧ word + 1 ≤ g / 64 ∧
        g / 64 < c.endWord base := by
    intro x hx ha hxi
    have hx₁ := ((htook₂.rest x).mp hx).1
    obtain ⟨g, cls, rfl, hlo, hhi⟩ := h.ahead_in_slot hi hk ((htook.rest x).mp hx₁).1 ha hxi
    rw [← hbase] at hlo hhi
    obtain ⟨-, -, -, g', hg', hrec'⟩ := hx₁
    have hgg : g' = g := by
      rw [recordAt, Sidecar.Record.mk.injEq] at hrec'
      simp only [minBlock] at hrec'
      omega
    subst hgg
    rw [← hbase] at hg'
    have hnot := ((hleft g').mp hg').2
    rw [List.mem_singleton] at hnot
    exact ⟨g', cls, rfl, by omega, hhi⟩
  refine ⟨c₂, if fate ≠ .live ∨ word + 1 = c.endWord base then c₂.nextSlot bd i else (i, word + 1),
    out, ?_, ?_⟩
  · rw [drainUnit]
    dsimp only
    rw [hi.baseAt, ← hbase, if_neg hne, ← hword]
    obtain hk | hk := hk
    · rw [hk]
      simp only [if_neg hdone, hscan, hadvance, hconsume, hfinish, Option.bind_eq_bind,
        Option.bind_some, Option.pure_def]
    · rw [hk]
      simp only [if_neg hdone, hscan, hadvance, hconsume, hfinish, Option.bind_eq_bind,
        Option.bind_some, Option.pure_def]
  · split_ifs with hnext
    · refine htotal.toNextSlot fun x hx ha hxi => ?_
      obtain hdead | hlast := hnext
      · exact hfate hdead x hx hxi
      · obtain ⟨g, cls, rfl, hlo, hhi⟩ := hbehind x hx ha hxi
        omega
    · have hwords := h.endWord_le hi hk
      rw [← hbase] at hwords
      refine ⟨htotal, .inr ⟨rfl, ?_, ?_⟩, fun x hx ha => ?_⟩
      · dsimp only
        omega
      · dsimp only
        omega
      · obtain hlt | heq := (index_le_of_ahead ha).lt_or_eq
        · exact ahead_of_lt hlt
        · obtain ⟨g, cls, rfl, hlo, -⟩ := hbehind x hx ha heq.symm
          refine Prod.Lex.le_iff.mpr (.inr ⟨rfl, ?_⟩)
          change word + 1 ≤ g * minBlock / Sidecar.sidecarWordBytes
          simp only [Sidecar.sidecarWordBytes, minBlock]
          omega

lemma Valid.drainUnit (h : c.Valid bd) (cursor : Cursor) (now : ℕ) :
    ∃ c' cursor' out, c.drainUnit bd cursor now = some (c', cursor', out) ∧
      Moved bd c c' cursor cursor' out := by
  by_cases hi : c.table.Live cursor.1
  swap
  · have hnull : c.table.baseAt cursor.1 = 0 := by
      by_contra hne
      exact hi ((c.table.live_iff_baseAt _).mpr hne)
    refine ⟨c, c.nextSlot bd cursor.1, [], by rw [Core.drainUnit]; simp [hnull],
      (Took.refl h).toNextSlot fun x hx _ he => hi ?_⟩
    rw [← he]
    exact hx.live
  obtain hk | hk := h.kind_cases hi
  · exact h.drainUnit_small hi hk now
  obtain ⟨c', out, he, htook, hout, -, -, -, -⟩ := h.retireLarge ⟨hi, hk⟩ now
  have hne : c.table.slots cursor.1 ≠ 0 := hi.2
  refine ⟨c', c'.nextSlot bd cursor.1, out, ?_, htook.toNextSlot fun x hx _ hxi => ?_⟩
  · rw [Core.drainUnit]
    dsimp only
    rw [hi.baseAt, if_neg hne, hk]
    dsimp only
    rw [he]
    rfl
  · have hx₀ := (htook.rest x).mp hx
    cases x with
    | small j b off cls =>
        obtain rfl : j = cursor.1 := hxi
        obtain ⟨-, hs, hkj, -⟩ := hx₀.1
        rw [← hs, hk] at hkj
        obtain hkj | hkj := hkj <;> contradiction
    | large j b =>
        obtain rfl : j = cursor.1 := hxi
        obtain ⟨⟨-, hs, -, hp⟩, hnot⟩ := hx₀
        subst hs
        rw [hout, if_pos hp] at hnot
        exact hnot List.mem_cons_self

/-- How far a cursor is from the end: every unit brings it nearer. -/
def gauge (stop : ℕ) (cursor : Cursor) : ℕ :=
  (stop - cursor.1) * (Sidecar.words + 2) - min cursor.2 (Sidecar.words + 1)

lemma gauge_le (stop : ℕ) (cursor : Cursor) : gauge stop cursor ≤ stop * (Sidecar.words + 2) :=
  (Nat.sub_le _ _).trans (Nat.mul_le_mul_right _ (Nat.sub_le _ _))

lemma Moved.gauge_lt {out : List Freed} {cursor cursor' : Cursor} {stop : ℕ}
    (h : Moved bd c c₁ cursor cursor' out) (hlt : cursor.1 < stop) :
    gauge stop cursor' < gauge stop cursor := by
  have hwords : Sidecar.words = 4096 := by decide
  have hnext := h.next
  rw [gauge, gauge, hwords]
  rw [hwords] at hnext
  obtain hslot | ⟨hslot, hword, hle⟩ := hnext
  · rw [hslot]
    omega
  · rw [hslot]
    omega

lemma Valid.boundedLoop (clock : ℕ → ℕ) (stop budget : ℕ) :
    ∀ {c : Core}, c.Valid bd → ∀ cursor : Cursor, ∃ c' cursor' out units,
      Core.boundedLoop bd clock stop budget cursor c = some (c', cursor', out, units) ∧
      c.Took bd c' out ∧ units ≤ budget ∧ (cursor.1 ≤ stop → cursor'.1 ≤ stop) ∧
      (∀ x, c'.Pending x → Ahead (toLex cursor) x → Ahead (toLex cursor') x) ∧
      gauge stop cursor' ≤ gauge stop cursor ∧
      (0 < budget → cursor.1 < stop → gauge stop cursor' < gauge stop cursor) := by
  induction budget with
  | zero =>
      intro c h cursor
      exact ⟨c, cursor, [], 0, rfl, .refl h, le_rfl, id, fun _ _ => id, le_rfl, by simp⟩
  | succ budget ih =>
      intro c h cursor
      by_cases hstop : stop ≤ cursor.1
      · refine ⟨c, cursor, [], 0, ?_, .refl h, Nat.zero_le _, id, fun _ _ => id, le_rfl, ?_⟩
        · rw [Core.boundedLoop, if_pos hstop]
        · intro _ hlt
          omega
      · obtain ⟨c₁, next, out, he, hmoved⟩ := h.drainUnit cursor (clock cursor.1)
        obtain ⟨c₂, cursor', later, units, hloop, htook, hle, hbound, hahead, hgauge, -⟩ :=
          ih hmoved.took.valid next
        have hlt := hmoved.gauge_lt (not_le.mp hstop)
        refine ⟨c₂, cursor', out ++ later, units + 1, ?_, hmoved.took.trans htook,
          Nat.succ_le_succ hle, fun _ => hbound ?_, fun x hx ha => ?_, by omega, fun _ _ => by
            omega⟩
        · rw [Core.boundedLoop, if_neg hstop, he]
          simp [hloop]
        · have := hmoved.next
          omega
        · exact hahead x hx (hmoved.ahead x ((htook.rest x).mp hx).1 ha)

lemma Valid.normalise_lt (h : c.Valid bd) (cursor : Cursor) :
    (c.normalise bd cursor).1 < c.table.count := by
  rw [Core.normalise]
  split_ifs with hge
  · exact h.table.count_pos
  · exact not_le.mp hge

lemma normalise_of_lt {cursor : Cursor} (h : cursor.1 < c.table.count) :
    c.normalise bd cursor = cursor := if_neg (not_le.mpr h)

/-- What a bounded drain with a budget does to the cursor. -/
structure Advanced (bd : Build) (c : Core) (cursor : Cursor) (d : BoundedDrain) : Prop where
  on : d.wrapped = false → gauge c.table.count d.cursor < gauge c.table.count cursor ∧
    ∀ x, d.core.Pending x → Ahead (toLex cursor) x → Ahead (toLex d.cursor) x
  round : d.wrapped = true → ∀ x, d.core.Pending x →
    ¬Ahead (toLex cursor) x ∧ Ahead (toLex d.cursor) x
  lt : d.cursor.1 < d.core.table.count

/-- One bounded drain: it charges no more than its budget. -/
lemma Valid.drainBounded (h : c.Valid bd) (clock : ℕ → ℕ) (cursor : Cursor) (budget : ℕ) :
    ∃ d, c.drainSidecarIngressBounded bd clock cursor budget = some d ∧
      c.Took bd d.core d.freed ∧ d.units ≤ budget ∧
      (c.table.routes ≠ none → 0 < budget → Advanced bd c (c.normalise bd cursor) d) := by
  rw [drainSidecarIngressBounded]
  by_cases hskip : c.table.routes = none ∨ budget = 0
  · rw [if_pos hskip]
    refine ⟨_, rfl, .refl h, Nat.zero_le _, fun hr hb => ?_⟩
    obtain hnone | hzero := hskip
    · contradiction
    · omega
  · rw [if_neg hskip]
    have hstart := h.normalise_lt cursor
    obtain ⟨c₁, cursor₁, freed, units, hloop, htook, hunits, hle, hahead, -, hgauge⟩ :=
      Valid.boundedLoop clock c.table.count budget h (c.normalise bd cursor)
    have hle := hle hstart.le
    simp only [hloop, Option.bind_eq_bind, Option.bind_some]
    by_cases hend : cursor₁.1 = c.table.count
    · rw [if_pos hend]
      refine ⟨_, rfl, htook, hunits, fun _ _ => ⟨by simp, fun _ x hx => ⟨fun ha => ?_, ?_⟩, ?_⟩⟩
      · have hpast := index_le_of_ahead (hahead x hx ha)
        have hlive := hx.live.1
        rw [htook.count] at hlive
        omega
      · exact htook.valid.ahead_hint hx (Nat.zero_le _)
      · exact htook.valid.table.count_pos
    · rw [if_neg hend]
      refine ⟨_, rfl, htook, hunits, fun _ hb => ⟨fun _ => ⟨hgauge hb hstart, hahead⟩, by simp, ?_⟩⟩
      rw [htook.count]
      exact lt_of_le_of_ne hle hend

/-! ## Rounds of bounded drains -/

/-- Bounded drains in a row, each with its budget and its clock: what they reclaimed, and how often
the cursor came to the end. -/
def runBounded (bd : Build) :
    List (ℕ × (ℕ → ℕ)) → Core → Cursor → Option (Core × Cursor × List Freed × ℕ)
  | [], c, cursor => some (c, cursor, [], 0)
  | (budget, clock) :: rest, c, cursor => do
      let d ← c.drainSidecarIngressBounded bd clock cursor budget
      let (c, cursor, freed, wraps) ← runBounded bd rest d.core d.cursor
      return (c, cursor, d.freed ++ freed, d.wrapped.toNat + wraps)

lemma Valid.runBounded (calls : List (ℕ × (ℕ → ℕ))) (start : ℕ ×ₗ ℕ)
    (hbudget : ∀ call ∈ calls, 1 ≤ call.1) :
    ∀ {c : Core}, c.Valid bd → c.table.routes ≠ none → ∀ (cursor : Cursor) (passed : ℕ),
      Left Ahead start c.Pending passed (toLex (c.normalise bd cursor)) →
      ∃ c' cursor' out wraps, Core.runBounded bd calls c cursor = some (c', cursor', out, wraps) ∧
        c.Took bd c' out ∧
        Left Ahead start c'.Pending (passed + wraps) (toLex (c'.normalise bd cursor')) ∧
        calls.length + gauge c.table.count (c'.normalise bd cursor') ≤
          wraps * (c.table.count * (Sidecar.words + 2) + 1) +
            gauge c.table.count (c.normalise bd cursor) := by
  induction calls with
  | nil =>
      intro c h hr cursor passed hleft
      exact ⟨c, cursor, [], 0, rfl, .refl h, hleft, by simp⟩
  | cons call calls ih =>
      obtain ⟨budget, clock⟩ := call
      intro c h hr cursor passed hleft
      have hb : 1 ≤ budget := hbudget _ List.mem_cons_self
      obtain ⟨d, he, htook, -, hadv⟩ := h.drainBounded clock cursor budget
      obtain ⟨hon, hround, hlt⟩ := hadv hr hb
      have hr₁ : d.core.table.routes ≠ none := by
        have := htook.routes
        rw [← Option.isSome_iff_ne_none] at hr ⊢
        rwa [this]
      have hnorm : d.core.normalise bd d.cursor = d.cursor := normalise_of_lt hlt
      have hpending : ∀ x, d.core.Pending x → c.Pending x := fun x hx => ((htook.rest x).mp hx).1
      have hleft₁ : Left Ahead start d.core.Pending (passed + d.wrapped.toNat)
          (toLex (d.core.normalise bd d.cursor)) := by
        rw [hnorm]
        cases hw : d.wrapped with
        | false => exact hleft.move hpending (hon hw).2
        | true =>
            have hmoved : Left Ahead start d.core.Pending passed
                (toLex (c.normalise bd cursor)) := hleft.move hpending fun _ _ => id
            exact hmoved.wrap (fun x hx => (hround hw x hx).1) fun x hx => (hround hw x hx).2
      have hstep : 1 + gauge c.table.count d.cursor ≤
          d.wrapped.toNat * (c.table.count * (Sidecar.words + 2) + 1) +
            gauge c.table.count (c.normalise bd cursor) := by
        cases hw : d.wrapped with
        | false =>
            have := (hon hw).1
            simp only [Bool.toNat_false, Nat.zero_mul]
            omega
        | true =>
            have := gauge_le c.table.count d.cursor
            simp only [Bool.toNat_true, Nat.one_mul]
            omega
      obtain ⟨c', cursor', out, wraps, hrun, htook', hleft', hcount⟩ :=
        ih (fun call hc => hbudget call (List.mem_cons_of_mem _ hc)) htook.valid hr₁ d.cursor
          (passed + d.wrapped.toNat) hleft₁
      refine ⟨c', cursor', d.freed ++ out, d.wrapped.toNat + wraps, ?_, htook.trans htook', ?_, ?_⟩
      · simp [Core.runBounded, he, hrun]
      · rwa [← Nat.add_assoc]
      · rw [htook.count, hnorm] at hcount
        rw [List.length_cons, Nat.add_mul]
        omega

/-! ## The hot drain -/

instance (c : Core) (i : ℕ) : Decidable (c.IsLarge i) :=
  inferInstanceAs (Decidable ((_ ∧ _) ∧ _))

/-- The slots from `lo` on and below `hi` that hold Large segments. -/
def largeIn (c : Core) (lo hi : ℕ) : List ℕ := (List.range' lo (hi - lo)).filter (c.IsLarge ·)

/-- The Large slots in the order of a walk that starts at `cursor` and goes round. -/
def order (c : Core) (cursor : ℕ) : List ℕ := c.largeIn cursor c.table.count ++ c.largeIn 0 cursor

lemma mem_largeIn {lo hi j : ℕ} : j ∈ c.largeIn lo hi ↔ lo ≤ j ∧ j < hi ∧ c.IsLarge j := by
  rw [largeIn, List.mem_filter, List.mem_range'_1, decide_eq_true_eq]
  constructor
  · rintro ⟨hj, hl⟩
    exact ⟨by omega, by omega, hl⟩
  · rintro ⟨hlo, hhi, hl⟩
    exact ⟨by omega, hl⟩

lemma largeIn_append {lo mid hi : ℕ} (h₁ : lo ≤ mid) (h₂ : mid ≤ hi) :
    c.largeIn lo mid ++ c.largeIn mid hi = c.largeIn lo hi := by
  rw [largeIn, largeIn, largeIn, ← List.filter_append]
  have hsplit : List.range' lo (mid - lo) ++ List.range' mid (hi - mid) =
      List.range' lo (hi - lo) := by
    have hmid : mid = lo + 1 * (mid - lo) := by omega
    have hlen : hi - lo = mid - lo + (hi - mid) := by omega
    rw [hlen, ← List.range'_append]
    congr 2
  rw [hsplit]

lemma largeIn_congr {lo hi : ℕ} (h : ∀ j, lo ≤ j → j < hi → (c₁.IsLarge j ↔ c.IsLarge j)) :
    c₁.largeIn lo hi = c.largeIn lo hi := by
  apply List.filter_congr
  intro j hj
  rw [List.mem_range'_1] at hj
  exact decide_eq_decide.mpr (h j hj.1 (by omega))

lemma largeIn_eq_nil {lo hi : ℕ} (h : ∀ j, lo ≤ j → j < hi → ¬c.IsLarge j) :
    c.largeIn lo hi = [] := by
  rw [List.eq_nil_iff_forall_not_mem]
  intro j hj
  obtain ⟨hlo, hhi, hl⟩ := mem_largeIn.mp hj
  exact h j hlo hhi hl

/-- The walk goes to the least Large slot first. -/
lemma largeIn_eq_cons {pos hi i : ℕ} (hi' : i < hi) (hl : c.IsLarge i) (hle : pos ≤ i)
    (hleast : ∀ j, pos ≤ j → c.IsLarge j → i ≤ j) :
    c.largeIn pos hi = i :: c.largeIn (i + 1) hi := by
  have hnil : c.largeIn pos i = [] := largeIn_eq_nil fun j hlo hhi hj => by
    have := hleast j hlo hj
    omega
  have hcons : List.range' i (hi - i) = i :: List.range' (i + 1) (hi - (i + 1)) := by
    have hlen : hi - i = hi - (i + 1) + 1 := by omega
    rw [hlen, List.range'_succ]
  rw [← largeIn_append hle hi'.le, hnil, List.nil_append, largeIn, hcons,
    List.filter_cons_of_pos (by simpa using hl)]
  rfl

lemma nodup_order (cursor : ℕ) : (c.order cursor).Nodup := by
  rw [order, List.nodup_append]
  refine ⟨(List.nodup_range' 1).filter _, (List.nodup_range' 1).filter _, fun i hi j hj he => ?_⟩
  have := (mem_largeIn.mp hi).1
  have := (mem_largeIn.mp hj).2.1
  omega

lemma mem_order {cursor i : ℕ} : i ∈ c.order cursor ↔ c.IsLarge i := by
  rw [order, List.mem_append, mem_largeIn, mem_largeIn]
  constructor
  · rintro (⟨-, -, hl⟩ | ⟨-, -, hl⟩) <;> exact hl
  · intro hl
    have := hl.1.1
    by_cases hc : cursor ≤ i
    · exact .inl ⟨hc, this, hl⟩
    · exact .inr ⟨Nat.zero_le _, not_le.mp hc, hl⟩

/-- `next_active` answers the first Large slot from a position on. -/
lemma Valid.nextActive (h : c.Valid bd) (pos : ℕ) :
    (c.table.nextActive .large pos = some none ∧ ∀ j, pos ≤ j → ¬c.IsLarge j) ∨
    ∃ i, c.table.nextActive .large pos = some (some i) ∧ pos ≤ i ∧ c.IsLarge i ∧
      ∀ j, pos ≤ j → c.IsLarge j → i ≤ j := by
  have hlane : ∀ k, ActiveKindIndex.offsets k = some .large ↔ k = .large := by
    intro k
    cases k <;> simp [ActiveKindIndex.offsets]
  obtain ⟨r, he, hr⟩ := ActiveKindWalk.nextActive_live h.table
    (show ActiveKindIndex.offsets .large = some .large from rfl) pos
  cases r with
  | none =>
      refine .inl ⟨he, fun j hj hl => hr j hj hl.1 ?_⟩
      exact (hlane _).mpr hl.2
  | some i =>
      obtain ⟨⟨hpos, hlive, hk⟩, hleast⟩ := hr
      refine .inr ⟨i, he, hpos, ⟨hlive, (hlane _).mp hk⟩, fun j hj hl => ?_⟩
      exact hleast ⟨hj, hl.1, (hlane _).mpr hl.2⟩

/-- What a hot loop leaves: it has looked at the first slots of `queue`, and the walk goes on with
the others. -/
structure Looked (bd : Build) (c : Core) (queue : List ℕ) (budget : ℕ) (r : HotLoop) : Prop where
  took : c.Took bd r.core r.freed
  inspected : r.inspected = queue.take budget
  order : ∃ kept, r.core.order r.stopped = queue.drop budget ++ kept
  retired : ∀ i base, i ∈ r.inspected → ¬r.core.Pending (.large i base)

lemma Looked.cons {out : List Freed} {i budget : ℕ} {queue : List ℕ} {r : HotLoop}
    (h : c.Took bd c₁ out) (hgone : ∀ base, ¬c₁.Pending (.large i base))
    (hr : Looked bd c₁ queue budget r) :
    Looked bd c (i :: queue) (budget + 1)
      ⟨r.core, r.stopped, i :: r.inspected, out ++ r.freed⟩ where
  took := h.trans hr.took
  inspected := by rw [List.take_succ_cons, ← hr.inspected]
  order := by
    rw [List.drop_succ_cons]
    exact hr.order
  retired j base hj hp := by
    obtain rfl | hj := List.mem_cons.mp hj
    · exact hgone base ((hr.took.rest _).mp hp).1
    · exact hr.retired j base hj hp

/-- A Large slot that was looked at holds no free any more, and the other slots stay. -/
lemma Valid.inspect (h : c.Valid bd) {i : ℕ} (hl : c.IsLarge i) (now : ℕ) :
    ∃ c' out, c.retireLargeRoute i (c.table.baseAt i) now = some (c', out) ∧ c.Took bd c' out ∧
      (∀ base, ¬c'.Pending (.large i base)) ∧ ∀ j, j ≠ i → (c'.IsLarge j ↔ c.IsLarge j) := by
  obtain ⟨c', out, he, htook, hout, -, hlarge, -, -⟩ := h.retireLarge hl now
  refine ⟨c', out, by rw [hl.1.baseAt]; exact he, htook, fun base hp => ?_, fun j hj => ?_⟩
  · obtain ⟨⟨-, hs, -, hpending⟩, hnot⟩ := (htook.rest _).mp hp
    subst hs
    rw [hout, if_pos hpending] at hnot
    exact hnot List.mem_cons_self
  · rw [hlarge]
    exact and_iff_left fun he => absurd he hj

lemma Valid.hotAround (clock : ℕ → ℕ) (start budget : ℕ) :
    ∀ {c : Core}, c.Valid bd → ∀ pos, pos ≤ start → start ≤ c.table.count →
      ∃ r, Core.hotAround clock start c.table.count budget pos c = some r ∧
        Looked bd c (c.largeIn pos start) budget r := by
  induction budget with
  | zero =>
      intro c h pos hpos hstart
      refine ⟨_, rfl, .refl h, rfl, ⟨c.largeIn start c.table.count ++ c.largeIn 0 pos, ?_⟩,
        by simp⟩
      rw [order, ← largeIn_append hpos hstart, List.append_assoc]
      rfl
  | succ budget ih =>
      intro c h pos hpos hstart
      rw [Core.hotAround]
      have hstop : c.largeIn pos start = [] → Looked bd c (c.largeIn pos start) (budget + 1)
          ⟨c, pos, [], []⟩ := by
        intro hnil
        rw [hnil]
        exact ⟨.refl h, rfl, ⟨_, rfl⟩, by simp⟩
      obtain ⟨he, hnone⟩ | ⟨i, he, hle, hl, hleast⟩ := h.nextActive pos
      · rw [he]
        exact ⟨_, rfl, hstop (largeIn_eq_nil fun j hlo _ => hnone j hlo)⟩
      · rw [he]
        have hlt := hl.1.1
        by_cases hround : start ≤ i
        · simp only [Option.bind_eq_bind, Option.bind_some, hround, or_true, if_true]
          refine ⟨_, rfl, hstop (largeIn_eq_nil fun j hlo hhi hj => ?_)⟩
          have := hleast j hlo hj
          omega
        · obtain ⟨c₁, out, hret, htook, hgone, hothers⟩ := h.inspect hl (clock i)
          rw [← htook.count] at hstart
          obtain ⟨r, hrun, hlooked⟩ := ih htook.valid (i + 1) (by omega) hstart
          have hcond : ¬(c.table.count ≤ i ∨ start ≤ i) := by omega
          rw [htook.count] at hrun
          refine ⟨⟨r.core, r.stopped, i :: r.inspected, out ++ r.freed⟩, ?_, ?_⟩
          · simp only [Option.bind_eq_bind, Option.bind_some, hret, hrun]
            rw [if_neg hcond]
            rfl
          · rw [largeIn_eq_cons (not_le.mp hround) hl hle hleast]
            refine Looked.cons htook hgone ?_
            rwa [largeIn_congr fun j hlo _ => hothers j (by omega)] at hlooked

lemma Valid.hotLoop (clock : ℕ → ℕ) (start budget : ℕ) :
    ∀ {c : Core}, c.Valid bd → ∀ pos, start ≤ pos → pos ≤ c.table.count →
      ∃ r, Core.hotLoop clock start c.table.count budget pos c = some r ∧
        Looked bd c (c.largeIn pos c.table.count ++ c.largeIn 0 start) budget r := by
  induction budget with
  | zero =>
      intro c h pos hstart hpos
      refine ⟨_, rfl, .refl h, rfl, ⟨c.largeIn start pos, ?_⟩, by simp⟩
      rw [List.drop_zero, order, List.append_assoc, largeIn_append (Nat.zero_le _) hstart]
  | succ budget ih =>
      intro c h pos hstart hpos
      rw [Core.hotLoop]
      obtain ⟨he, hnone⟩ | ⟨i, he, hle, hl, hleast⟩ := h.nextActive pos
      · rw [he, largeIn_eq_nil fun j hlo _ => hnone j hlo, List.nil_append]
        exact h.hotAround clock start (budget + 1) 0 (Nat.zero_le _) (hstart.trans hpos)
      · rw [he]
        have hlt := hl.1.1
        obtain ⟨c₁, out, hret, htook, hgone, hothers⟩ := h.inspect hl (clock i)
        obtain ⟨r, hrun, hlooked⟩ := ih htook.valid (i + 1) (by omega)
          (by rw [htook.count]; omega)
        rw [htook.count] at hrun hlooked
        refine ⟨⟨r.core, r.stopped, i :: r.inspected, out ++ r.freed⟩, ?_, ?_⟩
        · simp only [Option.bind_eq_bind, Option.bind_some, hret, hrun]
          rw [if_neg (not_le.mpr hlt)]
          rfl
        · rw [largeIn_eq_cons hlt hl hle hleast, List.cons_append]
          refine Looked.cons htook hgone ?_
          rwa [largeIn_congr fun j hlo _ => hothers j (by omega),
            largeIn_congr fun j _ hhi => hothers j (by omega)] at hlooked

/-- One call of the hot drain looks at the first slots of the order, and the order of the next call
starts behind them. -/
lemma Valid.drainLargeHot (h : c.Valid bd) (hr : c.table.routes ≠ none) (clock : ℕ → ℕ)
    (cursor : ℕ) :
    ∃ c' cursor' looked freed kept,
      c.drainLargeHot clock cursor = some (c', cursor', looked, freed) ∧ c.Took bd c' freed ∧
      looked = (c.order cursor).take largeHotBudget ∧
      c'.order cursor' = (c.order cursor).drop largeHotBudget ++ kept ∧
      ∀ i base, i ∈ looked → ¬c'.Pending (.large i base) := by
  have hcount := h.table.count_pos
  set start := if c.table.count ≤ cursor then 0 else cursor with hstart
  have hlt : start < c.table.count := by
    rw [hstart]
    split_ifs with hge
    · exact hcount
    · exact not_le.mp hge
  have horder : c.order cursor = c.order start := by
    rw [hstart]
    split_ifs with hge
    · have hnil : c.largeIn cursor c.table.count = [] := largeIn_eq_nil fun j hlo hhi _ => by
        omega
      have hempty : c.largeIn 0 0 = [] := rfl
      have hpast : c.largeIn c.table.count cursor = [] := largeIn_eq_nil fun j hlo _ hl => by
        have := hl.1.1
        omega
      rw [order, order, hnil, hempty, List.append_nil, List.nil_append,
        ← largeIn_append (Nat.zero_le _) hge, hpast, List.append_nil]
    · rfl
  obtain ⟨r, hrun, hlooked⟩ := h.hotLoop clock start largeHotBudget start le_rfl hlt.le
  obtain ⟨kept, hkept⟩ := hlooked.order
  have hinspected : r.inspected = (c.order cursor).take largeHotBudget := by
    rw [horder]
    exact hlooked.inspected
  have hdrain : c.drainLargeHot clock cursor = some (r.core,
      if r.inspected = [] then start else if r.stopped = c.table.count then 0 else r.stopped,
      r.inspected, r.freed) := by
    rw [Core.drainLargeHot, if_neg (by simp [hr, hcount.ne'])]
    simp only [← hstart, hrun, Option.bind_eq_bind, Option.bind_some, Option.pure_def]
  by_cases hnil : r.inspected = []
  · -- Nothing was looked at, so there is no Large slot.
    have hdrop : (c.order cursor).drop largeHotBudget = [] := by
      rw [hinspected, List.take_eq_nil_iff] at hnil
      obtain hzero | hempty := hnil
      · contradiction
      · rw [hempty, List.drop_nil]
    refine ⟨r.core, start, r.inspected, r.freed, r.core.order start, ?_, hlooked.took, hinspected,
      by rw [hdrop, List.nil_append], hlooked.retired⟩
    rw [hdrain, if_pos hnil]
  · refine ⟨r.core, _, r.inspected, r.freed, kept, hdrain, hlooked.took, hinspected, ?_,
      hlooked.retired⟩
    rw [if_neg hnil, horder]
    split_ifs with hend
    · have hnone : r.core.largeIn r.stopped r.core.table.count = [] := by
        apply largeIn_eq_nil
        intro j hlo hhi _
        rw [hlooked.took.count] at hhi
        omega
      rw [order, hnone, List.nil_append] at hkept
      rw [order, hlooked.took.count, ← hend, hkept]
      exact List.append_nil _
    · exact hkept

/-- Other threads free Large blocks. -/
def publishLarge (c : Core) (freed : ℕ → Bool) : Core :=
  { c with largePending := fun base => c.largePending base || freed base }

/-- Hot drains in a row, each with its clock; before each, other threads free Large blocks. The
lists of slots looked at come out call by call. -/
def runHot : List ((ℕ → Bool) × (ℕ → ℕ)) → Core → ℕ → Option (Core × ℕ × List (List ℕ) × List Freed)
  | [], c, cursor => some (c, cursor, [], [])
  | (freed, clock) :: rest, c, cursor => do
      let (c, cursor, looked, out) ← (c.publishLarge freed).drainLargeHot clock cursor
      let (c, cursor, later, outs) ← runHot rest c cursor
      return (c, cursor, looked :: later, out ++ outs)

lemma Valid.publishLarge (h : c.Valid bd) (freed : ℕ → Bool) : (c.publishLarge freed).Valid bd :=
  ⟨h.table, h.first, h.roots, h.segments, h.held, h.pooled, h.pool_nodup⟩

lemma Pending.publishLarge {x : Freed} (hx : c.Pending x) (freed : ℕ → Bool) :
    (c.publishLarge freed).Pending x := by
  cases x with
  | small => exact hx
  | large i base =>
      obtain ⟨hi, hs, hk, hp⟩ := hx
      exact ⟨hi, hs, hk, by simp [Core.publishLarge, hp]⟩

lemma Valid.runHot (calls : List ((ℕ → Bool) × (ℕ → ℕ))) :
    ∀ {c : Core}, c.Valid bd → c.table.routes ≠ none → ∀ cursor,
      ∃ c' cursor' looked freed, Core.runHot calls c cursor = some (c', cursor', looked, freed) ∧
        looked.length = calls.length ∧ (∀ l ∈ looked, l.Nodup) ∧
        Turns largeHotBudget (c.order cursor) looked (c'.order cursor') ∧
        ∀ i base, c.Pending (.large i base) → i ∈ looked.flatten → .large i base ∈ freed := by
  induction calls with
  | nil =>
      intro c h hr cursor
      exact ⟨c, cursor, [], [], rfl, rfl, by simp, .nil _, by simp⟩
  | cons call calls ih =>
      obtain ⟨pub, clock⟩ := call
      intro c h hr cursor
      obtain ⟨c₁, cursor₁, looked, freed, kept, he, htook, hlooked, horder, hretired⟩ :=
        (h.publishLarge pub).drainLargeHot hr clock cursor
      have hr₁ : c₁.table.routes ≠ none := by
        have := htook.routes
        rw [← Option.isSome_iff_ne_none] at hr ⊢
        rwa [this]
      obtain ⟨c₂, cursor₂, later, outs, hrun, hlen, hnodup, hturns, hserved⟩ :=
        ih htook.valid hr₁ cursor₁
      have hsame : (c.publishLarge pub).order cursor = c.order cursor := rfl
      rw [hsame] at hlooked horder
      refine ⟨c₂, cursor₂, looked :: later, freed ++ outs, ?_, ?_, fun l hl => ?_, ?_,
        fun i base hp hi => ?_⟩
      · simp [Core.runHot, he, hrun]
      · rw [List.length_cons, List.length_cons, hlen]
      · obtain rfl | hl := List.mem_cons.mp hl
        · rw [hlooked]
          exact (nodup_order cursor).sublist (List.take_sublist _ _)
        · exact hnodup l hl
      · rw [hlooked]
        apply Turns.cons kept
        rwa [← horder]
      · -- A free that was pending is still pending after the first call, or was retired by it.
        rw [List.mem_append]
        by_cases hfreed : Freed.large i base ∈ freed
        · exact .inl hfreed
        · have hp₁ : c₁.Pending (.large i base) :=
            (htook.rest _).mpr ⟨hp.publishLarge pub, hfreed⟩
          rw [List.flatten_cons, List.mem_append] at hi
          obtain hi | hi := hi
          · exact absurd hp₁ (hretired i base hi)
          · exact .inr (hserved i base hp₁ hi)

end Core

/-- Exact progress of the maintenance drains. A bounded drain charges no more than its budget and
takes pending frees, each once, which are not pending afterwards. Bounded drains in a row, with any
budgets and at any times, take no free twice; once the cursor has come round to where it started,
they have taken what one full drain takes, up to the order, and with enough drains it does come
round. A call of the hot drain looks at each Large slot at most once and at four at most. Over
successive calls the first slots looked at are the Large slots in their order from the cursor on,
whatever other threads free in between; so every pending Large free is retired. -/
theorem drains_exact (bd : Build) (c : Core) (h : c.Valid bd) :
    (∀ clock cursor budget, ∃ d, c.drainSidecarIngressBounded bd clock cursor budget = some d ∧
      d.units ≤ budget ∧ d.freed.Nodup ∧ (∀ x ∈ d.freed, c.Pending x) ∧
      (∀ x, d.core.Pending x ↔ c.Pending x ∧ x ∉ d.freed) ∧ d.core.Valid bd) ∧
    (c.table.routes ≠ none →
      (∀ (clock : ℕ → ℕ) (cursor : Core.Cursor) (calls : List (ℕ × (ℕ → ℕ))),
        (∀ call ∈ calls, 1 ≤ call.1) → ∃ c₁ full c₂ cursor' freed wraps,
          c.drainSidecarIngress bd clock = some (c₁, full) ∧ (∀ x, x ∈ full ↔ c.Pending x) ∧
          c.runBounded bd calls cursor = some (c₂, cursor', freed, wraps) ∧ freed.Nodup ∧
          (Round (toLex (c.normalise bd cursor)) wraps (toLex (c₂.normalise bd cursor')) →
            freed.Perm full) ∧
          (3 * (c.table.count * (Sidecar.words + 2) + 1) ≤ calls.length → 2 ≤ wraps)) ∧
      ∀ (cursor : ℕ) (calls : List ((ℕ → Bool) × (ℕ → ℕ))), ∃ c' cursor' looked freed,
        c.runHot calls cursor = some (c', cursor', looked, freed) ∧
        (∀ l ∈ looked, l.Nodup ∧ l.length ≤ Core.largeHotBudget) ∧
        looked.flatten.take (c.order cursor).length =
          (c.order cursor).take (Core.largeHotBudget * calls.length) ∧
        ((c.order cursor).length ≤ Core.largeHotBudget * calls.length →
          ∀ i base, c.Pending (.large i base) → .large i base ∈ freed)) := by
  refine ⟨fun clock cursor budget => ?_, fun hr => ⟨fun clock cursor calls hcalls => ?_,
    fun cursor calls => ?_⟩⟩
  · obtain ⟨d, he, htook, hunits, -⟩ := h.drainBounded clock cursor budget
    exact ⟨d, he, hunits, htook.nodup, htook.taken, htook.rest, htook.valid⟩
  · obtain ⟨c₁, full, hfull, htook, hmem⟩ := h.drainAll hr clock
    obtain ⟨c₂, cursor', freed, wraps, hrun, htook₂, hleft, hcount⟩ :=
      Core.Valid.runBounded calls _ hcalls h hr cursor 0 (left_start Core.Ahead _ _)
    refine ⟨c₁, full, c₂, cursor', freed, wraps, hfull, hmem, hrun, htook₂.nodup, fun hround => ?_,
      fun hlen => ?_⟩
    · rw [Nat.zero_add] at hleft
      rw [List.perm_ext_iff_of_nodup htook₂.nodup htook.nodup]
      intro x
      rw [hmem]
      refine ⟨htook₂.taken x, fun hx => ?_⟩
      by_contra hnot
      exact hleft.round hround Core.ahead_mono x ((htook₂.rest x).mpr ⟨hx, hnot⟩)
    · have hgauge := Core.gauge_le c.table.count (c.normalise bd cursor)
      by_contra hfew
      have hwraps : wraps ≤ 1 := by omega
      have := Nat.mul_le_mul_right (c.table.count * (Sidecar.words + 2) + 1) hwraps
      omega
  · obtain ⟨c', cursor', looked, freed, hrun, hlen, hnodup, hturns, hserved⟩ :=
      Core.Valid.runHot calls h hr cursor
    have hflat := hturns.flatten_take
    rw [hlen] at hflat
    refine ⟨c', cursor', looked, freed, hrun, fun l hl => ⟨hnodup l hl, hturns.length_le l hl⟩,
      hflat, fun hall i base hp => hserved i base hp ?_⟩
    rw [List.take_of_length_le hall] at hflat
    apply List.mem_of_mem_take
    rw [hflat, Core.mem_order]
    obtain ⟨hi, rfl, hk, -⟩ := hp
    exact ⟨hi, hk⟩

/-! ## A heap with three pending frees -/

/-- A small segment and a Large one join the primordial. -/
def mixedCalls : List SegmentTable.Call :=
  [.register (2 * segment) (2 * segment) .small (2 * segment, segment) ⟨true, some 1⟩,
    .register (3 * segment) (3 * segment + 64) .large (3 * segment, segment) ⟨true, some 2⟩]

def mixedWorld (calls : List SegmentTable.Call) : Option SegmentTable.World := do
  let t ← SegmentTable.fromPrimordial segment
  let t ← t.attachOwner 0 segment ⟨true, some 0⟩
  SegmentTable.runCalls calls ⟨t, SegmentTable.primordialMem⟩

/-- The segments of a table in the order of their slots, with their kinds and payload keys. -/
def registered (w : SegmentTable.World) : List (ℕ × SegmentKind × ℕ) :=
  (List.range w.table.count).map fun i =>
    (w.table.slots i, (w.mem (w.table.slots i)).kind, w.table.key w.mem i)

lemma registered_of_live {w : SegmentTable.World} {i : ℕ} (hi : w.table.Live i) :
    (registered w)[i]? =
      some (w.table.slots i, (w.mem (w.table.slots i)).kind, w.table.key w.mem i) := by
  simp [registered, hi.1]

/-- A segment is fresh when it differs from what is registered. -/
lemma freshSegment_of_registered {w : SegmentTable.World} {base payload : ℕ} (h0 : base ≠ 0)
    (hle : base ≤ payload)
    (h : ∀ p ∈ registered w, p.1 ≠ base ∧ p.2.2 ≠ segmentBaseOfPtr payload) :
    w.table.FreshSegment w.mem base payload where
  base_ne := h0
  payload_le := hle
  root _ hj := (h _ (List.mem_of_getElem? (registered_of_live hj))).1
  key _ hj := (h _ (List.mem_of_getElem? (registered_of_live hj))).2

lemma registered_mixedWorld :
    (mixedWorld mixedCalls).map registered = some [(segment, .primordial, segment),
      (2 * segment, .small, 2 * segment), (3 * segment, .large, 3 * segment)] := by
  decide +kernel

/-- Both registrations are legal, so the table is consistent. -/
lemma mixedWorld_spec : ∃ w, mixedWorld mixedCalls = some w ∧ w.table.Inv w.mem ∧
    w.table.routes ≠ none ∧ registered w = [(segment, .primordial, segment),
      (2 * segment, .small, 2 * segment), (3 * segment, .large, 3 * segment)] := by
  obtain ⟨w, hw, hview⟩ := Option.map_eq_some_iff.mp registered_mixedWorld
  have hrouted : (mixedWorld mixedCalls).map (fun w => w.table.routes.isSome) = some true := by
    decide +kernel
  have hstart : (mixedWorld []).map registered = some [(segment, .primordial, segment)] := by
    decide +kernel
  have hgrown : (mixedWorld (mixedCalls.take 1)).map registered =
      some [(segment, .primordial, segment), (2 * segment, .small, 2 * segment)] := by
    decide +kernel
  have hfirst := hw
  rw [mixedWorld] at hw hstart hgrown
  obtain ⟨t, ht, hw⟩ := Option.bind_eq_some_iff.mp hw
  obtain ⟨t', ht', hrun⟩ := Option.bind_eq_some_iff.mp hw
  simp only [ht, ht', Option.bind_eq_bind, Option.bind_some] at hstart hgrown
  have hfresh : SegmentTable.FreshTable segment ⟨t', SegmentTable.primordialMem⟩ :=
    ⟨⟨by decide, by decide, rfl, rfl, rfl⟩, t, ht, .inr ⟨0, _, ht'⟩⟩
  have hlegal : SegmentTable.LegalCalls mixedCalls ⟨t', SegmentTable.primordialMem⟩ := by
    refine ⟨freshSegment_of_registered (by decide) le_rfl ?_, fun w₁ h₁ =>
      ⟨freshSegment_of_registered (by decide) (by decide) ?_, fun _ _ => trivial⟩⟩
    · rw [Option.some.inj hstart]
      decide
    · rw [show mixedCalls.take 1 = [mixedCalls[0]] from rfl, SegmentTable.runCalls] at hgrown
      rw [show mixedCalls[0].run _ = some w₁ from h₁] at hgrown
      rw [Option.some.inj hgrown]
      decide
  obtain ⟨w', hrun', hinv', -⟩ := SegmentTable.runCalls_spec mixedCalls hfresh.inv.1 hlegal
  obtain rfl : w = w' := Option.some.inj (hrun.symm.trans hrun')
  refine ⟨w, hfirst, hinv', fun hnone => ?_, hview⟩
  rw [hfirst, Option.map_some, hnone] at hrouted
  contradiction

/-- A segment with its first block carved. -/
def firstBlock (kind : Kind) : Option Segment :=
  ((Segment.new releaseBuild kind).carveBlock releaseBuild 0 true).map Prod.fst

/-- The block of a granule is issued and freed by another thread. -/
def freedBitmap (g : ℕ) : Sidecar.Bitmap where
  pending := Function.update (fun _ => 0) (g / 64) (bit (g % 64))
  mixed _ := true
  classes := Function.update (fun _ => 0) g 1

/-- Every segment has one pending free, and the pool has no room. -/
def freedCore : Option Core := do
  let w ← mixedWorld mixedCalls
  let first ← firstBlock .primordial
  let second ← firstBlock .small
  return {
    table := w.table
    mem := w.mem
    segs := fun base => if base = segment then first else second
    blocks := fun base => Blocks.new.carve (if base = segment then 389120 else 270336) 0 .live
    bitmap := fun base => freedBitmap (if base = segment then 24320 else 16896)
    largePending := fun base => decide (base = 3 * segment)
    decommitted := fun _ => false
    smallCur := segment
    pool := []
    poolCap := 0
    decayInterval := 1000
    lastPoolDecayTick := none }

/-- What other threads freed. -/
def freedBefore : List Freed :=
  [.small 0 segment 389120 0, .small 1 (2 * segment) 270336 0, .large 2 (3 * segment)]

lemma member_freedBitmap (g g' : ℕ) : member (freedBitmap g).pending g' = true ↔ g' = g := by
  rw [member, freedBitmap]
  dsimp only
  by_cases hw : g' / 64 = g / 64
  · rw [hw, Function.update_self, getLsbD_bit]
    simp only [Bool.and_eq_true, decide_eq_true_eq]
    omega
  · rw [Function.update_of_ne hw]
    have hne : g' ≠ g := fun he => hw (by rw [he])
    simp [hne]

lemma firstBlock_spec {kind : Kind} {s : Segment} (off : ℕ) (hs : firstBlock kind = some s)
    (hoff : ((Segment.new releaseBuild kind).carveBlock releaseBuild 0 true).map Prod.snd =
      some (some off)) :
    s.kind = kind ∧ Represents releaseBuild s (Blocks.new.carve off 0 .live) := by
  obtain ⟨⟨s', r⟩, hcarve, hr⟩ := Option.map_eq_some_iff.mp hoff
  rw [firstBlock, hcarve] at hs
  obtain rfl : s' = s := Option.some.inj hs
  obtain ⟨off', s'', he, -, hrep⟩ | he := carveBlock_spec (World.represents_new releaseBuild kind)
    (show 0 < releaseBuild.sizes.count by decide +kernel) true
  swap
  · rw [he] at hcarve
    rw [← Option.some.inj hcarve] at hr
    contradiction
  rw [he] at hcarve
  obtain ⟨rfl, rfl⟩ := Prod.mk.inj (Option.some.inj hcarve)
  obtain rfl : off' = off := Option.some.inj hr
  exact ⟨(carveBlock_advanced he).kind, hrep⟩

lemma held_freedBitmap {g off : ℕ} (hoff : off = g * minBlock) :
    Held (freedBitmap g) (Blocks.new.carve off 0 .live) g := by
  subst hoff
  refine ⟨0, ?_, ?_, ?_⟩
  · simp [freedBitmap, Sidecar.Bitmap.encoded]
  · simp [Blocks.carve]
  · simp [Blocks.carve]

/-- The heap is as a run of it can leave it. -/
lemma valid_freedCore : ∃ c, freedCore = some c ∧ c.Valid releaseBuild ∧
    c.table.routes ≠ none ∧ c.table.count = 3 := by
  obtain ⟨w, hw, hinv, hrouted, hview⟩ := mixedWorld_spec
  have hcount : w.table.count = 3 := by simpa [registered] using congrArg List.length hview
  rw [registered, hcount] at hview
  simp only [List.range_succ, List.range_zero, List.map_cons, List.map_nil,
    List.nil_append, List.cons_append, List.cons.injEq, Prod.mk.injEq, and_true] at hview
  obtain ⟨⟨hs₀, hk₀, -⟩, ⟨hs₁, hk₁, hkey₁⟩, hs₂, hk₂, -⟩ := hview
  obtain ⟨first, hfirst⟩ := Option.isSome_iff_exists.mp
    (show (firstBlock .primordial).isSome = true by decide +kernel)
  obtain ⟨second, hsecond⟩ := Option.isSome_iff_exists.mp
    (show (firstBlock .small).isSome = true by decide +kernel)
  obtain ⟨hkind₀, hrep₀⟩ := firstBlock_spec 389120 hfirst (by decide +kernel)
  obtain ⟨hkind₁, hrep₁⟩ := firstBlock_spec 270336 hsecond (by decide +kernel)
  have hcases : ∀ i, w.table.Live i → i = 0 ∨ i = 1 ∨ i = 2 := fun i hi => by
    have := hi.1
    omega
  rw [hs₀] at hk₀
  rw [hs₁] at hk₁
  rw [hs₂] at hk₂
  refine ⟨_, by rw [freedCore, hw, hfirst, hsecond]; rfl, ⟨hinv, ?_, fun i hi hk => ?_,
    fun i hi hk => ?_, fun i hi hk g hg => ?_, by simp, List.nodup_nil⟩, hrouted, hcount⟩
  · change (w.mem (w.table.slots 0)).kind = .primordial
    rw [hs₀, hk₀]
  · dsimp only at hi hk ⊢
    obtain rfl | rfl | rfl := hcases i hi
    · rw [hs₀, Core.kindAt, hk₀] at hk
      contradiction
    · rw [hkey₁, hs₁]
    · rw [hs₂, Core.kindAt, hk₂] at hk
      contradiction
  · dsimp only at hi hk ⊢
    obtain rfl | rfl | rfl := hcases i hi
    · rw [hs₀, if_pos rfl, if_pos rfl, Core.kindAt, hk₀]
      exact ⟨hrep₀, iff_of_true hkind₀ rfl⟩
    · rw [hs₁, if_neg (by decide), if_neg (by decide), Core.kindAt, hk₁]
      exact ⟨hrep₁, iff_of_false (by simp [hkind₁]) (by simp)⟩
    · rw [hs₂, SmallKind, Core.kindAt, hk₂] at hk
      simp at hk
  · dsimp only at hi hk hg ⊢
    rw [(member_freedBitmap _ g).mp hg]
    obtain rfl | rfl | rfl := hcases i hi
    · rw [hs₀, if_pos rfl, if_pos rfl]
      exact held_freedBitmap (by decide)
    · rw [hs₁, if_neg (by decide), if_neg (by decide)]
      exact held_freedBitmap (by decide)
    · rw [hs₂, SmallKind, Core.kindAt, hk₂] at hk
      simp at hk

/-- The full drain takes the frees in the order of the slots; the small segment it empties is
recycled and the Large one leaves the table. -/
lemma drain_freedCore :
    (freedCore.bind fun c => c.drainSidecarIngress releaseBuild fun _ => 0).map
        (fun p => (p.2, (List.range 3).map p.1.table.slots, p.1.decommitted (2 * segment))) =
      some (freedBefore, [segment, 0, 0], true) := by
  decide +kernel

/-- Enough bounded drains of one unit take the three frees as the full drain does. -/
theorem drains_exact_freed : ∃ c c₁ c₂ cursor freed wraps, freedCore = some c ∧
    c.drainSidecarIngress releaseBuild (fun _ => 0) = some (c₁, freedBefore) ∧
    (List.range 3).map c₁.table.slots = [segment, 0, 0] ∧
    c₁.decommitted (2 * segment) = true ∧
    c.runBounded releaseBuild (List.replicate 36885 (1, fun _ => 0)) (7, 7) =
      some (c₂, cursor, freed, wraps) ∧
    freed.Perm freedBefore := by
  obtain ⟨c, hc, hvalid, hrouted, hcount⟩ := valid_freedCore
  obtain ⟨c₁, full, c₂, cursor, freed, wraps, hfull, -, hrun, -, hround, hwraps⟩ :=
    ((drains_exact releaseBuild c hvalid).2 hrouted).1 (fun _ => 0) (7, 7)
      (List.replicate 36885 (1, fun _ => 0))
      fun call hcall => by rw [List.eq_of_mem_replicate hcall]
  have hview := drain_freedCore
  rw [hc, Option.bind_some, hfull, Option.map_some] at hview
  obtain ⟨rfl, hview⟩ := Prod.mk.inj (Option.some.inj hview)
  obtain ⟨hslots, hgone⟩ := Prod.mk.inj hview
  have hwrapped : 2 ≤ wraps := hwraps (by
    have hwords : Sidecar.words = 4096 := by decide
    rw [hwords, hcount, List.length_replicate])
  exact ⟨c, c₁, c₂, cursor, freed, wraps, hc, hfull, hslots, hgone, hrun, hround (.inl hwrapped)⟩

end MaintenanceDrain

end SeferAlloc
