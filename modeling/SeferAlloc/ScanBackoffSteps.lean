import SeferAlloc.ScanBackoff

/-!
# What searches and commands leave alone

A search drains and releases, but no segment that stays changes its bump
cursor. A command of the callers moves the cursor of the segment it carves by
at least a granule for each block. The first segment is never released, and the
current one stays the current one.
-/
namespace SeferAlloc
namespace Small
namespace World

/-- From one world to another the current segment is the same, every segment that is still
mapped has moved its cursor with the blocks it carved, and no primordial segment was released. -/
structure Moves (w w' : World) : Prop where
  current : w'.heap.smallCur = w.heap.smallCur
  mapped : ∀ base, w'.heap.mapped base = true → w.heap.mapped base = true
  segs : ∀ base, w'.heap.mapped base = true → ∃ n,
    (w'.blocks base).carved.length = (w.blocks base).carved.length + n ∧
    Segment.Advanced n (w.heap.segs base) (w'.heap.segs base)
  stays : ∀ base, w.heap.mapped base = true → (w.heap.segs base).kind = .primordial →
    w'.heap.mapped base = true

/-- The same where no block is carved. -/
structure Leaves (w w' : World) : Prop where
  current : w'.heap.smallCur = w.heap.smallCur
  mapped : ∀ base, w'.heap.mapped base = true → w.heap.mapped base = true
  segs : ∀ base, w'.heap.mapped base = true →
    (w'.blocks base).carved = (w.blocks base).carved ∧
    (w.heap.segs base).Framed (w'.heap.segs base)
  stays : ∀ base, w.heap.mapped base = true → (w.heap.segs base).kind = .primordial →
    w'.heap.mapped base = true

variable {bd : Build} {w w₁ w₂ : World}

lemma Leaves.refl (w : World) : w.Leaves w where
  current := rfl
  mapped _ h := h
  segs _ _ := ⟨rfl, rfl, rfl⟩
  stays _ h _ := h

lemma Leaves.trans (h₁ : w.Leaves w₁) (h₂ : w₁.Leaves w₂) : w.Leaves w₂ where
  current := h₂.current.trans h₁.current
  mapped base hm := h₁.mapped base (h₂.mapped base hm)
  segs base hm := by
    obtain ⟨hc₂, hf₂⟩ := h₂.segs base hm
    obtain ⟨hc₁, hf₁⟩ := h₁.segs base (h₂.mapped base hm)
    exact ⟨hc₂.trans hc₁, hf₁.trans hf₂⟩
  stays base hm hk := by
    have hm₁ := h₁.stays base hm hk
    exact h₂.stays base hm₁ ((h₁.segs base hm₁).2.kind.trans hk)

lemma Leaves.moves (h : w.Leaves w₁) : w.Moves w₁ where
  current := h.current
  mapped := h.mapped
  segs base hm := by
    obtain ⟨hc, hf⟩ := h.segs base hm
    exact ⟨0, by rw [hc, Nat.add_zero], hf.advanced⟩
  stays := h.stays

lemma Moves.put {base n : ℕ} {s : Segment} {b : Blocks}
    (hs : Segment.Advanced n (w.heap.segs base) s)
    (hb : b.carved.length = (w.blocks base).carved.length + n) : w.Moves (w.put base s b) where
  current := rfl
  mapped _ h := h
  segs x _ := by
    by_cases hx : x = base
    · subst x
      exact ⟨n, by simpa [World.put] using hb, by simpa [World.put, Heap.set] using hs⟩
    · refine ⟨0, by simp [World.put, hx], ?_⟩
      simpa [World.put, Heap.set, hx] using
        (⟨rfl, rfl⟩ : (w.heap.segs x).Framed (w.heap.segs x)).advanced
  stays _ h _ := h

lemma Leaves.put {base : ℕ} {s : Segment} {b : Blocks} (hs : (w.heap.segs base).Framed s)
    (hb : b.carved = (w.blocks base).carved) : w.Leaves (w.put base s b) where
  current := rfl
  mapped _ h := h
  segs x _ := by
    by_cases hx : x = base
    · subst x
      exact ⟨by simpa [World.put] using hb, by simpa [World.put, Heap.set] using hs⟩
    · exact ⟨by simp [World.put, hx], by simp [World.put, Heap.set, hx], by
        simp [World.put, Heap.set, hx]⟩
  stays _ h _ := h

lemma Leaves.retire (w : World) (base : ℕ) (pooled : Bool) :
    w.Leaves ⟨(w.heap.retire base pooled).1, w.blocks⟩ := by
  simp only [Heap.retire]
  split_ifs with hc hp
  · exact Leaves.refl w
  · constructor
    · rfl
    · intro x hx
      by_cases hxb : x = base
      · subst x
        simp at hx
      · simpa [hxb] using hx
    · exact fun _ _ => ⟨rfl, rfl, rfl⟩
    · intro x hx hk
      have hxb : x ≠ base := by
        intro he
        rw [he, hc.2.2] at hk
        contradiction
      simpa [hxb] using hx
  · exact Leaves.refl w

/-! ## Flushes -/

lemma flushClass_leaves (cls : ℕ) (pooled : ℕ → Bool) (blocks : ℕ → Blocks) (n : ℕ) :
    ∀ {ps : List ℕ} {recycled : List ℕ} {h h' : Heap}, ps.length ≤ n →
      h.flushClass bd cls pooled ps recycled = some h' →
      (⟨h, blocks⟩ : World).Leaves ⟨h', blocks⟩ := by
  induction n with
  | zero =>
      intro ps recycled h h' hlen he
      obtain rfl := List.eq_nil_of_length_eq_zero (Nat.le_zero.mp hlen)
      rw [Heap.flushClass, Option.some.injEq] at he
      subst he
      exact Leaves.refl _
  | succ n ih =>
      intro ps recycled h h' hlen he
      cases ps with
      | nil =>
          rw [Heap.flushClass, Option.some.injEq] at he
          subst he
          exact Leaves.refl _
      | cons p rest =>
          rw [Heap.flushClass] at he
          have hrest : (rest.dropWhile (Heap.sameSegment (segmentBaseOfPtr p))).length ≤ n :=
            (List.dropWhile_suffix _).length_le.trans (Nat.le_of_succ_le_succ hlen)
          by_cases h0 : p = 0
          · rw [if_pos h0] at he
            exact ih (Nat.le_of_succ_le_succ hlen) he
          rw [if_neg h0] at he
          by_cases hin : segmentBaseOfPtr p ∉ recycled ∧ h.mapped (segmentBaseOfPtr p) = true
          · simp only [if_pos hin, Option.bind_eq_bind, Option.bind_eq_some_iff] at he
            obtain ⟨⟨s, accepted⟩, hrun, he⟩ := he
            have hset : (⟨h, blocks⟩ : World).Leaves
                ⟨h.set (segmentBaseOfPtr p) s, blocks⟩ := by
              have := Leaves.put (w := ⟨h, blocks⟩) (b := blocks (segmentBaseOfPtr p))
                (flushRun_framed hrun) rfl
              simpa [World.put] using this
            refine Leaves.trans ?_ (ih hrest he)
            split_ifs
            · exact hset
            · exact hset.trans (Leaves.retire ⟨h.set _ s, blocks⟩ _ _)
          · rw [if_neg hin] at he
            exact ih hrest he

/-! ## Commands -/

lemma carveAll_length (b : Blocks) (cls : ℕ) (st : BlockState) (offs : List ℕ) :
    (b.carveAll cls st offs).carved.length = b.carved.length + offs.length := by
  induction offs generalizing b with
  | nil => rfl
  | cons off offs ih =>
      change ((b.carve off cls st).carveAll cls st offs).carved.length = _
      rw [ih, List.length_cons, Blocks.carve, List.length_cons]
      omega

lemma carve_moves {cls : ℕ} {ok : Bool} (he : w.exec bd (.carve cls ok) = some w₁) :
    w.Moves w₁ := by
  simp only [World.exec, Option.bind_eq_bind, Option.bind_eq_some_iff] at he
  obtain ⟨⟨s, off⟩, hcarve, he⟩ := he
  have hadv := carveBlock_advanced hcarve
  cases off with
  | none =>
      injection he with he
      subst he
      exact Moves.put hadv rfl
  | some off =>
      injection he with he
      subst he
      exact Moves.put hadv rfl

lemma carveBatch_moves (h : w.Sound bd) {cls want : ℕ} {st : BlockState} {grant : Grant}
    (hcls : cls < bd.sizes.count) (hst : st ≠ .free)
    (he : w.exec bd (.carveBatch cls want st grant) = some w₁) : w.Moves w₁ := by
  simp only [World.exec, Heap.carveCurrent, Option.bind_eq_bind, Option.bind_eq_some_iff,
    Option.pure_def, Option.some.injEq] at he
  obtain ⟨⟨h', out⟩, ⟨⟨s, out'⟩, hcarve, hout⟩, he⟩ := he
  injection hout with hh hout
  subst hh hout
  cases out' with
  | error u =>
      injection he with he
      subst he
      obtain ⟨start, n, s', hc, -⟩ | hc := tryCarveBatch_spec (h.represents _ h.current) hcls want
        hst grant
      · rw [hc] at hcarve
        simp at hcarve
      · rw [hc] at hcarve
        injection hcarve with hcarve
        injection hcarve with hcarve
        subst hcarve
        have hput : w.Leaves (w.put w.heap.smallCur (w.heap.segs w.heap.smallCur)
            (w.blocks w.heap.smallCur)) := .put ⟨rfl, rfl⟩ rfl
        simpa [World.put] using hput.moves
  | ok offs =>
      injection he with he
      subst he
      refine Moves.put (tryCarveBatch_advanced hcarve) ?_
      rw [carveAll_length]
      split_ifs
      · rw [List.length_reverse]
      · rfl

lemma drainFrom_leaves {cls want base : ℕ} {st : BlockState} {h' : Heap} {out : List ℕ}
    (he : w.heap.drainFrom bd cls want st (some base) = some (h', out)) :
    w.Leaves (w.record cls st h' [.drained base out]) := by
  rw [Heap.drainFrom] at he
  split_ifs at he with hm
  · simp only [Option.bind_eq_bind, Option.bind_eq_some_iff] at he
    obtain ⟨⟨s, out'⟩, hdrain, he⟩ := he
    injection he with he
    injection he with he hout
    subst he hout
    exact Leaves.put (tryDrainFreelistBatch_framed hdrain) rfl
  · injection he with he
    injection he with he hout
    subst he hout
    rw [record_drained_nil]
    exact Leaves.refl w

end World

/-- The commands that carve nothing. -/
def Command.quiet : Command → Bool
  | .refill .. | .reserve .. | .carve .. | .carveBatch .. => false
  | .popFree .. | .drainBatch .. | .flush .. | .dealloc .. | .reclaim .. | .setState ..
  | .trim .. => true

/-- The commands that search for nothing and reserve nothing. -/
def Command.direct : Command → Bool
  | .refill .. | .reserve .. => false
  | .carve .. | .carveBatch .. | .popFree .. | .drainBatch .. | .flush .. | .dealloc ..
  | .reclaim .. | .setState .. | .trim .. => true

namespace World
variable {bd : Build} {w w₁ : World}

lemma exec_leaves {c : Command} (hq : c.quiet = true) (he : w.exec bd c = some w₁) :
    w.Leaves w₁ := by
  cases c with
  | carve cls ok => contradiction
  | carveBatch cls want st grant => contradiction
  | popFree base cls ok =>
      simp only [World.exec, Option.bind_eq_bind, Option.bind_eq_some_iff] at he
      obtain ⟨⟨s, r⟩, hpop, he⟩ := he
      have hs := popFree_framed hpop
      rcases r with _ | _ | off
      · injection he with he
        subst he
        exact Leaves.put hs rfl
      · injection he with he
        subst he
        exact Leaves.put hs rfl
      · injection he with he
        subst he
        exact Leaves.put (b := (w.blocks base).put off .live) hs rfl
  | drainBatch base cls want st =>
      simp only [World.exec, Option.bind_eq_bind, Option.bind_eq_some_iff] at he
      obtain ⟨⟨h', out⟩, hdrain, he⟩ := he
      injection he with he
      subst he
      exact drainFrom_leaves hdrain
  | refill cls want st rounds => contradiction
  | flush cls ps pooled =>
      simp only [World.exec, World.flush, Option.bind_eq_bind, Option.bind_eq_some_iff] at he
      obtain ⟨h', hflush, he⟩ := he
      injection he with he
      subst he
      have hleaves := flushClass_leaves cls pooled w.blocks _ le_rfl hflush
      exact ⟨hleaves.current, hleaves.mapped, hleaves.segs, hleaves.stays⟩
  | dealloc base off cls pooled =>
      simp only [World.exec, Option.bind_eq_bind, Option.bind_eq_some_iff] at he
      obtain ⟨⟨s, accepted⟩, hfree, he⟩ := he
      injection he with he
      subst he
      have hput : w.Leaves (w.put base s
          (if accepted = true then (w.blocks base).put off .free else w.blocks base)) := by
        refine Leaves.put (deallocSmall_framed hfree) ?_
        split_ifs <;> rfl
      dsimp only
      split_ifs with ha
      · rw [if_pos ha] at hput
        exact hput.trans (Leaves.retire _ base pooled)
      · rw [if_neg ha] at hput
        exact hput
  | reclaim base off cls pooled =>
      simp only [World.exec, Option.bind_eq_bind, Option.bind_eq_some_iff] at he
      obtain ⟨⟨s, accepted⟩, hfree, he⟩ := he
      injection he with he
      subst he
      have hput : w.Leaves (w.put base s
          (if accepted = true then (w.blocks base).put off .free else w.blocks base)) := by
        refine Leaves.put (reclaimSidecarRecord_framed hfree) ?_
        split_ifs <;> rfl
      dsimp only
      split_ifs with ha
      · rw [if_pos ha] at hput
        exact hput.trans (Leaves.retire _ base pooled)
      · rw [if_neg ha] at hput
        exact hput
  | setState base off cls st =>
      injection he with he
      subst he
      exact Leaves.put (b := (w.blocks base).put off st) (setState_framed _ off st) rfl
  | reserve base pooled => contradiction
  | trim base =>
      injection he with he
      subst he
      exact Leaves.retire w base false

lemma exec_moves (h : w.Sound bd) {c : Command} (hc : w.Allowed bd c) (hd : c.direct = true)
    (he : w.exec bd c = some w₁) : w.Moves w₁ := by
  cases c with
  | carve cls ok => exact carve_moves he
  | carveBatch cls want st grant => exact carveBatch_moves h hc.1 hc.2 he
  | refill cls want st rounds => contradiction
  | reserve base pooled => contradiction
  | popFree base cls ok => exact (exec_leaves rfl he).moves
  | drainBatch base cls want st => exact (exec_leaves rfl he).moves
  | flush cls ps pooled => exact (exec_leaves rfl he).moves
  | dealloc base off cls pooled => exact (exec_leaves rfl he).moves
  | reclaim base off cls pooled => exact (exec_leaves rfl he).moves
  | setState base off cls st => exact (exec_leaves rfl he).moves
  | trim base => exact (exec_leaves rfl he).moves

end World
end Small

namespace ScanBackoff
open SeferAlloc.Small

/-! ## Recordings -/

/-- The word holds what was packed. A window lies between the cursor of the scan and the end of
the segment, and is no longer than a sixteenth of what the scan drained. The cursor has moved
with the blocks carved since the scan. -/
structure Recording.Holds (r : Recording) (word : BitVec 32) (bump carved : ℕ) : Prop where
  packed : unpack word = (r.start, r.stop, r.streak)
  inside : r.start < r.stop →
    r.bump ≤ r.start ∧ r.stop ≤ segment ∧ r.stop - r.start ≤ r.drained / 16
  carves : ∃ n, carved = r.carved + n ∧ r.bump + minBlock * n ≤ bump ∧ (n = 0 → bump = r.bump)

lemma Recording.Holds.advance {r : Recording} {word : BitVec 32} {s s' : Segment} {carved n : ℕ}
    (h : r.Holds word s.bump carved) (hs : Segment.Advanced n s s') :
    r.Holds word s'.bump (carved + n) := by
  obtain ⟨m, hm, hle, hstill⟩ := h.carves
  refine ⟨h.packed, h.inside, m + n, by omega, ?_, fun h0 => ?_⟩
  · have := hs.bump
    rw [Nat.mul_add]
    omega
  · rw [hs.still (by omega), hstill (by omega)]

/-- A recording with no carve since leaves the window shut. -/
lemma Recording.Holds.idle {r : Recording} {word : BitVec 32} {bump carved : ℕ}
    (h : r.Holds word bump carved) (hc : carved = r.carved) : ¬(r.start < bump ∧ bump < r.stop) := by
  obtain ⟨n, hn, -, hstill⟩ := h.carves
  rintro ⟨h1, h2⟩
  have hbump := hstill (by omega)
  have := (h.inside (h1.trans h2)).1
  omega

namespace Core

/-- The word of a segment is what the scan that stored it recorded, or 0. -/
def Noted (c : Core) (base : ℕ) : Prop :=
  match c.recorded base with
  | none => c.window base = 0
  | some r => r.Holds (c.window base) (c.seg base).bump (c.carvedCount base)

/-- Every mapped segment has a slot and its word is noted; the first one is mapped. -/
structure Valid (bd : Build) (c : Core) : Prop where
  sound : c.world.Sound bd
  first : c.world.heap.mapped c.primordial = true ∧ (c.seg c.primordial).kind = .primordial
  slots : ∀ base, c.world.heap.mapped base = true → some base ∈ c.slots
  noted : ∀ base, c.world.heap.mapped base = true → c.Noted base

/-- The current segment's window is not open. -/
def Closed (c : Core) : Prop :=
  ¬((unpack (c.window c.smallCur)).1 < (c.seg c.smallCur).bump ∧
    (c.seg c.smallCur).bump < (unpack (c.window c.smallCur)).2.1)

variable {bd : Build} {c c₁ c₂ : Core}

lemma Valid.moves (h : c.Valid bd) {w : World} (hs : w.Sound bd) (hm : c.world.Moves w) :
    ({ c with world := w } : Core).Valid bd where
  sound := hs
  first := by
    have hmap := hm.stays _ h.first.1 h.first.2
    obtain ⟨n, -, hadv⟩ := hm.segs _ hmap
    exact ⟨hmap, hadv.kind.trans h.first.2⟩
  slots base hb := h.slots base (hm.mapped base hb)
  noted base hb := by
    have hn := h.noted base (hm.mapped base hb)
    obtain ⟨n, hlen, hadv⟩ := hm.segs base hb
    rw [Noted] at hn ⊢
    dsimp only
    cases hr : c.recorded base with
    | none =>
        rw [hr] at hn
        exact hn
    | some r =>
        rw [hr] at hn
        have := hn.advance hadv
        rw [carvedCount, hlen]
        exact this

lemma setWindow_noted (h : ∀ base, c.world.heap.mapped base = true → c.Noted base)
    {word : BitVec 32} {r : Option Recording}
    (hr : match r with
      | none => word = 0
      | some r => r.Holds word (c.seg c.smallCur).bump (c.carvedCount c.smallCur)) :
    ∀ base, (c.setWindow word r).world.heap.mapped base = true →
      (c.setWindow word r).Noted base := by
  intro base hb
  by_cases hbase : base = c.smallCur
  · subst base
    simp only [Noted, setWindow, Function.update_self]
    exact hr
  · have hn := h base hb
    rw [Noted] at hn ⊢
    simp only [setWindow, Function.update_of_ne hbase]
    exact hn

lemma Valid.setWindow (h : c.Valid bd) {word : BitVec 32} {r : Option Recording}
    (hr : match r with
      | none => word = 0
      | some r => r.Holds word (c.seg c.smallCur).bump (c.carvedCount c.smallCur)) :
    (c.setWindow word r).Valid bd where
  sound := h.sound
  first := h.first
  slots := h.slots
  noted := setWindow_noted h.noted hr

lemma Valid.reset (h : c.Valid bd) : c.resetSidecarDeferStreak.Valid bd := by
  rw [resetSidecarDeferStreak]
  split_ifs
  · exact h.setWindow rfl
  · exact h

lemma reset_window (c : Core) : c.resetSidecarDeferStreak.window c.smallCur = 0 := by
  rw [resetSidecarDeferStreak]
  split_ifs with h0
  · simp [setWindow]
  · simpa using h0

lemma closed_of_unpack {start stop streak : ℕ}
    (h : unpack (c.window c.smallCur) = (start, stop, streak))
    (hout : ¬(start < (c.seg c.smallCur).bump ∧ (c.seg c.smallCur).bump < stop)) : c.Closed := by
  rw [Closed, h]
  exact hout

lemma Closed.not_deferred (h : c.Closed) (n : ℕ) : c.sidecarDrainsDeferred n = false := by
  simp only [sidecarDrainsDeferred, decide_eq_false_iff_not]
  exact fun hopen => h ⟨hopen.1, hopen.2.1⟩

lemma closed_of_window (h : c.window c.smallCur = 0) : c.Closed :=
  closed_of_unpack (h ▸ unpack_zero) fun hopen => absurd hopen.2 (Nat.not_lt_zero _)

lemma setWindow_window (c : Core) (word : BitVec 32) (r : Option Recording) :
    (c.setWindow word r).window (c.setWindow word r).smallCur = word := by
  change (c.setWindow word r).window c.smallCur = word
  simp [setWindow]

/-- What a scan that reclaimed nothing records. -/
lemma Valid.note (h : c.Valid bd) (drainedBytes : ℕ) :
    (c.noteEmptySidecarScan drainedBytes).Valid bd := by
  simp only [noteEmptySidecarScan]
  have hmin : min ((unpack (c.window c.smallCur)).2.2 + 1) 3 < 4 := by omega
  split_ifs with hopen
  · apply h.setWindow
    have hseg : segment = 4194304 := rfl
    simp only [unit, sidecarDeferShift] at hopen
    refine ⟨unpack_pack (by simp only [unit]; omega)
      (by simp only [unit, sidecarDeferShift]; omega) hmin, fun _ => ?_,
      0, by simp, by simp, fun _ => rfl⟩
    simp only [unit, sidecarDeferShift]
    omega
  · apply h.setWindow
    exact ⟨unpack_packStreak hmin, fun h0 => absurd h0 (Nat.lt_irrefl 0), 0, by simp, by simp,
      fun _ => rfl⟩

lemma note_closed (c : Core) (drainedBytes : ℕ) : (c.noteEmptySidecarScan drainedBytes).Closed := by
  simp only [noteEmptySidecarScan]
  have hmin : min ((unpack (c.window c.smallCur)).2.2 + 1) 3 < 4 := by omega
  split_ifs with hopen
  · have hseg : segment = 4194304 := rfl
    simp only [unit, sidecarDeferShift] at hopen
    refine closed_of_unpack ((congrArg unpack (setWindow_window _ _ _)).trans (unpack_pack
      (by simp only [unit]; omega) (by simp only [unit, sidecarDeferShift]; omega) hmin)) ?_
    change ¬(_ < (c.seg c.smallCur).bump ∧ _)
    simp only [unit]
    omega
  · refine closed_of_unpack ((congrArg unpack (setWindow_window _ _ _)).trans
      (unpack_packStreak hmin)) ?_
    exact fun hopen => absurd hopen.2 (Nat.not_lt_zero _)

lemma Valid.current (h : c.Valid bd) : c.world.heap.mapped c.smallCur = true := h.sound.current

/-- The window is shut where nothing was recorded, and where nothing was carved since. -/
lemma Valid.closed_of_idle (h : c.Valid bd)
    (hr : ∀ r, c.recorded c.smallCur = some r → c.carvedCount c.smallCur = r.carved) :
    c.Closed := by
  have hn := h.noted c.smallCur h.current
  rw [Noted] at hn
  cases hrec : c.recorded c.smallCur with
  | none =>
      rw [hrec] at hn
      exact closed_of_window hn
  | some r =>
      rw [hrec] at hn
      exact closed_of_unpack hn.packed (hn.idle (hr r hrec))

/-! ## Searches -/

/-- From one core to another a search ran. It leaves the cursors where they are, and does not open
the window of the current segment. -/
structure Searched (bd : Build) (c c' : Core) : Prop where
  valid : c'.Valid bd
  leaves : c.world.Leaves c'.world
  slots : c'.slots = c.slots
  owner : c'.owner = c.owner
  closed : c.Closed → c'.Closed

lemma Searched.refl (h : c.Valid bd) : c.Searched bd c := ⟨h, .refl _, rfl, rfl, id⟩

lemma Searched.trans (h₁ : c.Searched bd c₁) (h₂ : c₁.Searched bd c₂) : c.Searched bd c₂ :=
  ⟨h₂.valid, h₁.leaves.trans h₂.leaves, h₂.slots.trans h₁.slots, h₂.owner.trans h₁.owner,
    fun hc => h₂.closed (h₁.closed hc)⟩

lemma Searched.smallCur (h : c.Searched bd c₁) : c₁.smallCur = c.smallCur := h.leaves.current

lemma Searched.seg (h : c.Searched bd c₁) : (c.seg c.smallCur).Framed (c₁.seg c.smallCur) :=
  (h.leaves.segs c.smallCur (h.smallCur ▸ h.valid.current)).2

lemma Searched.carvedCount (h : c.Searched bd c₁) :
    c₁.carvedCount c.smallCur = c.carvedCount c.smallCur :=
  congrArg List.length (h.leaves.segs c.smallCur (h.smallCur ▸ h.valid.current)).1

/-- The segments are drained and the words stay. -/
lemma Searched.of_leaves (h : c.Valid bd) {w : World} (hs : w.Sound bd) (hl : c.world.Leaves w) :
    c.Searched bd { c with world := w } where
  valid := h.moves hs hl.moves
  leaves := hl
  slots := rfl
  owner := rfl
  closed hc := by
    have hcur : w.heap.smallCur = c.smallCur := hl.current
    have hbump := (hl.segs c.smallCur (hcur ▸ hs.current)).2.bump
    refine closed_of_unpack (congrArg (fun base => unpack (c.window base)) hcur) ?_
    change ¬(_ < (w.heap.segs w.heap.smallCur).bump ∧ (w.heap.segs w.heap.smallCur).bump < _)
    rw [hcur, hbump]
    exact hc

lemma Searched.of_reset (h : c.Valid bd) : c.Searched bd c.resetSidecarDeferStreak where
  valid := h.reset
  leaves := by
    rw [resetSidecarDeferStreak]
    split_ifs <;> exact .refl _
  slots := by
    rw [resetSidecarDeferStreak]
    split_ifs <;> rfl
  owner := by
    rw [resetSidecarDeferStreak]
    split_ifs <;> rfl
  closed _ := by
    have hw := reset_window c
    have hcur : c.resetSidecarDeferStreak.smallCur = c.smallCur := by
      rw [resetSidecarDeferStreak]
      split_ifs <;> rfl
    rw [← hcur] at hw
    exact closed_of_window hw

lemma Searched.of_note (h : c.Valid bd) (drainedBytes : ℕ) :
    c.Searched bd (c.noteEmptySidecarScan drainedBytes) where
  valid := h.note drainedBytes
  leaves := by
    simp only [noteEmptySidecarScan]
    split_ifs <;> exact .refl _
  slots := by
    simp only [noteEmptySidecarScan]
    split_ifs <;> rfl
  owner := by
    simp only [noteEmptySidecarScan]
    split_ifs <;> rfl
  closed _ := note_closed c drainedBytes

end Core

lemma consumeSmallCuts_spec {bd : Build} {base : ℕ} (records : List (ℕ × ℕ)) {w : World}
    (h : w.Sound bd) (hm : w.heap.mapped base = true) :
    ∃ w' n, consumeSmallCuts bd base records w = some (w', n) ∧ w'.Sound bd ∧ w.Leaves w' ∧
      w'.heap.mapped base = true := by
  induction records generalizing w with
  | nil => exact ⟨w, 0, rfl, h, .refl w, hm⟩
  | cons p rest ih =>
      obtain ⟨off, cls⟩ := p
      rw [consumeSmallCuts]
      split_ifs with hp
      · obtain ⟨s, he, hrep⟩ :=
          reclaimSidecarRecord_spec (h.represents base hm) hp.1 (.inl hp.2)
        rw [if_pos hp.2] at hrep
        have hput : w.Leaves (w.put base s ((w.blocks base).put off .free)) :=
          .put (reclaimSidecarRecord_framed he) rfl
        obtain ⟨w', n, hrun, hs, hl, hm'⟩ := ih (h.put hrep) hm
        refine ⟨w', n + 1, ?_, hs, hput.trans hl, hm'⟩
        simp [he, hp.2, hrun]
      · exact ih h hm

namespace Core
variable {bd : Build} {c c₁ c₂ : Core}

lemma drain_spec (h : c.Valid bd) {base : ℕ} (hm : c.world.heap.mapped base = true) (m : Ingress) :
    ∃ c' outcome, c.drainSegmentSidecar bd base m = some (c', outcome) ∧ c.Searched bd c' ∧
      c'.window = c.window := by
  rw [drainSegmentSidecar]
  split_ifs with hr
  · exact ⟨c, .skipped, rfl, .refl h, rfl⟩
  · obtain ⟨w, n, hrun, hs, hl, -⟩ := consumeSmallCuts_spec (m.pending base) h.sound hm
    by_cases hn : n = 0
    · exact ⟨{ c with world := w }, .skipped, by simp [hrun, hn], .of_leaves h hs hl, rfl⟩
    · refine ⟨{ c with world := ⟨(w.heap.retire base (m.pooled base)).1, w.blocks⟩ }, _,
        by simp [hrun, hn]; rfl, ?_, rfl⟩
      exact .of_leaves h (hs.retire base _) (hl.trans (.retire w base _))

lemma mapped_of_baseAt {slot base : ℕ} (h : c.baseAt slot = some base) :
    c.world.heap.mapped base = true :=
  (Option.filter_eq_some_iff.mp h).2

lemma drainAndLook_spec (h : c.Valid bd) {base : ℕ} (hm : c.world.heap.mapped base = true)
    (cls : ℕ) (drain : Bool) (m : Ingress) :
    ∃ c' hit, c.drainAndLook bd cls base drain m = some (c', hit) ∧ c.Searched bd c' := by
  cases drain with
  | false => exact ⟨c, _, rfl, .refl h⟩
  | true =>
      obtain ⟨c', outcome, he, hs, -⟩ := drain_spec h hm m
      exact ⟨c', _, by simp [drainAndLook, he]; rfl, hs⟩

lemma scanDirectoryCandidates_spec (cls : ℕ) (drain : Bool) (m : Ingress) (slots : List ℕ)
    (h : c.Valid bd) :
    ∃ c' hit, scanDirectoryCandidates bd cls drain m slots c = some (c', hit) ∧
      c.Searched bd c' := by
  induction slots generalizing c with
  | nil => exact ⟨c, none, rfl, .refl h⟩
  | cons slot rest ih =>
      rw [scanDirectoryCandidates]
      cases hb : c.baseAt slot with
      | none => exact ih h
      | some base =>
          obtain ⟨c₁, hit, he, hs⟩ := drainAndLook_spec h (mapped_of_baseAt hb) cls drain m
          simp only [he, Option.bind_eq_bind, Option.bind_some]
          cases hit with
          | true => exact ⟨c₁, some base, rfl, hs⟩
          | false =>
              obtain ⟨c', r, he', hs'⟩ := ih hs.valid
              exact ⟨c', r, he', hs.trans hs'⟩

lemma processIngress_spec (cls : ℕ) (m : Ingress) (slots : List ℕ) (h : c.Valid bd) :
    ∃ c' hit, processIngress bd cls m slots c = some (c', hit) ∧ c.Searched bd c' := by
  induction slots generalizing c with
  | nil => exact ⟨c, none, rfl, .refl h⟩
  | cons slot rest ih =>
      rw [processIngress]
      cases hb : c.baseAt slot with
      | none => exact ih h
      | some base =>
          obtain ⟨c₁, hit, he, hs⟩ := drainAndLook_spec h (mapped_of_baseAt hb) cls true m
          obtain ⟨c', later, he', hs'⟩ := ih hs.valid
          exact ⟨c', if hit then some base else later, by simp [he, he'], hs.trans hs'⟩

/-- The loop of a scan. Where a drain reclaimed, the word of the current segment is 0. A scan
that drains and finds nothing has drained the current segment, if it passed it. -/
lemma linearLoop_spec (cls : ℕ) (deferDrains : Bool) (m : Ingress) (slots : List ℕ)
    (drainedBytes : ℕ) (reclaimed : Bool) (h : c.Valid bd)
    (hr : reclaimed = true → c.window c.smallCur = 0) :
    ∃ c' drainedBytes' reclaimed' found,
      linearLoop bd cls deferDrains m slots drainedBytes reclaimed c =
        some (c', drainedBytes', reclaimed', found) ∧
      c.Searched bd c' ∧ (reclaimed' = true → c'.window c'.smallCur = 0) ∧
      drainedBytes ≤ drainedBytes' ∧
      (deferDrains = false → found = none → (∃ slot ∈ slots, c.slots.getD slot none =
          some c.smallCur) →
        (c.seg c.smallCur).bump -
            sidecarPayloadStartWord bd (c.seg c.smallCur).kind * Sidecar.sidecarWordBytes ≤
          drainedBytes') := by
  induction slots generalizing c drainedBytes reclaimed with
  | nil =>
      refine ⟨c, drainedBytes, reclaimed, none, rfl, .refl h, hr, le_rfl, fun _ _ hex => ?_⟩
      obtain ⟨slot, hslot, -⟩ := hex
      contradiction
  | cons slot rest ih =>
      rw [linearLoop]
      cases hb : c.baseAt slot with
      | none =>
          obtain ⟨c', d, r, found, he, hs, hw, hle, hcur⟩ := ih drainedBytes reclaimed h hr
          refine ⟨c', d, r, found, he, hs, hw, hle, fun hd hf hex => hcur hd hf ?_⟩
          obtain ⟨i, hi, hsl⟩ := hex
          refine ⟨i, ?_, hsl⟩
          -- The slot of the current segment is not vacant.
          rcases List.mem_cons.mp hi with rfl | hi
          · rw [baseAt, hsl, Option.filter_some, if_pos h.current] at hb
            contradiction
          · exact hi
      | some base =>
          have hm := mapped_of_baseAt hb
          simp only
          by_cases hhead : (c.seg base).head cls = none
          swap
          · rw [if_pos hhead]
            exact ⟨c, drainedBytes, reclaimed, some base, rfl, .refl h, hr, le_rfl,
              fun _ hf => absurd hf (by simp)⟩
          rw [if_neg (not_not.mpr hhead)]
          cases hdefer : deferDrains with
          | true =>
              rw [hdefer] at ih
              obtain ⟨c', d, r, found, he, hs, hw, hle, -⟩ := ih drainedBytes reclaimed h hr
              exact ⟨c', d, r, found, he, hs, hw, hle, fun hd => absurd hd (by simp)⟩
          | false =>
              rw [hdefer] at ih
              obtain ⟨c₁, outcome, he₁, hs₁, hw₁⟩ := drain_spec h hm m
              set c₂ := if reclaimed = false ∧ outcome ≠ .skipped then
                c₁.resetSidecarDeferStreak else c₁ with hc₂
              set drained₂ := drainedBytes +
                ((c.seg base).bump -
                  sidecarPayloadStartWord bd (c.seg base).kind * Sidecar.sidecarWordBytes) with hdr
              have hs₂ : c.Searched bd c₂ := by
                rw [hc₂]
                split_ifs
                · exact hs₁.trans (.of_reset hs₁.valid)
                · exact hs₁
              have hr₂ : (reclaimed || decide (outcome ≠ .skipped)) = true →
                  c₂.window c₂.smallCur = 0 := by
                intro hor
                rw [hs₂.smallCur, hc₂]
                split_ifs with hcond
                · rw [← hs₁.smallCur]
                  exact reset_window c₁
                · have : reclaimed = true := by
                    by_contra hrec
                    simp only [Bool.not_eq_true] at hrec
                    simp only [hrec, Bool.false_or, decide_eq_true_eq] at hor
                    exact hcond ⟨hrec, hor⟩
                  rw [hw₁]
                  exact hr this
              simp only [he₁, Option.bind_eq_bind, Option.bind_some]
              rw [← hc₂]
              obtain ⟨c', d, r, found, he, hs, hw, hle, hcur⟩ := ih drained₂ _ hs₂.valid hr₂
              by_cases hhit : outcome ≠ .decommitted false ∧ (c₂.seg base).head cls ≠ none
              · rw [if_pos hhit]
                exact ⟨c₂, drained₂, _, some base, rfl, hs₂, hr₂, by omega,
                  fun _ hf => absurd hf (by simp)⟩
              · rw [if_neg hhit]
                refine ⟨c', d, r, found, he, hs₂.trans hs, hw, by omega, fun _ hf hex => ?_⟩
                obtain ⟨i, hi, hsl⟩ := hex
                rcases List.mem_cons.mp hi with rfl | hi
                · rw [baseAt, hsl, Option.filter_some, if_pos h.current, Option.some.injEq] at hb
                  rw [hb]
                  omega
                · have := hcur rfl hf ⟨i, hi, by rw [hs₂.slots, hs₂.smallCur]; exact hsl⟩
                  rwa [hs₂.smallCur, hs₂.seg.bump, hs₂.seg.kind] at this

/-- A whole scan: where it drains and finds nothing, the window is shut after it. -/
lemma linearScan_spec (h : c.Valid bd) (cls : ℕ) (deferDrains : Bool) (start : ℕ) (m : Ingress) :
    ∃ c' found, c.linearScan bd cls deferDrains start m = some (c', found) ∧ c.Searched bd c' ∧
      (deferDrains = false → found = none → c'.Closed) := by
  obtain ⟨c₁, drained, reclaimed, found, he, hs, hw, -, hcur⟩ := linearLoop_spec cls deferDrains m
    ((List.range c.slots.length).drop start ++ (List.range c.slots.length).take start) 0 false h
    (fun h0 => absurd h0 (by simp))
  rw [linearScan]
  simp only [he, Option.bind_eq_bind, Option.bind_some]
  cases found with
  | some base => exact ⟨c₁, some base, rfl, hs, fun _ hf => absurd hf (by simp)⟩
  | none =>
      simp only
      split_ifs with hnote
      · exact ⟨_, none, rfl, hs.trans (.of_note hs.valid drained), fun _ _ => note_closed c₁ drained⟩
      · refine ⟨c₁, none, rfl, hs, fun hd _ => ?_⟩
        cases hrec : reclaimed with
        | true => exact closed_of_window (hw hrec)
        | false =>
            -- Nothing was drained, so the current segment has carved no block.
            have hzero : drained = 0 := by
              by_contra hne
              exact hnote ⟨hne, hrec⟩
            obtain ⟨i, hi, hsl⟩ := List.getElem_of_mem (h.slots _ h.current)
            have hmem : i ∈ (List.range c.slots.length).drop start ++
                (List.range c.slots.length).take start := by
              have hi' : i ∈ (List.range c.slots.length).take start ++
                  (List.range c.slots.length).drop start := by
                rw [List.take_append_drop]
                exact List.mem_range.mpr hi
              rw [List.mem_append] at hi' ⊢
              exact hi'.symm
            have hle := hcur hd rfl ⟨i, hmem, by
              rw [List.getD_eq_getElem?_getD, List.getElem?_eq_getElem hi, hsl]
              rfl⟩
            refine hs.closed (h.closed_of_idle fun r hr => ?_)
            have hrep := h.sound.represents _ h.current
            have hnil : (c.world.blocks c.smallCur).carved = [] := by
              rw [List.eq_nil_iff_forall_not_mem]
              intro p hp
              obtain ⟨-, h1, -, h2⟩ := hrep.placed p hp
              have := (bd.sizes.blockSize_granular p.2).1
              have hround := Nat.div_mul_le_self
                (bd.payloadStart (c.world.heap.segs c.smallCur).kind) Sidecar.sidecarWordBytes
              simp only [seg, sidecarPayloadStartWord] at hle
              omega
            have hn := h.noted _ h.current
            rw [Noted, hr] at hn
            obtain ⟨n, hcarved, -⟩ := hn.carves
            have hcount : c.carvedCount c.smallCur = 0 := congrArg List.length hnil
            omega

lemma searchDirectory_spec (h : c.Valid bd) (cls : ℕ) (rescue : Bool) (s : Search) :
    ∃ c' hit ends, c.searchDirectory bd cls rescue s = some (c', hit, ends) ∧
      c.Searched bd c' ∧
      (ends = true → hit = none → rescue = false ∧ (c.isRouted = false ∨ c.ingressArmed = true)) := by
  rw [searchDirectory]
  split_ifs with hdir
  · exact ⟨c, none, false, rfl, .refl h, fun h0 => absurd h0 (by simp)⟩
  obtain ⟨c₁, hit₁, he₁, hs₁⟩ := scanDirectoryCandidates_spec cls (!(!rescue && c.ingressArmed))
    s.atCandidates s.candidates h
  simp only [he₁, Option.bind_eq_bind, Option.bind_some]
  by_cases hhit₁ : hit₁.isSome = true
  · rw [if_pos hhit₁]
    exact ⟨c₁, hit₁, true, rfl, hs₁, fun _ h0 => absurd hhit₁ (by simp [h0])⟩
  rw [if_neg hhit₁]
  -- What is left once the notified slots were taken.
  have hrest : ∀ c₂ (hit₂ : Option ℕ), c₁.Searched bd c₂ → ∃ c' hit ends,
      (if hit₂.isSome = true then some (c₂, hit₂, true)
        else if ((!c₂.isRouted || (!rescue && c.ingressArmed)) && !rescue) = true then
          some ((c₂.countMiss cls).1, none, (c₂.countMiss cls).2)
        else some (c₂, none, false)) = some (c', hit, ends) ∧ c.Searched bd c' ∧
      (ends = true → hit = none →
        rescue = false ∧ (c.isRouted = false ∨ c.ingressArmed = true)) := by
    intro c₂ hit₂ hs₂
    have hs := hs₁.trans hs₂
    split_ifs with hhit₂ hmiss
    · exact ⟨c₂, hit₂, true, rfl, hs, fun _ h0 => absurd hhit₂ (by simp [h0])⟩
    · have hmissed : c₂.Searched bd (c₂.countMiss cls).1 := by
        have hv : ∀ miss, ({ c₂ with missStreak := miss } : Core).Valid bd := fun _ =>
          ⟨hs.valid.sound, hs.valid.first, hs.valid.slots, hs.valid.noted⟩
        rw [countMiss]
        split_ifs
        · exact ⟨hv _, .refl _, rfl, rfl, id⟩
        · exact ⟨hv _, .refl _, rfl, rfl, id⟩
      refine ⟨_, none, _, rfl, hs.trans hmissed, fun _ _ => ?_⟩
      simp only [isRouted, hs.owner, Bool.and_eq_true, Bool.or_eq_true, Bool.not_eq_eq_eq_not,
        Bool.not_true] at hmiss
      exact ⟨hmiss.2, hmiss.1.imp id And.right⟩
    · exact ⟨c₂, none, false, rfl, hs, fun h0 => absurd h0 (by simp)⟩
  by_cases hing : (!rescue && c.ingressArmed) = true
  · rw [if_pos hing]
    obtain ⟨c₂, hit₂, he₂, hs₂⟩ := processIngress_spec cls s.atNotified s.notified hs₁.valid
    rw [he₂]
    exact hrest c₂ hit₂ hs₂
  · rw [if_neg hing]
    exact hrest c₁ none (.refl hs₁.valid)

/-- A search runs to its end. Where it may drain every segment and finds nothing, the window of the
current segment is shut after it. -/
lemma find_spec (h : c.Valid bd) (cls : ℕ) (rescue : Bool) (s : Search) :
    ∃ c' found, c.findSegmentWithFree bd cls rescue s = some (c', found) ∧ c.Searched bd c' ∧
      (c.deferDrains bd cls rescue = false → rescue = true ∨ c.isRouted = true → found = none →
        c'.Closed) := by
  obtain ⟨c₁, hit, ends, he₁, hs₁, hends⟩ := searchDirectory_spec h cls rescue s
  rw [findSegmentWithFree]
  simp only [he₁, Option.bind_eq_bind, Option.bind_some]
  cases ends with
  | true =>
      refine ⟨c₁, hit, rfl, hs₁, fun hd hroute hf => ?_⟩
      obtain ⟨hrescue, hor⟩ := hends rfl hf
      obtain hroute | hroute := hroute
      · rw [hroute] at hrescue
        contradiction
      · obtain hor | harmed := hor
        · rw [hroute] at hor
          contradiction
        · rw [deferDrains, hrescue, harmed] at hd
          contradiction
  | false =>
      simp only [Bool.false_eq_true, if_false]
      have hs₂ : c.Searched bd (c₁.maybeMaterializeDirectory s.materialises) := by
        rw [maybeMaterializeDirectory]
        split_ifs
        · exact hs₁
        · exact hs₁.trans ⟨⟨hs₁.valid.sound, hs₁.valid.first, hs₁.valid.slots, hs₁.valid.noted⟩,
            .refl _, rfl, rfl, id⟩
      obtain ⟨c₃, found, he₃, hs₃, hclosed⟩ := linearScan_spec hs₂.valid cls
        (c.deferDrains bd cls rescue) s.start s.atScan
      simp only [he₃, Option.bind_some]
      by_cases hf : found.isSome = true
      · rw [if_pos hf]
        exact ⟨c₃, found, rfl, hs₂.trans hs₃, fun _ _ h0 => absurd hf (by simp [h0])⟩
      rw [if_neg hf]
      have hnone : found = none := by simpa using hf
      by_cases hing : (!rescue && c.ingressArmed) = true
      · rw [if_pos hing]
        obtain ⟨c₄, hit₄, he₄, hs₄⟩ :=
          processIngress_spec cls s.atNotifiedLate s.notifiedLate hs₃.valid
        exact ⟨c₄, hit₄, he₄, (hs₂.trans hs₃).trans hs₄,
          fun hd _ _ => hs₄.closed (hclosed hd hnone)⟩
      · rw [if_neg hing]
        exact ⟨c₃, none, rfl, hs₂.trans hs₃, fun hd _ _ => hclosed hd hnone⟩

end Core
end ScanBackoff
end SeferAlloc
