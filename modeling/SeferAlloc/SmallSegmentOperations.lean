import SeferAlloc.SmallSegmentInvariant

/-!
# The operations of a small segment

Each operation, on a segment that represents some blocks, runs to its end and
leaves a segment that represents the blocks with the state of the ones it
handed out or took back.
-/
namespace SeferAlloc
namespace Small

namespace Blocks

/-- All the listed blocks change their state. -/
def putAll (b : Blocks) (offs : List ℕ) (st : BlockState) : Blocks :=
  { b with place := fun x => if x ∈ offs then st else b.place x }

lemma putAll_nil (b : Blocks) (st : BlockState) : b.putAll [] st = b := by
  simp [putAll]

lemma putAll_cons (b : Blocks) (x : ℕ) (offs : List ℕ) (st : BlockState) :
    b.putAll (x :: offs) st = (b.put x st).putAll offs st := by
  simp only [putAll, put, mk.injEq, true_and]
  funext y
  by_cases hy : y = x <;> simp [hy]

lemma put_eq_self {b : Blocks} {x : ℕ} {st : BlockState} (h : b.place x = st) : b.put x st = b := by
  subst h
  simp [put]

lemma putAll_singleton (b : Blocks) (x : ℕ) (st : BlockState) : b.putAll [x] st = b.put x st := by
  rw [putAll_cons, putAll_nil]

lemma putAll_append (b : Blocks) (xs ys : List ℕ) (st : BlockState) :
    b.putAll (xs ++ ys) st = (b.putAll xs st).putAll ys st := by
  simp only [putAll, mk.injEq, true_and]
  funext y
  by_cases hx : y ∈ xs <;> by_cases hy : y ∈ ys <;> simp [hx, hy]

/-- A run of `n` blocks is carved from `start` on. -/
def carveRun (bd : Build) (b : Blocks) (cls : ℕ) (st : BlockState) (start : ℕ) : ℕ → Blocks
  | 0 => b
  | i + 1 => (carveRun bd b cls st start i).carve (start + i * bd.sizes.blockSize cls) cls st

end Blocks

section
variable {bd : Build} {s : Segment} {b : Blocks} {cls x L : ℕ} {prev : Option ℕ}

/-! ## Allocation -/

lemma writeByte_frame (s : Segment) (off cls : ℕ) (st : BlockState) :
    (s.writeByte bd off cls st).head = s.head ∧ (s.writeByte bd off cls st).live = s.live ∧
      (s.writeByte bd off cls st).kind = s.kind ∧ (s.writeByte bd off cls st).bump = s.bump ∧
      (s.writeByte bd off cls st).next = s.next := by
  simp only [Segment.writeByte]
  split_ifs <;> exact ⟨rfl, rfl, rfl, rfl, rfl⟩

/-- The kind and the bump cursor stay. -/
structure Segment.Framed (s s' : Segment) : Prop where
  kind : s'.kind = s.kind
  bump : s'.bump = s.bump

lemma Segment.Framed.trans {s s₁ s₂ : Segment} (h₁ : s.Framed s₁) (h₂ : s₁.Framed s₂) :
    s.Framed s₂ :=
  ⟨h₂.kind.trans h₁.kind, h₂.bump.trans h₁.bump⟩

lemma setHead_framed (s : Segment) (cls : ℕ) (off : Option ℕ) : s.Framed (s.setHead cls off) :=
  ⟨rfl, rfl⟩

lemma writeNext_framed (s : Segment) (off : ℕ) (next : Option ℕ) :
    s.Framed (s.writeNext off next) :=
  ⟨rfl, rfl⟩

lemma writeByte_framed (s : Segment) (off cls : ℕ) (st : BlockState) :
    s.Framed (s.writeByte bd off cls st) :=
  ⟨(writeByte_frame s off cls st).2.2.1, (writeByte_frame s off cls st).2.2.2.1⟩

lemma addLive_framed {s s' : Segment} {n : ℕ} (h : s.addLive n = some s') : s.Framed s' := by
  rw [Segment.addLive, Option.ite_none_right_eq_some] at h
  obtain ⟨-, h⟩ := h
  injection h with h
  subst h
  exact ⟨rfl, rfl⟩

lemma subLive_framed {s s' : Segment} {n : ℕ} (h : s.subLive n = some s') : s.Framed s' := by
  rw [Segment.subLive, Option.ite_none_right_eq_some] at h
  obtain ⟨-, h⟩ := h
  injection h with h
  subst h
  exact ⟨rfl, rfl⟩

/-- A segment whose head and counter are stored last. -/
lemma Represents.store {s : Segment} {head : Option ℕ} {live n : ℕ} (hl : s.live = live)
    (h : Represents bd (s.settle cls head (live + n)) b) :
    (s.setHead cls head).addLive n = some (s.settle cls head (live + n)) := by
  have := h.live_le
  simp only [Segment.settle] at this
  rw [Segment.addLive, if_pos (by simpa only [Segment.setHead, hl] using this)]
  simp [Segment.setHead, Segment.settle, hl]

theorem popFree_spec (h : Represents bd s b) (cls : ℕ) (ok : Bool) :
    (∃ x s', s.popFree bd cls ok = some (s', .ok (some x)) ∧ (x, cls) ∈ b.carved ∧
      b.place x = .free ∧ Represents bd s' (b.put x .live)) ∨
    ∃ r, s.popFree bd cls ok = some (s, r) ∧ ∀ x, r ≠ .ok (some x) := by
  cases hh : s.head cls with
  | none => exact .inr ⟨.ok none, by simp only [Segment.popFree, hh], by simp⟩
  | some x =>
      have hs : Represents bd (s.settle cls (some x) s.live) b := by
        rw [← hh, Segment.settle_self]
        exact h
      have hlive : BlockState.live ≠ .free := by decide
      obtain ⟨hx, hfree, hbyte, hcont, hs'⟩ := hs.take hlive
      cases ok with
      | false =>
          refine .inr ⟨.error (), ?_, by simp⟩
          simp [Segment.popFree, hh, hcont]
      | true =>
          refine .inl ⟨x, _, ?_, hx, hfree, hs'⟩
          have hok : ¬((bd.debugAssertions = true) ∧
              (s.setHead cls (s.next x)).byte (x / minBlock) ≠ encode cls .free) := by
            rintro ⟨hd, hb⟩
            exact hb (hbyte (by simp [Build.tracked, hd]))
          have hstore := hs'.store (s := s.writeByte bd x cls .live) (writeByte_frame _ _ _ _).2.1
          have hcomm : (s.setHead cls (s.next x)).writeByte bd x cls .live =
              (s.writeByte bd x cls .live).setHead cls (s.next x) := by
            simp only [Segment.writeByte, Segment.setHead]
            split_ifs <;> rfl
          simp only [Segment.popFree, hh, hcont, Option.bind_eq_bind, Option.bind_some, if_true]
          rw [if_neg hok, hcomm, hstore]
          rfl

/-- The loop of a batch drain, with its head and counter stored. -/
lemma drainLoop_spec {st : BlockState} (hst : st ≠ .free) (want : ℕ) {s : Segment} {b : Blocks}
    {head : Option ℕ} {L : ℕ} (h : Represents bd (s.settle cls head L) b) :
    ∃ s' out rest, Segment.drainLoop bd cls st want head s = some (s', out, rest) ∧
      s'.live = s.live ∧ out.length ≤ want ∧ out.Nodup ∧
      (∀ x ∈ out, (x, cls) ∈ b.carved ∧ b.place x = .free) ∧
      Represents bd (s'.settle cls rest (L + out.length)) (b.putAll out st) := by
  induction want generalizing s b head L with
  | zero =>
      refine ⟨s, [], head, rfl, rfl, le_rfl, List.nodup_nil, by simp, ?_⟩
      rw [b.putAll_nil]
      exact h
  | succ want ih =>
      cases head with
      | none =>
          refine ⟨s, [], none, rfl, rfl, Nat.zero_le _, List.nodup_nil, by simp, ?_⟩
          rw [b.putAll_nil]
          exact h
      | some x =>
          obtain ⟨hx, hfree, -, hcont, hs⟩ := h.take hst
          obtain ⟨s', out, rest, hloop, hlive, hlen, hnodup, hout, hrep⟩ := ih hs
          -- The block just taken is no longer free, so it is not drained again.
          have hxout : x ∉ out := by
            intro hm
            have := (hout x hm).2
            simp [Blocks.put, hst] at this
          refine ⟨s', x :: out, rest, ?_, hlive.trans (writeByte_frame _ _ _ _).2.1, by simpa using
            hlen, List.nodup_cons.mpr ⟨hxout, hnodup⟩, fun y hy => ?_, ?_⟩
          · rw [Segment.drainLoop, hcont]
            simp [hloop]
          · obtain rfl | hy := List.mem_cons.mp hy
            · exact ⟨hx, hfree⟩
            · have hne : y ≠ x := fun he => hxout (he ▸ hy)
              simpa [Blocks.put, hne] using hout y hy
          · rw [b.putAll_cons, List.length_cons, Nat.add_comm out.length, ← Nat.add_assoc]
            exact hrep

lemma drainLoop_framed {st : BlockState} (want : ℕ) {s s' : Segment} {head rest : Option ℕ}
    {out : List ℕ} (h : Segment.drainLoop bd cls st want head s = some (s', out, rest)) :
    s.Framed s' := by
  induction want generalizing s head out with
  | zero =>
      simp only [Segment.drainLoop, Option.some.injEq, Prod.mk.injEq] at h
      rw [h.1]
      exact ⟨rfl, rfl⟩
  | succ want ih =>
      cases head with
      | none =>
          simp only [Segment.drainLoop, Option.some.injEq, Prod.mk.injEq] at h
          rw [h.1]
          exact ⟨rfl, rfl⟩
      | some x =>
          simp only [Segment.drainLoop, Option.bind_eq_bind, Option.bind_eq_some_iff] at h
          obtain ⟨next, -, ⟨s₁, out₁, rest₁⟩, hloop, he⟩ := h
          simp only [Option.pure_def, Option.some.injEq, Prod.mk.injEq] at he
          rw [he.1, he.2.2] at hloop
          exact (writeByte_framed _ _ _ _).trans (ih hloop)

theorem tryDrainFreelistBatch_spec (h : Represents bd s b) (cls want : ℕ) {st : BlockState}
    (hst : st ≠ .free) :
    ∃ s' out, s.tryDrainFreelistBatch bd cls want st = some (s', out) ∧ out.length ≤ want ∧
      out.Nodup ∧ (∀ x ∈ out, (x, cls) ∈ b.carved ∧ b.place x = .free) ∧ s'.bump = s.bump ∧
      Represents bd s' (b.putAll out st) := by
  rw [Segment.tryDrainFreelistBatch]
  split_ifs with h0
  · exact ⟨s, [], rfl, Nat.zero_le _, List.nodup_nil, by simp, rfl, by rwa [b.putAll_nil]⟩
  · have hs : Represents bd (s.settle cls (s.head cls) s.live) b := by rwa [Segment.settle_self]
    obtain ⟨s', out, rest, hloop, hlive, hlen, hnodup, hout, hrep⟩ := drainLoop_spec hst want hs
    have hbump := (drainLoop_framed want hloop).bump
    refine ⟨s'.settle cls rest (s.live + out.length), out, ?_, hlen, hnodup, hout, hbump, hrep⟩
    simp [hloop, hrep.store hlive]

lemma alignUp_spec {n a : ℕ} (ha : 0 < a) : n ≤ alignUp n a ∧ alignUp n a % a = 0 := by
  refine ⟨?_, Nat.mul_mod_left _ _⟩
  have h1 := Nat.div_add_mod (n + a - 1) a
  have h2 := Nat.mod_lt (n + a - 1) ha
  rw [Nat.mul_comm] at h1
  rw [alignUp]
  omega

theorem carveBlock_spec (h : Represents bd s b) (hcls : cls < bd.sizes.count) (ok : Bool) :
    (∃ off s', s.carveBlock bd cls ok = some (s', some off) ∧ s.bump ≤ off ∧
      Represents bd s' (b.carve off cls .live)) ∨
    s.carveBlock bd cls ok = some (s, none) := by
  obtain ⟨h1, h2⟩ := alignUp_spec (n := s.bump) (bd.sizes.blockSize_granular cls).1
  simp only [Segment.carveBlock]
  split_ifs with hroom hok
  · exact .inr rfl
  · have hlive : BlockState.live ≠ .free := by decide
    have hrep := h.carve hcls h1 h2 (by omega) hlive
    refine .inl ⟨_, _, ?_, h1, hrep⟩
    have hle := hrep.live_le
    rw [(writeByte_frame _ _ _ _).2.1] at hle
    rw [Segment.addLive, if_pos (by exact hle)]
    rfl
  · exact .inr rfl

/-- The state bytes of a run, with the cursor and the counter moved along. -/
lemma writeRun_spec {st : BlockState} (hst : st ≠ .free) (h : Represents bd s b)
    (hcls : cls < bd.sizes.count) {start : ℕ} (hstart : s.bump ≤ start)
    (hgrid : start % bd.sizes.blockSize cls = 0) (n : ℕ)
    (hend : start + n * bd.sizes.blockSize cls ≤ segment) (hn : 0 < n) :
    Represents bd (Segment.writeRun bd cls st start
        { s with bump := start + n * bd.sizes.blockSize cls, live := s.live + n } n)
      (b.carveRun bd cls st start n) := by
  -- Writing bytes commutes with moving the cursor and the counter.
  have hmove : ∀ (s : Segment) (bump live bump' live' i : ℕ),
      { Segment.writeRun bd cls st start { s with bump := bump', live := live' } i with
        bump := bump, live := live } =
      Segment.writeRun bd cls st start { s with bump := bump, live := live } i := by
    intro s bump live bump' live' i
    induction i with
    | zero => rfl
    | succ i ih =>
        rw [Segment.writeRun, Segment.writeRun, ← ih]
        simp only [Segment.writeByte]
        split_ifs <;> rfl
  have hframe : ∀ (s : Segment) (i : ℕ), (Segment.writeRun bd cls st start s i).live = s.live ∧
      (Segment.writeRun bd cls st start s i).bump = s.bump := by
    intro s i
    induction i with
    | zero => exact ⟨rfl, rfl⟩
    | succ i ih =>
        rw [Segment.writeRun, (writeByte_frame _ _ _ _).2.1, (writeByte_frame _ _ _ _).2.2.2.1]
        exact ih
  induction n with
  | zero => contradiction
  | succ n ih =>
      have hsize : (n + 1) * bd.sizes.blockSize cls =
          n * bd.sizes.blockSize cls + bd.sizes.blockSize cls := Nat.succ_mul _ _
      have hgrid' : (start + n * bd.sizes.blockSize cls) % bd.sizes.blockSize cls = 0 := by
        rw [Nat.add_mul_mod_self_right, hgrid]
      rw [Segment.writeRun, Blocks.carveRun]
      rw [← hmove s _ _ (if n = 0 then s.bump else start + n * bd.sizes.blockSize cls)
        (s.live + n)]
      have hprev : Represents bd (Segment.writeRun bd cls st start { s with
          bump := if n = 0 then s.bump else start + n * bd.sizes.blockSize cls
          live := s.live + n } n) (b.carveRun bd cls st start n) := by
        by_cases h0 : n = 0
        · subst h0
          simpa [Segment.writeRun, Blocks.carveRun] using h
        · simp only [if_neg h0]
          exact ih (by omega) (by omega)
      have hbump : (Segment.writeRun bd cls st start { s with
          bump := if n = 0 then s.bump else start + n * bd.sizes.blockSize cls
          live := s.live + n } n).bump ≤ start + n * bd.sizes.blockSize cls := by
        rw [(hframe _ _).2]
        split_ifs with h0
        · exact hstart.trans (Nat.le_add_right _ _)
        · exact le_rfl
      have hnext := hprev.carve hcls hbump hgrid' (by omega) hst
      rw [(hframe _ _).1] at hnext
      rw [hsize, ← Nat.add_assoc, ← Nat.add_assoc]
      exact hnext

theorem tryCarveBatch_spec (h : Represents bd s b) (hcls : cls < bd.sizes.count) (want : ℕ)
    {st : BlockState} (hst : st ≠ .free) (grant : Grant) :
    (∃ start n s', s.tryCarveBatch bd cls want st grant = some (s', .ok (if st = .mag then
        (Segment.runOffsets bd cls start n).reverse else Segment.runOffsets bd cls start n)) ∧
        n ≤ want ∧ s.bump ≤ start ∧ s.bump ≤ s'.bump ∧
        Represents bd s' (b.carveRun bd cls st start n)) ∨
    s.tryCarveBatch bd cls want st grant = some (s, .error ()) := by
  obtain ⟨h1, h2⟩ := alignUp_spec (n := s.bump) (bd.sizes.blockSize_granular cls).1
  have stay : ∃ start n s', (some (s, .ok []) : Option (Segment × Except Unit (List ℕ))) =
      some (s', .ok (if st = .mag then (Segment.runOffsets bd cls start n).reverse
        else Segment.runOffsets bd cls start n)) ∧
        n ≤ want ∧ s.bump ≤ start ∧ s.bump ≤ s'.bump ∧
        Represents bd s' (b.carveRun bd cls st start n) :=
    ⟨s.bump, 0, s, by simp [Segment.runOffsets], Nat.zero_le _, le_rfl, le_rfl, h⟩
  simp only [Segment.tryCarveBatch]
  by_cases h0 : want = 0
  · rw [if_pos h0]
    exact .inl stay
  by_cases hroom : segment < alignUp s.bump (bd.sizes.blockSize cls) + bd.sizes.blockSize cls
  · rw [if_neg h0, if_pos hroom]
    exact .inl stay
  · rw [if_neg h0, if_neg hroom]
    cases grant with
    | noLeaf => exact .inr rfl
    | noPages => exact .inl stay
    | ok =>
        set start := alignUp s.bump (bd.sizes.blockSize cls)
        set n := min want ((segment - start) / bd.sizes.blockSize cls) with hn
        have hpos := (bd.sizes.blockSize_granular cls).1
        have hfit : n * bd.sizes.blockSize cls ≤ segment - start :=
          (Nat.mul_le_mul_right _ (min_le_right _ _)).trans (Nat.div_mul_le_self _ _)
        have hone : 1 ≤ (segment - start) / bd.sizes.blockSize cls :=
          (Nat.one_le_div_iff hpos).mpr (by omega)
        have hrep := writeRun_spec hst h hcls h1 h2 n (by omega) (by omega)
        have hframe : ∀ i, (Segment.writeRun bd cls st start { s with
            bump := start + n * bd.sizes.blockSize cls, live := s.live + n } i).live =
              s.live + n ∧
            (Segment.writeRun bd cls st start { s with
              bump := start + n * bd.sizes.blockSize cls, live := s.live + n } i).bump =
              start + n * bd.sizes.blockSize cls := by
          intro i
          induction i with
          | zero => exact ⟨rfl, rfl⟩
          | succ i ih =>
              rw [Segment.writeRun, (writeByte_frame _ _ _ _).2.1,
                (writeByte_frame _ _ _ _).2.2.2.1]
              exact ih
        refine .inl ⟨start, n, _, ?_, min_le_left _ _, h1, ?_, hrep⟩
        rotate_left
        · rw [(hframe n).2]
          exact h1.trans (Nat.le_add_right _ _)
        have hle : s.live + n ≤ segment / minBlock := by
          have hlive := hrep.live_le
          rwa [(hframe n).1] at hlive
        simp only [Segment.addLive, if_pos hle]
        rfl

/-! ## Frees -/

/-- The blocks a caller may free under a class: blocks of that class, each in the caller's
hands and once, unless the misuse checks are there to reject the others. -/
def Freeable (bd : Build) (b : Blocks) (cls : ℕ) (offs : List ℕ) : Prop :=
  (∀ x ∈ offs, (x, cls) ∈ b.carved) ∧
    (bd.misuseChecks = true ∨ offs.Nodup ∧ ∀ x ∈ offs, b.place x ≠ .free)

/-- The checks of `flush_run` and `dealloc_small` find a carved block where it should be. -/
lemma Represents.in_payload (h : Represents bd s b) {x : ℕ} (hx : (x, cls) ∈ b.carved) :
    bd.payloadStart s.kind ≤ x ∧ x < s.bump ∧ x % minBlock = 0 ∧ cls < 63 := by
  obtain ⟨h1, h2, -, h4⟩ := h.placed _ hx
  have := (bd.sizes.blockSize_granular cls).1
  exact ⟨h2, by dsimp only at h4; omega, h.granular hx, bd.class_lt h1⟩

lemma shadowReject_of_misuse {α : Type*} (hm : bd.misuseChecks = true) (result : α) :
    shadowReject bd result = some result := by
  simp [shadowReject, hm]

lemma Represents.in_span (h : Represents bd (s.settle cls prev L) b) (hx : (x, cls) ∈ b.carved) :
    ¬(bd.tracked = true ∧ (x < bd.payloadStart s.kind ∨
      s.bump - bd.payloadStart s.kind ≤ x - bd.payloadStart s.kind)) := by
  obtain ⟨h1, h2, -, -⟩ := h.in_payload hx
  simp only [Segment.settle] at h1 h2
  rintro ⟨-, hc⟩
  omega

/-- The loop of a flush accepts a block that is not free. -/
lemma flushLoop_held (h : Represents bd (s.settle cls prev L) b) (hx : (x, cls) ∈ b.carved)
    (hne : b.place x ≠ .free) {offs : List ℕ} {s' : Segment} {prev' : Option ℕ} {n : ℕ}
    (hloop : Segment.flushLoop bd cls offs (some x) ((s.writeNext x prev).writeByte bd x cls .free) =
      some (s', prev', n)) :
    Segment.flushLoop bd cls (x :: offs) prev s = some (s', prev', n + 1) := by
  have h63 := (h.in_payload hx).2.2.2
  have haccept : ¬(bd.tracked = true ∧
      (s.byte (x / minBlock) &&& 0x3F ≠ BitVec.ofNat 8 (cls + 1) ∨
        s.byte (x / minBlock) >>> 6 = BitVec.ofNat 8 BlockState.free.code)) := by
    rintro ⟨ht, hc⟩
    rw [show s.byte (x / minBlock) = encode cls (b.place x) from h.bytes ht _ hx,
      encode_class h63, encode_state h63] at hc
    exact hne (code_injective (hc.resolve_left fun hne => hne rfl))
  simp only [Segment.flushLoop]
  rw [if_neg (h.in_span hx), if_neg haccept, hloop]
  rfl

/-- The loop of a flush, with its head and counter stored. -/
lemma flushLoop_spec (offs : List ℕ) {s : Segment} {b : Blocks} {prev : Option ℕ} {L : ℕ}
    (h : Represents bd (s.settle cls prev L) b) (hf : Freeable bd b cls offs) :
    ∃ s' prev' accepted, Segment.flushLoop bd cls offs prev s = some (s', prev', accepted) ∧
      s'.live = s.live ∧ accepted ≤ L ∧ (accepted = 0 → s' = s ∧ prev' = prev) ∧
      Represents bd (s'.settle cls prev' (L - accepted)) (b.putAll offs .free) := by
  induction offs generalizing s b prev L with
  | nil =>
      refine ⟨s, prev, 0, rfl, rfl, Nat.zero_le _, fun _ => ⟨rfl, rfl⟩, ?_⟩
      rw [b.putAll_nil, Nat.sub_zero]
      exact h
  | cons x offs ih =>
      obtain ⟨hcarved, hheld⟩ := hf
      have hx := hcarved x (by simp)
      have h63 := (h.in_payload hx).2.2.2
      by_cases hfree : b.place x = .free
      · -- A block that is free already: only the misuse checks let a caller pass it.
        have hm : bd.misuseChecks = true := hheld.resolve_right fun hn => hn.2 x (by simp) hfree
        have ht : bd.tracked = true := by simp [Build.tracked, hm]
        obtain ⟨s', prev', accepted, hloop, hlive, hle, hzero, hrep⟩ :=
          ih h ⟨fun y hy => hcarved y (by simp [hy]), .inl hm⟩
        refine ⟨s', prev', accepted, ?_, hlive, hle, hzero, ?_⟩
        · have hreject : bd.tracked = true ∧
              (s.byte (x / minBlock) &&& 0x3F ≠ BitVec.ofNat 8 (cls + 1) ∨
                s.byte (x / minBlock) >>> 6 = BitVec.ofNat 8 BlockState.free.code) := by
            refine ⟨ht, .inr ?_⟩
            rw [show s.byte (x / minBlock) = encode cls (b.place x) from h.bytes ht _ hx, hfree,
              encode_state h63]
          simp only [Segment.flushLoop]
          rw [if_neg (h.in_span hx), if_pos hreject, shadowReject_of_misuse hm]
          exact hloop
        · rw [b.putAll_cons, Blocks.put_eq_self hfree]
          exact hrep
      · obtain ⟨hL, hs⟩ := h.give hx hfree
        have hf' : Freeable bd (b.put x .free) cls offs := by
          refine ⟨fun y hy => hcarved y (by simp [hy]), hheld.imp id fun hn => ?_⟩
          obtain ⟨hnodup, hn⟩ := hn
          rw [List.nodup_cons] at hnodup
          refine ⟨hnodup.2, fun y hy => ?_⟩
          have hyx : y ≠ x := fun he => hnodup.1 (he ▸ hy)
          simpa [Blocks.put, hyx] using hn y (by simp [hy])
        obtain ⟨s', prev', accepted, hloop, hlive, hle, -, hrep⟩ := ih hs hf'
        refine ⟨s', prev', accepted + 1, ?_, ?_, by omega, by simp, ?_⟩
        · exact flushLoop_held h hx hfree hloop
        · exact hlive.trans (writeByte_frame _ _ _ _).2.1
        · rw [b.putAll_cons, show L - (accepted + 1) = L - 1 - accepted by omega]
          exact hrep

lemma flushLoop_framed (offs : List ℕ) {s s' : Segment} {prev prev' : Option ℕ} {n : ℕ}
    (h : Segment.flushLoop bd cls offs prev s = some (s', prev', n)) :
    s.Framed s' := by
  induction offs generalizing s prev n with
  | nil =>
      simp only [Segment.flushLoop, Option.some.injEq, Prod.mk.injEq] at h
      rw [h.1]
      exact ⟨rfl, rfl⟩
  | cons x offs ih =>
      simp only [Segment.flushLoop] at h
      split_ifs at h
      · exact ih h
      · simp only [Option.bind_eq_bind, Option.bind_eq_some_iff] at h
        obtain ⟨-, -, hloop⟩ := h
        exact ih hloop
      · simp only [Option.bind_eq_bind, Option.bind_eq_some_iff] at h
        obtain ⟨⟨s₁, prev₁, n₁⟩, hloop, he⟩ := h
        simp only [Option.pure_def, Option.some.injEq, Prod.mk.injEq] at he
        rw [he.1, he.2.1] at hloop
        exact ((writeNext_framed _ _ _).trans (writeByte_framed _ _ _ _)).trans (ih hloop)

theorem flushRun_spec (h : Represents bd s b) {offs : List ℕ} (hf : Freeable bd b cls offs) :
    ∃ s' n, s.flushRun bd cls offs = some (s', n) ∧ s'.bump = s.bump ∧
      Represents bd s' (b.putAll offs .free) := by
  have hs : Represents bd (s.settle cls (s.head cls) s.live) b := by rwa [Segment.settle_self]
  obtain ⟨s', prev, accepted, hloop, hlive, hle, hzero, hrep⟩ := flushLoop_spec offs hs hf
  have hbump := (flushLoop_framed offs hloop).bump
  refine ⟨s'.settle cls prev (s.live - accepted), accepted, ?_, hbump, hrep⟩
  rw [Segment.flushRun, hloop]
  simp only [Option.bind_eq_bind, Option.bind_some]
  by_cases h0 : accepted = 0
  · obtain ⟨rfl, rfl⟩ := hzero h0
    subst h0
    simp [Segment.subLive, Segment.settle]
  · rw [if_neg h0, Segment.subLive, if_pos (by rw [Segment.setHead, hlive]; exact hle)]
    simp [Segment.setHead, Segment.settle, hlive]

/-- A live block goes on its list. -/
lemma Represents.push (h : Represents bd s b) {x : ℕ} (hx : (x, cls) ∈ b.carved)
    (hlive : b.place x = .live) :
    ∃ s', (((s.writeNext x (s.head cls)).setHead cls (some x)).writeByte bd x cls .free).subLive 1 =
      some s' ∧ Represents bd s' (b.put x .free) := by
  have hs : Represents bd (s.settle cls (s.head cls) s.live) b := by rwa [Segment.settle_self]
  obtain ⟨hL, hrep⟩ := hs.give hx (by simp [hlive])
  refine ⟨_, ?_, hrep⟩
  rw [Segment.subLive, (writeByte_frame _ _ _ _).2.1, if_pos (by exact hL)]
  simp only [Segment.writeByte, Segment.setHead, Segment.writeNext, Segment.settle]
  split_ifs <;> rfl

/-- A live block goes on its list; with the misuse checks, any other is rejected. -/
theorem deallocSmall_spec (h : Represents bd s b) {x : ℕ} (hx : (x, cls) ∈ b.carved)
    (hheld : b.place x = .live ∨ bd.misuseChecks = true) :
    ∃ s', s.deallocSmall bd x cls = some (s', decide (b.place x = .live)) ∧
      Represents bd s' (if b.place x = .live then b.put x .free else b) := by
  obtain ⟨h1, h2, h3, h63⟩ := h.in_payload hx
  by_cases hlive : b.place x = .live
  · have haccept : ¬(bd.tracked = true ∧ (x < bd.payloadStart s.kind ∨ s.bump ≤ x ∨
        x % minBlock ≠ 0 ∨ s.byte (x / minBlock) ≠ encode cls .live)) := by
      rintro ⟨ht, hc⟩
      have := h.bytes ht _ hx
      rw [hlive] at this
      rcases hc with hc | hc | hc | hc
      · omega
      · omega
      · exact hc h3
      · exact hc this
    obtain ⟨s', hpush, hrep⟩ := h.push hx hlive
    rw [Segment.deallocSmall, if_neg haccept, if_neg (by simpa using h3), if_pos hlive, hpush]
    exact ⟨s', by simp [hlive], hrep⟩
  · have hm := hheld.resolve_left hlive
    have ht : bd.tracked = true := by simp [Build.tracked, hm]
    refine ⟨s, ?_, by rwa [if_neg hlive]⟩
    rw [Segment.deallocSmall, if_pos, shadowReject_of_misuse hm]
    · simp [hlive]
    · refine ⟨ht, .inr (.inr (.inr fun hb => hlive ?_))⟩
      rw [h.bytes ht _ hx] at hb
      exact (encode_injective h63 h63 hb).2

/-- The same for a block that another thread freed. -/
theorem reclaimSidecarRecord_spec (h : Represents bd s b) {x : ℕ} (hx : (x, cls) ∈ b.carved)
    (hheld : b.place x = .live ∨ bd.misuseChecks = true) :
    ∃ s', s.reclaimSidecarRecord bd x cls = some (s', decide (b.place x = .live)) ∧
      Represents bd s' (if b.place x = .live then b.put x .free else b) := by
  obtain ⟨hcls, h1, h2, h3⟩ := h.placed _ hx
  have h63 := bd.class_lt hcls
  have hgeometry : ¬(bd.tracked = true ∧ (x < bd.payloadStart s.kind ∨
      x % bd.sizes.blockSize cls ≠ 0 ∨ s.bump < x + bd.sizes.blockSize cls)) := by
    rintro ⟨-, hc⟩
    simp only at h1 h2 h3
    rcases hc with hc | hc | hc
    · omega
    · exact hc h2
    · omega
  rw [Segment.reclaimSidecarRecord, if_neg (not_le.mpr hcls), if_neg hgeometry]
  by_cases hlive : b.place x = .live
  · have haccept : ¬(bd.tracked = true ∧
        (s.byte (x / minBlock) >>> 6 = BitVec.ofNat 8 BlockState.free.code ∨
          s.byte (x / minBlock) >>> 6 = BitVec.ofNat 8 BlockState.mag.code)) := by
      rintro ⟨ht, hc⟩
      rw [h.bytes ht _ hx, hlive, encode_state h63] at hc
      rcases hc with hc | hc <;> exact absurd (code_injective hc) (by simp)
    obtain ⟨s', hpush, hrep⟩ := h.push hx hlive
    rw [if_neg haccept, hpush, if_pos hlive]
    exact ⟨s', by simp [hlive], hrep⟩
  · have hm := hheld.resolve_left hlive
    have ht : bd.tracked = true := by simp [Build.tracked, hm]
    refine ⟨s, ?_, by rwa [if_neg hlive]⟩
    rw [if_pos, shadowReject_of_misuse hm]
    · simp [hlive]
    · refine ⟨ht, ?_⟩
      rw [h.bytes ht _ hx, encode_state h63]
      cases hp : b.place x with
      | live => exact (hlive hp).elim
      | mag => exact .inr rfl
      | free => exact .inl rfl

/-- A magazine takes a block or hands it out. -/
theorem setState_spec (h : Represents bd s b) {x : ℕ} (hx : (x, cls) ∈ b.carved)
    (hne : b.place x ≠ .free) {st : BlockState} (hst : st ≠ .free) :
    Represents bd (s.setState bd x st) (b.put x st) := by
  have hframe : (s.setState bd x st).kind = s.kind ∧ (s.setState bd x st).bump = s.bump ∧
      (s.setState bd x st).live = s.live ∧ (s.setState bd x st).head = s.head ∧
      (s.setState bd x st).next = s.next := by
    simp only [Segment.setState]
    split_ifs <;> exact ⟨rfl, rfl, rfl, rfl, rfl⟩
  obtain ⟨hkind, hbump, hlive, hhead, hnext⟩ := hframe
  have hcount := h.liveCount_put hx st
  rw [if_neg hne, if_neg hst] at hcount
  have hbyte : bd.tracked = true → (s.setState bd x st).byte =
      Function.update s.byte (x / minBlock) (encode cls st) := by
    intro ht
    rw [Segment.setState, if_pos ht]
    simp only
    rw [show s.byte (x / minBlock) = _ from h.bytes ht _ hx,
      encode_setState (h.in_payload hx).2.2.2]
  refine ⟨fun d => ?_, ?_, ?_, h.apart, ?_, ?_, fun ht => ?_, fun ht g hg => ?_⟩
  · obtain ⟨l, hl, hmem⟩ := h.lists d
    rw [hnext, hhead]
    refine ⟨l, hl, fun y => ?_⟩
    rw [hmem y]
    by_cases hy : y = x
    · subst y
      simp [Blocks.put, hne, hst]
    · simp [Blocks.put, hy]
  · rw [hlive, h.live]
    omega
  · rw [hkind, hbump]
    exact h.placed
  · rw [hkind, hbump]
    exact h.cursor
  · rw [hbump]
    exact h.room
  · rw [hbyte ht]
    exact h.bytes_put hx st ht
  · rw [hbyte ht]
    exact h.blank_put hx _ ht hg

/-! ## Frames -/

lemma popFree_framed {ok : Bool} {s' : Segment} {r : Except Unit (Option ℕ)}
    (h : s.popFree bd cls ok = some (s', r)) : s.Framed s' := by
  simp only [Segment.popFree] at h
  split at h
  · injection h with h
    injection h with h
    subst h
    exact ⟨rfl, rfl⟩
  · simp only [Option.bind_eq_bind, Option.bind_eq_some_iff] at h
    obtain ⟨next, -, h⟩ := h
    split_ifs at h
    · simp only [Option.pure_def, Option.bind_eq_some_iff, Option.some.injEq, Prod.mk.injEq] at h
      obtain ⟨s₁, hs₁, rfl, -⟩ := h
      exact ((setHead_framed _ _ _).trans (writeByte_framed _ _ _ _)).trans (addLive_framed hs₁)
    · injection h with h
      injection h with h
      subst h
      exact ⟨rfl, rfl⟩

lemma tryDrainFreelistBatch_framed {want : ℕ} {st : BlockState} {s' : Segment} {out : List ℕ}
    (h : s.tryDrainFreelistBatch bd cls want st = some (s', out)) : s.Framed s' := by
  rw [Segment.tryDrainFreelistBatch] at h
  split_ifs at h
  · injection h with h
    injection h with h
    subst h
    exact ⟨rfl, rfl⟩
  · simp only [Option.bind_eq_bind, Option.bind_eq_some_iff] at h
    obtain ⟨⟨s₁, out₁, rest⟩, hloop, s₂, hs₂, he⟩ := h
    injection he with he
    injection he with he
    subst he
    exact ((drainLoop_framed want hloop).trans (setHead_framed _ _ _)).trans (addLive_framed hs₂)

/-- A block put on its list. -/
lemma push_framed {off : ℕ} {s' : Segment}
    (h : (((s.writeNext off (s.head cls)).setHead cls (some off)).writeByte bd off cls
      .free).subLive 1 = some s') : s.Framed s' :=
  (((writeNext_framed _ _ _).trans (setHead_framed _ _ _)).trans (writeByte_framed _ _ _ _)).trans
    (subLive_framed h)

lemma deallocSmall_framed {off : ℕ} {s' : Segment} {accepted : Bool}
    (h : s.deallocSmall bd off cls = some (s', accepted)) : s.Framed s' := by
  rw [Segment.deallocSmall, shadowReject] at h
  split_ifs at h
  · injection h with h
    injection h with h
    subst h
    exact ⟨rfl, rfl⟩
  · injection h with h
    injection h with h
    subst h
    exact ⟨rfl, rfl⟩
  · simp only [Option.bind_eq_bind, Option.bind_eq_some_iff] at h
    obtain ⟨s₁, hs₁, he⟩ := h
    injection he with he
    injection he with he
    subst he
    exact push_framed hs₁

lemma reclaimSidecarRecord_framed {off : ℕ} {s' : Segment} {accepted : Bool}
    (h : s.reclaimSidecarRecord bd off cls = some (s', accepted)) : s.Framed s' := by
  rw [Segment.reclaimSidecarRecord, shadowReject] at h
  split_ifs at h
  · injection h with h
    injection h with h
    subst h
    exact ⟨rfl, rfl⟩
  · simp only [Option.bind_eq_bind, Option.bind_eq_some_iff] at h
    obtain ⟨s₁, hs₁, he⟩ := h
    injection he with he
    injection he with he
    subst he
    exact push_framed hs₁

lemma flushRun_framed {offs : List ℕ} {s' : Segment} {n : ℕ}
    (h : s.flushRun bd cls offs = some (s', n)) : s.Framed s' := by
  simp only [Segment.flushRun, Option.bind_eq_bind, Option.bind_eq_some_iff] at h
  obtain ⟨⟨s₁, prev, accepted⟩, hloop, s₂, hs₂, he⟩ := h
  injection he with he
  injection he with he
  subst he
  have hset : s₁.Framed (if accepted = 0 then s₁ else s₁.setHead cls prev) := by
    split_ifs
    · exact ⟨rfl, rfl⟩
    · exact setHead_framed _ _ _
  exact ((flushLoop_framed offs hloop).trans hset).trans (subLive_framed hs₂)

lemma setState_framed (s : Segment) (off : ℕ) (st : BlockState) :
    s.Framed (s.setState bd off st) := by
  simp only [Segment.setState]
  split_ifs
  · exact ⟨rfl, rfl⟩
  · exact ⟨rfl, rfl⟩

/-! ## Carves -/

/-- The kind stays and the cursor passes at least a granule for each of `n` blocks; it stays
where there is none. -/
structure Segment.Advanced (n : ℕ) (s s' : Segment) : Prop where
  kind : s'.kind = s.kind
  bump : s.bump + minBlock * n ≤ s'.bump
  still : n = 0 → s'.bump = s.bump

lemma Segment.Framed.advanced {s s' : Segment} (h : s.Framed s') : Segment.Advanced 0 s s' :=
  ⟨h.kind, by rw [Nat.mul_zero, Nat.add_zero, h.bump], fun _ => h.bump⟩

lemma carveBlock_advanced {ok : Bool} {s' : Segment} {r : Option ℕ}
    (h : s.carveBlock bd cls ok = some (s', r)) : Segment.Advanced r.toList.length s s' := by
  obtain ⟨hle, -⟩ := alignUp_spec (n := s.bump) (bd.sizes.blockSize_granular cls).1
  have hmin := bd.sizes.minBlock_le_blockSize cls
  have stay : Segment.Advanced 0 s s := ⟨rfl, le_rfl, fun _ => rfl⟩
  simp only [Segment.carveBlock] at h
  split_ifs at h
  · injection h with h
    injection h with h hr
    subst h hr
    exact stay
  · simp only [Option.bind_eq_bind, Option.bind_eq_some_iff] at h
    obtain ⟨s₁, hs₁, he⟩ := h
    injection he with he
    injection he with he hr
    subst he hr
    have hframe := (addLive_framed hs₁).trans
      (@writeByte_framed bd s₁ (alignUp s.bump (bd.sizes.blockSize cls)) cls .live)
    refine ⟨hframe.kind, ?_, fun h0 => absurd h0 (by simp)⟩
    rw [hframe.bump]
    simp only [Option.toList_some, List.length_singleton, Nat.mul_one]
    omega
  · injection h with h
    injection h with h hr
    subst h hr
    exact stay

lemma writeRun_framed (st : BlockState) (start : ℕ) (s : Segment) (n : ℕ) :
    s.Framed (Segment.writeRun bd cls st start s n) := by
  induction n with
  | zero => exact ⟨rfl, rfl⟩
  | succ n ih => exact ih.trans (writeByte_framed _ _ _ _)

lemma tryCarveBatch_advanced {want : ℕ} {st : BlockState} {grant : Grant} {s' : Segment}
    {out : List ℕ} (h : s.tryCarveBatch bd cls want st grant = some (s', .ok out)) :
    Segment.Advanced out.length s s' := by
  obtain ⟨hle, -⟩ := alignUp_spec (n := s.bump) (bd.sizes.blockSize_granular cls).1
  have hmin := bd.sizes.minBlock_le_blockSize cls
  have stay : Segment.Advanced 0 s s := ⟨rfl, le_rfl, fun _ => rfl⟩
  simp only [Segment.tryCarveBatch] at h
  by_cases h0 : want = 0
  · rw [if_pos h0] at h
    simp only [Option.some.injEq, Prod.mk.injEq, Except.ok.injEq] at h
    rw [← h.1, ← h.2]
    exact stay
  by_cases hroom : segment < alignUp s.bump (bd.sizes.blockSize cls) + bd.sizes.blockSize cls
  · rw [if_neg h0, if_pos hroom] at h
    simp only [Option.some.injEq, Prod.mk.injEq, Except.ok.injEq] at h
    rw [← h.1, ← h.2]
    exact stay
  · rw [if_neg h0, if_neg hroom] at h
    cases grant with
    | noLeaf => simp at h
    | noPages =>
        simp only [Option.some.injEq, Prod.mk.injEq, Except.ok.injEq] at h
        rw [← h.1, ← h.2]
        exact stay
    | ok =>
        set start := alignUp s.bump (bd.sizes.blockSize cls)
        set n := min want ((segment - start) / bd.sizes.blockSize cls) with hn
        simp only [Option.bind_eq_bind, Option.bind_eq_some_iff] at h
        obtain ⟨s₁, hs₁, he⟩ := h
        simp only [Option.pure_def, Option.some.injEq, Prod.mk.injEq, Except.ok.injEq] at he
        obtain ⟨rfl, rfl⟩ := he
        have hlen : (if st = .mag then (Segment.runOffsets bd cls start n).reverse
            else Segment.runOffsets bd cls start n).length = n := by
          split_ifs <;> simp [Segment.runOffsets]
        have hone : 1 ≤ (segment - start) / bd.sizes.blockSize cls :=
          (Nat.one_le_div_iff (bd.sizes.blockSize_granular cls).1).mpr (by omega)
        have hframe : Segment.Framed _ (Segment.writeRun bd cls st start s₁ n) :=
          (addLive_framed hs₁).trans (writeRun_framed st start s₁ n)
        rw [hlen]
        refine ⟨hframe.kind, ?_, fun hz => absurd hz (by omega)⟩
        have hsize := Nat.mul_le_mul_right n hmin
        rw [Nat.mul_comm (bd.sizes.blockSize cls)] at hsize
        rw [hframe.bump]
        simp only
        omega

/-- A granted carve takes a block wherever there is room for one. -/
lemma carveBlock_granted {s' : Segment} {r : Option ℕ}
    (hroom : alignUp s.bump (bd.sizes.blockSize cls) + bd.sizes.blockSize cls ≤ segment)
    (h : s.carveBlock bd cls true = some (s', r)) : r ≠ none := by
  simp only [Segment.carveBlock] at h
  rw [if_neg (not_lt.mpr hroom), if_pos trivial] at h
  simp only [Option.bind_eq_bind, Option.bind_eq_some_iff] at h
  obtain ⟨s₁, -, he⟩ := h
  simp only [Option.pure_def, Option.some.injEq, Prod.mk.injEq] at he
  rw [← he.2]
  exact Option.some_ne_none _

/-- The same for a batch. -/
lemma tryCarveBatch_granted {want : ℕ} {st : BlockState} {s' : Segment} {r : Except Unit (List ℕ)}
    (hwant : 0 < want)
    (hroom : alignUp s.bump (bd.sizes.blockSize cls) + bd.sizes.blockSize cls ≤ segment)
    (h : s.tryCarveBatch bd cls want st .ok = some (s', r)) : ∃ out, r = .ok out ∧ out ≠ [] := by
  simp only [Segment.tryCarveBatch] at h
  rw [if_neg (by omega), if_neg (by omega)] at h
  set start := alignUp s.bump (bd.sizes.blockSize cls)
  set n := min want ((segment - start) / bd.sizes.blockSize cls) with hn
  simp only [Option.bind_eq_bind, Option.bind_eq_some_iff] at h
  obtain ⟨s₁, -, he⟩ := h
  simp only [Option.pure_def, Option.some.injEq, Prod.mk.injEq] at he
  refine ⟨_, he.2.symm, fun hnil => ?_⟩
  have hone : 1 ≤ (segment - start) / bd.sizes.blockSize cls :=
    (Nat.one_le_div_iff (bd.sizes.blockSize_granular cls).1).mpr (by omega)
  have hlen := congrArg List.length hnil
  split_ifs at hlen <;> simp [Segment.runOffsets] at hlen <;> omega

/-! ## Rejected frees -/

/-- With the misuse checks, freeing a granule whose byte says FREE changes nothing. -/
theorem deallocSmall_of_free (hm : bd.misuseChecks = true) {off d : ℕ} (hd : d < 63)
    (hc : cls < 63) (hb : s.byte (off / minBlock) = encode d .free) :
    s.deallocSmall bd off cls = some (s, false) := by
  rw [Segment.deallocSmall, if_pos, shadowReject_of_misuse hm]
  refine ⟨by simp [Build.tracked, hm], .inr (.inr (.inr fun he => ?_))⟩
  have := (encode_injective hd hc (hb.symm.trans he)).2
  contradiction

theorem flushRun_of_free (hm : bd.misuseChecks = true) {off d : ℕ} (hd : d < 63)
    (hb : s.byte (off / minBlock) = encode d .free) : s.flushRun bd cls [off] = some (s, 0) := by
  have ht : bd.tracked = true := by simp [Build.tracked, hm]
  have hstate : s.byte (off / minBlock) >>> 6 = BitVec.ofNat 8 BlockState.free.code := by
    rw [hb, encode_state hd]
  have hloop : Segment.flushLoop bd cls [off] (s.head cls) s = some (s, s.head cls, 0) := by
    simp only [Segment.flushLoop]
    split_ifs with h1 h2
    · rfl
    · rw [shadowReject_of_misuse hm]
      rfl
    · exact (h2 ⟨ht, .inr hstate⟩).elim
  rw [Segment.flushRun, hloop]
  simp [Segment.subLive]

end

end Small

end SeferAlloc
