import SeferAlloc.OracleSteps

/-!
# What the oracle guarantees

The driver holds what its trace says it holds. From this its calls are legal
whatever the allocator does, no check fails against an allocator that keeps the
contract, and a run that ends has found every answer right.
-/
namespace SeferAlloc
namespace AllocatorOracle
variable {σ : Type} {A : RawAllocator σ} {doubleFree : Bool} {s₀ : σ} {m₀ : Memory}
  {w w' : World σ} {st st' : State σ} {opIdx : ℕ} {config : Config}

/-! ## Traces -/

lemma clientAfter_snoc (es : List Event) (e : Event) :
    clientAfter (es ++ [e]) = (clientAfter es).after e := by
  rw [clientAfter, List.foldl_append]
  rfl

lemma lastWritten_wrote (es : List Event) (ptr size : ℕ) (after : Memory) :
    lastWritten (es ++ [.wrote ptr size after]) = fun a =>
      if ptr ≤ a ∧ a < ptr + size then some (after a) else lastWritten es a := by
  rw [lastWritten, List.foldl_append]
  rfl

lemma lastWritten_snoc (es : List Event) {e : Event} (he : ∀ ptr size after,
    e ≠ .wrote ptr size after) : lastWritten (es ++ [e]) = lastWritten es := by
  rw [lastWritten, List.foldl_append]
  cases e with
  | wrote ptr size after => exact absurd rfl (he ptr size after)
  | _ => rfl

/-- The calls so far were legal, and led the allocator here. -/
structure World.Reached (A : RawAllocator σ) (doubleFree : Bool) (s₀ : σ) (m₀ : Memory)
    (w : World σ) : Prop where
  legal : Legal doubleFree w.trace
  reaches : Reaches A doubleFree s₀ m₀ w.allocator w.memory (clientAfter w.trace)

lemma World.Reached.call (h : w.Reached A doubleFree s₀ m₀) {e : Event}
    (htrace : w'.trace = w.trace ++ [e]) (hp : (clientAfter w.trace).Permits doubleFree e)
    (hd : A.Does w.allocator w.memory w'.allocator w'.memory e) :
    w'.Reached A doubleFree s₀ m₀ := by
  constructor
  · rw [htrace]
    exact h.legal.snoc hp
  · rw [htrace, clientAfter_snoc]
    exact h.reaches.step hp hd

/-- The driver writes into a block it holds. -/
lemma World.Reached.fill (h : w.Reached A doubleFree s₀ m₀) {ptr size : ℕ} (align : ℕ)
    (hheld : ⟨ptr, size, align⟩ ∈ (clientAfter w.trace).held) (fill : UInt8) :
    (w.fillBlock ptr size fill).Reached A doubleFree s₀ m₀ := by
  refine h.call rfl ⟨align, hheld⟩ ⟨rfl, rfl, fun a ha => ?_⟩
  exact if_neg ha

lemma clientAfter_fillBlock (w : World σ) (ptr size : ℕ) (fill : UInt8) :
    clientAfter (w.fillBlock ptr size fill).trace = clientAfter w.trace :=
  clientAfter_snoc _ _

/-! ## Patterns -/

/-- The blocks are apart, and each carries its pattern. -/
structure Carries (f : ℕ → Option UInt8) (live : List Live) : Prop where
  apart : live.Pairwise fun l l' => l.block.Disjoint l'.block
  pattern : ∀ l ∈ live, ∀ off < l.size, f (l.ptr + off) = some (patternByte l.fill off)

namespace Carries
variable {f f' : ℕ → Option UInt8} {live live' : List Live} {l : Live}

lemma nil (f : ℕ → Option UInt8) : Carries f [] := ⟨.nil, nofun⟩

lemma perm (h : Carries f live) (hp : live.Perm live') : Carries f live' :=
  ⟨(hp.pairwise_iff Block.Disjoint.symm).mp h.apart, fun l hl => h.pattern l (hp.mem_iff.mpr hl)⟩

lemma tail (h : Carries f (l :: live)) : Carries f live :=
  ⟨(List.pairwise_cons.mp h.apart).2, fun l' hl => h.pattern l' (List.mem_cons_of_mem _ hl)⟩

lemma congr (h : Carries f live) (hf : ∀ l ∈ live, ∀ a, l.block.Contains a → f' a = f a) :
    Carries f' live := by
  refine ⟨h.apart, fun l hl off hoff => ?_⟩
  rw [hf l hl (l.ptr + off) ⟨Nat.le_add_right _ _, Nat.add_lt_add_left hoff _⟩]
  exact h.pattern l hl off hoff

/-- A block apart from the others is filled. -/
lemma enter (h : Carries f live) (hapart : ∀ l' ∈ live, l.block.Disjoint l'.block)
    (hself : ∀ off < l.size, f' (l.ptr + off) = some (patternByte l.fill off))
    (hother : ∀ a, ¬l.block.Contains a → f' a = f a) : Carries f' (l :: live) := by
  refine ⟨List.pairwise_cons.mpr ⟨hapart, h.apart⟩, List.forall_mem_cons.mpr ⟨hself, ?_⟩⟩
  exact (h.congr fun l' hl a ha => hother a ((hapart l' hl).not_contains ha)).pattern

end Carries

lemma filled_self (m : Memory) (ptr size : ℕ) (fill : UInt8) {off : ℕ} (hoff : off < size) :
    filled m ptr size fill (ptr + off) = patternByte fill off := by
  rw [filled, if_pos (by omega), Nat.add_sub_cancel_left]

lemma Carries.filled {m : Memory} {live : List Live} (h : Carries (fun a => some (m a)) live)
    {l : Live} (hapart : ∀ l' ∈ live, l.block.Disjoint l'.block) :
    Carries (fun a => some (filled m l.ptr l.size l.fill a)) (l :: live) := by
  apply h.enter hapart
  · intro off hoff
    rw [filled_self m l.ptr l.size l.fill hoff]
  · exact fun a ha => congrArg some (if_neg ha)

lemma Carries.wrote {es : List Event} {live : List Live} (h : Carries (lastWritten es) live)
    {l : Live} (hapart : ∀ l' ∈ live, l.block.Disjoint l'.block) (m : Memory) :
    Carries (lastWritten (es ++ [.wrote l.ptr l.size (AllocatorOracle.filled m l.ptr l.size
      l.fill)])) (l :: live) := by
  rw [lastWritten_wrote]
  apply h.enter hapart
  · intro off hoff
    rw [if_pos (by omega), filled_self m l.ptr l.size l.fill hoff]
  · exact fun a ha => if_neg ha

/-! ## The model and what is held -/

def blocks (live : List Live) : Multiset Block := (live.map Live.block : List Block)

lemma mem_blocks {live : List Live} {b : Block} : b ∈ blocks live ↔ ∃ l ∈ live, l.block = b := by
  rw [blocks, Multiset.mem_coe, List.mem_map]

lemma blocks_perm {live live' : List Live} (h : live.Perm live') : blocks live = blocks live' :=
  Multiset.coe_eq_coe.mpr (h.map _)

lemma blocks_cons (l : Live) (live : List Live) : blocks (l :: live) = l.block ::ₘ blocks live := by
  rw [blocks, List.map_cons, ← Multiset.cons_coe]
  rfl

lemma blocks_erase {live : List Live} {k : ℕ} {l : Live} (h : live[k]? = some l) :
    (blocks live).erase l.block = blocks (live.eraseIdx k) := by
  rw [blocks_perm (perm_cons_eraseIdx h), blocks_cons, Multiset.erase_cons_head]

lemma block_mem {live : List Live} {k : ℕ} {l : Live} (h : live[k]? = some l) :
    l.block ∈ blocks live := mem_blocks.mpr ⟨l, List.mem_of_getElem? h, rfl⟩

/-- The model has the blocks that are held. -/
structure Tracks (A : RawAllocator σ) (doubleFree : Bool) (s₀ : σ) (m₀ : Memory) (st : State σ) :
    Prop where
  reached : st.world.Reached A doubleFree s₀ m₀
  held : (clientAfter st.world.trace).held = blocks st.live
  valid : ∀ l ∈ st.live, l.Valid

lemma Tracks.start (A : RawAllocator σ) (doubleFree : Bool) (s₀ : σ) (m₀ : Memory) :
    Tracks A doubleFree s₀ m₀ (start s₀ m₀) :=
  ⟨⟨throughout_nil _, .start⟩, rfl, nofun⟩

/-- The end of a step: a failure stops in a good world, and otherwise the state is good. -/
def Outcome.Ends {α : Type} (bad : World σ → Prop) (good : α → Prop) : Outcome σ α → Prop
  | .error p => bad p.2
  | .ok a => good a

/-- A new block of the model, in the place where it was entered. -/
lemma Tracks.enter {live : List Live} (rest : List Live) {cycle : UInt8} (l : Live)
    (h : w.Reached A doubleFree s₀ m₀) (hheld : (clientAfter w.trace).held = blocks (l :: rest))
    (hvalid : ∀ l' ∈ l :: rest, l'.Valid) (hp : live.Perm (l :: rest)) :
    Tracks A doubleFree s₀ m₀ ⟨live, cycle, w.fillBlock l.ptr l.size l.fill⟩ := by
  refine ⟨h.fill l.align ?_ l.fill, ?_, fun l' hl => hvalid l' (hp.mem_iff.mp hl)⟩
  · rw [hheld, blocks_cons]
    exact Multiset.mem_cons_self _ _
  · change (clientAfter (w.fillBlock l.ptr l.size l.fill).trace).held = _
    rw [clientAfter_fillBlock, hheld, blocks_perm hp]

lemma allocArm_tracks (h : Tracks A doubleFree s₀ m₀ st) (zeroed : Bool) (size align : ℕ) :
    (allocArm A zeroed size align opIdx st).Ends (World.Reached A doubleFree s₀ m₀)
      (Tracks A doubleFree s₀ m₀) := by
  obtain ⟨-, p, heq⟩ | ⟨layout, r, hadm, hbuilt, hr, hcase⟩ := allocArm_cases A opIdx st zeroed size align
  · rw [heq]
    exact h.reached
  · have hcall : r.2.Reached A doubleFree s₀ m₀ := by
      subst hr
      exact h.reached.call rfl hadm ⟨rfl, rfl⟩
    obtain ⟨-, p, heq⟩ | ⟨hplaced, heq⟩ := hcase
    · rw [heq]
      exact hcall
    · rw [heq]
      refine Tracks.enter st.live ⟨r.1, layout.size, layout.align, st.cycle, opIdx⟩ hcall ?_ ?_
        (List.perm_append_singleton _ _)
      · have htrace : r.2.trace = st.world.trace ++ [.alloc zeroed layout r.1 r.2.memory] := by
          subst hr
          rfl
        rw [htrace, clientAfter_snoc, Client.after, if_neg hplaced.notNull, h.held, blocks_cons]
        rfl
      · exact List.forall_mem_cons.mpr ⟨⟨hadm, hbuilt⟩, h.valid⟩

/-- The free of a block of the model. -/
lemma Tracks.dealloc (h : Tracks A doubleFree s₀ m₀ st) {k : ℕ} {l : Live}
    (hk : st.live[k]? = some l) (hw : st.world.callDealloc A l.ptr l.block.layout = w) :
    w.Reached A doubleFree s₀ m₀ ∧
      clientAfter w.trace = ⟨blocks (swapRemove st.live k), some l.block⟩ := by
  subst hw
  constructor
  · refine h.reached.call rfl ?_ ⟨rfl, rfl⟩
    change l.block ∈ _
    rw [h.held]
    exact block_mem hk
  · change clientAfter (st.world.trace ++ [_]) = _
    rw [clientAfter_snoc, blocks_perm (swapRemove_perm hk), ← blocks_erase hk, ← h.held]
    rfl

lemma deallocArm_tracks (h : Tracks A config.doubleFree.isSome s₀ m₀ st) (i : ℕ) :
    (deallocArm A config i opIdx st).Ends (World.Reached A config.doubleFree.isSome s₀ m₀)
      (Tracks A config.doubleFree.isSome s₀ m₀) := by
  obtain ⟨-, heq⟩ | ⟨k, l, hk, hcase⟩ := deallocArm_cases A opIdx config i h.valid
  · rw [heq]
    exact h
  · obtain ⟨-, p, heq⟩ | ⟨-, w, hw, heq⟩ := hcase
    · rw [heq]
      exact h.reached
    · rw [heq]
      obtain ⟨hcall, hafter⟩ := h.dealloc hk hw
      have hvalid : ∀ l' ∈ swapRemove st.live k, l'.Valid := fun l' hl =>
        h.valid l' (List.mem_of_mem_eraseIdx ((swapRemove_perm hk).mem_iff.mp hl))
      by_cases hfree : config.doubleFree.isSome = true
      · simp only [if_pos hfree]
        refine ⟨hcall.call rfl ⟨hfree, ?_⟩ rfl, ?_, hvalid⟩
        · rw [hafter]
          rfl
        · change (clientAfter (w.trace ++ [_])).held = _
          rw [clientAfter_snoc, hafter]
          rfl
      · simp only [if_neg hfree]
        exact ⟨hcall, by rw [hafter], hvalid⟩

/-- The resize of a block of the model. -/
lemma Tracks.realloc (h : Tracks A doubleFree s₀ m₀ st) {k n : ℕ} {l : Live} {r : ℕ × World σ}
    (hk : st.live[k]? = some l) (hadm : Layout.Admissible ⟨n, l.align⟩)
    (hr : st.world.callRealloc A l.ptr l.block.layout n = r) :
    r.2.Reached A doubleFree s₀ m₀ ∧
      clientAfter r.2.trace = ⟨if r.1 = 0 then blocks st.live
        else ⟨r.1, n, l.align⟩ ::ₘ blocks (st.live.eraseIdx k), none⟩ := by
  subst hr
  constructor
  · refine h.reached.call rfl ⟨?_, hadm⟩ ⟨rfl, rfl, rfl⟩
    change l.block ∈ _
    rw [h.held]
    exact block_mem hk
  · change clientAfter (st.world.trace ++ [_]) = _
    rw [clientAfter_snoc, ← blocks_erase hk, ← h.held]
    rfl

lemma reallocArm_tracks (h : Tracks A doubleFree s₀ m₀ st) (i newSize : ℕ) :
    (reallocArm A i newSize opIdx st).Ends (World.Reached A doubleFree s₀ m₀)
      (Tracks A doubleFree s₀ m₀) := by
  obtain ⟨-, heq⟩ | ⟨k, l, hk, hcase⟩ := reallocArm_cases A opIdx i newSize h.valid
  · rw [heq]
    exact h
  · obtain ⟨-, p, heq⟩ | ⟨-, n, r, hadm, hbuilt, hr, hcase⟩ := hcase
    · rw [heq]
      exact h.reached
    · obtain ⟨hcall, hafter⟩ := h.realloc hk hadm hr
      obtain ⟨hnull, heq⟩ | ⟨-, -, p, heq⟩ | ⟨hnull, -, heq⟩ := hcase
      · rw [heq]
        refine ⟨hcall, ?_, h.valid⟩
        rw [hafter, if_pos hnull]
      · rw [heq]
        exact hcall
      · rw [heq]
        refine Tracks.enter (st.live.eraseIdx k) ⟨r.1, n, l.align, st.cycle, opIdx⟩ hcall ?_ ?_
          (set_perm hk _)
        · rw [hafter, if_neg hnull, blocks_cons]
          rfl
        · exact List.forall_mem_cons.mpr ⟨⟨hadm, hbuilt⟩, fun l' hl =>
            h.valid l' (List.mem_of_mem_eraseIdx hl)⟩

lemma step_tracks (opIdx : ℕ) (h : Tracks A config.doubleFree.isSome s₀ m₀ st) (op : Op) :
    (step A config opIdx op st).Ends (World.Reached A config.doubleFree.isSome s₀ m₀)
      (Tracks A config.doubleFree.isSome s₀ m₀) := by
  cases op with
  | alloc size align => exact allocArm_tracks h false size align
  | allocZeroed size align => exact allocArm_tracks h true size align
  | dealloc i => exact deallocArm_tracks h i
  | realloc i newSize => exact reallocArm_tracks h i newSize

/-! ## An allocator that keeps the contract -/

/-- The memory carries the patterns of the model. -/
def Stored (st : State σ) : Prop := Carries (fun a => some (st.world.memory a)) st.live

lemma Carries.intact {m : Memory} {live : List Live} (h : Carries (fun a => some (m a)) live)
    {k : ℕ} {l : Live} (hk : live[k]? = some l) : l.Intact m := fun off hoff =>
  Option.some.inj (h.pattern l (List.mem_of_getElem? hk) off hoff)

lemma Carries.unchanged {m m' : Memory} {live : List Live} (h : Carries (fun a => some (m a)) live)
    (hm : Unchanged (blocks live) m m') : Carries (fun a => some (m' a)) live :=
  h.congr fun l hl a ha => congrArg some (hm l.block (mem_blocks.mpr ⟨l, hl, rfl⟩) a ha)

lemma Carries.eraseIdx {f : ℕ → Option UInt8} {live : List Live} (h : Carries f live) {k : ℕ}
    {l : Live} (hk : live[k]? = some l) : Carries f (live.eraseIdx k) :=
  (h.perm (perm_cons_eraseIdx hk)).tail

lemma forall_blocks {live : List Live} {P : Block → Prop} (h : ∀ b ∈ blocks live, P b) :
    ∀ l ∈ live, P l.block := fun l hl => h l.block (mem_blocks.mpr ⟨l, hl, rfl⟩)

lemma allocArm_honoured (hh : Honours A doubleFree s₀ m₀) (h : Tracks A doubleFree s₀ m₀ st)
    (hs : Stored st) (zeroed : Bool) (size : ℕ) {align : ℕ}
    (ha : align.isPowerOfTwo ∧ align ≤ isizeMax) :
    ∃ st', allocArm A zeroed size align opIdx st = .ok st' ∧ Stored st' := by
  obtain ⟨hno, -⟩ | ⟨layout, r, hadm, -, hr, hcase⟩ :=
    allocArm_cases A opIdx st zeroed size align
  · exact absurd ha hno
  · obtain ⟨hnull, hdvd, hapart, hsame, hzero⟩ : Event.Kept _ _ _ _ :=
      hh _ _ _ (.alloc zeroed layout r.1 r.2.memory) r.2.allocator r.2.memory h.reached.reaches
        hadm (by subst hr; exact ⟨rfl, rfl⟩)
    rw [h.held] at hapart hsame
    obtain ⟨hno, -⟩ | ⟨-, heq⟩ := hcase
    · exact absurd ⟨hnull, hdvd, fun l hl =>
        rangesOverlap_of_disjoint (forall_blocks hapart l hl), hzero⟩ hno
    · refine ⟨_, heq, ?_⟩
      have hfilled := (Carries.unchanged hs hsame).filled
        (l := ⟨r.1, layout.size, layout.align, st.cycle, opIdx⟩) (forall_blocks hapart)
      exact hfilled.perm (List.perm_append_singleton _ _).symm

/-- The free of a block leaves the patterns of the others. -/
lemma dealloc_stored (hh : Honours A doubleFree s₀ m₀) (h : Tracks A doubleFree s₀ m₀ st)
    (hs : Stored st) {k : ℕ} {l : Live} (hk : st.live[k]? = some l)
    (hw : st.world.callDealloc A l.ptr l.block.layout = w) :
    Carries (fun a => some (w.memory a)) (swapRemove st.live k) := by
  have hkept : Event.Kept _ _ _ _ := hh _ _ _ (.dealloc l.ptr l.block.layout st.world.memory)
    w.allocator w.memory h.reached.reaches
    (by change l.block ∈ _; rw [h.held]; exact block_mem hk) (by subst hw; exact ⟨rfl, rfl⟩)
  change Unchanged ((clientAfter st.world.trace).held.erase l.block) _ _ at hkept
  rw [h.held, blocks_erase hk] at hkept
  exact ((Carries.eraseIdx hs hk).unchanged hkept).perm (swapRemove_perm hk).symm

lemma deallocArm_honoured (hh : Honours A config.doubleFree.isSome s₀ m₀)
    (h : Tracks A config.doubleFree.isSome s₀ m₀ st) (hs : Stored st) (i : ℕ) :
    ∃ st', deallocArm A config i opIdx st = .ok st' ∧ Stored st' := by
  obtain ⟨-, heq⟩ | ⟨k, l, hk, hcase⟩ :=
    deallocArm_cases A opIdx config i h.valid
  · exact ⟨st, heq, hs⟩
  · obtain ⟨hno, -⟩ | ⟨-, w, hw, heq⟩ := hcase
    · exact absurd (Carries.intact hs hk) hno
    · refine ⟨_, heq, ?_⟩
      obtain ⟨hcall, hafter⟩ := h.dealloc hk hw
      have hcarries := dealloc_stored hh h hs hk hw
      by_cases hfree : config.doubleFree.isSome = true
      · simp only [if_pos hfree]
        have hagain : Event.Kept _ _ _ _ := hh _ _ _ (.freeAgain l.ptr l.block.layout)
          (w.callDeallocAgain A l.ptr l.block.layout).allocator
          (w.callDeallocAgain A l.ptr l.block.layout).memory hcall.reaches
          ⟨hfree, by rw [hafter]; rfl⟩ rfl
        rw [hafter] at hagain
        exact hcarries.unchanged hagain
      · simp only [if_neg hfree]
        exact hcarries

lemma reallocArm_honoured (hh : Honours A doubleFree s₀ m₀) (h : Tracks A doubleFree s₀ m₀ st)
    (hs : Stored st) (i newSize : ℕ) :
    ∃ st', reallocArm A i newSize opIdx st = .ok st' ∧ Stored st' := by
  obtain ⟨-, heq⟩ | ⟨k, l, hk, hcase⟩ :=
    reallocArm_cases A opIdx i newSize h.valid
  · exact ⟨st, heq, hs⟩
  · obtain ⟨hno, -⟩ | ⟨hintact, n, r, hadm, -, hr, hcase⟩ := hcase
    · exact absurd (Carries.intact hs hk) hno
    · obtain ⟨hfail, hdone⟩ : Event.Kept _ _ _ _ :=
        hh _ _ _ (.realloc l.ptr l.block.layout n r.1 st.world.memory r.2.memory) r.2.allocator
          r.2.memory h.reached.reaches
          ⟨by change l.block ∈ _; rw [h.held]; exact block_mem hk, hadm⟩
          (by subst hr; exact ⟨rfl, rfl, rfl⟩)
      rw [h.held] at hfail hdone
      obtain ⟨hnull, heq⟩ | ⟨hnull, hno, -⟩ | ⟨hnull, -, heq⟩ := hcase
      · exact ⟨_, heq, Carries.unchanged hs (hfail hnull)⟩
      · obtain ⟨hdvd, hapart, -, hkeep⟩ := hdone hnull
        change ∀ b ∈ (blocks st.live).erase l.block, _ at hapart
        rw [blocks_erase hk] at hapart
        refine absurd ⟨hdvd, fun l' hl => ?_, fun off hoff => ?_⟩ hno
        · exact rangesOverlap_of_disjoint (b := ⟨r.1, n, l.align⟩) (forall_blocks hapart l' hl)
        · rw [hkeep off hoff]
          exact hintact off (lt_of_lt_of_le hoff (min_le_left _ _))
      · obtain ⟨-, hapart, hsame, -⟩ := hdone hnull
        change ∀ b ∈ (blocks st.live).erase l.block, _ at hapart
        change Unchanged ((blocks st.live).erase l.block) _ _ at hsame
        rw [blocks_erase hk] at hapart hsame
        refine ⟨_, heq, ?_⟩
        have hfilled := ((Carries.eraseIdx hs hk).unchanged hsame).filled
          (l := ⟨r.1, n, l.align, st.cycle, opIdx⟩) (forall_blocks hapart)
        exact hfilled.perm (set_perm hk _).symm

/-- The alignment of a request is a power of two whose round-up fits `isize`. -/
def Op.Admissible : Op → Prop
  | .alloc _ align => align.isPowerOfTwo ∧ align ≤ isizeMax
  | .allocZeroed _ align => align.isPowerOfTwo ∧ align ≤ isizeMax
  | _ => True

lemma step_honoured (opIdx : ℕ) (hh : Honours A config.doubleFree.isSome s₀ m₀)
    (h : Tracks A config.doubleFree.isSome s₀ m₀ st) (hs : Stored st) {op : Op}
    (hop : op.Admissible) : ∃ st', step A config opIdx op st = .ok st' ∧ Stored st' := by
  cases op with
  | alloc size align => exact allocArm_honoured hh h hs false size hop
  | allocZeroed size align => exact allocArm_honoured hh h hs true size hop
  | dealloc i => exact deallocArm_honoured hh h hs i
  | realloc i newSize => exact reallocArm_honoured hh h hs i newSize

end AllocatorOracle
end SeferAlloc
