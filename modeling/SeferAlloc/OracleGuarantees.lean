import SeferAlloc.OracleRuns

/-!
# The guarantees of a whole run

A run that ends has looked at every block before it gave the block away. So each
answer of the allocator was right. A run is the replay, the sweep of the
survivors and their free.
-/
namespace SeferAlloc
namespace AllocatorOracle
variable {σ : Type} {A : RawAllocator σ} {doubleFree : Bool} {s₀ : σ} {m₀ : Memory}
  {w w' : World σ} {st st' : State σ} {opIdx : ℕ} {config : Config}

/-! ## Answers found right -/

/-- What a driver that has not stopped knows of the past. -/
structure Audit (es : List Event) (live : List Live) : Prop where
  sound : Sound es
  carries : Carries (lastWritten es) live
  below : ∀ l ∈ live, l.ptr + l.size ≤ usizeMax

/-- If no block reached the last byte of the address space. -/
def Audited (es : List Event) (live : List Live) : Prop :=
  (∀ e ∈ es, e.Below) → Audit es live

/-- A block with its pattern holds what was written last. -/
lemma Carries.preserved {es : List Event} {live : List Live} (h : Carries (lastWritten es) live)
    {k : ℕ} {l : Live} (hk : live[k]? = some l) {m : Memory} (hm : l.Intact m) :
    Preserved (lastWritten es) l.block m := by
  intro off hoff
  rw [show l.block.ptr = l.ptr from rfl, hm off hoff]
  exact (h.pattern l (List.mem_of_getElem? hk) off hoff).symm

lemma Audit.perm {es : List Event} {live live' : List Live} (h : Audit es live)
    (hp : live.Perm live') : Audit es live' :=
  ⟨h.sound, h.carries.perm hp, fun l hl => h.below l (hp.mem_iff.mpr hl)⟩

/-- A call that passed keeps the audit of the blocks it did not take. -/
lemma Audit.call {es : List Event} {live live' : List Live} (h : Audit es live) {e : Event}
    (he : ∀ ptr size after, e ≠ .wrote ptr size after)
    (hright : e.Answered (clientAfter es).held (lastWritten es))
    (hlive : Carries (lastWritten es) live') (hbelow : ∀ l ∈ live', l.ptr + l.size ≤ usizeMax) :
    Audit (es ++ [e]) live' := by
  refine ⟨h.sound.snoc hright, ?_, hbelow⟩
  rw [lastWritten_snoc es he]
  exact hlive

/-- A block that passed its checks is entered and filled. -/
lemma Audit.enter {es : List Event} {live : List Live} (h : Audit es live) {l : Live}
    (hl : l.ptr + l.size ≤ usizeMax) (hapart : ∀ l' ∈ live, l.block.Disjoint l'.block)
    (m : Memory) : Audit (es ++ [.wrote l.ptr l.size (filled m l.ptr l.size l.fill)]) (l :: live) :=
  ⟨h.sound.snoc trivial, h.carries.wrote hapart m, List.forall_mem_cons.mpr ⟨hl, h.below⟩⟩

lemma below_of_snoc {es : List Event} {e : Event} (h : ∀ e' ∈ es ++ [e], e'.Below) :
    (∀ e' ∈ es, e'.Below) ∧ e.Below :=
  ⟨fun e' he => h e' (List.mem_append_left _ he), h e (List.mem_append_right _ (by simp))⟩

/-- What a check of the saturated ends says of blocks that end below the top. -/
lemma apart_of_checked {live : List Live} {b : Block} (hb : b.ptr + b.layout.size ≤ usizeMax)
    (hlive : ∀ l ∈ live, l.ptr + l.size ≤ usizeMax)
    (hcheck : ∀ l ∈ live, rangesOverlap b.ptr b.layout.size l.ptr l.size = false) :
    ∀ l ∈ live, b.Disjoint l.block := fun l hl =>
  disjoint_of_rangesOverlap hb (hlive l hl) (hcheck l hl)

lemma blocks_forall {live : List Live} {P : Block → Prop} (h : ∀ l ∈ live, P l.block) :
    ∀ b ∈ blocks live, P b := by
  intro b hb
  obtain ⟨l, hl, rfl⟩ := mem_blocks.mp hb
  exact h l hl

lemma allocArm_audited (h : Tracks A doubleFree s₀ m₀ st)
    (ha : Audited st.world.trace st.live) {zeroed : Bool} {size align : ℕ}
    (heq : allocArm A zeroed size align opIdx st = .ok st') :
    Audited st'.world.trace st'.live := by
  obtain ⟨-, p, hp⟩ | ⟨layout, r, hadm, -, hr, hcase⟩ :=
    allocArm_cases A opIdx st zeroed size align
  · rw [hp] at heq
    contradiction
  · obtain ⟨-, p, hp⟩ | ⟨hplaced, hok⟩ := hcase
    · rw [hp] at heq
      contradiction
    · obtain rfl := Except.ok.inj (hok.symm.trans heq)
      have htrace : r.2.trace = st.world.trace ++ [.alloc zeroed layout r.1 r.2.memory] := by
        subst hr
        rfl
      intro hbelow
      change ∀ e ∈ r.2.trace ++ [_], _ at hbelow
      rw [htrace] at hbelow
      obtain ⟨hpast, hnew⟩ := below_of_snoc (below_of_snoc hbelow).1
      have haudit := ha hpast
      have hends := hnew hplaced.notNull
      have hapart : ∀ l ∈ st.live, Block.Disjoint ⟨r.1, layout⟩ l.block :=
        apart_of_checked hends haudit.below hplaced.apart
      have hcall : Audit r.2.trace st.live := by
        rw [htrace]
        refine haudit.call nofun ⟨hplaced.notNull, hplaced.aligned, ?_, hplaced.zero⟩
          haudit.carries haudit.below
        rw [h.held]
        exact blocks_forall hapart
      exact (hcall.enter (l := ⟨r.1, layout.size, layout.align, st.cycle, opIdx⟩) hends hapart
        r.2.memory).perm (List.perm_append_singleton _ _).symm

/-- The free of a block that was intact. -/
lemma dealloc_audited (st : State σ) (ha : Audited st.world.trace st.live) {k : ℕ} {l : Live}
    (hk : st.live[k]? = some l) (hintact : l.Intact st.world.memory)
    (hw : st.world.callDealloc A l.ptr l.block.layout = w) :
    Audited w.trace (swapRemove st.live k) := by
  have htrace : w.trace = st.world.trace ++ [.dealloc l.ptr l.block.layout st.world.memory] := by
    subst hw
    rfl
  rw [htrace]
  intro hbelow
  have haudit := ha (below_of_snoc hbelow).1
  have hrest : Audit (st.world.trace ++ [.dealloc l.ptr l.block.layout st.world.memory])
      (st.live.eraseIdx k) :=
    haudit.call nofun (haudit.carries.preserved hk hintact) (haudit.carries.eraseIdx hk)
      fun l' hl => haudit.below l' (List.mem_of_mem_eraseIdx hl)
  exact hrest.perm (swapRemove_perm hk).symm

lemma deallocArm_audited (h : Tracks A doubleFree s₀ m₀ st)
    (ha : Audited st.world.trace st.live) {i : ℕ}
    (heq : deallocArm A config i opIdx st = .ok st') : Audited st'.world.trace st'.live := by
  obtain ⟨-, hok⟩ | ⟨k, l, hk, hcase⟩ :=
    deallocArm_cases A opIdx config i h.valid
  · obtain rfl := Except.ok.inj (hok.symm.trans heq)
    exact ha
  · obtain ⟨-, p, hp⟩ | ⟨hintact, w, hw, hok⟩ := hcase
    · rw [hp] at heq
      contradiction
    · obtain rfl := Except.ok.inj (hok.symm.trans heq)
      have hcall := dealloc_audited st ha hk hintact hw
      by_cases hfree : config.doubleFree.isSome = true
      · simp only [if_pos hfree]
        intro hbelow
        change ∀ e ∈ w.trace ++ [_], _ at hbelow
        have haudit := hcall (below_of_snoc hbelow).1
        exact haudit.call nofun trivial haudit.carries haudit.below
      · simp only [if_neg hfree]
        exact hcall

lemma reallocArm_audited (h : Tracks A doubleFree s₀ m₀ st)
    (ha : Audited st.world.trace st.live) {i newSize : ℕ}
    (heq : reallocArm A i newSize opIdx st = .ok st') : Audited st'.world.trace st'.live := by
  obtain ⟨-, hok⟩ | ⟨k, l, hk, hcase⟩ :=
    reallocArm_cases A opIdx i newSize h.valid
  · obtain rfl := Except.ok.inj (hok.symm.trans heq)
    exact ha
  · obtain ⟨-, p, hp⟩ | ⟨hintact, n, r, hadm, -, hr, hcase⟩ := hcase
    · rw [hp] at heq
      contradiction
    · have htrace : r.2.trace = st.world.trace ++
          [.realloc l.ptr l.block.layout n r.1 st.world.memory r.2.memory] := by
        subst hr
        rfl
      obtain ⟨hnull, hok⟩ | ⟨-, -, p, hp⟩ | ⟨hnull, hres, hok⟩ := hcase
      · obtain rfl := Except.ok.inj (hok.symm.trans heq)
        intro hbelow
        change ∀ e ∈ r.2.trace, _ at hbelow
        change Audit r.2.trace st.live
        rw [htrace] at hbelow ⊢
        have haudit := ha (below_of_snoc hbelow).1
        exact haudit.call nofun ⟨haudit.carries.preserved hk hintact, fun h => absurd hnull h⟩
          haudit.carries haudit.below
      · rw [hp] at heq
        contradiction
      · obtain rfl := Except.ok.inj (hok.symm.trans heq)
        intro hbelow
        change ∀ e ∈ r.2.trace ++ [_], _ at hbelow
        rw [htrace] at hbelow
        obtain ⟨hpast, hnew⟩ := below_of_snoc (below_of_snoc hbelow).1
        have haudit := ha hpast
        have hends := hnew hnull
        have hrest : ∀ l' ∈ st.live.eraseIdx k, l'.ptr + l'.size ≤ usizeMax := fun l' hl =>
          haudit.below l' (List.mem_of_mem_eraseIdx hl)
        have hapart : ∀ l' ∈ st.live.eraseIdx k, Block.Disjoint ⟨r.1, n, l.align⟩ l'.block :=
          apart_of_checked hends hrest hres.apart
        have hcall : Audit r.2.trace (st.live.eraseIdx k) := by
          rw [htrace]
          refine haudit.call nofun ⟨haudit.carries.preserved hk hintact, fun _ =>
            ⟨hres.aligned, ?_, fun off hoff => ?_⟩⟩ (haudit.carries.eraseIdx hk) hrest
          · change ∀ b ∈ (clientAfter st.world.trace).held.erase l.block, _
            rw [h.held, blocks_erase hk]
            exact blocks_forall hapart
          · rw [hres.kept off hoff]
            exact (haudit.carries.pattern l (List.mem_of_getElem? hk) off
              (lt_of_lt_of_le hoff (min_le_left _ _))).symm
        exact (hcall.enter (l := ⟨r.1, n, l.align, st.cycle, opIdx⟩) hends hapart
          r.2.memory).perm (set_perm hk _).symm

lemma step_audited (h : Tracks A doubleFree s₀ m₀ st) (ha : Audited st.world.trace st.live)
    {op : Op} (heq : step A config opIdx op st = .ok st') :
    Audited st'.world.trace st'.live := by
  cases op with
  | alloc size align => exact allocArm_audited h ha heq
  | allocZeroed size align => exact allocArm_audited h ha heq
  | dealloc i => exact deallocArm_audited h ha heq
  | realloc i newSize => exact reallocArm_audited h ha heq

/-! ## The replay -/

/-- How many blocks the model has after the operation. -/
def Op.lengthAfter (n : ℕ) : Op → ℕ
  | .alloc _ _ => n + 1
  | .allocZeroed _ _ => n + 1
  | .dealloc _ => n - 1
  | .realloc _ _ => n

lemma step_length (h : Tracks A doubleFree s₀ m₀ st) {op : Op}
    (heq : step A config opIdx op st = .ok st') :
    st'.live.length = op.lengthAfter st.live.length := by
  have halloc : ∀ zeroed size align, allocArm A zeroed size align opIdx st = .ok st' →
      st'.live.length = st.live.length + 1 := by
    intro zeroed size align heq
    obtain ⟨-, p, hp⟩ | ⟨layout, r, -, -, -, ⟨-, p, hp⟩ | ⟨-, hok⟩⟩ :=
      allocArm_cases A opIdx st zeroed size align
    · rw [hp] at heq
      contradiction
    · rw [hp] at heq
      contradiction
    · obtain rfl := Except.ok.inj (hok.symm.trans heq)
      exact List.length_append
  cases op with
  | alloc size align => exact halloc false size align heq
  | allocZeroed size align => exact halloc true size align heq
  | dealloc i =>
      obtain ⟨hnil, hok⟩ | ⟨k, l, hk, ⟨-, p, hp⟩ | ⟨-, w, -, hok⟩⟩ :=
        deallocArm_cases A opIdx config i h.valid
      · obtain rfl := Except.ok.inj (hok.symm.trans heq)
        rw [Op.lengthAfter, hnil]
        rfl
      · rw [step, hp] at heq
        contradiction
      · obtain rfl := Except.ok.inj (hok.symm.trans heq)
        exact (swapRemove_perm hk).length_eq.trans
          (List.length_eraseIdx_of_lt (List.getElem?_eq_some_iff.mp hk).1)
  | realloc i newSize =>
      obtain ⟨-, hok⟩ | ⟨k, l, -, ⟨-, p, hp⟩ | ⟨-, n, r, -, -, -, hcase⟩⟩ :=
        reallocArm_cases A opIdx i newSize h.valid
      · obtain rfl := Except.ok.inj (hok.symm.trans heq)
        rfl
      · rw [step, hp] at heq
        contradiction
      · obtain ⟨-, hok⟩ | ⟨-, -, p, hp⟩ | ⟨-, -, hok⟩ := hcase
        · obtain rfl := Except.ok.inj (hok.symm.trans heq)
          rfl
        · rw [step, hp] at heq
          contradiction
        · obtain rfl := Except.ok.inj (hok.symm.trans heq)
          exact List.length_set

lemma le_peakLiveCountLoop (ops : List Op) (live peak : ℕ) :
    peak ≤ peakLiveCountLoop ops live peak := by
  induction ops generalizing live peak with
  | nil => exact le_rfl
  | cons op ops ih =>
      cases op with
      | alloc size align => exact (le_max_left _ _).trans (ih _ _)
      | allocZeroed size align => exact (le_max_left _ _).trans (ih _ _)
      | dealloc i => exact ih _ _
      | realloc i newSize => exact ih _ _

lemma peakLiveCountLoop_cons (op : Op) (ops : List Op) {live peak : ℕ} (h : live ≤ peak) :
    ∃ peak', op.lengthAfter live ≤ peak' ∧
      peakLiveCountLoop (op :: ops) live peak =
        peakLiveCountLoop ops (op.lengthAfter live) peak' := by
  cases op with
  | alloc size align => exact ⟨_, le_max_right _ _, rfl⟩
  | allocZeroed size align => exact ⟨_, le_max_right _ _, rfl⟩
  | dealloc i => exact ⟨peak, (Nat.sub_le _ _).trans h, rfl⟩
  | realloc i newSize => exact ⟨peak, h, rfl⟩

/-- The counter of the pre-pass bounds the model wherever the replay stands. -/
lemma replay_length (pre post : List Op) (h : Tracks A config.doubleFree.isSome s₀ m₀ st)
    {peak : ℕ} (hpeak : st.live.length ≤ peak) (heq : replay A config opIdx pre st = .ok st') :
    st'.live.length ≤ peakLiveCountLoop (pre ++ post) st.live.length peak := by
  induction pre generalizing st opIdx peak with
  | nil =>
      obtain rfl := Except.ok.inj heq
      exact hpeak.trans (le_peakLiveCountLoop _ _ _)
  | cons op pre ih =>
      have htracks := step_tracks opIdx h op
      rw [replay] at heq
      cases hstep : step A config opIdx op st with
      | error p =>
          rw [hstep] at heq
          contradiction
      | ok st₁ =>
          rw [hstep] at heq htracks
          obtain ⟨peak', hle, hpeakEq⟩ := peakLiveCountLoop_cons op (pre ++ post) hpeak
          have hlength := step_length h hstep
          rw [List.cons_append, hpeakEq, ← hlength]
          exact ih htracks (hlength ▸ hle) heq

lemma replay_tracks (opIdx : ℕ) (ops : List Op) (h : Tracks A config.doubleFree.isSome s₀ m₀ st) :
    (replay A config opIdx ops st).Ends (World.Reached A config.doubleFree.isSome s₀ m₀)
      (Tracks A config.doubleFree.isSome s₀ m₀) := by
  induction ops generalizing st opIdx with
  | nil => exact h
  | cons op ops ih =>
      have htracks := step_tracks opIdx h op
      rw [replay]
      cases hstep : step A config opIdx op st with
      | error p =>
          rw [hstep] at htracks
          exact htracks
      | ok st₁ =>
          rw [hstep] at htracks
          exact ih _ htracks

lemma replay_honoured (opIdx : ℕ) (hh : Honours A config.doubleFree.isSome s₀ m₀) (ops : List Op)
    (hops : ∀ op ∈ ops, op.Admissible) (h : Tracks A config.doubleFree.isSome s₀ m₀ st)
    (hs : Stored st) : ∃ st', replay A config opIdx ops st = .ok st' ∧ Stored st' := by
  induction ops generalizing st opIdx with
  | nil => exact ⟨st, rfl, hs⟩
  | cons op ops ih =>
      obtain ⟨hop, hops⟩ := List.forall_mem_cons.mp hops
      have htracks := step_tracks opIdx h op
      obtain ⟨st₁, hstep, hs₁⟩ := step_honoured opIdx hh h hs hop
      rw [hstep] at htracks
      obtain ⟨st₂, heq, hs₂⟩ := ih (opIdx + 1) hops htracks hs₁
      exact ⟨st₂, by rw [replay, hstep]; exact heq, hs₂⟩

lemma replay_audited (ops : List Op) (h : Tracks A config.doubleFree.isSome s₀ m₀ st)
    (ha : Audited st.world.trace st.live) (heq : replay A config opIdx ops st = .ok st') :
    Audited st'.world.trace st'.live := by
  induction ops generalizing st opIdx with
  | nil =>
      obtain rfl := Except.ok.inj heq
      exact ha
  | cons op ops ih =>
      have htracks := step_tracks opIdx h op
      rw [replay] at heq
      cases hstep : step A config opIdx op st with
      | error p =>
          rw [hstep] at heq
          contradiction
      | ok st₁ =>
          rw [hstep] at heq htracks
          exact ih htracks (step_audited h ha hstep) heq

lemma replay_append (pre post : List Op) :
    replay A config opIdx (pre ++ post) st =
      (replay A config opIdx pre st).bind (replay A config (opIdx + pre.length) post) := by
  induction pre generalizing st opIdx with
  | nil => rfl
  | cons op pre ih =>
      have hidx : opIdx + 1 + pre.length = opIdx + (op :: pre).length := by
        rw [List.length_cons]
        omega
      rw [List.cons_append, replay, replay]
      cases step A config opIdx op st with
      | error p => rfl
      | ok st₁ => exact ih.trans (by rw [hidx]; rfl)

/-- The trace only grows. -/
lemma replay_trace (ops : List Op) (heq : replay A config opIdx ops st = .ok st') :
    st.world.trace <+: st'.world.trace := by
  induction ops generalizing st opIdx with
  | nil =>
      obtain rfl := Except.ok.inj heq
      exact List.prefix_refl _
  | cons op ops ih =>
      rw [replay] at heq
      cases hstep : step A config opIdx op st with
      | error p =>
          rw [hstep] at heq
          contradiction
      | ok st₁ =>
          rw [hstep] at heq
          obtain ⟨es, htrace, -⟩ := step_makes hstep
          exact (htrace ▸ List.prefix_append _ es).trans (ih heq)

/-- Each operation of a replay that ends makes its calls, between those before it and the rest. -/
lemma replay_makes {pre post : List Op} {op : Op}
    (heq : replay A config opIdx (pre ++ op :: post) st = .ok st') :
    ∃ st₀ st₁ es, replay A config opIdx pre st = .ok st₀ ∧
      replay A config opIdx (pre ++ [op]) st = .ok st₁ ∧
      st₁.world.trace = st₀.world.trace ++ es ∧
      op.Makes config.doubleFree.isSome st₀.live es ∧ st₁.world.trace <+: st'.world.trace := by
  rw [replay_append] at heq
  cases hpre : replay A config opIdx pre st with
  | error p =>
      rw [hpre] at heq
      contradiction
  | ok st₀ =>
      rw [hpre] at heq
      change (step A config (opIdx + pre.length) op st₀).bind _ = _ at heq
      cases hstep : step A config (opIdx + pre.length) op st₀ with
      | error p =>
          rw [hstep] at heq
          contradiction
      | ok st₁ =>
          rw [hstep] at heq
          obtain ⟨es, htrace, hmakes⟩ := step_makes hstep
          refine ⟨st₀, st₁, es, rfl, ?_, htrace, hmakes, replay_trace post heq⟩
          rw [replay_append, hpre]
          change (step A config (opIdx + pre.length) op st₀).bind _ = _
          rw [hstep]
          rfl

/-! ## The end of the run -/

/-- The block an event gives back. -/
def Event.frees : Event → Option Block
  | .dealloc ptr layout _ => some ⟨ptr, layout⟩
  | _ => none

/-- The survivors were given back in their order, and nothing is held any more. -/
structure TornDown (live : List Live) (before after : List Event) : Prop where
  each : ∃ frees, after = before ++ frees ∧
    frees.map Event.frees = live.map fun l => some l.block
  none_held : (clientAfter after).held = 0

/-- The first block is checked, and freed if it is intact. -/
lemma teardown_cases {l : Live} {live : List Live} {cycle : UInt8}
    (h : Tracks A doubleFree s₀ m₀ ⟨l :: live, cycle, w⟩) :
    (¬l.Intact w.memory ∧ ∃ p, teardown A (l :: live) w = .error (p, w)) ∨
    (l.Intact w.memory ∧ ∃ w', w.callDealloc A l.ptr l.block.layout = w' ∧
      Tracks A doubleFree s₀ m₀ ⟨live, cycle, w'⟩ ∧
      teardown A (l :: live) w = teardown A live w') := by
  obtain ⟨hcall, hafter⟩ := h.dealloc (k := 0) (l := l) rfl rfl
  have hvalid := h.valid
  obtain ⟨hl, hlive⟩ := List.forall_mem_cons.mp hvalid
  rw [teardown]
  cases hcheck : verifyBlock w.memory l.ptr l.size l.fill "M3" l.fillOp
      "teardown: live block clobbered before dealloc" with
  | some p =>
      refine .inl ⟨fun hintact => ?_, p, rfl⟩
      rw [verifyBlock_eq_none.mpr hintact] at hcheck
      contradiction
  | none =>
      refine .inr ⟨verifyBlock_eq_none.mp hcheck, _, rfl, ⟨hcall, ?_, hlive⟩, ?_⟩
      · rw [hafter]
        exact blocks_perm (swapRemove_perm rfl)
      · rw [hl.built]

lemma teardown_ends {live : List Live} {cycle : UInt8}
    (h : Tracks A doubleFree s₀ m₀ ⟨live, cycle, w⟩) :
    (teardown A live w).Ends (World.Reached A doubleFree s₀ m₀) fun w' =>
      w'.Reached A doubleFree s₀ m₀ ∧ TornDown live w.trace w'.trace := by
  induction live generalizing w with
  | nil => exact ⟨h.reached, ⟨[], (List.append_nil _).symm, rfl⟩, h.held⟩
  | cons l live ih =>
      obtain ⟨-, p, heq⟩ | ⟨-, w₁, hw, h₁, heq⟩ := teardown_cases h
      · rw [heq]
        exact h.reached
      · rw [heq]
        have hrest := ih h₁
        cases hdone : teardown A live w₁ with
        | error p =>
            rw [hdone] at hrest
            exact hrest
        | ok w₂ =>
            rw [hdone] at hrest
            obtain ⟨hreached, ⟨frees, htrace, hfrees⟩, hnone⟩ := hrest
            refine ⟨hreached, ⟨.dealloc l.ptr l.block.layout w.memory :: frees, ?_, ?_⟩, hnone⟩
            · rw [htrace, ← hw]
              exact List.append_assoc _ _ _
            · rw [List.map_cons, List.map_cons, hfrees]
              rfl

lemma teardown_honoured (hh : Honours A doubleFree s₀ m₀) {live : List Live} {cycle : UInt8}
    (h : Tracks A doubleFree s₀ m₀ ⟨live, cycle, w⟩)
    (hs : Carries (fun a => some (w.memory a)) live) : ∃ w', teardown A live w = .ok w' := by
  induction live generalizing w with
  | nil => exact ⟨w, rfl⟩
  | cons l live ih =>
      obtain ⟨hno, -⟩ | ⟨-, w₁, hw, h₁, heq⟩ := teardown_cases h
      · exact absurd (hs.intact (k := 0) rfl) hno
      · rw [heq]
        apply ih h₁
        exact (dealloc_stored hh h hs (k := 0) rfl hw).perm (swapRemove_perm rfl)

lemma teardown_audited {live : List Live} {cycle : UInt8}
    (h : Tracks A doubleFree s₀ m₀ ⟨live, cycle, w⟩) (ha : Audited w.trace live)
    (heq : teardown A live w = .ok w') : Audited w'.trace [] := by
  induction live generalizing w with
  | nil =>
      obtain rfl := Except.ok.inj heq
      exact ha
  | cons l live ih =>
      obtain ⟨-, p, hp⟩ | ⟨hintact, w₁, hw, h₁, hnext⟩ := teardown_cases h
      · rw [hp] at heq
        contradiction
      · rw [hnext] at heq
        refine ih h₁ (fun hbelow => ?_) heq
        have haudit := dealloc_audited ⟨l :: live, cycle, w⟩ ha (k := 0) rfl hintact hw
        exact (haudit hbelow).perm (swapRemove_perm rfl)

lemma finish_eq (hs : Stored st) : finish A st = teardown A st.live st.world := by
  have hsweep : sweep st.live st.world.memory = none := by
    rw [sweep, List.findSome?_eq_none_iff]
    intro l hl
    obtain ⟨k, hk⟩ := List.mem_iff_getElem?.mp hl
    exact verifyBlock_eq_none.mpr (Carries.intact hs hk)
  rw [finish, hsweep]

lemma finish_cases (st : State σ) :
    (∃ p, finish A st = .error (p, st.world)) ∨ finish A st = teardown A st.live st.world := by
  rw [finish]
  cases sweep st.live st.world.memory with
  | none => exact .inr rfl
  | some p => exact .inl ⟨p, rfl⟩

/-- The calls of a run, up to where it stopped. -/
def Outcome.trace : Outcome σ (World σ) → List Event
  | .error p => p.2.trace
  | .ok w => w.trace

/-- Whatever the allocator does, every call of the driver is legal, and the model never outgrows
the count of the pre-pass. A run whose alignments are admissible does not stop if the allocator
keeps its contract. In a run that ends, each operation has made its calls and every survivor is
freed once, and every answer was right if no block reached the last byte of the address space: no
block overlapped another one, and each held what was last written into it until it was given
away. -/
theorem drive_oracle (A : RawAllocator σ) (config : Config) (ops : List Op) (s₀ : σ)
    (m₀ : Memory) :
    Legal config.doubleFree.isSome (drive A config ops s₀ m₀).trace ∧
    (∀ pre post st, ops = pre ++ post → replay A config 0 pre (start s₀ m₀) = .ok st →
      st.live.length ≤ peakLiveCount ops) ∧
    ((∀ op ∈ ops, op.Admissible) → Honours A config.doubleFree.isSome s₀ m₀ →
      ∃ w, drive A config ops s₀ m₀ = .ok w) ∧
    ∀ w, drive A config ops s₀ m₀ = .ok w →
      (∃ st, replay A config 0 ops (start s₀ m₀) = .ok st ∧
        (clientAfter st.world.trace).held = blocks st.live ∧
        TornDown st.live st.world.trace w.trace) ∧
      (∀ pre op post, ops = pre ++ op :: post → ∃ st st' es,
        replay A config 0 pre (start s₀ m₀) = .ok st ∧
        replay A config 0 (pre ++ [op]) (start s₀ m₀) = .ok st' ∧
        st'.world.trace = st.world.trace ++ es ∧
        op.Makes config.doubleFree.isSome st.live es ∧ st'.world.trace <+: w.trace) ∧
      ((∀ e ∈ w.trace, e.Below) → Sound w.trace) := by
  have hstart := Tracks.start A config.doubleFree.isSome s₀ m₀
  have hreplay := replay_tracks 0 ops hstart
  refine ⟨?_, fun pre post st hops hpre => ?_, fun hops hh => ?_, fun w hw => ?_⟩
  · rw [drive]
    cases heq : replay A config 0 ops (start s₀ m₀) with
    | error p =>
        rw [heq] at hreplay
        exact hreplay.legal
    | ok st =>
        rw [heq] at hreplay
        change Legal _ (finish A st).trace
        obtain ⟨p, hp⟩ | hp := finish_cases (A := A) st
        · rw [hp]
          exact hreplay.reached.legal
        · rw [hp]
          have hends := teardown_ends hreplay
          cases hdone : teardown A st.live st.world with
          | error p =>
              rw [hdone] at hends
              exact hends.legal
          | ok w =>
              rw [hdone] at hends
              exact hends.1.legal
  · rw [hops]
    exact replay_length pre post hstart le_rfl hpre
  · obtain ⟨st, heq, hs⟩ := replay_honoured 0 hh ops hops hstart (Carries.nil _)
    rw [heq] at hreplay
    obtain ⟨w, hw⟩ := teardown_honoured hh hreplay hs
    refine ⟨w, ?_⟩
    rw [drive, heq]
    exact (finish_eq hs).trans hw
  · rw [drive] at hw
    cases heq : replay A config 0 ops (start s₀ m₀) with
    | error p =>
        rw [heq] at hw
        contradiction
    | ok st =>
        rw [heq] at hw hreplay
        change finish A st = .ok w at hw
        obtain ⟨p, hp⟩ | hp := finish_cases (A := A) st
        · rw [hp] at hw
          contradiction
        · rw [hp] at hw
          have hends := teardown_ends hreplay
          rw [hw] at hends
          refine ⟨⟨st, rfl, hreplay.held, hends.2⟩, fun pre op post hops => ?_, fun hbelow => ?_⟩
          · obtain ⟨st₀, st₁, es, hpre, hop, htrace, hmakes, hle⟩ := replay_makes (hops ▸ heq)
            obtain ⟨frees, hfrees, -⟩ := hends.2.each
            exact ⟨st₀, st₁, es, hpre, hop, htrace, hmakes, hle.trans (hfrees ▸ List.prefix_append _ _)⟩
          have haudit := replay_audited ops hstart
            (fun _ => ⟨throughout_nil _, Carries.nil _, nofun⟩) heq
          exact (teardown_audited hreplay haudit hw hbelow).sound

/-! ## An allocator that keeps the contract -/

/-- The first multiple of the alignment beyond everything given out. -/
def bumpPtr (layout : Layout) (next : ℕ) : ℕ := (next / layout.align + 1) * layout.align

/-- Blocks lie one behind the other, and no block is used again or resized. -/
def bump : RawAllocator ℕ where
  alloc layout s m := (bumpPtr layout s, bumpPtr layout s + layout.size, m)
  allocZeroed layout s m := (bumpPtr layout s, bumpPtr layout s + layout.size, fun a =>
    if bumpPtr layout s ≤ a ∧ a < bumpPtr layout s + layout.size then 0 else m a)
  dealloc _ _ s m := (s, m)
  realloc _ _ _ s m := (0, s, m)

lemma lt_bumpPtr {layout : Layout} (h : layout.Admissible) (next : ℕ) :
    next < bumpPtr layout next := by
  have hpos := Nat.pos_of_isPowerOfTwo h.align
  have hmod := Nat.mod_lt next hpos
  have hdiv := Nat.div_add_mod' next layout.align
  rw [bumpPtr, Nat.add_mul]
  omega

/-- Everything held ends where the next block may begin. -/
lemma bump_held {m₀ m : Memory} {s : ℕ} {c : Client} (h : Reaches bump doubleFree 0 m₀ s m c) :
    ∀ b ∈ c.held, b.ptr + b.layout.size ≤ s := by
  induction h with
  | start => simp
  | @step s s' m m' c e _ hp hd ih =>
      cases e with
      | alloc zeroed layout ptr after =>
          have hend : s' = ptr + layout.size ∧ ptr = bumpPtr layout s := by
            cases zeroed with
            | false =>
                obtain ⟨-, heq⟩ := hd
                obtain ⟨rfl, rfl, -⟩ := Prod.mk.inj heq |>.imp id Prod.mk.inj
                exact ⟨rfl, rfl⟩
            | true =>
                obtain ⟨-, heq⟩ := hd
                obtain ⟨rfl, rfl, -⟩ := Prod.mk.inj heq |>.imp id Prod.mk.inj
                exact ⟨rfl, rfl⟩
          obtain ⟨rfl, rfl⟩ := hend
          have hlt := lt_bumpPtr hp s
          intro b hb
          rw [Client.after, if_neg (by omega), Multiset.mem_cons] at hb
          obtain rfl | hb := hb
          · exact le_rfl
          · have := ih b hb
            omega
      | dealloc ptr layout before =>
          obtain ⟨-, heq⟩ := hd
          obtain ⟨rfl, -⟩ := Prod.mk.inj heq
          exact fun b hb => ih b (Multiset.mem_of_mem_erase hb)
      | freeAgain ptr layout =>
          obtain ⟨rfl, -⟩ := Prod.mk.inj hd
          exact ih
      | realloc ptr layout newSize result before after =>
          obtain ⟨-, -, heq⟩ := hd
          obtain ⟨rfl, rfl, -⟩ := Prod.mk.inj heq |>.imp id Prod.mk.inj
          exact ih
      | wrote ptr size after =>
          obtain ⟨rfl, -⟩ := hd
          exact ih

/-- The contract can be kept, with the second free and without it. -/
theorem bump_honours (doubleFree : Bool) (m₀ : Memory) : Honours bump doubleFree 0 m₀ := by
  intro s m c e s' m' hreach hp hd
  have hheld := bump_held hreach
  cases e with
  | alloc zeroed layout ptr after =>
      have hlt := lt_bumpPtr hp s
      have hapart : ∀ b ∈ c.held, Block.Disjoint ⟨bumpPtr layout s, layout⟩ b := fun b hb =>
        .inr ((hheld b hb).trans hlt.le)
      obtain ⟨-, heq⟩ := hd
      cases zeroed with
      | false =>
          obtain ⟨rfl, rfl, rfl⟩ := Prod.mk.inj heq |>.imp id Prod.mk.inj
          exact ⟨Nat.ne_of_gt (Nat.zero_lt_of_lt hlt), Nat.dvd_mul_left _ _, hapart,
            fun _ _ _ _ => rfl, nofun⟩
      | true =>
          obtain ⟨rfl, rfl, rfl⟩ := Prod.mk.inj heq |>.imp id Prod.mk.inj
          refine ⟨Nat.ne_of_gt (Nat.zero_lt_of_lt hlt), Nat.dvd_mul_left _ _, hapart,
            fun b hb a ha => ?_, fun _ off hoff => ?_⟩
          · exact if_neg ((hapart b hb).not_contains ha)
          · exact if_pos (by omega)
  | dealloc ptr layout before =>
      obtain ⟨-, heq⟩ := hd
      obtain ⟨-, rfl⟩ := Prod.mk.inj heq
      exact fun _ _ _ _ => rfl
  | freeAgain ptr layout =>
      obtain ⟨-, rfl⟩ := Prod.mk.inj hd
      exact fun _ _ _ _ => rfl
  | realloc ptr layout newSize result before after =>
      obtain ⟨-, -, heq⟩ := hd
      obtain ⟨rfl, -, rfl⟩ := Prod.mk.inj heq |>.imp id Prod.mk.inj
      exact ⟨fun _ _ _ _ _ => rfl, fun h => absurd rfl h⟩
  | wrote ptr size after => trivial

instance : DecidablePred Event.Below
  | .alloc .. => inferInstanceAs (Decidable (_ → _))
  | .realloc .. => inferInstanceAs (Decidable (_ → _))
  | .dealloc .. | .freeAgain .. | .wrote .. => inferInstanceAs (Decidable True)

/-- Two blocks, a resize that is refused, and one free. -/
def fewOps : List Op := [.alloc 16 8, .allocZeroed 0 16, .realloc 1 5, .dealloc 2]

lemma fewOps_result : ((drive bump ⟨some ⟨⟩⟩ fewOps 0 fun _ => 0).trace.length,
    (drive bump ⟨some ⟨⟩⟩ fewOps 0 fun _ => 0).trace.all fun e => decide e.Below) = (8, true) := by
  decide +kernel

lemma fewOps_admissible : ∀ op ∈ fewOps, op.Admissible := by
  intro op hop
  simp only [fewOps, List.mem_cons, List.not_mem_nil, or_false] at hop
  obtain rfl | rfl | rfl | rfl := hop
  · exact ⟨⟨3, rfl⟩, by decide⟩
  · exact ⟨⟨4, rfl⟩, by decide⟩
  · trivial
  · trivial

/-- On an allocator that keeps the contract the run ends, with the second free on: eight events,
and every answer was right. -/
theorem drive_oracle_fewOps : ∃ w, drive bump ⟨some ⟨⟩⟩ fewOps 0 (fun _ => 0) = .ok w ∧
    w.trace.length = 8 ∧ Legal true w.trace ∧ Sound w.trace := by
  obtain ⟨hlegal, -, hends, hdone⟩ := drive_oracle bump ⟨some ⟨⟩⟩ fewOps 0 fun _ => 0
  obtain ⟨w, hw⟩ := hends fewOps_admissible (bump_honours true _)
  obtain ⟨hlength, hbelow⟩ := Prod.mk.inj fewOps_result
  rw [hw] at hlegal hlength hbelow
  refine ⟨w, hw, hlength, hlegal, (hdone w hw).2.2 fun e he => ?_⟩
  exact of_decide_eq_true (List.all_eq_true.mp hbelow e he)

end AllocatorOracle
end SeferAlloc
