import SeferAlloc.ShardedRegion

/-!
# Runs of the sharded region

A token of a region is set while one thread records the claim on it. Every action
leaves the tokens and the claims alone, or wins, releases or sweeps one; what is
kept follows for every schedule.
-/
namespace SeferAlloc
namespace Sharded
open Interleaving

/-! ## What an action can do -/

/-- Two states of a block of one region, alive in both or in none; a block that has ended stays
so. -/
structure Kept (b b' : Block) : Prop where
  alive : b'.alive = b.alive
  shards : b'.shards = b.shards
  firstEpochId : b'.firstEpochId = b.firstEpochId
  ended : b.strongCount = 0 → b'.strongCount = 0

/-- Two states of a block that differ in its upgrades and its ticket at most. -/
structure Same (b b' : Block) : Prop extends Kept b b' where
  tokens : b'.tokens = b.tokens

/-- The drop of the exit guard is under way. -/
def Frame.exiting : Frame → Bool
  | .release | .store | .dropUpgrade _ | .death true => true
  | _ => false

/-- What an action can do to the blocks and to the claims of its thread. -/
inductive Does (c : Command) (p : Process) (t : Thread) (p' : Process) (t' : Thread) : Prop
  | quiet (hb : ∀ k, Same (p.blocks k) (p'.blocks k)) (hc : p'.count = p.count)
      (he : p'.nextEpochId = p.nextEpochId) (ht : t'.claims = t.claims)
  | make (n : ℕ) (hn : n ≤ maxShards)
      (hp : p' = { p.setBlock p.count ⟨true, 0, n, fun _ => false, 0, p.nextEpochId⟩ with
        count := p.count + 1, nextEpochId := p.nextEpochId + n }) (ht : t'.claims = t.claims)
  | drop (k : ℕ) (hc : c = .dropRegion k) (hk : p.has k = true)
      (hp : p' = p.setBlock k { p.blocks k with alive := false }) (ht : t'.claims = t.claims)
  | win (k i : ℕ) (hr : t.frame.region = some k) (hi : i < (p.blocks k).shards)
      (hfree : (p.blocks k).tokens i = false)
      (hp : p' = p.setBlock k { p.blocks k with
        tokens := Function.update (p.blocks k).tokens i true })
      (ht : t'.claims = t.claims ++ [(k, i)])
  | store (e : Claim) (hs : t.frame = .store) (ht : t.claims = e :: t'.claims)
      (hp : p' = if e.2 < (p.blocks e.1).shards then p.setBlock e.1 { p.blocks e.1 with
        tokens := Function.update (p.blocks e.1).tokens e.2 false } else p)
  | forget (hp : p' = p) (hsub : t'.claims.Sublist t.claims)
      (hdead : ∀ c ∈ t.claims, c ∉ t'.claims → (p.blocks c.1).strongCount = 0)

/-- What a thread knows between its actions. -/
structure Local (p : Process) (t : Thread) : Prop where
  region : ∀ k, t.frame.region = some k → p.has k = true
  exiting : t.frame.exiting = true → t.guardGone = true
  exited : t.guardGone = true → t.frame.exiting = false → t.claims = []
  sweep : ∀ k purpose epoch kept todo, t.frame = .sweep k purpose epoch kept todo →
    (kept ++ todo).Sublist t.claims ∧
      ∀ c ∈ t.claims, c ∉ kept ++ todo → (p.blocks c.1).strongCount = 0
  binds : ∀ k i, t.frame = .bindToken k i → i < (p.blocks k).shards
  purpose : ∀ k i, t.frame = .openGuard k (.bind i) ∨ t.frame = .loadDeaths k (.bind i) ∨
    (∃ epoch kept todo, t.frame = .sweep k (.bind i) epoch kept todo) → i < (p.blocks k).shards
  guarded : ∀ k, t.frame.region = some k → (∀ intact, t.frame ≠ .ticket k intact) →
    t.guardGone = false

variable {p : Process} {t : Thread}

lemma Same.refl (b : Block) : Same b b := ⟨⟨rfl, rfl, rfl, id⟩, rfl⟩

lemma same_setBlock {k : ℕ} {b : Block} (hb : Same (p.blocks k) b) (k' : ℕ) :
    Same (p.blocks k') ((p.setBlock k b).blocks k') := by
  by_cases hk : k' = k
  · subst hk
    simpa [Process.setBlock] using hb
  · simpa [Process.setBlock, hk] using Same.refl (p.blocks k')

lemma beginClaim_claims (b : Block) (k : ℕ) : (beginClaim b k t).claims = t.claims := by
  unfold beginClaim
  repeat' split
  all_goals rfl

lemma beginBind_claims (b : Block) (k i : ℕ) : (beginBind b k i t).claims = t.claims := by
  unfold beginBind
  repeat' split
  all_goals rfl

/-- Every action does one of these. -/
lemma advance_does (hl : Local p t) : Does .go p t (advance p t).1 (advance p t).2 := by
  have quiet : ∀ t' : Thread, t'.claims = t.claims → Does .go p t p t' :=
    fun t' ht => .quiet (fun k => .refl _) rfl rfl ht
  cases hf : t.frame with
  | idle =>
    simp only [advance, hf]
    exact quiet _ rfl
  | openGuard k purpose =>
    simp only [advance, hf]
    exact quiet _ rfl
  | loadDeaths k purpose =>
    simp only [advance, hf]
    exact quiet _ rfl
  | sweep k purpose epoch kept todo =>
    cases todo with
    | nil =>
      simp only [advance, hf]
      obtain ⟨hsub, hdead⟩ := hl.sweep k purpose epoch kept [] hf
      rw [List.append_nil] at hsub hdead
      exact .forget rfl hsub hdead
    | cons c rest =>
      simp only [advance, hf]
      exact quiet _ rfl
  | scan k i =>
    simp only [advance, hf]
    by_cases hi : i < (p.blocks k).shards
    · rw [if_pos hi]
      by_cases hfree : (p.blocks k).tokens i = false
      · rw [if_pos hfree]
        exact .win k i (by rw [hf]; rfl) hi hfree rfl rfl
      · rw [if_neg hfree]
        exact quiet _ rfl
    · rw [if_neg hi]
      exact quiet _ rfl
  | ticket k intact =>
    simp only [advance, hf]
    exact .quiet (same_setBlock ⟨⟨rfl, rfl, rfl, id⟩, rfl⟩) rfl rfl rfl
  | bindToken k i =>
    simp only [advance, hf]
    by_cases hfree : (p.blocks k).tokens i = false
    · rw [if_pos hfree]
      exact .win k i (by rw [hf]; rfl) (hl.binds k i hf) hfree rfl rfl
    · rw [if_neg hfree]
      exact quiet _ rfl
  | death exiting =>
    simp only [advance, hf]
    exact .quiet (fun k => .refl _) rfl rfl rfl
  | release =>
    cases hc : t.claims with
    | nil =>
      simp only [advance, hf, hc]
      exact quiet _ rfl
    | cons c rest =>
      simp only [advance, hf, hc]
      by_cases hs : 0 < (p.blocks c.1).strongCount
      · rw [if_pos hs]
        exact .quiet (same_setBlock ⟨⟨rfl, rfl, rfl, fun h => absurd hs (by omega)⟩, rfl⟩) rfl rfl rfl
      · rw [if_neg hs]
        refine .forget rfl (by rw [hc]; exact List.sublist_cons_self c rest) fun c' hc' hnot => ?_
        rw [hc] at hc'
        rcases List.mem_cons.mp hc' with rfl | hmem
        · omega
        · exact absurd hmem hnot
  | store =>
    cases hc : t.claims with
    | nil =>
      simp only [advance, hf, hc]
      exact quiet _ rfl
    | cons c rest =>
      simp only [advance, hf, hc]
      exact .store c hf hc rfl
  | dropUpgrade k =>
    simp only [advance, hf]
    refine .quiet (same_setBlock ⟨⟨rfl, rfl, rfl, fun h => ?_⟩, rfl⟩) rfl rfl rfl
    unfold Block.strongCount at h ⊢
    dsimp only
    omega

lemma act_of_not_idle {c : Command} (hc : c ≠ .go) (hf : t.frame ≠ .idle) : act c p t = (p, t) := by
  cases c with
  | go => exact absurd rfl hc
  | _ =>
    cases h : t.frame with
    | idle => exact absurd h hf
    | _ => simp only [act, h]

lemma act_does (c : Command) (hl : Local p t) : Does c p t (act c p t).1 (act c p t).2 := by
  have quiet : ∀ t' : Thread, t'.claims = t.claims → Does c p t p t' :=
    fun t' ht => .quiet (fun k => .refl _) rfl rfl ht
  by_cases hgo : c = .go
  · rw [hgo]
    exact advance_does hl
  by_cases hf : t.frame = .idle
  · cases c with
    | go => exact absurd rfl hgo
    | withShards n =>
      simp only [act, hf]
      split
      next hn => exact .make n hn.2 rfl rfl
      next => exact quiet _ rfl
    | dropRegion k =>
      simp only [act, hf]
      by_cases hk : p.has k = true
      · rw [if_pos hk]
        exact .drop k rfl hk rfl rfl
      · rw [if_neg hk]
        exact quiet _ rfl
    | claim k =>
      simp only [act, hf]
      apply quiet
      split
      · exact beginClaim_claims _ k
      · rfl
    | bind k i =>
      simp only [act, hf]
      apply quiet
      split
      · exact beginBind_claims _ k i
      · rfl
    | getWith k h | remove k h =>
      simp only [act, hf]
      apply quiet
      split <;> rfl
    | exitShards =>
      simp only [act, hf]
      exact quiet _ rfl
    | exitGuard =>
      simp only [act, hf]
      apply quiet
      split <;> rfl
  · rw [act_of_not_idle hgo hf]
    exact quiet _ rfl

/-! ## What a thread knows -/

lemma Local.new : Local p .new where
  region k h := by cases h
  exiting h := by cases h
  exited h := by cases h
  sweep k purpose epoch kept todo h := by cases h
  binds k i h := by cases h
  purpose k i h := by rcases h with h | h | ⟨_, _, _, h⟩ <;> cases h
  guarded k h := by cases h

/-- What the other threads know is stable: only the drop of its region takes it from a call. -/
lemma Local.stable {p' : Process} (h : Local p t) (hbound : ∀ c ∈ t.claims, c.1 < p.count)
    (hshards : ∀ k < p.count, (p'.blocks k).shards = (p.blocks k).shards)
    (hended : ∀ k < p.count, (p.blocks k).strongCount = 0 → (p'.blocks k).strongCount = 0)
    (hhas : ∀ k, t.frame.region = some k → p.has k = true → p'.has k = true) : Local p' t where
  region k hk := hhas k hk (h.region k hk)
  exiting := h.exiting
  exited := h.exited
  sweep k purpose epoch kept todo hf := by
    obtain ⟨hsub, hdead⟩ := h.sweep k purpose epoch kept todo hf
    exact ⟨hsub, fun c hc hnot => hended c.1 (hbound c hc) (hdead c hc hnot)⟩
  binds k i hf := by
    have hk := h.region k (by rw [hf]; rfl)
    rw [hshards k (by simp [Process.has] at hk; exact hk.1)]
    exact h.binds k i hf
  purpose k i hf := by
    have hregion : t.frame.region = some k := by
      rcases hf with hf | hf | ⟨_, _, _, hf⟩ <;> rw [hf] <;> rfl
    have hk := h.region k hregion
    rw [hshards k (by simp [Process.has] at hk; exact hk.1)]
    exact h.purpose k i hf
  guarded := h.guarded

lemma Local.of_idle {t' : Thread} (hf : t'.frame = .idle)
    (hclaims : t'.guardGone = true → t'.claims = []) : Local p t' where
  region k h := by rw [hf] at h; cases h
  exiting h := by rw [hf] at h; cases h
  exited h _ := hclaims h
  sweep k purpose epoch kept todo h := by rw [hf] at h; cases h
  binds k i h := by rw [hf] at h; cases h
  purpose k i h := by rw [hf] at h; rcases h with h | h | ⟨_, _, _, h⟩ <;> cases h
  guarded k h := by rw [hf] at h; cases h

lemma Local.of_exiting {t' : Thread} (hf : t'.frame.exiting = true) (hg : t'.guardGone = true) :
    Local p t' := by
  obtain ⟨frame, answer, shards, guardGone, last, claims⟩ := t'
  cases frame with
  | release | store | dropUpgrade | death =>
    exact {
      region := fun k h => by cases h
      exiting := fun _ => hg
      exited := fun _ h => by rw [hf] at h; cases h
      sweep := fun _ _ _ _ _ h => by cases h
      binds := fun _ _ h => by cases h
      purpose := fun _ _ h => by rcases h with h | h | ⟨_, _, _, h⟩ <;> cases h
      guarded := fun k h => by cases h }
  | _ => cases hf

/-- A call that is not at the sweep knows that its region is there, that the guard is intact, and
that the shard to bind is one of the region. -/
lemma Local.of_call {t' : Thread} {k : ℕ} (hr : t'.frame.region = some k) (hk : p.has k = true)
    (hg : t'.guardGone = false)
    (hsweep : ∀ k purpose epoch kept todo, t'.frame = .sweep k purpose epoch kept todo →
      (kept ++ todo).Sublist t'.claims ∧
        ∀ c ∈ t'.claims, c ∉ kept ++ todo → (p.blocks c.1).strongCount = 0)
    (hbinds : ∀ k i, t'.frame = .bindToken k i → i < (p.blocks k).shards)
    (hpurpose : ∀ k i, t'.frame = .openGuard k (.bind i) ∨ t'.frame = .loadDeaths k (.bind i) ∨
      (∃ epoch kept todo, t'.frame = .sweep k (.bind i) epoch kept todo) →
        i < (p.blocks k).shards) : Local p t' where
  region k' h := by
    rw [hr] at h
    exact Option.some.inj h ▸ hk
  exiting h := by
    exfalso
    revert hr h
    cases t'.frame with
    | release | store | dropUpgrade | death => exact fun hr => by cases hr
    | _ => exact fun _ h => by cases h
  exited h := by rw [hg] at h; cases h
  sweep := hsweep
  binds := hbinds
  purpose := hpurpose
  guarded _ _ _ := hg

/-- What a call does after the sweep. -/
lemma Local.next {k : ℕ} {purpose : Purpose} {t' : Thread} (hf : t'.frame = purpose.next k)
    (hk : p.has k = true) (hg : t'.guardGone = false)
    (hp : ∀ i, purpose = .bind i → i < (p.blocks k).shards) : Local p t' := by
  cases purpose with
  | scan =>
    have hf : t'.frame = .scan k 0 := hf
    exact .of_call (by rw [hf]; rfl) hk hg (fun _ _ _ _ _ h => by rw [hf] at h; cases h)
      (fun _ _ h => by rw [hf] at h; cases h)
      (fun _ _ h => by rw [hf] at h; rcases h with h | h | ⟨_, _, _, h⟩ <;> cases h)
  | bind i =>
    have hf : t'.frame = .bindToken k i := hf
    exact .of_call (by rw [hf]; rfl) hk hg (fun _ _ _ _ _ h => by rw [hf] at h; cases h)
      (fun k' i' h => by
        rw [hf] at h
        cases h
        exact hp i rfl)
      (fun _ _ h => by rw [hf] at h; rcases h with h | h | ⟨_, _, _, h⟩ <;> cases h)

/-- An action of a thread keeps what it knows. -/
lemma advance_local (h : Local p t) : Local p (advance p t).2 := by
  have hgone : ∀ k, t.frame.region = some k → (∀ intact, t.frame ≠ .ticket k intact) →
      t.guardGone = true → t.claims = [] := by
    intro k hr ht hg
    rw [h.guarded k hr ht] at hg
    cases hg
  cases hf : t.frame with
  | idle =>
    simp only [advance, hf]
    exact h
  | openGuard k purpose =>
    simp only [advance, hf]
    have hr : t.frame.region = some k := by rw [hf]; rfl
    refine .of_call (k := k) rfl (h.region k hr) (h.guarded k hr (by simp [hf]))
      (fun _ _ _ _ _ h => by cases h) (fun _ _ h => by cases h) fun k' i hp => ?_
    rcases hp with hp | hp | ⟨_, _, _, hp⟩
    · cases hp
    · cases hp
      exact h.purpose k i (.inl hf)
    · cases hp
  | loadDeaths k purpose =>
    have hr : t.frame.region = some k := by rw [hf]; rfl
    have hg := h.guarded k hr (by simp [hf])
    have hp : ∀ i, purpose = .bind i → i < (p.blocks k).shards := by
      rintro i rfl
      exact h.purpose k i (.inr (.inl hf))
    simp only [advance, hf]
    by_cases hd : t.lastDeathEpoch = some p.deaths
    · rw [if_pos hd]
      exact .next rfl (h.region k hr) hg hp
    · rw [if_neg hd]
      refine .of_call (k := k) rfl (h.region k hr) hg (fun _ _ _ _ _ h => ?_)
        (fun _ _ h => by cases h) fun k' i hq => ?_
      · cases h
        exact ⟨List.Sublist.refl _, fun c hc hnot => absurd hc hnot⟩
      · rcases hq with hq | hq | ⟨_, _, _, hq⟩ <;> cases hq
        exact hp i rfl
  | sweep k purpose epoch kept todo =>
    have hr : t.frame.region = some k := by rw [hf]; rfl
    have hg := h.guarded k hr (by simp [hf])
    have hp : ∀ i, purpose = .bind i → i < (p.blocks k).shards := by
      rintro i rfl
      exact h.purpose k i (.inr (.inr ⟨_, _, _, hf⟩))
    obtain ⟨hsub, hdead⟩ := h.sweep k purpose epoch kept todo hf
    cases todo with
    | nil =>
      simp only [advance, hf]
      exact .next rfl (h.region k hr) hg hp
    | cons c rest =>
      simp only [advance, hf]
      refine .of_call (k := k) rfl (h.region k hr) hg (fun _ _ _ _ _ h => ?_)
        (fun _ _ h => by cases h) fun k' i hq => ?_
      · cases h
        by_cases hs : 0 < (p.blocks c.1).strongCount
        · rw [if_pos hs, List.append_assoc]
          exact ⟨hsub, hdead⟩
        · rw [if_neg hs]
          constructor
          · exact ((List.Sublist.refl kept).append (List.sublist_cons_self c rest)).trans hsub
          · intro c' hc' hnot
            by_cases hcc : c' = c
            · rw [hcc]
              omega
            · apply hdead c' hc'
              simp only [List.mem_append, List.mem_cons, not_or] at hnot ⊢
              exact ⟨hnot.1, hcc, hnot.2⟩
      · rcases hq with hq | hq | ⟨_, _, _, hq⟩ <;> cases hq
        exact hp i rfl
  | scan k i =>
    have hr : t.frame.region = some k := by rw [hf]; rfl
    have hg := h.guarded k hr (by simp [hf])
    have hidle : ∀ t' : Thread, t'.frame = .idle → t'.guardGone = t.guardGone → Local p t' :=
      fun t' hf' hg' => .of_idle hf' fun hgone => by
        rw [hg', hg] at hgone
        cases hgone
    simp only [advance, hf]
    split
    · split
      · exact hidle _ rfl rfl
      · exact .of_call (k := k) rfl (h.region k hr) hg (fun _ _ _ _ _ h => by cases h)
          (fun _ _ h => by cases h)
          (fun _ _ h => by rcases h with h | h | ⟨_, _, _, h⟩ <;> cases h)
    · exact .of_call (k := k) rfl (h.region k hr) hg (fun _ _ _ _ _ h => by cases h)
        (fun _ _ h => by cases h)
        (fun _ _ h => by rcases h with h | h | ⟨_, _, _, h⟩ <;> cases h)
  | ticket k intact =>
    simp only [advance, hf]
    exact .of_idle rfl fun hg => h.exited hg (by rw [hf]; rfl)
  | bindToken k i =>
    have hg := h.guarded k (by rw [hf]; rfl) (by simp [hf])
    simp only [advance, hf]
    split
    · refine .of_idle rfl fun hgone => ?_
      rw [show t.guardGone = true from hgone] at hg
      cases hg
    · refine .of_idle rfl fun hgone => ?_
      rw [show t.guardGone = true from hgone] at hg
      cases hg
  | death exiting =>
    simp only [advance, hf]
    cases exiting with
    | true => exact .of_exiting rfl (h.exiting (by rw [hf]; rfl))
    | false => exact .of_idle rfl fun hg => h.exited hg (by rw [hf]; rfl)
  | release =>
    have hg := h.exiting (by rw [hf]; rfl)
    cases hc : t.claims with
    | nil =>
      simp only [advance, hf, hc]
      exact .of_idle rfl fun _ => hc
    | cons c rest =>
      simp only [advance, hf, hc]
      split
      · exact .of_exiting rfl hg
      · exact .of_exiting rfl hg
  | store =>
    have hg := h.exiting (by rw [hf]; rfl)
    cases hc : t.claims with
    | nil =>
      simp only [advance, hf, hc]
      exact .of_exiting rfl hg
    | cons c rest =>
      simp only [advance, hf, hc]
      exact .of_exiting rfl hg
  | dropUpgrade k =>
    have hg := h.exiting (by rw [hf]; rfl)
    simp only [advance, hf]
    refine .of_exiting ?_ hg
    change (Block.afterDrop _ true).exiting = true
    unfold Block.afterDrop
    split <;> rfl

lemma Local.of_openGuard {k : ℕ} {purpose : Purpose} {t' : Thread}
    (hf : t'.frame = .openGuard k purpose) (hk : p.has k = true) (hg : t'.guardGone = false)
    (hp : ∀ i, purpose = .bind i → i < (p.blocks k).shards) : Local p t' := by
  refine .of_call (k := k) (by rw [hf]; rfl) hk hg (fun _ _ _ _ _ h => by rw [hf] at h; cases h)
    (fun _ _ h => by rw [hf] at h; cases h) fun k' i hq => ?_
  rw [hf] at hq
  rcases hq with hq | hq | ⟨_, _, _, hq⟩ <;> cases hq
  exact hp i rfl

lemma Local.of_ticket {k : ℕ} {intact : Bool} {t' : Thread} (hf : t'.frame = .ticket k intact)
    (hk : p.has k = true) (hclaims : t'.guardGone = true → t'.claims = []) : Local p t' where
  region k' h := by
    rw [hf] at h
    cases h
    exact hk
  exiting h := by rw [hf] at h; cases h
  exited h _ := hclaims h
  sweep k purpose epoch kept todo h := by rw [hf] at h; cases h
  binds k i h := by rw [hf] at h; cases h
  purpose k i h := by rw [hf] at h; rcases h with h | h | ⟨_, _, _, h⟩ <;> cases h
  guarded k h hnot := absurd hf (by
    rw [hf] at h
    cases h
    exact hnot intact)

lemma act_local (h : Local p t) (c : Command) : Local p (act c p t).2 := by
  by_cases hgo : c = .go
  · rw [hgo]
    exact advance_local h
  by_cases hf : t.frame = .idle
  · have hclaims : t.guardGone = true → t.claims = [] := fun hg => h.exited hg (by rw [hf]; rfl)
    have hidle : ∀ t' : Thread, t'.frame = .idle → t'.guardGone = t.guardGone →
        t'.claims = t.claims → Local p t' := fun t' hf' hg' hc' => .of_idle hf' fun hg => by
      rw [hc', hclaims (hg' ▸ hg)]
    cases c with
    | go => exact absurd rfl hgo
    | withShards n =>
      simp only [act, hf]
      split <;> exact h
    | dropRegion k =>
      simp only [act, hf]
      split
      · change Local p (t.goto (Block.afterDrop _ false))
        unfold Block.afterDrop
        split
        · exact {
            region := fun k h => by cases h
            exiting := fun h => by cases h
            exited := fun hg _ => hclaims hg
            sweep := fun _ _ _ _ _ h => by cases h
            binds := fun _ _ h => by cases h
            purpose := fun _ _ h => by rcases h with h | h | ⟨_, _, _, h⟩ <;> cases h
            guarded := fun k h => by cases h }
        · exact hidle _ rfl rfl rfl
      · exact h
    | claim k =>
      simp only [act, hf]
      split
      · rename_i hk
        have hwait : Local p (t.goto (if t.routerIntact then .openGuard k .scan
            else .ticket k false)) := by
          split
          · rename_i hr
            exact .of_openGuard rfl hk (by simp [Thread.routerIntact] at hr; exact hr.2)
              (fun i hi => by cases hi)
          · exact .of_ticket rfl hk hclaims
        unfold beginClaim
        split
        · split
          · exact hidle _ rfl rfl rfl
          · exact hwait
        · exact hwait
      · exact h
    | bind k i =>
      simp only [act, hf]
      split
      · rename_i hk
        unfold beginBind
        split
        · exact hidle _ rfl rfl rfl
        · rename_i hi
          split
          · rename_i hr
            refine .of_openGuard rfl hk (by simp [Thread.routerIntact] at hr; exact hr.2) ?_
            rintro i' h'
            cases h'
            omega
          · exact hidle _ rfl rfl rfl
      · exact h
    | getWith k hd | remove k hd =>
      simp only [act, hf]
      split
      · exact hidle _ rfl rfl rfl
      · exact h
    | exitShards =>
      simp only [act, hf]
      exact hidle _ rfl rfl rfl
    | exitGuard =>
      simp only [act, hf]
      split
      · exact h
      · exact .of_exiting rfl rfl
  · rw [act_of_not_idle hgo hf]
    exact h

/-! ## What holds along every schedule -/

variable {ι : Type*}

structure Inv (w : World ι Process Thread) : Prop where
  locals : ∀ j, Local w.shared (w.loc j)
  owner : ∀ k < w.shared.count, (w.shared.blocks k).alive = true →
    ∀ i < (w.shared.blocks k).shards,
      ((w.shared.blocks k).tokens i = true ↔ ∃ j, (k, i) ∈ (w.loc j).claims)
  unique : ∀ c j j', c ∈ (w.loc j).claims → c ∈ (w.loc j').claims → j = j'
  nodup : ∀ j, (w.loc j).claims.Nodup
  bound : ∀ j, ∀ c ∈ (w.loc j).claims, c.1 < w.shared.count ∧ c.2 < (w.shared.blocks c.1).shards
  epochs : ∀ k < w.shared.count,
    w.shared.epochId k (w.shared.blocks k).shards ≤ w.shared.nextEpochId ∧
    ∀ k' < k, w.shared.epochId k' (w.shared.blocks k').shards ≤ w.shared.epochId k 0

lemma Inv.start : Inv (start ι) where
  locals _ := Local.new
  owner k hk := absurd hk (Nat.not_lt_zero k)
  unique c j j' h := by cases h
  nodup _ := List.nodup_nil
  bound j c h := by cases h
  epochs k hk := absurd hk (Nat.not_lt_zero k)

lemma Process.has_iff {k : ℕ} :
    p.has k = true ↔ k < p.count ∧ (p.blocks k).alive = true := by
  simp [Process.has]

/-- What an action leaves of the regions that there are. -/
structure Persists (c : Command) (p p' : Process) : Prop where
  count : p.count ≤ p'.count
  shards : ∀ k < p.count, (p'.blocks k).shards = (p.blocks k).shards
  firstEpochId : ∀ k < p.count, (p'.blocks k).firstEpochId = (p.blocks k).firstEpochId
  ended : ∀ k < p.count, (p.blocks k).strongCount = 0 → (p'.blocks k).strongCount = 0
  alive : ∀ k < p.count, c ≠ .dropRegion k → (p'.blocks k).alive = (p.blocks k).alive
  was : ∀ k < p.count, (p'.blocks k).alive = true → (p.blocks k).alive = true

lemma Persists.of_kept {c : Command} {p' : Process} (hc : p.count ≤ p'.count)
    (hb : ∀ k < p.count, Kept (p.blocks k) (p'.blocks k)) : Persists c p p' where
  count := hc
  shards k hk := (hb k hk).shards
  firstEpochId k hk := (hb k hk).firstEpochId
  ended k hk := (hb k hk).ended
  alive k hk _ := (hb k hk).alive
  was k hk h := (hb k hk).alive ▸ h

lemma setBlock_at (k : ℕ) (b : Block) (k' : ℕ) :
    (p.setBlock k b).blocks k' = if k' = k then b else p.blocks k' := by
  simp [Process.setBlock, Function.update_apply]

/-- A write that leaves the references and the sizes alone. -/
lemma Persists.write {c : Command} {k : ℕ} {b : Block} (hb : Kept (p.blocks k) b) :
    Persists c p (p.setBlock k b) := by
  refine .of_kept le_rfl fun k' _ => ?_
  rw [setBlock_at]
  split
  · rename_i hk
    exact hk ▸ hb
  · exact (Same.refl _).toKept

lemma Does.persists {c : Command} {p' : Process} {t' : Thread} (h : Does c p t p' t') :
    Persists c p p' := by
  cases h with
  | quiet hb hc => exact .of_kept hc.ge fun k _ => (hb k).toKept
  | make n _ hp =>
    refine .of_kept (by rw [hp]; exact Nat.le_succ _) fun k hk => ?_
    rw [hp]
    change Kept _ ((p.setBlock p.count _).blocks k)
    rw [setBlock_at, if_neg (Nat.ne_of_lt hk)]
    exact (Same.refl _).toKept
  | drop k hc hk hp =>
    rw [hp]
    refine ⟨le_rfl, fun k' _ => ?_, fun k' _ => ?_, fun k' _ h0 => ?_, fun k' _ hne => ?_,
      fun k' _ h => ?_⟩
    · rw [setBlock_at]
      split <;> simp_all
    · rw [setBlock_at]
      split <;> simp_all
    · rw [setBlock_at]
      split
      · rename_i hkk
        subst hkk
        unfold Block.strongCount at h0 ⊢
        simp only [Bool.false_eq_true, if_false]
        omega
      · exact h0
    · rw [setBlock_at, if_neg]
      rintro rfl
      exact hne hc
    · rw [setBlock_at] at h
      split at h
      · cases h
      · exact h
  | win k i _ _ _ hp =>
    rw [hp]
    exact .write ⟨rfl, rfl, rfl, id⟩
  | store e _ _ hp =>
    rw [hp]
    split
    · exact .write ⟨rfl, rfl, rfl, id⟩
    · exact .of_kept le_rfl fun k _ => (Same.refl _).toKept
  | forget hp =>
    rw [hp]
    exact .of_kept le_rfl fun k _ => (Same.refl _).toKept

/-- A new region gets the next ids, and nothing has its tokens. -/
lemma Does.counts {c : Command} {p' : Process} {t' : Thread} (h : Does c p t p' t') :
    (p'.count = p.count ∧ p'.nextEpochId = p.nextEpochId) ∨
    ∃ n ≤ maxShards, p' = { p.setBlock p.count ⟨true, 0, n, fun _ => false, 0, p.nextEpochId⟩ with
      count := p.count + 1, nextEpochId := p.nextEpochId + n } ∧ t'.claims = t.claims := by
  cases h with
  | quiet _ hc he => exact .inl ⟨hc, he⟩
  | make n hn hp ht => exact .inr ⟨n, hn, hp, ht⟩
  | drop _ _ _ hp | win _ _ _ _ _ hp | forget hp => exact .inl (by rw [hp]; exact ⟨rfl, rfl⟩)
  | store e _ _ hp =>
    left
    rw [hp]
    split <;> exact ⟨rfl, rfl⟩

lemma strongCount_pos {b : Block} (h : b.alive = true) : b.strongCount ≠ 0 := by
  unfold Block.strongCount
  rw [if_pos h]
  omega

/-- The claims of a thread afterwards are claims of the same thread before, or the one it wins. -/
lemma Does.claims_subset {c : Command} {p' : Process} {t' : Thread} (h : Does c p t p' t') :
    ∀ e ∈ t'.claims, e ∈ t.claims ∨
      ∃ k i, e = (k, i) ∧ t.frame.region = some k ∧ i < (p.blocks k).shards ∧
        (p.blocks k).tokens i = false := by
  intro e he
  cases h with
  | quiet _ _ _ ht | make _ _ _ ht | drop _ _ _ _ ht => exact .inl (ht ▸ he)
  | win k i hr hi hfree hp ht =>
    rw [ht] at he
    rcases List.mem_append.mp he with he | he
    · exact .inl he
    · exact .inr ⟨k, i, List.mem_singleton.mp he, hr, hi, hfree⟩
  | store e' _ ht => exact .inl (by rw [ht]; exact List.mem_cons_of_mem _ he)
  | forget _ hsub => exact .inl (hsub.subset he)

/-- What an action does to the token of a region that stays: it follows the claims of the thread. -/
lemma Does.token {c : Command} {p' : Process} {t' : Thread} (h : Does c p t p' t')
    (hnodup : t.claims.Nodup) (hbound : ∀ e ∈ t.claims, e.2 < (p.blocks e.1).shards) {k i : ℕ}
    (hk : k < p.count) (halive' : (p'.blocks k).alive = true) :
    ((p'.blocks k).tokens i = true ↔
        (k, i) ∈ t'.claims ∨ ((p.blocks k).tokens i = true ∧ (k, i) ∉ t.claims)) ∨
      ((p'.blocks k).tokens i = (p.blocks k).tokens i ∧ ((k, i) ∈ t'.claims ↔ (k, i) ∈ t.claims)) := by
  cases h with
  | quiet hb _ _ ht => exact .inr ⟨by rw [(hb k).tokens], by rw [ht]⟩
  | make n _ hp ht =>
    right
    rw [hp, ht]
    change ((p.setBlock p.count _).blocks k).tokens i = _ ∧ _
    simp [Process.setBlock, Nat.ne_of_lt hk]
  | drop k' _ _ hp ht =>
    right
    rw [hp, ht]
    by_cases hkk : k = k'
    · subst hkk
      simp [Process.setBlock]
    · simp [Process.setBlock, hkk]
  | win k' i' hr hi hfree hp ht =>
    rw [hp, ht]
    by_cases he : (k, i) = (k', i')
    · cases he
      left
      simp [Process.setBlock]
    · right
      have hne : ¬ (k = k' ∧ i = i') := fun h => he (by rw [h.1, h.2])
      constructor
      · by_cases hkk : k = k'
        · subst hkk
          simp [Process.setBlock, show i ≠ i' from fun h => hne ⟨rfl, h⟩]
        · simp [Process.setBlock, hkk]
      · simp [hne]
  | store e hs ht hp =>
    have hlt := hbound e (by rw [ht]; exact List.mem_cons_self)
    rw [if_pos hlt] at hp
    rw [hp]
    rw [ht] at hnodup
    have hnot := (List.nodup_cons.mp hnodup).1
    by_cases he : (k, i) = e
    · subst he
      left
      simp [Process.setBlock, ht, hnot]
    · right
      constructor
      · by_cases hkk : k = e.1
        · subst hkk
          have hne : i ≠ e.2 := fun h => he (by rw [h])
          simp [Process.setBlock, hne]
        · simp [Process.setBlock, hkk]
      · rw [ht, List.mem_cons]
        exact ⟨.inr, fun h => h.resolve_left he⟩
  | forget hp hsub hdead =>
    right
    rw [hp]
    refine ⟨rfl, fun h => hsub.subset h, fun h => ?_⟩
    by_contra hnot
    rw [hp] at halive'
    exact strongCount_pos halive' (hdead _ h hnot)

/-- One action of a thread keeps the invariant, when it does not drop a borrowed region. -/
theorem Inv.step [DecidableEq ι] {w : World ι Process Thread} (h : Inv w) (j : ι) (c : Command)
    (hlegal : ∀ k, c = .dropRegion k → ∀ i, (w.loc i).frame.region ≠ some k) :
    Inv (w.step act j c) := by
  have hd : Does c w.shared (w.loc j) (w.step act j c).shared (act c w.shared (w.loc j)).2 :=
    act_does c (h.locals j)
  have hp := hd.persists
  have hother : ∀ m, m ≠ j → (w.step act j c).loc m = w.loc m := fun m hm =>
    World.step_loc_of_ne hm
  have hself : (w.step act j c).loc j = (act c w.shared (w.loc j)).2 := World.step_loc_self
  -- Every claim afterwards was one of its thread before, or is of a token that was free.
  have horigin : ∀ m, ∀ e ∈ ((w.step act j c).loc m).claims, e ∈ (w.loc m).claims ∨
      (m = j ∧ e.1 < w.shared.count ∧ (w.shared.blocks e.1).alive = true ∧
        e.2 < (w.shared.blocks e.1).shards ∧ (w.shared.blocks e.1).tokens e.2 = false) := by
    intro m e he
    by_cases hm : m = j
    · subst hm
      rw [hself] at he
      rcases hd.claims_subset e he with he | ⟨k, i, rfl, hr, hi, hfree⟩
      · exact .inl he
      · have hk := Process.has_iff.mp ((h.locals m).region k hr)
        exact .inr ⟨rfl, hk.1, hk.2, hi, hfree⟩
    · rw [hother m hm] at he
      exact .inl he
  have hfresh : ∀ e : Claim, e.1 < w.shared.count → (w.shared.blocks e.1).alive = true →
      e.2 < (w.shared.blocks e.1).shards → (w.shared.blocks e.1).tokens e.2 = false →
      ∀ m, e ∉ (w.loc m).claims := by
    intro e hk halive hi hfree m hm
    rw [(h.owner e.1 hk halive e.2 hi).mpr ⟨m, hm⟩] at hfree
    cases hfree
  have hbound : ∀ m, ∀ e ∈ ((w.step act j c).loc m).claims,
      e.1 < w.shared.count ∧ e.2 < (w.shared.blocks e.1).shards := by
    intro m e he
    rcases horigin m e he with he | ⟨-, hk, -, hi, -⟩
    · exact h.bound m e he
    · exact ⟨hk, hi⟩
  have hunique : ∀ e m m', e ∈ ((w.step act j c).loc m).claims →
      e ∈ ((w.step act j c).loc m').claims → m = m' := by
    intro e m m' hm hm'
    rcases horigin m e hm with hm | ⟨hmj, hk, ha, hi, hf⟩
    · rcases horigin m' e hm' with hm' | ⟨-, hk, ha, hi, hf⟩
      · exact h.unique e m m' hm hm'
      · exact absurd hm (hfresh e hk ha hi hf m)
    · rcases horigin m' e hm' with hm' | ⟨hmj', -⟩
      · exact absurd hm' (hfresh e hk ha hi hf m')
      · rw [hmj, hmj']
  refine ⟨?_, ?_, hunique, ?_, ?_, ?_⟩
  · intro m
    have hlocal : Local w.shared ((w.step act j c).loc m) := by
      by_cases hm : m = j
      · rw [hm, hself]
        exact act_local (h.locals j) c
      · rw [hother m hm]
        exact h.locals m
    refine hlocal.stable (fun e he => (hbound m e he).1) hp.shards hp.ended fun k hr hk => ?_
    obtain ⟨hlt, halive⟩ := Process.has_iff.mp hk
    refine Process.has_iff.mpr ⟨hlt.trans_le hp.count, ?_⟩
    rw [hp.alive k hlt, halive]
    intro hc
    by_cases hm : m = j
    · rw [hm, hself, hc] at hr
      by_cases hf : (w.loc j).frame = .idle
      · simp only [act, hf] at hr
        by_cases hk' : w.shared.has k = true
        · rw [if_pos hk'] at hr
          change (Block.afterDrop _ false).region = some k at hr
          unfold Block.afterDrop at hr
          split at hr <;> cases hr
        · rw [if_neg hk', hf] at hr
          cases hr
      · rw [act_of_not_idle (by simp) hf] at hr
        exact hlegal k hc j hr
    · rw [hother m hm] at hr
      exact hlegal k hc m hr
  · intro k hk halive i hi
    by_cases hlt : k < w.shared.count
    · have hwas := hp.was k hlt halive
      rw [hp.shards k hlt] at hi
      have howner := h.owner k hlt hwas i hi
      rcases hd.token (h.nodup j) (fun e he => (h.bound j e he).2) (i := i) hlt halive with
        htoken | ⟨htoken, hmem⟩
      · rw [htoken]
        constructor
        · rintro (hm | ⟨hset, hnot⟩)
          · exact ⟨j, by rwa [hself]⟩
          · obtain ⟨m, hm⟩ := howner.mp hset
            have hmj : m ≠ j := by
              rintro rfl
              exact hnot hm
            exact ⟨m, by rwa [hother m hmj]⟩
        · rintro ⟨m, hm⟩
          by_cases hmj : m = j
          · left
            rwa [hmj, hself] at hm
          · rw [hother m hmj] at hm
            exact .inr ⟨howner.mpr ⟨m, hm⟩, fun hj => hmj (h.unique _ m j hm hj)⟩
      · rw [htoken, howner]
        apply exists_congr
        intro m
        by_cases hmj : m = j
        · rw [hmj, hself, hmem]
        · rw [hother m hmj]
    · rcases hd.counts with ⟨hcount, -⟩ | ⟨n, -, hmake, hclaims⟩
      · rw [hcount] at hk
        exact absurd hk hlt
      · have hkc : k = w.shared.count := by
          rw [hmake] at hk
          exact Nat.le_antisymm (Nat.le_of_lt_succ hk) (Nat.le_of_not_lt hlt)
        have htoken : ((w.step act j c).shared.blocks k).tokens i = false := by
          rw [hmake, hkc]
          simp [Process.setBlock]
        rw [htoken]
        simp only [Bool.false_eq_true, false_iff, not_exists]
        intro m hm
        exact hlt (hbound m _ hm).1
  · intro m
    by_cases hm : m = j
    · rw [hm, hself]
      have hnodup := h.nodup j
      cases hd with
      | quiet _ _ _ ht | make _ _ _ ht | drop _ _ _ _ ht => rwa [ht]
      | win k i hr hi hfree _ ht =>
        have hk := Process.has_iff.mp ((h.locals j).region k hr)
        rw [ht]
        exact hnodup.append (List.nodup_singleton _) (List.disjoint_singleton.mpr
          (hfresh (k, i) hk.1 hk.2 hi hfree j))
      | store e _ ht =>
        rw [ht] at hnodup
        exact (List.nodup_cons.mp hnodup).2
      | forget _ hsub => exact hnodup.sublist hsub
    · rw [hother m hm]
      exact h.nodup m
  · intro m e he
    obtain ⟨hk, hi⟩ := hbound m e he
    exact ⟨hk.trans_le hp.count, by rwa [hp.shards e.1 hk]⟩
  · intro k hk
    have hepoch : ∀ k < w.shared.count, ∀ i,
        (w.step act j c).shared.epochId k i = w.shared.epochId k i := by
      intro k hk i
      unfold Process.epochId
      rw [hp.firstEpochId k hk]
    have hold : ∀ k < w.shared.count,
        (w.step act j c).shared.epochId k ((w.step act j c).shared.blocks k).shards
          = w.shared.epochId k (w.shared.blocks k).shards := by
      intro k hk
      rw [hp.shards k hk, hepoch k hk]
    by_cases hlt : k < w.shared.count
    · constructor
      · rw [hold k hlt]
        rcases hd.counts with ⟨-, hnext⟩ | ⟨n, -, hmake, -⟩
        · rw [hnext]
          exact (h.epochs k hlt).1
        · rw [hmake]
          exact (h.epochs k hlt).1.trans (Nat.le_add_right _ n)
      · intro k' hk'
        rw [hold k' (hk'.trans hlt), hepoch k hlt]
        exact (h.epochs k hlt).2 k' hk'
    · rcases hd.counts with ⟨hcount, -⟩ | ⟨n, -, hmake, -⟩
      · rw [hcount] at hk
        exact absurd hk hlt
      · have hkc : k = w.shared.count := by
          rw [hmake] at hk
          exact Nat.le_antisymm (Nat.le_of_lt_succ hk) (Nat.le_of_not_lt hlt)
        have hfirst : ∀ i, (w.step act j c).shared.epochId k i = w.shared.nextEpochId + i := by
          intro i
          rw [hmake, hkc]
          simp [Process.epochId, Process.setBlock]
        constructor
        · rw [hfirst, hmake, hkc]
          simp [Process.setBlock]
        · intro k' hk'
          rw [hold k' (hkc ▸ hk'), hfirst]
          exact (h.epochs k' (hkc ▸ hk')).1

theorem Inv.run [DecidableEq ι] {w : World ι Process Thread} (h : Inv w)
    (xs : List (ι × Command)) (hlegal : Legal w xs) : Inv (World.run act xs w) := by
  induction xs generalizing w with
  | nil => exact h
  | cons x xs ih => exact ih (h.step x.1 x.2 hlegal.1) hlegal.2

/-- An action brings the counter of the epoch ids forward by at most the shards of one region, so it
reaches the end of its 64 bits in no run of fewer than `2 ^ 47` actions. -/
lemma Inv.nextEpochId_le [DecidableEq ι] {w : World ι Process Thread} (h : Inv w)
    (xs : List (ι × Command)) (hlegal : Legal w xs) :
    (World.run act xs w).shared.nextEpochId ≤ w.shared.nextEpochId + maxShards * xs.length := by
  induction xs generalizing w with
  | nil => exact le_rfl
  | cons x xs ih =>
    have hstep : (w.step act x.1 x.2).shared.nextEpochId ≤ w.shared.nextEpochId + maxShards := by
      have hd : Does x.2 w.shared (w.loc x.1) (w.step act x.1 x.2).shared
          (act x.2 w.shared (w.loc x.1)).2 := act_does x.2 (h.locals x.1)
      rcases hd.counts with ⟨-, hnext⟩ | ⟨n, hn, hmake, -⟩
      · omega
      · rw [hmake]
        exact Nat.add_le_add_left hn _
    have hrest := ih (h.step x.1 x.2 hlegal.1) hlegal.2
    change (World.run act xs (w.step act x.1 x.2)).shared.nextEpochId ≤ _
    rw [List.length_cons, Nat.mul_succ]
    omega

/-! ## The tokens -/

/-- The destructor of the exit guard has run. -/
def Thread.Exited (t : Thread) : Prop := t.guardGone = true ∧ t.frame.exiting = false

/-- A thread that records a claim on a shard and has not exited. -/
def Thread.Holds (k i : ℕ) (t : Thread) : Prop := (k, i) ∈ t.claims ∧ ¬ t.Exited

/-- The tokens and the claims between two actions. -/
structure Exclusive (w : World ι Process Thread) : Prop where
  token : ∀ k < w.shared.count, (w.shared.blocks k).alive = true →
    ∀ i < (w.shared.blocks k).shards,
      ((w.shared.blocks k).tokens i = true ↔ ∃! j, (w.loc j).Holds k i)
  nodup : ∀ j, (w.loc j).claims.Nodup
  exited : ∀ j, (w.loc j).Exited → (w.loc j).claims = []
  valid : ∀ j, ∀ c ∈ (w.loc j).claims, c.1 < w.shared.count ∧ c.2 < (w.shared.blocks c.1).shards

/-- What one action of a thread leaves of the tokens and of the claims. -/
structure Releases (w w' : World ι Process Thread) (j : ι) : Prop where
  cleared : ∀ k < w.shared.count, ∀ i, (w.shared.blocks k).tokens i = true →
    (w'.shared.blocks k).tokens i = false → (w.loc j).Holds k i ∧ (w.loc j).guardGone = true
  kept : ∀ m, ∀ c ∈ (w.loc m).claims, (w'.shared.blocks c.1).alive = true → c ∉ (w'.loc m).claims →
    m = j ∧ (w.loc j).guardGone = true
  ended : ∀ c rest, (w.loc j).frame = .release → (w.loc j).claims = c :: rest →
    (w.shared.blocks c.1).strongCount = 0 → w'.shared.blocks = w.shared.blocks
  elsewhere : ∀ c rest, (w.loc j).frame = .store → (w.loc j).claims = c :: rest →
    ∀ k ≠ c.1, w'.shared.blocks k = w.shared.blocks k

/-- Where a handle of the shard `i` of the region `k` goes when a thread looks it up, or removes it,
in the region `m`. -/
structure Routed (p : Process) (t : Thread) (k i m : ℕ) (h : ShardedHandle) : Prop where
  get : getWith (p.blocks m) h =
    if i < (p.blocks m).shards then some (i, .getWith h.inner) else none
  remove : (i < (p.blocks m).shards ∧
      (remove (p.blocks m) m t h = some (i, .remove h.inner) ∨
        remove (p.blocks m) m t h = some (i, .remoteEvict h.inner))) ∨
    (¬ i < (p.blocks m).shards ∧ remove (p.blocks m) m t h = none)
  own : ∀ i' < (p.blocks m).shards, h.inner.regionId = p.epochId m i' → m = k ∧ i' = i
  stale : m ≠ k → i < (p.blocks m).shards → ∀ r : Epoch.Region Unit, r.regionId = p.epochId m i →
    Epoch.act (.getWith h.inner) r .new = (r, ⟨.idle, some (.read none)⟩) ∧
    Epoch.act (.remove h.inner) r .new = (r, ⟨.idle, some (.removed false)⟩) ∧
    Epoch.act (.remoteEvict h.inner) r .new = (r, ⟨.idle, some (.removed false)⟩)

lemma Inv.exclusive {w : World ι Process Thread} (h : Inv w) : Exclusive w where
  token k hk halive i hi := by
    have hholds : ∀ j, (w.loc j).Holds k i ↔ (k, i) ∈ (w.loc j).claims := by
      refine fun j => ⟨And.left, fun hm => ⟨hm, fun hex => ?_⟩⟩
      rw [(h.locals j).exited hex.1 hex.2] at hm
      cases hm
    rw [h.owner k hk halive i hi]
    constructor
    · rintro ⟨j, hj⟩
      exact ⟨j, (hholds j).mpr hj, fun m hm => h.unique _ m j ((hholds m).mp hm) hj⟩
    · rintro ⟨j, hj, -⟩
      exact ⟨j, (hholds j).mp hj⟩
  nodup := h.nodup
  exited j hj := (h.locals j).exited hj.1 hj.2
  valid := h.bound

/-- The ids of the shards tell them apart. -/
lemma Inv.epochId_inj {w : World ι Process Thread} (h : Inv w) {k k' i i' : ℕ}
    (hk : k < w.shared.count) (hk' : k' < w.shared.count) (hi : i < (w.shared.blocks k).shards)
    (hi' : i' < (w.shared.blocks k').shards)
    (he : w.shared.epochId k i = w.shared.epochId k' i') : k = k' ∧ i = i' := by
  unfold Process.epochId at he
  rcases Nat.lt_trichotomy k k' with hlt | rfl | hgt
  · have hle := (h.epochs k' hk').2 k hlt
    unfold Process.epochId at hle
    omega
  · exact ⟨rfl, by omega⟩
  · have hle := (h.epochs k hk).2 k' hgt
    unfold Process.epochId at hle
    omega

lemma Inv.routed {w : World ι Process Thread} (h : Inv w) (t : Thread) {k i m : ℕ}
    {hd : ShardedHandle} (hk : k < w.shared.count) (hi : i < (w.shared.blocks k).shards)
    (hm : m < w.shared.count) (hshard : hd.shard = i)
    (hid : hd.inner.regionId = w.shared.epochId k i) : Routed w.shared t k i m hd where
  get := by rw [getWith, hshard]
  remove := by
    by_cases hlt : i < (w.shared.blocks m).shards
    · refine .inl ⟨hlt, ?_⟩
      rw [Sharded.remove, hshard, if_pos hlt]
      split
      · exact .inl rfl
      · exact .inr rfl
    · refine .inr ⟨hlt, ?_⟩
      rw [Sharded.remove, hshard, if_neg hlt]
  own i' hi' he := by
    obtain ⟨hkm, hii⟩ := h.epochId_inj hk hm hi hi' (hid ▸ he)
    exact ⟨hkm.symm, hii.symm⟩
  stale hne hlt r hr := by
    have hother : ¬ hd.inner.regionId = r.regionId := by
      intro he
      rw [hid, hr] at he
      exact hne (h.epochId_inj hk hm hi hlt he).1.symm
    have hknown : r.known hd.inner = true := by simp [Epoch.Region.known, hother]
    have hbegin : ∀ f a, Epoch.begin r hd.inner f a Epoch.Thread.new = Epoch.Thread.new.return a :=
      fun f a => by simp [Epoch.begin, hother]
    simp only [Epoch.act, Epoch.Thread.new, hknown, if_true]
    exact ⟨by rw [show Epoch.begin r hd.inner _ _ ⟨.idle, none⟩ = _ from hbegin _ _]; rfl,
      by rw [show Epoch.begin r hd.inner _ _ ⟨.idle, none⟩ = _ from hbegin _ _]; rfl,
      by rw [show Epoch.begin r hd.inner _ _ ⟨.idle, none⟩ = _ from hbegin _ _]; rfl⟩

/-- An action at the store of the release is one of an exiting thread. -/
lemma Local.store_guard (h : Local p t) (hs : t.frame = .store) : t.guardGone = true :=
  h.exiting (by rw [hs]; rfl)

lemma Does.cleared {c : Command} {p' : Process} {t' : Thread} (h : Does c p t p' t')
    (hl : Local p t) {k i : ℕ} (hk : k < p.count) (hset : (p.blocks k).tokens i = true)
    (hclear : (p'.blocks k).tokens i = false) : t.Holds k i ∧ t.guardGone = true := by
  cases h with
  | quiet hb =>
    rw [(hb k).tokens, hset] at hclear
    cases hclear
  | make n _ hp =>
    rw [hp] at hclear
    change ((p.setBlock p.count _).blocks k).tokens i = false at hclear
    rw [setBlock_at, if_neg (Nat.ne_of_lt hk), hset] at hclear
    cases hclear
  | drop k' _ _ hp =>
    rw [hp, setBlock_at] at hclear
    split at hclear
    · rename_i hkk
      rw [hkk] at hset
      exact absurd (hset.symm.trans hclear) (by decide)
    · exact absurd (hset.symm.trans hclear) (by decide)
  | win k' i' _ _ _ hp =>
    rw [hp, setBlock_at] at hclear
    split at hclear
    · rename_i hkk
      rw [hkk] at hset
      change Function.update (p.blocks k').tokens i' true i = false at hclear
      by_cases hii : i = i'
      · rw [hii, Function.update_self] at hclear
        cases hclear
      · rw [Function.update_of_ne hii, hset] at hclear
        cases hclear
    · exact absurd (hset.symm.trans hclear) (by decide)
  | store e hs ht hp =>
    have hg := hl.store_guard hs
    have hnot : ¬ t.Exited := by
      rintro ⟨-, hx⟩
      rw [hs] at hx
      cases hx
    rw [hp] at hclear
    split at hclear
    · rw [setBlock_at] at hclear
      split at hclear
      · rename_i hkk
        change Function.update (p.blocks e.1).tokens e.2 false i = false at hclear
        by_cases hii : i = e.2
        · refine ⟨⟨?_, hnot⟩, hg⟩
          rw [ht, hkk, hii]
          exact List.mem_cons_self
        · rw [hkk] at hset
          rw [Function.update_of_ne hii, hset] at hclear
          cases hclear
      · exact absurd (hset.symm.trans hclear) (by decide)
    · exact absurd (hset.symm.trans hclear) (by decide)
  | forget hp =>
    rw [hp, hset] at hclear
    cases hclear

lemma Does.kept {c : Command} {p' : Process} {t' : Thread} (h : Does c p t p' t')
    (hl : Local p t) {e : Claim} (he : e ∈ t.claims) (halive : (p'.blocks e.1).alive = true)
    (hnot : e ∉ t'.claims) : t.guardGone = true := by
  cases h with
  | quiet _ _ _ ht | make _ _ _ ht | drop _ _ _ _ ht => exact absurd (ht ▸ he) hnot
  | win k i _ _ _ _ ht =>
    rw [ht] at hnot
    exact absurd (List.mem_append_left _ he) hnot
  | store _ hs => exact hl.store_guard hs
  | forget hp _ hdead =>
    rw [hp] at halive
    exact absurd (hdead e he hnot) (strongCount_pos halive)

lemma Inv.releases [DecidableEq ι] {w : World ι Process Thread} (h : Inv w) (j : ι) (c : Command) :
    Releases w (w.step act j c) j where
  cleared k hk i hset hclear :=
    (act_does c (h.locals j)).cleared (h.locals j) hk hset hclear
  kept m e he halive hnot := by
    by_cases hm : m = j
    · subst hm
      rw [World.step_loc_self] at hnot
      exact ⟨rfl, (act_does c (h.locals m)).kept (h.locals m) he halive hnot⟩
    · rw [World.step_loc_of_ne hm] at hnot
      exact absurd he hnot
  ended e rest hf hclaims hdead := by
    change (act c w.shared (w.loc j)).1.blocks = w.shared.blocks
    by_cases hgo : c = .go
    · rw [hgo]
      simp only [act, advance, hf, hclaims, hdead, lt_irrefl, if_false]
    · rw [act_of_not_idle hgo (by simp [hf])]
  elsewhere e rest hf hclaims k hk := by
    change (act c w.shared (w.loc j)).1.blocks k = w.shared.blocks k
    by_cases hgo : c = .go
    · rw [hgo]
      simp only [act, advance, hf, hclaims]
      split
      · rw [setBlock_at, if_neg hk]
      · rfl
    · rw [act_of_not_idle hgo (by simp [hf])]

/-- After every schedule in which regions are dropped by their owners: the tokens of the live regions
are set for one thread each, an action clears or forgets the claims of an exiting thread only, a
region whose claimants have exited is free, and a handle goes to its own shard. The epoch ids of the
shards are bounded by the length of the schedule. -/
theorem tokens_exact [DecidableEq ι] (xs : List (ι × Command)) (hlegal : Legal (start ι) xs) :
    Exclusive (World.run act xs (start ι)) ∧
      (∀ j c, Releases (World.run act xs (start ι)) ((World.run act xs (start ι)).step act j c) j) ∧
      (∀ k < (World.run act xs (start ι)).shared.count,
        ((World.run act xs (start ι)).shared.blocks k).alive = true →
        (∀ j i ys, ys <+: xs → (k, i) ∈ ((World.run act ys (start ι)).loc j).claims →
          ((World.run act xs (start ι)).loc j).Exited) →
        ∀ i < ((World.run act xs (start ι)).shared.blocks k).shards,
          ((World.run act xs (start ι)).shared.blocks k).tokens i = false) ∧
      (∀ k < (World.run act xs (start ι)).shared.count,
        ∀ i < ((World.run act xs (start ι)).shared.blocks k).shards,
        ∀ m < (World.run act xs (start ι)).shared.count, ∀ (t : Thread) (h : ShardedHandle),
          h.shard = i → h.inner.regionId = (World.run act xs (start ι)).shared.epochId k i →
          Routed (World.run act xs (start ι)).shared t k i m h) ∧
      (World.run act xs (start ι)).shared.nextEpochId ≤ 1 + maxShards * xs.length := by
  have hinv := (Inv.start (ι := ι)).run xs hlegal
  refine ⟨hinv.exclusive, fun j c => hinv.releases j c, fun k hk halive hexited i hi => ?_,
    fun k hk i hi m hm t h hshard hid => hinv.routed t hk hi hm hshard hid,
    Inv.start.nextEpochId_le xs hlegal⟩
  cases htoken : ((World.run act xs (start ι)).shared.blocks k).tokens i with
  | false => rfl
  | true =>
    obtain ⟨j, hj⟩ := (hinv.owner k hk halive i hi).mp htoken
    obtain ⟨hg, hx⟩ := hexited j i xs List.prefix_rfl hj
    rw [(hinv.locals j).exited hg hx] at hj
    cases hj

/-- Two threads claim the shards of a region; the first exits while the second drops the region. -/
def dropWhileExiting : List (Bool × Command) :=
  [(true, .withShards 2), (true, .claim 0), (true, .go), (true, .go), (true, .go),
    (false, .bind 0 1), (false, .go), (false, .go), (false, .go), (true, .exitGuard), (true, .go),
    (false, .dropRegion 0), (true, .go), (true, .go), (true, .go), (true, .go)]

theorem tokens_exact_dropWhileExiting :
    Exclusive (World.run act dropWhileExiting (start Bool)) :=
  (tokens_exact dropWhileExiting (by
    simp only [dropWhileExiting, Legal, reduceCtorEq, false_implies, implies_true, true_and,
      Command.dropRegion.injEq, forall_eq', and_true]
    decide)).1

end Sharded

end SeferAlloc
