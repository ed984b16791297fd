import SeferAlloc.LargeHeapRuns

/-!
# The live bytes of the adaptive Large cache

The learned state counts the bytes of Large segments allocated since it exists.
Segments that were there before are not counted, and freeing one subtracts its
bytes all the same, down to zero. The count is therefore never above the bytes
of the newer live segments, and short of them by at most the bytes of the older
ones freed.
-/
namespace SeferAlloc
namespace LargeHeap
open LargeCache CacheLedger

namespace Heap
variable {h h' : Heap} {base : ℕ} {older older' : ℕ → Bool}

/-! ## Live segments -/

/-- The registered segments, all of which the history names. -/
def liveSegments (h : Heap) : Finset ℕ :=
  (h.log.map Event.key).toFinset.filter fun b => h.registered b = true

/-- The live segments the cache can serve, without the older ones. -/
def servable (h : Heap) (older : ℕ → Bool) : Finset ℕ :=
  h.liveSegments.filter fun b => older b = false ∧ (h.header b).largeAlign < segment

def servableBytes (h : Heap) (older : ℕ → Bool) : ℕ :=
  ∑ b ∈ h.servable older, (h.header b).spanUsable

lemma Inv.mem_liveSegments (hi : h.Inv none) {b : ℕ} :
    b ∈ h.liveSegments ↔ h.registered b = true := by
  rw [liveSegments, Finset.mem_filter, and_iff_right_iff_imp, List.mem_toFinset]
  intro hb
  by_contra hout
  have hl : h.ledger b = .absent := Ledger.after_of_forall_ne _ fun e he hk =>
    hout (List.mem_map.mpr ⟨e, he, hk⟩)
  have huse := (hi.inUse b).mpr (.inl hb)
  rw [hl] at huse
  cases huse

lemma Inv.mem_servable (hi : h.Inv none) {b : ℕ} :
    b ∈ h.servable older ↔
      h.registered b = true ∧ older b = false ∧ (h.header b).largeAlign < segment := by
  rw [servable, Finset.mem_filter, hi.mem_liveSegments]

lemma servableBytes_congr (hi : h.Inv none) (hi' : h'.Inv none)
    (hreg : h'.registered = h.registered)
    (halign : ∀ b, h.registered b = true → (h'.header b).largeAlign = (h.header b).largeAlign)
    (hspan : ∀ b, h.registered b = true → (h'.header b).spanUsable = (h.header b).spanUsable)
    (holder : ∀ b, h.registered b = true → older' b = older b) :
    h'.servableBytes older' = h.servableBytes older := by
  have hset : h'.servable older' = h.servable older := by
    ext b
    rw [hi.mem_servable, hi'.mem_servable, hreg]
    constructor
    · rintro ⟨hb, ho, ha⟩
      exact ⟨hb, holder b hb ▸ ho, halign b hb ▸ ha⟩
    · rintro ⟨hb, ho, ha⟩
      exact ⟨hb, (holder b hb).trans ho, (halign b hb).symm ▸ ha⟩
  rw [servableBytes, hset, servableBytes]
  exact Finset.sum_congr rfl fun b hb => hspan b (hi.mem_servable.mp hb).1

lemma servableBytes_le (h : Heap) (older : ℕ → Bool) :
    h.servableBytes older ≤ h.servableBytes fun _ => false := by
  refine Finset.sum_le_sum_of_subset fun b hb => ?_
  obtain ⟨hl, -, ha⟩ := Finset.mem_filter.mp hb
  exact Finset.mem_filter.mpr ⟨hl, rfl, ha⟩

/-- One more registered segment. -/
lemma servableBytes_insert (older older' : ℕ → Bool) (hi : h.Inv none) (hi' : h'.Inv none)
    (hout : h.registered base = false)
    (hreg : h'.registered = Function.update h.registered base true)
    (hheader : ∀ b, h.registered b = true → h'.header b = h.header b)
    (holder : ∀ b, h.registered b = true → older' b = older b) :
    h'.servableBytes older' = h.servableBytes older +
      if older' base = false ∧ (h'.header base).largeAlign < segment then
        (h'.header base).spanUsable else 0 := by
  have hne : ∀ b, h.registered b = true → b ≠ base := by
    rintro b hb rfl
    rw [hout] at hb
    contradiction
  have hrest : ∀ b ≠ base, b ∈ h'.servable older' ↔ b ∈ h.servable older := by
    intro b hb
    rw [hi.mem_servable, hi'.mem_servable, hreg, Function.update_of_ne hb]
    constructor
    · rintro ⟨hr, ho, ha⟩
      exact ⟨hr, holder b hr ▸ ho, hheader b hr ▸ ha⟩
    · rintro ⟨hr, ho, ha⟩
      exact ⟨hr, (holder b hr).trans ho, (hheader b hr).symm ▸ ha⟩
  have hself : base ∉ h.servable older := by
    rw [hi.mem_servable, hout]
    simp
  have hsum : ∑ b ∈ h.servable older, (h'.header b).spanUsable = h.servableBytes older :=
    Finset.sum_congr rfl fun b hb => by rw [hheader b (hi.mem_servable.mp hb).1]
  have hmem : base ∈ h'.servable older' ↔
      older' base = false ∧ (h'.header base).largeAlign < segment := by
    rw [hi'.mem_servable, hreg, Function.update_self]
    simp
  split_ifs with hc
  · have hset : h'.servable older' = insert base (h.servable older) := by
      ext b
      by_cases hb : b = base
      · subst hb
        simpa using hmem.mpr hc
      · rw [hrest b hb, Finset.mem_insert]
        simp [hb]
    rw [servableBytes, hset, Finset.sum_insert hself, hsum]
    omega
  · have hset : h'.servable older' = h.servable older := by
      ext b
      by_cases hb : b = base
      · subst hb
        exact iff_of_false (hc ∘ hmem.mp) hself
      · exact hrest b hb
    rw [servableBytes, hset, hsum]
    rfl

end Heap

/-! ## The account -/

/-- A heap, the segments that are older than its extension, and the bytes of those freed since
the extension exists. -/
structure Account where
  heap : Heap
  older : ℕ → Bool
  olderFreed : ℕ

namespace Account
open Heap

def freedOlder (a : Account) : Command → ℕ
  | .dealloc base _ _ | .reclaim base _ _ =>
      if a.heap.registered base ∧ a.older base then (a.heap.header base).spanUsable else 0
  | _ => 0

/-- Before the extension exists every segment will be an older one. -/
def next (a : Account) (cmd : Command) (h : Heap) : Account :=
  if a.heap.cache.extension.isSome then
    ⟨h, fun b => a.older b && h.registered b, a.olderFreed + a.freedOlder cmd⟩
  else ⟨h, h.registered, a.olderFreed⟩

def step (a : Account) (cmd : Command) : Option Account := (a.heap.step cmd).map (a.next cmd)

def run : List Command → Account → Option Account
  | [], a => some a
  | cmd :: cmds, a => (a.step cmd).bind (run cmds)

/-- An allocation the cache can serve succeeds, if it was noted as one, and fits the address
space; a segment of another alignment is not freed, and a growth stays in the committed span. -/
def Regular (h : Heap) : Command → Prop
  | .alloc size align answers => align < segment → spanOf h.build size align ≠ none →
      (∀ h₁ ∈ h.maybeDecayLargeCache answers.now, h₁.Serves answers size align) ∧
      ∀ r ∈ h.allocLarge answers size align,
        r.1 ≠ none ∧ r.2.servableBytes (fun _ => false) ≤ usizeMax
  | .dealloc base _ _ | .reclaim base _ _ =>
      h.registered base = true → (h.header base).largeAlign < segment
  | .grow base ptr oldSize newSize commits => h.registered base = true →
      ∀ h' ∈ h.reallocLargeInplace base ptr oldSize newSize commits,
        (h'.header base).spanUsable = (h.header base).spanUsable
  | .evictAll => True

instance (h : Heap) : (cmd : Command) → Decidable (Regular h cmd)
  | .alloc .. | .dealloc .. | .reclaim .. | .grow .. => inferInstanceAs (Decidable (_ → _))
  | .evictAll => inferInstanceAs (Decidable True)

/-- Once the extension exists, every command of the run is regular. -/
def RegularRun : List Command → Account → Prop
  | [], _ => True
  | cmd :: cmds, a =>
      (a.heap.cache.extension.isSome = true → Regular a.heap cmd) ∧
        ∀ a' ∈ a.step cmd, RegularRun cmds a'

instance RegularRun.decidable : (cmds : List Command) → (a : Account) →
    Decidable (RegularRun cmds a)
  | [], _ => inferInstanceAs (Decidable True)
  | cmd :: cmds, a =>
      have := RegularRun.decidable cmds
      inferInstanceAs (Decidable ((a.heap.cache.extension.isSome = true → Regular a.heap cmd) ∧
        ∀ a' ∈ a.step cmd, RegularRun cmds a'))

structure Balanced (a : Account) : Prop where
  inv : a.heap.Inv none
  spans : a.heap.Spans
  adaptive : a.heap.cache.config.adaptive = true
  older : ∀ b, a.older b = true → a.heap.registered b = true
  unopened : a.heap.cache.extension.isSome = false → a.older = a.heap.registered
  above : a.heap.cache.live ≤ a.heap.servableBytes a.older
  below : a.heap.servableBytes a.older ≤ a.heap.cache.live + a.olderFreed

variable {a : Account}

lemma live_of_unopened {c : Cache} (he : c.extension.isSome = false) : c.live = 0 := by
  rw [Cache.live]
  cases hc : c.extension with
  | none => rfl
  | some e => rw [hc] at he; cases he

/-- Without the extension no segment is counted, and nothing is. -/
lemma servableBytes_registered {h : Heap} (hi : h.Inv none) : h.servableBytes h.registered = 0 := by
  refine Finset.sum_eq_zero fun b hb => ?_
  obtain ⟨hr, ho, -⟩ := hi.mem_servable.mp hb
  rw [hr] at ho
  cases ho

/-- A command before the extension exists. -/
lemma Balanced.unopened_next (hb : a.Balanced) (he : a.heap.cache.extension.isSome = false)
    (cmd : Command) {h : Heap} (hi : h.Inv none) (hs : h.Spans)
    (hc : h.cache.config = a.heap.cache.config) (hl : h.cache.live = 0) :
    (a.next cmd h).Balanced := by
  have hn : a.next cmd h = ⟨h, h.registered, a.olderFreed⟩ := by
    rw [next, he]
    rfl
  rw [hn]
  refine ⟨hi, hs, by rw [hc]; exact hb.adaptive, fun _ => id, fun _ => rfl, ?_, ?_⟩
  · rw [hl]
    exact Nat.zero_le _
  · rw [servableBytes_registered hi]
    exact Nat.zero_le _

/-- A command while the extension exists. -/
lemma Balanced.opened_next (hb : a.Balanced) (he : a.heap.cache.extension.isSome = true)
    (cmd : Command) {h : Heap} (hi : h.Inv none) (hs : h.Spans)
    (hc : h.cache.config = a.heap.cache.config) (hext : h.cache.extension.isSome = true)
    (habove : h.cache.live ≤ h.servableBytes fun b => a.older b && h.registered b)
    (hbelow : (h.servableBytes fun b => a.older b && h.registered b) ≤
      h.cache.live + (a.olderFreed + a.freedOlder cmd)) : (a.next cmd h).Balanced := by
  have hn : a.next cmd h =
      ⟨h, fun b => a.older b && h.registered b, a.olderFreed + a.freedOlder cmd⟩ := by
    rw [next, he]
    rfl
  rw [hn]
  refine ⟨hi, hs, by rw [hc]; exact hb.adaptive, fun b ho => ?_, fun hno => ?_, habove, hbelow⟩
  · exact (Bool.and_eq_true _ _ ▸ ho).2
  · exact absurd hext (by rw [hno]; exact Bool.false_ne_true)

/-- Nothing changes for the segments in use. -/
lemma Balanced.same_next (hb : a.Balanced) (cmd : Command) {h : Heap} (hi : h.Inv none)
    (hs : h.Spans) (hc : h.cache.config = a.heap.cache.config)
    (hreg : h.registered = a.heap.registered)
    (halign : ∀ b, a.heap.registered b = true →
      (h.header b).largeAlign = (a.heap.header b).largeAlign)
    (hspan : a.heap.cache.extension.isSome = true → ∀ b, a.heap.registered b = true →
      (h.header b).spanUsable = (a.heap.header b).spanUsable)
    (hext : h.cache.extension.isSome = a.heap.cache.extension.isSome)
    (hlive : a.heap.cache.extension.isSome = true → h.cache.live = a.heap.cache.live) :
    (a.next cmd h).Balanced := by
  cases he : a.heap.cache.extension.isSome with
  | false =>
      exact hb.unopened_next he cmd hi hs hc (live_of_unopened (hext.trans he))
  | true =>
      have hsum : (h.servableBytes fun b => a.older b && h.registered b) =
          a.heap.servableBytes a.older :=
        servableBytes_congr hb.inv hi hreg halign (hspan he) fun b hr => by
          rw [hreg, hr, Bool.and_true]
      refine hb.opened_next he cmd hi hs hc (hext.trans he) ?_ ?_
      · rw [hsum, hlive he]
        exact hb.above
      · rw [hsum, hlive he]
        have := hb.below
        omega

lemma Balanced.placed_next (hb : a.Balanced) (cmd : Command) {h : Heap} {base span align : ℕ}
    (hp : Placed base span align a.heap h)
    (hlive : a.heap.cache.extension.isSome = true → h.cache.live =
      if align < segment then liveWith a.heap.cache span else a.heap.cache.live)
    (hfits : a.heap.cache.extension.isSome = true → align < segment →
      h.servableBytes (fun _ => false) ≤ usizeMax) : (a.next cmd h).Balanced := by
  cases he : a.heap.cache.extension.isSome with
  | false =>
      exact hb.unopened_next he cmd hp.inv (hp.spans hb.spans) hp.config
        (live_of_unopened (hp.extension.trans he))
  | true =>
      have holder : (a.older base && h.registered base) = false := by
        cases ho : a.older base with
        | false => rfl
        | true =>
            have := hb.older base ho
            rw [hp.fresh] at this
            contradiction
      have hreg : ∀ b, a.heap.registered b = true → h.registered b = true := by
        intro b hr
        rw [hp.registered, Function.update_apply]
        split_ifs
        · rfl
        · exact hr
      have hsum : (h.servableBytes fun b => a.older b && h.registered b) =
          a.heap.servableBytes a.older + if align < segment then span else 0 := by
        have hins := servableBytes_insert a.older (fun b => a.older b && h.registered b) hb.inv
          hp.inv hp.fresh hp.registered hp.header fun b hr => by rw [hreg b hr, Bool.and_true]
        rw [hp.align, hp.span] at hins
        simpa only [holder, true_and] using hins
      have habove := hb.above
      have hbelow := hb.below
      -- the count of a served allocation does not saturate
      have hl : h.cache.live = a.heap.cache.live + if align < segment then span else 0 := by
        rw [hlive he]
        split_ifs with halign
        · have hle := (h.servableBytes_le fun b => a.older b && h.registered b).trans
            (hfits he halign)
          rw [hsum, if_pos halign] at hle
          rw [liveWith, if_pos ⟨hb.adaptive, he⟩, satAdd]
          omega
        · rfl
      refine hb.opened_next he cmd hp.inv (hp.spans hb.spans) hp.config (hp.extension.trans he) ?_ ?_
      · omega
      · omega

lemma Balanced.freed_next (hb : a.Balanced) (cmd : Command) {h : Heap} {base : ℕ}
    (hreg : a.heap.registered base = true) (hf : Freed base a.heap h)
    (hcmd : a.freedOlder cmd = if a.older base then (a.heap.header base).spanUsable else 0)
    (hservable : a.heap.cache.extension.isSome = true →
      (a.heap.header base).largeAlign < segment) : (a.next cmd h).Balanced := by
  have hl : h.cache.live = a.heap.cache.live - (a.heap.header base).spanUsable := by
    rw [hf.live, if_pos hb.adaptive]
  cases he : a.heap.cache.extension.isSome with
  | false =>
      refine hb.unopened_next he cmd hf.inv (hf.spans hb.spans) hf.config ?_
      rw [hl, live_of_unopened he, Nat.zero_sub]
  | true =>
      have hout : h.registered base = false := by rw [hf.registered, Function.update_self]
      have hback : a.heap.registered = Function.update h.registered base true := by
        rw [hf.registered, Function.update_idem, ← hreg, Function.update_eq_self]
      have hkept : ∀ b, h.registered b = true → b ≠ base ∧ a.heap.registered b = true := by
        intro b hr
        rw [hf.registered, Function.update_apply] at hr
        split_ifs at hr with hbb
        exact ⟨hbb, hr⟩
      have hsum : a.heap.servableBytes a.older =
          (h.servableBytes fun b => a.older b && h.registered b) +
            if a.older base = false then (a.heap.header base).spanUsable else 0 := by
        have hins := servableBytes_insert (fun b => a.older b && h.registered b) a.older hf.inv
          hb.inv hout hback (fun b hr => (hf.header b (hkept b hr).1 (hkept b hr).2).symm)
          fun b hr => by rw [hr, Bool.and_true]
        simpa only [hservable he, and_true] using hins
      have habove := hb.above
      have hbelow := hb.below
      refine hb.opened_next he cmd hf.inv (hf.spans hb.spans) hf.config (hf.extension he) ?_ ?_
      · rw [hl]
        split_ifs at hsum <;> omega
      · rw [hl, hcmd]
        cases ho : a.older base <;> simp only [ho, if_true, Bool.false_eq_true, if_false,
          Bool.true_eq_false] at hsum ⊢ <;> omega

/-- One command, regular if the extension exists. -/
lemma Balanced.step (hb : a.Balanced) {cmd : Command}
    (hr : a.heap.cache.extension.isSome = true → Regular a.heap cmd) :
    ∃ a', a.step cmd = some a' ∧ a'.Balanced := by
  have hsame : ∀ cmd, (a.next cmd a.heap).Balanced := fun cmd =>
    hb.same_next cmd hb.inv hb.spans rfl rfl (fun _ _ => rfl) (fun _ _ _ => rfl) rfl fun _ => rfl
  cases cmd with
  | alloc size align answers =>
      obtain ⟨r, he, hout⟩ := allocLarge_spec hb.inv answers size align
      refine ⟨a.next _ r.2, by rw [Account.step, Heap.step, he]; rfl, ?_⟩
      obtain ⟨hnone, hu, hl⟩ | ⟨-, hspan, base, span, hp, hl⟩ := hout
      · refine hb.same_next _ hu.inv (hu.spans hb.spans) hu.config hu.registered
          (fun b hreg => congrArg LargeHeader.largeAlign (hu.header b hreg))
          (fun _ b hreg => congrArg LargeHeader.spanUsable (hu.header b hreg)) hu.extension
          fun hext => hl ?_
        -- a noted allocation would have succeeded
        by_contra hno
        obtain ⟨hspan, halign⟩ := not_or.mp hno
        exact ((hr hext (not_le.mp halign) hspan).2 r he).1 hnone
      · exact hb.placed_next _ hp
          (fun hext => hl (fun halign => (hr hext halign hspan).1) hb.spans)
          fun hext halign => ((hr hext halign hspan).2 r he).2
  | dealloc base now grants =>
      by_cases hreg : a.heap.registered base = true
      · obtain ⟨h', he, hf⟩ := deallocLargeAtBase_spec hb.inv hreg now grants
        exact ⟨a.next _ h', by rw [Account.step, Heap.step, if_pos hreg, he]; rfl,
          hb.freed_next _ hreg hf (by simp [freedOlder, hreg]) fun he => hr he hreg⟩
      · exact ⟨_, by rw [Account.step, Heap.step, if_neg hreg]; rfl, hsame _⟩
  | reclaim base now grants =>
      by_cases hreg : a.heap.registered base = true
      · obtain ⟨h', he, hf⟩ := reclaimLargeSegment_spec hb.inv hreg now grants
        exact ⟨a.next _ h', by rw [Account.step, Heap.step, if_pos hreg, he]; rfl,
          hb.freed_next _ hreg hf (by simp [freedOlder, hreg]) fun he => hr he hreg⟩
      · exact ⟨_, by rw [Account.step, Heap.step, if_neg hreg]; rfl, hsame _⟩
  | grow base ptr oldSize newSize commits =>
      by_cases hreg : a.heap.registered base = true
      · refine ⟨_, by rw [Account.step, Heap.step, if_pos hreg]; rfl, ?_⟩
        cases hg : a.heap.reallocLargeInplace base ptr oldSize newSize commits with
        | none => exact hsame _
        | some h' =>
            have hgrown := reallocLargeInplace_spec hb.inv hg
            refine hb.same_next _ hgrown.inv (fun i x hx => ?_) (congrArg Cache.config hgrown.cache)
              hgrown.registered (fun b _ => hgrown.largeAlign b) (fun he b _ => ?_)
              (congrArg (fun c => c.extension.isSome) hgrown.cache)
              fun _ => congrArg Cache.live hgrown.cache
            · change h'.cache.slotGet i = some x at hx
              rw [hgrown.cache] at hx
              have hne : x.base ≠ base := by
                rintro hbb
                have := (hb.inv.not_inUse hx).1
                rw [hbb, hreg] at this
                contradiction
              exact (hgrown.spanUsable x.base hne).trans (hb.spans i x hx)
            · by_cases hbb : b = base
              · subst hbb
                exact hr he hreg h' hg
              · exact hgrown.spanUsable b hbb
      · exact ⟨_, by rw [Account.step, Heap.step, if_neg hreg]; rfl, hsame _⟩
  | evictAll =>
      obtain ⟨h', he, hk⟩ := evictAll_spec hb.inv
      refine ⟨a.next _ h', by rw [Account.step, Heap.step, he]; rfl, ?_⟩
      exact hb.same_next _ hk.inv (hk.spans hb.spans) hk.config hk.registered
        (fun b hreg => congrArg LargeHeader.largeAlign (hk.header b (.inl hreg)))
        (fun _ b hreg => congrArg LargeHeader.spanUsable (hk.header b (.inl hreg)))
        (hk.unopened rfl) fun _ => hk.live

lemma Balanced.run {cmds : List Command} (hb : a.Balanced) (hr : RegularRun cmds a) :
    ∃ a', a.run cmds = some a' ∧ a'.Balanced := by
  induction cmds generalizing a with
  | nil => exact ⟨a, rfl, hb⟩
  | cons cmd cmds ih =>
      obtain ⟨a₁, hs, hb₁⟩ := hb.step hr.1
      obtain ⟨a₂, hrun, hb₂⟩ := ih hb₁ (hr.2 a₁ hs)
      exact ⟨a₂, by rw [Account.run, hs, Option.bind_some, hrun], hb₂⟩

/-- The account of a fresh heap. -/
def start (h : Heap) : Account := ⟨h, fun _ => false, 0⟩

lemma start_balanced {h : Heap} (hf : h.Fresh) (ha : h.cache.config.adaptive = true) :
    (start h).Balanced := by
  have hreg : (start h).older = h.registered := funext fun b => (hf.registered b).symm
  have hl : h.cache.live = 0 := live_of_unopened (by rw [hf.extension]; rfl)
  have hsum : h.servableBytes (start h).older = 0 := by
    rw [hreg]
    exact servableBytes_registered hf.inv
  refine ⟨hf.inv, fun i x hx => ?_, ha, fun b hb => ?_, fun _ => hreg, ?_, ?_⟩
  · have := hf.slotGet i
    rw [show (start h).heap.cache.slotGet i = none from this] at hx
    cases hx
  · cases hb
  · exact hl.trans_le (Nat.zero_le _)
  · exact hsum.trans_le (Nat.zero_le _)

end Account

/-- In a run that is regular from the extension on, the live bytes are those of the newer live
segments the cache can serve, less at most what was freed of the older ones. -/
theorem run_live (cmds : List Command) {h : Heap} (hf : h.Fresh)
    (ha : h.cache.config.adaptive = true) (hr : Account.RegularRun cmds (.start h)) :
    ∃ a, (Account.start h).run cmds = some a ∧
      a.heap.cache.live ≤ a.heap.servableBytes a.older ∧
      a.heap.servableBytes a.older ≤ a.heap.cache.live + a.olderFreed ∧
      (a.olderFreed = 0 → a.heap.cache.live = a.heap.servableBytes a.older) := by
  obtain ⟨a, hrun, hb⟩ := (Account.start_balanced hf ha).run hr
  have habove := hb.above
  have hbelow := hb.below
  exact ⟨a, hrun, habove, hbelow, fun h0 => by omega⟩

/-- An adaptive heap with a headroom of 1 GiB. -/
def adaptiveHeap : Heap where
  build := ⟨256, 4096, false, false⟩
  cache := ⟨⟨none, 5000, 1, 1073741824, true, true⟩, fun _ => none, 0, none, 0, 0, none, 0⟩
  header _ := ⟨0, 0, 0, 0, 0, 0, 0, 0⟩
  registered _ := false
  log := []

lemma adaptiveHeap_fresh : adaptiveHeap.Fresh :=
  ⟨fun _ => rfl, rfl, rfl, rfl, fun _ => rfl, rfl⟩

/-- An allocation that gets segment `k` if it misses. -/
def allocAt (k : ℕ) : Command :=
  .alloc 1000000 16 ⟨0, true, some ⟨k * segment, k * segment, segment⟩, true⟩

/-- Ten segments are allocated and nine of them freed: the ninth finds the base slots full. -/
def olderRun : List Command :=
  (List.range' 1 10).map allocAt ++
    (List.range' 1 9).map fun k => .dealloc (k * segment) 0 fun _ => true

/-- The segment that is still live is older than the extension and is not counted. -/
theorem olderRun_live : ∃ h', adaptiveHeap.run olderRun = some h' ∧
    h'.cache.extension.isSome = true ∧ h'.cache.live ≠ h'.servableBytes fun _ => false := by
  have hrun : (adaptiveHeap.run olderRun).map (fun h => (h.cache.extension.isSome, h.cache.live,
      h.servableBytes fun _ => false)) = some (true, 0, segment) := by
    decide +kernel
  obtain ⟨h', hr, hv⟩ := Option.map_eq_some_iff.mp hrun
  obtain ⟨hext, hv⟩ := Prod.mk.inj hv
  obtain ⟨hlive, hsum⟩ := Prod.mk.inj hv
  refine ⟨h', hr, hext, ?_⟩
  rw [hlive, hsum]
  decide

/-- A newer segment is allocated, and one of the two live ones is counted. -/
def newerRun : List Command := olderRun ++ [allocAt 11]

theorem newerRun_live : ∃ a, (Account.start adaptiveHeap).run newerRun = some a ∧
    a.heap.cache.live ≤ a.heap.servableBytes a.older ∧
    a.heap.servableBytes a.older ≤ a.heap.cache.live + a.olderFreed ∧
    (a.olderFreed = 0 → a.heap.cache.live = a.heap.servableBytes a.older) :=
  run_live newerRun adaptiveHeap_fresh rfl (by decide +kernel)

end LargeHeap
end SeferAlloc
