import SeferAlloc.SmallPool

/-!
# The pool along every run

The abstract pool is a queue in the order of admission. The events of a run move
it, and the header links thread it from its youngest member to its oldest after
every command.
-/
namespace SeferAlloc
namespace SmallPool
open LinkedDeque

/-- The queue, oldest member first. -/
def Event.apply (q : List ℕ) : Event → List ℕ
  | .admitted base => q ++ [base]
  | .unpooled base | .decayed base | .drained base => q.erase base

/-- A member is admitted once; a decay takes the oldest member, a drain the youngest. -/
def Event.InOrder (q : List ℕ) : Event → Prop
  | .admitted base => base ∉ q
  | .unpooled base => base ∈ q
  | .decayed base => q.head? = some base
  | .drained base => q.getLast? = some base

def queueAfter (q : List ℕ) (log : List Event) : List ℕ := log.foldl Event.apply q

/-- Every event of the log is in order when it happens. -/
def Follows : List ℕ → List Event → Prop
  | _, [] => True
  | q, e :: es => e.InOrder q ∧ Follows (e.apply q) es

@[simp] lemma queueAfter_nil (q : List ℕ) : queueAfter q [] = q := rfl

@[simp] lemma queueAfter_cons (q : List ℕ) (e : Event) (es : List Event) :
    queueAfter q (e :: es) = queueAfter (e.apply q) es := rfl

lemma queueAfter_append (q : List ℕ) (es es' : List Event) :
    queueAfter q (es ++ es') = queueAfter (queueAfter q es) es' := List.foldl_append

lemma follows_append {q : List ℕ} {es es' : List Event} :
    Follows q (es ++ es') ↔ Follows q es ∧ Follows (queueAfter q es) es' := by
  induction es generalizing q with
  | nil => simp [Follows]
  | cons e es ih => simp only [List.cons_append, Follows, ih, queueAfter_cons, and_assoc]

/-- The pool of the core is the queue `q`. -/
structure Inv (c : Core) (q : List ℕ) : Prop where
  linked : Linked c.pool q.reverse
  count : c.pooledCount = q.length
  cap : c.pooledCount ≤ c.poolCap
  member : ∀ b ∈ q, c.registered b = true ∧ (c.header b).kind = .small ∧
    (c.header b).liveCount = 0 ∧ b ≠ c.smallCur
  clear : ∀ b, c.registered b = true → b ∉ q → c.pool.next b = 0 ∧ c.pool.prev b = 0
  current : c.registered c.smallCur = true ∧
    ((c.header c.smallCur).kind = .small ∨ (c.header c.smallCur).kind = .primordial)
  root : c.registered c.primordial = true ∧ (c.header c.primordial).kind = .primordial
  null : c.registered 0 = false

namespace Inv
variable {c : Core} {q : List ℕ} {b : ℕ}

lemma ne_zero (h : Inv c q) (hb : c.registered b = true) : b ≠ 0 := by
  rintro rfl
  rw [h.null] at hb
  exact absurd hb (by decide)

lemma nodup (h : Inv c q) : q.Nodup := List.nodup_reverse.mp h.linked.nodup

/-- The membership test is exact on registered segments. -/
lemma isPooled_iff (h : Inv c q) (hb : c.registered b = true) : c.IsPooled b ↔ b ∈ q := by
  rw [Core.IsPooled, ← h.linked.mem_iff (h.ne_zero hb), List.mem_reverse]
  intro hout
  exact (h.clear b hb (fun hm => hout (List.mem_reverse.mpr hm))).2

lemma erase_reverse (hq : q.Nodup) (b : ℕ) : (q.erase b).reverse = q.reverse.erase b := by
  rw [hq.erase_eq_filter, (List.nodup_reverse.mpr hq).erase_eq_filter, List.filter_reverse]

lemma enter (h : Inv c q) (hreg : c.registered b = true) (hkind : (c.header b).kind = .small)
    (hlive : (c.header b).liveCount = 0) (hcur : b ≠ c.smallCur) (hb : b ∉ q)
    (hcap : c.pooledCount < c.poolCap) : Inv (c.poolPushFront b) (q ++ [b]) := by
  have hb' : b ∉ q.reverse := fun hm => hb (List.mem_reverse.mp hm)
  refine ⟨?_, ?_, hcap, fun x hx => ?_, fun x hx hout => ?_, h.current, h.root, h.null⟩
  · rw [List.reverse_concat]
    exact h.linked.pushFront hb' (h.ne_zero hreg)
  · rw [List.length_append, List.length_singleton, ← h.count]
    rfl
  · rcases List.mem_append.mp hx with hx | hx
    · exact h.member x hx
    · obtain rfl := List.mem_singleton.mp hx
      exact ⟨hreg, hkind, hlive, hcur⟩
  · rw [List.mem_append, List.mem_singleton, not_or] at hout
    have hx' : x ∉ q.reverse := fun hm => hout.1 (List.mem_reverse.mp hm)
    obtain ⟨hn, hp⟩ := h.linked.pushFront_outside hout.2 hx'
    obtain ⟨hn', hp'⟩ := h.clear x hx hout.1
    exact ⟨hn.trans hn', hp.trans hp'⟩

lemma unlink (h : Inv c q) (hb : b ∈ q) : ∃ c', c.poolUnlink b = some c' ∧ Inv c' (q.erase b) ∧
    c'.header = c.header ∧ c'.registered = c.registered ∧ c'.smallCur = c.smallCur ∧
    c'.primordial = c.primordial := by
  have hb' : b ∈ q.reverse := List.mem_reverse.mpr hb
  have hpos : c.pooledCount ≠ 0 := by
    rw [h.count]
    exact (List.length_pos_of_mem hb).ne'
  refine ⟨_, if_neg hpos, ⟨?_, ?_, (Nat.sub_le _ _).trans h.cap, fun x hx =>
    h.member x (List.mem_of_mem_erase hx), fun x hx hout => ?_, h.current, h.root, h.null⟩,
    rfl, rfl, rfl, rfl⟩
  · rw [erase_reverse h.nodup]
    exact h.linked.unlink hb'
  · rw [List.length_erase_of_mem hb, ← h.count]
  · rw [h.nodup.mem_erase_iff, not_and_or, not_not] at hout
    by_cases hxb : x = b
    · subst x
      exact ⟨Links.unlink_next_self _ _, Links.unlink_prev_self _ _⟩
    · have hxq : x ∉ q := hout.resolve_left hxb
      obtain ⟨hn, hp⟩ := h.linked.unlink_outside hb' (fun hm => hxq (List.mem_reverse.mp hm))
      obtain ⟨hn', hp'⟩ := h.clear x hx hxq
      exact ⟨hn.trans hn', hp.trans hp'⟩

/-- A segment outside the pool that is neither current nor the primordial may go. -/
lemma remove (h : Inv c q) (hb : b ∉ q) (hcur : b ≠ c.smallCur) (hroot : b ≠ c.primordial)
    {header : ℕ → PoolHeader} (hh : ∀ x, x ≠ b → header x = c.header x) :
    Inv { c with header := header, registered := Function.update c.registered b false } q := by
  have hr : ∀ x, x ≠ b → Function.update c.registered b false x = c.registered x := fun x hx =>
    Function.update_of_ne hx _ _
  refine ⟨h.linked, h.count, h.cap, fun x hx => ?_, fun x hx hout => ?_, ?_, ?_, ?_⟩
  · have hxb := ne_of_mem_of_not_mem hx hb
    simp only [hh x hxb, hr x hxb]
    exact h.member x hx
  · refine h.clear x ?_ hout
    by_cases hxb : x = b
    · simp [hxb] at hx
    · exact (hr x hxb).symm.trans hx
  · simp only [hh _ hcur.symm, hr _ hcur.symm]
    exact h.current
  · simp only [hh _ hroot.symm, hr _ hroot.symm]
    exact h.root
  · by_cases h0 : (0 : ℕ) = b
    · simp [h0]
    · exact (hr 0 h0).trans h.null

lemma release (h : Inv c q) (hb : b ∉ q) (hcur : b ≠ c.smallCur) (hroot : b ≠ c.primordial) :
    Inv (c.releaseEmptySegment b) q :=
  h.remove hb hcur hroot fun _ hx => Function.update_of_ne hx _ _

/-- The live count of a segment outside the pool may change. -/
lemma setLiveCount (h : Inv c q) (hb : b ∉ q) (n : ℕ) : Inv (c.setLiveCount b n) q := by
  have hkind : ∀ x, ((c.setLiveCount b n).header x).kind = (c.header x).kind := by
    intro x
    by_cases hx : x = b
    · subst x
      simp [Core.setLiveCount]
    · simp only [Core.setLiveCount, Function.update_of_ne hx]
  refine ⟨h.linked, h.count, h.cap, fun x hx => ?_, h.clear, ?_, ?_, h.null⟩
  · obtain ⟨hr, hk, hl, hc⟩ := h.member x hx
    refine ⟨hr, (hkind x).trans hk, ?_, hc⟩
    simpa only [Core.setLiveCount, Function.update_of_ne (ne_of_mem_of_not_mem hx hb)] using hl
  · change c.registered c.smallCur = true ∧ (((c.setLiveCount b n).header c.smallCur).kind = .small ∨
      ((c.setLiveCount b n).header c.smallCur).kind = .primordial)
    rw [hkind]
    exact h.current
  · exact ⟨h.root.1, (hkind _).trans h.root.2⟩

/-- A new segment comes unlinked. -/
lemma writeHeader (h : Inv c q) (hb : c.registered b = false) (h0 : b ≠ 0) (kind : SegmentKind) :
    Inv (c.writeHeader b kind) q := by
  have hother : ∀ x, c.registered x = true → x ≠ b := by
    rintro x hx rfl
    rw [hb] at hx
    exact absurd hx (by decide)
  have hheader : ∀ x, c.registered x = true → (c.writeHeader b kind).header x = c.header x :=
    fun x hx => Function.update_of_ne (hother x hx) _ _
  have hregistered : ∀ x, c.registered x = true → (c.writeHeader b kind).registered x = true :=
    fun x hx => (Function.update_of_ne (hother x hx) _ _).trans hx
  refine ⟨h.linked.congr rfl rfl fun x hx => ?_, h.count, h.cap, fun x hx => ?_,
    fun x hx hout => ?_, ?_, ?_, ?_⟩
  · have hxb := hother x (h.member x (List.mem_reverse.mp hx)).1
    exact ⟨Function.update_of_ne hxb _ _, Function.update_of_ne hxb _ _⟩
  · obtain ⟨hr, hk, hl, hc⟩ := h.member x hx
    rw [hheader x hr]
    exact ⟨hregistered x hr, hk, hl, hc⟩
  · by_cases hxb : x = b
    · subst x
      exact ⟨Function.update_self _ _ _, Function.update_self _ _ _⟩
    · have hx' : c.registered x = true := (Function.update_of_ne hxb _ _).symm.trans hx
      obtain ⟨hn, hp⟩ := h.clear x hx' hout
      exact ⟨(Function.update_of_ne hxb _ _).trans hn, (Function.update_of_ne hxb _ _).trans hp⟩
  · refine ⟨hregistered _ h.current.1, ?_⟩
    change ((c.writeHeader b kind).header c.smallCur).kind = .small ∨
      ((c.writeHeader b kind).header c.smallCur).kind = .primordial
    rw [hheader _ h.current.1]
    exact h.current.2
  · refine ⟨hregistered _ h.root.1, ?_⟩
    change ((c.writeHeader b kind).header c.primordial).kind = .primordial
    rw [hheader _ h.root.1]
    exact h.root.2
  · exact (Function.update_of_ne h0.symm _ _).trans h.null

/-- The cursor moves to a small or primordial segment outside the pool. -/
lemma setSmallCur (h : Inv c q) (hreg : c.registered b = true)
    (hkind : (c.header b).kind = .small ∨ (c.header b).kind = .primordial) (hb : b ∉ q) :
    Inv { c with smallCur := b } q :=
  ⟨h.linked, h.count, h.cap, fun x hx => ⟨(h.member x hx).1, (h.member x hx).2.1,
    (h.member x hx).2.2.1, ne_of_mem_of_not_mem hx hb⟩, h.clear, ⟨hreg, hkind⟩, h.root, h.null⟩

lemma tick (h : Inv c q) (t : Option ℕ) : Inv { c with lastPoolDecayTick := t } q :=
  ⟨h.linked, h.count, h.cap, h.member, h.clear, h.current, h.root, h.null⟩

lemma ne_primordial (h : Inv c q) (hkind : (c.header b).kind = .small) : b ≠ c.primordial := by
  rintro rfl
  rw [h.root.2] at hkind
  exact absurd hkind (by decide)

end Inv

/-! ## Operations -/

/-- An operation does not abort, and its events move the queue along. -/
def Moves (q : List ℕ) (r : Option (Core × List Event)) : Prop :=
  ∃ c es, r = some (c, es) ∧ Inv c (queueAfter q es) ∧ Follows q es

lemma Moves.skip {c : Core} {q : List ℕ} (h : Inv c q) : Moves q (some (c, [])) :=
  ⟨c, [], rfl, h, trivial⟩

section Operations
variable {c : Core} {q : List ℕ} {b : ℕ}

lemma releaseOrPool_moves (h : Inv c q) (hreg : c.registered b = true)
    (hkind : (c.header b).kind = .small) (hlive : (c.header b).liveCount = 0)
    (hcur : b ≠ c.smallCur) (hb : b ∉ q) : Moves q (c.releaseOrPoolEmptySegment b) := by
  rw [Core.releaseOrPoolEmptySegment, if_neg ((h.isPooled_iff hreg).not.mpr hb)]
  split_ifs with hcap
  · exact ⟨_, _, rfl, h.enter hreg hkind hlive hcur hb hcap, hb, trivial⟩
  · exact .skip (h.release hb hcur (h.ne_primordial hkind))

lemma finalizeOldCursor_moves (h : Inv c q) (hreg : c.registered b = true) (hcur : b ≠ c.smallCur) :
    Moves q (c.finalizeOldCursorIfOrphaned b) := by
  rw [Core.finalizeOldCursorIfOrphaned]
  split_ifs with hbusy hkind hpool
  · exact .skip h
  · exact .skip h
  · exact .skip h
  · rw [not_or, not_not] at hbusy
    exact releaseOrPool_moves h hreg (not_not.mp hkind) hbusy.1 hcur
      ((h.isPooled_iff hreg).not.mp hpool)

/-- A member taken out and released: it alone is registered no more. -/
lemma Inv.unlinkRelease (h : Inv c q) (hb : b ∈ q) : ∃ c', c.poolUnlink b = some c' ∧
    Inv (c'.releaseEmptySegment b) (q.erase b) ∧
    ∀ x, (c'.releaseEmptySegment b).registered x = true ↔ c.registered x = true ∧ x ≠ b := by
  obtain ⟨hreg, hkind, -, hcur⟩ := h.member b hb
  obtain ⟨c', hu, h', -, hreg', hcur', hroot'⟩ := h.unlink hb
  refine ⟨c', hu, h'.release h.nodup.not_mem_erase ?_ ?_, fun x => ?_⟩
  · rwa [hcur']
  · rw [hroot']
    exact h.ne_primordial hkind
  · rw [Core.releaseEmptySegment, hreg']
    by_cases hx : x = b
    · simp [hx]
    · simp only [Function.update_of_ne hx, hx, ne_eq, not_false_eq_true, and_true]

lemma Inv.tail (h : Inv c q) : c.pool.tail = q.headD 0 := by
  rw [h.linked.tail]
  cases q with
  | nil => rfl
  | cons x xs => rw [List.reverse_cons, List.getLastD_concat, List.headD_cons]

lemma Inv.head (h : Inv c q) : c.pool.head = q.getLastD 0 := by
  rw [h.linked.head]
  cases q using List.reverseRecOn with
  | nil => rfl
  | append_singleton xs x => rw [List.reverse_concat, List.getLastD_concat, List.headD_cons]

/-- A decay tick that is due releases the oldest member. -/
lemma maybeDecay_due (h : Inv c q) {now t : ℕ} (ht : c.lastPoolDecayTick = some t)
    (hdue : c.decayInterval ≤ now - t) (hb : q.head? = some b) :
    ∃ c', c.maybeDecaySmallPool now = some (c', [.decayed b]) ∧ Inv c' (q.erase b) ∧
      ∀ x, c'.registered x = true ↔ c.registered x = true ∧ x ≠ b := by
  have hm : b ∈ q := List.mem_of_head? hb
  have hcount : c.pooledCount ≠ 0 := by
    rw [h.count]
    exact (List.length_pos_of_mem hm).ne'
  have htail : c.pool.tail = b := by
    rw [h.tail, List.headD_eq_head?_getD, hb]
    rfl
  have hne : b ≠ 0 := h.ne_zero (h.member b hm).1
  obtain ⟨c', hu, hr, hreg⟩ := (h.tick (some now)).unlinkRelease hm
  refine ⟨_, ?_, hr, hreg⟩
  simp only [Core.maybeDecaySmallPool, ht, if_neg hcount, if_neg (not_lt.mpr hdue), htail,
    if_neg hne, hu]
  rfl

/-- A tick that is not due, or finds nothing, releases nothing. -/
lemma maybeDecay_early (h : Inv c q) {now : ℕ}
    (hearly : q = [] ∨ ∀ t, c.lastPoolDecayTick = some t → now - t < c.decayInterval) :
    ∃ c', c.maybeDecaySmallPool now = some (c', []) ∧ Inv c' q ∧ c'.registered = c.registered := by
  rw [Core.maybeDecaySmallPool]
  split_ifs with hcount
  · exact ⟨c, rfl, h, rfl⟩
  obtain rfl | hearly := hearly
  · exact absurd h.count hcount
  cases ht : c.lastPoolDecayTick with
  | none => exact ⟨_, rfl, h.tick _, rfl⟩
  | some t =>
      simp only [if_pos (hearly t ht)]
      exact ⟨c, rfl, h, rfl⟩

/-- A decay tick releases the oldest member or nothing. -/
lemma maybeDecay_moves (h : Inv c q) (now : ℕ) : Moves q (c.maybeDecaySmallPool now) := by
  by_cases hearly : q = [] ∨ ∀ t, c.lastPoolDecayTick = some t → now - t < c.decayInterval
  · obtain ⟨c', he, h', -⟩ := maybeDecay_early h hearly
    exact ⟨c', [], he, h', trivial⟩
  · simp only [not_or, not_forall, not_lt] at hearly
    obtain ⟨hq, t, ht, hdue⟩ := hearly
    obtain ⟨b, hb⟩ := Option.ne_none_iff_exists'.mp (mt List.head?_eq_none_iff.mp hq)
    obtain ⟨c', he, h', -⟩ := maybeDecay_due h ht hdue hb
    exact ⟨c', [.decayed b], he, h', hb, trivial⟩

/-- A drain releases every member, the youngest first. -/
lemma drainLoop_spec (h : Inv c q) {fuel : ℕ} (hf : q.length < fuel) :
    ∃ c', Core.drainLoop fuel c = some (c', q.reverse.map .drained) ∧ Inv c' [] ∧
      Follows q (q.reverse.map .drained) ∧ queueAfter q (q.reverse.map .drained) = [] ∧
      ∀ x, c'.registered x = true ↔ c.registered x = true ∧ x ∉ q := by
  induction fuel generalizing c q with
  | zero => exact absurd hf (Nat.not_lt_zero _)
  | succ fuel ih =>
      rw [Core.drainLoop, Core.popPooledSegment]
      cases q using List.reverseRecOn with
      | nil =>
          have hhead : c.pool.head = 0 := h.head
          have hcount : c.pooledCount = 0 := h.count
          rw [if_pos hhead, if_pos hcount]
          exact ⟨c, rfl, h, trivial, rfl, by simp⟩
      | append_singleton xs x =>
          have hhead : c.pool.head = x := by rw [h.head, List.getLastD_concat]
          have hx : x ∈ xs ++ [x] := by simp
          have hout : x ∉ xs := by
            have := h.nodup
            rw [List.nodup_append] at this
            exact fun hm => this.2.2 x hm x (List.mem_singleton_self x) rfl
          have herase : (xs ++ [x]).erase x = xs := by
            rw [List.erase_append_right _ hout, List.erase_cons_head, List.append_nil]
          obtain ⟨c₁, hu, h₁, hreg₁⟩ := h.unlinkRelease hx
          rw [herase] at h₁
          obtain ⟨c₂, hd, h₂, hfollows, hafter, hreg₂⟩ := ih h₁ (by
            rw [List.length_append, List.length_singleton] at hf
            omega)
          rw [hhead, if_neg (h.ne_zero (h.member x hx).1), hu]
          refine ⟨c₂, ?_, h₂, ?_, ?_, fun y => ?_⟩
          · simp only [Option.map_some, hd, List.reverse_concat, List.map_cons]
          · rw [List.reverse_concat, List.map_cons]
            refine ⟨List.getLast?_concat, ?_⟩
            rw [Event.apply, herase]
            exact hfollows
          · rw [List.reverse_concat, List.map_cons, queueAfter_cons, Event.apply, herase]
            exact hafter
          · rw [hreg₂, hreg₁, List.mem_append, List.mem_singleton, not_or, and_assoc,
              and_comm (a := y ≠ x)]

lemma drain_spec (h : Inv c q) : ∃ c', c.drainSmallPool = some (c', q.reverse.map .drained) ∧
    Inv c' [] ∧ Follows q (q.reverse.map .drained) ∧
    queueAfter q (q.reverse.map .drained) = [] ∧
    ∀ x, c'.registered x = true ↔ c.registered x = true ∧ x ∉ q :=
  drainLoop_spec h (by rw [h.count]; exact Nat.lt_succ_self _)

lemma drain_moves (h : Inv c q) : Moves q c.drainSmallPool := by
  obtain ⟨c', hd, h', hf, ha, -⟩ := drain_spec h
  exact ⟨c', _, hd, ha ▸ h', hf⟩

lemma grant_spec {seg : Option ℕ} (hg : c.grant seg = some b) :
    b ≠ 0 ∧ c.registered b = false := by
  have := (Option.filter_eq_some_iff.mp hg).2
  simpa using this

/-- The new current segment, and what becomes of the old one. -/
lemma adopt_moves (h : Inv c q) (h0 : b ≠ 0) (hb : c.registered b = false) :
    Moves q (c.adoptSegment b) := by
  have hne : c.smallCur ≠ b := by
    intro he
    rw [← he, h.current.1] at hb
    exact absurd hb (by decide)
  have hw := h.writeHeader hb h0 .small
  have hout : b ∉ q := by
    intro hm
    rw [(h.member b hm).1] at hb
    exact absurd hb (by decide)
  have hcur : Inv { c.writeHeader b .small with smallCur := b } q := by
    refine hw.setSmallCur (Function.update_self _ _ _) (.inl ?_) hout
    simp [Core.writeHeader]
  refine finalizeOldCursor_moves hcur ?_ hne
  exact (Function.update_of_ne hne _ _).trans h.current.1

/-- What the OS grants at the first or, after a drain, the second request. -/
lemma request_spec (h : Inv c q) (first second : Option ℕ) :
    ∃ c' es seg, c.requestSegment first second = some (c', es, seg) ∧ Inv c' (queueAfter q es) ∧
      Follows q es ∧ ∀ b, seg = some b → b ≠ 0 ∧ c'.registered b = false := by
  rw [Core.requestSegment]
  cases hg : c.grant first with
  | some base =>
      refine ⟨c, [], some base, rfl, h, trivial, ?_⟩
      rintro _ ⟨rfl⟩
      exact grant_spec hg
  | none =>
      simp only
      split_ifs with hcount
      · obtain ⟨c', es, hd, h', hf⟩ := drain_moves h
        exact ⟨c', es, c'.grant second, by rw [hd]; rfl, h', hf, fun _ => grant_spec⟩
      · exact ⟨c, [], none, rfl, h, trivial, by simp⟩

lemma reserve_moves (h : Inv c q) (now : ℕ) (first second : Option ℕ) (registers : Bool) :
    Moves q (c.reserveSmallSegment now first second registers) := by
  obtain ⟨c₁, es₁, hd, h₁, hf₁⟩ := maybeDecay_moves h now
  obtain ⟨c₂, es₂, seg, hr, h₂, hf₂, hseg⟩ := request_spec h₁ first second
  have h₁₂ : Follows q (es₁ ++ es₂) := follows_append.mpr ⟨hf₁, hf₂⟩
  rw [← queueAfter_append] at h₂
  rw [Core.reserveSmallSegment]
  simp only [hd, Option.bind_eq_bind, Option.bind_some, hr]
  cases seg with
  | none => exact ⟨c₂, _, rfl, h₂, h₁₂⟩
  | some base =>
      simp only
      split_ifs with hreg
      · exact ⟨c₂, _, rfl, h₂, h₁₂⟩
      · obtain ⟨h0, hb⟩ := hseg base rfl
        obtain ⟨c₃, es₃, ha, h₃, hf₃⟩ := adopt_moves h₂ h0 hb
        rw [ha]
        refine ⟨c₃, _, rfl, ?_, follows_append.mpr ⟨h₁₂, hf₃⟩⟩
        rwa [queueAfter_append]

lemma trim_moves (h : Inv c q) : Moves q c.trim := by
  obtain ⟨c₁, hd, h₁, hf, ha, -⟩ := drain_spec h
  have hcur : ¬c₁.IsPooled c₁.smallCur :=
    (h₁.isPooled_iff h₁.current.1).not.mpr List.not_mem_nil
  rw [Core.trim]
  simp only [hd, Option.bind_eq_bind, Option.bind_some]
  suffices ∃ c', c₁.releaseEmptyCurrentSmallForTrim = some c' ∧ Inv c' [] by
    obtain ⟨c', hc, h'⟩ := this
    rw [hc]
    exact ⟨c', _, rfl, ha ▸ h', hf⟩
  rw [Core.releaseEmptyCurrentSmallForTrim]
  simp only [if_neg hcur]
  split_ifs with hkind hbusy hroot
  · exact ⟨c₁, rfl, h₁⟩
  · exact ⟨c₁, rfl, h₁⟩
  · exact absurd hroot (not_or.mpr ⟨h₁.ne_zero h₁.root.1, not_not.mpr h₁.root.2⟩)
  · have hne := h₁.ne_primordial (not_not.mp hkind)
    exact ⟨_, rfl, (h₁.setSmallCur h₁.root.1 (.inr h₁.root.2) List.not_mem_nil).release
      List.not_mem_nil hne hne⟩

lemma issueFound_moves (h : Inv c q) (hreg : c.registered b = true) (n : ℕ) :
    Moves q (c.issueFound b n) := by
  rw [Core.issueFound, Core.unpoolIfPresent]
  split_ifs with hpool
  · have hb := (h.isPooled_iff hreg).mp hpool
    obtain ⟨c', hu, h', -, -, -, -⟩ := h.unlink hb
    rw [hu]
    exact ⟨_, _, rfl, h'.setLiveCount h.nodup.not_mem_erase _, hb, trivial⟩
  · exact .skip (h.setLiveCount ((h.isPooled_iff hreg).not.mp hpool) _)

/-- A free into a segment that holds the blocks. A member of the pool holds none. -/
lemma free_moves (h : Inv c q) (hreg : c.registered b = true) {k : ℕ}
    (hk : k ≤ (c.header b).liveCount) : Moves q (c.free b k) := by
  rw [Core.free]
  by_cases hb : b ∈ q
  · obtain ⟨-, -, hlive, -⟩ := h.member b hb
    obtain rfl : k = 0 := by omega
    have hsame : c.setLiveCount b ((c.header b).liveCount - 0) = c := by
      rw [Core.setLiveCount, Nat.sub_zero, Function.update_eq_self]
    rw [hsame]
    exact .skip h
  · have h' := h.setLiveCount hb ((c.header b).liveCount - k)
    split_ifs with hdec
    · rw [Core.decLiveAndMaybeDecommit, decide_eq_true_eq] at hdec
      obtain ⟨-, hlive, hcur, -, hkind⟩ := hdec
      exact releaseOrPool_moves h' hreg hkind hlive hcur hb
    · exact .skip h'

end Operations

/-! ## Whole runs -/

/-- What the owner does around the pool. `issueFound` is the hit of a search for free
blocks, also when no block can be taken; `decay` and `drain` also come from the large
paths, whose segments are registered and removed beside the small ones. -/
inductive Command where
  | issueCurrent (n : ℕ)
  | issueFound (base n : ℕ)
  | free (base k : ℕ)
  | reserve (now : ℕ) (first second : Option ℕ) (registers : Bool)
  | decay (now : ℕ)
  | drain
  | trim
  | registerLarge (base : ℕ)
  | removeLarge (base : ℕ)

structure World where
  core : Core
  log : List Event

namespace World

/-- A search hits registered small segments, a free returns blocks that are out, and a
registration is of a segment the OS has just granted. -/
def Allowed (w : World) : Command → Prop
  | .issueFound base _ => w.core.registered base = true ∧
      ((w.core.header base).kind = .small ∨ (w.core.header base).kind = .primordial)
  | .free base k => w.core.registered base = true ∧ k ≤ (w.core.header base).liveCount
  | .registerLarge base => base ≠ 0 ∧ w.core.registered base = false
  | .removeLarge base => w.core.registered base = true ∧ (w.core.header base).kind = .large
  | _ => True

instance (w : World) : (c : Command) → Decidable (w.Allowed c)
  | .issueFound .. | .free .. | .registerLarge _ | .removeLarge _ =>
      inferInstanceAs (Decidable (_ ∧ _))
  | .issueCurrent _ | .reserve .. | .decay _ | .drain | .trim => inferInstanceAs (Decidable True)

def exec (c : Core) : Command → Option (Core × List Event)
  | .issueCurrent n => some (c.setLiveCount c.smallCur ((c.header c.smallCur).liveCount + n), [])
  | .issueFound base n => c.issueFound base n
  | .free base k => c.free base k
  | .reserve now first second registers => c.reserveSmallSegment now first second registers
  | .decay now => c.maybeDecaySmallPool now
  | .drain => c.drainSmallPool
  | .trim => c.trim
  | .registerLarge base => some (c.writeHeader base .large, [])
  | .removeLarge base => some ({ c with registered := Function.update c.registered base false }, [])

def step (w : World) (cmd : Command) : Option World :=
  if w.Allowed cmd then (exec w.core cmd).map fun p => ⟨p.1, w.log ++ p.2⟩ else some w

def run : List Command → World → Option World
  | [], w => some w
  | cmd :: cmds, w => (w.step cmd).bind (run cmds)

/-- The members, youngest first. -/
def members (w : World) : List ℕ := (queueAfter [] w.log).reverse

end World

/-- A core from the bootstrap: the primordial alone, and an empty pool. -/
structure Core.Fresh (c : Core) : Prop where
  registered : ∀ b, c.registered b = true ↔ b = c.primordial
  primordial_ne : c.primordial ≠ 0
  kind : (c.header c.primordial).kind = .primordial
  smallCur : c.smallCur = c.primordial
  head : c.pool.head = 0
  tail : c.pool.tail = 0
  links : c.pool.next c.primordial = 0 ∧ c.pool.prev c.primordial = 0
  pooledCount : c.pooledCount = 0

lemma Core.Fresh.inv {c : Core} (h : c.Fresh) : Inv c [] := by
  refine ⟨.nil h.head h.tail, h.pooledCount, by rw [h.pooledCount]; exact Nat.zero_le _,
    by simp, fun b hb _ => ?_, ?_, ⟨(h.registered _).mpr rfl, h.kind⟩, ?_⟩
  · rw [(h.registered b).mp hb]
    exact h.links
  · rw [h.smallCur]
    exact ⟨(h.registered _).mpr rfl, .inr h.kind⟩
  · rw [← Bool.not_eq_true, h.registered]
    exact h.primordial_ne.symm

/-- One command the contract allows. -/
lemma exec_moves {c : Core} {q : List ℕ} (h : Inv c q) (log : List Event) {cmd : Command}
    (hc : World.Allowed ⟨c, log⟩ cmd) : Moves q (World.exec c cmd) := by
  cases cmd with
  | issueCurrent n =>
      have hout : c.smallCur ∉ q := fun hm => (h.member _ hm).2.2.2 rfl
      exact .skip (h.setLiveCount hout _)
  | issueFound base n => exact issueFound_moves h hc.1 n
  | free base k => exact free_moves h hc.1 hc.2
  | reserve now first second registers => exact reserve_moves h now first second registers
  | decay now => exact maybeDecay_moves h now
  | drain => exact drain_moves h
  | trim => exact trim_moves h
  | registerLarge base => exact .skip (h.writeHeader hc.2 hc.1 .large)
  | removeLarge base =>
      obtain ⟨-, hkind⟩ := hc
      refine .skip (h.remove ?_ ?_ ?_ fun _ _ => rfl)
      · intro hm
        rw [(h.member base hm).2.1] at hkind
        exact absurd hkind (by decide)
      · rintro rfl
        rcases h.current.2 with hk | hk <;> exact absurd (hk.symm.trans hkind) (by decide)
      · rintro rfl
        exact absurd (h.root.2.symm.trans hkind) (by decide)

/-- The pool of a reached world: its links, its members and its log. -/
structure Represented (w : World) : Prop where
  /-- The links thread the members from head to tail and back, each once. -/
  linked : Linked w.core.pool w.members
  next_prev : ∀ b ∈ w.members, w.core.pool.next b ≠ 0 →
    w.core.pool.next b ∈ w.members ∧ w.core.pool.prev (w.core.pool.next b) = b
  prev_next : ∀ b ∈ w.members, w.core.pool.prev b ≠ 0 →
    w.core.pool.prev b ∈ w.members ∧ w.core.pool.next (w.core.pool.prev b) = b
  head : ∀ b ∈ w.members, w.core.pool.prev b = 0 ↔ w.core.pool.head = b
  tail : ∀ b ∈ w.members, w.core.pool.next b = 0 ↔ w.core.pool.tail = b
  /-- The O(1) test answers for the members. -/
  isPooled : ∀ b, w.core.registered b = true → (w.core.IsPooled b ↔ b ∈ w.members)
  count : w.core.pooledCount = w.members.length
  cap : w.core.pooledCount ≤ w.core.poolCap
  eligible : ∀ b ∈ w.members, w.core.registered b = true ∧ (w.core.header b).kind = .small ∧
    (w.core.header b).liveCount = 0 ∧ b ≠ w.core.smallCur ∧ b ≠ w.core.primordial
  /-- A registered segment outside the pool has no link. -/
  cleared : ∀ b, w.core.registered b = true → b ∉ w.members →
    w.core.pool.next b = 0 ∧ w.core.pool.prev b = 0
  /-- A decay takes the member admitted first, a drain the one admitted last. -/
  inOrder : ∀ before e after, w.log = before ++ e :: after → e.InOrder (queueAfter [] before)
  /-- A decay tick that is due releases the member admitted first, and no other. -/
  decays : ∀ now t b, w.core.lastPoolDecayTick = some t → w.core.decayInterval ≤ now - t →
    w.members.getLast? = some b → ∃ c', w.core.maybeDecaySmallPool now = some (c', [.decayed b]) ∧
      ∀ x, c'.registered x = true ↔ w.core.registered x = true ∧ x ≠ b
  /-- Before it is due, a tick releases nothing. -/
  waits : ∀ now, (∀ t, w.core.lastPoolDecayTick = some t → now - t < w.core.decayInterval) →
    ∃ c', w.core.maybeDecaySmallPool now = some (c', []) ∧ c'.registered = w.core.registered
  /-- A drain releases every member, the one admitted last first, and leaves the pool empty. -/
  drains : ∃ c', w.core.drainSmallPool = some (c', w.members.map .drained) ∧
    (⟨c', w.log ++ w.members.map .drained⟩ : World).members = [] ∧ c'.pooledCount = 0 ∧
    (∀ x, c'.registered x = true ↔ w.core.registered x = true ∧ x ∉ w.members) ∧
    ∀ x, c'.registered x = true → ¬ c'.IsPooled x

lemma Follows.inOrder {q : List ℕ} {before after : List Event} {e : Event}
    (h : Follows q (before ++ e :: after)) : e.InOrder (queueAfter q before) :=
  (follows_append.mp h).2.1

lemma Inv.represented {w : World} (h : Inv w.core (queueAfter [] w.log))
    (hf : Follows [] w.log) : Represented w := by
  have hmem : ∀ b, b ∈ w.members ↔ b ∈ queueAfter [] w.log := fun b => List.mem_reverse
  refine ⟨h.linked, fun b hb => h.linked.next_prev hb, fun b hb => h.linked.prev_next hb,
    fun b hb => h.linked.prev_eq_zero hb, fun b hb => h.linked.next_eq_zero hb, fun b hb => ?_, ?_,
    h.cap, fun b hb => ?_, fun b hb hout => h.clear b hb (hout ∘ (hmem b).mpr), ?_,
    fun now t b ht hdue hb => ?_, fun now hearly => ?_, ?_⟩
  · rw [hmem, h.isPooled_iff hb]
  · rw [World.members, List.length_reverse, h.count]
  · obtain ⟨hreg, hkind, hlive, hcur⟩ := h.member b ((hmem b).mp hb)
    exact ⟨hreg, hkind, hlive, hcur, h.ne_primordial hkind⟩
  · intro before e after hlog
    rw [hlog] at hf
    exact hf.inOrder
  · rw [World.members, List.getLast?_reverse] at hb
    obtain ⟨c', he, -, hreg⟩ := maybeDecay_due h ht hdue hb
    exact ⟨c', he, hreg⟩
  · obtain ⟨c', he, -, hreg⟩ := maybeDecay_early h (.inr hearly)
    exact ⟨c', he, hreg⟩
  · obtain ⟨c', hd, h', -, ha, hreg⟩ := drain_spec h
    refine ⟨c', hd, ?_, h'.count, fun x => ?_, fun x hx => ?_⟩
    · rw [World.members, queueAfter_append]
      exact congrArg List.reverse ha
    · rw [hmem, hreg]
    · rw [h'.isPooled_iff hx]
      exact List.not_mem_nil

/-- Every run from the bootstrap, to its end and without an abort. -/
theorem World.run_represented (cmds : List Command) {c : Core} (hf : c.Fresh) :
    ∃ w, World.run cmds ⟨c, []⟩ = some w ∧ Represented w := by
  suffices h : ∀ w : World, Inv w.core (queueAfter [] w.log) → Follows [] w.log →
      ∃ w', World.run cmds w = some w' ∧ Represented w' from h ⟨c, []⟩ hf.inv trivial
  induction cmds with
  | nil => exact fun w h hlog => ⟨w, rfl, h.represented hlog⟩
  | cons cmd cmds ih =>
      intro w h hlog
      rw [World.run, World.step]
      split_ifs with hc
      · obtain ⟨c', es, he, h', hes⟩ := exec_moves h w.log hc
        rw [← queueAfter_append] at h'
        obtain ⟨w', hr, hw'⟩ := ih ⟨c', w.log ++ es⟩ h' (follows_append.mpr ⟨hlog, hes⟩)
        exact ⟨w', by rw [he]; exact hr, hw'⟩
      · exact ih w h hlog

/-- A standalone heap with room for two pooled segments. -/
def twoSlotCore : Core where
  header _ := ⟨.primordial, 0, false⟩
  registered b := b == segment
  primordial := segment
  smallCur := segment
  pool := ⟨fun _ => 0, fun _ => 0, 0, 0⟩
  pooledCount := 0
  poolCap := 2
  decayInterval := 0
  lastPoolDecayTick := none

lemma twoSlotCore_fresh : twoSlotCore.Fresh :=
  ⟨fun _ => beq_iff_eq, by decide, rfl, rfl, rfl, rfl, ⟨rfl, rfl⟩, rfl⟩

/-- Two segments empty one after the other, and the pool is drained. -/
def drainRun : List Command :=
  [.reserve 0 (some (2 * segment)) none true, .issueCurrent 1,
    .reserve 0 (some (3 * segment)) none true, .issueCurrent 1,
    .reserve 0 (some (4 * segment)) none true,
    .free (2 * segment) 1, .free (3 * segment) 1, .drain]

theorem drainRun_represented :
    ∃ w, World.run drainRun ⟨twoSlotCore, []⟩ = some w ∧ Represented w :=
  World.run_represented drainRun twoSlotCore_fresh

/-- The drain evicts the member admitted last before the one admitted first. -/
theorem drainRun_youngest_first : ∃ w before base after,
    World.run drainRun ⟨twoSlotCore, []⟩ = some w ∧ w.log = before ++ .drained base :: after ∧
      (queueAfter [] before).head? ≠ some base := by
  have hrun : (World.run drainRun ⟨twoSlotCore, []⟩).map World.log =
      some [.admitted (2 * segment), .admitted (3 * segment), .drained (3 * segment),
        .drained (2 * segment)] := by
    decide +kernel
  obtain ⟨w, hw, hlog⟩ := Option.map_eq_some_iff.mp hrun
  exact ⟨w, [.admitted (2 * segment), .admitted (3 * segment)], 3 * segment,
    [.drained (2 * segment)], hw, hlog, by decide⟩

end SmallPool

end SeferAlloc
