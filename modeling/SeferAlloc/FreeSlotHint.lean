import SeferAlloc.BitWord
import SeferAlloc.Interleaving

/-!
# The hint of free slots

A bitmap of slot indices under one summary word. Publishers set the bit and then
the mark of its word; takers clear a bit and, with the last bit of a word, its
mark, and look at the word again. Any number of threads does so at once, one
shared access at a time. A log records publications and removals, and the answers
of takes.
-/
namespace SeferAlloc
namespace FreeSlotHint
open BitWord Interleaving

/-- `MAX_HEAPS`: the indices of the bitmap. -/
def hintSlots : ℕ := 4096

/-- The words of the hint. -/
def hintWords : ℕ := hintSlots / 64

/-- How many words one take may look at. -/
def takeAttempts : ℕ := 2 * hintWords

/-- What the log records. A return has the answer, and the place of its take in the log. -/
inductive Event where
  | published (idx : ℕ)
  | taken (idx : ℕ)
  | forgotten (idx : ℕ)
  | returned (ticket idx : ℕ)
deriving DecidableEq

/-- The shared words, and the log beside them. -/
structure Hint where
  summary : Word
  words : ℕ → Word
  log : List Event

/-- A hint that names nothing. -/
def Hint.new : Hint := ⟨0, fun _ => 0, []⟩

/-- Where `clear_summary_recheck` goes on. -/
inductive Next where
  | done
  | again (attempt : ℕ)
  | answer (idx ticket : ℕ)

inductive Loc where
  | idle
  | panicked
  -- `publish`
  | publishWord (idx : ℕ)
  | publishSummary (word : ℕ)
  -- `take_nonempty`
  | takeSummary (attempt : ℕ)
  | takeWord (attempt word : ℕ)
  | takeAnd (attempt word b : ℕ)
  | takeReturn (idx ticket : ℕ)
  -- `forget`
  | forget (idx : ℕ)
  -- `clear_summary_recheck`
  | clearSummary (word : ℕ) (next : Next)
  | recheckWord (word : ℕ) (next : Next)
  | restoreSummary (word : ℕ) (next : Next)

def Next.loc : Next → Loc
  | .done => .idle
  | .again attempt => .takeSummary attempt
  | .answer idx ticket => .takeReturn idx ticket

/-- The operation that an idle thread starts. -/
inductive Command where
  | publish (idx : ℕ)
  | takeNonempty
  | forget (idx : ℕ)
  | recheck (word : ℕ)

/-- One atomic action of a thread. -/
def act (c : Command) (h : Hint) : Loc → Hint × Loc
  | .idle =>
      (h, match c with
        | .publish idx => if idx < hintSlots then .publishWord idx else .panicked
        | .takeNonempty => .takeSummary 0
        | .forget idx => if idx < hintSlots then .forget idx else .panicked
        | .recheck word => if word < hintWords then .clearSummary word .done else .panicked)
  | .panicked => (h, .panicked)
  | .publishWord idx =>
      ({ h with
        words := Function.update h.words (idx / 64) (h.words (idx / 64) ||| bit (idx % 64))
        log := h.log ++ [.published idx] }, .publishSummary (idx / 64))
  | .publishSummary word => ({ h with summary := h.summary ||| bit word }, .idle)
  | .takeSummary attempt =>
      (h, if takeAttempts ≤ attempt ∨ h.summary = 0 then .idle
        else .takeWord attempt (trailingZeros h.summary))
  | .takeWord attempt word =>
      (h, if h.words word = 0 then .clearSummary word (.again (attempt + 1))
        else .takeAnd attempt word (trailingZeros (h.words word)))
  | .takeAnd attempt word b =>
      let old := h.words word
      let h' := { h with words := Function.update h.words word (old &&& ~~~bit b) }
      let idx := word * 64 + b
      if old &&& bit b = 0 then (h', .takeSummary (attempt + 1))
      else
        ({ h' with log := h.log ++ [.taken idx] },
          if old = bit b then .clearSummary word (.answer idx h.log.length)
          else .takeReturn idx h.log.length)
  | .takeReturn idx ticket => ({ h with log := h.log ++ [.returned ticket idx] }, .idle)
  | .forget idx =>
      ({ h with
        words := Function.update h.words (idx / 64) (h.words (idx / 64) &&& ~~~bit (idx % 64))
        log := h.log ++ [.forgotten idx] }, .idle)
  | .clearSummary word next =>
      ({ h with summary := h.summary &&& ~~~bit word }, .recheckWord word next)
  | .recheckWord word next =>
      (h, if h.words word ≠ 0 then .restoreSummary word next else next.loc)
  | .restoreSummary word next => ({ h with summary := h.summary ||| bit word }, next.loc)

variable {ι : Type*}

/-- Threads named by `ι` before the first operation. -/
def start (ι : Type*) : World ι Hint Loc := ⟨.new, fun _ => .idle⟩

/-! ## The log -/

/-- The last publication or removal of the index is a publication. -/
def pending (idx : ℕ) : List Event → Bool :=
  List.foldl (fun p e => if e = .published idx then true
    else if e = .taken idx ∨ e = .forgotten idx then false else p) false

lemma pending_append (idx : ℕ) (log : List Event) (e : Event) :
    pending idx (log ++ [e]) = if e = .published idx then true
      else if e = .taken idx ∨ e = .forgotten idx then false else pending idx log := by
  simp [pending, List.foldl_append]

/-- A publication that nothing removed afterwards is pending. -/
lemma pending_of_published {idx : ℕ} (pre post : List Event)
    (ht : .taken idx ∉ post) (hf : .forgotten idx ∉ post) :
    pending idx (pre ++ .published idx :: post) = true := by
  induction post using List.reverseRecOn with
  | nil => simp [pending_append]
  | append_singleton post e ih =>
      simp only [List.mem_append, List.mem_singleton, not_or] at ht hf
      rw [← List.cons_append, ← List.append_assoc, pending_append, ih ht.1 hf.1]
      have h₁ : ¬ (e = .taken idx ∨ e = .forgotten idx) := by
        rintro (rfl | rfl)
        · exact ht.2 rfl
        · exact hf.2 rfl
      simp [h₁]

/-- What is pending was published, and not removed since. -/
lemma published_of_pending {idx : ℕ} {log : List Event} (h : pending idx log = true) :
    ∃ pre post, log = pre ++ .published idx :: post ∧ .taken idx ∉ post ∧
      .forgotten idx ∉ post := by
  induction log using List.reverseRecOn with
  | nil => contradiction
  | append_singleton log e ih =>
      rw [pending_append] at h
      split_ifs at h with h₁ h₂
      · exact ⟨log, [], by rw [h₁], by simp, by simp⟩
      · obtain ⟨pre, post, rfl, ht, hf⟩ := ih h
        rw [not_or] at h₂
        refine ⟨pre, post ++ [e], by simp, ?_, ?_⟩
        · simpa [ht] using fun he => h₂.1 he.symm
        · simpa [hf] using fun he => h₂.2 he.symm

/-- Every take takes a publication, which no other take or `forget` took. -/
def EachTakenOnce (log : List Event) : Prop :=
  ∀ idx pre post, log = pre ++ .taken idx :: post → pending idx pre = true

/-- The bits are the pending publications. -/
structure Recorded (h : Hint) : Prop where
  bits : ∀ idx, member h.words idx = pending idx h.log
  once : EachTakenOnce h.log

lemma EachTakenOnce.append {log : List Event} (h : EachTakenOnce log) {e : Event}
    (he : ∀ idx, e = .taken idx → pending idx log = true) : EachTakenOnce (log ++ [e]) := by
  intro idx pre post heq
  obtain rfl | ⟨post', e', rfl⟩ := List.eq_nil_or_concat post
  · obtain ⟨rfl, h₁⟩ := List.append_inj' heq rfl
    exact he idx (List.cons.inj h₁).1
  · rw [List.concat_eq_append, ← List.cons_append, ← List.append_assoc] at heq
    exact h idx pre post' (List.append_inj' heq rfl).1

/-- A taker looks at a bit of one word. -/
def InWord : Loc → Prop
  | .takeAnd _ _ b => b < 64
  | _ => True

lemma act_inWord (c : Command) (h : Hint) (l : Loc) : InWord (act c h l).2 := by
  cases l with
  | takeWord attempt word =>
      simp only [act]
      split_ifs with h0
      · trivial
      · exact trailingZeros_lt h0
  | recheckWord word next | restoreSummary word next =>
      cases next <;> simp only [act, Next.loc] <;> (repeat' split) <;> trivial
  | _ => simp only [act] <;> (repeat' split) <;> trivial

lemma Recorded.act {h : Hint} {l : Loc} (hr : Recorded h) (hl : InWord l) (c : Command) :
    Recorded (act c h l).1 := by
  cases l with
  | publishWord idx =>
      refine ⟨fun i => ?_, hr.once.append fun i he => by contradiction⟩
      change member (Function.update h.words _ _) i = pending i (h.log ++ [.published idx])
      rw [member_set, hr.bits, pending_append]
      by_cases hi : i = idx
      · simp [hi]
      · have hne : ¬ idx = i := fun he => hi he.symm
        simp [hi, hne]
  | forget idx =>
      refine ⟨fun i => ?_, hr.once.append fun i he => by contradiction⟩
      change member (Function.update h.words _ _) i = pending i (h.log ++ [.forgotten idx])
      rw [member_clear, hr.bits, pending_append]
      by_cases hi : i = idx
      · simp [hi]
      · have hne : ¬ idx = i := fun he => hi he.symm
        simp [hi, hne]
  | takeAnd attempt word b =>
      have hb : b < 64 := hl
      simp only [FreeSlotHint.act]
      by_cases h0 : h.words word &&& bit b = 0
      · -- Another taker was first: the bit is clear already.
        rw [if_pos h0]
        refine ⟨fun i => ?_, hr.once⟩
        change member (Function.update h.words word _) i = _
        rw [member_clear_at h.words word hb, ← hr.bits]
        by_cases hi : i = word * 64 + b
        · rw [hi, member_at _ _ hb, (and_bit_eq_zero hb).mp h0, Bool.and_false]
        · simp [hi]
      · have hset : pending (word * 64 + b) h.log = true := by
          rw [← hr.bits, member_at _ _ hb]
          exact Bool.eq_true_of_not_eq_false fun hf => h0 ((and_bit_eq_zero hb).mpr hf)
        rw [if_neg h0]
        refine ⟨fun i => ?_, hr.once.append fun i he => ?_⟩
        · change member (Function.update h.words word _) i =
            pending i (h.log ++ [.taken (word * 64 + b)])
          rw [member_clear_at h.words word hb, hr.bits, pending_append]
          by_cases hi : i = word * 64 + b
          · simp [hi]
          · have hne : ¬ word * 64 + b = i := fun he => hi he.symm
            simp [hi, hne]
        · obtain rfl := Event.taken.inj he
          exact hset
  | takeReturn idx ticket =>
      refine ⟨fun i => ?_, hr.once.append fun i he => by contradiction⟩
      change member h.words i = pending i (h.log ++ [.returned ticket idx])
      rw [hr.bits, pending_append]
      simp
  | publishSummary _ | clearSummary _ _ | restoreSummary _ _ => exact ⟨hr.bits, hr.once⟩
  | _ => exact hr

/-! ## The summary -/

/-- The thread will look at the word again, or set its mark. -/
def Owes (word : ℕ) : Loc → Prop
  | .publishSummary w | .recheckWord w _ | .restoreSummary w _ => w = word
  | _ => False

/-- A non-zero word stays marked, or somebody stays under way to mark it. -/
lemma act_marked (c : Command) {h : Hint} {l : Loc} {word : ℕ} (hword : word < 64)
    (h₁ : (act c h l).1.words word ≠ 0)
    (hm : h.words word ≠ 0 → h.summary.getLsbD word = true ∨ Owes word l) :
    (act c h l).1.summary.getLsbD word = true ∨ Owes word (act c h l).2 := by
  have hand : ∀ {w m}, Function.update h.words w (h.words w &&& m) word ≠ 0 →
      h.words word ≠ 0 := by
    intro w m hne
    by_cases hw : word = w
    · subst w
      rw [Function.update_self] at hne
      rintro h0
      exact hne (by simp [h0])
    · rwa [Function.update_of_ne hw] at hne
  cases l with
  | publishWord idx =>
      by_cases hw : word = idx / 64
      · exact .inr hw.symm
      · exact .inl ((hm (by simpa [act, hw] using h₁)).resolve_right id)
  | publishSummary w | restoreSummary w next =>
      simp only [act]
      by_cases hw : word = w
      · left
        rw [getLsbD_or_bit (hw ▸ hword)]
        simp [hw]
      · obtain hs | ho := hm h₁
        · left
          rw [BitVec.getLsbD_or, hs, Bool.true_or]
        · exact absurd ho.symm hw
  | clearSummary w next =>
      simp only [act]
      by_cases hw : word = w
      · exact .inr hw.symm
      · left
        rw [getLsbD_clear_bit, (hm h₁).resolve_right id]
        simp [hw]
  | recheckWord w next =>
      simp only [act] at h₁ ⊢
      obtain hs | rfl := hm h₁
      · exact .inl hs
      · rw [if_pos h₁]
        exact .inr rfl
  | takeAnd attempt w b =>
      simp only [act] at h₁ ⊢
      split_ifs at h₁ ⊢
      all_goals exact .inl ((hm (hand h₁)).resolve_right id)
  | forget idx => exact .inl ((hm (hand h₁)).resolve_right id)
  | _ => exact .inl ((hm h₁).resolve_right id)

/-! ## Returns -/

/-- The take that a thread will return. -/
def hold : Loc → Option (ℕ × ℕ)
  | .takeReturn idx ticket | .clearSummary _ (.answer idx ticket)
  | .recheckWord _ (.answer idx ticket) | .restoreSummary _ (.answer idx ticket) =>
      some (ticket, idx)
  | _ => none

/-- The takes that were returned. -/
def tickets (log : List Event) : List ℕ :=
  log.filterMap fun
    | .returned ticket _ => some ticket
    | _ => none

/-- A take that nobody returned so far. -/
def unreturned (h : Hint) (ticket : ℕ) : Option ℕ :=
  if ticket ∈ tickets h.log then none
  else
    match h.log[ticket]? with
    | some (.taken idx) => some idx
    | _ => none

/-- Returns answer with what they took, and no take is returned twice. -/
structure Returned (log : List Event) : Prop where
  once : (tickets log).Nodup
  answer : ∀ t idx, .returned t idx ∈ log → log[t]? = some (.taken idx)

lemma mem_tickets {log : List Event} {t : ℕ} : t ∈ tickets log ↔ ∃ idx, .returned t idx ∈ log := by
  rw [tickets, List.mem_filterMap]
  constructor
  · rintro ⟨e, he, ht⟩
    cases e with
    | returned ticket idx =>
        obtain rfl := Option.some.inj ht
        exact ⟨idx, he⟩
    | _ => contradiction
  · rintro ⟨idx, he⟩
    exact ⟨_, he, rfl⟩

lemma Returned.lt {log : List Event} (h : Returned log) {t : ℕ} (ht : t ∈ tickets log) :
    t < log.length := by
  obtain ⟨idx, he⟩ := mem_tickets.mp ht
  exact (List.getElem?_eq_some_iff.mp (h.answer t idx he)).1

lemma tickets_append (log : List Event) (e : Event) :
    tickets (log ++ [e]) = tickets log ++ tickets [e] := List.filterMap_append

/-- An event that is no return keeps the answers. -/
lemma Returned.append {log : List Event} (h : Returned log) {e : Event} (he : tickets [e] = []) :
    Returned (log ++ [e]) := by
  refine ⟨by rw [tickets_append, he, List.append_nil]; exact h.once, fun t idx ht => ?_⟩
  obtain ht | ht := List.mem_append.mp ht
  · have hlt := h.lt (mem_tickets.mpr ⟨idx, ht⟩)
    rw [List.getElem?_append_left hlt]
    exact h.answer t idx ht
  · rw [← List.mem_singleton.mp ht] at he
    contradiction

/-- Publications and `forget` leave the takes as they are. -/
lemma unreturned_append {h h' : Hint} {e : Event} (hlog : h'.log = h.log ++ [e])
    (he : tickets [e] = []) (hnot : ∀ idx, e ≠ .taken idx) : unreturned h' = unreturned h := by
  ext1 t
  unfold unreturned
  rw [hlog, tickets_append, he, List.append_nil]
  obtain hlt | rfl | hlt := Nat.lt_trichotomy t h.log.length
  · rw [List.getElem?_append_left hlt]
  · rw [List.getElem?_concat_length, List.getElem?_eq_none le_rfl]
    cases e with
    | taken idx => exact absurd rfl (hnot idx)
    | _ => rfl
  · have h₁ : (h.log ++ [e]).length ≤ t := by simpa using hlt
    rw [List.getElem?_eq_none h₁, List.getElem?_eq_none hlt.le]

lemma unreturned_taken {h h' : Hint} {idx : ℕ} (hr : Returned h.log)
    (hlog : h'.log = h.log ++ [.taken idx]) :
    unreturned h' = Function.update (unreturned h) h.log.length (some idx) := by
  ext1 t
  unfold unreturned
  rw [hlog, tickets_append, show tickets [.taken idx] = [] from rfl, List.append_nil]
  obtain hlt | rfl | hlt := Nat.lt_trichotomy t h.log.length
  · rw [List.getElem?_append_left hlt, Function.update_of_ne (Nat.ne_of_lt hlt)]
  · have hnot : h.log.length ∉ tickets h.log := fun ht => lt_irrefl _ (hr.lt ht)
    rw [List.getElem?_concat_length, Function.update_self, if_neg hnot]
  · have h₁ : (h.log ++ [Event.taken idx]).length ≤ t := by simpa using hlt
    rw [List.getElem?_eq_none h₁, Function.update_of_ne (Nat.ne_of_gt hlt),
      List.getElem?_eq_none hlt.le]

lemma unreturned_returned {h h' : Hint} {idx ticket : ℕ}
    (hlog : h'.log = h.log ++ [.returned ticket idx]) :
    unreturned h' = Function.update (unreturned h) ticket none := by
  ext1 t
  unfold unreturned
  rw [hlog, tickets_append, show tickets [.returned ticket idx] = [ticket] from rfl]
  by_cases ht : t = ticket
  · subst t
    rw [Function.update_self, if_pos (by simp)]
  · rw [Function.update_of_ne ht]
    have hmem : t ∈ tickets h.log ++ [ticket] ↔ t ∈ tickets h.log := by simp [ht]
    simp only [hmem]
    obtain hlt | rfl | hlt := Nat.lt_trichotomy t h.log.length
    · rw [List.getElem?_append_left hlt]
    · rw [List.getElem?_concat_length, List.getElem?_eq_none le_rfl]
    · have h₁ : (h.log ++ [Event.returned ticket idx]).length ≤ t := by simpa using hlt
      rw [List.getElem?_eq_none h₁, List.getElem?_eq_none hlt.le]

lemma hold_next (next : Next) : hold next.loc =
    match next with
    | .answer idx ticket => some (ticket, idx)
    | _ => none := by
  cases next <;> rfl

lemma act_move (c : Command) {h : Hint} (l : Loc) (hr : Returned h.log) :
    Move hold unreturned h (act c h l).1 l (act c h l).2 := by
  cases l with
  | idle =>
      refine .keep rfl ?_
      cases c <;> simp only [act] <;> (repeat' split) <;> rfl
  | publishWord idx =>
      exact .keep (unreturned_append rfl rfl fun _ => by simp) rfl
  | forget idx => exact .keep (unreturned_append rfl rfl fun _ => by simp) rfl
  | takeAnd attempt word b =>
      simp only [act]
      by_cases h0 : h.words word &&& bit b = 0
      · rw [if_pos h0]
        exact .keep rfl rfl
      · rw [if_neg h0]
        refine .acquire h.log.length (word * 64 + b) rfl ?_ (unreturned_taken hr rfl) ?_
        · rw [unreturned, List.getElem?_eq_none le_rfl, ite_self]
        · dsimp only
          split_ifs <;> rfl
  | takeReturn idx ticket =>
      exact .release ticket idx rfl (unreturned_returned rfl) rfl
  | recheckWord word next =>
      refine .keep rfl ?_
      simp only [act]
      split_ifs
      · cases next <;> rfl
      · rw [hold_next]
        cases next <;> rfl
  | restoreSummary word next =>
      refine .keep rfl ?_
      simp only [act]
      rw [hold_next]
      cases next <;> rfl
  | clearSummary word next =>
      refine .keep rfl ?_
      cases next <;> rfl
  | takeSummary attempt | takeWord attempt word =>
      refine .keep rfl ?_
      simp only [act]
      split_ifs <;> rfl
  | _ => exact .keep rfl rfl

lemma act_returned (c : Command) {h : Hint} {l : Loc} (hr : Returned h.log)
    (hown : ∀ t idx, hold l = some (t, idx) → unreturned h t = some idx) :
    Returned (act c h l).1.log := by
  cases l with
  | publishWord idx => exact hr.append rfl
  | forget idx => exact hr.append rfl
  | takeAnd attempt word b =>
      simp only [act]
      by_cases h0 : h.words word &&& bit b = 0
      · rw [if_pos h0]
        exact hr
      · rw [if_neg h0]
        exact hr.append rfl
  | takeReturn idx ticket =>
      have hopen := hown ticket idx rfl
      rw [unreturned] at hopen
      split_ifs at hopen with hnew
      have htaken : h.log[ticket]? = some (.taken idx) := by
        cases he : h.log[ticket]? with
        | none => simp [he] at hopen
        | some e => cases e <;> simp_all
      refine ⟨?_, fun t i ht => ?_⟩
      · change (tickets (h.log ++ [.returned ticket idx])).Nodup
        rw [tickets_append, show tickets [.returned ticket idx] = [ticket] from rfl,
          ← List.concat_eq_append]
        exact hr.once.concat hnew
      · obtain ht | ht := List.mem_append.mp ht
        · exact (List.getElem?_append_left (hr.lt (mem_tickets.mpr ⟨i, ht⟩))).trans
            (hr.answer t i ht)
        · obtain ⟨rfl, rfl⟩ := Event.returned.inj (List.mem_singleton.mp ht)
          exact (List.getElem?_append_left (List.getElem?_eq_some_iff.mp htaken).1).trans htaken
  | _ => exact hr

/-! ## Every schedule -/

/-- What holds whatever the threads do. -/
structure Tracked (w : World ι Hint Loc) : Prop where
  recorded : Recorded w.shared
  inWord : ∀ j, InWord (w.loc j)
  marked : ∀ word, word < 64 → w.shared.words word ≠ 0 →
    w.Covered (fun h => h.summary.getLsbD word = true) fun _ => Owes word
  returned : Returned w.shared.log
  owned : Owned hold unreturned w

lemma tracked_start : Tracked (start ι) where
  recorded := ⟨fun _ => by simp [start, Hint.new, member, pending], fun _ pre post h => by
    simp [start, Hint.new] at h⟩
  inWord _ := trivial
  marked _ _ h := absurd rfl h
  returned := ⟨List.nodup_nil, fun _ _ h => by simp [start, Hint.new] at h⟩
  owned :=
    { mode := fun _ _ _ h => by contradiction
      unique := fun _ _ _ _ _ h => by contradiction
      owner := fun _ _ h => by simp [start, Hint.new, unreturned] at h }

lemma Tracked.step [DecidableEq ι] {w : World ι Hint Loc} (h : Tracked w) (i : ι) (c : Command) :
    Tracked (w.step act i c) := by
  refine ⟨h.recorded.act (h.inWord i) c, fun j => ?_, fun word hword h₁ => ?_,
    act_returned c h.returned (h.owned.mode i), h.owned.step (act_move c _ h.returned)⟩
  · by_cases hj : j = i
    · subst j
      rw [World.step_loc_self]
      exact act_inWord c _ _
    · rw [World.step_loc_of_ne hj]
      exact h.inWord j
  · by_cases h0 : w.shared.words word = 0
    · obtain hs | ho := act_marked c hword h₁ fun hne => absurd h0 hne
      · exact .inl hs
      · exact .inr ⟨i, by rwa [World.step_loc_self]⟩
    · exact (h.marked word hword h0).step_loc fun hm => act_marked c hword h₁ fun _ => hm

lemma tracked_run [DecidableEq ι] (xs : List (ι × Command)) :
    Tracked (World.run act xs (start ι)) :=
  World.run_invariant (fun _ i c h => h.step i c) xs tracked_start

/-- The thread has no operation under way. -/
def Loc.AtRest : Loc → Prop
  | .idle | .panicked => True
  | _ => False

/-- What the hint promises its users. -/
structure Sound (w : World ι Hint Loc) : Prop where
  /-- When no operation is under way, a publication that was neither taken nor forgotten since is
  found: its bit is set, and its word is marked. -/
  found : (∀ j, (w.loc j).AtRest) → ∀ idx, idx < hintSlots → ∀ pre post,
    w.shared.log = pre ++ .published idx :: post → .taken idx ∉ post → .forgotten idx ∉ post →
      member w.shared.words idx = true ∧ w.shared.summary.getLsbD (idx / 64) = true
  /-- A take removes a publication that nothing removed before. -/
  taken : ∀ idx pre post, w.shared.log = pre ++ .taken idx :: post →
    ∃ p q, pre = p ++ .published idx :: q ∧ .taken idx ∉ q ∧ .forgotten idx ∉ q
  /-- No take is returned twice, and it answers with what it removed. -/
  returned : Returned w.shared.log

lemma Tracked.sound {w : World ι Hint Loc} (h : Tracked w) : Sound w where
  found hrest idx hidx pre post hlog ht hf := by
    have hbit : member w.shared.words idx = true := by
      rw [h.recorded.bits, hlog]
      exact pending_of_published pre post ht hf
    have hword : idx / 64 < 64 := by
      simp only [hintSlots] at hidx
      omega
    obtain hs | ⟨j, hj⟩ := h.marked _ hword (word_ne_zero_of_member hbit)
    · exact ⟨hbit, hs⟩
    · have hj' := hrest j
      cases hl : w.loc j <;> rw [hl] at hj hj' <;> contradiction
  taken idx pre post hlog := published_of_pending (h.recorded.once idx pre post hlog)
  returned := h.returned

/-- A publication that was forgotten is not found, though nobody took it. -/
theorem forgotten_not_found :
    ¬ ∀ ops : List (Unit × Command),
      let w := World.run act ops (start Unit)
      (∀ j, (w.loc j).AtRest) → ∀ idx, idx < hintSlots → ∀ pre post,
        w.shared.log = pre ++ .published idx :: post → .taken idx ∉ post →
          member w.shared.words idx = true ∧ w.shared.summary.getLsbD (idx / 64) = true := by
  intro h
  have h₁ := h [((), .publish 5), ((), .takeNonempty), ((), .takeNonempty), ((), .forget 5),
    ((), .takeNonempty)] (fun _ => trivial) 5 (by decide) [] [.forgotten 5] rfl (by decide)
  revert h₁
  decide

end FreeSlotHint

end SeferAlloc
