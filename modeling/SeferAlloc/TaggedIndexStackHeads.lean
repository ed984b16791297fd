import SeferAlloc.TaggedIndexStackRuns

/-!
# Heads of the tagged index stack

The tag of a head grows with every push and stays with every pop, so that a head
that was replaced never comes back. At the last tag pushes are refused for ever,
and pops still return what the stack holds.
-/
namespace SeferAlloc
namespace IndexStack
open TaggedIndex Interleaving StackLog

variable {ι A B : Type*} [DecidableEq ι] [DecidableEq A] [DecidableEq B] {S : StackStorage A B}

/-- The index and the tag of the head of `b`. -/
def Shared.index (S : StackStorage A B) (x : Shared A B) (b : B) : ℕ :=
  ((S.layout b).unpack (x.head b)).1

def Shared.tag (S : StackStorage A B) (x : Shared A B) (b : B) : ℕ :=
  ((S.layout b).unpack (x.head b)).2

def Shared.pushesRemaining (S : StackStorage A B) (x : Shared A B) (b : B) : ℕ :=
  (S.layout b).pushesRemaining (x.head b)

/-- What the turn that decides an operation does to the heads. -/
def HeadEffect (S : StackStorage A B) (x x' : Shared A B) : StackEvent B ℕ → Prop
  | .push b i => x.tag S b < (S.layout b).tagMax ∧ x'.tag S b = x.tag S b + 1 ∧
      x'.index S b = i ∧ x'.pushesRemaining S b + 1 = x.pushesRemaining S b ∧
        ∀ c, c ≠ b → x'.head c = x.head c
  | .refuse b i => x.tag S b = (S.layout b).tagMax ∧ x'.head = x.head ∧ x'.link = x.link ∧
      x'.authority (S.backing b) i = .free
  | .pop b i => x.index S b = i ∧ x'.tag S b = x.tag S b ∧
      x'.pushesRemaining S b = x.pushesRemaining S b ∧ ∀ c, c ≠ b → x'.head c = x.head c
  | .empty b => x.index S b = (S.layout b).emptyIndex ∧ x'.head = x.head

variable {x x' : Shared A B}

/-- An effect leaves heads and log alone, or decides an operation. -/
lemma Effect.headEffect (h : Sound S x) (he : Effect S x x') :
    (x'.log = x.log ∧ x'.head = x.head) ∨
      ∃ e, x'.log = (x.clock, e) :: x.log ∧ HeadEffect S x x' e := by
  have h' := h.effect he
  cases he with
  | none | claim | store => exact .inl ⟨rfl, rfl⟩
  | refuse b i hown htag =>
      exact .inr ⟨.refuse b i, rfl, htag, rfl, rfl, Shared.set_self⟩
  | empty b hempty => exact .inr ⟨.empty b, rfl, hempty, rfl⟩
  | publish b i hi hown htag hlink =>
      have hle : x.tag S b ≤ (S.layout b).tagMax := by
        rw [Shared.tag, h.unpack_snd]
        exact h.legal.pushes_le b
      have hlt := Nat.lt_of_le_of_ne hle htag
      have hsnd : _ = x.tag S b + 1 := (h'.unpack_snd b).trans
        (pushes_push_self.trans (congrArg (· + 1) (h.unpack_snd b).symm))
      have hfst := h'.unpack_fst b
      refine .inr ⟨.push b i, rfl, hlt, hsnd, ?_, ?_, fun c hc => Function.update_of_ne hc _ _⟩
      · rw [Shared.index, hfst]
        exact congrArg (first · _) after_push_self
      · simp only [Shared.pushesRemaining, TaggedIndex.pushesRemaining]
        rw [hsnd]
        change _ + 1 = (S.layout b).tagMax - x.tag S b
        omega
  | take b hne =>
      have hsnd := (h'.unpack_snd b).trans (h.unpack_snd b).symm
      refine .inr ⟨.pop b _, rfl, rfl, hsnd, ?_, fun c hc => Function.update_of_ne hc _ _⟩
      simp only [Shared.pushesRemaining, TaggedIndex.pushesRemaining]
      rw [hsnd]

namespace Invariant
variable {w : World ι (Shared A B) (Thread B)} (h : Invariant S w)
include h

/-- An observed head stays present or past along every schedule. -/
lemma seen_run {b : B} {head : Word} (hs : Seen S w.shared b head)
    (xs : List (ι × Command B)) : Seen S (World.run (act S) xs w).shared b head := by
  have hinv := World.run_invariant
    (I := fun w : World ι (Shared A B) (Thread B) => Invariant S w ∧ Seen S w.shared b head)
    (fun w i c h =>
      have hs' := h.2.effect h.1.sound (h.1.effect i c)
      ⟨h.1.step i c, hs'⟩) xs ⟨h, hs⟩
  exact hinv.2

/-- A head that was replaced never comes back. -/
lemma head_ne_of_head_ne {b : B} {head : Word} {ys zs : List (ι × Command B)}
    (hs : Seen S w.shared b head) (hne : (World.run (act S) ys w).shared.head b ≠ head) :
    (World.run (act S) zs (World.run (act S) ys w)).shared.head b ≠ head := by
  have hpast := (h.seen_run hs ys).resolve_left hne
  have hrun := (h.run ys).run zs
  have hinv := World.run_invariant
    (I := fun w : World ι (Shared A B) (Thread B) => Invariant S w ∧ Past S w.shared.events b head)
    (fun w i c h =>
      have hp := h.2.effect (h.1.effect i c)
      ⟨h.1.step i c, hp⟩) zs ⟨h.run ys, hpast⟩
  exact hrun.sound.head_ne hinv.2

/-- The tag of a head does not fall. -/
lemma tag_le_step (b : B) (i : ι) (c : Command B) :
    w.shared.tag S b ≤ (w.step (act S) i c).shared.tag S b := by
  have h' := (h.step i c).sound.unpack_snd b
  rw [Shared.tag, Shared.tag, h', h.sound.unpack_snd]
  obtain ⟨-, hpushes, -⟩ | hpushes | ⟨-, hes⟩ := (h.effect i c).head_cases b
  · exact hpushes.ge
  · exact (Nat.le_succ _).trans hpushes.ge
  · exact (congrArg (pushes · b) hes).ge

/-- At the last tag every later operation that is decided leaves the tag, and no push of the
stack succeeds. -/
lemma sealed_run {b : B} (hmax : w.shared.tag S b = (S.layout b).tagMax)
    (xs : List (ι × Command B)) :
    (World.run (act S) xs w).shared.tag S b = (S.layout b).tagMax ∧
      ∃ es, (World.run (act S) xs w).shared.events = es ++ w.shared.events ∧
        ∀ i, .push b i ∉ es := by
  induction xs generalizing w with
  | nil => exact ⟨hmax, [], rfl, by simp⟩
  | cons a xs ih =>
      have h' := h.step a.1 a.2
      have hle := h.tag_le_step b a.1 a.2
      have hub : (w.step (act S) a.1 a.2).shared.tag S b ≤ (S.layout b).tagMax := by
        rw [Shared.tag, h'.sound.unpack_snd]
        exact h'.sound.legal.pushes_le b
      obtain ⟨htag, es, hes, hno⟩ := ih h' (by omega)
      refine ⟨htag, ?_⟩
      obtain ⟨hlog, -⟩ | ⟨e, hlog, he⟩ := (h.effect a.1 a.2).headEffect h.sound
      · exact ⟨es, hes.trans (congrArg (es ++ ·.map Prod.snd) hlog), hno⟩
      · refine ⟨es ++ [e], ?_, fun i hi => ?_⟩
        · have hev : (w.step (act S) a.1 a.2).shared.events = e :: w.shared.events :=
            congrArg (List.map Prod.snd) hlog
          rw [World.run, hes, hev, List.append_assoc, List.singleton_append]
        · obtain hi | hi := List.mem_append.mp hi
          · exact hno i hi
          · obtain rfl := List.mem_singleton.mp hi
            exact Nat.lt_irrefl _ (hmax ▸ he.1)

end Invariant

/-! ## A thread alone -/

section Alone
variable {w : World ι (Shared A B) (Thread B)} {i : ι} {b : B}

/-- Five turns of an idle thread pop the top. -/
lemma pop_alone (h : Invariant S w) (hidle : (w.loc i).loc = .idle) {j : ℕ} {rest : List ℕ}
    (hafter : after w.shared.events b = j :: rest) :
    let w' := World.run (act S) (List.replicate 5 (i, .pop b)) w
    (w'.loc i).loc = .idle ∧ w'.shared.events = .pop b j :: w.shared.events := by
  have hidx : ((S.layout b).unpack (w.shared.head b)).1 = j := by
    rw [h.sound.unpack_fst, hafter, first_cons]
  have hfull : ¬ (S.layout b).isEmpty (w.shared.head b) = true := by
    rw [TaggedIndex.isEmpty_iff, h.sound.empty_iff, hafter]
    exact List.cons_ne_nil _ _
  have hgood : ¬ popGuard (S.layout b) j (w.shared.link (S.backing b) j) := by
    rintro ⟨htail, hg⟩
    obtain htail' | ⟨hself, c, hc, hdom⟩ := h.sound.goodLink (b := b) (i := j) (by simp [hafter])
    · exact htail htail'
    · have := S.valid b c hc.symm _ hdom
      omega
  set w₁ := w.step (act S) i (.pop b) with hw₁
  have loc₁ : (w₁.loc i).loc = .popLoad b := by
    simp only [hw₁, World.step_loc_self, act, hidle, access, call]
  have shared₁ : w₁.shared = { w.shared with clock := w.shared.clock + 1 } := by
    simp only [hw₁, World.step, act, hidle, access, call]
  set w₂ := w₁.step (act S) i (.pop b) with hw₂
  have loc₂ : (w₂.loc i).loc = .popNext b (w.shared.head b) := by
    simp only [hw₂, World.step_loc_self, act, loc₁, access, shared₁, popSeen, if_neg hfull]
  have shared₂ : w₂.shared = { w.shared with clock := w.shared.clock + 2 } := by
    simp only [hw₂, World.step, act, loc₁, access, shared₁, popSeen, if_neg hfull]
  set w₃ := w₂.step (act S) i (.pop b) with hw₃
  have loc₃ : (w₃.loc i).loc =
      .popCas b (w.shared.head b) (w.shared.link (S.backing b) j) := by
    simp only [hw₃, World.step_loc_self, act, loc₂, access, shared₂, hidx, if_neg hgood]
  have shared₃ : w₃.shared = { w.shared with clock := w.shared.clock + 3 } := by
    simp only [hw₃, World.step, act, loc₂, access, shared₂, hidx, if_neg hgood]
  set w₄ := w₃.step (act S) i (.pop b) with hw₄
  have loc₄ : (w₄.loc i).loc = .respond (.pop b j) (w.shared.clock + 3) := by
    simp only [hw₄, World.step_loc_self, act, loc₃, access, shared₃, popStep, if_true, hidx]
  have events₄ : w₄.shared.events = .pop b j :: w.shared.events := by
    simp only [hw₄, World.step, act, loc₃, access, shared₃, popStep, if_true, hidx]
    rfl
  set w₅ := w₄.step (act S) i (.pop b) with hw₅
  refine ⟨?_, ?_⟩
  · change (w₅.loc i).loc = .idle
    simp only [hw₅, World.step_loc_self, act, loc₄, access]
  · change w₅.shared.events = _
    rw [← events₄]
    simp only [hw₅, World.step, act, loc₄, access]
    rfl

/-- A thread alone pops all that a stack holds, from the top. -/
lemma drain_alone (h : Invariant S w) (hidle : (w.loc i).loc = .idle) :
    let w' := World.run (act S)
      (List.replicate (5 * (after w.shared.events b).length) (i, .pop b)) w
    (w'.loc i).loc = .idle ∧ after w'.shared.events b = [] ∧
      w'.shared.events = ((after w.shared.events b).map (.pop b)).reverse ++ w.shared.events := by
  generalize hl : after w.shared.events b = l
  induction l generalizing w with
  | nil => exact ⟨hidle, hl, rfl⟩
  | cons j rest ih =>
      obtain ⟨hidle', hes⟩ := pop_alone h hidle hl
      have hrun := h.run (List.replicate 5 (i, .pop b))
      have hrest : after (World.run (act S) (List.replicate 5 (i, .pop b)) w).shared.events b =
          rest := by
        rw [hes, after_pop_self, hl, List.tail_cons]
      obtain ⟨h₁, h₂, h₃⟩ := ih hrun hidle' hrest
      rw [List.length_cons, Nat.mul_succ, Nat.add_comm, List.replicate_add, World.run_append]
      refine ⟨h₁, h₂, h₃.trans ?_⟩
      rw [hes, List.map_cons, List.reverse_cons, List.append_assoc, List.singleton_append]

end Alone

/-- Heads never come back, and sealing is safe. In every run, a turn that decides an operation
changes the heads as `HeadEffect` says and every other turn leaves them; a head that was replaced
never comes back; at the last tag no later push succeeds, and a thread alone pops all that is
left; and no pop reaches its panic. -/
theorem stack_heads (S : StackStorage A B) (link : A → ℕ → ℕ) (command : ι → Command B)
    (xs : List (ι × Command B)) :
    let w := World.run (act S) xs (start S link command)
    (∀ i c, let w' := w.step (act S) i c
      (w'.shared.log = w.shared.log ∧ w'.shared.head = w.shared.head) ∨
        ∃ e, w'.shared.log = (w.shared.clock, e) :: w.shared.log ∧
          HeadEffect S w.shared w'.shared e) ∧
      (∀ b ys zs, (World.run (act S) ys w).shared.head b ≠ w.shared.head b →
        (World.run (act S) zs (World.run (act S) ys w)).shared.head b ≠ w.shared.head b) ∧
      (∀ b ys, w.shared.tag S b = (S.layout b).tagMax →
        (World.run (act S) ys w).shared.tag S b = (S.layout b).tagMax ∧
          ∃ es, (World.run (act S) ys w).shared.events = es ++ w.shared.events ∧
            ∀ i, .push b i ∉ es) ∧
      (∀ b i, (w.loc i).loc = .idle →
        let w' := World.run (act S)
          (List.replicate (5 * (after w.shared.events b).length) (i, .pop b)) w
        after w'.shared.events b = [] ∧ w'.shared.events =
          ((after w.shared.events b).map (.pop b)).reverse ++ w.shared.events) ∧
      ∀ i, (w.loc i).loc ≠ .panicked := by
  intro w
  have h : Invariant S w := (Invariant.start link command).run xs
  refine ⟨fun i c => ?_, fun b ys zs hne => ?_, fun b ys hmax => ?_, fun b i hidle => ?_,
    fun i hpanic => ?_⟩
  · have he := (h.effect i c).headEffect h.sound
    exact he
  · exact h.head_ne_of_head_ne (.inl rfl) hne
  · exact h.sealed_run hmax ys
  · exact (drain_alone h hidle).2
  · have := h.assertion i
    rw [hpanic] at this
    exact this

end IndexStack
end SeferAlloc
