import SeferAlloc.TaggedIndexStack
import Mathlib.Data.List.Basic

/-!
# Steps of the tagged index stack

The log says what every binding holds; the head and the links show it. A head
that was replaced is past: its tag is below the present one, or its index has
left the stack since the last push. So a pop whose compare-exchange succeeds has
read the link of the present top, and a push or a pop changes what the head
reaches by one index at the top.
-/
namespace SeferAlloc
namespace IndexStack
open TaggedIndex Interleaving StackLog

variable {A B : Type*} [DecidableEq B]

/-- The operations so far, the latest first. -/
def Shared.events (x : Shared A B) : List (StackEvent B ℕ) := x.log.map (·.2)

/-- The first index of a chain, or `other`. -/
def first (l : List ℕ) (other : ℕ) : ℕ := l.head?.getD other

/-- Each link leads to the next index, and the last to `TAIL`. -/
def Chain (next : ℕ → ℕ) : List ℕ → Prop
  | [] => True
  | i :: l => next i = first l TAIL ∧ Chain next l

variable (S : StackStorage A B)

/-- A head was replaced: its tag is lower, or no push came since and its index has gone. -/
def Past (es : List (StackEvent B ℕ)) (b : B) (w : Word) : Prop :=
  ((S.layout b).unpack w).2 < pushes es b ∨
    ((S.layout b).unpack w).2 = pushes es b ∧
      ((S.layout b).unpack w).1 ≠ (S.layout b).emptyIndex ∧ ((S.layout b).unpack w).1 ∉ after es b

/-- A head that was observed is the present one or past. -/
def Seen (x : Shared A B) (b : B) (w : Word) : Prop := x.head b = w ∨ Past S x.events b w

/-- A link that passes the guard of `pop_index_impl`. -/
def GoodLink (b : B) (index next : ℕ) : Prop :=
  next = TAIL ∨ next ≠ index ∧ ∃ c, S.backing c = S.backing b ∧ next ∈ S.linkDomain c

/-- The heads and the cells show what the log says. -/
structure Sound (x : Shared A B) : Prop where
  legal : Legal (fun b => (S.layout b).tagMax) S.backing x.events
  head : ∀ b, x.head b = (S.layout b).packTruncating
    (first (after x.events b) (S.layout b).emptyIndex) (pushes x.events b)
  chain : ∀ b, Chain (x.link (S.backing b)) (after x.events b)
  domain : ∀ b, ∀ i ∈ after x.events b, i ∈ S.linkDomain b
  authority : ∀ b i, x.authority (S.backing b) i = .reachable b ↔ i ∈ after x.events b

/-- What a thread knows at its location. -/
def Assertion (x : Shared A B) : Loc B → Prop
  | .pushLoad b index => index ∈ S.linkDomain b
  | .pushStore b index head =>
      index ∈ S.linkDomain b ∧ ((S.layout b).unpack head).2 ≠ (S.layout b).tagMax ∧
        GoodLink S b index (nextLink (S.layout b) ((S.layout b).unpack head).1)
  | .pushCas b index head =>
      index ∈ S.linkDomain b ∧ ((S.layout b).unpack head).2 ≠ (S.layout b).tagMax ∧
        GoodLink S b index (nextLink (S.layout b) ((S.layout b).unpack head).1) ∧
          x.link (S.backing b) index = nextLink (S.layout b) ((S.layout b).unpack head).1
  | .popNext b head =>
      ((S.layout b).unpack head).1 ≠ (S.layout b).emptyIndex ∧
        GoodLink S b ((S.layout b).unpack head).1
          (x.link (S.backing b) ((S.layout b).unpack head).1) ∧ Seen S x b head
  | .popCas b head next =>
      ((S.layout b).unpack head).1 ≠ (S.layout b).emptyIndex ∧ Seen S x b head ∧
        (x.head b = head → x.link (S.backing b) ((S.layout b).unpack head).1 = next)
  | .panicked => False
  | _ => True

/-- The index whose authority a pushing thread has. -/
def hold : Loc B → Option ((A × ℕ) × Unit)
  | .pushLoad b index | .pushStore b index _ | .pushCas b index _ =>
      some ((S.backing b, index), ())
  | _ => none

/-- The indices under a push. -/
def view (x : Shared A B) (s : A × ℕ) : Option Unit :=
  if x.authority s.1 s.2 = .pushing then some () else none

/-! ## Tables -/

section Tables
variable [DecidableEq A] {V : Type*} {f : A → ℕ → V} {a a' : A} {i i' : ℕ} {v : V}

@[simp] lemma Shared.set_self : Shared.set f a i v a i = v := by
  rw [Shared.set, Function.update_self, Function.update_self]

lemma Shared.set_of_ne (h : (a', i') ≠ (a, i)) : Shared.set f a i v a' i' = f a' i' := by
  unfold Shared.set
  by_cases ha : a' = a
  · subst a'
    rw [Function.update_self, Function.update_of_ne fun hi => h (by rw [hi])]
  · rw [Function.update_of_ne ha]

/-- Setting an authority changes the view at that index. -/
lemma view_setAuthority (x : Shared A B) (a : A) (i : ℕ) (v : Authority B) :
    view (x.setAuthority a i v) =
      Function.update (view x) (a, i) (if v = .pushing then some () else none) := by
  funext s
  by_cases hs : s = (a, i)
  · subst s
    simp [view, Shared.setAuthority]
  · obtain ⟨a', i'⟩ := s
    rw [Function.update_of_ne hs]
    simp only [view, Shared.setAuthority, Shared.set_of_ne hs]

end Tables

/-! ## Chains -/

@[simp] lemma first_nil (other : ℕ) : first [] other = other := rfl

@[simp] lemma first_cons (i : ℕ) (l : List ℕ) (other : ℕ) : first (i :: l) other = i := rfl

/-- A chain does not depend on the links of other indices. -/
lemma Chain.congr {next next' : ℕ → ℕ} {l : List ℕ} (h : Chain next l)
    (heq : ∀ i ∈ l, next' i = next i) : Chain next' l := by
  induction l with
  | nil => trivial
  | cons i l ih =>
      refine ⟨(heq i List.mem_cons_self).trans h.1, ih h.2 fun j hj => ?_⟩
      exact heq j (List.mem_cons_of_mem _ hj)

namespace Sound
variable {S} {x : Shared A B} (h : Sound S x)
include h

lemma lt_mask {b : B} {i : ℕ} (hi : i ∈ after x.events b) : i < (S.layout b).indexMask :=
  S.valid b b rfl i (h.domain b i hi)

/-- The halves of a head: the top, and the number of pushes. -/
lemma unpack_head (b : B) : (S.layout b).unpack (x.head b) =
    (first (after x.events b) (S.layout b).emptyIndex, pushes x.events b) := by
  rw [h.head b]
  refine unpack_packTruncating _ ?_ (h.legal.pushes_le b)
  cases hl : after x.events b with
  | nil => exact Nat.le_refl _
  | cons i l => exact Nat.le_of_lt (h.lt_mask (b := b) (by simp [hl]))

lemma unpack_fst (b : B) : ((S.layout b).unpack (x.head b)).1 =
    first (after x.events b) (S.layout b).emptyIndex :=
  congrArg Prod.fst (h.unpack_head b)

lemma unpack_snd (b : B) : ((S.layout b).unpack (x.head b)).2 = pushes x.events b :=
  congrArg Prod.snd (h.unpack_head b)

/-- The head is empty exactly when the stack is. -/
lemma empty_iff (b : B) : ((S.layout b).unpack (x.head b)).1 = (S.layout b).emptyIndex ↔
    after x.events b = [] := by
  rw [h.unpack_fst]
  cases hl : after x.events b with
  | nil => simp
  | cons i l =>
      have hlt : i < _ := h.lt_mask (b := b) (by simp [hl])
      simp only [first_cons, emptyIndex, reduceCtorEq, iff_false]
      omega

/-- Under a head that is not empty is the stack. -/
lemma after_eq {b : B} (hne : ((S.layout b).unpack (x.head b)).1 ≠ (S.layout b).emptyIndex) :
    ∃ rest, after x.events b = ((S.layout b).unpack (x.head b)).1 :: rest := by
  cases hl : after x.events b with
  | nil => exact (hne ((h.empty_iff b).mpr hl)).elim
  | cons i l =>
      rw [h.unpack_fst, hl]
      exact ⟨l, rfl⟩

/-- The links of what a stack holds pass the guard. -/
lemma goodLink {b : B} {i : ℕ} (hi : i ∈ after x.events b) :
    GoodLink S b i (x.link (S.backing b) i) := by
  have hnd := h.legal.nodup b
  have hch := h.chain b
  have hdom := h.domain b
  revert hi hnd hch hdom
  generalize after x.events b = l
  intro hi hnd hch hdom
  induction l with
  | nil => simp at hi
  | cons j l ih =>
      obtain ⟨hj, hnd⟩ := List.nodup_cons.mp hnd
      obtain rfl | hi := List.mem_cons.mp hi
      · rw [GoodLink, hch.1]
        cases l with
        | nil => exact .inl rfl
        | cons k l =>
            refine .inr ⟨?_, b, rfl, hdom k (by simp)⟩
            rintro rfl
            exact hj (by simp)
      · exact ih hi hnd hch.2 fun k hk => hdom k (List.mem_cons_of_mem _ hk)

/-- A past head is not the present one. -/
lemma head_ne {b : B} {w : Word} (hp : Past S x.events b w) : x.head b ≠ w := by
  rintro rfl
  unfold Past at hp
  rw [h.unpack_snd] at hp
  obtain hp | ⟨-, hne, hno⟩ := hp
  · exact Nat.lt_irrefl _ hp
  · obtain ⟨rest, hrest⟩ := h.after_eq hne
    rw [hrest] at hno
    exact hno List.mem_cons_self

/-- No stack holds an index whose authority is elsewhere. -/
lemma not_mem {a : A} {i : ℕ} (hown : ∀ c, x.authority a i ≠ .reachable c) (c : B)
    (hc : S.backing c = a) : i ∉ after x.events c := by
  subst a
  intro hi
  exact hown c ((h.authority c i).mpr hi)

/-- A link to the observed top leads to the stack. -/
lemma nextLink_eq (b : B) : nextLink (S.layout b) ((S.layout b).unpack (x.head b)).1 =
    first (after x.events b) TAIL := by
  unfold nextLink
  split_ifs with he
  · rw [(h.empty_iff b).mp he, first_nil]
  · obtain ⟨rest, hrest⟩ := h.after_eq he
    rw [hrest, first_cons]

end Sound

/-! ## Effects -/

variable [DecidableEq A]

/-- What an access may do to the shared state. -/
inductive Effect (x : Shared A B) : Shared A B → Prop
  | none : Effect x x
  | claim (b : B) (i : ℕ) (hfree : x.authority (S.backing b) i = .free) :
      Effect x (x.setAuthority (S.backing b) i .pushing)
  | refuse (b : B) (i : ℕ) (hown : x.authority (S.backing b) i = .pushing)
      (htag : ((S.layout b).unpack (x.head b)).2 = (S.layout b).tagMax) :
      Effect x ((x.setAuthority (S.backing b) i .free).decide (.refuse b i))
  | store (b : B) (i next : ℕ) (hown : x.authority (S.backing b) i = .pushing)
      (hgood : GoodLink S b i next) : Effect x (x.storeNext (S.backing b) i next)
  | publish (b : B) (i : ℕ) (hi : i ∈ S.linkDomain b)
      (hown : x.authority (S.backing b) i = .pushing)
      (htag : ((S.layout b).unpack (x.head b)).2 ≠ (S.layout b).tagMax)
      (hlink : x.link (S.backing b) i =
        nextLink (S.layout b) ((S.layout b).unpack (x.head b)).1) :
      Effect x (((x.setHead b ((S.layout b).packTruncating i
        (((S.layout b).unpack (x.head b)).2 + 1))).setAuthority (S.backing b) i
          (.reachable b)).decide (.push b i))
  | empty (b : B) (he : ((S.layout b).unpack (x.head b)).1 = (S.layout b).emptyIndex) :
      Effect x (x.decide (.empty b))
  | take (b : B) (hne : ((S.layout b).unpack (x.head b)).1 ≠ (S.layout b).emptyIndex) :
      Effect x (((x.setHead b (newHead (S.layout b) (x.head b)
        (x.link (S.backing b) ((S.layout b).unpack (x.head b)).1))).setAuthority (S.backing b)
          ((S.layout b).unpack (x.head b)).1 .free).decide
            (.pop b ((S.layout b).unpack (x.head b)).1))

namespace Sound
variable {S} {x x' : Shared A B} (h : Sound S x)
include h

/-- Authorities of indices that no stack holds are free to move. -/
lemma authority_set {a : A} {i : ℕ} {v : Authority B}
    (hown : ∀ c, x.authority a i ≠ .reachable c) (hv : ∀ c, v ≠ .reachable c) (b : B) (j : ℕ) :
    Shared.set x.authority a i v (S.backing b) j = .reachable b ↔ j ∈ after x.events b := by
  by_cases hs : (S.backing b, j) = (a, i)
  · obtain ⟨rfl, rfl⟩ := Prod.mk.inj hs
    rw [Shared.set_self]
    exact iff_of_false (hv b) (h.not_mem hown b rfl)
  · rw [Shared.set_of_ne hs]
    exact h.authority b j

lemma publish {b : B} {i : ℕ} (hi : i ∈ S.linkDomain b)
    (hown : x.authority (S.backing b) i = .pushing)
    (htag : ((S.layout b).unpack (x.head b)).2 ≠ (S.layout b).tagMax)
    (hlink : x.link (S.backing b) i = nextLink (S.layout b) ((S.layout b).unpack (x.head b)).1) :
    Sound S (((x.setHead b ((S.layout b).packTruncating i
      (((S.layout b).unpack (x.head b)).2 + 1))).setAuthority (S.backing b) i
        (.reachable b)).decide (.push b i)) := by
  have hno := h.not_mem (a := S.backing b) (i := i) (by simp [hown])
  rw [h.unpack_snd] at htag ⊢
  rw [h.nextLink_eq] at hlink
  refine ⟨⟨h.legal, ?_, hno⟩, fun c => ?_, fun c => ?_, fun c j hj => ?_, fun c j => ?_⟩
  · exact Nat.lt_of_le_of_ne (h.legal.pushes_le b) htag
  · change Function.update x.head b _ c = (S.layout c).packTruncating
      (first (after (.push b i :: x.events) c) _) (pushes (.push b i :: x.events) c)
    by_cases hc : c = b
    · subst c
      rw [Function.update_self, after_push_self, pushes_push_self, first_cons]
    · rw [Function.update_of_ne hc, after_push_of_ne (Ne.symm hc), pushes_push_of_ne (Ne.symm hc)]
      exact h.head c
  · change Chain (x.link (S.backing c)) (after (.push b i :: x.events) c)
    by_cases hc : c = b
    · subst c
      rw [after_push_self]
      exact ⟨hlink, h.chain b⟩
    · rw [after_push_of_ne (Ne.symm hc)]
      exact h.chain c
  · obtain ⟨rfl, rfl⟩ | hj := mem_after_push hj
    · exact hi
    · exact h.domain c j hj
  · change Shared.set x.authority (S.backing b) i (.reachable b) (S.backing c) j = _ ↔
      j ∈ after (.push b i :: x.events) c
    by_cases hs : (S.backing c, j) = (S.backing b, i)
    · obtain ⟨hc, rfl⟩ := Prod.mk.inj hs
      rw [hc, Shared.set_self, Authority.reachable.injEq]
      refine ⟨?_, fun hj => ?_⟩
      · rintro rfl
        simp
      · obtain ⟨rfl, -⟩ | hj := mem_after_push hj
        · rfl
        · exact (hno c hc hj).elim
    · rw [Shared.set_of_ne hs, h.authority c j]
      by_cases hc : b = c
      · subst c
        have hji : j ≠ i := by
          rintro rfl
          exact hs rfl
        simp [hji]
      · rw [after_push_of_ne hc]

lemma take {b : B} (hne : ((S.layout b).unpack (x.head b)).1 ≠ (S.layout b).emptyIndex) :
    Sound S (((x.setHead b (newHead (S.layout b) (x.head b)
      (x.link (S.backing b) ((S.layout b).unpack (x.head b)).1))).setAuthority (S.backing b)
        ((S.layout b).unpack (x.head b)).1 .free).decide
          (.pop b ((S.layout b).unpack (x.head b)).1)) := by
  obtain ⟨rest, hrest⟩ := h.after_eq hne
  set i := ((S.layout b).unpack (x.head b)).1 with hidx
  have hlegal : Legal (fun b => (S.layout b).tagMax) S.backing (.pop b i :: x.events) :=
    ⟨h.legal, by rw [hrest]; rfl⟩
  have htail : after (.pop b i :: x.events) b = rest := by
    rw [after_pop_self, hrest, List.tail_cons]
  have hch := h.chain b
  rw [hrest] at hch
  refine ⟨hlegal, fun c => ?_, fun c => ?_, fun c j hj => ?_, fun c j => ?_⟩
  · change Function.update x.head b _ c = (S.layout c).packTruncating
      (first (after (.pop b i :: x.events) c) _) (pushes x.events c)
    by_cases hc : c = b
    · subst c
      rw [Function.update_self, htail, hch.1, newHead, h.unpack_snd]
      cases rest with
      | nil => rw [first_nil, if_pos rfl, first_nil]
      | cons k rest =>
          have hk : k < (S.layout b).indexMask := h.lt_mask (b := b) (by simp [hrest])
          have := (S.layout b).indexMask_lt_TAIL
          rw [first_cons, if_neg (by omega), first_cons]
    · rw [Function.update_of_ne hc, after_pop_of_ne (Ne.symm hc)]
      exact h.head c
  · change Chain (x.link (S.backing c)) (after (.pop b i :: x.events) c)
    by_cases hc : c = b
    · subst c
      rw [htail]
      exact hch.2
    · rw [after_pop_of_ne (Ne.symm hc)]
      exact h.chain c
  · exact h.domain c j (mem_after_pop hj)
  · change Shared.set x.authority (S.backing b) i .free (S.backing c) j = _ ↔
      j ∈ after (.pop b i :: x.events) c
    by_cases hs : (S.backing c, j) = (S.backing b, i)
    · obtain ⟨hc, rfl⟩ := Prod.mk.inj hs
      rw [hc, Shared.set_self]
      exact iff_of_false (by simp) (hlegal.not_mem_of_pop hc)
    · rw [Shared.set_of_ne hs, h.authority c j]
      by_cases hc : b = c
      · subst c
        have hji : j ≠ i := by
          rintro rfl
          exact hs rfl
        rw [htail, hrest]
        simp [hji]
      · rw [after_pop_of_ne hc]

/-- Every effect keeps the heads and the cells in step with the log. -/
theorem effect (he : Effect S x x') : Sound S x' := by
  cases he with
  | none => exact h
  | claim b i hfree =>
      exact ⟨h.legal, h.head, h.chain, h.domain,
        h.authority_set (by simp [hfree]) (by simp)⟩
  | refuse b i hown htag =>
      rw [h.unpack_snd] at htag
      exact ⟨⟨h.legal, htag⟩, h.head, h.chain, h.domain,
        h.authority_set (by simp [hown]) (by simp)⟩
  | store b i next hown hgood =>
      refine ⟨h.legal, h.head, fun c => (h.chain c).congr fun j hj => ?_, h.domain, h.authority⟩
      refine Shared.set_of_ne fun hs => ?_
      obtain ⟨hc, rfl⟩ := Prod.mk.inj hs
      exact h.not_mem (by simp [hown]) c hc hj
  | publish b i hi hown htag hlink => exact h.publish hi hown htag hlink
  | empty b hempty =>
      exact ⟨⟨h.legal, (h.empty_iff b).mp hempty⟩, h.head, h.chain, h.domain, h.authority⟩
  | take b hne => exact h.take hne

end Sound

/-! ## Observed heads -/

section Observed
variable {S} {x x' : Shared A B} {b : B} {w : Word}

/-- What an effect does to a binding: nothing, a push under the next tag, or a pop. -/
lemma Effect.head_cases (he : Effect S x x') (b : B) :
    (x'.head b = x.head b ∧ pushes x'.events b = pushes x.events b ∧
        after x'.events b = after x.events b) ∨
      pushes x'.events b = pushes x.events b + 1 ∨
      ((S.layout b).unpack (x.head b)).1 ≠ (S.layout b).emptyIndex ∧
        x'.events = .pop b ((S.layout b).unpack (x.head b)).1 :: x.events := by
  cases he with
  | none | claim | store | refuse | empty => exact .inl ⟨rfl, rfl, rfl⟩
  | publish c i =>
      by_cases hc : c = b
      · subst c
        exact .inr (.inl pushes_push_self)
      · exact .inl ⟨Function.update_of_ne (Ne.symm hc) _ _, pushes_push_of_ne hc,
          after_push_of_ne hc⟩
  | take c hne =>
      by_cases hc : c = b
      · subst c
        exact .inr (.inr ⟨hne, rfl⟩)
      · exact .inl ⟨Function.update_of_ne (Ne.symm hc) _ _, rfl, after_pop_of_ne hc⟩

/-- A past head stays past. -/
lemma Past.effect (he : Effect S x x') (hp : Past S x.events b w) : Past S x'.events b w := by
  obtain ⟨-, hpushes, hafter⟩ | hpushes | ⟨-, hes⟩ := he.head_cases b
  · unfold Past
    rwa [hpushes, hafter]
  · left
    obtain hp | ⟨hp, -⟩ := hp <;> omega
  · rw [hes]
    exact hp.imp id (And.imp id (And.imp id fun hno hmem => hno (mem_after_pop hmem)))

/-- The present head is past as soon as it is replaced. -/
lemma Sound.past_of_head_ne (h : Sound S x) (he : Effect S x x') (hne : x'.head b ≠ x.head b) :
    Past S x'.events b (x.head b) := by
  obtain ⟨hhead, -⟩ | hpushes | ⟨hidx, hes⟩ := he.head_cases b
  · exact (hne hhead).elim
  · left
    rw [h.unpack_snd, hpushes]
    omega
  · right
    have hlegal := (h.effect he).legal
    rw [hes] at hlegal ⊢
    exact ⟨h.unpack_snd b, hidx, hlegal.not_mem_of_pop rfl⟩

/-- An observed head stays the present one or past. -/
lemma Seen.effect (h : Sound S x) (he : Effect S x x') (hs : Seen S x b w) : Seen S x' b w := by
  obtain rfl | hp := hs
  · by_cases hne : x'.head b = x.head b
    · exact .inl hne
    · exact .inr (h.past_of_head_ne he hne)
  · exact .inr (hp.effect he)

end Observed

/-! ## Accesses -/

section Accesses
variable {S} {x x' : Shared A B} (h : Sound S x)
include h

/-- A push that observes the head is refused, or is to link its index to the top. -/
lemma pushSeen_spec {b : B} {i : ℕ} (hi : i ∈ S.linkDomain b)
    (hown : x.authority (S.backing b) i = .pushing) :
    Effect S x (pushSeen S x b i (x.head b)).1 ∧
      Assertion S (pushSeen S x b i (x.head b)).1 (pushSeen S x b i (x.head b)).2 := by
  unfold pushSeen
  split_ifs with htag
  · exact ⟨.refuse b i hown htag, trivial⟩
  · refine ⟨.none, hi, htag, ?_⟩
    have hno := h.not_mem (a := S.backing b) (i := i) (by simp [hown]) b rfl
    rw [h.nextLink_eq]
    cases hl : after x.events b with
    | nil => exact .inl rfl
    | cons k l =>
        refine .inr ⟨?_, b, rfl, h.domain b k (by simp [hl])⟩
        rintro rfl
        exact hno (by simp [hl])

/-- A pop that observes the head is over, or is to read the link of the top. -/
lemma popSeen_spec (b : B) : Effect S x (popSeen S x b (x.head b)).1 ∧
    Assertion S (popSeen S x b (x.head b)).1 (popSeen S x b (x.head b)).2 := by
  unfold popSeen
  split_ifs with he
  · exact ⟨.empty b ((isEmpty_iff _ _).mp he), trivial⟩
  · have hne := fun h => he ((isEmpty_iff _ _).mpr h)
    obtain ⟨rest, hrest⟩ := h.after_eq hne
    exact ⟨.none, hne, h.goodLink (by simp [hrest]), .inl rfl⟩

/-- An access has one of the effects, and its thread knows what its new location asserts. -/
theorem access_spec (c : Command B) {l : Loc B} (ha : Assertion S x l)
    (hown : ∀ s, hold S l = some (s, ()) → x.authority s.1 s.2 = .pushing) :
    Effect S x (access S c x l).1 ∧ Assertion S (access S c x l).1 (access S c x l).2 := by
  cases l with
  | idle =>
      cases c with
      | push b i =>
          simp only [access, call]
          split_ifs with hc hmask
          · have := S.valid b b rfl i hc.1
            omega
          · exact ⟨.claim b i hc.2, hc.1⟩
          · exact ⟨.none, trivial⟩
      | pop b => exact ⟨.none, trivial⟩
  | pushLoad b i => exact pushSeen_spec h ha (hown _ rfl)
  | pushStore b i head =>
      exact ⟨.store b i _ (hown _ rfl) ha.2.2, ha.1, ha.2.1, ha.2.2, Shared.set_self⟩
  | pushCas b i head =>
      simp only [access, pushStep]
      split_ifs with hhead
      · subst head
        exact ⟨.publish b i ha.1 (hown _ rfl) ha.2.1 ha.2.2.2, trivial⟩
      · exact pushSeen_spec h ha.1 (hown _ rfl)
  | popLoad b => exact popSeen_spec h b
  | popNext b head =>
      obtain ⟨hne, hgood, hseen⟩ := ha
      simp only [access]
      split_ifs with hg
      · obtain ⟨htail, hg⟩ := hg
        obtain htail' | ⟨hself, c, hc, hdom⟩ := hgood
        · exact (htail htail').elim
        · have := S.valid b c hc.symm _ hdom
          omega
      · exact ⟨.none, hne, hseen, fun _ => rfl⟩
  | popCas b head next =>
      simp only [access, popStep]
      split_ifs with hhead
      · obtain ⟨hne, -, hnext⟩ := ha
        obtain rfl := hnext hhead
        subst head
        exact ⟨.take b hne, trivial⟩
      · exact popSeen_spec h b
  | respond e p => exact ⟨.none, trivial⟩
  | panicked => exact ha.elim

omit h in
/-- An access writes no link but that of the index the thread pushes. -/
lemma access_link (c : Command B) (x : Shared A B) (l : Loc B) {s : A × ℕ}
    (hs : hold S l ≠ some (s, ())) : (access S c x l).1.link s.1 s.2 = x.link s.1 s.2 := by
  cases l with
  | idle =>
      cases c with
      | push b i =>
          simp only [access, call]
          split_ifs <;> rfl
      | pop b => rfl
  | pushStore b i head =>
      exact Shared.set_of_ne fun heq => hs (congrArg (fun s => some (s, ())) heq.symm)
  | pushLoad b i =>
      simp only [access, pushSeen]
      split_ifs <;> rfl
  | pushCas b i head =>
      simp only [access, pushStep, pushSeen]
      split_ifs <;> rfl
  | popLoad b =>
      simp only [access, popSeen]
      split_ifs <;> rfl
  | popNext b head =>
      simp only [access]
      split_ifs <;> rfl
  | popCas b head next =>
      simp only [access, popStep, popSeen]
      split_ifs <;> rfl
  | respond e p | panicked => rfl

/-- What a thread knows survives the effects of the others. -/
theorem Assertion.effect (he : Effect S x x') {l : Loc B} (ha : Assertion S x l)
    (hlink : ∀ s, hold S l = some (s, ()) → x'.link s.1 s.2 = x.link s.1 s.2) :
    Assertion S x' l := by
  cases l with
  | pushCas b i head => exact ⟨ha.1, ha.2.1, ha.2.2.1, (hlink _ rfl).trans ha.2.2.2⟩
  | popNext b head =>
      obtain ⟨hne, hgood, hseen⟩ := ha
      refine ⟨hne, ?_, hseen.effect h he⟩
      cases he with
      | none | claim | refuse | publish | empty | take => exact hgood
      | store c j next hown hnext =>
          by_cases hs : (S.backing b, ((S.layout b).unpack head).1) = (S.backing c, j)
          · obtain ⟨hbc, hj⟩ := Prod.mk.inj hs
            simp only [Shared.storeNext, hbc, hj, Shared.set_self]
            rw [GoodLink, hbc]
            exact hnext
          · simp only [Shared.storeNext, Shared.set_of_ne hs]
            exact hgood
  | popCas b head next =>
      obtain ⟨hne, hseen, hnext⟩ := ha
      refine ⟨hne, hseen.effect h he, fun hhead => ?_⟩
      obtain hnow | hpast := hseen
      · rw [← hnext hnow]
        cases he with
        | none | claim | refuse | publish | empty | take => rfl
        | store c j next hown hnext =>
            refine Shared.set_of_ne fun hs => ?_
            obtain ⟨hbc, hj⟩ := Prod.mk.inj hs
            subst head
            obtain ⟨rest, hrest⟩ := h.after_eq hne
            rw [← hbc, ← hj, (h.authority b _).mpr (by simp [hrest])] at hown
            cases hown
      · exact ((h.effect he).head_ne (hpast.effect he) hhead).elim
  | idle | pushLoad b i | pushStore b i head | popLoad b | respond e p | panicked => exact ha

end Accesses

end IndexStack
end SeferAlloc
