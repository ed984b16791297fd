import SeferAlloc.SidecarBitmap

/-!
# Remote frees are consumed exactly once

A granule is in the bitmap or in the owner's unfinished cut exactly while its
block is `returned`, so the publications and the pops of a granule under a
class differ by at most the one that is still there.
-/
namespace SeferAlloc
namespace Sidecar
open BitWord Interleaving

/-- The granule a thread is about to publish. -/
def hold : Loc → Option (ℕ × Unit)
  | .publishing g => some (g, ())
  | _ => none

def publishingNow (r : Shared) (g : ℕ) : Option Unit :=
  if r.holder g = .publishing then some () else none

/-- The granule is in the cut the owner is working through. -/
def inHand : Loc → ℕ → Bool
  | .popping _ c, g => decide (c.word = g / 64) && c.bits.getLsbD (g % 64)
  | _, _ => false

/-- The location of a thread that only frees. -/
def Loc.IsProducer : Loc → Prop
  | .outside | .publishing _ => True
  | _ => False

/-- The location of the owner, with a scan that stays inside the bitmap. -/
def Loc.IsOwner : Loc → Prop
  | .owner => True
  | .scanning s | .popping s _ => s.nextWord ≤ s.endWord ∧ s.endWord ≤ words
  | .cutLoad s w | .cutSwap s w => s.nextWord ≤ s.endWord ∧ s.endWord ≤ words ∧ w < words
  | _ => False

/-- The shared state fits the owner's location. -/
structure Sound (bd : Build) (r : Shared) (lo : Loc) : Prop where
  returned : ∀ g, r.holder g = .returned ↔
    member r.bitmap.pending g = true ∨ inHand lo g = true
  disjoint : ∀ g, member r.bitmap.pending g = true → inHand lo g = false
  encoded : ∀ g, r.bitmap.encoded g = (r.issued g).elim 0 (· + 1)
  classes : ∀ g c, r.issued g = some c → c < bd.smallClassCount
  issued : ∀ g, r.holder g ≠ .owner → ∃ c, r.issued g = some c
  counts : ∀ g c, r.published.count (g, c) = r.popped.count ⟨g * minBlock, c⟩ +
    if r.holder g = .returned ∧ r.issued g = some c then 1 else 0
  offsets : ∀ x ∈ r.popped, ∃ g, x.offset = g * minBlock

variable {bd : Build} {r : Shared} {lo : Loc}

/-- A block passes between the owner, the user and a publishing thread. -/
lemma Sound.pass (h : Sound bd r lo) {g : ℕ} {x : Holder} (h0 : r.holder g ≠ .returned)
    (hx : x ≠ .returned) (hi : x ≠ .owner → ∃ c, r.issued g = some c) :
    Sound bd { r with holder := Function.update r.holder g x } lo := by
  have hret : ∀ y, Function.update r.holder g x y = .returned ↔ r.holder y = .returned := by
    intro y
    by_cases hy : y = g
    · subst y; simp [h0, hx]
    · simp [hy]
  refine ⟨fun y => (hret y).trans (h.returned y), h.disjoint, h.encoded, h.classes, fun y hy => ?_,
    fun y c => ?_, h.offsets⟩
  · by_cases hyg : y = g
    · subst y
      exact hi (by simpa using hy)
    · exact h.issued y (by simpa [hyg] using hy)
  · simp only [hret]
    exact h.counts y c

/-- The `fetch_or` of a publication. -/
lemma Sound.publish (h : Sound bd r lo) {g : ℕ} (hg : r.holder g = .publishing) :
    Sound bd { r with
      bitmap := r.bitmap.setPending g
      holder := Function.update r.holder g .returned
      published := (g, (r.issued g).getD 0) :: r.published } lo := by
  have hmem : ∀ y, member (r.bitmap.setPending g).pending y =
      (decide (y = g) || member r.bitmap.pending y) := member_set _ _
  have h0 : ¬(member r.bitmap.pending g = true ∨ inHand lo g = true) := by
    rw [← h.returned, hg]
    simp
  push Not at h0
  obtain ⟨c₀, hc₀⟩ := h.issued g (by simp [hg])
  refine ⟨fun y => ?_, fun y hy => ?_, h.encoded, h.classes, fun y hy => ?_, fun y c => ?_,
    h.offsets⟩
  · rw [hmem]
    by_cases hyg : y = g
    · subst y; simp
    · simpa [hyg] using h.returned y
  · rw [hmem] at hy
    by_cases hyg : y = g
    · subst y
      simpa using h0.2
    · exact h.disjoint y (by simpa [hyg] using hy)
  · by_cases hyg : y = g
    · subst y
      exact ⟨c₀, hc₀⟩
    · exact h.issued y (by simpa [hyg] using hy)
  · have hcount := h.counts y c
    simp only [hc₀, Option.getD_some, List.count_cons, beq_iff_eq, Prod.mk.injEq]
    by_cases hyg : y = g
    · subst y
      simp only [hg, reduceCtorEq, false_and, if_false, Nat.add_zero] at hcount
      simp [hcount, hc₀]
    · simp only [Ne.symm hyg, false_and, if_false, Nat.add_zero, Function.update_of_ne hyg]
      exact hcount

lemma Bitmap.prepare_spec (bd : Build) (b : Bitmap) (offset cls : ℕ) (ok : Bool) :
    (b.prepare bd offset cls ok).1.pending = b.pending ∧
    (∀ g, (b.prepare bd offset cls ok).1.encoded g = b.encoded g) ∧
    ∀ g, granule offset = some g → (b.prepare bd offset cls ok).2 = true →
      cls < bd.smallClassCount ∧
      (b.prepare bd offset cls ok).1.mixed (g / leafGranules) = true := by
  rw [Bitmap.prepare]
  cases hg : granule offset with
  | none => simp
  | some g =>
      simp only [Option.some.injEq]
      split_ifs with hc hm hok
      · simp
      · exact ⟨rfl, fun _ => rfl, fun _ hx _ => ⟨not_le.mp hc, hx ▸ hm⟩⟩
      · refine ⟨rfl, fun x => ?_, fun _ hx _ => ⟨not_le.mp hc, by simp [hx]⟩⟩
        simp only [Bitmap.encoded]
        by_cases hx : x / leafGranules = g / leafGranules
        · simp [hx, hm]
        · simp [hx]
      · simp

lemma Bitmap.issue_spec (bd : Build) (b : Bitmap) (offset cls : ℕ) (ok : Bool) :
    (b.issue bd offset cls ok).1.pending = b.pending ∧
    ((b.issue bd offset cls ok).2 = false →
      ∀ g, (b.issue bd offset cls ok).1.encoded g = b.encoded g) ∧
    ∀ g, granule offset = some g → (b.issue bd offset cls ok).2 = true →
      cls < bd.smallClassCount ∧ ∀ x, (b.issue bd offset cls ok).1.encoded x =
        if x = g then cls + 1 else b.encoded x := by
  obtain ⟨hp, he, hs⟩ := Bitmap.prepare_spec bd b offset cls ok
  rw [Bitmap.issue]
  generalize b.prepare bd offset cls ok = prepared at hp he hs
  obtain ⟨b', done⟩ := prepared
  simp only at hp he hs
  cases hg : granule offset with
  | none => cases done <;> exact ⟨hp, fun _ => he, by simp⟩
  | some g =>
      cases done with
      | false => exact ⟨hp, fun _ => he, by simp⟩
      | true =>
          obtain ⟨hc, hm⟩ := hs g hg rfl
          refine ⟨hp, by simp, fun x hx _ => ⟨hc, fun y => ?_⟩⟩
          obtain rfl := Option.some.inj hx
          by_cases hy : y = g
          · subst y
            simp [Bitmap.encoded, hm]
          · rw [if_neg hy, ← he y]
            simp [Bitmap.encoded, Function.update_of_ne hy]

/-- The owner changes the bitmap without touching pending bits or class bytes. -/
lemma Sound.bitmap (h : Sound bd r lo) {b : Bitmap} (hp : b.pending = r.bitmap.pending)
    (he : ∀ g, b.encoded g = r.bitmap.encoded g) : Sound bd { r with bitmap := b } lo := by
  refine ⟨fun g => ?_, fun g => ?_, fun g => ?_, h.classes, h.issued, h.counts, h.offsets⟩
  · simp only [hp]
    exact h.returned g
  · simp only [hp]
    exact h.disjoint g
  · simp only [he]
    exact h.encoded g

/-- The owner hands a block to the user under a class. -/
lemma Sound.issue (h : Sound bd r lo) {b : Bitmap} {g cls : ℕ} (hp : b.pending = r.bitmap.pending)
    (he : ∀ x, b.encoded x = if x = g then cls + 1 else r.bitmap.encoded x)
    (hc : cls < bd.smallClassCount) (hg : r.holder g = .owner) :
    Sound bd { r with
      bitmap := b
      holder := Function.update r.holder g .user
      issued := Function.update r.issued g (some cls) } lo := by
  refine ⟨fun y => ?_, fun y => ?_, fun y => ?_, fun y c hy => ?_, fun y hy => ?_, fun y c => ?_,
    h.offsets⟩
  · simp only [hp]
    rw [← h.returned]
    by_cases hyg : y = g
    · subst y; simp [hg]
    · simp [hyg]
  · simp only [hp]
    exact h.disjoint y
  · simp only [he]
    by_cases hyg : y = g
    · subst y; simp
    · simpa [hyg] using h.encoded y
  · by_cases hyg : y = g
    · subst y
      obtain rfl : cls = c := by simpa using hy
      exact hc
    · exact h.classes y c (by simpa [hyg] using hy)
  · by_cases hyg : y = g
    · subst y
      exact ⟨cls, by simp⟩
    · simpa [hyg] using h.issued y (by simpa [hyg] using hy)
  · have hcount := h.counts y c
    by_cases hyg : y = g
    · subst y
      simpa [hg] using hcount
    · simpa [hyg] using hcount

/-- Swapping a word out moves its bits from the bitmap into the owner's hand. -/
lemma Sound.cut {s s' : Scan} {w : ℕ} (h : Sound bd r (.cutSwap s w)) :
    Sound bd { r with bitmap := r.bitmap.clearWord w } (.popping s' ⟨w, r.bitmap.pending w⟩) := by
  have hhand : ∀ g, inHand (.popping s' ⟨w, r.bitmap.pending w⟩) g =
      (decide (g / 64 = w) && member r.bitmap.pending g) := by
    intro g
    by_cases hw : g / 64 = w
    · subst w; simp [inHand, member]
    · simp [inHand, hw, Ne.symm hw]
  refine ⟨fun g => ?_, fun g hg => ?_, h.encoded, h.classes, h.issued, h.counts, h.offsets⟩
  · rw [h.returned, member_clearWord, hhand]
    by_cases hw : g / 64 = w <;> simp [hw, inHand]
  · rw [member_clearWord] at hg
    rw [hhand]
    by_cases hw : g / 64 = w <;> simp_all

/-- Popping the least bit of the cut: the class is the issued one, and the block goes back
to the owner. -/
lemma Sound.pop {s : Scan} {c : Cut} (h : Sound bd r (.popping s c)) (h0 : c.bits ≠ 0) :
    ∃ g cls c', c.pop bd r.bitmap = some (some (⟨g * minBlock, cls⟩, c')) ∧
      r.holder g = .returned ∧ Sound bd { r with
        holder := Function.update r.holder (g * minBlock / minBlock) .owner
        popped := ⟨g * minBlock, cls⟩ :: r.popped } (.popping s c') := by
  set b := trailingZeros c.bits with hb
  set g := c.word * 64 + b with hg
  have hb64 : b < 64 := trailingZeros_lt h0
  have hword : g / 64 = c.word := by omega
  have hbit : g % 64 = b := by omega
  have hhand : inHand (.popping s c) g = true := by
    simp [inHand, hword, hbit, getLsbD_trailingZeros h0, hb]
  have hret := (h.returned g).mpr (.inr hhand)
  obtain ⟨cls, hcls⟩ := h.issued g (by simp [hret])
  have henc : r.bitmap.encoded g = cls + 1 := by rw [h.encoded, hcls]; rfl
  have hlt := h.classes g cls hcls
  have hhand' : ∀ y, inHand (.popping s { c with bits := c.bits &&& (c.bits - 1) }) y =
      (!decide (y = g) && inHand (.popping s c) y) := by
    intro y
    simp only [inHand, clear_lowest h0, getLsbD_clear_bit]
    by_cases hy : y = g
    · subst y
      simp [hword, hbit, hb]
    · by_cases hw : c.word = y / 64
      · have : y % 64 ≠ trailingZeros c.bits := by omega
        simp [hy, hw, this]
      · simp [hw]
  refine ⟨g, cls, { c with bits := c.bits &&& (c.bits - 1) }, ?_, hret, ?_⟩
  · have hnot : ¬(r.bitmap.encoded g = 0 ∨ bd.smallClassCount < r.bitmap.encoded g) := by omega
    rw [Cut.pop, if_neg h0]
    simp only [← hb, ← hg]
    rw [if_neg hnot, henc, Nat.add_sub_cancel]
  · rw [Nat.mul_div_cancel _ (show 0 < minBlock by decide)]
    have hmem : member r.bitmap.pending g = false := by
      by_contra hm
      have := h.disjoint g (by simpa using hm)
      rw [hhand] at this
      contradiction
    refine ⟨fun y => ?_, fun y hy => ?_, h.encoded, h.classes, fun y hy => ?_, fun y x => ?_,
      fun x hx => ?_⟩
    · rw [hhand']
      by_cases hyg : y = g
      · subst y; simp [hmem]
      · simpa [hyg] using h.returned y
    · rw [hhand', h.disjoint y hy, Bool.and_false]
    · by_cases hyg : y = g
      · subst y
        simp at hy
      · exact h.issued y (by simpa [hyg] using hy)
    · have hcount := h.counts y x
      have hrec : (⟨g * minBlock, cls⟩ : Record) = ⟨y * minBlock, x⟩ ↔ g = y ∧ cls = x := by
        rw [Record.mk.injEq, Nat.mul_left_inj (by decide)]
      simp only [List.count_cons, beq_iff_eq, hrec]
      by_cases hyg : y = g
      · subst y
        simp only [hret, hcls, true_and, Option.some.injEq, Function.update_self, reduceCtorEq,
          false_and, if_false, Nat.add_zero] at hcount ⊢
        exact hcount
      · simpa [hyg, Ne.symm hyg] using hcount
    · obtain rfl | hx := List.mem_cons.mp hx
      · exact ⟨g, rfl⟩
      · exact h.offsets x hx

lemma Sound.move (h : Sound bd r lo) {lo' : Loc} (hl : ∀ g, inHand lo' g = inHand lo g) :
    Sound bd r lo' :=
  ⟨fun g => by rw [hl]; exact h.returned g, fun g hg => by rw [hl]; exact h.disjoint g hg,
    h.encoded, h.classes, h.issued, h.counts, h.offsets⟩

/-! ## Actions -/

lemma publishingNow_update {g : ℕ} {x : Holder} (hx : x ≠ .publishing)
    (hg : r.holder g ≠ .publishing) :
    (fun y => if Function.update r.holder g x y = .publishing then some () else none) =
      publishingNow r := by
  funext y
  by_cases hy : y = g
  · subst y; simp [publishingNow, hx, hg]
  · simp [publishingNow, hy]

/-- An action of the owner. -/
lemma Sound.owner_act (h : Sound bd r lo) (hlo : lo.IsOwner) (e : Choice) :
    Sound bd (act bd e r lo).1 (act bd e r lo).2 ∧ (act bd e r lo).2.IsOwner ∧
      publishingNow (act bd e r lo).1 = publishingNow r := by
  cases lo with
  | outside | publishing | fatal => exact hlo.elim
  | owner =>
      cases hc : e.command with
      | publish | cut | stop => simpa only [act, hc] using ⟨h, trivial, trivial⟩
      | issue offset cls =>
          obtain ⟨hp, hf, ht⟩ := Bitmap.issue_spec bd r.bitmap offset cls e.ok
          generalize hi : r.bitmap.issue bd offset cls e.ok = res at hp hf ht
          obtain ⟨b, done⟩ := res
          cases hg : granule offset with
          | none =>
              have hd : done = false := by
                rw [Bitmap.issue, Bitmap.prepare, hg] at hi
                simpa using (congrArg Prod.snd hi).symm
              simp only [act, hc, hg, hi]
              exact ⟨h.bitmap hp (hf hd), trivial, rfl⟩
          | some g =>
              cases done with
              | false =>
                  simp only [act, hc, hg, hi]
                  exact ⟨h.bitmap hp (hf rfl), trivial, rfl⟩
              | true =>
                  obtain ⟨hlt, henc⟩ := ht g hg rfl
                  simp only [act, hc, hg, hi]
                  split_ifs with ho
                  · exact ⟨h.issue hp henc hlt ho, trivial,
                      publishingNow_update (by simp) (by simp [ho])⟩
                  · exact ⟨h, trivial, rfl⟩
      | ownFree g =>
          simp only [act, hc]
          split_ifs with hu
          · exact ⟨h.pass (by simp [hu]) (by simp) (by simp), trivial,
              publishingNow_update (by simp) (by simp [hu])⟩
          · exact ⟨h, trivial, rfl⟩
      | scan highWater startWord =>
          simp only [act, hc]
          split
          · next s hs =>
              obtain ⟨-, h1, h2, -⟩ := scanFrom_spec hs
              exact ⟨h.move fun g => rfl, ⟨h1, h2⟩, rfl⟩
          · exact ⟨h, trivial, rfl⟩
  | scanning s =>
      obtain ⟨h1, h2⟩ := hlo
      cases hc : e.command with
      | publish | issue | ownFree | scan => simpa only [act, hc] using ⟨h, ⟨h1, h2⟩, trivial⟩
      | stop => simpa only [act, hc] using ⟨h.move fun g => rfl, trivial, trivial⟩
      | cut =>
          simp only [act, hc, Scan.advance]
          by_cases hend : s.nextWord = s.endWord
          · simpa only [if_pos hend] using ⟨h.move fun g => rfl, trivial, trivial⟩
          · have hlt : s.nextWord < words := by omega
            simp only [if_neg hend, if_pos hlt]
            exact ⟨h.move fun g => rfl, ⟨by dsimp only; omega, h2, hlt⟩, trivial⟩
  | cutLoad s w =>
      obtain ⟨h1, h2, h3⟩ := hlo
      simp only [act]
      split_ifs
      · exact ⟨h.move fun g => rfl, ⟨h1, h2⟩, trivial⟩
      · exact ⟨h.move fun g => rfl, ⟨h1, h2, h3⟩, trivial⟩
  | cutSwap s w =>
      obtain ⟨h1, h2, h3⟩ := hlo
      exact ⟨h.cut, ⟨h1, h2⟩, rfl⟩
  | popping s c =>
      by_cases h0 : c.bits = 0
      · have hpop : c.pop bd r.bitmap = some none := if_pos h0
        simp only [act, hpop]
        exact ⟨h.move fun g => by simp [inHand, h0], hlo, trivial⟩
      · obtain ⟨g, cls, c', hpop, hret, hs⟩ := h.pop h0
        simp only [act, hpop]
        refine ⟨hs, hlo, publishingNow_update (by simp) ?_⟩
        rw [Nat.mul_div_cancel _ (show 0 < minBlock by decide), hret]
        simp

/-- An action of a freeing thread: it takes the block from the user and puts it into the
bitmap. -/
lemma Sound.producer_act {l : Loc} (h : Sound bd r lo) (hl : l.IsProducer)
    (hmode : ∀ g x, hold l = some (g, x) → publishingNow r g = some x) (e : Choice) :
    Sound bd (act bd e r l).1 lo ∧ (act bd e r l).2.IsProducer ∧
      Move hold publishingNow r (act bd e r l).1 l (act bd e r l).2 := by
  cases l with
  | owner | scanning | cutLoad | cutSwap | popping | fatal => exact hl.elim
  | outside =>
      have stay : Sound bd r lo ∧ Loc.IsProducer .outside ∧
          Move hold publishingNow r r .outside .outside := ⟨h, trivial, .keep rfl rfl⟩
      cases hc : e.command with
      | issue | ownFree | scan | cut | stop => simpa only [act, hc] using stay
      | publish offset =>
          simp only [act, hc]
          split
          · next g hg =>
              split_ifs with hu
              · refine ⟨h.pass (by simp [hu]) (by simp) fun _ => h.issued g (by simp [hu]), trivial,
                  .acquire g () rfl (by simp [publishingNow, hu]) ?_ rfl⟩
                funext y
                by_cases hy : y = g
                · subst y; simp [publishingNow]
                · simp [publishingNow, hy]
              · exact stay
          · exact stay
  | publishing g =>
      have hg : r.holder g = .publishing := by
        simpa [publishingNow] using hmode g () rfl
      refine ⟨h.publish hg, trivial, .release g () rfl ?_ rfl⟩
      funext y
      by_cases hy : y = g
      · subst y; simp [act, publishingNow]
      · simp [act, publishingNow, hy]

/-- No action but the swap of its word removes a pending bit. -/
lemma act_pending (bd : Build) (e : Choice) (r : Shared) (l : Loc) {g : ℕ}
    (hg : member r.bitmap.pending g = true) (hl : ∀ s, l ≠ .cutSwap s (g / 64)) :
    member (act bd e r l).1.bitmap.pending g = true := by
  cases l with
  | publishing x =>
      exact (member_set _ _ _).trans (by simp [hg])
  | cutSwap s w =>
      have hw : g / 64 ≠ w := by
        rintro rfl
        exact hl s rfl
      exact (member_clearWord _ _ _).trans (by simp [hw, hg])
  | owner =>
      cases hc : e.command with
      | issue offset cls =>
          have hp := (Bitmap.issue_spec bd r.bitmap offset cls e.ok).1
          generalize hi : r.bitmap.issue bd offset cls e.ok = res at hp
          obtain ⟨b, done⟩ := res
          simp only at hp
          cases hgr : granule offset <;> cases done <;> simp only [act, hc, hgr, hi]
          case some.true =>
            split_ifs
            · simpa only [hp] using hg
            · exact hg
          all_goals simpa only [hp] using hg
      | publish | cut | stop => simpa only [act, hc] using hg
      | ownFree | scan =>
          simp only [act, hc]
          split <;> exact hg
  | outside | scanning | cutLoad | popping | fatal =>
      simp only [act]
      repeat' split
      all_goals exact hg

/-! ## Bounded scans -/

lemma Scan.cuts_eq (budget : ℕ) (s : Scan) (h : s.nextWord ≤ s.endWord) :
    s.cuts budget = (List.range' s.nextWord (min budget (s.endWord - s.nextWord)),
      min s.endWord (s.nextWord + budget)) := by
  induction budget generalizing s with
  | zero => simp [Scan.cuts, h]
  | succ budget ih =>
      rw [Scan.cuts, Scan.advance]
      by_cases hend : s.nextWord = s.endWord
      · simp [hend]
      · have hlt : s.nextWord + 1 ≤ s.endWord := by omega
        rw [if_neg hend]
        simp only [ih { s with nextWord := s.nextWord + 1 } hlt]
        have hmin : min (budget + 1) (s.endWord - s.nextWord) =
            min budget (s.endWord - (s.nextWord + 1)) + 1 := by omega
        rw [hmin, List.range'_succ]
        exact congrArg _ (by omega)

/-- Resumed scans cut the words from the first one to the word they return, in order and
each once. -/
lemma resumedScans_words (calls : List (ℕ × ℕ)) (word : ℕ) :
    word ≤ (resumedScans calls word).2 ∧
      (resumedScans calls word).1 = List.range' word ((resumedScans calls word).2 - word) := by
  induction calls generalizing word with
  | nil => simp [resumedScans]
  | cons call calls ih =>
      obtain ⟨highWater, budget⟩ := call
      rw [resumedScans]
      cases hs : scanFrom highWater word with
      | none => exact ih word
      | some s =>
          obtain ⟨rfl, hle, -, -⟩ := scanFrom_spec hs
          simp only [Scan.cuts_eq budget s hle]
          obtain ⟨h1, h2⟩ := ih (min s.endWord (s.nextWord + budget))
          have hnext : min s.endWord (s.nextWord + budget) =
              s.nextWord + min budget (s.endWord - s.nextWord) := by omega
          rw [hnext] at h1 h2 ⊢
          refine ⟨by omega, ?_⟩
          rw [h2, List.range'_append_1]
          congr 1
          omega

/-- Enough budget reaches the end. -/
lemma resumedScans_next {highWater : ℕ} (hw : highWater ≤ segment) (budgets : List ℕ) (word : ℕ)
    (h : word ≤ (highWater + sidecarWordBytes - 1) / sidecarWordBytes) :
    (resumedScans (budgets.map (highWater, ·)) word).2 =
      min ((highWater + sidecarWordBytes - 1) / sidecarWordBytes) (word + budgets.sum) := by
  induction budgets generalizing word with
  | nil => simp [resumedScans, h]
  | cons budget budgets ih =>
      set endWord := (highWater + sidecarWordBytes - 1) / sidecarWordBytes with hend
      have hwords : endWord ≤ words := by
        have hw' : words = 4096 := by decide
        simp only [hend, segment, sidecarWordBytes, minBlock, hw'] at hw ⊢
        omega
      have hs : scanFrom highWater word = some ⟨word, endWord⟩ := by
        rw [scanFrom, if_neg (by omega)]
        simp only [← hend]
        rw [if_neg (by omega), if_neg (by omega)]
      simp only [List.map_cons, resumedScans, hs, List.sum_cons]
      simp only [Scan.cuts_eq budget ⟨word, endWord⟩ h]
      rw [ih _ (min_le_left _ _)]
      omega

/-! ## Runs -/

section Runs
variable {ι : Type*} [DecidableEq ι]

/-- The whole system between two actions. -/
structure Consistent (bd : Build) (w : World (Option ι) Shared Loc) : Prop where
  owned : Owned hold publishingNow w
  producers : ∀ i, (w.loc (some i)).IsProducer
  owner : (w.loc none).IsOwner
  sound : Sound bd w.shared (w.loc none)

lemma Loc.IsOwner.hold {lo : Loc} (h : lo.IsOwner) : Sidecar.hold lo = none := by
  cases lo with
  | publishing => exact h.elim
  | outside | owner | scanning | cutLoad | cutSwap | popping | fatal => rfl

omit [DecidableEq ι] in
lemma consistent_init (bd : Build) : Consistent bd (World.init ι) where
  owned := by
    refine ⟨fun i s h hs => ?_, fun i j s h h' hs => ?_, fun s h hs => ?_⟩
    · cases i <;> simp [World.init, hold] at hs
    · cases i <;> simp [World.init, hold] at hs
    · simp [World.init, Shared.new, publishingNow] at hs
  producers _ := trivial
  owner := trivial
  sound := by
    refine ⟨fun g => ?_, fun g _ => rfl, fun g => ?_, fun g c hc => ?_, fun g hg => ?_,
      fun g c => ?_, fun x hx => ?_⟩
    · simp [World.init, Shared.new, Bitmap.new, member, inHand]
    · simp [World.init, Shared.new, Bitmap.new, Bitmap.encoded]
    · simp [World.init, Shared.new] at hc
    · simp [World.init, Shared.new] at hg
    · simp [World.init, Shared.new]
    · simp [World.init, Shared.new] at hx

lemma Consistent.step {w : World (Option ι) Shared Loc} (h : Consistent bd w) (i : Option ι)
    (e : Choice) : Consistent bd (w.step (act bd) i e) := by
  cases i with
  | none =>
      obtain ⟨hs, ho, hv⟩ := h.sound.owner_act h.owner e
      refine ⟨h.owned.step (.keep hv ?_), fun i => ?_, ?_, ?_⟩
      · rw [ho.hold, h.owner.hold]
      · rw [World.step_loc_of_ne (Option.some_ne_none i)]
        exact h.producers i
      · rwa [World.step_loc_self]
      · rwa [World.step_loc_self]
  | some i =>
      obtain ⟨hs, hp, hm⟩ := h.sound.producer_act (h.producers i)
        (fun g x hg => h.owned.mode (some i) g x hg) e
      have hne : (none : Option ι) ≠ some i := (Option.some_ne_none i).symm
      refine ⟨h.owned.step hm, fun j => ?_, ?_, ?_⟩
      · by_cases hj : j = i
        · subst j
          rwa [World.step_loc_self]
        · rw [World.step_loc_of_ne (by simpa using hj)]
          exact h.producers j
      · rw [World.step_loc_of_ne hne]
        exact h.owner
      · rw [World.step_loc_of_ne hne]
        exact hs

lemma run_consistent (bd : Build) (xs : List (Option ι × Choice)) :
    Consistent bd (World.run (act bd) xs (World.init ι)) :=
  World.run_invariant (fun _ i e h => h.step i e) xs (consistent_init bd)

omit [DecidableEq ι] in
lemma publishTarget_eq_none {w : World (Option ι) Shared Loc} (h : Consistent bd w)
    (hbd : bd.checked = true) (offset : ℕ) :
    w.shared.bitmap.publishTarget bd offset = none ↔
      offset % minBlock ≠ 0 ∨ segment ≤ offset ∨ w.shared.issued (offset / minBlock) = none := by
  rw [Bitmap.publishTarget, granule]
  by_cases hoff : offset < segment ∧ offset % minBlock = 0
  · have henc := h.sound.encoded (offset / minBlock)
    rw [if_pos hoff]
    cases hi : w.shared.issued (offset / minBlock) <;>
      simp [hbd, henc, hi, hoff.2, hoff.1]
  · rw [if_neg hoff]
    simp only [true_iff]
    omega

/-- Remote frees are consumed exactly once. Along every schedule the publications of a granule
under a class are the pops at 16 times the granule with that class, and the one that is still
in the bitmap or in the unfinished cut; nothing else is popped and the owner never aborts. A
publication sets a bit that only a later swap of its word removes, into the cut. Resumed
bounded scans cut a gapless run of words, and the checked build drops exactly the offsets that
are misaligned, outside the segment or never issued. -/
theorem consumed_exactly_once (bd : Build) (xs : List (Option ι × Choice)) :
    let w := World.run (act bd) xs (World.init ι)
    (∀ g c, w.shared.published.count (g, c) = w.shared.popped.count ⟨16 * g, c⟩ +
      if (member w.shared.bitmap.pending g ∨ inHand (w.loc none) g) ∧ w.shared.issued g = some c
      then 1 else 0) ∧
    (∀ x ∈ w.shared.popped, ∃ g, x.offset = 16 * g ∧ (g, x.cls) ∈ w.shared.published) ∧
    w.loc none ≠ .fatal ∧
    (∀ i e g, w.loc i = .publishing g →
      member (w.step (act bd) i e).shared.bitmap.pending g = true ∧
      inHand ((w.step (act bd) i e).loc none) g = false) ∧
    (∀ i e g, member w.shared.bitmap.pending g = true →
      member (w.step (act bd) i e).shared.bitmap.pending g = true ∨
      i = none ∧ (∃ s, w.loc none = .cutSwap s (g / 64)) ∧
        inHand ((w.step (act bd) i e).loc none) g = true) ∧
    (∀ calls word, word ≤ (resumedScans calls word).2 ∧
      (resumedScans calls word).1 = List.range' word ((resumedScans calls word).2 - word)) ∧
    (∀ highWater ≤ segment, ∀ word ≤ (highWater + sidecarWordBytes - 1) / sidecarWordBytes,
      ∀ budgets : List ℕ, (resumedScans (budgets.map (highWater, ·)) word).2 =
        min ((highWater + sidecarWordBytes - 1) / sidecarWordBytes) (word + budgets.sum)) ∧
    (bd.checked = true → ∀ offset ok,
      (w.shared.bitmap.publishTarget bd offset = none ↔ offset % 16 ≠ 0 ∨ segment ≤ offset ∨
        w.shared.issued (offset / 16) = none) ∧
      (w.shared.bitmap.publishTarget bd offset = none →
        act bd ⟨.publish offset, ok⟩ w.shared .outside = (w.shared, .outside))) := by
  intro w
  have h : Consistent bd w := run_consistent bd xs
  have hcounts : ∀ g c, w.shared.published.count (g, c) = w.shared.popped.count ⟨16 * g, c⟩ +
      if (member w.shared.bitmap.pending g ∨ inHand (w.loc none) g) ∧ w.shared.issued g = some c
      then 1 else 0 := by
    intro g c
    rw [h.sound.counts g c]
    simp only [h.sound.returned g, minBlock, Nat.mul_comm g 16]
  refine ⟨hcounts, fun x hx => ?_, fun hf => ?_, fun i e g hi => ?_, fun i e g hg => ?_,
    resumedScans_words, fun _ hw _ h bs => resumedScans_next hw bs _ h, fun hbd offset ok =>
    ⟨publishTarget_eq_none h hbd offset, fun ht => by simp only [act, ht]⟩⟩
  · obtain ⟨offset, cls⟩ := x
    obtain ⟨g, rfl⟩ : ∃ g, offset = g * minBlock := h.sound.offsets _ hx
    have hpos : 0 < w.shared.published.count (g, cls) := by
      rw [h.sound.counts g cls]
      exact Nat.add_pos_left (List.count_pos_iff.mpr hx) _
    exact ⟨g, Nat.mul_comm g 16, List.count_pos_iff.mp hpos⟩
  · have := h.owner
    rw [hf] at this
    exact this
  · have hmem : member (w.step (act bd) i e).shared.bitmap.pending g = true := by
      simp only [World.step, hi]
      exact (member_set _ _ _).trans (by simp)
    exact ⟨hmem, (h.step i e).sound.disjoint g hmem⟩
  · by_cases hcut : ∃ s, w.loc i = .cutSwap s (g / 64)
    · obtain ⟨s, hs⟩ := hcut
      obtain rfl : i = none := by
        cases i with
        | none => rfl
        | some i =>
            have := h.producers i
            rw [hs] at this
            exact this.elim
      have hhand : inHand ((w.step (act bd) none e).loc none) g = true := by
        rw [World.step_loc_self, hs]
        simpa [act, inHand, member] using hg
      exact .inr ⟨rfl, ⟨s, hs⟩, hhand⟩
    · exact .inl (act_pending bd e w.shared (w.loc i) hg fun s hs => hcut ⟨s, hs⟩)

end Runs

/-- Block 3 is issued under class 2, freed by another thread and consumed. -/
def freeRun : List (Option Unit × Choice) :=
  [(none, ⟨.issue 48 2, true⟩), (some (), ⟨.publish 48, true⟩), (some (), ⟨.stop, true⟩),
    (none, ⟨.scan 64 0, true⟩), (none, ⟨.cut, true⟩), (none, ⟨.stop, true⟩),
    (none, ⟨.stop, true⟩), (none, ⟨.stop, true⟩)]

theorem freeRun_consumed :
    let w := World.run (act ⟨49, true⟩) freeRun (World.init Unit)
    (⟨48, 2⟩ : Record) ∈ w.shared.popped ∧ (3, 2) ∈ w.shared.published := by
  intro w
  have hpop : (⟨48, 2⟩ : Record) ∈ w.shared.popped := by decide +kernel
  obtain ⟨g, hg, hmem⟩ := (consumed_exactly_once ⟨49, true⟩ freeRun).2.1 ⟨48, 2⟩ hpop
  obtain rfl : g = 3 := by
    simp only at hg
    omega
  exact ⟨hpop, hmem⟩

end Sidecar

end SeferAlloc
