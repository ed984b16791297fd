import SeferAlloc.RouteDirectoryPins

/-!
# The directory and the links

The directory shows exactly the indexed routes that are linked. Three actions
change it: a descriptor is created, indexed or unlinked; the others leave it
alone, and none gives a descriptor another route or links it again.
-/
namespace SeferAlloc
namespace Routes
open Interleaving RefCounting

/-- The directory and the flags of the descriptors agree. -/
structure Dir (r : Shared) : Prop where
  keyed : ∀ k ρ, r.directory k = some ρ → ρ < r.fresh ∧ (r.entries ρ).route.key = k ∧
    (r.entries ρ).linked = true ∧ (r.entries ρ).indexed = true
  linked : ∀ ρ, (r.entries ρ).linked = true → (r.entries ρ).indexed = true →
    r.directory (r.entries ρ).route.key = some ρ
  unindexed : ∀ ρ, (r.entries ρ).indexed = false → (r.entries ρ).linked = true
  blank : ∀ ρ, r.fresh ≤ ρ → (r.entries ρ).indexed = false

/-- What no action takes back: a descriptor keeps its route, it is not linked again, and it
stays recorded as indexed. -/
structure Grows (r r' : Shared) : Prop where
  fresh : r.fresh ≤ r'.fresh
  exiting : r.exiting = true → r'.exiting = true
  route : ∀ ρ, ρ < r.fresh → (r'.entries ρ).route = (r.entries ρ).route
  indexed : ∀ ρ, ρ < r.fresh → (r.entries ρ).indexed = true → (r'.entries ρ).indexed = true
  linked : ∀ ρ, ρ < r.fresh → (r'.entries ρ).linked = true → (r.entries ρ).linked = true

lemma Shared.find_spec {r : Shared} {addr ρ : ℕ} (h : r.find addr = some ρ) :
    r.directory (segmentBaseOfPtr addr) = some ρ ∧ (r.entries ρ).route.contains addr = true := by
  rw [Shared.find] at h
  split at h
  · simp at h
  · rename_i ρ' hd
    split_ifs at h with hc
    obtain rfl := Option.some.inj h
    exact ⟨hd, hc⟩

lemma Shared.find_eq {r : Shared} {addr ρ : ℕ} (h : r.directory (segmentBaseOfPtr addr) = some ρ)
    (hc : (r.entries ρ).route.contains addr = true) : r.find addr = some ρ := by
  simp [Shared.find, h, hc]

/-- The directory and the flags stay; the counters may change. -/
structure Still (r r' : Shared) : Prop where
  fresh : r'.fresh = r.fresh
  directory : r'.directory = r.directory
  exiting : r.exiting = true → r'.exiting = true
  route : ∀ ρ, (r'.entries ρ).route = (r.entries ρ).route
  linked : ∀ ρ, (r'.entries ρ).linked = (r.entries ρ).linked
  indexed : ∀ ρ, (r'.entries ρ).indexed = (r.entries ρ).indexed

lemma Still.modify (r : Shared) (ρ : ℕ) {f : Entry → Entry} (h1 : ∀ x, (f x).route = x.route)
    (h2 : ∀ x, (f x).linked = x.linked) (h3 : ∀ x, (f x).indexed = x.indexed) :
    Still r (r.modify ρ f) :=
  ⟨rfl, rfl, id, modify_same (·.route) r ρ h1, modify_same (·.linked) r ρ h2,
    modify_same (·.indexed) r ρ h3⟩

/-- An action leaves the directory and the flags alone, or it is one of the three that do not. -/
lemma Change.still {r r' : Shared} {t t' : Thread} (h : Change r r' t t') :
    Still r r' ∨ (∃ x, r' = r.create x) ∨
    (∃ ρ, t.loc = .index ρ ∧ t'.loc = .idle ∧ r.directory (r.entries ρ).route.key = none ∧
      r' = r.insert ρ) ∨
    ∃ ρ, r.directory (r.entries ρ).route.key = some ρ ∧ r' = r.unlink ρ := by
  cases h with
  | quiet hr hh he hm =>
      exact .inl ⟨hr.fresh, hr.directory, hr.exiting, hr.route, hr.linked, hr.indexed⟩
  | create x hr hl ht => exact .inr (.inl ⟨x, hr⟩)
  | insert ρ hl hd hr ht => exact .inr (.inr (.inl ⟨ρ, hl, ht ▸ rfl, hd, hr⟩))
  | unlink ρ hl hd hr ht => exact .inr (.inr (.inr ⟨ρ, hd, hr⟩))
  | retain ρ addr hd hr hh he hm =>
      exact .inl (hr ▸ .modify r ρ (fun _ => rfl) (fun _ => rfl) fun _ => rfl)
  | release ρ next hl hr ht =>
      exact .inl (hr ▸ .modify r ρ (fun _ => rfl) (fun _ => rfl) fun _ => rfl)
  | reclaim ρ next hl hr ht =>
      exact .inl (hr ▸ .modify r ρ (fun _ => rfl) (fun _ => rfl) fun _ => rfl)

lemma create_of_lt (r : Shared) (x : Route) {ρ : ℕ} (h : ρ < r.fresh) :
    (r.create x).entries ρ = r.entries ρ := Function.update_of_ne (Nat.ne_of_lt h) ..

lemma insert_indexed (r : Shared) (ρ b : ℕ) :
    ((r.insert ρ).entries b).indexed = (decide (b = ρ) || (r.entries b).indexed) := by
  by_cases hb : b = ρ
  · subst b
    simp [Shared.insert, Shared.modify]
  · simp [Shared.insert, Shared.modify, hb]

lemma unlink_linked (r : Shared) (ρ b : ℕ) :
    ((r.unlink ρ).entries b).linked = (!decide (b = ρ) && (r.entries b).linked) := by
  by_cases hb : b = ρ
  · subst b
    simp [Shared.unlink, Shared.modify]
  · simp [Shared.unlink, Shared.modify, hb]

lemma Change.grows {r r' : Shared} {t t' : Thread} (h : Change r r' t t') : Grows r r' := by
  obtain hs | ⟨x, rfl⟩ | ⟨ρ, -, -, -, rfl⟩ | ⟨ρ, -, rfl⟩ := h.still
  · exact ⟨hs.fresh.ge, hs.exiting, fun b _ => hs.route b, fun b _ hb => (hs.indexed b).trans hb,
      fun b _ hb => (hs.linked b).symm.trans hb⟩
  · exact ⟨Nat.le_succ _, id, fun b hb => by rw [create_of_lt r x hb],
      fun b hb => by rw [create_of_lt r x hb]; exact id,
      fun b hb => by rw [create_of_lt r x hb]; exact id⟩
  · exact ⟨le_rfl, id, fun b _ => insert_same (·.route) r ρ b fun _ => rfl,
      fun b _ hb => by simp [insert_indexed, hb],
      fun b _ hb => (insert_same (·.linked) r ρ b fun _ => rfl).symm.trans hb⟩
  · exact ⟨le_rfl, id, fun b _ => unlink_same (·.route) r ρ b fun _ => rfl,
      fun b _ hb => (unlink_same (·.indexed) r ρ b fun _ => rfl).trans hb,
      fun b _ hb => by
        rw [unlink_linked] at hb
        exact (Bool.and_eq_true_iff.mp hb).2⟩

lemma Dir.insert {r : Shared} (h : Dir r) {ρ : ℕ} (hρ : ρ < r.fresh)
    (hi : (r.entries ρ).indexed = false) (hd : r.directory (r.entries ρ).route.key = none) :
    Dir (r.insert ρ) := by
  have hroute : ∀ b, ((r.insert ρ).entries b).route = (r.entries b).route := fun b =>
    insert_same (·.route) r ρ b fun _ => rfl
  have hlinked : ∀ b, ((r.insert ρ).entries b).linked = (r.entries b).linked := fun b =>
    insert_same (·.linked) r ρ b fun _ => rfl
  refine ⟨fun k b hb => ?_, fun b hb hbi => ?_, fun b hb => ?_, fun b hb => ?_⟩
  · change Function.update r.directory (r.entries ρ).route.key (some ρ) k = some b at hb
    rw [hroute, hlinked, insert_indexed]
    by_cases hk : k = (r.entries ρ).route.key
    · subst k
      obtain rfl : ρ = b := by simpa using hb
      exact ⟨hρ, rfl, h.unindexed ρ hi, by simp⟩
    · rw [Function.update_of_ne hk] at hb
      obtain ⟨h1, h2, h3, h4⟩ := h.keyed k b hb
      exact ⟨h1, h2, h3, by simp [h4]⟩
  · rw [hlinked] at hb
    rw [hroute]
    change Function.update r.directory (r.entries ρ).route.key (some ρ) _ = some b
    by_cases hbρ : b = ρ
    · subst b
      exact Function.update_self ..
    · rw [insert_indexed, decide_eq_false hbρ, Bool.false_or] at hbi
      have hdir := h.linked b hb hbi
      rw [Function.update_of_ne _, hdir]
      intro he
      rw [he, hd] at hdir
      simp at hdir
  · rw [insert_indexed, Bool.or_eq_false_iff] at hb
    exact (hlinked b).trans (h.unindexed b hb.2)
  · have hb' : r.fresh ≤ b := hb
    rw [insert_indexed, h.blank b hb, decide_eq_false (by omega)]
    rfl

lemma Dir.unlink {r : Shared} (h : Dir r) {ρ : ℕ}
    (hd : r.directory (r.entries ρ).route.key = some ρ) : Dir (r.unlink ρ) := by
  have hroute : ∀ b, ((r.unlink ρ).entries b).route = (r.entries b).route := fun b =>
    unlink_same (·.route) r ρ b fun _ => rfl
  have hindexed : ∀ b, ((r.unlink ρ).entries b).indexed = (r.entries b).indexed := fun b =>
    unlink_same (·.indexed) r ρ b fun _ => rfl
  refine ⟨fun k b hb => ?_, fun b hb hbi => ?_, fun b hb => ?_, fun b hb => ?_⟩
  · change Function.update r.directory (r.entries ρ).route.key none k = some b at hb
    by_cases hk : k = (r.entries ρ).route.key
    · subst k
      simp at hb
    · rw [Function.update_of_ne hk] at hb
      obtain ⟨h1, h2, h3, h4⟩ := h.keyed k b hb
      have hbρ : b ≠ ρ := by
        rintro rfl
        exact hk h2.symm
      exact ⟨h1, (congrArg Route.key (hroute b)).trans h2,
        by rw [unlink_linked, h3, decide_eq_false hbρ]; rfl, (hindexed b).trans h4⟩
  · rw [unlink_linked, Bool.and_eq_true_iff] at hb
    rw [hindexed] at hbi
    rw [hroute]
    have hdir := h.linked b hb.2 hbi
    change Function.update r.directory (r.entries ρ).route.key none _ = some b
    rw [Function.update_of_ne _, hdir]
    intro he
    rw [he, hd] at hdir
    simp only [Option.some.injEq] at hdir
    simp [hdir] at hb
  · rw [hindexed] at hb
    rw [unlink_linked, h.unindexed b hb, Bool.and_true, Bool.not_eq_true', decide_eq_false_iff_not]
    rintro rfl
    exact absurd ((h.keyed _ b hd).2.2.2) (by simp [hb])
  · exact (hindexed b).trans (h.blank b hb)

/-- The directory stays consistent; a descriptor is indexed by the thread that created it. -/
lemma Dir.change {r r' : Shared} {t t' : Thread} (h : Dir r) (hc : Change r r' t t')
    (hi : ∀ ρ, t.loc = .index ρ → ρ < r.fresh ∧ (r.entries ρ).indexed = false) : Dir r' := by
  obtain hs | ⟨x, rfl⟩ | ⟨ρ, hl, -, hd, rfl⟩ | ⟨ρ, hd, rfl⟩ := hc.still
  · refine ⟨fun k b hb => ?_, fun b hb hbi => ?_, fun b hb => ?_, fun b hb => ?_⟩
    · rw [hs.fresh, hs.route, hs.linked, hs.indexed]
      exact h.keyed k b (hs.directory ▸ hb)
    · rw [hs.directory, hs.route]
      exact h.linked b (hs.linked b ▸ hb) (hs.indexed b ▸ hbi)
    · exact (hs.linked b).trans (h.unindexed b (hs.indexed b ▸ hb))
    · exact (hs.indexed b).trans (h.blank b (hs.fresh ▸ hb))
  · have hself : (r.create x).entries r.fresh = .new x := Function.update_self ..
    have hother : ∀ b, b ≠ r.fresh → (r.create x).entries b = r.entries b := fun b hb =>
      Function.update_of_ne hb ..
    refine ⟨fun k b hb => ?_, fun b hb hbi => ?_, fun b hb => ?_, fun b hb => ?_⟩
    · have hk := h.keyed k b hb
      rw [create_of_lt r x hk.1]
      exact ⟨Nat.lt_succ_of_lt hk.1, hk.2⟩
    · by_cases hbf : b = r.fresh
      · subst b
        simp [hself, Entry.new] at hbi
      · rw [hother b hbf] at hb hbi ⊢
        exact h.linked b hb hbi
    · by_cases hbf : b = r.fresh
      · subst b
        rw [hself]
        rfl
      · rw [hother b hbf] at hb ⊢
        exact h.unindexed b hb
    · have hb' : r.fresh + 1 ≤ b := hb
      rw [hother b (by omega)]
      exact h.blank b (by omega)
  · exact h.insert (hi ρ hl).1 (hi ρ hl).2 hd
  · exact h.unlink hd

end Routes
end SeferAlloc
