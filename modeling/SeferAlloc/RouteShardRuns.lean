import SeferAlloc.RouteShardMap

/-!
# Runs of a shard

Threads register, remove and look up entries under the shard lock, and allocate
between two lock sections what an insert has asked for. In every interleaving
the shard is the map of the entries last inserted, and an insert asks again only
after another insert is done.
-/
namespace SeferAlloc
namespace RouteShard
open SortedBlocks Interleaving

/-- A retry will not ask again: there are a spare block and room in the index. -/
def Shard.Ready (s : Shard) : Prop := s.spare ≠ none ∧ s.index.length < s.cap

/-- What a thread knows about its own insert as long as no insert is done. -/
def Assertion (x : State) : Loc → Prop
  | .insert _ (some asked) => asked ≤ x.inserted ∧ (asked = x.inserted → x.shard.Ready)
  | .allocate _ block indexCap asked =>
      asked ≤ x.inserted ∧ (asked = x.inserted → (block = false → x.shard.spare ≠ none) ∧
        (indexCap = 0 → x.shard.index.length < x.shard.cap) ∧
          (indexCap ≠ 0 → x.shard.index.length < indexCap))
  | .install _ block indexCap asked =>
      (∀ cap, indexCap = some cap → layoutFits cap) ∧ asked ≤ x.inserted ∧
        (asked = x.inserted → (block = false → x.shard.spare ≠ none) ∧
          (indexCap = none → x.shard.index.length < x.shard.cap) ∧
            ∀ cap, indexCap = some cap → x.shard.index.length < cap)
  | _ => True

/-- What a turn may do: an insert is done, or spare block and room are kept. -/
def Effect (x x' : State) : Prop :=
  x.inserted < x'.inserted ∨
    x'.inserted = x.inserted ∧ (x.shard.spare ≠ none → x'.shard.spare ≠ none) ∧
      x'.shard.index.length ≤ x.shard.index.length ∧ x.shard.cap ≤ x'.shard.cap

lemma Effect.refl (x : State) : Effect x x := .inr ⟨rfl, id, Nat.le_refl _, Nat.le_refl _⟩

/-- What a thread knows survives the turns of the others. -/
lemma Assertion.effect {x x' : State} {l : Loc} (ha : Assertion x l) (he : Effect x x') :
    Assertion x' l := by
  obtain hlt | ⟨heq, hspare, hindex, hcap⟩ := he
  · cases l with
    | insert e asked =>
        cases asked with
        | none => trivial
        | some n => exact ⟨by have := ha.1; omega, fun h => by have := ha.1; omega⟩
    | allocate e block indexCap asked =>
        exact ⟨by have := ha.1; omega, fun h => by have := ha.1; omega⟩
    | install e block indexCap asked =>
        exact ⟨ha.1, by have := ha.2.1; omega, fun h => by have := ha.2.1; omega⟩
    | idle | fatal => trivial
  · cases l with
    | insert e asked =>
        cases asked with
        | none => trivial
        | some n =>
            obtain ⟨hle, hready⟩ := ha
            refine ⟨hle.trans heq.ge, fun h => ?_⟩
            obtain ⟨h₁, h₂⟩ := hready (h.trans heq)
            exact ⟨hspare h₁, by omega⟩
    | allocate e block indexCap asked =>
        obtain ⟨hle, hknown⟩ := ha
        refine ⟨hle.trans heq.ge, fun h => ?_⟩
        obtain ⟨h₁, h₂, h₃⟩ := hknown (h.trans heq)
        refine ⟨fun hb => hspare (h₁ hb), fun hc => ?_, fun hc => ?_⟩
        · have := h₂ hc
          omega
        · have := h₃ hc
          omega
    | install e block indexCap asked =>
        obtain ⟨hfits, hle, hknown⟩ := ha
        refine ⟨hfits, hle.trans heq.ge, fun h => ?_⟩
        obtain ⟨h₁, h₂, h₃⟩ := hknown (h.trans heq)
        refine ⟨fun hb => hspare (h₁ hb), fun hc => ?_, fun cap hc => ?_⟩
        · have := h₂ hc
          omega
        · have := h₃ cap hc
          omega
    | idle | fatal => trivial

/-- The shard is sound, and its map is that of the entries last inserted. -/
structure Sound (x : State) : Prop where
  wf : x.shard.Wf
  present : x.shard.lookup = x.present

lemma Shard.Wf.lt_indexCapNeeded {s : Shard} (h : s.Wf) (hne : s.indexCapNeeded ≠ 0) :
    s.index.length < s.indexCapNeeded := by
  have hroom := h.room
  have hlayout := h.layout
  unfold layoutFits at hlayout
  unfold indexCapNeeded at hne ⊢
  split_ifs at hne ⊢ with hlt hcap
  · simp at hne
  · simp only [initialIndexCap]
    omega
  · simp only [usizeMax]
    omega

/-- What a turn from `l` with the outcome `r` keeps: the shard is sound, the thread knows what its
new location asserts, and it aborts only when it is to remove an entry that is not in. -/
structure TurnSpec (c : Choice) (x : State) (l : Loc) (r : State × Loc) : Prop where
  sound : Sound r.1
  effect : Effect x r.1
  own : Assertion r.1 r.2
  abort : r.2 = .fatal →
    l = .fatal ∨ ∃ e, l = .idle ∧ c.op = .remove e ∧ x.present e.key ≠ some e

theorem act_spec (c : Choice) {x : State} (h : Sound x) {l : Loc} (ha : Assertion x l) :
    TurnSpec c x l (act c x l) := by
  have stay : ∀ l' : Loc, Assertion x l' → l' ≠ .fatal → TurnSpec c x l (x, l') :=
    fun _ ha hne => ⟨h, .refl x, ha, fun hf => (hne hf).elim⟩
  cases l with
  | idle =>
      cases hop : c.op with
      | register e =>
          simp only [act, hop]
          exact stay _ trivial (by simp)
      | find k =>
          simp only [act, hop]
          exact stay _ trivial (by simp)
      | remove e =>
          simp only [act, hop]
          split_ifs with hexit
          · exact stay _ trivial (by simp)
          · obtain ⟨hin, hout⟩ := Shard.remove_spec h.wf e
            rw [h.present] at hin hout
            by_cases hp : x.present e.key = some e
            · obtain ⟨s', retired, heq, hr⟩ := hin hp
              rw [heq]
              refine ⟨⟨hr.wf, ?_⟩, .inr ⟨rfl, hr.spare, hr.index, hr.cap.ge⟩, trivial, by simp⟩
              rw [hr.lookup, h.present]
            · rw [hout hp]
              exact ⟨h, .refl x, trivial, fun _ => .inr ⟨e, rfl, hop, hp⟩⟩
  | insert e asked =>
      simp only [act]
      split_ifs with hexit
      · exact stay _ trivial (by simp)
      · unfold insertTurn
        obtain ⟨-, heq⟩ | ⟨-, s', heq, hins⟩ | ⟨-, hwhy, heq⟩ := Shard.insert_spec h.wf e
        · rw [heq]
          exact stay _ trivial (by simp)
        · rw [heq]
          refine ⟨⟨hins.wf, ?_⟩, .inl (Nat.lt_succ_self _), trivial, by simp⟩
          rw [hins.lookup, h.present]
        · rw [heq]
          refine stay (.allocate ..)
            ⟨Nat.le_refl _, fun _ => ⟨fun hb => by simpa using hb, ?_, ?_⟩⟩ (by simp)
          · exact Shard.indexCapNeeded_eq_zero.mp
          · exact h.wf.lt_indexCapNeeded
  | allocate e block indexCap asked =>
      obtain ⟨hle, hknown⟩ := ha
      simp only [act]
      split_ifs with hblock hzero hok
      · exact stay _ trivial (by simp)
      · refine stay (.install ..) ⟨by simp, hle, fun hn => ?_⟩ (by simp)
        obtain ⟨h₁, h₂, -⟩ := hknown hn
        exact ⟨h₁, fun _ => h₂ hzero, by simp⟩
      · refine stay (.install ..) ⟨fun cap hc => ?_, hle, fun hn => ?_⟩ (by simp)
        · obtain rfl := Option.some.inj hc
          exact hok.2
        · obtain ⟨h₁, -, h₃⟩ := hknown hn
          refine ⟨h₁, by simp, fun cap hc => ?_⟩
          obtain rfl := Option.some.inj hc
          exact h₃ hzero
      · exact stay _ trivial (by simp)
  | install e block indexCap asked =>
      obtain ⟨hfits, hle, hknown⟩ := ha
      simp only [act]
      split_ifs with hexit
      · exact stay _ trivial (by simp)
      · obtain ⟨s', heq, hwf, hlookup, hidx, hspare, hcap, hroom⟩ :=
          Shard.install_spec h.wf block indexCap hfits
        rw [heq]
        refine ⟨⟨hwf, hlookup.trans h.present⟩,
          .inr ⟨rfl, fun hs => hspare (.inl hs), (congrArg List.length hidx).le, hcap⟩,
          ⟨hle, fun hn => ?_⟩, by simp⟩
        obtain ⟨h₁, h₂, h₃⟩ := hknown hn
        refine ⟨?_, ?_⟩
        · cases block with
          | true => exact hspare (.inr rfl)
          | false => exact hspare (.inl (h₁ rfl))
        · cases indexCap with
          | none =>
              have := h₂ rfl
              simp only [hidx]
              omega
          | some cap => exact hroom cap rfl (h₃ cap rfl)
  | fatal => exact ⟨h, .refl x, trivial, fun _ => .inl rfl⟩

variable {ι : Type*}

/-- What holds of a world between any two turns. -/
structure Invariant (w : World ι State Loc) : Prop where
  sound : Sound w.shared
  assertion : ∀ i, Assertion w.shared (w.loc i)

lemma Invariant.start : Invariant (start (ι := ι)) where
  sound :=
    { wf :=
        { sorted := Blocks.nil
          nodup := List.nodup_nil
          spare := by simp [RouteShard.start, Shard.empty]
          used := by simp [RouteShard.start, Shard.empty]
          room := Nat.le_refl _
          layout := by simp [RouteShard.start, Shard.empty, layoutFits] }
      present := rfl }
  assertion _ := trivial

/-- What is in the linked blocks is what is present. -/
lemma Sound.mem_entries_iff {x : State} (h : Sound x) (e : Entry) :
    e ∈ x.shard.entries ↔ x.present e.key = some e := by
  rw [← h.present]
  refine ⟨fun he => ?_, fun he => (assoc_eq_some he).1⟩
  obtain ⟨A, B, heq⟩ := List.append_of_mem he
  have hs := h.wf.sorted.sorted
  rw [← Shard.entries, heq] at hs
  rw [Shard.lookup, heq, assoc_insert (Shard.key_ne_of_before hs).1, Function.update_self]

lemma Invariant.find_eq {w : World ι State Loc} (h : Invariant w) (key : ℕ) :
    w.shared.shard.find key = some (w.shared.shard.lookup key) := Shard.find_eq h.sound.wf key

variable [DecidableEq ι]

lemma Invariant.step {w : World ι State Loc} (h : Invariant w) (i : ι) (c : Choice) :
    Invariant (w.step act i c) := by
  have ht := act_spec c h.sound (h.assertion i)
  exact ⟨ht.sound, World.step_forall h.assertion ht.own fun j _ ha => ha.effect ht.effect⟩

/-- The step of a thread whose turn is known. -/
lemma step_eq {w : World ι State Loc} {i : ι} {c : Choice} {l : Loc} (hl : w.loc i = l) :
    (w.step act i c).shared = (act c w.shared l).1 ∧
      (w.step act i c).loc i = (act c w.shared l).2 := by
  subst hl
  exact ⟨rfl, World.step_loc_self⟩

/-- What a lookup of the map `find` reads, once the key of an entry is set. -/
lemma find_update {s s' : Shard} (hwf : s.Wf) (hwf' : s'.Wf) {k : ℕ} {v : Option Entry}
    (h : s'.lookup = Function.update s.lookup k v) (key : ℕ) :
    s'.find key = if key = k then some v else s.find key := by
  rw [Shard.find_eq hwf', Shard.find_eq hwf, h]
  split_ifs with hk
  · rw [hk, Function.update_self]
  · rw [Function.update_of_ne hk]

/-- The entry is put in, in a turn that ends the registration. -/
structure Put (w w' : World ι State Loc) (i : ι) (e : Entry) : Prop where
  loc : w'.loc i = .idle
  inserted : w'.shared.inserted = w.shared.inserted + 1
  find : ∀ key, w'.shared.shard.find key =
    if key = e.key then some (some e) else w.shared.shard.find key

/-- An insert puts the entry in, or asks for what it lacks. -/
lemma Invariant.insertTurn {w : World ι State Loc} (h : Invariant w) {i : ι} {c : Choice} {e : Entry}
    {asked : Option ℕ} (hl : w.loc i = .insert e asked) (hc : c.exiting = false)
    (hfind : w.shared.shard.find e.key = some none) :
    Put w (w.step act i c) i e ∨ asked ≠ some w.shared.inserted ∧
      (w.step act i c).shared = w.shared ∧
      (w.step act i c).loc i = .allocate e (decide (w.shared.shard.spare = none))
        w.shared.shard.indexCapNeeded w.shared.inserted := by
  obtain ⟨hshared, hloc⟩ := step_eq (c := c) hl
  have habsent : w.shared.shard.lookup e.key = none := Option.some.inj ((h.find_eq _).symm.trans hfind)
  simp only [act, hc, Bool.false_eq_true, if_false, RouteShard.insertTurn] at hshared hloc
  obtain ⟨hsome, -⟩ | ⟨-, s', heq, hins⟩ | ⟨-, hwhy, heq⟩ := Shard.insert_spec h.sound.wf e
  · exact absurd habsent hsome
  · rw [heq] at hshared hloc
    refine .inl ⟨hloc, by rw [hshared], fun key => ?_⟩
    rw [hshared]
    exact find_update h.sound.wf hins.wf hins.lookup key
  · rw [heq] at hshared hloc
    refine .inr ⟨?_, hshared, hloc⟩
    rintro rfl
    have ha := h.assertion i
    rw [hl] at ha
    obtain ⟨hspare, hroom⟩ := ha.2 rfl
    exact hwhy.elim hspare fun hno => hno hroom

/-- A need that is granted leads to the insert again, before anything else is done. -/
lemma Invariant.grantedTurns {w : World ι State Loc} (h : Invariant w) {i : ι} {c : Choice}
    {e : Entry} {block : Bool} {indexCap asked : ℕ}
    (hl : w.loc i = .allocate e block indexCap asked) (hc : c.exiting = false)
    (hblock : c.blockOk = true) (hindex : c.indexOk = true) (hfits : layoutFits indexCap) :
    ∃ w', w' = World.run act [(i, c), (i, c)] w ∧ w'.loc i = .insert e (some asked) ∧
      w'.shared.inserted = w.shared.inserted ∧
      ∀ key, w'.shared.shard.find key = w.shared.shard.find key := by
  obtain ⟨indexCap', hloc⟩ : ∃ indexCap', (w.step act i c).loc i = .install e block indexCap' asked := by
    rw [(step_eq hl).2]
    simp only [act, hblock, hindex, hfits, Bool.true_eq_false, and_false, and_self, if_false, if_true]
    split_ifs
    · exact ⟨_, rfl⟩
    · exact ⟨_, rfl⟩
  have hshared : (w.step act i c).shared = w.shared := by
    rw [(step_eq hl).1]
    simp only [act]
    split_ifs <;> rfl
  have h₁ := h.step i c
  have hown := h₁.assertion i
  rw [hloc] at hown
  obtain ⟨s', heq, hwf, hlookup, -⟩ := Shard.install_spec h₁.sound.wf block indexCap' hown.1
  obtain ⟨hshared₂, hloc₂⟩ := step_eq (c := c) hloc
  simp only [act, hc, Bool.false_eq_true, if_false, heq] at hshared₂ hloc₂
  refine ⟨_, rfl, hloc₂, ?_, fun key => ?_⟩
  · rw [World.run, World.run, World.run, hshared₂, hshared]
  · rw [World.run, World.run, World.run, hshared₂, Shard.find_eq hwf, hlookup, hshared, h.find_eq]

/-- What a turn does to the map that `find` reads. -/
structure Turns (w : World ι State Loc) : Prop where
  /-- An insert of a key that is in changes nothing. -/
  duplicate : ∀ i c e asked, w.loc i = .insert e asked → c.exiting = false →
    w.shared.shard.find e.key ≠ some none →
    (w.step act i c).shared = w.shared ∧ (w.step act i c).loc i = .idle
  /-- Any other insert puts the entry in, or asks; one that asked asks again only if another insert
  is done meanwhile. -/
  insert : ∀ i c e asked, w.loc i = .insert e asked → c.exiting = false →
    w.shared.shard.find e.key = some none →
    Put w (w.step act i c) i e ∨ asked ≠ some w.shared.inserted ∧
      (w.step act i c).shared = w.shared ∧
      ∃ block indexCap, (w.step act i c).loc i = .allocate e block indexCap w.shared.inserted
  /-- An insert to which the system grants what it asks for, if it asks, is done in four turns. -/
  granted : ∀ i c e asked, w.loc i = .insert e asked → c.exiting = false → c.blockOk = true →
    c.indexOk = true → layoutFits w.shared.shard.indexCapNeeded →
    w.shared.shard.find e.key = some none →
    ∃ n ≤ 4, Put w (World.run act (List.replicate n (i, c)) w) i e
  /-- A removal takes the entry out. -/
  remove : ∀ i c e, w.loc i = .idle → c.op = .remove e → c.exiting = false →
    w.shared.shard.find e.key = some (some e) →
    (w.step act i c).loc i = .idle ∧ ∀ key, (w.step act i c).shared.shard.find key =
      if key = e.key then some none else w.shared.shard.find key
  /-- Every other turn leaves the map alone, and so does one that finds the process exiting. -/
  others : ∀ i c key, (∀ e asked, w.loc i = .insert e asked → c.exiting = true) →
    (∀ e, w.loc i = .idle → c.op = .remove e → c.exiting = true) →
    (w.step act i c).shared.shard.find key = w.shared.shard.find key

lemma Invariant.granted {w : World ι State Loc} (h : Invariant w) {i : ι} {c : Choice} {e : Entry}
    {asked : Option ℕ} (hl : w.loc i = .insert e asked) (hc : c.exiting = false)
    (hblock : c.blockOk = true) (hindex : c.indexOk = true)
    (hfits : layoutFits w.shared.shard.indexCapNeeded)
    (hfind : w.shared.shard.find e.key = some none) :
    ∃ n ≤ 4, Put w (World.run act (List.replicate n (i, c)) w) i e := by
  obtain hput | ⟨-, hshared, hloc⟩ := h.insertTurn hl hc hfind
  · exact ⟨1, by omega, hput⟩
  obtain ⟨w', hrun, hloc', hinserted, hsame⟩ :=
    (h.step i c).grantedTurns hloc hc hblock hindex hfits
  have h' : Invariant w' := hrun ▸ World.run_invariant (fun _ i c h => h.step i c) _ (h.step i c)
  rw [hshared] at hinserted
  obtain hput | ⟨hasked, -⟩ := h'.insertTurn hloc' hc ((hsame _).trans (hshared ▸ hfind))
  · refine ⟨4, le_rfl, ?_⟩
    have hrun₄ : World.run act (List.replicate 4 (i, c)) w = w'.step act i c := by
      rw [hrun]
      rfl
    rw [hrun₄]
    refine ⟨hput.loc, hput.inserted.trans (congrArg (· + 1) hinserted), fun key => ?_⟩
    rw [hput.find, hsame, hshared]
  · exact absurd (congrArg some hinserted.symm) hasked

lemma Invariant.turns {w : World ι State Loc} (h : Invariant w) : Turns w := by
  refine ⟨fun i c e asked hl hc hfind => ?_, fun i c e asked hl hc hfind => ?_,
    fun i c e asked hl hc hb hi hf hfind => h.granted hl hc hb hi hf hfind,
    fun i c e hl hop hc hfind => ?_, fun i c key hinsert hremove => ?_⟩
  · obtain ⟨hshared, hloc⟩ := step_eq (c := c) hl
    simp only [act, hc, Bool.false_eq_true, if_false, RouteShard.insertTurn] at hshared hloc
    rw [h.find_eq] at hfind
    obtain ⟨-, heq⟩ | ⟨hnone, -⟩ | ⟨hnone, -⟩ := Shard.insert_spec h.sound.wf e
    · rw [heq] at hshared hloc
      exact ⟨hshared, hloc⟩
    · exact absurd (congrArg some hnone) hfind
    · exact absurd (congrArg some hnone) hfind
  · exact (h.insertTurn hl hc hfind).imp id fun ⟨hasked, hshared, hloc⟩ =>
      ⟨hasked, hshared, _, _, hloc⟩
  · obtain ⟨hshared, hloc⟩ := step_eq (c := c) hl
    have hin : w.shared.shard.lookup e.key = some e := Option.some.inj ((h.find_eq _).symm.trans hfind)
    obtain ⟨s', retired, heq, hr⟩ := (Shard.remove_spec h.sound.wf e).1 hin
    simp only [act, hop, hc, Bool.false_eq_true, if_false, heq] at hshared hloc
    refine ⟨hloc, fun key => ?_⟩
    rw [hshared]
    exact find_update h.sound.wf hr.wf hr.lookup key
  · cases hl : w.loc i with
    | idle =>
        rw [(step_eq hl).1]
        cases hop : c.op with
        | register e => simp only [act, hop]
        | find k => simp only [act, hop]
        | remove e => simp only [act, hop, hremove e hl hop, if_true]
    | insert e asked =>
        rw [(step_eq hl).1]
        simp only [act, hinsert e asked hl, if_true]
    | allocate e block indexCap asked =>
        rw [(step_eq hl).1]
        simp only [act]
        split_ifs <;> rfl
    | install e block indexCap asked =>
        rw [(step_eq hl).1]
        have ha := h.assertion i
        rw [hl] at ha
        obtain ⟨s', heq, hwf, hlookup, -⟩ := Shard.install_spec h.sound.wf block indexCap ha.1
        simp only [act, heq]
        split_ifs
        · rfl
        · simp only [Shard.find_eq hwf, hlookup, h.find_eq]
    | fatal =>
        rw [(step_eq hl).1]
        rfl

/-- In every interleaving of the threads a shard is the finite map of the entries last inserted and
not removed, and a turn changes the map by what it inserts or removes: `find` returns them; they are
sorted through the linked blocks, which are not empty, and two neighbours of which hold more than
half a block; an insert of a key that is present, or one that asks, leaves the shard; a removal
retires at most two blocks, none of them linked; an insert that asks again has seen another insert
done; and only the removal of an entry that is not in aborts. -/
theorem shard_exact (xs : List (ι × Choice)) :
    let w := World.run act xs (start (ι := ι))
    let s := w.shared.shard
    let present := w.shared.present
    (∀ key, s.find key = some (present key)) ∧
      (Blocks blockHalf Before s.blocks ∧ s.index.Nodup ∧
        ∀ e, e ∈ s.entries ↔ present e.key = some e) ∧
      (∀ e, present e.key ≠ none → s.insert e.key e = some (s, .duplicate)) ∧
      (∀ e, present e.key = none →
        (∃ s', s.insert e.key e = some (s', .done) ∧
          s'.lookup = Function.update present e.key (some e)) ∨
        ∃ block indexCap, s.insert e.key e = some (s, .need block indexCap)) ∧
      (∀ e, present e.key = some e → ∃ s' retired, s.remove e.key e = some (s', retired) ∧
        s'.lookup = Function.update present e.key none ∧ retired.length ≤ 2 ∧ s'.Gone retired) ∧
      (∀ i e asked block indexCap, w.loc i = .insert e (some asked) →
        s.insert e.key e = some (s, .need block indexCap) → asked < w.shared.inserted) ∧
      Turns w ∧
      ∀ i c, (w.step act i c).loc i = .fatal →
        w.loc i = .fatal ∨ ∃ e, w.loc i = .idle ∧ c.op = .remove e ∧ present e.key ≠ some e := by
  intro w s present
  have h : Invariant w := World.run_invariant (fun _ i c h => h.step i c) xs Invariant.start
  have hwf : s.Wf := h.sound.wf
  have hpresent : s.lookup = present := h.sound.present
  refine ⟨fun key => ?_, ⟨hwf.sorted, hwf.nodup, h.sound.mem_entries_iff⟩, fun e he => ?_,
    fun e he => ?_, fun e he => ?_, fun i e asked block indexCap hloc hneed => ?_, h.turns,
    fun i c hfatal => ?_⟩
  · rw [Shard.find_eq hwf key, hpresent]
  · obtain ⟨-, heq⟩ | ⟨hnone, -⟩ | ⟨hnone, -⟩ := Shard.insert_spec hwf e
    · exact heq
    · exact (he (hpresent ▸ hnone)).elim
    · exact (he (hpresent ▸ hnone)).elim
  · obtain ⟨hsome, -⟩ | ⟨-, s', heq, hins⟩ | ⟨-, -, heq⟩ := Shard.insert_spec hwf e
    · exact (hsome (hpresent ▸ he)).elim
    · exact .inl ⟨s', heq, hpresent ▸ hins.lookup⟩
    · exact .inr ⟨_, _, heq⟩
  · obtain ⟨s', retired, heq, hr⟩ := (Shard.remove_spec hwf e).1 (hpresent ▸ he)
    exact ⟨s', retired, heq, hpresent ▸ hr.lookup, hr.few, hr.gone⟩
  · have ha := h.assertion i
    rw [hloc] at ha
    obtain ⟨hle, hready⟩ := ha
    refine Nat.lt_of_le_of_ne hle fun hn => ?_
    obtain ⟨hspare, hroom⟩ := hready hn
    obtain ⟨-, heq⟩ | ⟨-, s', heq, -⟩ | ⟨-, hwhy, -⟩ := Shard.insert_spec hwf e
    · simp [heq] at hneed
    · simp [heq] at hneed
    · exact hwhy.elim hspare fun hno => hno hroom
  · rw [World.step_loc_self] at hfatal
    exact (act_spec c h.sound (h.assertion i)).abort hfatal

/-- Nothing is refused. -/
def granting (op : Op) : Choice := ⟨op, false, true, true⟩

def registerRoute (key turns : ℕ) : List (Unit × Choice) :=
  List.replicate turns ((), granting (.register ⟨key, key⟩))

def removeRoutes (keys : List ℕ) : List (Unit × Choice) :=
  keys.map fun key => ((), granting (.remove ⟨key, key⟩))

/-- The inserts of 0, 64 and 96 ask, and the last two split a block. -/
def splits : List (Unit × Choice) :=
  registerRoute 0 5 ++ (List.range' 1 63).flatMap (registerRoute · 2) ++ registerRoute 64 5 ++
    (List.range' 65 31).flatMap (registerRoute · 2) ++ registerRoute 96 5

/-- The first two blocks are merged, and the block that is left is thinned out with its neighbour. -/
def merges : List (Unit × Choice) :=
  removeRoutes (List.range 16 ++ List.range' 32 16 ++ List.range' 16 16 ++ List.range' 64 16)

/-- Three blocks become two and the displaced one is kept; the next removal merges the last two, and
retires a block. -/
theorem shard_exact_splits :
    (World.run act splits start).shared.shard.index = [0, 1, 2] ∧
    ∃ s, s = (World.run act (splits ++ merges) start).shared.shard ∧ s.index = [0, 2] ∧
      s.spare = some 1 ∧ s.find 80 = some (some ⟨80, 80⟩) ∧
      ∃ s' retired, s.remove 80 ⟨80, 80⟩ = some (s', retired) ∧ s'.index = [0] ∧ retired = [2] ∧
        s'.Gone retired := by
  obtain ⟨w, hw⟩ : ∃ w : World Unit State Loc, w = World.run act (splits ++ merges) start := ⟨_, rfl⟩
  have hexact := shard_exact (splits ++ merges)
  dsimp only at hexact
  rw [← hw] at hexact
  obtain ⟨hfind, -, -, -, hremove, -⟩ := hexact
  have hpresent : w.shared.present 80 = some ⟨80, 80⟩ := by
    rw [hw]
    decide +kernel
  obtain ⟨s', retired, heq, -, -, hgone⟩ := hremove ⟨80, 80⟩ hpresent
  have hmerged : ((w.shared.shard.remove 80 ⟨80, 80⟩).map fun p => (p.1.index, p.2)) =
      some ([0], [2]) := by
    rw [hw]
    decide +kernel
  rw [heq] at hmerged
  obtain ⟨hindex, hretired⟩ := Prod.mk.inj (Option.some.inj hmerged)
  have hsplit : (World.run act splits start).shared.shard.index = [0, 1, 2] := by decide +kernel
  have hkept : w.shared.shard.index = [0, 2] ∧ w.shared.shard.spare = some 1 := by
    rw [hw]
    decide +kernel
  exact ⟨hsplit, w.shared.shard, congrArg (fun w => w.shared.shard) hw, hkept.1, hkept.2,
    (hfind 80).trans (congrArg some hpresent), s', retired, heq, hindex, hretired, hgone⟩

end RouteShard
end SeferAlloc
