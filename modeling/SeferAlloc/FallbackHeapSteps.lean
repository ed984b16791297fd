import SeferAlloc.FallbackHeap

/-!
# What one action does to the fallback heap

The word of the initialization and the lock are resources: a thread that has one
is the only one that may write the heap. One inversion says what an action can
do to the heap, and everything that holds of a run is read off it.
-/
namespace SeferAlloc
namespace FallbackHeap
open Interleaving

/-- What a thread can own: the word of the initialization, or the lock. -/
inductive Key where
  | init
  | lock
deriving DecidableEq

variable {γ H : Type*}

/-- What a thread owns. -/
def Pc.key : Pc γ H → Option Key
  | .init _ | .write .. | .publish _ | .rollback _ => some .init
  | .acquired _ | .enter _ | .inside .. | .leave .. | .undefined => some .lock
  | _ => none

/-- The statics that the heap is behind. -/
structure Part (H : Type*) where
  initState : FallbackInitState
  fallback : Option H
  lock : Bool
  built : Option H
  done : List (H → H)

def Statics.part (x : Statics H) : Part H := ⟨x.initState, x.fallback, x.lock, x.built, x.done⟩

def hold (t : Thread γ H) : Option (Key × Unit) := t.pc.key.map (·, ())

def Part.taken (p : Part H) : Key → Bool
  | .init => p.initState = .initializing
  | .lock => p.lock

def view (x : Statics H) (k : Key) : Option Unit := if x.part.taken k then some () else none

/-- The heap is there for everybody. -/
structure Part.Open (p : Part H) : Prop where
  ready : p.initState = .ready
  heap : p.fallback ≠ none

/-- What a thread knows where it is. -/
def Knows (p : Part H) : Pc γ H → Prop
  | .init _ | .write .. | .rollback _ => p.fallback = none
  | .publish _ => p.fallback ≠ none
  | .acquire .. | .spin .. | .tryAcquire _ | .acquired _ | .enter _ | .leave .. => p.Open
  | .inside _ h => p.Open ∧ p.fallback = some h
  | .undefined => False
  | _ => True

/-- The heap is what it was built as, with everything done to it that was done since. -/
structure Part.Sound (p : Part H) : Prop where
  ready : p.initState = .ready → p.fallback ≠ none
  uninit : p.initState = .uninit → p.fallback = none
  served : p.fallback = p.built.map fun h => p.done.foldr (fun f h => f h) h
  fresh : p.fallback = none → p.done = []

/-- What an action can do. -/
inductive Does (p : Part H) (pc : Pc γ H) (p' : Part H) (pc' : Pc γ H) : Prop
  | keep (hp : p' = p) (hk : pc'.key = pc.key) (hn : Knows p pc → Knows p pc')
  | begin (config : Option γ) (hu : p.initState = .uninit) (hpc : pc = .compareExchange config)
      (hp : p' = { p with initState := .initializing }) (hpc' : pc' = .init config)
  | write (config : Option γ) (h : H) (hpc : pc = .write config h)
      (hp : p' = { p with fallback := some h, built := some h }) (hpc' : pc' = .publish config)
  | publish (config : Option γ) (hpc : pc = .publish config)
      (hp : p' = { p with initState := .ready }) (hpc' : pc' = .acquire config 0 0)
  | rollback (unwound : Bool) (hpc : pc = .rollback unwound) (hp : p' = { p with initState := .uninit })
      (hpc' : pc' = .idle)
  | take (call : Call γ) (hfree : p.lock = false) (hk : pc.key = none) (hn : Knows p pc → p.Open)
      (hp : p' = { p with lock := true }) (hpc' : pc' = .acquired call)
  | work (call : Call γ) (h : H) (f : H → H) (unwound : Bool) (hpc : pc = .inside call h)
      (hp : p' = { p with fallback := some (f h), done := f :: p.done })
      (hpc' : pc' = .leave call unwound)
  | drop (call : Call γ) (unwound : Bool) (hpc : pc = .leave call unwound)
      (hp : p' = { p with lock := false }) (hk : pc'.key = none) (hn : ∀ p, Knows p pc')

variable {x : Statics H} {t : Thread γ H} {liveConfigMatches : H → γ → Bool} {c : Chance γ H}

@[simp] lemma goto_pc (pc : Pc γ H) : (t.goto pc).pc = pc := rfl

lemma refused_pc (call : Call γ) : (t.refused call).pc = .idle ∨ (t.refused call).pc = .sample := by
  cases call with
  | visit trim => exact .inr rfl
  | withHeap config | tryWithHeap => exact .inl rfl

@[simp] lemma part_acquired (call : Call γ) : (x.acquired call).part = x.part := by
  cases call <;> rfl

/-- Only the count of conflicts is touched. -/
lemma compare_eq (liveConfigMatches : H → γ → Bool) (x : Statics H) (call : Call γ) (h : H) : ∃ n,
    x.compare liveConfigMatches call h = { x with configConflicts := n } := by
  cases call with
  | withHeap config =>
    cases config with
    | none => exact ⟨_, rfl⟩
    | some config =>
      rw [Statics.compare]
      split_ifs
      · exact ⟨_, rfl⟩
      · exact ⟨_, rfl⟩
  | tryWithHeap | visit trim => exact ⟨_, rfl⟩

@[simp] lemma part_compare (call : Call γ) (h : H) :
    (x.compare liveConfigMatches call h).part = x.part := by
  obtain ⟨n, hn⟩ := compare_eq liveConfigMatches x call h
  rw [hn]
  rfl

lemma begin_does (request : Request γ) (hpc : t.pc = .idle) :
    Does x.part t.pc (begin request x t).1.part (begin request x t).2.pc := by
  rw [hpc]
  cases request with
  | rest =>
    refine .keep rfl ?_ ?_ <;> simp [begin, hpc]
  | withHeap config | tryWithHeap => exact .keep rfl rfl fun _ => trivial
  | start =>
    simp only [begin]
    cases x.state <;> exact .keep rfl rfl fun _ => trivial
  | begin =>
    simp only [begin]
    split_ifs
    · refine .keep rfl ?_ ?_ <;> simp [hpc]
    · exact .keep rfl rfl fun _ => trivial

lemma refused_does (call : Call γ) (hk : t.pc.key = none) :
    Does x.part t.pc x.part (t.refused call).pc := by
  obtain h | h := refused_pc (t := t) call <;> rw [h] <;>
    exact .keep rfl (by rw [hk]; rfl) fun _ => trivial

lemma leave_does (call : Call γ) (unwound : Bool) (hpc : t.pc = .leave call unwound) :
    Does x.part t.pc (leave call unwound x t).1.part (leave call unwound x t).2.pc := by
  rw [hpc]
  refine .drop call unwound rfl ?_ ?_ ?_ <;>
    rcases call with config | _ | trim <;> cases unwound <;> first | rfl | exact fun _ => trivial

/-- Every action does one of these. -/
lemma act_does (hs : x.part.Sound) : Does x.part t.pc (act liveConfigMatches c x t).1.part
    (act liveConfigMatches c x t).2.pc := by
  rw [act]
  split_ifs
  · exact .keep rfl rfl id
  cases hpc : t.pc with
  | idle =>
    simp only [advance, hpc]
    exact hpc ▸ begin_does c.request hpc
  | load config =>
    simp only [advance, hpc, goto_pc]
    split_ifs with hr
    · exact .keep rfl rfl fun _ => ⟨hr, hs.ready hr⟩
    · exact .keep rfl rfl fun _ => trivial
  | compareExchange config =>
    simp only [advance, hpc]
    split_ifs with hu
    · exact .begin config hu rfl rfl rfl
    · exact .keep rfl rfl fun _ => trivial
  | init config =>
    simp only [advance, hpc, goto_pc]
    cases c.new <;> exact .keep rfl rfl id
  | write config h =>
    simp only [advance, hpc]
    exact .write config h rfl rfl rfl
  | publish config =>
    simp only [advance, hpc]
    exact .publish config rfl rfl rfl
  | rollback unwound =>
    simp only [advance, hpc]
    exact .rollback unwound rfl rfl rfl
  | wait config spins =>
    simp only [advance, hpc]
    split_ifs
    all_goals exact .keep rfl (by first | rfl | rw [hpc]) fun _ => by first | trivial | rw [hpc]; trivial
  | acquire config spins rounds =>
    simp only [advance, hpc]
    split_ifs with hl
    · exact .keep rfl rfl id
    · exact .take (.withHeap config) (Bool.eq_false_iff.mpr hl) rfl id rfl rfl
  | spin config spins rounds =>
    simp only [advance, hpc]
    split_ifs
    · exact .keep rfl rfl id
    · exact .keep rfl rfl id
    · exact .keep rfl rfl fun _ => trivial
    · exact .keep rfl rfl id
  | tryLoad call =>
    simp only [advance, hpc]
    split_ifs with hr
    · exact .keep rfl rfl fun _ => ⟨hr, hs.ready hr⟩
    · exact hpc ▸ refused_does call (by rw [hpc]; rfl)
  | tryAcquire call =>
    simp only [advance, hpc]
    split_ifs with hl
    · exact hpc ▸ refused_does call (by rw [hpc]; rfl)
    · exact .take call (Bool.eq_false_iff.mpr hl) rfl id rfl rfl
  | acquired call =>
    simp only [advance, hpc]
    exact .keep (part_acquired call) rfl id
  | enter call =>
    simp only [advance, hpc]
    cases hf : x.fallback with
    | none => exact .keep rfl rfl fun ho => ho.heap hf
    | some h => exact .keep (part_compare call h) rfl fun ho => ⟨ho, hf⟩
  | inside call h =>
    simp only [advance, hpc]
    exact .work call h c.body c.unwinds rfl rfl rfl
  | leave call unwound =>
    simp only [advance, hpc]
    exact hpc ▸ leave_does call unwound hpc
  | undefined | unwinding =>
    simp only [advance, hpc]
    exact .keep rfl rfl id
  | spawning =>
    simp only [advance, hpc]
    split_ifs <;> exact .keep rfl rfl fun _ => trivial
  | confirm =>
    simp only [advance, hpc]
    split_ifs
    all_goals exact .keep rfl (by first | rfl | rw [hpc]) fun _ => by first | trivial | rw [hpc]; trivial
  | announce =>
    simp only [advance, hpc]
    exact .keep rfl rfl fun _ => trivial
  | sample =>
    simp only [advance, hpc]
    exact .keep rfl rfl fun _ => trivial

/-! ## The heap -/

lemma hold_of_key {k : Key} (h : t.pc.key = some k) : hold t = some (k, ()) := by rw [hold, h]; rfl

lemma hold_of_none (h : t.pc.key = none) : hold t = none := by rw [hold, h]; rfl

lemma view_eq_some {k : Key} : view x k = some () ↔ x.part.taken k = true := by simp [view]

lemma view_eq_none {k : Key} : view x k = none ↔ x.part.taken k = false := by simp [view]

variable {x' : Statics H} {t' : Thread γ H}

lemma view_update (k : Key) (b : Bool) (hk : x'.part.taken k = b)
    (ho : ∀ k', k' ≠ k → x'.part.taken k' = x.part.taken k') :
    view x' = Function.update (view x) k (if b then some () else none) := by
  funext k'
  by_cases he : k' = k
  · subst he
    rw [Function.update_self, view, hk]
  · rw [Function.update_of_ne he, view, view, ho k' he]

lemma view_congr (h : ∀ k, x'.part.taken k = x.part.taken k) : view x' = view x :=
  funext fun k => by rw [view, view, h k]

/-- An action is a move of the keys. -/
lemma Does.move (hd : Does x.part t.pc x'.part t'.pc) : Move hold view x x' t t' := by
  cases hd with
  | keep hp hk hn =>
    exact .keep (view_congr fun k => by rw [hp]) (by rw [hold, hold, hk])
  | begin config hu hpc hp hpc' =>
    refine .acquire .init () (hold_of_none (by rw [hpc]; rfl)) ?_ ?_ (hold_of_key (by rw [hpc']; rfl))
    · rw [view_eq_none, Part.taken, hu]
      rfl
    · refine view_update .init true (by rw [hp]; rfl) fun k' hk' => ?_
      cases k' with
      | init => exact absurd rfl hk'
      | lock => rw [hp]; rfl
  | write config h hpc hp hpc' =>
    refine .keep (view_congr fun k => ?_) (by rw [hold, hold, hpc, hpc']; rfl)
    cases k <;> rw [hp] <;> rfl
  | publish config hpc hp hpc' =>
    refine .release .init () (hold_of_key (by rw [hpc]; rfl)) ?_ (hold_of_none (by rw [hpc']; rfl))
    refine view_update .init false (by rw [hp]; rfl) fun k' hk' => ?_
    cases k' with
    | init => exact absurd rfl hk'
    | lock => rw [hp]; rfl
  | rollback unwound hpc hp hpc' =>
    refine .release .init () (hold_of_key (by rw [hpc]; rfl)) ?_ (hold_of_none (by rw [hpc']; rfl))
    refine view_update .init false (by rw [hp]; rfl) fun k' hk' => ?_
    cases k' with
    | init => exact absurd rfl hk'
    | lock => rw [hp]; rfl
  | take call hfree hk hn hp hpc' =>
    refine .acquire .lock () (hold_of_none hk) (view_eq_none.mpr hfree) ?_
      (hold_of_key (by rw [hpc']; rfl))
    refine view_update .lock true (by rw [hp]; rfl) fun k' hk' => ?_
    cases k' with
    | init => rw [hp]; rfl
    | lock => exact absurd rfl hk'
  | work call h f unwound hpc hp hpc' =>
    refine .keep (view_congr fun k => ?_) (by rw [hold, hold, hpc, hpc']; rfl)
    cases k <;> rw [hp] <;> rfl
  | drop call unwound hpc hp hk hn =>
    refine .release .lock () (hold_of_key (by rw [hpc]; rfl)) ?_ (hold_of_none hk)
    refine view_update .lock false (by rw [hp]; rfl) fun k' hk' => ?_
    cases k' with
    | init => rw [hp]; rfl
    | lock => exact absurd rfl hk'

variable {p p' : Part H} {pc pc' : Pc γ H}

/-- The actor still knows where it is. -/
lemma Does.knows (hd : Does p pc p' pc') (hn : Knows p pc) (hs : p.Sound) : Knows p' pc' := by
  cases hd with
  | keep hp hk hn' => exact hp ▸ hn' hn
  | begin config hu hpc hp hpc' =>
    subst hp hpc'
    exact hs.uninit hu
  | write config h hpc hp hpc' =>
    subst hp hpc'
    exact Option.some_ne_none h
  | publish config hpc hp hpc' =>
    subst hp hpc hpc'
    exact ⟨rfl, hn⟩
  | rollback unwound hpc hp hpc' =>
    subst hpc'
    trivial
  | take call hfree hk hn' hp hpc' =>
    subst hp hpc'
    exact ⟨(hn' hn).ready, (hn' hn).heap⟩
  | work call h f unwound hpc hp hpc' =>
    subst hp hpc hpc'
    exact ⟨hn.1.ready, Option.some_ne_none _⟩
  | drop call unwound hpc hp hk hn' => exact hn' p'

/-- An action keeps the heap sound. -/
lemma Does.sound (hd : Does p pc p' pc') (hn : Knows p pc) (hs : p.Sound)
    (hm : ∀ k, pc.key = some k → p.taken k = true) : p'.Sound := by
  cases hd with
  | keep hp hk hn' => exact hp ▸ hs
  | begin config hu hpc hp hpc' =>
    subst hp
    exact ⟨fun h => (by cases h), fun h => (by cases h), hs.served, hs.fresh⟩
  | write config h hpc hp hpc' =>
    subst hp hpc
    have hi : p.initState = .initializing := by simpa [Part.taken] using hm .init rfl
    refine ⟨fun _ => Option.some_ne_none h, fun hu => ?_, ?_, fun h => by cases h⟩
    · exact absurd (hi.symm.trans hu) (by decide)
    · simp [hs.fresh hn]
  | publish config hpc hp hpc' =>
    subst hp hpc
    exact ⟨fun _ => hn, fun h => (by cases h), hs.served, hs.fresh⟩
  | rollback unwound hpc hp hpc' =>
    subst hp hpc
    exact ⟨fun h => (by cases h), fun _ => hn, hs.served, hs.fresh⟩
  | take call hfree hk hn' hp hpc' =>
    subst hp
    exact ⟨hs.ready, hs.uninit, hs.served, hs.fresh⟩
  | work call h f unwound hpc hp hpc' =>
    subst hp hpc
    have hready := hn.1.ready
    refine ⟨fun _ => Option.some_ne_none _, fun hu => ?_, ?_, fun h => by cases h⟩
    · exact absurd (hready.symm.trans hu) (by decide)
    · have hserved := hs.served
      rw [hn.2] at hserved
      obtain ⟨b, hb, hfold⟩ := Option.map_eq_some_iff.mp hserved.symm
      simp [hb, hfold]
  | drop call unwound hpc hp hk hn' =>
    subst hp
    exact ⟨hs.ready, hs.uninit, hs.served, hs.fresh⟩

/-- Once it is there, the heap stays and is only worked on. -/
structure Part.Later (p p' : Part H) : Prop where
  ready : p.initState = .ready → p'.initState = .ready
  built : p.initState = .ready → p'.built = p.built
  done : p.done <:+ p'.done

lemma Part.Later.refl (p : Part H) : p.Later p := ⟨id, fun _ => rfl, List.suffix_rfl⟩

lemma Part.Later.trans {q : Part H} (h : p.Later p') (h' : p'.Later q) : p.Later q :=
  ⟨fun hr => h'.ready (h.ready hr), fun hr => (h'.built (h.ready hr)).trans (h.built hr),
    h.done.trans h'.done⟩

lemma Does.later (hd : Does p pc p' pc') (hm : ∀ k, pc.key = some k → p.taken k = true) :
    p.Later p' := by
  -- Who owns the word of the initialization has not published.
  have busy : pc.key = some .init → p.initState ≠ .ready := fun hk hr => by
    have ht := hm .init hk
    simp [Part.taken, hr] at ht
  cases hd with
  | keep hp hk hn' => exact hp ▸ .refl p
  | begin config hu hpc hp hpc' =>
    subst hp
    exact ⟨fun hr => absurd (hu.symm.trans hr) (by decide), fun _ => rfl, List.suffix_rfl⟩
  | write config h hpc hp hpc' =>
    subst hp hpc
    exact ⟨id, fun hr => absurd hr (busy rfl), List.suffix_rfl⟩
  | publish config hpc hp hpc' =>
    subst hp
    exact ⟨fun _ => rfl, fun _ => rfl, List.suffix_rfl⟩
  | rollback unwound hpc hp hpc' =>
    subst hp hpc
    exact ⟨fun hr => absurd hr (busy rfl), fun _ => rfl, List.suffix_rfl⟩
  | take call hfree hk hn' hp hpc' | drop call unwound hpc hp hk hn' =>
    subst hp
    exact ⟨id, fun _ => rfl, List.suffix_rfl⟩
  | work call h f unwound hpc hp hpc' =>
    subst hp
    exact ⟨id, fun _ => rfl, List.suffix_cons ..⟩

/-- Only an owner writes the heap, and it never takes it away. -/
lemma Does.fallback (hd : Does p pc p' pc') (hn : Knows p pc) : p'.fallback = p.fallback ∨
    p'.fallback ≠ none ∧ (pc.key = some .init ∨ pc.key = some .lock ∧ p.Open) := by
  cases hd with
  | keep hp hk hn' => exact .inl (hp ▸ rfl)
  | begin config hu hpc hp hpc' | publish config hpc hp hpc' | rollback unwound hpc hp hpc' =>
    exact .inl (hp ▸ rfl)
  | take call hfree hk hn' hp hpc' | drop call unwound hpc hp hk hn' => exact .inl (hp ▸ rfl)
  | write config h hpc hp hpc' =>
    subst hp hpc
    exact .inr ⟨Option.some_ne_none _, .inl rfl⟩
  | work call h f unwound hpc hp hpc' =>
    subst hp hpc
    exact .inr ⟨Option.some_ne_none _, .inr ⟨rfl, hn.1⟩⟩

/-- What a thread knows stays true while others act, as they own other keys. -/
lemma Does.rely (hd : Does p pc p' pc') (hn : Knows p pc)
    (hm : ∀ k, pc.key = some k → p.taken k = true) {other : Pc γ H}
    (ho : Knows p other) (hmo : ∀ k, other.key = some k → p.taken k = true)
    (hapart : ∀ k, other.key = some k → pc.key ≠ some k) : Knows p' other := by
  have hlater := hd.later hm
  have hfallback := hd.fallback hn
  have opens : p.Open → p'.Open := fun h => by
    refine ⟨hlater.ready h.ready, ?_⟩
    obtain he | ⟨hne, -⟩ := hfallback
    · exact he ▸ h.heap
    · exact hne
  -- While the word of the initialization is another's, nobody writes.
  have unwritten : other.key = some .init → p'.fallback = p.fallback := fun hk => by
    obtain he | ⟨-, hk' | ⟨-, hopen⟩⟩ := hfallback
    · exact he
    · exact absurd hk' (hapart _ hk)
    · have ht := hmo .init hk
      simp [Part.taken, hopen.ready] at ht
  cases other with
  | init | write | rollback => exact (unwritten rfl).trans ho
  | publish config =>
    change p'.fallback ≠ none
    rw [unwritten rfl]
    exact ho
  | acquire | spin | tryAcquire | acquired | enter | leave => exact opens ho
  | inside call h =>
    refine ⟨opens ho.1, ?_⟩
    obtain he | ⟨-, hk' | ⟨hk', -⟩⟩ := hfallback
    · exact he.trans ho.2
    · have ht := hm .init hk'
      simp [Part.taken, ho.1.ready] at ht
    · exact absurd hk' (hapart _ rfl)
  | undefined => exact ho
  | idle | load | compareExchange | wait | tryLoad | spawning | confirm | announce | sample
  | unwinding => trivial

/-! ## Runs -/

variable {ι : Type*} [DecidableEq ι] {w : World ι (Statics H) (Thread γ H)}

/-- What every state of a run has. -/
structure Inv (w : World ι (Statics H) (Thread γ H)) : Prop where
  owned : Owned hold view w
  knows : ∀ j, Knows w.shared.part (w.loc j).pc
  sound : w.shared.part.Sound

omit [DecidableEq ι] in
lemma Inv.taken (hi : Inv w) {j : ι} {k : Key} (hk : (w.loc j).pc.key = some k) :
    w.shared.part.taken k = true :=
  view_eq_some.mp (hi.owned.mode j k () (hold_of_key hk))

omit [DecidableEq ι] in
lemma Inv.unique (hi : Inv w) {i j : ι} {k : Key} (h₁ : (w.loc i).pc.key = some k)
    (h₂ : (w.loc j).pc.key = some k) : i = j :=
  hi.owned.unique i j k () () (hold_of_key h₁) (hold_of_key h₂)

omit [DecidableEq ι] in
lemma Inv.owner (hi : Inv w) {k : Key} (h : w.shared.part.taken k = true) :
    ∃ j, (w.loc j).pc.key = some k := by
  obtain ⟨j, hj⟩ := hi.owned.owner k () (view_eq_some.mpr h)
  refine ⟨j, ?_⟩
  obtain ⟨k', hk', he⟩ := Option.map_eq_some_iff.mp hj
  rw [hk', (Prod.mk.inj he).1]

lemma Inv.does (hi : Inv w) (liveConfigMatches : H → γ → Bool) (i : ι) (c : Chance γ H) :
    Does w.shared.part (w.loc i).pc (w.step (act liveConfigMatches) i c).shared.part
      ((w.step (act liveConfigMatches) i c).loc i).pc := by
  rw [World.step_loc_self]
  exact act_does hi.sound

/-- One action keeps the invariant. -/
lemma Inv.step (hi : Inv w) (liveConfigMatches : H → γ → Bool) (i : ι) (c : Chance γ H) :
    Inv (w.step (act liveConfigMatches) i c) := by
  have hd : Does w.shared.part (w.loc i).pc (act liveConfigMatches c w.shared (w.loc i)).1.part
      (act liveConfigMatches c w.shared (w.loc i)).2.pc := act_does hi.sound
  refine ⟨hi.owned.step hd.move, ?_, hd.sound (hi.knows i) hi.sound fun k => hi.taken⟩
  refine World.step_forall (A := fun (x : Statics H) (t : Thread γ H) => Knows x.part t.pc) hi.knows
    (hd.knows (hi.knows i) hi.sound) fun j hj hn => ?_
  exact hd.rely (hi.knows i) (fun k => hi.taken) hn (fun k => hi.taken) fun k hk hk' =>
    hj (hi.unique hk hk')

omit [DecidableEq ι] in
lemma Inv.start : Inv (start ι γ H) := by
  refine ⟨⟨?_, ?_, ?_⟩, fun j => trivial, ⟨fun h => ?_, fun _ => rfl, rfl, fun _ => rfl⟩⟩
  · rintro i s h ⟨⟩
  · rintro i j s h h' ⟨⟩
  · intro s h hs
    cases s <;> cases hs
  · cases h

lemma run_inv (liveConfigMatches : H → γ → Bool) (xs : List (ι × Chance γ H)) :
    Inv (World.run (act liveConfigMatches) xs (FallbackHeap.start ι γ H)) :=
  World.run_invariant (I := Inv) (fun _ i c hi => hi.step liveConfigMatches i c) xs .start

end FallbackHeap

end SeferAlloc
