import SeferAlloc.LargeGeometry

/-!
# The ends of a Large allocation

An allocation is served from the cache or goes to the OS, and a hit that cannot
be served goes to the OS as well, after its segment was given back. Each end is
described by the state it leaves.
-/
namespace SeferAlloc
namespace LargeHeap
open LargeCache CacheLedger
open AlignedVmem (Target Os World)
open LargeReservation (pack maxLargeGeneration)
open SeferAlloc.Small (alignUp)

namespace Heap
variable {h h' : Heap} {b : Build} {base idx size align usable off : ℕ} {x : CachedLarge}
  {o : Answers}

/-- The entry of a slot leaves the cache and the byte counter. -/
structure Withdrawn (idx : ℕ) (x : CachedLarge) (h h' : Heap) : Prop where
  slots : h'.cache.slotGet = Function.update h.cache.slotGet idx none
  used : h'.cache.usedBytes + x.usableSize = h.cache.usedBytes

/-- The segment of a hit is in use again. -/
structure Reused (idx : ℕ) (x : CachedLarge) (size align off : ℕ) (h h' : Heap) : Prop where
  withdrawn : Withdrawn idx x h h'
  build : h'.build = h.build
  registered : h'.registered = Function.update h.registered x.base true
  header : SameBody
    { h.header x.base with largeSize := size, largeAlign := align, payloadOffset := off }
    (h'.header x.base)
  others : ∀ a ≠ x.base, h'.header a = h.header a
  log : h'.log = h.log ++ [.reused (entry x) h.cache.usedBytes]

/-- The segment of a hit was given back to the OS. -/
structure Discarded (idx : ℕ) (x : CachedLarge) (h h' : Heap) : Prop where
  wf : h'.cache.Wf
  withdrawn : Withdrawn idx x h h'
  build : h'.build = h.build
  registered : h'.registered = h.registered
  phase : h'.phase x.base = some .released
  others : ∀ a ≠ x.base, h'.header a = h.header a
  log : h'.log = h.log ++ [.discarded (entry x) h.cache.usedBytes]

/-- A hit is served, or its segment is given back and the slow path begins. -/
lemma serveHit_ends (hi : h.Inv none) (o : Answers) (size align usable off : ℕ)
    (hx : h.cache.slotGet idx = some x) :
    (∃ h', h.serveHit o size align usable off idx = some (some (x.base + off, false), h') ∧
      Reused idx x size align off h h') ∨
    ∃ h₁, Discarded idx x h h₁ ∧
      h.serveHit o size align usable off idx = some (h₁.allocLargeSlow o size align usable off) := by
  obtain ⟨c, htake, hwf, hle, hget, hf⟩ := hi.wf.withdraw hx
  have hidle := hi.idle idx x hx
  have hused : c.usedBytes - x.usableSize + x.usableSize = h.cache.usedBytes := by
    rw [hf.usedBytes]
    exact Nat.sub_add_cancel hle
  obtain ⟨-, hnone⟩ | ⟨g, hg, hsome⟩ := beginLargeReuse_spec (h := h.setCache c) hidle
  · have hw : (h.header x.base).largeState = pack .cached (h.generationOf x.base) := eq_pack hidle
    have hle' : h.generationOf x.base ≤ maxLargeGeneration := LargeReservation.largeGeneration_le _
    set h₁ := h.setCache (c.subUsed x.usableSize)
    have htr := transition_eq (h := h₁) (t := .releaseCached) hle' rfl hw
    refine .inr ⟨(h₁.setState x.base (pack .released (h.generationOf x.base))).emit
      (.discarded (entry x) h.cache.usedBytes), ⟨hwf, ⟨hget, hused⟩, rfl, rfl,
        phase_setState h₁ _ _ hle', fun a ha => setState_header_of_ne h₁ ha _, rfl⟩, ?_⟩
    rw [serveHit, htake]
    simp only [Option.bind_eq_bind, Option.bind_some, hnone]
    change (h₁.transition x.base .releaseCached (h.generationOf x.base)).bind _ = _
    rw [htr]
    rfl
  · have hq := (hwf.adaptiveExt fun a => a.noteHit x.usableSize).1
    set h₁ := ((((h.setCache c).setState x.base (pack .initializing g)).setCache
      (c.subUsed x.usableSize)).setCache
        ((c.subUsed x.usableSize).noteHit x.usableSize)).rewriteHeader x.base size align off
      with hh₁
    have hself : h₁.header x.base = { h.header x.base with
        largeSize := size, largeAlign := align, payloadOffset := off,
        largeState := pack .initializing g } := by
      rw [hh₁, rewriteHeader]
      simp only [Function.update_self]
      change { (Function.update h.header x.base _ x.base : LargeHeader) with
        largeSize := size, largeAlign := align, payloadOffset := off } = _
      rw [Function.update_self]
      rfl
    have hw : (h₁.header x.base).largeState = pack .initializing g := by rw [hself]
    have hothers : ∀ a ≠ x.base, h₁.header a = h.header a := fun a ha =>
      (Function.update_of_ne ha _ _).trans (setState_header_of_ne h ha _)
    have hslots : h₁.cache.slotGet = Function.update h.cache.slotGet idx none :=
      hq.slotGet.trans hget
    have husedBytes : h₁.cache.usedBytes + x.usableSize = h.cache.usedBytes := by
      rw [← hused]
      exact congrArg (· + x.usableSize) hq.usedBytes
    rw [serveHit, htake]
    simp only [Option.bind_eq_bind, Option.bind_some, hsome]
    split_ifs with hreg
    · set h₂ : Heap := { h₁ with registered := Function.update h₁.registered x.base true }
      have htr := transition_eq (h := h₂) (t := .finishReuse) hg rfl hw
      refine .inl ⟨(h₂.setState x.base (pack .live g)).emit
        (.reused (entry x) h.cache.usedBytes), ?_, ⟨hslots, husedBytes⟩, rfl, rfl, ?_,
        fun a ha => (setState_header_of_ne h₂ ha _).trans (hothers a ha), rfl⟩
      · change (h₂.transition x.base .finishReuse g).bind _ = _
        rw [htr]
        rfl
      · have hbody := sameBody_setState h₂ x.base (pack .live g) x.base
        rw [SameBody] at hbody ⊢
        change (h₂.setState x.base (pack .live g)).header x.base = _ at hbody
        change (h₂.setState x.base (pack .live g)).header x.base = _
        rw [hbody, show h₂.header x.base = _ from hself]
        rfl
    · have htr := transition_eq (h := h₁) (t := .releaseInitializing) hg rfl hw
      refine .inr ⟨(h₁.setState x.base (pack .released g)).emit
        (.discarded (entry x) h.cache.usedBytes), ⟨hq.wf, ⟨hslots, husedBytes⟩, rfl, rfl,
          phase_setState h₁ _ _ hg, fun a ha => (setState_header_of_ne h₁ ha _).trans
            (hothers a ha), rfl⟩, ?_⟩
      change (h₁.transition x.base .releaseInitializing g).bind _ = _
      rw [htr]
      rfl

/-! ## The slow path -/

/-- Neither the table nor the cache refers to the segment. -/
structure Gone (base : ℕ) (h : Heap) : Prop where
  table : h.registered base = false
  cache : ∀ i x, h.cache.slotGet i = some x → x.base ≠ base

/-- A reservation the table had no room for was given back. -/
structure TurnedDown (base : ℕ) (h h' : Heap) : Prop where
  free : Gone base h
  cache : h'.cache = h.cache
  build : h'.build = h.build
  registered : h'.registered = h.registered
  header : h'.header = h.header
  log : h'.log = h.log ++ [.granted base, .returned base]

/-- A new reservation is in use. -/
structure Obtained (r : Reservation) (size align usable off : ℕ) (h h' : Heap) : Prop where
  free : Gone r.base h
  cache : h'.cache = h.cache
  build : h'.build = h.build
  registered : h'.registered = Function.update h.registered r.base true
  header : h'.header r.base = ⟨size, align, off, usable, reservedCapacityTarget h.build usable,
    r.reservation, r.reservationLen, pack .live 1⟩
  others : ∀ a ≠ r.base, h'.header a = h.header a
  log : h'.log = h.log ++ [.granted r.base]

lemma allocLargeSlow_ends (hw : h.cache.Wf) (o : Answers) (size align usable off : ℕ) :
    h.allocLargeSlow o size align usable off = (none, h) ∨
    (∃ base h', h.allocLargeSlow o size align usable off = (none, h') ∧ TurnedDown base h h') ∨
    ∃ r h', h.allocLargeSlow o size align usable off = (some (r.base + off, true), h') ∧
      o.reserved = some r ∧ Obtained r size align usable off h h' := by
  rw [allocLargeSlow]
  cases hgrant : h.grant o.reserved with
  | none => exact .inl rfl
  | some r =>
      right
      obtain ⟨hr, hfree⟩ := Option.filter_eq_some_iff.mp hgrant
      rw [decide_eq_true_eq] at hfree
      have hgone : Gone r.base h := ⟨hfree.1, fun i x hx => hfree.2 i (hw.lt_total hx) x hx⟩
      dsimp only
      split_ifs
      · refine .inr ⟨r, _, rfl, hr, hgone, rfl, rfl, rfl, ?_, fun a ha => ?_, rfl⟩
        · simp only [emit, Function.update_self]
        · exact Function.update_of_ne ha _ _
      · exact .inl ⟨r.base, _, rfl, hgone, rfl, rfl, rfl, rfl, List.append_assoc _ _ _⟩

/-! ## Blocks -/

/-- A block of the segment `base`: it fits the usable span, is aligned, and lies inside the
reservation. -/
structure Block (size align p base : ℕ) (h : Heap) : Prop where
  registered : h.registered base = true
  ptr : p = base + (h.header base).payloadOffset
  size : (h.header base).payloadOffset + size ≤ (h.header base).spanUsable
  aligned : align ∣ p
  below : (h.header base).reservation ≤ base
  inside : base + (h.header base).spanUsable ≤
    (h.header base).reservation + (h.header base).reservationLen

lemma spanOf_room (hpage : 0 < b.pageSize) (hspan : spanOf b size align = some usable) :
    largePayloadOffset b align + size ≤ usable := by
  rw [spanOf] at hspan
  split_ifs at hspan
  all_goals
    obtain rfl := Option.some.inj hspan
    apply le_alignUp
  · exact hpage
  · decide

lemma dvd_of_isPowerOfTwo {m n : ℕ} (hm : m.isPowerOfTwo) (hn : n.isPowerOfTwo) (hle : m ≤ n) :
    m ∣ n := by
  obtain ⟨i, rfl⟩ := hm
  obtain ⟨j, rfl⟩ := hn
  exact Nat.pow_dvd_pow 2 ((Nat.pow_le_pow_iff_right (by decide)).mp hle)

lemma dvd_segment {align : ℕ} (ha : align.isPowerOfTwo) (halign : align < segment) :
    align ∣ segment := dvd_of_isPowerOfTwo ha ⟨22, rfl⟩ halign.le

lemma dvd_largePayloadOffset (ha : align.isPowerOfTwo) (hp : b.pageSize.isPowerOfTwo)
    (halign : align < segment) : align ∣ largePayloadOffset b align := by
  rw [largePayloadOffset, if_neg (not_le.mpr halign), alignUp]
  apply Nat.dvd_mul_left_of_dvd
  rcases le_total align b.pageSize with hle | hle
  · rw [max_eq_right hle]
    exact dvd_of_isPowerOfTwo ha hp hle
  · rw [max_eq_left hle]

lemma le_reservedCapacityTarget (b : Build) (usable : ℕ) :
    usable ≤ reservedCapacityTarget b usable := by
  rw [reservedCapacityTarget]
  split_ifs
  · exact le_max_right _ _
  · exact le_rfl

lemma Reused.block (hr : Reused idx x size align (largePayloadOffset b align) h h')
    (hg : h.Geometry b none) (hx : h.cache.slotGet idx = some x) (hfit : usable ≤ x.usableSize)
    (ha : align.isPowerOfTwo) (hp : b.pageSize.isPowerOfTwo) (halign : align < segment)
    (hspan : spanOf b size align = some usable) :
    Block size align (x.base + largePayloadOffset b align) x.base h' := by
  obtain ⟨hmap, hcopy, hseg⟩ := hg.cached idx x hx
  have hroom := spanOf_room (Nat.pos_of_isPowerOfTwo hp) hspan
  have hsize := hcopy.usableSize
  have hheader := hr.header
  rw [SameBody] at hheader
  refine ⟨by rw [hr.registered, Function.update_self], by rw [hheader], ?_, ?_, ?_, ?_⟩
  · rw [hheader]
    dsimp only
    omega
  · exact Nat.dvd_add ((dvd_segment ha halign).trans hseg) (dvd_largePayloadOffset ha hp halign)
  · rw [hheader]
    exact hmap.below
  · rw [hheader]
    exact (Nat.add_le_add_left hmap.span _).trans hmap.inside

lemma Obtained.block {r : Reservation}
    (hob : Obtained r size align usable (largePayloadOffset b align) h h') (hb : h.build = b)
    (hres : Reserved b usable align (largePayloadOffset b align) r) (ha : align.isPowerOfTwo)
    (hp : b.pageSize.isPowerOfTwo) (hspan : spanOf b size align = some usable) :
    Block size align (r.base + largePayloadOffset b align) r.base h' := by
  have hheader := hob.header
  rw [hb] at hheader
  refine ⟨by rw [hob.registered, Function.update_self], by rw [hheader], ?_, ?_, ?_, ?_⟩
  · rw [hheader]
    exact spanOf_room (Nat.pos_of_isPowerOfTwo hp) hspan
  · by_cases halign : segment ≤ align
    · exact hres.payload halign
    · have hlt := not_le.mp halign
      exact Nat.dvd_add ((dvd_segment ha hlt).trans (hres.base hlt))
        (dvd_largePayloadOffset ha hp hlt)
  · rw [hheader]
    exact hres.below
  · rw [hheader]
    exact (Nat.add_le_add_left (le_reservedCapacityTarget b usable) _).trans hres.inside

/-! ## The whole allocation -/

/-- The cached segment that has to serve the request. -/
def Chooses (h : Heap) (size align idx : ℕ) (x : CachedLarge) : Prop :=
  ∃ usable, spanOf h.build size align = some usable ∧ align < segment ∧
    h.cache.Selects usable idx x

/-- The release of the segment of a hit that was not served. -/
def discards (h : Heap) (lost : Option CachedLarge) : List (Event ℕ) :=
  lost.toList.map fun x => .discarded (entry x) h.cache.usedBytes

/-- The request of a segment that was turned down, and its release. -/
def turnsDown (refused : Option ℕ) : List (Event ℕ) :=
  refused.toList.flatMap fun base => [.granted base, .returned base]

/-- The heap in which the slow path begins: a hit that was not served is behind it. -/
structure Begun (size align : ℕ) (lost : Option CachedLarge) (h h' : Heap) : Prop where
  build : h'.build = h.build
  registered : h'.registered = h.registered
  log : h'.log = h.log ++ h.discards lost
  header : ∀ a, (∀ x ∈ lost, x.base ≠ a) → h'.header a = h.header a
  gone : ∀ x ∈ lost, Gone x.base h' ∧ h'.phase x.base = some .released
  slots : ∀ i y, h'.cache.slotGet i = some y → h.cache.slotGet i = some y
  chosen : ∀ x, lost = some x ↔ ∃ idx, h.Chooses size align idx x
  withdrawn : ∀ idx x, h.Chooses size align idx x → Withdrawn idx x h h'
  untouched : (∀ idx x, ¬h.Chooses size align idx x) →
    h'.cache.slotGet = h.cache.slotGet ∧ h'.cache.usedBytes = h.cache.usedBytes

/-- What an allocation does, from the heap its decay step left. -/
structure Allocated (size align : ℕ) (h : Heap) (r : Option (ℕ × Bool) × Heap) : Prop where
  /-- A block is well placed, wherever it comes from. -/
  block : ∀ p fresh, r.1 = some (p, fresh) → ∃ base, Block size align p base r.2
  /-- A block from the cache is in the chosen segment, whose span and capacity it keeps. -/
  hit : ∀ p, r.1 = some (p, false) → ∃ idx x, h.Chooses size align idx x ∧
    p = x.base + (r.2.header x.base).payloadOffset ∧
    (r.2.header x.base).spanUsable = x.usableSize ∧
    (r.2.header x.base).reservedCapacity = x.reservedCapacity ∧
    r.2.log = h.log ++ [.reused (entry x) h.cache.usedBytes]
  /-- The chosen entry leaves the cache and the counter, whether it serves or not. -/
  withdrawn : ∀ idx x, h.Chooses size align idx x → Withdrawn idx x h r.2
  untouched : (∀ idx x, ¬h.Chooses size align idx x) →
    r.2.cache.slotGet = h.cache.slotGet ∧ r.2.cache.usedBytes = h.cache.usedBytes
  /-- A block from the OS, after the chosen segment was given back. -/
  replaced : ∀ p, r.1 = some (p, true) → ∃ lost base,
    (∀ x, lost = some x ↔ ∃ idx, h.Chooses size align idx x) ∧
    r.2.log = h.log ++ h.discards lost ++ [.granted base] ∧ Block size align p base r.2 ∧
    ∀ x ∈ lost, x.base ≠ base → Gone x.base r.2 ∧ r.2.phase x.base = some .released
  /-- Without a block, what was held is given back once, and nothing refers to it. -/
  failed : r.1 = none → r.2.registered = h.registered ∧ ∃ lost refused,
    (∀ x, lost = some x ↔ ∃ idx, h.Chooses size align idx x) ∧
    r.2.log = h.log ++ h.discards lost ++ turnsDown refused ∧
    (∀ x ∈ lost, Gone x.base r.2 ∧ r.2.phase x.base = some .released) ∧
    (∀ base ∈ refused, Gone base r.2) ∧
    ∀ a, (∀ x ∈ lost, x.base ≠ a) → r.2.header a = h.header a

/-- A request whose span overflows fails at once. -/
lemma allocated_overflow (hspan : spanOf h.build size align = none) :
    Allocated size align h (none, h) := by
  have hno : ∀ idx x, ¬h.Chooses size align idx x := by
    rintro idx x ⟨usable, hsome, -⟩
    rw [hspan] at hsome
    contradiction
  refine ⟨nofun, nofun, fun idx x hx => absurd hx (hno idx x), fun _ => ⟨rfl, rfl⟩, nofun,
    fun _ => ⟨rfl, none, none, fun x => ?_, ?_, nofun, nofun, fun _ _ => rfl⟩⟩
  · exact iff_of_false nofun fun ⟨idx, hx⟩ => hno idx x hx
  · simp [discards, turnsDown]

lemma Reused.allocated (hr : Reused idx x size align (largePayloadOffset b align) h h')
    (hg : h.Geometry b none) (hx : h.cache.Selects usable idx x) (ha : align.isPowerOfTwo)
    (hp : b.pageSize.isPowerOfTwo) (halign : align < segment)
    (hspan : spanOf b size align = some usable) :
    Allocated size align h (some (x.base + largePayloadOffset b align, false), h') := by
  have hchooses : h.Chooses size align idx x := ⟨usable, by rwa [hg.build], halign, hx⟩
  have hheader := hr.header
  rw [SameBody] at hheader
  have hcopy := (hg.cached idx x hx.slot).2.1
  refine ⟨fun p fresh hres => ?_, fun p hres => ⟨idx, x, hchooses, ?_, ?_, ?_, hr.log⟩,
    fun j y hy => ?_, fun hno => absurd hchooses (hno idx x), fun p hres => ?_,
    fun hnone => absurd hnone (Option.some_ne_none _)⟩
  · obtain ⟨rfl, -⟩ := Prod.mk.inj (Option.some.inj hres)
    exact ⟨x.base, hr.block hg hx.slot hx.fits.1 ha hp halign hspan⟩
  · obtain ⟨rfl, -⟩ := Prod.mk.inj (Option.some.inj hres)
    rw [hheader]
  · rw [hheader]
    exact hcopy.usableSize.symm
  · rw [hheader]
    exact hcopy.reservedCapacity.symm
  · obtain ⟨v, hv, -, hy⟩ := hy
    rw [hg.build, hspan] at hv
    obtain rfl := Option.some.inj hv
    obtain ⟨rfl, rfl⟩ := hx.unique hy
    exact hr.withdrawn
  · have hcached := (Prod.mk.inj (Option.some.inj hres)).2
    contradiction

/-- The slow path ends the allocation. -/
lemma Begun.allocated {h₁ : Heap} {lost : Option CachedLarge}
    (hb : Begun size align lost h h₁) (hw : h₁.cache.Wf) (hbuild : h.build = b)
    (ha : align.isPowerOfTwo) (hp : b.pageSize.isPowerOfTwo)
    (hspan : spanOf b size align = some usable)
    (ho : ∀ r, o.reserved = some r → Reserved b usable align (largePayloadOffset b align) r) :
    Allocated size align h
      (h₁.allocLargeSlow o size align usable (largePayloadOffset b align)) := by
  have hcache : ∀ {h' : Heap}, h'.cache = h₁.cache →
      (∀ idx x, h.Chooses size align idx x → Withdrawn idx x h h') ∧
      ((∀ idx x, ¬h.Chooses size align idx x) →
        h'.cache.slotGet = h.cache.slotGet ∧ h'.cache.usedBytes = h.cache.usedBytes) := by
    intro h' hc
    refine ⟨fun idx x hx => ?_, fun hno => ?_⟩
    · have hout := hb.withdrawn idx x hx
      exact ⟨by rw [hc]; exact hout.slots, by rw [hc]; exact hout.used⟩
    · rw [hc]
      exact hb.untouched hno
  obtain heq | ⟨base, h', heq, ht⟩ | ⟨r, h', heq, hr, hob⟩ :=
    allocLargeSlow_ends hw o size align usable (largePayloadOffset b align)
  · rw [heq]
    refine ⟨by simp, by simp, (hcache rfl).1, (hcache rfl).2, by simp, fun _ => ⟨hb.registered,
      lost, none, hb.chosen, ?_, hb.gone, by simp, hb.header⟩⟩
    rw [hb.log, turnsDown]
    exact (List.append_nil _).symm
  · rw [heq]
    have hgone : ∀ {a}, Gone a h₁ → Gone a h' := fun hga =>
      ⟨by rw [ht.registered]; exact hga.table, by rw [ht.cache]; exact hga.cache⟩
    refine ⟨by simp, by simp, (hcache ht.cache).1, (hcache ht.cache).2, by simp, fun _ =>
      ⟨ht.registered.trans hb.registered, lost, some base, hb.chosen, ?_, fun x hx => ?_,
        fun a hab => ?_, fun a hab => ?_⟩⟩
    · rw [ht.log, hb.log]
      rfl
    · obtain ⟨hga, hphase⟩ := hb.gone x hx
      refine ⟨hgone hga, ?_⟩
      rwa [phase, ht.header]
    · obtain rfl := Option.some.inj hab
      exact hgone ht.free
    · rw [ht.header]
      exact hb.header a hab
  · rw [heq]
    have hblock := hob.block (hb.build.trans hbuild) (ho r hr) ha hp hspan
    refine ⟨fun p fresh hres => ?_, fun p hres => ?_, (hcache hob.cache).1, (hcache hob.cache).2,
      fun p hres => ⟨lost, r.base, hb.chosen, ?_, ?_, fun x hx hne => ?_⟩, by simp⟩
    · obtain ⟨rfl, -⟩ := Prod.mk.inj (Option.some.inj hres)
      exact ⟨r.base, hblock⟩
    · have hfresh := (Prod.mk.inj (Option.some.inj hres)).2
      contradiction
    · rw [hob.log, hb.log]
    · obtain ⟨rfl, -⟩ := Prod.mk.inj (Option.some.inj hres)
      exact hblock
    · obtain ⟨hga, hphase⟩ := hb.gone x hx
      refine ⟨⟨?_, ?_⟩, ?_⟩
      · rw [hob.registered, Function.update_of_ne hne]
        exact hga.table
      · rw [hob.cache]
        exact hga.cache
      · rwa [phase, hob.others x.base hne]

end Heap
end LargeHeap
end SeferAlloc
