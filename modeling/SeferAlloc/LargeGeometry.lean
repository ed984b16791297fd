import SeferAlloc.AlignedVmemReserve
import SeferAlloc.LargeHeapRuns
import SeferAlloc.LargeSelection

/-!
# Where Large segments lie

A Large segment is asked of the OS with the span of its request, or more. What
the reservation promises about its place is recorded in the header and in the
cache entry, and no operation loses it.
-/
namespace SeferAlloc
namespace AlignedVmem
variable {t : Target}

namespace Os

/-- Reserves whole segments for `len` bytes. -/
def segmentReserve (os : Os t) (len : ℕ) (w : World) : Option (Option Reservation × World) :=
  if len = 0 then some (none, w)
  else
    (os.tryReserveAligned (Small.alignUp len segment) segment w).map fun p => (p.1.toOption, p.2)

/-- Reserves exactly `len` bytes at a segment's boundary. -/
def segmentReserveExact (os : Os t) (len : ℕ) (w : World) : Option (Option Reservation × World) :=
  if len = 0 then some (none, w)
  else (os.tryReserveAligned len segment w).map fun p => (p.1.toOption, p.2)

/-- Reserves a capacity of which the first `initialCommit` bytes are committed. -/
def segmentReserveCapacityExact (os : Os t) (reservedLen initialCommit : ℕ) (w : World) :
    Option (Option Reservation × World) :=
  if reservedLen = 0 then some (none, w)
  else
    (os.tryReserveAlignedLazy reservedLen segment initialCommit w).map fun p =>
      (p.1.toOption, p.2)

end Os
end AlignedVmem

namespace LargeHeap
open LargeCache CacheLedger
open AlignedVmem (Target Os World)
open LargeReservation (pack)
open SeferAlloc.Small (alignUp)
variable {t : Target}

/-- The attempt of `alloc_large_slow` to reserve a segment. -/
def reserveLarge (os : Os t) (b : Build) (usable align hdrAligned : ℕ) (w : World) :
    Option (Option Heap.Reservation × World) :=
  let target := Heap.reservedCapacityTarget b usable
  if segment ≤ align then
    (os.reserveBiased target usable align hdrAligned w).map fun p =>
      (p.1.map fun r => ⟨r.1, r.2.1, r.2.2⟩, p.2)
  else
    (if b.largeReservedCapacity then os.segmentReserveCapacityExact target usable w
      else if b.exactSpan then os.segmentReserveExact usable w
      else os.segmentReserve usable w).map fun p =>
        (p.1.map fun r => ⟨r.base, r.reservation, r.reservationLen⟩, p.2)

/-- What a reservation for a Large segment promises. -/
structure Reserved (b : Build) (usable align hdrAligned : ℕ) (r : Heap.Reservation) : Prop where
  below : r.reservation ≤ r.base
  inside : r.base + Heap.reservedCapacityTarget b usable ≤ r.reservation + r.reservationLen
  short : Heap.reservedCapacityTarget b usable < usizeMax
  base : align < segment → segment ∣ r.base
  payload : segment ≤ align → align ∣ r.base + hdrAligned

lemma usizeMax_of_bits (ht : t.bits = 64) : t.usizeMax = usizeMax := by
  rw [Target.usizeMax, ht, usizeMax]
  norm_num

lemma le_alignUp {n a : ℕ} (ha : 0 < a) : n ≤ alignUp n a := by
  have hmod := Nat.mod_lt (n + a - 1) ha
  have hdiv := Nat.div_add_mod' (n + a - 1) a
  rw [alignUp]
  omega

/-- A reservation of at least the capacity at a multiple of SEGMENT. -/
lemma reserved_of_finished {os : Os t} {b : Build} {usable align hdrAligned len : ℕ}
    {r : AlignedVmem.Reservation} {w w' : World} (ht : t.bits = 64)
    (hlen : Heap.reservedCapacityTarget b usable ≤ len) (halign : ¬segment ≤ align)
    (h : os.Finished len segment w (.ok r) w') :
    Reserved b usable align hdrAligned ⟨r.base, r.reservation, r.reservationLen⟩ := by
  obtain ⟨-, hv, hres⟩ := h
  have hsum := hv.sum_le
  rw [usizeMax_of_bits ht] at hsum
  have habove := hres.above
  dsimp only at habove
  have hseg : 0 < segment := by decide
  refine ⟨hres.below, ?_, by omega, fun _ => hres.aligned, fun hge => absurd hge halign⟩
  dsimp only
  omega

lemma reserveLarge_reserved {os : Os t} {b : Build} {usable align hdrAligned : ℕ} {w w' : World}
    {r : Heap.Reservation} (ht : t.bits = 64) (ha : align.isPowerOfTwo)
    (h : reserveLarge os b usable align hdrAligned w = some (some r, w')) :
    Reserved b usable align hdrAligned r := by
  unfold reserveLarge at h
  by_cases halign : segment ≤ align
  · simp only [if_pos halign] at h
    obtain ⟨p, hp, h⟩ := Option.map_eq_some_iff.mp h
    obtain ⟨answer, w₁, heq, hb⟩ := os.reserveBiased_spec
      (Heap.reservedCapacityTarget b usable) usable align hdrAligned w ha
    obtain rfl : (answer, w₁) = p := Option.some.inj (heq.symm.trans hp)
    obtain ⟨hr, -⟩ := Prod.mk.inj h
    obtain ⟨⟨root, token, len⟩, hanswer, rfl⟩ := Option.map_eq_some_iff.mp hr
    dsimp only at hanswer
    subst hanswer
    have hsum := os.le_usizeMax_of_reserveBiased heq
    rw [usizeMax_of_bits ht] at hsum
    have hpos := Nat.pos_of_isPowerOfTwo ha
    obtain ⟨-, hdvd, hlow, hhigh⟩ := hb
    exact ⟨hlow, hhigh, by omega, fun hlt => absurd halign (not_le.mpr hlt), fun _ => hdvd⟩
  · simp only [if_neg halign] at h
    obtain ⟨p, hp, h⟩ := Option.map_eq_some_iff.mp h
    obtain ⟨hr, -⟩ := Prod.mk.inj h
    obtain ⟨raw, hraw, rfl⟩ := Option.map_eq_some_iff.mp hr
    have hfinished : ∃ len w₁, Heap.reservedCapacityTarget b usable ≤ len ∧
        os.Finished len segment w (.ok raw) w₁ := by
      have hok : ∀ {len : ℕ} {attempt : Option (Except AlignedVmem.VmemError _ × World)},
          (∃ answer w₁, attempt = some (answer, w₁) ∧ os.Finished len segment w answer w₁) →
          attempt.map (fun q => (q.1.toOption, q.2)) = some p →
          ∃ w₁, os.Finished len segment w (.ok raw) w₁ := by
        rintro len attempt ⟨answer, w₁, rfl, hfin⟩ hmap
        obtain rfl := Option.some.inj hmap
        cases answer with
        | error e => cases hraw
        | ok raw' =>
            obtain rfl := Option.some.inj hraw
            exact ⟨w₁, hfin⟩
      split_ifs at hp with hcap hexact
      · unfold Os.segmentReserveCapacityExact at hp
        split_ifs at hp with hzero
        · obtain rfl := Option.some.inj hp
          cases hraw
        · obtain ⟨w₁, hfin⟩ := hok (os.tryReserveAlignedLazy_spec _ _ _ w) hp
          exact ⟨_, w₁, le_rfl, hfin⟩
      · have htarget : Heap.reservedCapacityTarget b usable = usable := if_neg hcap
        unfold Os.segmentReserveExact at hp
        split_ifs at hp with hzero
        · obtain rfl := Option.some.inj hp
          cases hraw
        · obtain ⟨w₁, hfin⟩ := hok (os.tryReserveAligned_spec _ _ w) hp
          exact ⟨_, w₁, htarget.le, hfin⟩
      · have htarget : Heap.reservedCapacityTarget b usable = usable := if_neg hcap
        unfold Os.segmentReserve at hp
        split_ifs at hp with hzero
        · obtain rfl := Option.some.inj hp
          cases hraw
        · obtain ⟨w₁, hfin⟩ := hok (os.tryReserveAligned_spec _ _ w) hp
          exact ⟨_, w₁, htarget.le.trans (le_alignUp (by decide)), hfin⟩
    obtain ⟨len, w₁, hlen, hfin⟩ := hfinished
    exact reserved_of_finished ht hlen halign hfin

/-! ## The place of a segment -/

/-- The span of a segment lies inside its reservation. -/
structure Mapped (b : ℕ) (hdr : LargeHeader) : Prop where
  below : hdr.reservation ≤ b
  span : hdr.spanUsable ≤ hdr.reservedCapacity
  inside : b + hdr.reservedCapacity ≤ hdr.reservation + hdr.reservationLen
  short : hdr.reservedCapacity < usizeMax
  base : hdr.largeAlign < segment → segment ∣ b

/-- The geometry of an entry is the one in the header of its segment. -/
structure Copies (x : CachedLarge) (hdr : LargeHeader) : Prop where
  reservation : x.reservation = hdr.reservation
  reservationLen : x.reservationLen = hdr.reservationLen
  usableSize : x.usableSize = hdr.spanUsable
  reservedCapacity : x.reservedCapacity = hdr.reservedCapacity

/-- The two headers differ in the state word at most. -/
def SameBody (hdr hdr' : LargeHeader) : Prop := hdr' = { hdr with largeState := hdr'.largeState }

lemma SameBody.refl (hdr : LargeHeader) : SameBody hdr hdr := rfl

lemma Mapped.congr {b : ℕ} {hdr hdr' : LargeHeader} (h : Mapped b hdr) (hs : SameBody hdr hdr') :
    Mapped b hdr' := by
  rw [SameBody] at hs
  rw [hs]
  exact ⟨h.below, h.span, h.inside, h.short, h.base⟩

lemma Copies.congr {x : CachedLarge} {hdr hdr' : LargeHeader} (h : Copies x hdr)
    (hs : SameBody hdr hdr') : Copies x hdr' := by
  rw [SameBody] at hs
  rw [hs]
  exact ⟨h.reservation, h.reservationLen, h.usableSize, h.reservedCapacity⟩

namespace Heap
variable {h h' : Heap} {b : Build} {busy : Option ℕ} {base : ℕ}

/-- Every segment in use or in the cache lies where its header and its entry say. -/
structure Geometry (b : Build) (busy : Option ℕ) (h : Heap) : Prop where
  build : h.build = b
  mapped : ∀ a, h.registered a = true ∨ busy = some a → Mapped a (h.header a)
  cached : ∀ i x, h.cache.slotGet i = some x →
    Mapped x.base (h.header x.base) ∧ Copies x (h.header x.base) ∧ segment ∣ x.base

lemma Fresh.geometry (hf : h.Fresh) : h.Geometry h.build none :=
  ⟨rfl, fun a ha => by simp [hf.registered] at ha, fun i x hx => by simp [hf.slotGet] at hx⟩

lemma Keeps.geometry (k : Keeps busy h h') (hg : h.Geometry b busy) : h'.Geometry b busy := by
  refine ⟨k.build.trans hg.build, fun a ha => ?_, fun i x hx => ?_⟩
  · rw [k.registered] at ha
    rw [k.header a ha]
    exact hg.mapped a ha
  · obtain ⟨hx', hheader⟩ := k.slots i x hx
    rw [hheader]
    exact hg.cached i x hx'

/-- Headers may change their state words, segments may leave the table, and entries the cache. -/
lemma Geometry.shrink (hg : h.Geometry b busy) (hbuild : h'.build = h.build)
    (hheader : ∀ a, SameBody (h.header a) (h'.header a)) {busy' : Option ℕ}
    (hmapped : ∀ a, h'.registered a = true ∨ busy' = some a → h.registered a = true ∨ busy = some a)
    (hslots : ∀ i x, h'.cache.slotGet i = some x → h.cache.slotGet i = some x) :
    h'.Geometry b busy' :=
  ⟨hbuild.trans hg.build, fun a ha => (hg.mapped a (hmapped a ha)).congr (hheader a),
    fun i x hx =>
      have hc := hg.cached i x (hslots i x hx)
      ⟨hc.1.congr (hheader x.base), hc.2.1.congr (hheader x.base), hc.2.2⟩⟩

lemma sameBody_setState (h : Heap) (base : ℕ) (w : LargeReservation.Word) (a : ℕ) :
    SameBody (h.header a) ((h.setState base w).header a) := by
  by_cases ha : a = base
  · subst ha
    rw [SameBody, setState]
    simp only [Function.update_self]
  · rw [setState_header_of_ne h ha]
    exact SameBody.refl _

lemma transition_some {t : LargeReservation.Transition} {g : ℕ}
    (ht : h.transition base t g = some h') : ∃ w, h' = h.setState base w := by
  simp only [transition, Option.bind_eq_bind, Option.bind_eq_some_iff] at ht
  obtain ⟨expected, -, w, -, hw⟩ := ht
  rw [Option.ite_none_right_eq_some] at hw
  exact ⟨w, (Option.some.inj hw.2).symm⟩

/-! ### Free -/

lemma deposit_geometry (hg : h.Geometry b (some base)) (hw : h.cache.Wf) {idx g : ℕ}
    {hdr : LargeHeader} (hlt : idx < h.cache.scanBound) (hhdr : h.header base = hdr)
    (halign : hdr.largeAlign < segment) (hd : h.deposit idx base g hdr = some h') :
    h'.Geometry b none := by
  simp only [deposit, Option.bind_eq_bind, Option.bind_eq_some_iff] at hd
  obtain ⟨h₁, htr, c, hset, hd⟩ := hd
  obtain ⟨w, rfl⟩ := transition_some htr
  obtain rfl := Option.some.inj hd
  obtain ⟨c', hset', hget, -, -⟩ := Cache.slotSet_spec (c := { h.cache with
    seq := (h.cache.seq + 1) % (usizeMax + 1) }) (x := cachedLarge base hdr h.cache.seq) hlt
    hw.scanBound_le
  obtain rfl : c' = c := Option.some.inj (hset'.symm.trans hset)
  have hbase : Mapped base hdr := by
    rw [← hhdr]
    exact hg.mapped base (.inr rfl)
  refine ⟨hg.build, fun a ha => ?_, fun i x hx => ?_⟩
  · exact (hg.mapped a (.inl (ha.resolve_right (by simp)))).congr (sameBody_setState h base w a)
  · have hx' : c'.slotGet i = some x := hx
    rw [hget, Function.update_apply] at hx'
    have hsame := sameBody_setState h base w x.base
    split_ifs at hx' with hi
    · obtain rfl := Option.some.inj hx'
      have hcopy : SameBody hdr ((h.setState base w).header base) := by
        rw [← hhdr]
        exact sameBody_setState h base w base
      exact ⟨hbase.congr hcopy, Copies.congr ⟨rfl, rfl, rfl, rfl⟩ hcopy, hbase.base halign⟩
    · have hc := hg.cached i x hx'
      exact ⟨hc.1.congr hsame, hc.2.1.congr hsame, hc.2.2⟩

lemma settle_geometry (hg : h.Geometry b (some base)) (hw : h.cache.Wf) {g : ℕ}
    {hdr : LargeHeader} {admitted : Option ℕ} (hadm : h.Admits hdr.spanUsable admitted)
    (hhdr : h.header base = hdr) (halign : admitted.isSome = true → hdr.largeAlign < segment)
    (hs : h.settle admitted base g hdr = some h') : h'.Geometry b none := by
  cases admitted with
  | some idx =>
      exact deposit_geometry hg hw (hadm idx rfl).1 hhdr (halign rfl) hs
  | none =>
      obtain ⟨h₁, htr, rfl⟩ := Option.map_eq_some_iff.mp hs
      obtain ⟨w, rfl⟩ := transition_some htr
      apply hg.shrink
      · rfl
      · exact sameBody_setState h base w
      · exact fun a ha => .inl (ha.resolve_right (by simp))
      · exact fun i x hx => hx

lemma admission_align {grants : ℕ → Bool} {hdr : LargeHeader} {p : Option ℕ × Heap}
    (h : h.admission grants hdr = some p) : p.1.isSome = true → hdr.largeAlign < segment := by
  rw [admission] at h
  split at h
  · rename_i hcond
    exact fun _ => hcond.1
  · obtain rfl := Option.some.inj h
    simp

/-- The way of a freed segment from its claim on. -/
lemma freed_geometry {h₁ : Heap} (hg : h₁.Geometry b (some base)) (hi : h₁.Inv (some base))
    {now g : ℕ} {grants : ℕ → Bool} {h₂ h₃ : Heap} {admitted : Option ℕ}
    (hdecay : h₁.maybeDecayLargeCache now = some h₂)
    (hplaced : h₂.admission grants (h₁.header base) = some (admitted, h₃)) {h₄ : Heap}
    (hcache : h₄.cache = (if admitted.isNone then h₃.refuse (h₁.header base) else h₃).cache)
    (hheader : h₄.header = (if admitted.isNone then h₃.refuse (h₁.header base) else h₃).header)
    (hbuild : h₄.build = (if admitted.isNone then h₃.refuse (h₁.header base) else h₃).build)
    (hreg : ∀ a, h₄.registered a = true → h₃.registered a = true)
    (hs : h₄.settle admitted base g (h₁.header base) = some h') : h'.Geometry b none := by
  obtain ⟨h₂', hdecay', hk₂⟩ := maybeDecayLargeCache_spec hi now
  obtain rfl : h₂' = h₂ := Option.some.inj (hdecay'.symm.trans hdecay)
  obtain ⟨p, hp, hk₃, hadm⟩ := admission_spec hk₂.inv grants (h₁.header base)
  obtain rfl : p = (admitted, h₃) := Option.some.inj (hp.symm.trans hplaced)
  have hq := (hk₂.inv.wf.adaptiveExt fun a => a.noteFree (h₁.header base).spanUsable).1
  have hg₂ : (h₂'.setCache (h₂'.cache.noteFree (h₁.header base).spanUsable)).Geometry b
      (some base) := by
    apply (hk₂.geometry hg).shrink
    · rfl
    · exact fun a => SameBody.refl _
    · exact fun a ha => ha
    · intro i x hx
      rwa [← hq.slotGet]
  have hk := refused_keeps hk₃.inv (h₁.header base) admitted
  have hg₄ := hk.geometry (hk₃.geometry hg₂)
  have hadm₄ : Admits (if admitted.isNone then h₃.refuse (h₁.header base) else h₃)
      (h₁.header base).spanUsable admitted := hadm.refused
  dsimp only at hk hg₄ hadm₄
  generalize (if admitted.isNone then h₃.refuse (h₁.header base) else h₃) = k at *
  have hhdr : h₄.header base = h₁.header base := by
    rw [hheader, hk.header base (.inr rfl)]
    exact (hk₃.header base (.inr rfl)).trans (hk₂.header base (.inr rfl))
  have hslots : ∀ i x, h₄.cache.slotGet i = some x → k.cache.slotGet i = some x := by
    rw [hcache]
    exact fun _ _ hx => hx
  refine settle_geometry (hg₄.shrink hbuild (fun a => ?_) (fun a ha => ?_) hslots) ?_ ?_ hhdr
    (admission_align hplaced) hs
  · rw [hheader]
    exact SameBody.refl _
  · refine ha.imp (fun hr => ?_) id
    rw [hk.registered]
    exact hreg a hr
  · rw [hcache]
    exact hk.inv.wf
  · unfold Admits at hadm₄ ⊢
    rw [hcache]
    exact hadm₄

lemma unregister_of_ne (h : Heap) {a : ℕ} (ha : a ≠ base) :
    (h.unregister base).registered a = h.registered a := Function.update_of_ne ha _ _

/-- The claim of a registered segment. -/
lemma Geometry.claim (hg : h.Geometry b none) (hreg : h.registered base = true)
    (w : LargeReservation.Word) : (h.setState base w).Geometry b (some base) := by
  apply hg.shrink
  · rfl
  · exact sameBody_setState h base w
  · rintro a (hr | hb)
    · exact .inl hr
    · exact .inl (Option.some.inj hb ▸ hreg)
  · exact fun i x hx => hx

lemma deallocLargeAtBase_geometry (hi : h.Inv none) (hg : h.Geometry b none)
    (hreg : h.registered base = true) {now : ℕ} {grants : ℕ → Bool}
    (hd : h.deallocLargeAtBase base now grants = some h') : h'.Geometry b none := by
  obtain ⟨g, -, hclaim, hi₁⟩ := claimLive_spec hi hreg
  simp only [deallocLargeAtBase, hclaim, Option.bind_eq_bind, Option.bind_some,
    Option.bind_eq_some_iff] at hd
  obtain ⟨h₂, hdecay, ⟨admitted, h₃⟩, hplaced, hs⟩ := hd
  obtain ⟨h₂', hdecay', hk₂⟩ := maybeDecayLargeCache_spec hi₁ now
  obtain rfl : h₂' = h₂ := Option.some.inj (hdecay'.symm.trans hdecay)
  rw [hk₂.header base (.inr rfl)] at hplaced hs
  obtain ⟨p, hp, hk₃, -⟩ := admission_spec hk₂.inv grants
    ((h.setState base (pack .consuming g)).header base)
  obtain rfl : p = (admitted, h₃) := Option.some.inj (hp.symm.trans hplaced)
  have hk := refused_keeps hk₃.inv ((h.setState base (pack .consuming g)).header base) admitted
  apply freed_geometry (hg.claim hreg _) hi₁ hdecay hplaced _ _ _ _ hs
  · rfl
  · rfl
  · rfl
  · intro a ha
    rw [← hk.registered]
    by_cases hab : a = base
    · subst hab
      rw [unregister_self] at ha
      contradiction
    · rwa [unregister_of_ne _ hab] at ha

lemma reclaimLargeSegment_geometry (hi : h.Inv none) (hg : h.Geometry b none)
    (hreg : h.registered base = true) {now : ℕ} {grants : ℕ → Bool}
    (hd : h.reclaimLargeSegment base now grants = some h') : h'.Geometry b none := by
  obtain ⟨g, -, hclaim, hi₁⟩ := claimLive_spec hi hreg
  simp only [reclaimLargeSegment, hclaim, Option.bind_eq_bind, Option.bind_some,
    Option.bind_eq_some_iff] at hd
  obtain ⟨h₂, hdecay, ⟨admitted, h₃⟩, hplaced, hs⟩ := hd
  have hg₁ : ((h.setState base (pack .consuming g)).unregister base).Geometry b (some base) := by
    apply (hg.claim hreg (pack .consuming g)).shrink
    · rfl
    · exact fun a => SameBody.refl _
    · rintro a (hr | hb)
      · by_cases hab : a = base
        · exact .inr (hab ▸ rfl)
        · exact .inl (by rwa [unregister_of_ne _ hab] at hr)
      · exact .inr hb
    · exact fun i x hx => hx
  obtain ⟨h₂', hdecay', hk₂⟩ := maybeDecayLargeCache_spec (unregister_inv hi₁) now
  obtain rfl : h₂' = h₂ := Option.some.inj (hdecay'.symm.trans hdecay)
  obtain ⟨p, hp, hk₃, -⟩ := admission_spec hk₂.inv grants
    (((h.setState base (pack .consuming g)).unregister base).header base)
  obtain rfl : p = (admitted, h₃) := Option.some.inj (hp.symm.trans hplaced)
  have hk := refused_keeps hk₃.inv
    (((h.setState base (pack .consuming g)).unregister base).header base) admitted
  apply freed_geometry hg₁ (unregister_inv hi₁) hdecay hplaced _ _ _ _ hs
  · rfl
  · rfl
  · rfl
  · intro a ha
    rwa [← hk.registered]

/-! ### Growth -/

lemma Geometry.setHeader (hg : h.Geometry b none) (hi : h.Inv none)
    (hreg : h.registered base = true) {hdr : LargeHeader} (hm : Mapped base hdr) :
    Geometry b none { h with header := Function.update h.header base hdr } := by
  have hother : ∀ a, a ≠ base → Function.update h.header base hdr a = h.header a := fun a ha =>
    Function.update_of_ne ha _ _
  refine ⟨hg.build, fun a ha => ?_, fun i x hx => ?_⟩
  · change Mapped a (Function.update h.header base hdr a)
    by_cases hab : a = base
    · subst hab
      rwa [Function.update_self]
    · rw [hother a hab]
      exact hg.mapped a ha
  · have hne : x.base ≠ base := by
      intro hb
      have hout := (hi.not_inUse hx).1
      rw [hb, hreg] at hout
      contradiction
    change Mapped x.base (Function.update h.header base hdr x.base) ∧
      Copies x (Function.update h.header base hdr x.base) ∧ _
    rw [hother x.base hne]
    exact hg.cached i x hx

lemma setLargeSize_geometry (hg : h.Geometry b none) (hi : h.Inv none)
    (hreg : h.registered base = true) (size : ℕ) : (h.setLargeSize base size).Geometry b none := by
  have hm := hg.mapped base (.inl hreg)
  exact hg.setHeader hi hreg ⟨hm.below, hm.span, hm.inside, hm.short, hm.base⟩

lemma reallocLargeInplace_geometry (hi : h.Inv none) (hg : h.Geometry b none)
    (hreg : h.registered base = true) {ptr oldSize newSize : ℕ} {commits : Bool}
    (hd : h.reallocLargeInplace base ptr oldSize newSize commits = some h') :
    h'.Geometry b none := by
  rw [reallocLargeInplace] at hd
  split_ifs at hd
  · obtain rfl := Option.some.inj hd
    exact setLargeSize_geometry hg hi hreg _
  · obtain ⟨h₁, hgrow, rfl⟩ := Option.map_eq_some_iff.mp hd
    rw [tryGrowLargeReservedCapacity] at hgrow
    split_ifs at hgrow
    obtain rfl := Option.some.inj hgrow
    have hm := hg.mapped base (.inl hreg)
    have hg₁ : (h.setSpanUsable base (min (alignUp ((h.header base).payloadOffset +
        max newSize minBlock) maxRealisticPageSize) (h.header base).reservedCapacity)).Geometry b
          none :=
      hg.setHeader hi hreg ⟨hm.below, min_le_right _ _, hm.inside, hm.short, hm.base⟩
    exact setLargeSize_geometry hg₁ (hi.setSpanUsable base _) hreg _

end Heap

end LargeHeap
end SeferAlloc
