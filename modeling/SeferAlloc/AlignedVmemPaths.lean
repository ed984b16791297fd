import SeferAlloc.AlignedVmem

/-!
# What each reservation path leaves behind

A path that gives up leaves the live mappings as they were. A path that
succeeds leaves one more, with the aligned span inside it.
-/
namespace SeferAlloc
namespace AlignedVmem

variable {t : Target}

/-! ## Arithmetic below the top of the address space -/

namespace Target

lemma lt_of_le_usizeMax {x : ℕ} (hx : x ≤ t.usizeMax) : x < 2 ^ t.bits := by
  have := Nat.two_pow_pos t.bits
  rw [usizeMax] at hx
  omega

lemma clearBelow_eq {x align : ℕ} (ha : align.isPowerOfTwo) (hx : x ≤ t.usizeMax) :
    t.clearBelow x align = x / align * align := by
  obtain ⟨k, rfl⟩ := ha
  have hlt := lt_of_le_usizeMax hx
  apply Nat.eq_of_testBit_eq
  intro i
  rw [clearBelow, usizeMax, Nat.testBit_and, Nat.testBit_xor, Nat.testBit_two_pow_sub_one,
    Nat.testBit_two_pow_sub_one, Nat.mul_comm, Nat.testBit_two_pow_mul, Nat.testBit_div_two_pow]
  by_cases hi : i < t.bits
  · by_cases hik : i < k
    · simp [hi, hik]
    · simp [hi, hik, show k ≤ i by omega]
  · have hx0 : x.testBit i = false :=
      Nat.testBit_lt_two_pow (hlt.trans_le (Nat.pow_le_pow_right (by decide) (by omega)))
    by_cases hik : k ≤ i
    · simp [hx0, hik, Nat.sub_add_cancel hik]
    · simp [hx0, hik]

lemma checkedAdd_eq {a b : ℕ} (h : a + b ≤ t.usizeMax) : t.checkedAdd a b = some (a + b) :=
  if_pos h

lemma checkedAdd_eq_some {a b c : ℕ} :
    t.checkedAdd a b = some c ↔ a + b ≤ t.usizeMax ∧ a + b = c := by
  rw [checkedAdd]
  split_ifs with h <;> simp [h]

lemma alignUpAddr_spec {addr align : ℕ} (ha : align.isPowerOfTwo)
    (hroom : addr + (align - 1) ≤ t.usizeMax) :
    ∃ a, t.alignUpAddr addr align = some a ∧ align ∣ a ∧ addr ≤ a ∧ a ≤ addr + (align - 1) := by
  have hpos := Nat.pos_of_isPowerOfTwo ha
  refine ⟨(addr + (align - 1)) / align * align, ?_, Nat.dvd_mul_left _ _, ?_,
    Nat.div_mul_le_self _ _⟩
  · rw [alignUpAddr, checkedAdd_eq hroom, Option.map_some, clearBelow_eq ha hroom]
  · have hmod := Nat.mod_lt (addr + (align - 1)) hpos
    have hdiv := Nat.div_add_mod' (addr + (align - 1)) align
    omega

/-- A multiple of a power of two below the top leaves room for the next multiple. -/
lemma add_pred_le {a align : ℕ} (ha : align.isPowerOfTwo) (hle : align ≤ t.usizeMax)
    (hdvd : align ∣ a) (hmax : a ≤ t.usizeMax) : a + (align - 1) ≤ t.usizeMax := by
  obtain ⟨k, rfl⟩ := ha
  have hk : 2 ^ k ∣ 2 ^ t.bits :=
    Nat.pow_dvd_pow 2 ((Nat.pow_lt_pow_iff_right (by decide)).mp (lt_of_le_usizeMax hle)).le
  obtain ⟨q, rfl⟩ := hdvd
  obtain ⟨r, hr⟩ := hk
  have hq : q < r := by
    have := lt_of_le_usizeMax hmax
    rw [hr] at this
    exact Nat.lt_of_mul_lt_mul_left this
  have hmul : 2 ^ k * (q + 1) ≤ 2 ^ k * r := Nat.mul_le_mul_left _ hq
  have hpos := Nat.two_pow_pos k
  rw [usizeMax, hr]
  rw [Nat.mul_add] at hmul
  omega

/-- What `validate_size_align` accepts. -/
structure Valid (t : Target) (size align : ℕ) : Prop where
  size_pos : 0 < size
  powerOfTwo : align.isPowerOfTwo
  page_le : page ≤ align
  page_dvd : page ∣ size
  sum_le : size + align ≤ t.usizeMax

lemma valid_of_ok {size align : ℕ} (h : t.validateSizeAlign size align = .ok ()) :
    t.Valid size align := by
  unfold validateSizeAlign at h
  split_ifs at h with hargs
  push Not at hargs
  split at h
  · simp at h
  next sum hsum =>
    obtain ⟨hle, rfl⟩ := checkedAdd_eq_some.mp hsum
    exact ⟨Nat.pos_of_ne_zero hargs.1, hargs.2.1, hargs.2.2.1, hargs.2.2.2, hle⟩

/-- The misfit of the over-reserve path does not happen: a region with `align` bytes to spare,
or an aligned one, has room for the span. -/
lemma fits_spec {region overLen size align : ℕ} (hv : t.Valid size align)
    (htop : region + overLen ≤ t.usizeMax)
    (hroom : size + align ≤ overLen ∨ align ∣ region ∧ size ≤ overLen) :
    ∃ base, t.fits region overLen size align = some base ∧ align ∣ base ∧ region ≤ base ∧
      base + size ≤ region + overLen := by
  have hpos := Nat.pos_of_isPowerOfTwo hv.powerOfTwo
  have hsum := hv.sum_le
  have hmask : region + (align - 1) ≤ t.usizeMax := by
    rcases hroom with h | ⟨hdvd, -⟩
    · omega
    · exact add_pred_le hv.powerOfTwo (by omega) hdvd (by omega)
  obtain ⟨a, ha, hdvd, hlow, hhigh⟩ := alignUpAddr_spec hv.powerOfTwo hmask
  have hfit : a + size ≤ region + overLen := by
    rcases hroom with h | ⟨hregion, hsize⟩
    · omega
    · have : a = region := by
        by_contra hne
        have hgap := Nat.le_of_dvd (by omega) (Nat.dvd_sub hdvd hregion)
        omega
      omega
  refine ⟨a, ?_, hdvd, hlow, hfit⟩
  simp only [fits, ha, checkedAdd_eq (hfit.trans htop), checkedAdd_eq htop, Option.bind_eq_bind,
    Option.bind_some, if_pos hfit]

end Target

/-! ## The mappings a path leaves -/

/-- The live mappings are what they were, and every mapping is accounted for. -/
structure Restored (w w' : World) : Prop where
  live : w'.mappings.live = w.mappings.live
  count : w.mappings.count ≤ w'.mappings.count
  accounted : w.mappings.Accounted → w'.mappings.Accounted

/-- One live mapping more, of a new ticket. -/
structure Holds (w : World) (m : Mapping) (w' : World) : Prop where
  live : ∃ ticket, w.mappings.count ≤ ticket ∧
    w'.mappings.live = (ticket, m) :: w.mappings.live
  count : w.mappings.count ≤ w'.mappings.count
  accounted : w.mappings.Accounted → w'.mappings.Accounted

namespace Restored

lemma refl (w : World) : Restored w w := ⟨rfl, le_rfl, id⟩

lemma called (w : World) : Restored w w.called := ⟨rfl, le_rfl, id⟩

lemma trans {w w' w'' : World} (h : Restored w w') (h' : Restored w' w'') : Restored w w'' :=
  ⟨h'.live.trans h.live, h.count.trans h'.count, h'.accounted ∘ h.accounted⟩

lemma holds {w w' w'' : World} {m : Mapping} (h : Restored w w') (h' : Holds w' m w'') :
    Holds w m w'' := by
  obtain ⟨ticket, hnew, hl⟩ := h'.live
  exact ⟨⟨ticket, h.count.trans hnew, by rw [hl, h.live]⟩, h.count.trans h'.count,
    h'.accounted ∘ h.accounted⟩

end Restored

namespace Holds

lemma obtain (w : World) (m : Mapping) : Holds w m (w.obtain m) :=
  ⟨⟨_, le_rfl, rfl⟩, Nat.le_succ _, fun h => h.obtain m⟩

lemma restored {w w' w'' : World} {m : Mapping} (h : Holds w m w') (h' : Restored w' w'') :
    Holds w m w'' := by
  obtain ⟨ticket, hnew, hl⟩ := h.live
  exact ⟨⟨ticket, hnew, h'.live.trans hl⟩, h.count.trans h'.count, h'.accounted ∘ h.accounted⟩

lemma release {w w' : World} {m : Mapping} (h : Holds w m w') {p : Mapping → Bool}
    (hp : p m = true) : ∃ w'', w'.release p = some w'' ∧ Restored w w'' := by
  obtain ⟨ticket, -, hl⟩ := h.live
  obtain ⟨L, hL, hlive, hcount⟩ := ResourceLedger.release_of_live hl hp
  exact ⟨⟨w'.calls, L⟩, by rw [World.release, hL]; rfl, hlive, h.count.trans hcount.ge, fun hw =>
    (h.accounted hw).release hL⟩

lemma munmap {w w' : World} {m : Mapping} (h : Holds w m w')
    (hhuge : m.huge = true → linuxHugePageSize ∣ m.len) :
    ∃ w'', libcMunmap m.addr m.len w' = some w'' ∧ Restored w w'' :=
  h.release (decide_eq_true ⟨rfl, rfl, hhuge⟩)

lemma virtualRelease {w w' : World} {m : Mapping} (h : Holds w m w') :
    ∃ w'', virtualRelease m.addr w' = some w'' ∧ Restored w w'' :=
  h.release (decide_eq_true rfl)

end Holds

/-- The span of a reservation, inside the one mapping it keeps. Huge mappings come in whole
units. -/
structure Reserved (unit size align : ℕ) (w : World) (raw : RawReservation) (w' : World) :
    Prop where
  mapping : Holds w ⟨raw.reservation, raw.reservationLen, raw.grantedHuge⟩ w'
  whole : raw.grantedHuge = true → unit ∣ raw.reservationLen
  aligned : align ∣ raw.base
  below : raw.reservation ≤ raw.base
  above : raw.base + size ≤ raw.reservation + raw.reservationLen

/-- What a whole attempt comes to; it never fails for its own arithmetic. -/
def Settled (unit size align : ℕ) (w : World) : Except VmemError RawReservation → World → Prop
  | .error e, w' => e ≠ .invalidArgument ∧ Restored w w'
  | .ok raw, w' => Reserved unit size align w raw w'

/-- What a path comes to that may fall through to the next one. -/
def Attempted (unit size align : ℕ) (w : World) : Option RawReservation → World → Prop
  | none, w' => Restored w w'
  | some raw, w' => Reserved unit size align w raw w'

section
variable {unit size align : ℕ} {w w' w'' : World}

lemma Restored.reserved {raw : RawReservation} (h : Restored w w')
    (h' : Reserved unit size align w' raw w'') : Reserved unit size align w raw w'' :=
  ⟨h.holds h'.mapping, h'.whole, h'.aligned, h'.below, h'.above⟩

/-- A span that fills its mapping. -/
lemma Holds.reserved {p : ℕ} {huge : Bool} (h : Holds w ⟨p, size, huge⟩ w')
    (hwhole : huge = true → unit ∣ size) (hdvd : align ∣ p) :
    Reserved unit size align w ⟨p, p, size, huge⟩ w' :=
  ⟨h, hwhole, hdvd, le_rfl, le_rfl⟩

lemma Restored.settled {answer : Except VmemError RawReservation} (h : Restored w w')
    (h' : Settled unit size align w' answer w'') : Settled unit size align w answer w'' := by
  cases answer with
  | error e => exact ⟨h'.1, h.trans h'.2⟩
  | ok raw => exact h.reserved h'

lemma Restored.attempted {hit : Option RawReservation} (h : Restored w w')
    (h' : Attempted unit size align w' hit w'') : Attempted unit size align w hit w'' := by
  cases hit with
  | none => exact h.trans h'
  | some raw => exact h.reserved h'

end

/-! ## Unix -/

namespace Unix
variable (os : Unix t)

lemma libcMmap_spec (len : ℕ) (huge : Bool) (w : World)
    (hlen : (t.hugeSupported && huge) = true → linuxHugePageSize ∣ len) :
    ∃ answer w', os.libcMmap len huge w = some (answer, w') ∧
      match answer with
      | .error e => e ≠ .invalidArgument ∧ Restored w w'
      | .ok p => Holds w ⟨p, len, t.hugeSupported && huge⟩ w' ∧ p + len ≤ t.usizeMax := by
  unfold libcMmap
  dsimp only
  have hplaced := os.placed w.calls len (t.hugeSupported && huge)
  generalize os.mmap w.calls len (t.hugeSupported && huge) = p at hplaced
  have hheld : Holds w ⟨p, len, t.hugeSupported && huge⟩
      (w.called.obtain ⟨p, len, t.hugeSupported && huge⟩) :=
    (Restored.called w).holds (Holds.obtain _ _)
  by_cases hfail : p = t.usizeMax
  · rw [if_pos hfail]
    exact ⟨_, _, rfl, by decide, Restored.called w⟩
  · rw [if_neg hfail]
    by_cases hzero : p = 0
    · obtain ⟨w', hw', hrest⟩ := hheld.munmap hlen
      rw [if_pos hzero, hw']
      exact ⟨_, _, rfl, by decide, hrest⟩
    · rw [if_neg hzero]
      exact ⟨_, _, rfl, hheld, (hplaced hfail).2⟩

lemma hugeExact_spec {size align : ℕ} (w : World) (hhuge : t.hugeSupported = true)
    (hsize : linuxHugePageSize ∣ size) :
    ∃ hit w', os.hugeExact size align w = some (hit, w') ∧
      Attempted linuxHugePageSize size align w hit w' := by
  obtain ⟨answer, w', heq, h⟩ := os.libcMmap_spec size true w fun _ => hsize
  simp only [hugeExact, heq, Option.bind_eq_bind, Option.bind_some]
  cases answer with
  | error e => exact ⟨_, _, rfl, h.2⟩
  | ok p =>
      rw [hhuge] at h
      by_cases hdvd : align ∣ p
      · simp only [if_pos hdvd]
        exact ⟨_, _, rfl, h.1.reserved (fun _ => hsize) hdvd⟩
      · obtain ⟨w'', hw'', hrest⟩ := h.1.munmap fun _ => hsize
        simp only [if_neg hdvd, hw'', Option.bind_some]
        exact ⟨_, _, rfl, hrest⟩

lemma tryReserveAlignedExact_spec {size align : ℕ} {huge : Bool} (w : World)
    (hsize : (t.hugeSupported && huge) = true → linuxHugePageSize ∣ size) :
    ∃ answer w', os.tryReserveAlignedExact size align huge w = some (answer, w') ∧
      Attempted linuxHugePageSize size align w answer.toOption w' := by
  obtain ⟨answer, w', heq, h⟩ := os.libcMmap_spec size huge w hsize
  simp only [tryReserveAlignedExact, heq, Option.bind_eq_bind, Option.bind_some]
  cases answer with
  | error e => exact ⟨_, _, rfl, h.2⟩
  | ok p =>
      by_cases hdvd : align ∣ p
      · simp only [hdvd, not_true_eq_false, if_false]
        exact ⟨_, _, rfl, h.1.reserved hsize hdvd⟩
      · obtain ⟨w'', hw'', hrest⟩ := h.1.munmap hsize
        simp only [hdvd, not_false_eq_true, if_true, hw'', Option.bind_some]
        exact ⟨_, _, rfl, hrest⟩

lemma overRegion_spec (overLen : ℕ) (huge : Bool) (w : World)
    (hlen : (t.hugeSupported && huge) = true → linuxHugePageSize ∣ overLen) :
    ∃ answer w', os.overRegion overLen huge w = some (answer, w') ∧
      match answer with
      | .error e => e ≠ .invalidArgument ∧ Restored w w'
      | .ok (region, granted) => region + overLen ≤ t.usizeMax ∧
          Holds w ⟨region, overLen, granted⟩ w' ∧
          (granted = true → linuxHugePageSize ∣ overLen) := by
  obtain ⟨answer, w₁, heq, h⟩ := os.libcMmap_spec overLen huge w hlen
  simp only [overRegion, heq, Option.bind_eq_bind, Option.bind_some]
  cases answer with
  | ok p => exact ⟨_, _, rfl, h.2, h.1, hlen⟩
  | error e =>
      cases huge with
      | false => exact ⟨_, _, rfl, h⟩
      | true =>
          obtain ⟨retried, w₂, heq', h'⟩ :=
            os.libcMmap_spec overLen false w₁ (by simp)
          simp only [heq', Option.bind_some]
          refine ⟨_, _, rfl, ?_⟩
          cases retried with
          | error e => exact ⟨h'.1, h.2.trans h'.2⟩
          | ok p =>
              rw [Bool.and_false] at h'
              exact ⟨h'.2, h.2.holds h'.1, by simp⟩

lemma overReserve_spec {size align : ℕ} {huge : Bool} (w : World) (hv : t.Valid size align)
    (hhuge : (t.hugeSupported && huge) = true →
      linuxHugePageSize ∣ size ∧ linuxHugePageSize ∣ align) :
    ∃ answer w', os.overReserve size align huge w = some (answer, w') ∧
      Settled linuxHugePageSize size align w answer w' := by
  obtain ⟨answer, w₁, heq, h⟩ := os.overRegion_spec (size + align) huge w
    fun hb => Nat.dvd_add (hhuge hb).1 (hhuge hb).2
  simp only [overReserve, Target.checkedAdd_eq hv.sum_le, heq, Option.bind_eq_bind,
    Option.bind_some]
  cases answer with
  | error e => exact ⟨_, _, rfl, h⟩
  | ok region =>
      obtain ⟨base, hbase, hdvd, hlow, hhigh⟩ := Target.fits_spec hv h.1 (.inl le_rfl)
      simp only [hbase]
      exact ⟨_, _, rfl, h.2.1, h.2.2, hdvd, hlow, hhigh⟩

/-- A request for huge pages that `munmap` could not take back is refused. -/
def HugeMisfit (t : Target) (size align : ℕ) (huge : Bool) : Prop :=
  (t.hugeSupported && huge) = true ∧ (¬linuxHugePageSize ∣ size ∨ ¬linuxHugePageSize ∣ align)

lemma not_hugeMisfit_ordinary {size align : ℕ} : ¬HugeMisfit t size align false := by
  simp [HugeMisfit]

lemma unixReserve_misfit {size align : ℕ} {huge : Bool} (w : World)
    (hmis : HugeMisfit t size align huge) :
    os.unixReserve size align huge w = some (.error .invalidArgument, w) :=
  if_pos hmis

lemma hugePath_spec (size align : ℕ) {huge : Bool} (w : World)
    (hhuge : huge = true → t.hugeSupported = true ∧ linuxHugePageSize ∣ size) :
    ∃ hit w', os.hugePath size align huge w = some (hit, w') ∧
      Attempted linuxHugePageSize size align w hit w' := by
  unfold hugePath
  split_ifs with htry
  · exact os.hugeExact_spec w (hhuge htry.1).1 (hhuge htry.1).2
  · exact ⟨_, _, rfl, Restored.refl w⟩

lemma exactPath_spec (size align : ℕ) {huge : Bool} (tried : Bool) (w : World)
    (hhuge : (t.hugeSupported && huge) = true → linuxHugePageSize ∣ size) :
    ∃ hit w', os.exactPath size align huge tried w = some (hit, w') ∧
      Attempted linuxHugePageSize size align w hit w' := by
  unfold exactPath
  split_ifs with htry
  · obtain ⟨answer, w', heq, h⟩ := os.tryReserveAlignedExact_spec w hhuge
    rw [heq]
    exact ⟨_, _, rfl, h⟩
  · exact ⟨_, _, rfl, Restored.refl w⟩

lemma unixReserve_spec {size align : ℕ} {huge : Bool} (w : World) (hv : t.Valid size align)
    (hfit : ¬HugeMisfit t size align huge) :
    ∃ answer w', os.unixReserve size align huge w = some (answer, w') ∧
      Settled linuxHugePageSize size align w answer w' := by
  have hhuge : (t.hugeSupported && huge) = true →
      linuxHugePageSize ∣ size ∧ linuxHugePageSize ∣ align := by
    intro hb
    by_contra hnot
    exact hfit ⟨hb, not_and_or.mp hnot⟩
  obtain ⟨hit, w₁, heq₁, h₁⟩ := os.hugePath_spec size align w
    fun hb => ⟨(Bool.and_eq_true_iff.mp hb).1, (hhuge hb).1⟩
  unfold HugeMisfit at hfit
  simp only [unixReserve, if_neg hfit, heq₁, Option.bind_eq_bind, Option.bind_some]
  cases hit with
  | some raw => exact ⟨_, _, rfl, h₁⟩
  | none =>
      obtain ⟨hit, w₂, heq₂, h₂⟩ := os.exactPath_spec size align
        (t.hugeSupported && huge && align == linuxHugePageSize) w₁ fun hb => (hhuge hb).1
      simp only [heq₂, Option.bind_some]
      cases hit with
      | some raw => exact ⟨_, _, rfl, h₁.reserved h₂⟩
      | none =>
          obtain ⟨answer, w₃, heq₃, h₃⟩ := os.overReserve_spec w₂ hv hhuge
          exact ⟨_, _, heq₃, (h₁.trans h₂).settled h₃⟩

end Unix

/-! ## Windows -/

namespace Windows
variable (os : Windows t)

lemma allocate_spec (addr len : ℕ) (commit largePages : Bool) (w : World) :
    (∃ w', os.allocate addr len commit largePages w = (none, w') ∧ Restored w w') ∨
    ∃ p w', os.allocate addr len commit largePages w = (some p, w') ∧
      Holds w ⟨p, len, largePages⟩ w' ∧ p + len ≤ t.usizeMax := by
  unfold allocate
  dsimp only
  have hplaced := os.placed w.calls addr len ⟨true, commit, largePages⟩ rfl
  generalize os.virtualAlloc w.calls addr len ⟨true, commit, largePages⟩ = p at hplaced
  by_cases hnull : p = 0
  · rw [if_pos hnull]
    exact .inl ⟨_, rfl, Restored.called w⟩
  · rw [if_neg hnull]
    exact .inr ⟨_, _, rfl, (Restored.called w).holds (Holds.obtain _ _), (hplaced hnull).2⟩

lemma reReserve_spec {size align overLen : ℕ} (tries : ℕ) (w : World) (hv : t.Valid size align) :
    ∃ hit w', os.reReserve size align overLen tries w = some (hit, w') ∧
      Attempted 1 size align w hit w' := by
  induction tries generalizing w with
  | zero => exact ⟨_, _, rfl, Restored.refl w⟩
  | succ tries ih =>
      rw [reReserve]
      obtain ⟨w₁, heq₁, hprobe⟩ | ⟨probe, w₁, heq₁, hprobe, -⟩ :=
        os.allocate_spec 0 overLen false false w
      · rw [heq₁]
        exact ⟨_, _, rfl, hprobe⟩
      obtain ⟨w₂, heq₂, hback⟩ := hprobe.virtualRelease
      rw [heq₁]
      dsimp only at heq₂ ⊢
      cases htarget : t.alignUpAddr probe align with
      | none =>
          simp only [heq₂, Option.map_some]
          exact ⟨_, _, rfl, hback⟩
      | some target =>
          simp only [heq₂, Option.bind_eq_bind, Option.bind_some]
          obtain ⟨w₃, heq₃, hput⟩ | ⟨base, w₃, heq₃, hput, -⟩ :=
            os.allocate_spec target size true false w₂
          · obtain ⟨hit, w', heq, h⟩ := ih w₃
            rw [heq₃]
            exact ⟨_, _, heq, (hback.trans hput).attempted h⟩
          rw [heq₃]
          by_cases hbase : base = target
          · simp only [if_pos hbase]
            have hdvd : align ∣ base := by
              rw [Target.alignUpAddr, Option.map_eq_some_iff] at htarget
              obtain ⟨sum, hsum, rfl⟩ := htarget
              obtain ⟨hle, rfl⟩ := Target.checkedAdd_eq_some.mp hsum
              rw [hbase, Target.clearBelow_eq hv.powerOfTwo hle]
              exact Nat.dvd_mul_left _ _
            exact ⟨_, _, rfl, hback.reserved (hput.reserved (fun _ => one_dvd _) hdvd)⟩
          · obtain ⟨w₄, heq₄, hback'⟩ := hput.virtualRelease
            obtain ⟨hit, w', heq, h⟩ := ih w₄
            dsimp only at heq₄
            simp only [if_neg hbase, heq₄, Option.bind_some]
            exact ⟨_, _, heq, (hback.trans hback').attempted h⟩

lemma singleCall_spec {align commitLen : ℕ} {large : Bool} (w : World) :
    ∃ single w', os.singleCall align commitLen large w = some (single, w') ∧
      match single with
      | none => Restored w w'
      | some answer => Settled 1 commitLen align w answer w' := by
  have hlanded : ∀ (base : ℕ) (huge : Bool) (w' : World), Holds w ⟨base, commitLen, huge⟩ w' →
      ∃ single w'', (if align ∣ base then some (some (.ok ⟨base, base, commitLen, huge⟩), w')
        else (virtualRelease base w').map fun w => (none, w)) = some (single, w'') ∧
      match single with
      | none => Restored w w''
      | some answer => Settled 1 commitLen align w answer w'' := by
    intro base huge w' hheld
    by_cases hdvd : align ∣ base
    · rw [if_pos hdvd]
      exact ⟨_, _, rfl, hheld.reserved (fun _ => one_dvd _) hdvd⟩
    · obtain ⟨w'', heq, hback⟩ := hheld.virtualRelease
      dsimp only at heq
      rw [if_neg hdvd, heq]
      exact ⟨_, _, rfl, hback⟩
  have hrefused : ∀ w', Restored w w' →
      Settled 1 commitLen align w (.error .osRefusal) w' := fun w' h => ⟨by decide, h⟩
  unfold singleCall
  obtain ⟨w₁, heq₁, hfirst⟩ | ⟨p, w₁, heq₁, hfirst, -⟩ :=
    os.allocate_spec 0 commitLen true large w
  · rw [heq₁]
    cases large with
    | false => exact ⟨_, _, rfl, hrefused w₁ hfirst⟩
    | true =>
        -- The request is made again for ordinary pages.
        obtain ⟨w₂, heq₂, hplain⟩ | ⟨p, w₂, heq₂, hplain, -⟩ :=
          os.allocate_spec 0 commitLen true false w₁
        · simp only [if_true, heq₂]
          exact ⟨_, _, rfl, hrefused w₂ (hfirst.trans hplain)⟩
        · simp only [if_true, heq₂]
          exact hlanded p false w₂ (hfirst.holds hplain)
  · rw [heq₁]
    exact hlanded p large w₁ hfirst

lemma overRegion_spec {size align : ℕ} (w : World) (hv : t.Valid size align) :
    ∃ answer w', os.overRegion size align w = (answer, w') ∧
      match answer with
      | .error e => e ≠ .invalidArgument ∧ Restored w w'
      | .ok (region, overLen) => region + overLen ≤ t.usizeMax ∧ size + align ≤ overLen ∧
          Holds w ⟨region, overLen, false⟩ w' := by
  rw [overRegion, Target.checkedAdd_eq hv.sum_le]
  obtain ⟨w₁, heq, hrest⟩ | ⟨region, w₁, heq, hheld, htop⟩ :=
    os.allocate_spec 0 (size + align) false false w
  · simp only [heq]
    exact ⟨_, _, rfl, by decide, hrest⟩
  · simp only [heq]
    exact ⟨_, _, rfl, htop, le_rfl, hheld⟩

lemma reserveRegion_spec {size align : ℕ} (w : World) (hv : t.Valid size align) :
    ∃ answer w', os.reserveRegion size align w = some (answer, w') ∧
      match answer with
      | .error e => e ≠ .invalidArgument ∧ Restored w w'
      | .ok (region, overLen) => region + overLen ≤ t.usizeMax ∧
          (size + align ≤ overLen ∨ align ∣ region ∧ size ≤ overLen) ∧
          Holds w ⟨region, overLen, false⟩ w' := by
  have hlonger : ∀ w₁, Restored w w₁ → ∃ answer w', some (os.overRegion size align w₁) =
      some (answer, w') ∧ match answer with
      | .error e => e ≠ .invalidArgument ∧ Restored w w'
      | .ok (region, overLen) => region + overLen ≤ t.usizeMax ∧
          (size + align ≤ overLen ∨ align ∣ region ∧ size ≤ overLen) ∧
          Holds w ⟨region, overLen, false⟩ w' := by
    intro w₁ hrest
    obtain ⟨answer, w₂, heq, h⟩ := os.overRegion_spec w₁ hv
    refine ⟨answer, w₂, congrArg some heq, ?_⟩
    cases answer with
    | error e => exact ⟨h.1, hrest.trans h.2⟩
    | ok p => exact ⟨h.1, .inl h.2.1, hrest.holds h.2.2⟩
  unfold reserveRegion
  split_ifs with hsmall
  · obtain ⟨w₁, heq₁, hrest⟩ | ⟨candidate, w₁, heq₁, hheld, htop⟩ :=
      os.allocate_spec 0 size false false w
    · rw [heq₁]
      exact ⟨_, _, rfl, by decide, hrest⟩
    rw [heq₁]
    by_cases hdvd : align ∣ candidate
    · simp only [if_pos hdvd]
      exact ⟨_, _, rfl, htop, .inr ⟨hdvd, le_rfl⟩, hheld⟩
    · obtain ⟨w₂, heq, hback⟩ := hheld.virtualRelease
      dsimp only at heq
      simp only [if_neg hdvd, heq, Option.map_some]
      exact hlonger w₂ hback
  · exact hlonger w (Restored.refl w)

lemma commit_spec {addr len : ℕ} {m : Mapping} {w w' : World} (h : Holds w m w')
    (hlow : m.addr ≤ addr) (hhigh : addr + len ≤ m.addr + m.len) :
    ∃ committed w'', os.commit addr len w' = some (committed, w'') ∧ Restored w' w'' := by
  obtain ⟨ticket, -, hl⟩ := h.live
  refine ⟨_, _, if_pos ⟨(ticket, m), ?_, hlow, hhigh⟩, Restored.called w'⟩
  rw [hl]
  exact List.mem_cons_self

lemma twoCall_spec {size align commitLen : ℕ} (w : World) (hv : t.Valid size align)
    (hcommit : commitLen ≤ size) :
    ∃ answer w', os.twoCall size align commitLen w = some (answer, w') ∧
      Settled 1 size align w answer w' := by
  obtain ⟨answer, w₁, heq, h⟩ := os.reserveRegion_spec w hv
  simp only [twoCall, heq, Option.bind_eq_bind, Option.bind_some]
  cases answer with
  | error e => exact ⟨_, _, rfl, h⟩
  | ok p =>
      obtain ⟨region, overLen⟩ := p
      obtain ⟨htop, hroom, hheld⟩ := h
      obtain ⟨base, hbase, hdvd, hlow, hhigh⟩ := Target.fits_spec hv htop hroom
      obtain ⟨committed, w₂, heq₂, hdone⟩ := os.commit_spec hheld hlow
        ((Nat.add_le_add_left hcommit base).trans hhigh)
      simp only [hbase, heq₂, Option.bind_some]
      cases committed with
      | true => exact ⟨_, _, rfl, hheld.restored hdone, fun _ => one_dvd _, hdvd, hlow, hhigh⟩
      | false =>
          obtain ⟨w₃, heq₃, hback⟩ := (hheld.restored hdone).virtualRelease
          dsimp only at heq₃
          simp only [heq₃, Bool.false_eq_true, if_false, Option.bind_some]
          exact ⟨_, _, rfl, by decide, hback⟩

lemma winReserveCommit_spec {size align commitLen : ℕ} (large : Bool) (w : World)
    (hv : t.Valid size align) (hcommit : commitLen ≤ size) :
    ∃ answer w', os.winReserveCommit size align commitLen large w = some (answer, w') ∧
      Settled 1 size align w answer w' := by
  have hsingle : ∃ single w₁, os.singlePath size align commitLen large w = some (single, w₁) ∧
      match single with
      | none => Restored w w₁
      | some answer => Settled 1 size align w answer w₁ := by
    unfold singlePath
    dsimp only
    by_cases htry : align ≤ (if large then os.largePageMinimum else winAllocationGranularity) ∧
        commitLen = size
    · rw [if_pos htry, htry.2]
      exact os.singleCall_spec w
    · rw [if_neg htry]
      exact ⟨_, _, rfl, Restored.refl w⟩
  obtain ⟨single, w₁, heq₁, h₁⟩ := hsingle
  simp only [winReserveCommit, heq₁, Option.bind_eq_bind, Option.bind_some]
  cases single with
  | some answer => exact ⟨_, _, rfl, h₁⟩
  | none =>
      have hprobe : ∃ hit w₂, os.probePath size align commitLen large w₁ = some (hit, w₂) ∧
          Attempted 1 size align w₁ hit w₂ := by
        unfold probePath
        split_ifs with htry
        · rw [Target.checkedAdd_eq hv.sum_le]
          exact os.reReserve_spec rereserveTries w₁ hv
        · exact ⟨_, _, rfl, Restored.refl w₁⟩
      obtain ⟨hit, w₂, heq₂, h₂⟩ := hprobe
      simp only [heq₂, Option.bind_some]
      cases hit with
      | some raw => exact ⟨_, _, rfl, h₁.reserved h₂⟩
      | none =>
          obtain ⟨answer, w₃, heq₃, h₃⟩ := os.twoCall_spec w₂ hv hcommit
          exact ⟨_, _, heq₃, (h₁.trans h₂).settled h₃⟩

end Windows

end AlignedVmem
end SeferAlloc
