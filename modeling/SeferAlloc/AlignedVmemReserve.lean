import SeferAlloc.AlignedVmemPaths

/-!
# Aligned and biased reservations

The reservations of both platforms keep one mapping, with the span inside it,
or none. The biased reservation of a Large segment puts the payload, not the
metadata before it, at a multiple of the alignment.
-/
namespace SeferAlloc
namespace AlignedVmem
variable {t : Target}

/-! ## The portable interface -/

/-- The unit a reservation of huge pages is given back in. -/
def Os.hugeUnit : Os t → ℕ
  | .unix _ => linuxHugePageSize
  | .windows _ => 1

namespace Target

/-- What `validate_initial_commit` accepts. -/
lemma commit_le_of_ok {initialCommit size : ℕ}
    (h : t.validateInitialCommit initialCommit size = .ok ()) : initialCommit ≤ size := by
  unfold validateInitialCommit at h
  split at h
  · simp at h
  · split_ifs at h with hargs
    push Not at hargs
    exact hargs.2.2.2

end Target

namespace Os
variable (os : Os t)

/-- What an attempt through the interface comes to. -/
def Finished (size align : ℕ) (w : World) : Except VmemError Reservation → World → Prop
  | .error _, w' => Restored w w'
  | .ok r, w' => r.len = size ∧ t.Valid size align ∧
      Reserved os.hugeUnit size align w ⟨r.base, r.reservation, r.reservationLen, r.grantedHuge⟩ w'

lemma finished_of_settled {size align : ℕ} {w : World} {attempt : Option _}
    (hv : t.Valid size align) (h : ∃ answer w', attempt = some (answer, w') ∧
      Settled os.hugeUnit size align w answer w') :
    ∃ answer w', attempt.map (fun p => (p.1.map (finishReservation size align), p.2)) =
      some (answer, w') ∧ os.Finished size align w answer w' := by
  obtain ⟨answer, w', rfl, h⟩ := h
  refine ⟨_, _, rfl, ?_⟩
  cases answer with
  | error e => exact h.2
  | ok raw => exact ⟨rfl, hv, h⟩

lemma tryReserveAligned_spec (size align : ℕ) (w : World) :
    ∃ answer w', os.tryReserveAligned size align w = some (answer, w') ∧
      os.Finished size align w answer w' := by
  unfold tryReserveAligned
  cases hvalid : t.validateSizeAlign size align with
  | error e => exact ⟨_, _, rfl, Restored.refl w⟩
  | ok _ =>
      have hv := Target.valid_of_ok hvalid
      apply os.finished_of_settled hv
      cases os with
      | unix os =>
          exact os.unixReserve_spec w hv Unix.not_hugeMisfit_ordinary
      | windows os => exact os.winReserveCommit_spec false w hv le_rfl

lemma tryReserveAlignedLazy_spec (size align initialCommit : ℕ) (w : World) :
    ∃ answer w', os.tryReserveAlignedLazy size align initialCommit w = some (answer, w') ∧
      os.Finished size align w answer w' := by
  unfold tryReserveAlignedLazy
  cases hvalid : t.validateSizeAlign size align with
  | error e => exact ⟨_, _, rfl, Restored.refl w⟩
  | ok _ =>
      have hv := Target.valid_of_ok hvalid
      cases hcommit : t.validateInitialCommit initialCommit size with
      | error e => exact ⟨_, _, rfl, Restored.refl w⟩
      | ok _ =>
          apply os.finished_of_settled hv
          cases os with
          | unix os => exact os.unixReserve_spec w hv Unix.not_hugeMisfit_ordinary
          | windows os => exact os.winReserveCommit_spec false w hv (Target.commit_le_of_ok hcommit)

/-- A reservation is given back as the one mapping it is. -/
lemma dropReservation_spec {r : Reservation} {size align : ℕ} {w w' : World}
    (h : Reserved os.hugeUnit size align w
      ⟨r.base, r.reservation, r.reservationLen, r.grantedHuge⟩ w') :
    ∃ w'', os.dropReservation r w' = some w'' ∧ Restored w w'' := by
  cases os with
  | unix os => exact h.mapping.munmap h.whole
  | windows os => exact h.mapping.virtualRelease

lemma commitRange_spec {root committed : ℕ} {m : Mapping} {w w' : World} (h : Holds w m w')
    (hlow : m.addr ≤ root) (hhigh : root + committed ≤ m.addr + m.len) :
    ∃ done w'', os.commitRange root 0 committed w' = some (done, w'') ∧ Restored w' w'' := by
  unfold commitRange
  cases hps : t.pageSizeOrPoison with
  | none => exact ⟨_, _, rfl, Restored.refl w'⟩
  | some ps =>
      dsimp only
      split_ifs with hargs hempty
      · exact ⟨_, _, rfl, Restored.refl w'⟩
      · exact ⟨_, _, rfl, Restored.refl w'⟩
      · cases os with
        | unix os => exact ⟨_, _, rfl, Restored.refl w'⟩
        | windows os => exact os.commit_spec h hlow hhigh

/-- The payload of a biased window is aligned, and the window inside the reservation. -/
lemma biasedRoot_spec {raw : Reservation} {useful committed align metadata root : ℕ}
    (ha : align.isPowerOfTwo)
    (h : biasedRoot t raw useful committed align metadata = some root) :
    align ∣ root + metadata ∧ raw.base ≤ root ∧ root + useful ≤ raw.base + raw.len ∧
      committed ≤ useful := by
  simp only [biasedRoot, biasedRootOffset, Target.checkedSub, Option.bind_eq_bind,
    Option.bind_eq_some_iff, Target.checkedAdd_eq_some, Option.ite_none_right_eq_some,
    Option.ite_none_left_eq_some, Option.some.injEq] at h
  obtain ⟨offset, ⟨_, ⟨-, rfl⟩, sum, ⟨hsum, rfl⟩, _, ⟨hmeta, rfl⟩, horigin, rfl⟩, _, ⟨-, rfl⟩,
    hfit, rfl⟩ := h
  rw [Target.clearBelow_eq ha hsum] at *
  push Not at hfit
  have hback : raw.base + ((raw.base + metadata + (align - 1)) / align * align - metadata -
      raw.base) + metadata = (raw.base + metadata + (align - 1)) / align * align := by
    omega
  refine ⟨?_, by omega, by omega, hfit.2⟩
  rw [hback]
  exact Nat.dvd_mul_left _ _

/-- The one mapping with the useful window inside it, or nothing. -/
def Biased (useful align metadata : ℕ) (w : World) : Option (ℕ × ℕ × ℕ) → World → Prop
  | none, w' => Restored w w'
  | some (root, token, len), w' => (∃ huge, Holds w ⟨token, len, huge⟩ w') ∧
      align ∣ root + metadata ∧ token ≤ root ∧ root + useful ≤ token + len

lemma reserveBiased_spec (useful committed align metadata : ℕ) (w : World)
    (ha : align.isPowerOfTwo) :
    ∃ answer w', os.reserveBiased useful committed align metadata w = some (answer, w') ∧
      Biased useful align metadata w answer w' := by
  unfold reserveBiased
  cases hlen : t.checkedAdd useful align with
  | none => exact ⟨_, _, rfl, Restored.refl w⟩
  | some rawLen =>
      obtain ⟨answer, w₁, heq₁, h⟩ := os.tryReserveAlignedLazy_spec rawLen segment t.pageSize w
      simp only [heq₁, Option.bind_eq_bind, Option.bind_some]
      cases answer with
      | error e => exact ⟨_, _, rfl, h⟩
      | ok raw =>
          obtain ⟨hraw, -, hres⟩ := h
          cases hroot : biasedRoot t raw useful committed align metadata with
          | none =>
              obtain ⟨w₂, heq₂, hback⟩ := os.dropReservation_spec hres
              simp only [hroot, heq₂, Option.bind_some]
              exact ⟨_, _, rfl, hback⟩
          | some root =>
              obtain ⟨hdvd, hlow, hhigh, hcommit⟩ := biasedRoot_spec ha hroot
              have habove := hres.above
              have hbelow := hres.below
              dsimp only at habove hbelow
              rw [hraw] at hhigh
              obtain ⟨done, w₂, heq₂, hdone⟩ := os.commitRange_spec hres.mapping
                (hbelow.trans hlow) (show root + committed ≤ raw.reservation + _ by
                  dsimp only; omega)
              simp only [hroot, heq₂, Option.bind_some]
              cases done with
              | true =>
                  exact ⟨_, _, rfl, ⟨_, hres.mapping.restored hdone⟩, hdvd, hbelow.trans hlow,
                    by omega⟩
              | false =>
                  have hres' : Reserved os.hugeUnit rawLen segment w
                      ⟨raw.base, raw.reservation, raw.reservationLen, raw.grantedHuge⟩ w₂ :=
                    ⟨hres.mapping.restored hdone, hres.whole, hres.aligned, hbelow, habove⟩
                  obtain ⟨w₃, heq₃, hback⟩ := os.dropReservation_spec hres'
                  simp only [heq₃, Bool.false_eq_true, if_false, Option.bind_some]
                  exact ⟨_, _, rfl, hback⟩

/-- A granted window leaves room for the alignment below the top of the address space. -/
lemma le_usizeMax_of_reserveBiased {useful committed align metadata : ℕ} {w w' : World}
    {r : ℕ × ℕ × ℕ}
    (h : os.reserveBiased useful committed align metadata w = some (some r, w')) :
    useful + align ≤ t.usizeMax := by
  by_contra hnot
  simp [reserveBiased, Target.checkedAdd, hnot] at h

end Os

/-! ## Every mapping is released exactly once, or kept -/

/-- The live mappings are as before, and every mapping obtained since was released once. -/
def AllReleased (w w' : World) : Prop :=
  w'.mappings.live = w.mappings.live ∧
    ∀ ticket, w.mappings.count ≤ ticket → ticket < w'.mappings.count →
      (w'.mappings.released.map Prod.fst).count ticket = 1

/-- One mapping obtained since is live, and every other one was released once. -/
def OneKept (w : World) (m : Mapping) (w' : World) : Prop :=
  ∃ kept, w'.mappings.live = (kept, m) :: w.mappings.live ∧
    w.mappings.count ≤ kept ∧ kept < w'.mappings.count ∧
    ∀ ticket, w.mappings.count ≤ ticket → ticket < w'.mappings.count →
      ((w'.mappings.released.map Prod.fst).count ticket = 1 ↔ ticket ≠ kept)

lemma Restored.allReleased {w w' : World} (h : Restored w w') (hw : w.mappings.Accounted) :
    AllReleased w w' := by
  refine ⟨h.live, fun ticket hnew hlt => ?_⟩
  rw [(h.accounted hw).released_iff hlt, h.live]
  exact fun hmem => absurd (hw.lt_of_live hmem) (by omega)

lemma Holds.oneKept {w w' : World} {m : Mapping} (h : Holds w m w') (hw : w.mappings.Accounted) :
    OneKept w m w' := by
  obtain ⟨kept, hnew, hl⟩ := h.live
  have hw' := h.accounted hw
  have hkept : kept ∈ w'.mappings.live.map Prod.fst := by
    rw [hl]
    exact List.mem_cons_self
  refine ⟨kept, hl, hnew, hw'.lt_of_live hkept, fun ticket hticket hlt => ?_⟩
  have hold : ticket ∉ w.mappings.live.map Prod.fst := fun hmem =>
    absurd (hw.lt_of_live hmem) (by omega)
  rw [hw'.released_iff hlt, hl, List.map_cons, List.mem_cons, not_or, and_iff_left hold]

/-- A failure with nothing left, or the aligned span inside the one mapping that is kept. -/
def Delivered (misfit : Prop) (size align : ℕ) (w : World) :
    Except VmemError RawReservation → World → Prop
  | .error e, w' => AllReleased w w' ∧ (e = .invalidArgument → misfit)
  | .ok raw, w' => OneKept w ⟨raw.reservation, raw.reservationLen, raw.grantedHuge⟩ w' ∧
      align ∣ raw.base ∧ raw.reservation ≤ raw.base ∧
      raw.base + size ≤ raw.reservation + raw.reservationLen

lemma Settled.delivered {unit size align : ℕ} {w w' : World} {misfit : Prop}
    {answer : Except VmemError RawReservation} (h : Settled unit size align w answer w')
    (hw : w.mappings.Accounted) : Delivered misfit size align w answer w' := by
  cases answer with
  | error e => exact ⟨h.2.allReleased hw, fun he => absurd he h.1⟩
  | ok raw => exact ⟨h.mapping.oneKept hw, h.aligned, h.below, h.above⟩

/-- Whatever the OS answers, a reservation fails with every mapping it obtained released exactly
once, or keeps one mapping, with an aligned span inside it and huge pages only if that mapping
was requested with them. Its own arithmetic never fails. A biased reservation keeps the window
in front of and at an aligned payload. -/
theorem reservation_exact {w : World} (hw : w.mappings.Accounted) :
    (∀ (os : Unix t) size align huge, t.validateSizeAlign size align = .ok () →
      ∃ answer w', os.unixReserve size align huge w = some (answer, w') ∧
        Delivered (Unix.HugeMisfit t size align huge) size align w answer w') ∧
    (∀ (os : Windows t) size align commitLen large, t.validateSizeAlign size align = .ok () →
      commitLen ≤ size →
      ∃ answer w', os.winReserveCommit size align commitLen large w = some (answer, w') ∧
        Delivered False size align w answer w') ∧
    ∀ (os : Os t) useful committed align metadata, align.isPowerOfTwo →
      ∃ answer w', os.reserveBiased useful committed align metadata w = some (answer, w') ∧
        match answer with
        | none => AllReleased w w'
        | some (root, token, len) => (∃ huge, OneKept w ⟨token, len, huge⟩ w') ∧
            align ∣ root + metadata ∧ token ≤ root ∧ root + useful ≤ token + len := by
  refine ⟨fun os size align huge hvalid => ?_, fun os size align commitLen large hvalid hcommit =>
    ?_, fun os useful committed align metadata ha => ?_⟩
  · by_cases hmis : Unix.HugeMisfit t size align huge
    · exact ⟨_, _, os.unixReserve_misfit w hmis, (Restored.refl w).allReleased hw, fun _ => hmis⟩
    · obtain ⟨answer, w', heq, h⟩ := os.unixReserve_spec w (Target.valid_of_ok hvalid) hmis
      exact ⟨answer, w', heq, h.delivered hw⟩
  · obtain ⟨answer, w', heq, h⟩ :=
      os.winReserveCommit_spec large w (Target.valid_of_ok hvalid) hcommit
    exact ⟨answer, w', heq, h.delivered hw⟩
  · obtain ⟨answer, w', heq, h⟩ := os.reserveBiased_spec useful committed align metadata w ha
    refine ⟨answer, w', heq, ?_⟩
    rcases answer with _ | ⟨root, token, len⟩
    · exact h.allReleased hw
    · exact ⟨h.1.imp fun _ hm => hm.oneKept hw, h.2⟩

def target64 : Target := ⟨64, true, 4096⟩

def misplaced : List ℕ := [0x10001000, 0, 0x20001000, 0x30000000, 0, 0x40001000, 0x40400000]

/-- Windows takes the first probed address away, answers the second request elsewhere, refuses
the third probe and grants a region that is not aligned. -/
def misplacing : Windows target64 where
  virtualAlloc n _ len _ := if len ≤ 2 ^ 32 then misplaced.getD n 0 else 0
  largePageMinimum := 0
  placed n addr len kind _ h := by
    have htable : ∀ p ∈ misplaced, page ∣ p ∧ p + 2 ^ 32 ≤ target64.usizeMax := by
      decide +kernel
    by_cases hlen : len ≤ 2 ^ 32
    · simp only [if_pos hlen] at h ⊢
      have hmem : misplaced.getD n 0 ∈ misplaced := by
        rw [List.getD_eq_getElem?_getD] at h ⊢
        cases hn : misplaced[n]? with
        | none => simp [hn] at h
        | some p => exact List.mem_of_getElem? (by simpa using hn)
      have := htable _ hmem
      omega
    · exact absurd (if_neg hlen) h

def start : World := ⟨0, ResourceLedger.empty⟩

theorem reservation_exact_misplaced : ∃ w',
    misplacing.winReserveCommit 0x800000 0x400000 0x800000 false start =
      some (.ok ⟨0x40400000, 0x40001000, 0xC00000, false⟩, w') ∧
    OneKept start ⟨0x40001000, 0xC00000, false⟩ w' := by
  obtain ⟨-, hwindows, -⟩ := reservation_exact (t := target64) (w := start)
    ResourceLedger.accounted_empty
  obtain ⟨answer, w', heq, h⟩ := hwindows misplacing 0x800000 0x400000 0x800000 false
    (by decide +kernel) le_rfl
  have hanswer : (misplacing.winReserveCommit 0x800000 0x400000 0x800000 false start).map
      (fun p => p.1.toOption) = some (some ⟨0x40400000, 0x40001000, 0xC00000, false⟩) := by
    decide +kernel
  rw [heq] at hanswer
  obtain ⟨raw, rfl⟩ : ∃ raw, answer = .ok raw := by
    cases answer with
    | ok raw => exact ⟨raw, rfl⟩
    | error e => cases hanswer
  obtain rfl : raw = ⟨0x40400000, 0x40001000, 0xC00000, false⟩ := by
    simpa [Except.toOption] using hanswer
  exact ⟨w', heq, h.1⟩

end AlignedVmem
end SeferAlloc
