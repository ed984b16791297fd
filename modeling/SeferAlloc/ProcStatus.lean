import SeferAlloc.ByteText

/-!
# The `/proc` status parser

A field is looked up on the first line that starts with its prefix. The lookup
keeps absence apart from a line that breaks the kB grammar. The fused reader
walks the buffer once for several prefixes.
-/
namespace SeferAlloc.ProcStatus
open ByteText

/-- What looking a field up finds. -/
inductive KibFieldLookup where
  | absent
  | invalid
  | value (kib : ℕ)
  deriving DecidableEq, Repr

/-- One past the largest `u64`. -/
def u64Bound : ℕ := 2 ^ 64

def checkedMul (a b : ℕ) : Option ℕ := if a * b < u64Bound then some (a * b) else none

def checkedAdd (a b : ℕ) : Option ℕ := if a + b < u64Bound then some (a + b) else none

/-- `b - b'0'` on a digit. -/
def digitOf (b : UInt8) : ℕ := (b - 48).toNat

def parseAsciiU64 (digits : Bytes) : Option ℕ :=
  if digits.isEmpty then none
  else digits.foldlM (fun acc b => (checkedMul acc 10).bind (checkedAdd · (digitOf b))) 0

/-- `integer_span`: where the digit run after leading whitespace starts and ends. -/
def integerSpan (rest : Bytes) : Option (ℕ × ℕ) :=
  match rest.findIdx? isAsciiDigit with
  | none => none
  | some start =>
      if (rest.take start).any (!isAsciiWhitespace ·) then none
      else
        let tail := rest.drop start
        some (start, start + (tail.findIdx? (!isAsciiDigit ·)).getD (rest.length - start))

/-- The bytes `kB`. -/
def kB : Bytes := [107, 66]

def fieldValue (rest : Bytes) : KibFieldLookup :=
  match integerSpan rest with
  | none => .invalid
  | some (start, stop) =>
      let tail := rest.drop stop
      match tail.findIdx? (!isAsciiWhitespace ·) with
      | none => .invalid
      | some ws =>
          if ws = 0 then .invalid
          else match kB.isPrefixOf? (tail.drop ws) with
            | none => .invalid
            | some unit =>
                if !unit.all isAsciiWhitespace then .invalid
                else match parseAsciiU64 ((rest.drop start).take (stop - start)) with
                  | some kib => .value kib
                  | none => .invalid

/-- The lines of a buffer, `split(|&b| b == b'\n')`. -/
def lines (status : Bytes) : List Bytes := status.splitOn 10

/-- The loop of `read_kib_field_lookup` over the lines. -/
def lookupLines (pre : Bytes) : List Bytes → KibFieldLookup
  | [] => .absent
  | line :: rest =>
      match pre.isPrefixOf? line with
      | none => lookupLines pre rest
      | some field => fieldValue field

def readKibFieldLookup (status pre : Bytes) : KibFieldLookup := lookupLines pre (lines status)

/-- The collapse of absence and invalidity in `read_kib_field`. -/
def KibFieldLookup.toOption : KibFieldLookup → Option ℕ
  | .value kib => some kib
  | .absent | .invalid => none

def readKibField (status pre : Bytes) : Option ℕ := (readKibFieldLookup status pre).toOption

/-! ## The fused reader -/

/-- The loop variables `out`, `seen` and `remaining`. -/
structure Fused (n : ℕ) where
  out : Fin n → Option ℕ
  seen : Fin n → Bool
  remaining : ℕ

/-- A field resolved by a line with this rest. -/
def Fused.record {n : ℕ} (s : Fused n) (i : Fin n) (field : Bytes) : Fused n where
  out := Function.update s.out i (fieldValue field).toOption
  seen := Function.update s.seen i true
  remaining := s.remaining - 1

/-- The inner loop over the prefixes, with its `break` on a match. -/
def scanLine {n : ℕ} (prefixes : Fin n → Bytes) (line : Bytes) : List (Fin n) → Fused n → Fused n
  | [], s => s
  | i :: is, s =>
      if s.seen i then scanLine prefixes line is s
      else match (prefixes i).isPrefixOf? line with
        | none => scanLine prefixes line is s
        | some field => s.record i field

/-- The outer loop, which stops once every field is resolved. -/
def scanLines {n : ℕ} (prefixes : Fin n → Bytes) : List Bytes → Fused n → Fused n
  | [], s => s
  | line :: rest, s =>
      if s.remaining = 0 then s
      else scanLines prefixes rest (scanLine prefixes line (List.finRange n) s)

def readKibFields {n : ℕ} (status : Bytes) (prefixes : Fin n → Bytes) : Fin n → Option ℕ :=
  (scanLines prefixes (lines status) ⟨fun _ => none, fun _ => false, n⟩).out

/-! ## Conversion to bytes -/

/-- Why a snapshot fails. -/
inductive SnapshotError where
  | unsupported
  | os
  | malformed
  deriving DecidableEq, Repr

/-- The memory figures of a process, in bytes. -/
structure MemStat where
  rss : ℕ
  virtualSize : Option ℕ
  commitCharge : Option ℕ
  peakRss : Option ℕ
  deriving DecidableEq, Repr

/-- Kibibytes as bytes, `kib.checked_mul(1024).ok_or(Malformed)`. -/
def scaled (kib : ℕ) : Except SnapshotError ℕ :=
  match checkedMul kib 1024 with
  | some v => .ok v
  | none => .error .malformed

def scaledOptional : KibFieldLookup → Except SnapshotError (Option ℕ)
  | .absent => .ok none
  | .invalid => .error .malformed
  | .value kib => (scaled kib).map some

/-- The bytes `VmRSS:`. -/
def vmRss : Bytes := [86, 109, 82, 83, 83, 58]

/-- The bytes `VmSize:`. -/
def vmSize : Bytes := [86, 109, 83, 105, 122, 101, 58]

/-- The bytes `VmHWM:`. -/
def vmHwm : Bytes := [86, 109, 72, 87, 77, 58]

def memstatFromStatus (status : Bytes) : Except SnapshotError MemStat := do
  let rss ← match readKibFieldLookup status vmRss with
    | .value kib => scaled kib
    | .absent | .invalid => .error .malformed
  let virtualSize ← scaledOptional (readKibFieldLookup status vmSize)
  let peakRss ← scaledOptional (readKibFieldLookup status vmHwm)
  return { rss, virtualSize, commitCharge := none, peakRss }

/-- `snapshot_from_read`: a failed read is `Os`, a content defect is what the conversion says. -/
def snapshotFromRead (read : Option Bytes) : Except SnapshotError MemStat :=
  match read with
  | none => .error .os
  | some status => memstatFromStatus status

/-! ## The grammar -/

/-- The decimal value of a run of ASCII digits. -/
def decimal (digits : Bytes) : ℕ := valueOf 10 digitOf digits

/-- `rest` is `ws* digit+ ws+ "kB" ws*` with these digits. -/
def KibLine (rest digits : Bytes) : Prop :=
  ∃ a b c, rest = a ++ digits ++ b ++ kB ++ c ∧ (∀ x ∈ a, isAsciiWhitespace x = true) ∧
    digits ≠ [] ∧ (∀ x ∈ digits, isAsciiDigit x = true) ∧
    b ≠ [] ∧ (∀ x ∈ b, isAsciiWhitespace x = true) ∧ ∀ x ∈ c, isAsciiWhitespace x = true

lemma foldlM_digits (digits : Bytes) :
    digits.foldlM (fun acc b => (checkedMul acc 10).bind (checkedAdd · (digitOf b))) 0 =
      if decimal digits < u64Bound then some (decimal digits) else none := by
  induction digits using List.reverseRecOn with
  | nil => rfl
  | append_singleton digits b ih =>
      have hval : decimal (digits ++ [b]) = decimal digits * 10 + digitOf b :=
        valueOf_append_singleton 10 digitOf digits b
      rw [List.foldlM_append, ih, hval]
      by_cases hlt : decimal digits < u64Bound
      · simp only [if_pos hlt, List.foldlM_cons, List.foldlM_nil, checkedMul, checkedAdd,
          Option.bind_eq_bind, Option.bind_some]
        by_cases hmul : decimal digits * 10 < u64Bound
        · simp only [if_pos hmul, Option.bind_some]
          split_ifs <;> rfl
        · rw [if_neg hmul, if_neg (by omega)]
          rfl
      · rw [if_neg hlt, if_neg (by omega)]
        rfl

/-- The parse of a non-empty digit run is its value, if that is a `u64`. -/
lemma parseAsciiU64_eq {digits : Bytes} (h : digits ≠ []) :
    parseAsciiU64 digits = if decimal digits < u64Bound then some (decimal digits) else none := by
  rw [parseAsciiU64, if_neg (by simpa using h), foldlM_digits]

/-- The span of a digit run that leading whitespace precedes and no digit follows. -/
lemma integerSpan_append {a d r : Bytes} (ha : ∀ x ∈ a, isAsciiWhitespace x = true) (hd : d ≠ [])
    (hdig : ∀ x ∈ d, isAsciiDigit x = true) (hr : ∀ x ∈ r.head?, isAsciiDigit x = false) :
    integerSpan (a ++ d ++ r) = some (a.length, a.length + d.length) := by
  obtain ⟨x, t, rfl⟩ := List.exists_cons_of_ne_nil hd
  have hstart : (a ++ (x :: t) ++ r).findIdx? isAsciiDigit = some a.length := by
    rw [List.append_assoc]
    exact findIdx?_append_cons _ (fun y hy => not_digit_of_whitespace (ha y hy))
      (hdig x (by simp))
  have htake : (a ++ (x :: t) ++ r).take a.length = a := by
    rw [List.append_assoc, List.take_left]
  have hdrop : (a ++ (x :: t) ++ r).drop a.length = (x :: t) ++ r := by
    rw [List.append_assoc, List.drop_left]
  have hlen : (a ++ (x :: t) ++ r).length - a.length = ((x :: t) ++ r).length := by
    simp only [List.length_append]
    omega
  have hws : a.any (!isAsciiWhitespace ·) = false := by
    simpa using ha
  simp only [integerSpan, hstart, htake, hws, Bool.false_eq_true, if_false, hdrop, hlen]
  rw [findIdx?_not_run hdig hr]

/-- A span found: leading whitespace, a digit run, and something that does not start with one. -/
lemma integerSpan_some {rest : Bytes} {start stop : ℕ} (h : integerSpan rest = some (start, stop)) :
    ∃ a d r, rest = a ++ d ++ r ∧ (∀ x ∈ a, isAsciiWhitespace x = true) ∧ d ≠ [] ∧
      (∀ x ∈ d, isAsciiDigit x = true) ∧ (∀ x ∈ r.head?, isAsciiDigit x = false) ∧
      start = a.length ∧ stop = a.length + d.length := by
  have horig := h
  simp only [integerSpan] at h
  cases hidx : rest.findIdx? isAsciiDigit with
  | none => simp [hidx] at h
  | some i =>
      obtain ⟨a, x, t, rfl, hai, -, hx⟩ := exists_of_findIdx? hidx
      simp only [hidx] at h
      by_cases hws : ((a ++ x :: t).take i).any (!isAsciiWhitespace ·) = true
      · rw [if_pos hws] at h
        simp at h
      · have ha : ∀ y ∈ a, isAsciiWhitespace y = true := by
          rw [← hai, List.take_left] at hws
          simpa using hws
        obtain ⟨d, r, htr, hd, hr⟩ := exists_run isAsciiDigit (x :: t)
        have hdne : d ≠ [] := by
          rintro rfl
          rw [List.nil_append] at htr
          simpa [← htr, hx] using hr
        rw [htr, ← List.append_assoc] at horig ⊢
        rw [integerSpan_append ha hdne hd hr] at horig
        obtain ⟨h₁, h₂⟩ := Prod.mk.inj (Option.some.inj horig)
        exact ⟨a, d, r, rfl, ha, hdne, hd, hr, h₁.symm, h₂.symm⟩

/-- What `field_value` does once the span is known. -/
lemma fieldValue_append {a d r : Bytes} (ha : ∀ x ∈ a, isAsciiWhitespace x = true) (hd : d ≠ [])
    (hdig : ∀ x ∈ d, isAsciiDigit x = true) (hr : ∀ x ∈ r.head?, isAsciiDigit x = false) :
    fieldValue (a ++ d ++ r) = match r.findIdx? (!isAsciiWhitespace ·) with
      | none => .invalid
      | some ws =>
          if ws = 0 then .invalid
          else match kB.isPrefixOf? (r.drop ws) with
            | none => .invalid
            | some unit =>
                if !unit.all isAsciiWhitespace then .invalid
                else match parseAsciiU64 d with
                  | some kib => .value kib
                  | none => .invalid := by
  have htail : (a ++ d ++ r).drop (a.length + d.length) = r := by
    rw [← List.length_append, List.drop_left]
  have hdigits : ((a ++ d ++ r).drop a.length).take (a.length + d.length - a.length) = d := by
    rw [List.append_assoc, List.drop_left, Nat.add_sub_cancel_left, List.take_left]
  simp only [fieldValue, integerSpan_append ha hd hdig hr, htail, hdigits]

lemma fieldValue_ne_absent (rest : Bytes) : fieldValue rest ≠ .absent := by
  simp only [fieldValue]
  split
  · simp
  · split
    · simp
    · split_ifs
      · simp
      · split
        · simp
        · split_ifs
          · simp
          · split <;> simp

/-- A line of the grammar has the value of its digits, unless that overflows. -/
lemma fieldValue_of_kibLine {rest digits : Bytes} (h : KibLine rest digits) :
    fieldValue rest =
      if decimal digits < u64Bound then .value (decimal digits) else .invalid := by
  obtain ⟨a, b, c, rfl, ha, hne, hdig, hbne, hb, hc⟩ := h
  have hr : ∀ x ∈ (b ++ kB ++ c).head?, isAsciiDigit x = false := by
    obtain ⟨y, t, rfl⟩ := List.exists_cons_of_ne_nil hbne
    intro x hx
    obtain rfl : y = x := by simpa using hx
    exact not_digit_of_whitespace (hb y (by simp))
  have hws : (b ++ kB ++ c).findIdx? (!isAsciiWhitespace ·) = some b.length := by
    rw [List.append_assoc]
    exact findIdx?_append_cons _ (fun y hy => by simp [hb y hy]) (by decide)
  have hunit : kB.isPrefixOf? ((b ++ kB ++ c).drop b.length) = some c := by
    rw [List.append_assoc, List.drop_left, List.isPrefixOf?_eq_some_iff_append_eq]
  have hlen : b.length ≠ 0 := by simpa using hbne
  have hall : c.all isAsciiWhitespace = true := List.all_eq_true.mpr hc
  rw [show a ++ digits ++ b ++ kB ++ c = a ++ digits ++ (b ++ kB ++ c) by simp,
    fieldValue_append ha hne hdig hr, hws]
  simp only [hlen, if_false, hunit, hall, Bool.not_true, Bool.false_eq_true,
    parseAsciiU64_eq hne]
  by_cases hlt : decimal digits < u64Bound
  · simp only [if_pos hlt]
  · simp only [if_neg hlt]

/-- Only lines of the grammar have a value. -/
lemma kibLine_of_fieldValue {rest : Bytes} {v : ℕ} (h : fieldValue rest = .value v) :
    ∃ digits, KibLine rest digits := by
  cases hspan : integerSpan rest with
  | none => simp [fieldValue, hspan] at h
  | some span =>
      obtain ⟨start, stop⟩ := span
      obtain ⟨a, d, r, rfl, ha, hd, hdig, hr, -, -⟩ := integerSpan_some hspan
      rw [fieldValue_append ha hd hdig hr] at h
      cases hws : r.findIdx? (!isAsciiWhitespace ·) with
      | none => simp [hws] at h
      | some ws =>
          obtain ⟨b, x, t, rfl, rfl, hb, -⟩ := exists_of_findIdx? hws
          simp only [hws, List.drop_left] at h
          by_cases h0 : b.length = 0
          · simp [h0] at h
          · rw [if_neg h0] at h
            cases hunit : kB.isPrefixOf? (x :: t) with
            | none => simp [hunit] at h
            | some unit =>
                simp only [hunit] at h
                by_cases hall : unit.all isAsciiWhitespace = true
                · rw [List.isPrefixOf?_eq_some_iff_append_eq] at hunit
                  refine ⟨d, a, b, unit, ?_, ha, hd, hdig, by simpa using h0, fun y hy => ?_,
                    List.all_eq_true.mp hall⟩
                  · rw [← hunit]
                    simp
                  · simpa using hb y hy
                · rw [if_pos (by simpa using hall)] at h
                  simp at h

/-- `Value(v)` exactly on the lines of the grammar whose digits have the `u64` value `v`. -/
theorem fieldValue_eq_value_iff {rest : Bytes} {v : ℕ} :
    fieldValue rest = .value v ↔
      v < u64Bound ∧ ∃ digits, KibLine rest digits ∧ decimal digits = v := by
  constructor
  · intro h
    obtain ⟨digits, hline⟩ := kibLine_of_fieldValue h
    rw [fieldValue_of_kibLine hline] at h
    split_ifs at h with hlt
    obtain rfl : decimal digits = v := by simpa using h
    exact ⟨hlt, digits, hline, rfl⟩
  · rintro ⟨hlt, digits, hline, rfl⟩
    rw [fieldValue_of_kibLine hline, if_pos hlt]

/-- `Invalid` on every other rest. -/
theorem fieldValue_eq_invalid_iff {rest : Bytes} :
    fieldValue rest = .invalid ↔ ¬ ∃ digits, KibLine rest digits ∧ decimal digits < u64Bound := by
  constructor
  · rintro h ⟨digits, hline, hlt⟩
    rw [fieldValue_of_kibLine hline, if_pos hlt] at h
    simp at h
  · intro h
    cases hv : fieldValue rest with
    | absent => exact absurd hv (fieldValue_ne_absent rest)
    | invalid => rfl
    | value v =>
        obtain ⟨hlt, digits, hline, rfl⟩ := fieldValue_eq_value_iff.mp hv
        exact absurd ⟨digits, hline, hlt⟩ h

/-! ## The deciding line -/

lemma isPrefixOf?_eq_none_iff {pre line : Bytes} : pre.isPrefixOf? line = none ↔ ¬ pre <+: line := by
  rw [Option.eq_none_iff_forall_ne_some]
  constructor
  · rintro h ⟨field, hf⟩
    exact h field (List.isPrefixOf?_eq_some_iff_append_eq.mpr hf)
  · intro h field hf
    exact h ⟨field, List.isPrefixOf?_eq_some_iff_append_eq.mp hf⟩

lemma lookupLines_cons_of_not {pre line : Bytes} (h : ¬ pre <+: line) (rest : List Bytes) :
    lookupLines pre (line :: rest) = lookupLines pre rest := by
  rw [lookupLines, isPrefixOf?_eq_none_iff.mpr h]

lemma lookupLines_cons_of_eq {pre line field : Bytes} (h : pre ++ field = line)
    (rest : List Bytes) : lookupLines pre (line :: rest) = fieldValue field := by
  rw [lookupLines, List.isPrefixOf?_eq_some_iff_append_eq.mpr h]

lemma lookupLines_append {pre : Bytes} {before : List Bytes} (h : ∀ l ∈ before, ¬ pre <+: l)
    (rest : List Bytes) : lookupLines pre (before ++ rest) = lookupLines pre rest := by
  induction before with
  | nil => rfl
  | cons line before ih =>
      rw [List.cons_append, lookupLines_cons_of_not (h line (by simp))]
      exact ih fun l hl => h l (by simp [hl])

lemma lookupLines_eq_absent_iff {pre : Bytes} {ls : List Bytes} :
    lookupLines pre ls = .absent ↔ ∀ line ∈ ls, ¬ pre <+: line := by
  induction ls with
  | nil => simp [lookupLines]
  | cons line ls ih =>
      by_cases hpre : pre <+: line
      · obtain ⟨field, hf⟩ := hpre
        rw [lookupLines_cons_of_eq hf]
        refine iff_of_false (fieldValue_ne_absent field) fun h => h line (by simp) ⟨field, hf⟩
      · rw [lookupLines_cons_of_not hpre, ih]
        simp [hpre]

/-! ## One pass for several fields -/

section
variable {n : ℕ} {prefixes : Fin n → Bytes} {line : Bytes}

lemma scanLine_of_not {is : List (Fin n)} {s : Fused n}
    (h : ∀ i ∈ is, s.seen i = false → ¬ prefixes i <+: line) :
    scanLine prefixes line is s = s := by
  induction is with
  | nil => rfl
  | cons i is ih =>
      have htail := ih fun j hj => h j (by simp [hj])
      rw [scanLine]
      cases hs : s.seen i with
      | true => simpa using htail
      | false =>
          rw [isPrefixOf?_eq_none_iff.mpr (h i (by simp) hs)]
          simpa using htail

lemma scanLine_of_match {is : List (Fin n)} {s : Fused n} {i : Fin n} {field : Bytes} (hi : i ∈ is)
    (hs : s.seen i = false) (hf : prefixes i ++ field = line)
    (hother : ∀ j, j ≠ i → ¬ prefixes j <+: line) :
    scanLine prefixes line is s = s.record i field := by
  induction is with
  | nil => simp at hi
  | cons j is ih =>
      rw [scanLine]
      by_cases hj : j = i
      · subst hj
        rw [hs, List.isPrefixOf?_eq_some_iff_append_eq.mpr hf]
        simp
      · have htail := ih ((List.mem_cons.mp hi).resolve_left (Ne.symm hj))
        rw [isPrefixOf?_eq_none_iff.mpr (hother j hj)]
        simpa using htail

/-- `remaining` counts the fields not yet seen, and those have no value yet. -/
structure Fused.Counted (s : Fused n) : Prop where
  remaining : s.remaining = (Finset.univ.filter fun i => s.seen i = false).card
  unseen : ∀ i, s.seen i = false → s.out i = none

lemma Fused.Counted.record {s : Fused n} (h : s.Counted) {i : Fin n} (hi : s.seen i = false)
    (field : Bytes) : (s.record i field).Counted := by
  constructor
  · have hset : (Finset.univ.filter fun j => (s.record i field).seen j = false) =
        (Finset.univ.filter fun j => s.seen j = false).erase i := by
      ext j
      rw [Finset.mem_erase, Finset.mem_filter, Finset.mem_filter]
      by_cases hj : j = i
      · subst hj
        simp [Fused.record]
      · simp only [Fused.record, Function.update_of_ne hj]
        simp [hj]
    rw [hset, Finset.card_erase_of_mem (by simpa using hi), ← h.remaining]
    rfl
  · intro j hj
    by_cases hji : j = i
    · simp [Fused.record, hji] at hj
    · simp only [Fused.record, Function.update_of_ne hji] at hj ⊢
      exact h.unseen j hj

/-- The loop gives each unresolved field what its own scan of the remaining lines gives. -/
theorem scanLines_out (hdis : ∀ i j, i ≠ j → ¬ prefixes i <+: prefixes j) (ls : List Bytes)
    {s : Fused n} (h : s.Counted) (i : Fin n) : (scanLines prefixes ls s).out i =
      if s.seen i then s.out i else (lookupLines (prefixes i) ls).toOption := by
  induction ls generalizing s with
  | nil =>
      cases hs : s.seen i with
      | true => simp [scanLines]
      | false => simp [scanLines, h.unseen i hs, lookupLines, KibFieldLookup.toOption]
  | cons line ls ih =>
      rw [scanLines]
      by_cases h0 : s.remaining = 0
      · have hseen : s.seen i = true := by
          have hcard := h.remaining
          rw [h0, eq_comm, Finset.card_eq_zero, Finset.filter_eq_empty_iff] at hcard
          simpa using hcard (Finset.mem_univ i)
        simp [h0, hseen]
      · rw [if_neg h0]
        by_cases hm : ∃ j, s.seen j = false ∧ prefixes j <+: line
        · obtain ⟨j, hj, field, hf⟩ := hm
          have hother : ∀ k, k ≠ j → ¬ prefixes k <+: line := by
            intro k hk hpre
            rcases List.prefix_or_prefix_of_prefix hpre ⟨field, hf⟩ with hkj | hjk
            · exact hdis k j hk hkj
            · exact hdis j k (Ne.symm hk) hjk
          rw [scanLine_of_match (List.mem_finRange j) hj hf hother, ih (h.record hj field)]
          by_cases hij : i = j
          · subst hij
            simp [Fused.record, hj, lookupLines_cons_of_eq hf]
          · simp [Fused.record, Function.update_of_ne hij, lookupLines_cons_of_not (hother i hij)]
        · have hnone : ∀ j, s.seen j = false → ¬ prefixes j <+: line :=
            fun j hj hpre => hm ⟨j, hj, hpre⟩
          rw [scanLine_of_not fun j _ => hnone j, ih h]
          cases hs : s.seen i with
          | true => rfl
          | false => rw [lookupLines_cons_of_not (hnone i hs)]

end

/-- The fused reader agrees with the separate ones on prefixes no one of which starts another. -/
theorem readKibFields_eq {n : ℕ} (status : Bytes) {prefixes : Fin n → Bytes}
    (hdis : ∀ i j, i ≠ j → ¬ prefixes i <+: prefixes j) :
    readKibFields status prefixes = fun i => readKibField status (prefixes i) := by
  funext i
  have h : (⟨fun _ => none, fun _ => false, n⟩ : Fused n).Counted :=
    ⟨by simp, fun _ _ => rfl⟩
  rw [readKibFields, scanLines_out hdis (lines status) h i]
  rfl

/-! ## The three fields -/

/-- A lookup that the conversion refuses. -/
def Defective : KibFieldLookup → Prop
  | .absent => False
  | .invalid => True
  | .value kib => u64Bound ≤ 1024 * kib

/-- What an optional field becomes. -/
def Scaled : KibFieldLookup → Option ℕ → Prop
  | .absent, r => r = none
  | .invalid, _ => False
  | .value kib, r => 1024 * kib < u64Bound ∧ r = some (1024 * kib)

lemma scaled_eq (kib : ℕ) :
    scaled kib = if 1024 * kib < u64Bound then .ok (1024 * kib) else .error .malformed := by
  rw [scaled, checkedMul, Nat.mul_comm kib]
  split_ifs <;> rfl

lemma scaledOptional_ok_iff {l : KibFieldLookup} {r : Option ℕ} :
    scaledOptional l = .ok r ↔ Scaled l r := by
  cases l with
  | absent => simp [scaledOptional, Scaled, eq_comm]
  | invalid => simp [scaledOptional, Scaled]
  | value kib =>
      rw [scaledOptional, scaled_eq, Scaled]
      split_ifs with h
      · simp [Except.map, h, eq_comm]
      · simp [Except.map, h]

lemma scaledOptional_error_iff {l : KibFieldLookup} {e : SnapshotError} :
    scaledOptional l = .error e ↔ e = .malformed ∧ Defective l := by
  cases l with
  | absent => simp [scaledOptional, Defective]
  | invalid => simp [scaledOptional, Defective, eq_comm]
  | value kib =>
      rw [scaledOptional, scaled_eq, Defective]
      split_ifs with h
      · simp [Except.map, h]
      · simp [Except.map, not_lt.mp h, eq_comm]

/-- The required field: absence is a defect too. -/
def scaledRequired : KibFieldLookup → Except SnapshotError ℕ
  | .value kib => scaled kib
  | .absent | .invalid => .error .malformed

lemma memstatFromStatus_eq (status : Bytes) : memstatFromStatus status =
    (scaledRequired (readKibFieldLookup status vmRss)).bind fun rss =>
      (scaledOptional (readKibFieldLookup status vmSize)).bind fun virtualSize =>
        (scaledOptional (readKibFieldLookup status vmHwm)).bind fun peakRss =>
          .ok { rss, virtualSize, commitCharge := none, peakRss } := by
  rw [memstatFromStatus]
  cases readKibFieldLookup status vmRss <;> rfl

lemma scaledRequired_ok_iff {l : KibFieldLookup} {r : ℕ} :
    scaledRequired l = .ok r ↔ Scaled l (some r) := by
  cases l with
  | absent => simp [scaledRequired, Scaled]
  | invalid => simp [scaledRequired, Scaled]
  | value kib =>
      rw [scaledRequired, scaled_eq, Scaled]
      split_ifs with h
      · simp [h, eq_comm]
      · simp [h]

lemma scaledRequired_error_iff {l : KibFieldLookup} {e : SnapshotError} :
    scaledRequired l = .error e ↔ e = .malformed ∧ (l = .absent ∨ Defective l) := by
  cases l with
  | absent => simp [scaledRequired, eq_comm]
  | invalid => simp [scaledRequired, Defective, eq_comm]
  | value kib =>
      rw [scaledRequired, scaled_eq, Defective]
      split_ifs with h
      · simp [h]
      · simp [not_lt.mp h, eq_comm]

/-- A success carries 1024 times the three values, an absent optional field as `None`. -/
theorem memstatFromStatus_ok_iff {status : Bytes} {m : MemStat} :
    memstatFromStatus status = .ok m ↔
      Scaled (readKibFieldLookup status vmRss) (some m.rss) ∧
      Scaled (readKibFieldLookup status vmSize) m.virtualSize ∧
      Scaled (readKibFieldLookup status vmHwm) m.peakRss ∧ m.commitCharge = none := by
  rw [memstatFromStatus_eq, ← scaledRequired_ok_iff, ← scaledOptional_ok_iff,
    ← scaledOptional_ok_iff]
  obtain ⟨rss, virtualSize, commitCharge, peakRss⟩ := m
  cases scaledRequired (readKibFieldLookup status vmRss) with
  | error e => simp [Except.bind]
  | ok r =>
      cases scaledOptional (readKibFieldLookup status vmSize) with
      | error e => simp [Except.bind]
      | ok v =>
          cases scaledOptional (readKibFieldLookup status vmHwm) with
          | error e => simp [Except.bind]
          | ok p =>
              simp only [Except.bind, Except.ok.injEq, MemStat.mk.injEq]
              constructor
              · rintro ⟨rfl, rfl, rfl, rfl⟩
                exact ⟨rfl, rfl, rfl, rfl⟩
              · rintro ⟨rfl, rfl, rfl, rfl⟩
                exact ⟨rfl, rfl, rfl, rfl⟩

/-- A failure is `Malformed`, for a missing `VmRSS` or a defect of any of the three fields. -/
theorem memstatFromStatus_error_iff {status : Bytes} {e : SnapshotError} :
    memstatFromStatus status = .error e ↔ e = .malformed ∧
      (readKibFieldLookup status vmRss = .absent ∨
        ∃ pre ∈ [vmRss, vmSize, vmHwm], Defective (readKibFieldLookup status pre)) := by
  have hmal : ∀ l e', scaledOptional l = .error e' → e' = .malformed :=
    fun l e' h => (scaledOptional_error_iff.mp h).1
  simp only [List.mem_cons, List.not_mem_nil, or_false, exists_eq_or_imp, exists_eq_left]
  rw [← or_assoc, and_or_left, ← scaledRequired_error_iff, and_or_left, ← scaledOptional_error_iff,
    ← scaledOptional_error_iff, memstatFromStatus_eq]
  cases hr : scaledRequired (readKibFieldLookup status vmRss) with
  | error e' =>
      have he' := (scaledRequired_error_iff.mp hr).1
      simp only [Except.bind, Except.error.injEq]
      constructor
      · intro h
        exact Or.inl h
      · rintro (h | h | h)
        · exact h
        · rw [he', hmal _ _ h]
        · rw [he', hmal _ _ h]
  | ok r =>
      cases hv : scaledOptional (readKibFieldLookup status vmSize) with
      | error e' =>
          simp only [Except.bind, Except.error.injEq, reduceCtorEq, false_or]
          constructor
          · intro h
            exact Or.inl h
          · rintro (h | h)
            · exact h
            · rw [hmal _ _ hv, hmal _ _ h]
      | ok v =>
          cases scaledOptional (readKibFieldLookup status vmHwm) with
          | error e' => simp [Except.bind]
          | ok p => simp [Except.bind]

/-- The line that decides a lookup: the first one that starts with the prefix. -/
def FirstLine (status pre rest : Bytes) : Prop :=
  ∃ before after, lines status = before ++ (pre ++ rest) :: after ∧ ∀ l ∈ before, ¬ pre <+: l

lemma readKibFieldLookup_of_firstLine {status pre rest : Bytes} (h : FirstLine status pre rest) :
    readKibFieldLookup status pre = fieldValue rest := by
  obtain ⟨before, after, hl, hb⟩ := h
  rw [readKibFieldLookup, hl, lookupLines_append hb, lookupLines_cons_of_eq rfl]

/-- The content of a file that was read is never an error of the OS. -/
lemma snapshotFromRead_os_iff (read : Option Bytes) :
    snapshotFromRead read = .error .os ↔ read = none := by
  cases read with
  | none => simp [snapshotFromRead]
  | some status =>
      rw [snapshotFromRead, memstatFromStatus_error_iff]
      simp

/-- The parser accepts exactly its grammar, the conversion scales its three fields, only a failed
read is an error of the OS, and the fused reader is the separate ones. -/
theorem statusParser_exact (status : Bytes) :
    (∀ pre,
      (readKibFieldLookup status pre = .absent ↔ ∀ line ∈ lines status, ¬ pre <+: line) ∧
      ∀ rest, FirstLine status pre rest →
        (∀ v, readKibFieldLookup status pre = .value v ↔
          v < u64Bound ∧ ∃ digits, KibLine rest digits ∧ decimal digits = v) ∧
        (readKibFieldLookup status pre = .invalid ↔
          ¬ ∃ digits, KibLine rest digits ∧ decimal digits < u64Bound)) ∧
    (∀ m, memstatFromStatus status = .ok m ↔
      Scaled (readKibFieldLookup status vmRss) (some m.rss) ∧
      Scaled (readKibFieldLookup status vmSize) m.virtualSize ∧
      Scaled (readKibFieldLookup status vmHwm) m.peakRss ∧ m.commitCharge = none) ∧
    (∀ e, memstatFromStatus status = .error e ↔ e = .malformed ∧
      (readKibFieldLookup status vmRss = .absent ∨
        ∃ pre ∈ [vmRss, vmSize, vmHwm], Defective (readKibFieldLookup status pre))) ∧
    (∀ read, snapshotFromRead read = .error .os ↔ read = none) ∧
    ∀ (n : ℕ) (prefixes : Fin n → Bytes), (∀ i j, i ≠ j → ¬ prefixes i <+: prefixes j) →
      readKibFields status prefixes = fun i => readKibField status (prefixes i) := by
  refine ⟨fun pre => ⟨lookupLines_eq_absent_iff, fun rest hf => ?_⟩,
    fun m => memstatFromStatus_ok_iff, fun e => memstatFromStatus_error_iff, snapshotFromRead_os_iff,
    fun n prefixes hdis => readKibFields_eq status hdis⟩
  rw [readKibFieldLookup_of_firstLine hf]
  exact ⟨fun v => fieldValue_eq_value_iff, fieldValue_eq_invalid_iff⟩

/-- A size line before a resident line with a leading zero, and no peak. -/
def twoLines : Bytes :=
  vmSize ++ [9, 49, 50, 32, 107, 66, 10] ++ vmRss ++ [9, 48, 55, 32, 12, 107, 66, 13, 10]

theorem statusParser_exact_twoLines :
    memstatFromStatus twoLines = .ok ⟨7168, some 12288, none, none⟩ ∧
      readKibFields twoLines ![vmRss, vmSize] =
        fun i => readKibField twoLines (![vmRss, vmSize] i) := by
  have hrss : readKibFieldLookup twoLines vmRss = .value 7 := by decide +kernel
  have hsize : readKibFieldLookup twoLines vmSize = .value 12 := by decide +kernel
  have hhwm : readKibFieldLookup twoLines vmHwm = .absent := by decide +kernel
  obtain ⟨-, hok, -, -, hfused⟩ := statusParser_exact twoLines
  constructor
  · apply (hok _).mpr
    rw [hrss, hsize, hhwm]
    exact ⟨⟨by decide, rfl⟩, ⟨by decide, rfl⟩, rfl, rfl⟩
  · exact hfused 2 ![vmRss, vmSize] (by decide)

end SeferAlloc.ProcStatus
