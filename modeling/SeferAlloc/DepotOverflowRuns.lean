import SeferAlloc.DepotOverflowRings
import Mathlib.Algebra.BigOperators.Group.Finset.Basic
import Mathlib.Algebra.Order.BigOperators.Group.Finset

/-!
# Runs of the depot overflow

The owner of a heap slot parks, reloads and decays records in any order, and the
OS may refuse a reservation or a commit at any time. The overflow stays a family
of deques within one byte budget: the counters are those of the records, every
record lies in the committed part of the region of its class, and no number
outgrows its field.
-/
namespace SeferAlloc
namespace Small
open BitWord RingBuffer

/-- The grain a budget is rounded down to. -/
def depotBudgetGrain : ℕ := 256

/-- The largest budget: the rows parked for a class still fit their count. -/
def depotBudgetMax : ℕ := (2 ^ 16 - 1 - 8) * depotBudgetGrain

/-- The budget when none is configured. -/
def defaultDepotBudgetBytes : ℕ := 1024 * 1024

/-- The budget in use: the configured one, capped and rounded down to its grain. -/
def resolvedDepotBudgetBytes (configured : Option ℕ) : ℕ :=
  let b := configured.getD defaultDepotBudgetBytes
  let b := if depotBudgetMax < b then depotBudgetMax else b
  b / depotBudgetGrain * depotBudgetGrain

lemma resolvedDepotBudgetBytes_le (configured : Option ℕ) :
    resolvedDepotBudgetBytes configured ≤ depotBudgetMax := by
  refine (Nat.div_mul_le_self _ _).trans ?_
  split_ifs <;> omega

/-- A page size: a power of two from `PAGE` to `MAX_REALISTIC_PAGE_SIZE`. -/
structure PageSize where
  bytes : ℕ
  pow : ∃ k, bytes = 2 ^ k
  floor : 4096 ≤ bytes
  realistic : bytes ≤ 2 ^ 16

namespace DepotOverflow

/-- A call of the owner. `tick` ends the epoch when one is due. -/
inductive Call where
  | park (c : ℕ) (mag : Row) (reserve commit : Bool)
  | parkSimple (c : ℕ) (mag : Row)
  | reload (c : ℕ)
  | reloadSimple (c : ℕ)
  | popOldest (c : ℕ)
  | arm
  | disarm (c : ℕ)
  | disarmAll
  | tick (floorParked : Word)
  | ingressDue
  | endEpoch (floorParked : Word)
  | starve (c : ℕ)
  | takeUnstarved
  | releasePages

/-- What a call tells the owner. -/
inductive Answer where
  | nothing
  | parked (ok : Bool)
  | record (mag : Row)

/-- The overflow's part of `park_overflow`. -/
def parkOverflow (sc : SizeClasses) (page budget c : ℕ) (mag : Row) (reserve commit : Bool)
    (o : DepotOverflow) : DepotOverflow × Answer :=
  let n := o.len c
  match if budget = 0 then (o, false) else o.park sc page c n mag budget reserve commit with
  | (o, false) => (o.starve c, .parked false)
  | (o, true) =>
      let o := if o.cap c ≤ n + 1 then o.starve c else o
      (if n = 0 then (o.arm sc).1 else o, .parked true)

/-- A call as the owner makes it: classes with a depot park, rings that hold a record give one,
and an overflow without bytes is disarmed or released. -/
def call (sc : SizeClasses) (page budget : ℕ) (o : DepotOverflow) : Call → DepotOverflow × Answer
  | .park c mag reserve commit =>
      if c < sc.depotClasses then o.parkOverflow sc page budget c mag reserve commit
      else (o, .nothing)
  | .parkSimple c mag =>
      match o.parkSimple sc c mag budget with
      | none => (o, .nothing)
      | some o => (o, .parked true)
  | .reload c =>
      if o.len c = 0 then (o, .nothing)
      else ((o.reload sc c (o.len c)).1, .record (o.reload sc c (o.len c)).2)
  | .reloadSimple c =>
      match o.reloadSimple sc c with
      | none => (o, .nothing)
      | some (o, mag, _) => (o, .record mag)
  | .popOldest c =>
      if o.len c = 0 then (o, .nothing)
      else ((o.popOldest sc c).1, .record (o.popOldest sc c).2)
  | .arm => (if o.bytes = 0 then o else (o.arm sc).1, .nothing)
  | .disarm c => (if o.bytes = 0 then o.disarm c else o, .nothing)
  | .disarmAll => (if o.bytes = 0 then o.disarmAll else o, .nothing)
  | .tick floorParked =>
      (if o.tick.2 = true ∧ o.tick.1.epochDue = true then o.tick.1.endEpoch sc floorParked
        else o.tick.1, .nothing)
  | .ingressDue => (o.ingressDue, .nothing)
  | .endEpoch floorParked => (o.endEpoch sc floorParked, .nothing)
  | .starve c => (o.starve c, .nothing)
  | .takeUnstarved => ((o.takeUnstarved sc budget).1, .nothing)
  | .releasePages => (if o.bytes = 0 then o.releasePages else o, .nothing)

/-- The state after calls from the zeroed state. -/
def run (sc : SizeClasses) (page budget : ℕ) (calls : List Call) : DepotOverflow :=
  calls.foldl (fun o k => (o.call sc page budget k).1) empty

/-- What a call and its answer mean for the deques: parks append, reloads take the newest record
and the decay the oldest; a reload or a decay without answer had nothing to take. -/
def Deques (r r' : ℕ → List Row) : Call → Answer → Prop
  | .park c mag _ _, .parked true | .parkSimple c mag, .parked true =>
      r' = Function.update r c (r c ++ [mag])
  | .reload c, .record mag | .reloadSimple c, .record mag =>
      r = Function.update r' c (r' c ++ [mag])
  | .popOldest c, .record mag => r = Function.update r' c (mag :: r' c)
  | .reload c, .nothing | .popOldest c, .nothing => r c = [] ∧ r' = r
  | _, .record _ => False
  | _, _ => r' = r

/-! ## The counters -/

/-- The bytes of the blocks in rings of these lengths. -/
def parkedBytes (sc : SizeClasses) (len : ℕ → ℕ) : ℕ :=
  ∑ c ∈ Finset.range sc.depotClasses, len c * sc.magBytes c

variable {sc : SizeClasses} {page budget c k n : ℕ} {o o' : DepotOverflow}

lemma parkedBytes_update (len : ℕ → ℕ) (hc : c < sc.depotClasses) (n : ℕ) :
    parkedBytes sc (Function.update len c n) + len c * sc.magBytes c =
      parkedBytes sc len + n * sc.magBytes c := by
  unfold parkedBytes
  have hmem := Finset.mem_range.mpr hc
  rw [← Finset.add_sum_erase _ _ hmem, ← Finset.add_sum_erase _ _ hmem, Function.update_self]
  have hrest : ∑ k ∈ (Finset.range sc.depotClasses).erase c,
      Function.update len c n k * sc.magBytes k =
        ∑ k ∈ (Finset.range sc.depotClasses).erase c, len k * sc.magBytes k :=
    Finset.sum_congr rfl fun k hk => by
      rw [Function.update_of_ne (Finset.ne_of_mem_erase hk)]
  omega

/-- What holds between any two calls, but for the armed classes. -/
structure Kept (sc : SizeClasses) (page budget : ℕ) (o : DepotOverflow) : Prop where
  wf : o.Wf sc
  low_le : ∀ c, o.low c ≤ o.len c
  bytes_eq : o.bytes = parkedBytes sc o.len
  bytes_le : o.bytes ≤ budget
  layout : o.active = true → ∀ c, c < sc.depotClasses →
    o.cap c = capFor sc budget c ∧ o.off c = regionStart sc page budget c
  live : ∀ c i, i < o.len c → (o.slot c i + 1) * recBytes ≤ o.committed c
  committed_le : ∀ c, o.committed c ≤ if c < sc.depotClasses then regionBytes sc page budget c else 0
  events_lt : o.events < max o.epochLen epochMin
  epochLen_le : o.epochLen ≤ 2 ^ 23
  young : o.active = false → o.epochLen ≤ epochMin
  head_zero : ∀ c, o.cap c = 0 → o.head c = 0

/-- What holds between any two calls. -/
structure Accounted (sc : SizeClasses) (page budget : ℕ) (o : DepotOverflow) : Prop
    extends Kept sc page budget o where
  armed : o.bytes ≠ 0 → o.armed = sc.allSmall

lemma magBytes_ge (sc : SizeClasses) (c : ℕ) : depotBudgetGrain ≤ sc.magBytes c :=
  Nat.mul_le_mul_right tcacheCap (sc.minBlock_le_blockSize c)

lemma capFor_le (hb : budget ≤ depotBudgetMax) (sc : SizeClasses) (c : ℕ) :
    capFor sc budget c ≤ 2 ^ 16 - 1 - 8 := by
  refine (Nat.div_le_div_left (magBytes_ge sc c) (by decide)).trans ?_
  exact (Nat.div_le_div_right hb).trans (by decide)

/-- Rings of the classes hold few records together. -/
lemma sum_len_le (hb : budget ≤ depotBudgetMax) (h : Kept sc page budget o) :
    2 * ((List.range sc.depotClasses).map o.len).sum ≤ 2 ^ 23 := by
  have hlen : ∀ n ∈ (List.range sc.depotClasses).map o.len, n ≤ 2 ^ 16 - 1 - 8 := by
    intro n hn
    obtain ⟨c, hc, rfl⟩ := List.mem_map.mp hn
    cases ha : o.active with
    | false =>
        rw [(h.wf.inert ha c).1]
        exact Nat.zero_le _
    | true =>
        refine (h.wf.len_le c).trans ?_
        rw [(h.layout ha c (List.mem_range.mp hc)).1]
        exact capFor_le hb sc c
  have hsum := List.sum_le_card_nsmul _ _ hlen
  rw [List.length_map, List.length_range, smul_eq_mul] at hsum
  have hcount : sc.depotClasses ≤ 63 := sc.depotClasses_le.trans sc.count_le
  have := Nat.mul_le_mul_right (2 ^ 16 - 1 - 8) hcount
  omega

/-! ## Quiet calls -/

/-- A call that changes none of the rings, counters, marks and epochs. -/
lemma Kept.of_same (h : Kept sc page budget o) (hw : o'.Wf sc) (hs : SameRings o o')
    (hlow : o'.low = o.low) (hbytes : o'.bytes = o.bytes) (hcommitted : o'.committed = o.committed)
    (hevents : o'.events < max o.epochLen epochMin) (hepoch : o'.epochLen = o.epochLen) :
    Kept sc page budget o' where
  wf := hw
  low_le c := by
    rw [hlow, hs.len]
    exact h.low_le c
  bytes_eq := by
    rw [hbytes, hs.len]
    exact h.bytes_eq
  bytes_le := hbytes ▸ h.bytes_le
  layout := by
    rw [hs.active, hs.cap, hs.off]
    exact h.layout
  live := by
    unfold slot
    rw [hs.len, hs.cap, hs.head, hcommitted]
    exact h.live
  committed_le := by
    rw [hcommitted]
    exact h.committed_le
  events_lt := hepoch ▸ hevents
  epochLen_le := hepoch ▸ h.epochLen_le
  young := by
    rw [hs.active, hepoch]
    exact h.young
  head_zero := by
    rw [hs.cap, hs.head]
    exact h.head_zero

lemma Accounted.starve (h : Accounted sc page budget o) (c : ℕ) :
    Accounted sc page budget (o.starve c) where
  toKept := h.of_same (h.wf.starve c).wf ⟨rfl, rfl, rfl, rfl, rfl, rfl⟩ rfl rfl rfl h.events_lt rfl
  armed := h.armed

lemma Accounted.takeUnstarved (h : Accounted sc page budget o) :
    Accounted sc page budget (o.takeUnstarved sc budget).1 := by
  have hw := (h.wf.takeUnstarved budget).wf
  unfold DepotOverflow.takeUnstarved at hw ⊢
  split_ifs at hw ⊢
  · exact h
  · exact ⟨h.of_same hw ⟨rfl, rfl, rfl, rfl, rfl, rfl⟩ rfl rfl rfl h.events_lt rfl, h.armed⟩

lemma Kept.arm (h : Kept sc page budget o) : Accounted sc page budget (o.arm sc).1 := by
  have hw := h.wf.arm.wf
  unfold DepotOverflow.arm at hw ⊢
  split_ifs at hw ⊢ with ha
  · exact ⟨h, fun _ => ha⟩
  · exact ⟨h.of_same hw ⟨rfl, rfl, rfl, rfl, rfl, rfl⟩ rfl rfl rfl h.events_lt rfl, fun _ => rfl⟩

lemma Accounted.disarm (h : Accounted sc page budget o) (h0 : o.bytes = 0) (c : ℕ) :
    Accounted sc page budget (o.disarm c) where
  toKept := h.of_same (h.wf.disarm c).wf ⟨rfl, rfl, rfl, rfl, rfl, rfl⟩ rfl rfl rfl h.events_lt rfl
  armed hne := (hne h0).elim

lemma Accounted.disarmAll (h : Accounted sc page budget o) (h0 : o.bytes = 0) :
    Accounted sc page budget o.disarmAll where
  toKept := h.of_same h.wf.disarmAll.wf ⟨rfl, rfl, rfl, rfl, rfl, rfl⟩ rfl rfl rfl h.events_lt rfl
  armed hne := (hne h0).elim

lemma Accounted.ingressDue (h : Accounted sc page budget o) :
    Accounted sc page budget o.ingressDue where
  toKept := h.of_same h.wf.ingressDue.wf ⟨rfl, rfl, rfl, rfl, rfl, rfl⟩ rfl rfl rfl h.events_lt rfl
  armed := h.armed

/-! ## Epochs -/

/-- One class of an epoch's end changes the mark of that class and the debts. -/
lemma endEpochClass_fold (parked : Word) (cs : List ℕ) (o : DepotOverflow) :
    let o' := cs.foldl (endEpochClass parked) o
    SameRings o o' ∧ o'.bytes = o.bytes ∧ o'.committed = o.committed ∧ o'.armed = o.armed ∧
      ∀ c, o'.low c = o.low c ∨ o'.low c = o.len c := by
  induction cs generalizing o with
  | nil => exact ⟨⟨rfl, rfl, rfl, rfl, rfl, rfl⟩, rfl, rfl, rfl, fun _ => .inl rfl⟩
  | cons k cs ih =>
      obtain ⟨hs, hb, hc, ha, hl⟩ := ih (endEpochClass parked o k)
      refine ⟨⟨hs.active, hs.len, hs.head, hs.cap, hs.off, hs.memory⟩, hb, hc, ha, fun c => ?_⟩
      obtain hl | hl := hl c
      · by_cases hck : c = k
        · subst k
          exact .inr (hl.trans (Function.update_self _ _ _))
        · exact .inl (hl.trans (Function.update_of_ne hck _ _))
      · exact .inr hl

/-- The count of events does not outlive the epoch. -/
lemma endEpoch_events (floorParked : Word) (o : DepotOverflow) (e : ℕ) :
    ({ o with events := e } : DepotOverflow).endEpoch sc floorParked = o.endEpoch sc floorParked := by
  have hfold : ∀ (parked : Word) (cs : List ℕ) (o : DepotOverflow),
      cs.foldl (endEpochClass parked) { o with events := e } =
        { cs.foldl (endEpochClass parked) o with events := e } := by
    intro parked cs
    induction cs with
    | nil => exact fun _ => rfl
    | cons k cs ih => exact fun o => ih (endEpochClass parked o k)
  simp only [DepotOverflow.endEpoch, hfold]

lemma Accounted.endEpoch (hb : budget ≤ depotBudgetMax) (h : Accounted sc page budget o)
    (floorParked : Word) : Accounted sc page budget (o.endEpoch sc floorParked) := by
  obtain ⟨hs, hbytes, hcommitted, harmed, hlow⟩ := endEpochClass_fold
    (o.parkedInEpoch ||| floorParked) (List.range sc.depotClasses) o
  have hsum := sum_len_le hb h.toKept
  refine ⟨⟨(h.wf.endEpoch floorParked).wf, fun c => ?_, ?_, ?_, ?_, ?_, ?_, ?_, ?_, ?_, ?_⟩, ?_⟩
  · have h₁ : (o.endEpoch sc floorParked).len = o.len := hs.len
    rw [h₁]
    obtain hl | hl := hlow c
    · exact (Nat.le_of_eq hl).trans (h.low_le c)
    · exact Nat.le_of_eq hl
  · exact hbytes.trans (h.bytes_eq.trans (congrArg (parkedBytes sc) hs.len.symm))
  · exact hbytes.le.trans h.bytes_le
  · intro ha c hc
    obtain ⟨h₁, h₂⟩ := h.layout (hs.active.symm.trans ha) c hc
    exact ⟨(congrFun hs.cap c).trans h₁, (congrFun hs.off c).trans h₂⟩
  · intro c i hi
    have h₁ := h.live c i ((congrFun hs.len c) ▸ hi)
    have hslot : (o.endEpoch sc floorParked).slot c i = o.slot c i := by
      have hcap : (o.endEpoch sc floorParked).cap = o.cap := hs.cap
      have hhead : (o.endEpoch sc floorParked).head = o.head := hs.head
      rw [slot, hcap, hhead, slot]
    have hcom : (o.endEpoch sc floorParked).committed = o.committed := hcommitted
    rw [hslot, hcom]
    exact h₁
  · intro c
    exact (congrFun hcommitted c).le.trans (h.committed_le c)
  · simp [DepotOverflow.endEpoch, epochMin]
  · simp only [DepotOverflow.endEpoch, epochMin]
    omega
  · intro ha
    have hlen : o.len = fun _ => 0 := funext fun c => (h.wf.inert (hs.active.symm.trans ha) c).1
    simp [DepotOverflow.endEpoch, hlen]
  · intro c hc
    exact (congrFun hs.head c).trans (h.head_zero c ((congrFun hs.cap c).symm.trans hc))
  · intro hne
    exact harmed.trans (h.armed (hbytes ▸ hne))

lemma Accounted.tick (hb : budget ≤ depotBudgetMax) (h : Accounted sc page budget o)
    (floorParked : Word) :
    Accounted sc page budget (if o.tick.2 = true ∧ o.tick.1.epochDue = true then
      o.tick.1.endEpoch sc floorParked else o.tick.1) := by
  have hw := h.wf.tick.wf
  have hlt := h.events_lt
  by_cases h0 : o.bytes = 0
  · simp only [DepotOverflow.tick, h0, if_true, Bool.false_eq_true, false_and, if_false]
    exact h
  · have hkept : ∀ {l}, o.events + 1 < max l epochMin → l = o.epochLen →
        Accounted sc page budget o.tick.1 := by
      rintro l hl rfl
      simp only [DepotOverflow.tick, h0, if_false] at hw ⊢
      exact ⟨h.of_same hw ⟨rfl, rfl, rfl, rfl, rfl, rfl⟩ rfl rfl rfl hl rfl, h.armed⟩
    by_cases hdue : o.events + 1 < max o.epochLen epochMin
    · have hnot : ¬ (o.tick.2 = true ∧ o.tick.1.epochDue = true) := by
        simp only [DepotOverflow.tick, h0, if_false, epochDue, decide_eq_true_eq, not_and]
        omega
      rw [if_neg hnot]
      exact hkept hdue rfl
    · -- The count that ends the epoch is gone with it.
      have hyes : o.tick.2 = true ∧ o.tick.1.epochDue = true := by
        simp only [DepotOverflow.tick, h0, if_false, epochDue, decide_eq_true_eq]
        exact ⟨.inl (by omega), by omega⟩
      rw [if_pos hyes]
      have hend : o.tick.1.endEpoch sc floorParked = o.endEpoch sc floorParked := by
        simp only [DepotOverflow.tick, h0, if_false]
        exact endEpoch_events floorParked o _
      rw [hend]
      exact h.endEpoch hb floorParked

/-! ## Parks -/

lemma capFor_anti (h : c ≤ k) (hk : k < sc.depotClasses) :
    capFor sc budget k ≤ capFor sc budget c := by
  have hlt : k < sc.table.length := hk.trans_le sc.depotClasses_le
  apply Nat.div_le_div_left _ (lt_of_lt_of_le (by decide) (magBytes_ge sc c))
  apply Nat.mul_le_mul_right
  simp only [SizeClasses.blockSize, List.getD_eq_getElem?_getD]
  rw [List.getElem?_eq_getElem hlt, List.getElem?_eq_getElem (h.trans_lt hlt)]
  exact sc.increasing.sortedLT.monotone h

/-- A reservation has room for the first class, so its first page is that class's. -/
lemma first_page_le {page : ℕ} (hp : 0 < page)
    (h : regionStart sc page budget sc.depotClasses ≠ 0) :
    0 < sc.depotClasses ∧ page ≤ regionBytes sc page budget 0 := by
  obtain ⟨k, hk, hpos⟩ : ∃ k < sc.depotClasses, regionBytes sc page budget k ≠ 0 := by
    by_contra hall
    push Not at hall
    apply h
    apply List.sum_eq_zero
    intro n hn
    obtain ⟨k, hk, rfl⟩ := List.mem_map.mp hn
    exact hall k (List.mem_range.mp hk)
  have hcap : capFor sc budget k ≠ 0 := by
    intro h0
    apply hpos
    simp [regionBytes, h0, alignUp]
    omega
  have h0 : capFor sc budget k ≤ capFor sc budget 0 := capFor_anti (Nat.zero_le k) hk
  obtain ⟨hle, hmod⟩ := alignUp_spec (n := capFor sc budget 0 * recBytes) hp
  refine ⟨by omega, Nat.le_of_dvd ?_ (Nat.dvd_of_mod_eq_zero hmod)⟩
  change 0 < alignUp (capFor sc budget 0 * recBytes) page
  rw [recBytes] at hle ⊢
  omega

/-- The layout is settled while no class has a record. -/
lemma Kept.settle (h : Kept sc page budget o) (hk : Keeps sc o o')
    (hzero : ∀ c, o.len c = 0 ∧ o.head c = 0) (hhead : o'.head = o.head) (hlow : o'.low = o.low)
    (hbytes : o'.bytes = o.bytes)
    (hlayout : o'.active = true → ∀ c, c < sc.depotClasses →
      o'.cap c = capFor sc budget c ∧ o'.off c = regionStart sc page budget c)
    (hcommitted : ∀ c, o'.committed c ≤
      if c < sc.depotClasses then regionBytes sc page budget c else 0)
    (hevents : o'.events = o.events) (hepoch : o'.epochLen ≤ epochMin)
    (hold : o.epochLen ≤ epochMin) : Kept sc page budget o' where
  wf := hk.wf
  low_le := by
    rw [hlow, hk.len]
    exact h.low_le
  bytes_eq := by
    rw [hbytes, hk.len]
    exact h.bytes_eq
  bytes_le := hbytes ▸ h.bytes_le
  layout := hlayout
  live c i hi := by
    rw [hk.len, (hzero c).1] at hi
    contradiction
  committed_le := hcommitted
  events_lt := by
    have := h.events_lt
    omega
  epochLen_le := hepoch.trans (by decide)
  young _ := hepoch
  head_zero c _ := (congrFun hhead c).trans (hzero c).2

lemma Kept.ensureReserved (hb : budget ≤ depotBudgetMax) (hp : 0 < page)
    (h : Kept sc page budget o) (ok : Bool) :
    let r := o.ensureReserved sc page budget ok
    Kept sc page budget r.1 ∧ r.1.armed = o.armed ∧ r.1.bytes = o.bytes ∧ r.1.debt = o.debt := by
  have hkeeps := (h.wf.ensureReserved hp budget ok).1
  unfold DepotOverflow.ensureReserved at hkeeps ⊢
  dsimp only at hkeeps ⊢
  by_cases ha : o.active = true
  · rw [if_pos ha]
    exact ⟨h, rfl, rfl, rfl⟩
  · have ha' : o.active = false := by simpa using ha
    have hzero := h.wf.inert ha'
    have hyoung := h.young ha'
    rw [if_neg ha] at hkeeps ⊢
    split_ifs at hkeeps ⊢ with hfailed htotal hok
    · exact ⟨h, rfl, rfl, rfl⟩
    · exact ⟨h.settle hkeeps hzero rfl rfl rfl (fun hf => (ha hf).elim) h.committed_le rfl hyoung
        hyoung, rfl, rfl, rfl⟩
    · refine ⟨h.settle hkeeps hzero rfl rfl rfl ?_ ?_ rfl le_rfl hyoung, rfl, rfl, rfl⟩
      · intro _ c hc
        simp only [hc, if_true, and_true]
        exact Nat.mod_eq_of_lt ((capFor_le hb sc c).trans_lt (by decide))
      · intro c
        obtain ⟨hpos, hpage⟩ := first_page_le hp htotal
        change Function.update o.committed 0 (min page _) c ≤ _
        by_cases hc : c = 0
        · subst c
          rw [Function.update_self, if_pos hpos]
          exact (Nat.min_le_left _ _).trans hpage
        · rw [Function.update_of_ne hc]
          exact h.committed_le c
    · exact ⟨h.settle hkeeps hzero rfl rfl rfl (fun hf => (ha hf).elim) h.committed_le rfl hyoung
        hyoung, rfl, rfl, rfl⟩

/-- A commit covers the record it is for, and stays in the region. -/
lemma Kept.ensureCommitted (hp : 0 < page) (h : Kept sc page budget o) (ha : o.active = true)
    (hc : c < sc.depotClasses) {idx : ℕ} (hidx : idx < o.cap c) {ok : Bool}
    (he : o.ensureCommitted page c idx ok = some o') :
    Kept sc page budget o' ∧ (idx + 1) * recBytes ≤ o'.committed c ∧ o'.armed = o.armed ∧
      o'.bytes = o.bytes := by
  have hw := (h.wf.ensureCommitted he).1.wf
  unfold DepotOverflow.ensureCommitted at he
  dsimp only at he
  split_ifs at he with hneed <;> obtain rfl := Option.some.inj he
  · exact ⟨h, hneed, rfl, rfl⟩
  · obtain ⟨h₁, -⟩ := alignUp_spec (n := (idx + 1) * recBytes) hp
    obtain ⟨h₂, -⟩ := alignUp_spec (n := o.cap c * recBytes) hp
    have hrow : (idx + 1) * recBytes ≤ o.cap c * recBytes := Nat.mul_le_mul_right _ hidx
    have hnew := le_min h₁ (hrow.trans h₂)
    refine ⟨⟨hw, h.low_le, h.bytes_eq, h.bytes_le, h.layout, fun k i hi => ?_, fun k => ?_,
      h.events_lt, h.epochLen_le, h.young, h.head_zero⟩, ?_, rfl, rfl⟩
    · have hlive := h.live k i hi
      change (o.slot k i + 1) * recBytes ≤ Function.update o.committed c (min _ _) k
      by_cases hk : k = c
      · subst k
        rw [Function.update_self]
        omega
      · rw [Function.update_of_ne hk]
        exact hlive
    · change Function.update o.committed c (min _ _) k ≤ _
      by_cases hk : k = c
      · subst k
        rw [Function.update_self, if_pos hc, (h.layout ha c hc).1]
        exact Nat.min_le_right _ _
      · rw [Function.update_of_ne hk]
        exact h.committed_le k
    · change _ ≤ Function.update o.committed c (min _ _) c
      rw [Function.update_self]
      exact hnew

/-- A record is written in the committed part of its region, within the budget. -/
lemma Kept.write (h : Kept sc page budget o) (ha : o.active = true) (hc : c < sc.depotClasses)
    (hroom : o.len c < o.cap c) (hbudget : o.bytes + sc.magBytes c ≤ budget)
    (hcommitted : (o.slot c (o.len c) + 1) * recBytes ≤ o.committed c) (mag : Row) :
    Kept sc page budget (o.write sc c (o.slot c (o.len c)) mag) := by
  have hsum := parkedBytes_update o.len hc (o.len c + 1)
  have hbytes := h.bytes_eq
  refine ⟨(h.wf.write ha hc hroom mag).1, fun k => ?_, ?_, hbudget, h.layout, fun k i hi => ?_,
    h.committed_le, h.events_lt, h.epochLen_le, h.young, h.head_zero⟩
  · have hlow := h.low_le k
    simp only [DepotOverflow.write]
    by_cases hk : k = c
    · subst k
      rw [Function.update_self]
      omega
    · rwa [Function.update_of_ne hk]
  · simp only [DepotOverflow.write]
    rw [Nat.add_mul, Nat.one_mul] at hsum
    omega
  · simp only [DepotOverflow.write] at hi ⊢
    change (o.slot k i + 1) * recBytes ≤ o.committed k
    by_cases hk : k = c
    · subst k
      rw [Function.update_self] at hi
      obtain hi | rfl := Nat.lt_succ_iff_lt_or_eq.mp hi
      · exact h.live c i hi
      · exact hcommitted
    · rw [Function.update_of_ne hk] at hi
      exact h.live k i hi

/-- What a refused park leaves as it was. -/
structure Untouched (o o' : DepotOverflow) : Prop where
  ring : o'.ring = o.ring
  len : o'.len = o.len
  bytes : o'.bytes = o.bytes
  debt : o'.debt = o.debt

/-- A park of the overflow, before the caller latches the class or arms the others. -/
lemma Kept.park (hb : budget ≤ depotBudgetMax) (hp : 0 < page) (h : Kept sc page budget o)
    (hc : c < sc.depotClasses) (mag : Row) (reserve commit : Bool) :
    let r := o.park sc page c (o.len c) mag budget reserve commit
    Kept sc page budget r.1 ∧ r.1.armed = o.armed ∧ (r.2 = false → Untouched o r.1) := by
  obtain ⟨hkept, harmed, hbytes, hdebt⟩ := h.ensureReserved hb hp reserve
  obtain ⟨hkeeps, hactive⟩ := h.wf.ensureReserved hp budget reserve
  unfold DepotOverflow.park
  split_ifs with hfull
  · exact ⟨h, rfl, fun _ => ⟨rfl, rfl, rfl, rfl⟩⟩
  · cases hr : o.ensureReserved sc page budget reserve with
    | mk o₁ ok =>
        rw [hr] at hkept harmed hbytes hdebt hkeeps hactive
        dsimp only at hkept harmed hbytes hdebt
        have huntouched : Untouched o o₁ := ⟨hkeeps.ring, hkeeps.len, hbytes, hdebt⟩
        cases ok with
        | false => exact ⟨hkept, harmed, fun _ => huntouched⟩
        | true =>
            dsimp only
            split_ifs with hcap
            · exact ⟨hkept, harmed, fun _ => huntouched⟩
            · cases he : o₁.ensureCommitted page c (o₁.slot c (o.len c)) commit with
              | none => exact ⟨hkept, harmed, fun _ => huntouched⟩
              | some o₂ =>
                  have ha := hactive rfl
                  have hidx := hkept.wf.slot_lt (not_le.mp hcap)
                  obtain ⟨hk₂, hcommitted, harmed₂, hbytes₂⟩ :=
                    hkept.ensureCommitted hp ha hc hidx he
                  obtain ⟨hkeeps₂, hs₂⟩ := hkept.wf.ensureCommitted he
                  have hlen : o₂.len = o.len := hkeeps₂.len.trans hkeeps.len
                  have hslot : o₂.slot c (o.len c) = o₁.slot c (o.len c) := by
                    rw [slot, hs₂.cap, hs₂.head, slot]
                  have hw := hk₂.write (by rw [hs₂.active]; exact ha) hc
                    (by rw [hlen, hs₂.cap]; exact not_le.mp hcap)
                    (by rw [hbytes₂, hbytes]; exact not_lt.mp hfull)
                    (by rw [hlen, hslot]; exact hcommitted) mag
                  rw [hlen] at hw
                  exact ⟨hw, harmed₂.trans harmed, by simp⟩

/-- A class that has a record accounts for bytes. -/
lemma Kept.bytes_pos (h : Kept sc page budget o) (hn : o.len c ≠ 0) : o.bytes ≠ 0 := by
  have hc := h.wf.classes c hn
  have hle : o.len c * sc.magBytes c ≤ parkedBytes sc o.len :=
    Finset.single_le_sum (f := fun k => o.len k * sc.magBytes k) (fun _ _ => Nat.zero_le _)
      (Finset.mem_range.mpr hc)
  have hpos : 0 < o.len c * sc.magBytes c :=
    Nat.mul_pos (Nat.pos_of_ne_zero hn) (lt_of_lt_of_le (by decide) (magBytes_ge sc c))
  have := h.bytes_eq
  omega

lemma Accounted.parkOverflow (hb : budget ≤ depotBudgetMax) (hp : 0 < page)
    (h : Accounted sc page budget o) (hc : c < sc.depotClasses) (mag : Row)
    (reserve commit : Bool) :
    let r := o.parkOverflow sc page budget c mag reserve commit
    Accounted sc page budget r.1 ∧ Deques o.ring r.1.ring (.park c mag reserve commit) r.2 ∧
      (r.2 = .parked false → Untouched o r.1) := by
  obtain ⟨hkept, harmed, hun⟩ := h.toKept.park hb hp hc mag reserve commit
  have hrefused : ∀ {o'}, Kept sc page budget o' → o'.armed = o.armed → Untouched o o' →
      Accounted sc page budget (o'.starve c) ∧ (o'.starve c).ring = o.ring ∧
        Untouched o (o'.starve c) := by
    intro o' hk ha hu
    have hacc : Accounted sc page budget o' :=
      ⟨hk, fun hne => ha.trans (h.armed (hu.bytes ▸ hne))⟩
    have hring := (hk.wf.starve c).ring.trans hu.ring
    exact ⟨hacc.starve c, hring, hring, hu.len, hu.bytes, hu.debt⟩
  unfold DepotOverflow.parkOverflow
  dsimp only
  by_cases h0 : budget = 0
  · rw [if_pos h0]
    obtain ⟨h₁, h₂, h₃⟩ := hrefused h.toKept rfl ⟨rfl, rfl, rfl, rfl⟩
    exact ⟨h₁, h₂, fun _ => h₃⟩
  · rw [if_neg h0]
    obtain ⟨o', hpark, hw', hring⟩ | ⟨o', hpark, hkeeps⟩ :=
      h.wf.park hp hc mag budget reserve commit
    · rw [hpark] at hkept harmed ⊢
      dsimp only at hkept harmed ⊢
      generalize ho₂ : (if o'.cap c ≤ o.len c + 1 then o'.starve c else o') = o₂
      have h₂ : Kept sc page budget o₂ ∧ o₂.ring = o'.ring ∧ o₂.armed = o.armed := by
        split_ifs at ho₂ <;> subst ho₂
        · exact ⟨hkept.of_same (hw'.starve c).wf ⟨rfl, rfl, rfl, rfl, rfl, rfl⟩ rfl rfl rfl
            hkept.events_lt rfl, (hw'.starve c).ring, harmed⟩
        · exact ⟨hkept, rfl, harmed⟩
      obtain ⟨hk₂, hring₂, harmed₂⟩ := h₂
      refine ⟨?_, ?_, by simp⟩
      · split_ifs with hn
        · exact hk₂.arm
        · exact ⟨hk₂, fun _ => harmed₂.trans (h.armed (h.bytes_pos hn))⟩
      · refine Eq.trans ?_ (hring₂.trans hring)
        split_ifs with hn
        · exact hk₂.wf.arm.ring
        · rfl
    · rw [hpark] at hkept harmed hun ⊢
      obtain ⟨h₁, h₂, h₃⟩ := hrefused hkept harmed (hun rfl)
      exact ⟨h₁, h₂, fun _ => h₃⟩

lemma Accounted.parkSimple (h : Accounted sc page budget o) {mag : Row}
    (hpark : o.parkSimple sc c mag budget = some o') :
    Accounted sc page budget o' ∧ o'.ring = Function.update o.ring c (o.ring c ++ [mag]) := by
  obtain ⟨hw, hring⟩ := h.wf.parkSimple hpark
  refine ⟨?_, hring⟩
  unfold DepotOverflow.parkSimple at hpark
  dsimp only at hpark
  split_ifs at hpark with h₁ h₂
  obtain rfl := Option.some.inj hpark
  simp only [not_or] at h₁
  obtain ⟨h0, hroom, hbudget, ha, -, hevents⟩ := h₁
  have hk := h.toKept.write (by simpa using ha) (h.wf.classes c h0) (by omega)
    (not_lt.mp hbudget) (not_lt.mp h₂) mag
  have hsame : SameRings (o.write sc c (o.slot c (o.len c)) mag)
      { o.write sc c (o.slot c (o.len c)) mag with events := o.events + 1 } :=
    ⟨rfl, rfl, rfl, rfl, rfl, rfl⟩
  refine ⟨hk.of_same hw hsame rfl rfl rfl ?_ rfl, fun _ => h.armed (h.bytes_pos h0)⟩
  change o.events + 1 < max o.epochLen epochMin
  omega

/-! ## Reloads and the decay -/

/-- A ring loses a record, and its mark follows. -/
lemma Accounted.shrink (h : Accounted sc page budget o) (hw : o'.Wf sc) (h0 : o.len c ≠ 0)
    (hlen : o'.len = Function.update o.len c (o.len c - 1))
    (hbytes : o'.bytes = o.bytes - sc.magBytes c)
    (hlow : o'.low = Function.update o.low c (min (o.low c) (o.len c - 1)))
    (hactive : o'.active = o.active) (hcap : o'.cap = o.cap) (hoff : o'.off = o.off)
    (hslot : ∀ k i, i < o'.len k → ∃ j < o.len k, o'.slot k i = o.slot k j)
    (hcommitted : o'.committed = o.committed) (hhead : ∀ k, o.cap k = 0 → o'.head k = o.head k)
    (hevents : o'.events < max o.epochLen epochMin) (hepoch : o'.epochLen = o.epochLen)
    (harmed : o'.armed = o.armed) :
    Accounted sc page budget o' := by
  have hc := h.wf.classes c h0
  have hsum := parkedBytes_update o.len hc (o.len c - 1)
  obtain ⟨n, hn⟩ := Nat.exists_eq_succ_of_ne_zero h0
  refine ⟨⟨hw, fun k => ?_, ?_, ?_, ?_, fun k i hi => ?_, ?_, hepoch ▸ hevents,
    hepoch ▸ h.epochLen_le, ?_, fun k hk => ?_⟩, fun _ => harmed.trans (h.armed (h.bytes_pos h0))⟩
  · rw [hlow, hlen]
    by_cases hk : k = c
    · subst k
      rw [Function.update_self, Function.update_self]
      exact Nat.min_le_right _ _
    · rw [Function.update_of_ne hk, Function.update_of_ne hk]
      exact h.low_le k
  · rw [hn, Nat.succ_eq_add_one, Nat.add_sub_cancel, Nat.add_mul, Nat.one_mul] at hsum
    rw [hbytes, hlen, h.bytes_eq, hn, Nat.succ_eq_add_one, Nat.add_sub_cancel]
    omega
  · have := h.bytes_le
    omega
  · rw [hactive, hcap, hoff]
    exact h.layout
  · obtain ⟨j, hj, he⟩ := hslot k i hi
    rw [he, hcommitted]
    exact h.live k j hj
  · rw [hcommitted]
    exact h.committed_le
  · rw [hactive, hepoch]
    exact h.young
  · rw [hcap] at hk
    exact (hhead k hk).trans (h.head_zero k hk)

/-- Records below the youngest stay where they are. -/
lemma slot_pop (hlen : o'.len = Function.update o.len c (o.len c - 1)) (hcap : o'.cap = o.cap)
    (hhead : o'.head = o.head) (k i : ℕ) (hi : i < o'.len k) :
    ∃ j < o.len k, o'.slot k i = o.slot k j := by
  refine ⟨i, lt_of_lt_of_le hi ?_, by rw [slot, hcap, hhead, slot]⟩
  rw [hlen]
  by_cases hk : k = c
  · subst k
    rw [Function.update_self]
    exact Nat.sub_le _ _
  · rw [Function.update_of_ne hk]

lemma Accounted.reload (h : Accounted sc page budget o) (h0 : o.len c ≠ 0) :
    Accounted sc page budget (o.reload sc c (o.len c)).1 := by
  apply h.shrink (h.wf.reload h0).1 h0 rfl rfl ?_ rfl rfl rfl (slot_pop rfl rfl rfl) rfl
    (fun _ _ => rfl) h.events_lt rfl rfl
  change Function.update o.low c (min (o.low c) (Function.update o.len c _ c)) = _
  rw [Function.update_self]

lemma Accounted.reloadSimple (h : Accounted sc page budget o) {mag : Row} {more : Bool}
    (hr : o.reloadSimple sc c = some (o', mag, more)) :
    Accounted sc page budget o' ∧ o.ring = Function.update o'.ring c (o'.ring c ++ [mag]) := by
  obtain ⟨h0, hw, hring⟩ := h.wf.reloadSimple hr
  refine ⟨?_, hring⟩
  unfold DepotOverflow.reloadSimple at hr
  dsimp only at hr
  by_cases h1 : o.len c = 0 ∨ o.debtMask ≠ 0 ∨ o.starved ≠ 0 ∨
      ingressPeriod ≤ o.reloadsSinceIngress + 1
  · rw [if_pos h1] at hr
    contradiction
  by_cases h2 : o.bytes - sc.magBytes c ≠ 0 ∧ o.epochLen ≤ o.events + 1
  · rw [if_neg h1, if_pos h2] at hr
    contradiction
  rw [if_neg h1, if_neg h2] at hr
  simp only [Option.some.injEq, Prod.mk.injEq] at hr
  obtain ⟨rfl, -, -⟩ := hr
  have hevents := h.events_lt
  apply h.shrink hw h0 rfl rfl ?_ rfl rfl rfl (slot_pop rfl rfl rfl) rfl
    (fun _ _ => rfl) ?_ rfl rfl
  · change Function.update o.low c (min (o.low c) (Function.update o.len c _ c)) = _
    rw [Function.update_self]
  · change (if o.bytes - sc.magBytes c ≠ 0 then o.events + 1 else o.events) < _
    split_ifs with hb
    · have : ¬ o.epochLen ≤ o.events + 1 := fun hle => h2 ⟨hb, hle⟩
      omega
    · exact hevents

lemma Accounted.popOldest (h : Accounted sc page budget o) (h0 : o.len c ≠ 0) :
    Accounted sc page budget (o.popOldest sc c).1 := by
  have hcap := h.wf.len_le c
  have hhead := h.wf.head_lt c (by omega)
  apply h.shrink (h.wf.popOldest h0).1 h0 rfl rfl ?_ rfl rfl rfl ?_ rfl ?_ h.events_lt rfl rfl
  · change Function.update o.low c (min (o.low c) (Function.update o.len c _ c)) = _
    rw [Function.update_self]
  · intro k i hi
    change i < Function.update o.len c (o.len c - 1) k at hi
    change ∃ j < o.len k, cell (o.cap k) (Function.update o.head c (o.slot c 1) k) i = o.slot k j
    by_cases hk : k = c
    · subst k
      rw [Function.update_self] at hi ⊢
      exact ⟨i + 1, by omega, cell_one hhead (by omega)⟩
    · rw [Function.update_of_ne hk] at hi ⊢
      exact ⟨i, hi, rfl⟩
  · intro k hk
    have hkc : k ≠ c := by
      rintro rfl
      omega
    exact Function.update_of_ne hkc _ _

lemma Kept.drained (h : Kept sc page budget o) (h0 : o.bytes = 0) (c : ℕ) : o.len c = 0 := by
  by_contra hn
  exact h.bytes_pos hn h0

lemma Accounted.releasePages (h : Accounted sc page budget o) (h0 : o.bytes = 0) :
    Accounted sc page budget o.releasePages := by
  have hlen := h.drained h0
  have hw := (h.wf.releasePages hlen).wf
  unfold DepotOverflow.releasePages at hw ⊢
  split_ifs at hw ⊢ with ha
  · have hzero : o.bytes = parkedBytes sc fun _ => 0 := by simp [h0, parkedBytes]
    refine ⟨⟨hw, fun _ => le_rfl, hzero, h.bytes_le, h.layout, fun c i hi => ?_,
      fun c => Nat.zero_le _, show 0 < max epochMin epochMin by decide,
      show epochMin ≤ 2 ^ 23 by decide, fun _ => le_rfl, fun _ _ => rfl⟩, h.armed⟩
    contradiction
  · exact ⟨h.of_same hw ⟨rfl, rfl, rfl, rfl, rfl, rfl⟩ rfl rfl rfl h.events_lt rfl, h.armed⟩

/-! ## Runs -/

/-- One call: what holds between calls is kept, and the rings are deques. -/
lemma Accounted.call (hb : budget ≤ depotBudgetMax) (hp : 0 < page)
    (h : Accounted sc page budget o) (k : Call) :
    let r := o.call sc page budget k
    Accounted sc page budget r.1 ∧ Deques o.ring r.1.ring k r.2 ∧
      (r.2 = .parked false → Untouched o r.1) := by
  cases k with
  | park c mag reserve commit =>
      simp only [DepotOverflow.call]
      split_ifs with hc
      · exact h.parkOverflow hb hp hc mag reserve commit
      · exact ⟨h, rfl, by simp⟩
  | parkSimple c mag =>
      simp only [DepotOverflow.call]
      cases hpark : o.parkSimple sc c mag budget with
      | none => exact ⟨h, rfl, by simp⟩
      | some o' => exact ⟨(h.parkSimple hpark).1, (h.parkSimple hpark).2, by simp⟩
  | reload c =>
      simp only [DepotOverflow.call]
      split_ifs with h0
      · exact ⟨h, ⟨ring_eq_nil h0, rfl⟩, by simp⟩
      · exact ⟨h.reload h0, (h.wf.reload h0).2.2, by simp⟩
  | reloadSimple c =>
      simp only [DepotOverflow.call]
      cases hr : o.reloadSimple sc c with
      | none => exact ⟨h, rfl, by simp⟩
      | some r => exact ⟨(h.reloadSimple hr).1, (h.reloadSimple hr).2, by simp⟩
  | popOldest c =>
      simp only [DepotOverflow.call]
      split_ifs with h0
      · exact ⟨h, ⟨ring_eq_nil h0, rfl⟩, by simp⟩
      · exact ⟨h.popOldest h0, (h.wf.popOldest h0).2.2, by simp⟩
  | arm =>
      simp only [DepotOverflow.call]
      split_ifs
      · exact ⟨h, rfl, by simp⟩
      · exact ⟨h.arm, h.wf.arm.ring, by simp⟩
  | disarm c =>
      simp only [DepotOverflow.call]
      split_ifs with h0
      · exact ⟨h.disarm h0 c, (h.wf.disarm c).ring, by simp⟩
      · exact ⟨h, rfl, by simp⟩
  | disarmAll =>
      simp only [DepotOverflow.call]
      split_ifs with h0
      · exact ⟨h.disarmAll h0, h.wf.disarmAll.ring, by simp⟩
      · exact ⟨h, rfl, by simp⟩
  | tick floorParked =>
      refine ⟨h.tick hb floorParked, ?_, by simp [DepotOverflow.call]⟩
      simp only [DepotOverflow.call, Deques]
      split_ifs
      · exact (h.wf.tick.wf.endEpoch floorParked).ring.trans h.wf.tick.ring
      · exact h.wf.tick.ring
  | ingressDue => exact ⟨h.ingressDue, h.wf.ingressDue.ring, by simp [DepotOverflow.call]⟩
  | endEpoch floorParked =>
      exact ⟨h.endEpoch hb floorParked, (h.wf.endEpoch floorParked).ring,
        by simp [DepotOverflow.call]⟩
  | starve c => exact ⟨h.starve c, (h.wf.starve c).ring, by simp [DepotOverflow.call]⟩
  | takeUnstarved =>
      exact ⟨h.takeUnstarved, (h.wf.takeUnstarved budget).ring, by simp [DepotOverflow.call]⟩
  | releasePages =>
      simp only [DepotOverflow.call]
      split_ifs with h0
      · exact ⟨h.releasePages h0, (h.wf.releasePages (h.drained h0)).ring, by simp⟩
      · exact ⟨h, rfl, by simp⟩

lemma accounted_empty (sc : SizeClasses) (page budget : ℕ) : Accounted sc page budget empty where
  wf := wf_empty sc
  low_le _ := le_rfl
  bytes_eq := by simp [empty, parkedBytes]
  bytes_le := Nat.zero_le _
  layout ha := by contradiction
  live _ _ hi := by contradiction
  committed_le _ := Nat.zero_le _
  events_lt := by decide
  epochLen_le := by decide
  young _ := by decide
  head_zero _ _ := rfl
  armed hne := (hne rfl).elim

lemma accounted_run (hb : budget ≤ depotBudgetMax) (hp : 0 < page) (calls : List Call) :
    Accounted sc page budget (run sc page budget calls) := by
  have hfold : ∀ (calls : List Call) (o : DepotOverflow), Accounted sc page budget o →
      Accounted sc page budget (calls.foldl (fun o k => (o.call sc page budget k).1) o) := by
    intro calls
    induction calls with
    | nil => exact fun _ h => h
    | cons k calls ih => exact fun o h => ih _ (h.call hb hp k).1
  exact hfold calls empty (accounted_empty sc page budget)

/-! ## The deques -/

/-- The counters of the deques, and where their records lie. -/
structure Orderly (sc : SizeClasses) (page budget : ℕ) (o : DepotOverflow) : Prop where
  length : ∀ c, (o.ring c).length = o.len c ∧ o.len c ≤ o.cap c
  head_lt : ∀ c, o.cap c ≠ 0 → o.head c < o.cap c
  /-- A class for which the budget leaves no record. -/
  no_room : ∀ c, o.cap c = 0 → o.head c = 0 ∧ o.len c = 0
  cap_eq : o.active = true → ∀ c < sc.depotClasses, o.cap c = capFor sc budget c
  low_le : ∀ c, o.low c ≤ o.len c
  debt_le : ∀ c, o.debt c ≤ o.len c
  owed : ∀ c, o.debtMask.getLsbD c = true ↔ o.debt c ≠ 0
  bytes_eq : o.bytes = parkedBytes sc o.len
  bytes_le : o.bytes ≤ budget
  armed : o.bytes ≠ 0 → o.armed = sc.allSmall
  /-- A live record is in the committed part of the region of its class. -/
  placed : ∀ c i, i < o.len c → c < sc.depotClasses ∧
    (o.slot c i + 1) * recBytes ≤ o.committed c ∧ o.committed c ≤ regionBytes sc page budget c
  regions : o.active = true → ∀ c k, c < k → k < sc.depotClasses →
    o.off c + regionBytes sc page budget c ≤ o.off k
  /-- Live records share no byte. -/
  apart : ∀ c i k j, i < o.len c → j < o.len k → (c, i) ≠ (k, j) →
    o.record c (o.slot c i) + recBytes ≤ o.record k (o.slot k j) ∨
      o.record k (o.slot k j) + recBytes ≤ o.record c (o.slot c i)

/-- The numbers that the control keeps in fewer bits than it computes them in. -/
structure Fits (sc : SizeClasses) (page budget : ℕ) (o : DepotOverflow) : Prop where
  cap : ∀ c, capFor sc budget c < 2 ^ 16
  off : ∀ c ≤ sc.depotClasses, regionStart sc page budget c < 2 ^ 32
  committed : ∀ c, o.committed c < 2 ^ 32
  len : ∀ c, o.len c < 2 ^ 16
  head : ∀ c < sc.depotClasses, o.head c < 2 ^ 16
  epochLen : 2 * ((List.range sc.depotClasses).map o.len).sum < 2 ^ 32 ∧ o.epochLen < 2 ^ 32

lemma regionStart_succ (sc : SizeClasses) (page budget c : ℕ) :
    regionStart sc page budget (c + 1) =
      regionStart sc page budget c + regionBytes sc page budget c := by
  simp [regionStart, List.range_succ]

lemma regionStart_le (h : c < k) :
    regionStart sc page budget c + regionBytes sc page budget c ≤ regionStart sc page budget k := by
  induction k with
  | zero => omega
  | succ k ih =>
      rw [regionStart_succ]
      by_cases hk : c = k
      · subst k
        exact le_rfl
      · have := ih (by omega)
        omega

lemma alignUp_le (n : ℕ) (hp : 0 < page) : alignUp n page ≤ n + page := by
  have := Nat.div_mul_le_self (n + page - 1) page
  rw [alignUp]
  omega

lemma regionStart_lt (hb : budget ≤ depotBudgetMax) (page : PageSize) (hc : c ≤ sc.depotClasses) :
    regionStart sc page.bytes budget c < 2 ^ 32 := by
  have hpage := page.floor
  have hrealistic := page.realistic
  have hregion : ∀ k, regionBytes sc page.bytes budget k ≤ 2 ^ 24 := by
    intro k
    have hpos : 0 < page.bytes := by omega
    have h₁ := alignUp_le (capFor sc budget k * recBytes) hpos
    have h₂ := Nat.mul_le_mul_right recBytes (capFor_le hb sc k)
    rw [regionBytes]
    simp only [recBytes] at h₁ h₂ ⊢
    omega
  have hsum : regionStart sc page.bytes budget c ≤ c * 2 ^ 24 := by
    have := List.sum_le_card_nsmul ((List.range c).map (regionBytes sc page.bytes budget)) (2 ^ 24)
      (by simpa using fun k _ => hregion k)
    simpa [regionStart] using this
  have := sc.depotClasses_le.trans sc.count_le
  omega

lemma Accounted.orderly (h : Accounted sc page budget o) : Orderly sc page budget o := by
  have hactive : ∀ {c i}, i < o.len c → o.active = true := by
    intro c i hi
    by_contra hf
    rw [(h.wf.inert (by simpa using hf) c).1] at hi
    contradiction
  have hregions : o.active = true → ∀ c k, c < k → k < sc.depotClasses →
      o.off c + regionBytes sc page budget c ≤ o.off k := by
    intro ha c k hck hk
    rw [(h.layout ha c (hck.trans hk)).2, (h.layout ha k hk).2]
    exact regionStart_le hck
  have hplaced : ∀ c i, i < o.len c → c < sc.depotClasses ∧
      (o.slot c i + 1) * recBytes ≤ o.committed c ∧
      o.committed c ≤ regionBytes sc page budget c := by
    intro c i hi
    have hc := h.wf.classes c (by omega)
    have hcommitted := h.committed_le c
    rw [if_pos hc] at hcommitted
    exact ⟨hc, h.live c i hi, hcommitted⟩
  refine ⟨fun c => ⟨by simp [DepotOverflow.ring, entries], h.wf.len_le c⟩, h.wf.head_lt,
    fun c hc => ⟨h.head_zero c hc, Nat.le_zero.mp (hc ▸ h.wf.len_le c)⟩,
    fun ha c hc => (h.layout ha c hc).1, h.low_le, h.wf.debt_le, h.wf.owed, h.bytes_eq, h.bytes_le,
    h.armed, hplaced, hregions, ?_⟩
  intro c i k j hi hj hne
  obtain ⟨hc, hi', hci⟩ := hplaced c i hi
  obtain ⟨hk, hj', hkj⟩ := hplaced k j hj
  simp only [record, recBytes] at hi' hj' ⊢
  obtain hck | rfl | hck := Nat.lt_trichotomy c k
  · have := hregions (hactive hi) c k hck hk
    omega
  · have hslot : o.slot c i ≠ o.slot c j := by
      intro he
      apply hne
      have hle := h.wf.len_le c
      rw [cell_inj (hi.trans_le hle) (hj.trans_le hle) he]
    omega
  · have := hregions (hactive hi) k c hck hc
    omega

lemma Accounted.fits (hb : budget ≤ depotBudgetMax) (page : PageSize)
    (h : Accounted sc page.bytes budget o) : Fits sc page.bytes budget o := by
  have hcap : ∀ c, capFor sc budget c < 2 ^ 16 := fun c => (capFor_le hb sc c).trans_lt (by decide)
  have hsum := sum_len_le hb h.toKept
  have hepoch := h.epochLen_le
  refine ⟨hcap, fun c hc => regionStart_lt hb page hc, fun c => ?_, fun c => ?_, fun c hc => ?_,
    by omega, by omega⟩
  · have hcommitted := h.committed_le c
    split_ifs at hcommitted with hc
    · have hstart := regionStart_lt (c := c + 1) hb page hc
      rw [regionStart_succ] at hstart
      omega
    · omega
  · by_cases hn : o.len c = 0
    · omega
    · have hc := h.wf.classes c hn
      cases ha : o.active with
      | false => exact absurd (h.wf.inert ha c).1 hn
      | true =>
          have hle := h.wf.len_le c
          rw [(h.layout ha c hc).1] at hle
          exact hle.trans_lt (hcap c)
  · cases ha : o.active with
    | false =>
        rw [(h.wf.inert ha c).2]
        decide
    | true =>
        by_cases h0 : o.cap c = 0
        · rw [h.head_zero c h0]
          decide
        · have hlt := h.wf.head_lt c h0
          rw [(h.layout ha c hc).1] at hlt
          exact hlt.trans (hcap c)

/-- For every budget, every page size and every run of calls, whatever the OS refuses: each ring
is a bounded deque of records within the budget, and a refused park changes nothing of it. -/
theorem rings_are_deques (sc : SizeClasses) (page : PageSize) (configured : Option ℕ)
    (calls : List Call) :
    let budget := resolvedDepotBudgetBytes configured
    let o := run sc page.bytes budget calls
    Orderly sc page.bytes budget o ∧ Fits sc page.bytes budget o ∧
      ∀ k, let r := o.call sc page.bytes budget k
        Deques o.ring r.1.ring k r.2 ∧ (r.2 = .parked false → Untouched o r.1) := by
  intro budget o
  have hb := resolvedDepotBudgetBytes_le configured
  have hp : 0 < page.bytes := lt_of_lt_of_le (by decide) page.floor
  have h : Accounted sc page.bytes budget o := accounted_run hb hp calls
  exact ⟨h.orderly, h.fits hb page, fun k => (h.call hb hp k).2⟩

/-- A budget of one grain leaves no room for class 1, whose head is then not below its
capacity. -/
theorem head_not_lt_cap :
    ¬ ∀ (sc : SizeClasses) (page : PageSize) (configured : Option ℕ) (calls : List Call) (c : ℕ),
      c < sc.depotClasses →
        let o := run sc page.bytes (resolvedDepotBudgetBytes configured) calls
        o.head c < o.cap c := by
  intro h
  have h₁ := h (.build .none) ⟨4096, ⟨12, rfl⟩, le_rfl, by decide⟩ (some 256)
    [.park 0 (fun _ => 0) true true] 1
  revert h₁
  decide +kernel

end DepotOverflow

end Small

end SeferAlloc
