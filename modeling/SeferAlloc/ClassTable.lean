import Mathlib.Algebra.Order.Floor.Div
import Mathlib.Data.List.Sort
import Mathlib.Data.Nat.Bitwise
import Mathlib.Tactic

/-!
# Building a class table

`build_table` generates a geometric run term by term while it merges it with the
extras of a scheme. `build_size2class` then indexes the table by granules. A
failed assertion is an error that carries its text; the run is widened to 128
bits, so that only a term that is too large is refused, never its product.
-/
namespace SeferAlloc.ClassTable

/-- `Params`: machine words and a slice of them. -/
structure Params where
  minBlock : ℕ
  growth : ℕ × ℕ
  geoCount : ℕ
  extras : List ℕ
  minBlock_lt : minBlock < 2 ^ 64
  num_lt : growth.1 < 2 ^ 64
  den_lt : growth.2 < 2 ^ 64
  geoCount_lt : geoCount < 2 ^ 64
  extras_lt : ∀ e ∈ extras, e < 2 ^ 64

/-- `assert!` in a constant: a failure aborts the build with its text. -/
def assert (p : Prop) [Decidable p] (text : String) : Except String Unit :=
  if p then .ok () else .error text

def powerOfTwoText : String := "min_block must be a power of two"
def geoCountText : String := "geo_count must be > 0"
def denominatorText : String := "growth denominator must be > 0"
def countText : String := "N must equal geo_count + extras.len()"
def multipleText : String := "Params::extras: every entry must be a multiple of min_block"
def leastText : String :=
  "Params::extras: every entry must be >= min_block (min_block is the scheme's minimum block size)"
def increasingText : String := "Params::extras: must be strictly increasing"
def productText : String := "geometric progression: cur * num overflows u128"
def roundText : String := "geometric progression: scaled + mask overflows u128"
def overflowText : String :=
  "geometric progression overflows usize -- reduce geo_count/growth"
def indexText : String := "index out of bounds"
def mergedText : String :=
  "build_table: merged table must be strictly increasing -- an extras entry duplicates a value " ++
    "the geometric run also produces (each extras entry is only checked against " ++
    "min_block-alignment and the other extras entries before merging; an extra landing strictly " ++
    "BETWEEN two geometric values is fine)"
def emptyText : String := "table must be non-empty"
def classCountText : String :=
  "size2class entries are u8 class indices; the class count must not exceed 256"
def handBuiltText : String :=
  "table must be strictly increasing (hand-built tables must satisfy this directly -- " ++
    "Params-driven tables already do, via build_table's own check)"
def lengthText : String := "L must equal size2class_len(max_class, min_block)"
def size2classLenText : String := "size2class_len: min_block must be a power of two"
def size2classLenOverflowText : String := "size2class_len: max_class / min_block + 1 overflows usize"

/-- `checked_add` and `checked_mul` of `width` bits. -/
def checked (width v : ℕ) : Option ℕ := if v < 2 ^ width then some v else none

/-- `u128::div_ceil`: the quotient rounded up. -/
def divCeil (a b : ℕ) : ℕ := if 0 < a % b then a / b + 1 else a / b

/-- `!mask` of a `u128`. -/
def not128 (mask : ℕ) : ℕ := 2 ^ 128 - (mask + 1)

/-- A checked operation whose overflow is a panic. -/
def checkedOr (text : String) (width v : ℕ) : Except String ℕ :=
  match checked width v with
  | some v => .ok v
  | none => .error text

/-- The step from one geometric value to the next. -/
def Params.next (p : Params) (cur : ℕ) : Except String ℕ := do
  let mask := p.minBlock - 1
  let product ← checkedOr productText 128 (cur * p.growth.1)
  let scaled := divCeil product p.growth.2
  let v ← checkedOr roundText 128 (scaled + mask)
  let rounded := v &&& not128 mask
  assert (rounded ≤ 2 ^ 64 - 1) overflowText
  if rounded ≤ cur then checkedOr overflowText 64 (cur + p.minBlock) else .ok rounded

/-- The checks on the extras; `previous` is the entry before them. -/
def checkExtras (minBlock : ℕ) : Option ℕ → List ℕ → Except String Unit
  | _, [] => .ok ()
  | previous, e :: es => do
      assert (e &&& (minBlock - 1) = 0) multipleText
      assert (minBlock ≤ e) leastText
      assert (∀ e' ∈ previous, e' < e) increasingText
      checkExtras minBlock (some e) es

/-- Whether the next entry is geometric rather than an extra. -/
def takeGeo (geoLeft : ℕ) (extras : List ℕ) (cur : ℕ) : Bool :=
  if geoLeft = 0 then false
  else match extras with
    | [] => true
    | e :: _ => cur < e

/-- The merge loop over the output slots that are left. The next geometric value is computed
only while one is still to come; a slot past the last of `out` is an index panic. -/
def mergeLoop (p : Params) : ℕ → ℕ → List ℕ → ℕ → Except String (List ℕ)
  | slots, 0, [], _ => .ok (List.replicate slots 0)
  | 0, _, _, _ => .error indexText
  | slots + 1, geoLeft, extras, cur =>
      if takeGeo geoLeft extras cur then do
        let next ← if 1 < geoLeft then p.next cur else .ok cur
        let rest ← mergeLoop p slots (geoLeft - 1) extras next
        .ok (cur :: rest)
      else do
        let rest ← mergeLoop p slots geoLeft extras.tail cur
        .ok (extras.headD 0 :: rest)

/-- Every entry is above the one before it. -/
def increasing : List ℕ → Bool
  | [] => true
  | [_] => true
  | a :: b :: l => a < b && increasing (b :: l)

/-- Merges the geometric classes with the extras after checking every parameter. -/
def buildTable (N : ℕ) (p : Params) : Except String (List ℕ) := do
  assert p.minBlock.isPowerOfTwo powerOfTwoText
  assert (0 < p.geoCount) geoCountText
  assert (0 < p.growth.2) denominatorText
  assert (checked 64 (p.geoCount + p.extras.length) = some N) countText
  checkExtras p.minBlock none p.extras
  let out ← mergeLoop p N p.geoCount p.extras p.minBlock
  assert (increasing out) mergedText
  .ok out

/-- The length the size-to-class table must have. -/
def size2classLen (maxClass minBlock : ℕ) : Except String ℕ := do
  assert minBlock.isPowerOfTwo size2classLenText
  checkedOr size2classLenOverflowText 64 (maxClass / minBlock + 1)

/-- The inner loop of `build_size2class`: the cursor moves past the classes below `need`. -/
def advance (need : ℕ) : List ℕ → ℕ → ℕ
  | [], i => i
  | s :: rest, i => if need ≤ s then i else advance need rest (i + 1)

/-- The `need` of bucket `k`. -/
def need (minBlock smallMax k : ℕ) : ℕ :=
  match checked 64 ((k + 1) * minBlock) with
  | some v => if v < smallMax then v else smallMax
  | none => smallMax

/-- The buckets that are left, from bucket `k` on; an entry is a byte. -/
def fill (table : List ℕ) (minBlock smallMax : ℕ) : ℕ → ℕ → ℕ → List ℕ
  | 0, _, _ => []
  | left + 1, k, idx =>
      let idx := advance (need minBlock smallMax k) (table.drop idx) idx
      idx % 2 ^ 8 :: fill table minBlock smallMax left (k + 1) idx

/-- Fills the size-to-class table of a checked list of classes. -/
def buildSize2class (L : ℕ) (table : List ℕ) (minBlock : ℕ) : Except String (List ℕ) := do
  assert (0 < table.length) emptyText
  assert minBlock.isPowerOfTwo powerOfTwoText
  assert (table.length ≤ 2 ^ 8 - 1 + 1) classCountText
  assert (increasing table) handBuiltText
  let smallMax := table.getD (table.length - 1) 0
  let len ← size2classLen smallMax minBlock
  assert (L = len) lengthText
  .ok (fill table minBlock smallMax L 0 0)

/-! ### One geometric step -/

lemma assert_eq_ok {p : Prop} [Decidable p] {text : String} : assert p text = .ok () ↔ p := by
  unfold assert
  split <;> simp_all

lemma checked_of_lt {width v : ℕ} (h : v < 2 ^ width) : checked width v = some v := if_pos h

lemma checked_of_ge {width v : ℕ} (h : 2 ^ width ≤ v) : checked width v = none :=
  if_neg (by omega)

@[simp] lemma ok_bind {α β : Type} (a : α) (f : α → Except String β) : (.ok a >>= f) = f a := rfl

@[simp] lemma error_bind {α β : Type} (text : String) (f : α → Except String β) :
    (.error text >>= f) = .error text := rfl

lemma bind_eq_ok {α β : Type} {x : Except String α} {f : α → Except String β} {b : β} :
    (x >>= f) = .ok b ↔ ∃ a, x = .ok a ∧ f a = .ok b := by
  cases x <;> simp

lemma unit_bind_eq_ok {β : Type} {x : Except String Unit} {f : Unit → Except String β} {b : β} :
    (x >>= f) = .ok b ↔ x = .ok () ∧ f () = .ok b := by
  cases x <;> simp

lemma assert_bind_eq_ok {p : Prop} [Decidable p] {text : String} {β : Type}
    {f : Unit → Except String β} {b : β} :
    (assert p text >>= f) = .ok b ↔ p ∧ f () = .ok b := by
  rw [unit_bind_eq_ok, assert_eq_ok]

lemma assert_of {p : Prop} [Decidable p] {text : String} (h : p) : assert p text = .ok () := if_pos h

lemma assert_of_not {p : Prop} [Decidable p] {text : String} (h : ¬ p) :
    assert p text = .error text := if_neg h

lemma checkedOr_of_lt {text : String} {width v : ℕ} (h : v < 2 ^ width) :
    checkedOr text width v = .ok v := by
  rw [checkedOr, checked_of_lt h]

lemma checkedOr_of_ge {text : String} {width v : ℕ} (h : 2 ^ width ≤ v) :
    checkedOr text width v = .error text := by
  rw [checkedOr, checked_of_ge h]

lemma divCeil_eq {a b : ℕ} (hb : 0 < b) : divCeil a b = a ⌈/⌉ b := by
  rw [Nat.ceilDiv_eq_add_pred_div]
  unfold divCeil
  have hmod := Nat.mod_lt a hb
  have hdiv := Nat.div_add_mod a b
  split
  · symm
    apply Nat.div_eq_of_lt_le
    · rw [Nat.add_mul, Nat.mul_comm]
      omega
    · rw [Nat.add_mul, Nat.add_mul, Nat.mul_comm]
      omega
  · symm
    apply Nat.div_eq_of_lt_le
    · rw [Nat.mul_comm]
      omega
    · rw [Nat.add_mul, Nat.mul_comm]
      omega

lemma and_not128 {v k : ℕ} (hv : v < 2 ^ 128) (hk : k ≤ 128) :
    v &&& not128 (2 ^ k - 1) = v / 2 ^ k * 2 ^ k := by
  have hmask : 2 ^ k - 1 < 2 ^ 128 := by
    have := Nat.pow_le_pow_right (show 0 < 2 by omega) hk
    have := Nat.two_pow_pos k
    omega
  apply Nat.eq_of_testBit_eq
  intro i
  rw [Nat.testBit_and, not128, Nat.testBit_two_pow_sub_succ hmask, Nat.testBit_two_pow_sub_one,
    Nat.testBit_mul_two_pow, Nat.testBit_div_two_pow]
  by_cases hi : k ≤ i
  · by_cases hi' : i < 128
    · have hik : i - k + k = i := Nat.sub_add_cancel hi
      simp [hi, hi', hik]
    · have hbit : v.testBit i = false :=
        Nat.testBit_lt_two_pow (hv.trans_le (Nat.pow_le_pow_right (by omega) (by omega)))
      have hik : i - k + k = i := Nat.sub_add_cancel hi
      simp [hi', hbit, hik]
  · simp [hi, show i < k by omega]

/-- A geometric step without word bounds: grow, round up, and grow by a granule at least. -/
def Params.step (p : Params) (cur : ℕ) : ℕ :=
  max ((cur * p.growth.1 ⌈/⌉ p.growth.2) ⌈/⌉ p.minBlock * p.minBlock) (cur + p.minBlock)

/-- The `i`-th geometric value of a scheme. -/
def Params.term (p : Params) : ℕ → ℕ
  | 0 => p.minBlock
  | i + 1 => p.step (p.term i)

/-- The geometric run of a scheme. -/
def Params.terms (p : Params) : List ℕ := (List.range p.geoCount).map p.term

lemma Params.dvd_step (p : Params) {cur : ℕ} (h : p.minBlock ∣ cur) : p.minBlock ∣ p.step cur := by
  unfold Params.step
  rcases max_choice ((cur * p.growth.1 ⌈/⌉ p.growth.2) ⌈/⌉ p.minBlock * p.minBlock)
    (cur + p.minBlock) with hmax | hmax
  · rw [hmax]
    exact Nat.dvd_mul_left _ _
  · rw [hmax]
    exact Nat.dvd_add h (Nat.dvd_refl _)

lemma Params.lt_step (p : Params) (hp : 0 < p.minBlock) (cur : ℕ) : cur < p.step cur :=
  lt_of_lt_of_le (by omega) (le_max_right _ _)

/-- The code's step is the plain one where that fits a word; the wide product never overflows. -/
lemma Params.next_eq (p : Params) (hp : p.minBlock.isPowerOfTwo) (hden : 0 < p.growth.2) {cur : ℕ}
    (hcur : cur < 2 ^ 64) (hdvd : p.minBlock ∣ cur) :
    p.next cur = if p.step cur < 2 ^ 64 then .ok (p.step cur) else .error overflowText := by
  obtain ⟨k, hk⟩ := hp
  have hpos : 0 < p.minBlock := by
    rw [hk]
    exact Nat.two_pow_pos k
  have hlt := p.minBlock_lt
  have hk64 : k < 64 := by
    rw [hk] at hlt
    exact (Nat.pow_lt_pow_iff_right (by omega)).mp hlt
  have hproduct : cur * p.growth.1 ≤ (2 ^ 64 - 1) * (2 ^ 64 - 1) :=
    Nat.mul_le_mul (by omega) (by have := p.num_lt; omega)
  have hscaled : cur * p.growth.1 ⌈/⌉ p.growth.2 ≤ cur * p.growth.1 := by
    rw [ceilDiv_le_iff_le_mul hden]
    exact Nat.le_mul_of_pos_left _ hden
  have hround : (cur * p.growth.1 ⌈/⌉ p.growth.2 + (p.minBlock - 1)) &&& not128 (p.minBlock - 1) =
      (cur * p.growth.1 ⌈/⌉ p.growth.2) ⌈/⌉ p.minBlock * p.minBlock := by
    rw [Nat.ceilDiv_eq_add_pred_div _ p.minBlock, hk]
    rw [hk] at hlt
    rw [and_not128 (by norm_num at hproduct ⊢; omega) (by omega),
      Nat.add_sub_assoc (Nat.two_pow_pos k)]
  have hcap : (2 ^ 64 - 1) * (2 ^ 64 - 1) + 2 ^ 64 < 2 ^ 128 := by norm_num
  have hproduct' : cur * p.growth.1 < 2 ^ 128 := by omega
  have hscaled' : cur * p.growth.1 ⌈/⌉ p.growth.2 + (p.minBlock - 1) < 2 ^ 128 := by omega
  unfold Params.next Params.step
  dsimp only
  rw [checkedOr_of_lt hproduct', ok_bind, divCeil_eq hden, checkedOr_of_lt hscaled', ok_bind,
    hround]
  have hmul : p.minBlock ∣ (cur * p.growth.1 ⌈/⌉ p.growth.2) ⌈/⌉ p.minBlock * p.minBlock :=
    Nat.dvd_mul_left _ _
  generalize (cur * p.growth.1 ⌈/⌉ p.growth.2) ⌈/⌉ p.minBlock * p.minBlock = rounded at hmul ⊢
  by_cases hfit : rounded ≤ 2 ^ 64 - 1
  · rw [assert_of hfit, ok_bind]
    by_cases hle : rounded ≤ cur
    · rw [if_pos hle, max_eq_right (by omega)]
      by_cases hsum : cur + p.minBlock < 2 ^ 64
      · rw [checkedOr_of_lt hsum, if_pos hsum]
      · rw [checkedOr_of_ge (by omega), if_neg hsum]
    · have hgap : cur + p.minBlock ≤ rounded := by
        have hsub := Nat.le_of_dvd (by omega) (Nat.dvd_sub hmul hdvd)
        omega
      rw [if_neg hle, max_eq_left hgap, if_pos (by omega)]
  · rw [assert_of_not hfit, error_bind, if_neg]
    have := le_max_left rounded (cur + p.minBlock)
    omega

/-! ### The merge -/

/-- The merge of two increasing lists is increasing when they have no common entry. -/
lemma pairwise_merge {xs ys : List ℕ} (hx : xs.Pairwise (· < ·)) (hy : ys.Pairwise (· < ·))
    (hxy : xs.Disjoint ys) : (List.merge xs ys (fun a b => a < b)).Pairwise (· < ·) := by
  induction xs generalizing ys with
  | nil => simpa using hy
  | cons x xs ihx =>
    induction ys with
    | nil => simpa using hx
    | cons y ys ihy =>
      obtain ⟨hx1, hx2⟩ := List.pairwise_cons.mp hx
      obtain ⟨hy1, hy2⟩ := List.pairwise_cons.mp hy
      have hne : x ≠ y := fun h => hxy List.mem_cons_self (h ▸ List.mem_cons_self)
      rw [List.merge]
      by_cases hlt : x < y
      · rw [if_pos (by simpa using hlt), List.pairwise_cons]
        constructor
        · intro z hz
          rcases List.mem_merge.mp hz with hz | hz
          · exact hx1 z hz
          · rcases List.mem_cons.mp hz with rfl | hz
            · exact hlt
            · exact hlt.trans (hy1 z hz)
        · apply ihx hx2 hy
          exact fun a ha hb => hxy (List.mem_cons_of_mem _ ha) hb
      · rw [if_neg (by simpa using hlt), List.pairwise_cons]
        constructor
        · intro z hz
          rcases List.mem_merge.mp hz with hz | hz
          · rcases List.mem_cons.mp hz with rfl | hz
            · omega
            · have := hx1 z hz
              omega
          · exact hy1 z hz
        · apply ihy hy2
          exact fun a ha hb => hxy ha (List.mem_cons_of_mem _ hb)

/-- The loop merges the geometric run with the extras, unless a term is too large. -/
lemma mergeLoop_eq (p : Params) (hp : p.minBlock.isPowerOfTwo) (hden : 0 < p.growth.2)
    (slots geoLeft : ℕ) (extras : List ℕ) (cur : ℕ) (hslots : slots = geoLeft + extras.length)
    (hcur : cur < 2 ^ 64) (hdvd : p.minBlock ∣ cur) :
    mergeLoop p slots geoLeft extras cur =
      if ∀ t ∈ List.iterate p.step cur geoLeft, t < 2 ^ 64 then
        .ok (List.merge (List.iterate p.step cur geoLeft) extras (fun a b => a < b))
      else .error overflowText := by
  induction slots generalizing geoLeft extras cur with
  | zero =>
    obtain rfl : geoLeft = 0 := by omega
    obtain rfl : extras = [] := List.eq_nil_of_length_eq_zero (by omega)
    simp [mergeLoop, List.iterate]
  | succ slots ih =>
    cases geoLeft with
    | zero =>
      cases extras with
      | nil => simp at hslots
      | cons e es =>
        have hrest := ih 0 es cur (by simpa using hslots) hcur hdvd
        simp only [mergeLoop, takeGeo, if_true, Bool.false_eq_true, if_false, List.tail_cons,
          List.headD_cons, hrest]
        simp [List.iterate]
    | succ g =>
      by_cases htake : takeGeo (g + 1) extras cur = true
      · have hmerge : ∀ l : List ℕ, List.merge (cur :: l) extras (fun a b => a < b) =
            cur :: List.merge l extras (fun a b => a < b) := by
          intro l
          cases extras with
          | nil => simp
          | cons e es =>
            rw [List.merge, if_pos]
            simpa [takeGeo] using htake
        simp only [mergeLoop, htake, if_true, Nat.add_sub_cancel]
        rw [List.iterate, hmerge]
        rcases Nat.eq_zero_or_pos g with rfl | hg
        · have hrest := ih 0 extras cur (by omega) hcur hdvd
          rw [if_neg (by omega), ok_bind, hrest]
          simpa [List.iterate] using hcur
        · rw [if_pos (by omega), p.next_eq hp hden hcur hdvd]
          obtain ⟨g, rfl⟩ : ∃ g', g = g' + 1 := ⟨g - 1, by omega⟩
          by_cases hstep : p.step cur < 2 ^ 64
          · rw [if_pos hstep, ok_bind,
              ih (g + 1) extras (p.step cur) (by omega) hstep (p.dvd_step hdvd)]
            by_cases hfit : ∀ t ∈ List.iterate p.step (p.step cur) (g + 1), t < 2 ^ 64
            · have hall : ∀ t ∈ cur :: List.iterate p.step (p.step cur) (g + 1), t < 2 ^ 64 :=
                List.forall_mem_cons.mpr ⟨hcur, hfit⟩
              rw [if_pos hfit, if_pos hall, ok_bind]
            · have hall : ¬ ∀ t ∈ cur :: List.iterate p.step (p.step cur) (g + 1), t < 2 ^ 64 :=
                fun h => hfit (List.forall_mem_cons.mp h).2
              rw [if_neg hfit, if_neg hall, error_bind]
          · rw [if_neg hstep, error_bind, if_neg]
            intro h
            exact hstep (h _ (by simp [List.iterate]))
      · cases extras with
        | nil => simp [takeGeo] at htake
        | cons e es =>
          have hmerge : List.merge (List.iterate p.step cur (g + 1)) (e :: es)
              (fun a b => a < b) =
              e :: List.merge (List.iterate p.step cur (g + 1)) es (fun a b => a < b) := by
            rw [List.iterate, List.merge, if_neg]
            simpa [takeGeo] using htake
          have hrest := ih (g + 1) es cur (by simp at hslots; omega) hcur hdvd
          simp only [mergeLoop, htake, Bool.false_eq_true, if_false, List.tail_cons,
            List.headD_cons, hrest, hmerge]
          by_cases hfit : ∀ t ∈ List.iterate p.step cur (g + 1), t < 2 ^ 64
          · rw [if_pos hfit, if_pos hfit, ok_bind]
          · rw [if_neg hfit, if_neg hfit, error_bind]

/-! ### The checks -/

lemma increasing_iff {l : List ℕ} : increasing l = true ↔ l.Pairwise (· < ·) := by
  rw [← List.isChain_iff_pairwise]
  induction l with
  | nil => simp [increasing]
  | cons a l ih =>
    cases l with
    | nil => simp [increasing]
    | cons b l => simp [increasing, ih]

lemma and_pred_eq_zero_iff {e m : ℕ} (hm : m.isPowerOfTwo) : e &&& (m - 1) = 0 ↔ m ∣ e := by
  obtain ⟨k, rfl⟩ := hm
  rw [Nat.and_two_pow_sub_one_eq_mod, Nat.dvd_iff_mod_eq_zero]

lemma checkExtras_eq_ok {m : ℕ} (hm : m.isPowerOfTwo) {previous : Option ℕ} {l : List ℕ} :
    checkExtras m previous l = .ok () ↔
      (∀ e ∈ l, m ∣ e ∧ m ≤ e) ∧ (previous.toList ++ l).IsChain (· < ·) := by
  induction l generalizing previous with
  | nil => cases previous <;> simp [checkExtras]
  | cons e es ih =>
    have hchain : (previous.toList ++ e :: es).IsChain (· < ·) ↔
        (∀ e' ∈ previous, e' < e) ∧ (e :: es).IsChain (· < ·) := by
      cases previous <;> simp
    rw [hchain, List.forall_mem_cons, checkExtras]
    by_cases hdvd : e &&& (m - 1) = 0
    · by_cases hle : m ≤ e
      · by_cases hprev : ∀ e' ∈ previous, e' < e
        · rw [assert_of hdvd, assert_of hle, assert_of hprev, ok_bind, ok_bind, ok_bind, ih]
          rw [and_pred_eq_zero_iff hm] at hdvd
          simp only [Option.toList_some, List.cons_append, List.nil_append]
          tauto
        · rw [assert_of hdvd, assert_of hle, assert_of_not hprev]
          simp only [ok_bind, error_bind, reduceCtorEq, false_iff]
          tauto
      · rw [assert_of hdvd, assert_of_not hle]
        simp only [ok_bind, error_bind, reduceCtorEq, false_iff]
        tauto
    · rw [assert_of_not hdvd]
      rw [and_pred_eq_zero_iff hm] at hdvd
      simp only [error_bind, reduceCtorEq, false_iff]
      tauto

/-- The schemes that `build_table` accepts. -/
structure Params.Accepted (p : Params) (N : ℕ) : Prop where
  powerOfTwo : p.minBlock.isPowerOfTwo
  geoCount_pos : 0 < p.geoCount
  den_pos : 0 < p.growth.2
  count : N = p.geoCount + p.extras.length
  multiple : ∀ e ∈ p.extras, p.minBlock ∣ e
  least : ∀ e ∈ p.extras, p.minBlock ≤ e
  increasing : p.extras.Pairwise (· < ·)
  disjoint : p.terms.Disjoint p.extras
  fits : ∀ t ∈ p.terms, t < 2 ^ 64

lemma Params.terms_eq (p : Params) : p.terms = List.iterate p.step p.minBlock p.geoCount := by
  have hterm : ∀ i, p.term i = p.step^[i] p.minBlock := by
    intro i
    induction i with
    | zero => rfl
    | succ i ih => rw [Function.iterate_succ_apply', ← ih, Params.term]
  rw [← List.range_map_iterate, Params.terms]
  exact List.map_congr_left fun i _ => hterm i

lemma Params.dvd_term (p : Params) (i : ℕ) : p.minBlock ∣ p.term i := by
  induction i with
  | zero => exact Nat.dvd_refl _
  | succ i ih => exact p.dvd_step ih

lemma Params.terms_increasing (p : Params) (hp : 0 < p.minBlock) : p.terms.Pairwise (· < ·) := by
  have hmono : StrictMono p.term := strictMono_nat_of_lt_succ fun i => p.lt_step hp _
  exact List.pairwise_map.mpr (List.pairwise_lt_range.imp fun h => hmono h)

/-- The table that the builder answers: the run and the extras, merged. -/
def Params.merged (p : Params) : List ℕ :=
  List.merge p.terms p.extras (fun a b => a < b)

lemma pos_of_isPowerOfTwo {n : ℕ} (h : n.isPowerOfTwo) : 0 < n := by
  obtain ⟨k, rfl⟩ := h
  exact Nat.two_pow_pos k

/-- The builder answers the merged table of an accepted scheme and panics on every other. -/
lemma buildTable_eq_ok (p : Params) {N : ℕ} (hN : N < 2 ^ 64) (t : List ℕ) :
    buildTable N p = .ok t ↔ p.Accepted N ∧ t = p.merged := by
  have hcount : checked 64 (p.geoCount + p.extras.length) = some N ↔
      N = p.geoCount + p.extras.length := by
    unfold checked
    split
    · rw [Option.some_inj, eq_comm]
    · simp only [reduceCtorEq, false_iff]
      omega
  unfold buildTable
  rw [assert_bind_eq_ok, assert_bind_eq_ok, assert_bind_eq_ok, assert_bind_eq_ok, hcount,
    unit_bind_eq_ok, bind_eq_ok]
  simp only [assert_bind_eq_ok]
  constructor
  · rintro ⟨hp, hgeo, hden, hN', hcheck, out, hloop, hinc, hout⟩
    obtain rfl : out = t := by simpa using hout
    obtain ⟨hextras, hchain⟩ := (checkExtras_eq_ok hp).mp hcheck
    rw [mergeLoop_eq p hp hden N p.geoCount p.extras p.minBlock hN' p.minBlock_lt (dvd_refl _),
      ← p.terms_eq] at hloop
    split at hloop
    · rename_i hfit
      obtain rfl : p.merged = out := by simpa [Params.merged] using hloop
      have hnodup : (p.terms ++ p.extras).Nodup := by
        rw [← (List.merge_perm_append (fun a b : ℕ => (a < b : Bool))).nodup_iff]
        exact (increasing_iff.mp hinc).imp fun h => h.ne
      refine ⟨⟨hp, hgeo, hden, hN', fun e he => (hextras e he).1, fun e he => (hextras e he).2,
        List.isChain_iff_pairwise.mp hchain, List.disjoint_of_nodup_append hnodup, hfit⟩, rfl⟩
    · simp at hloop
  · rintro ⟨h, rfl⟩
    refine ⟨h.powerOfTwo, h.geoCount_pos, h.den_pos, h.count, ?_, p.merged, ?_, ?_, rfl⟩
    · rw [checkExtras_eq_ok h.powerOfTwo]
      exact ⟨fun e he => ⟨h.multiple e he, h.least e he⟩,
        List.isChain_iff_pairwise.mpr h.increasing⟩
    · rw [mergeLoop_eq p h.powerOfTwo h.den_pos N p.geoCount p.extras p.minBlock h.count
        p.minBlock_lt (dvd_refl _), ← p.terms_eq, if_pos h.fits]
      rfl
    · rw [increasing_iff]
      exact pairwise_merge (p.terms_increasing (pos_of_isPowerOfTwo h.powerOfTwo)) h.increasing
        h.disjoint

lemma assert_bind_eq_error {p : Prop} [Decidable p] {text e : String} {β : Type}
    {f : Unit → Except String β} (h : (assert p text >>= f) = .error e) :
    e = text ∨ p ∧ f () = .error e := by
  by_cases hp : p
  · rw [assert_of hp, ok_bind] at h
    exact Or.inr ⟨hp, h⟩
  · rw [assert_of_not hp, error_bind] at h
    left
    simpa using h.symm

lemma checkExtras_error {m : ℕ} {previous : Option ℕ} {l : List ℕ} {e : String}
    (h : checkExtras m previous l = .error e) :
    e ∈ [multipleText, leastText, increasingText] := by
  induction l generalizing previous with
  | nil => simp [checkExtras] at h
  | cons x xs ih =>
    rw [checkExtras] at h
    rcases assert_bind_eq_error h with rfl | ⟨-, h⟩
    · simp
    rcases assert_bind_eq_error h with rfl | ⟨-, h⟩
    · simp
    rcases assert_bind_eq_error h with rfl | ⟨-, h⟩
    · simp
    exact ih h

/-- The panics of `build_table`: the wide steps and the output slots are not among them. -/
lemma buildTable_error (p : Params) {N : ℕ} {e : String} (h : buildTable N p = .error e) :
    e ∈ [powerOfTwoText, geoCountText, denominatorText, countText, multipleText, leastText,
      increasingText, overflowText, mergedText] := by
  unfold buildTable at h
  rcases assert_bind_eq_error h with rfl | ⟨hp, h⟩
  · simp
  rcases assert_bind_eq_error h with rfl | ⟨-, h⟩
  · simp
  rcases assert_bind_eq_error h with rfl | ⟨hden, h⟩
  · simp
  rcases assert_bind_eq_error h with rfl | ⟨hcount, h⟩
  · simp
  have hN : N = p.geoCount + p.extras.length := by
    unfold checked at hcount
    split at hcount
    · exact (Option.some_inj.mp hcount).symm
    · simp at hcount
  cases hcheck : checkExtras p.minBlock none p.extras with
  | error e' =>
    rw [hcheck, error_bind] at h
    obtain rfl : e' = e := by simpa using h
    have := checkExtras_error hcheck
    simp only [List.mem_cons, List.not_mem_nil, or_false] at this ⊢
    tauto
  | ok _ =>
    rw [hcheck, ok_bind, mergeLoop_eq p hp hden N p.geoCount p.extras p.minBlock hN
      p.minBlock_lt (dvd_refl _)] at h
    split at h
    · rw [ok_bind] at h
      rcases assert_bind_eq_error h with rfl | ⟨-, h⟩
      · simp
      · simp at h
    · obtain rfl : overflowText = e := by simpa using h
      simp

/-! ### The bucket index -/

/-- Class `i` is the first of the table with room for `size`. -/
def Least (table : List ℕ) (size i : ℕ) : Prop :=
  IsLeast {j | ∃ s, table[j]? = some s ∧ size ≤ s} i

lemma advance_spec (table : List ℕ) (size : ℕ) (i : ℕ) (hi : i ≤ table.length)
    (hbelow : ∀ j < i, ∀ s, table[j]? = some s → s < size)
    (hroom : ∃ (j s : ℕ), table[j]? = some s ∧ size ≤ s) :
    Least table size (advance size (table.drop i) i) := by
  induction h : table.drop i generalizing i with
  | nil =>
    obtain ⟨j, s, hj, hs⟩ := hroom
    have hlen := (List.getElem?_eq_some_iff.mp hj).1
    have := hbelow j (by have := List.drop_eq_nil_iff.mp h; omega) s hj
    omega
  | cons s rest ih =>
    have hget : table[i]? = some s := by
      rw [← List.head?_drop, h, List.head?_cons]
    rw [advance]
    split
    · rename_i hle
      constructor
      · exact ⟨s, hget, hle⟩
      · rintro j ⟨s', hj, hs'⟩
        by_contra hlt
        have := hbelow j (by omega) s' hj
        omega
    · rename_i hlt
      apply ih
      · have := (List.getElem?_eq_some_iff.mp hget).1
        omega
      · intro j hj s' hs'
        rcases Nat.lt_succ_iff_lt_or_eq.mp hj with hj | rfl
        · exact hbelow j hj s' hs'
        · rw [hget] at hs'
          obtain rfl := Option.some_inj.mp hs'
          omega
      · rw [← List.tail_drop, h, List.tail_cons]

lemma need_eq (minBlock smallMax k : ℕ) (h : smallMax < 2 ^ 64) :
    need minBlock smallMax k = min ((k + 1) * minBlock) smallMax := by
  unfold need checked
  generalize (k + 1) * minBlock = v
  by_cases hv : v < 2 ^ 64
  · rw [if_pos hv]
    dsimp only
    split <;> omega
  · rw [if_neg hv]
    dsimp only
    omega

/-- Every bucket that is left gets its least class, as the cursor never passes one. -/
lemma fill_spec (table : List ℕ) (minBlock smallMax : ℕ) (hmax : smallMax < 2 ^ 64)
    (hbyte : table.length ≤ 256) (hlast : ∃ j : ℕ, table[j]? = some smallMax) (left k idx : ℕ)
    (hidx : idx ≤ table.length)
    (hbelow : ∀ j < idx, ∀ s, table[j]? = some s → s < min ((k + 1) * minBlock) smallMax) :
    (fill table minBlock smallMax left k idx).length = left ∧
      ∀ i < left, ∃ c, (fill table minBlock smallMax left k idx)[i]? = some c ∧
        Least table (min ((k + i + 1) * minBlock) smallMax) c := by
  induction left generalizing k idx with
  | zero => exact ⟨rfl, fun i hi => absurd hi (by omega)⟩
  | succ left ih =>
    obtain ⟨last, hlast⟩ := hlast
    have hleast := advance_spec table (min ((k + 1) * minBlock) smallMax) idx hidx hbelow
      ⟨last, smallMax, hlast, min_le_right _ _⟩
    rw [fill, need_eq _ _ _ hmax]
    generalize advance (min ((k + 1) * minBlock) smallMax) (table.drop idx) idx = c at hleast
    obtain ⟨⟨s, hs, hroom⟩, hlower⟩ := hleast
    have hlt : c < table.length := (List.getElem?_eq_some_iff.mp hs).1
    have hbelow' : ∀ j < c, ∀ s, table[j]? = some s → s < min ((k + 1 + 1) * minBlock) smallMax := by
      intro j hj s hs
      by_contra hge
      have hmono : min ((k + 1) * minBlock) smallMax ≤ min ((k + 1 + 1) * minBlock) smallMax :=
        min_le_min_right _ (Nat.mul_le_mul_right _ (by omega))
      have := hlower ⟨s, hs, by omega⟩
      omega
    obtain ⟨hlen, hrest⟩ := ih (k + 1) c hlt.le hbelow'
    constructor
    · rw [List.length_cons, hlen]
    · intro i hi
      cases i with
      | zero => exact ⟨c, by simp [Nat.mod_eq_of_lt (show c < 256 by omega)],
          ⟨s, hs, hroom⟩, hlower⟩
      | succ i =>
        obtain ⟨c', hget, hleast'⟩ := hrest i (by omega)
        refine ⟨c', by simpa using hget, ?_⟩
        rwa [show k + (i + 1) + 1 = k + 1 + i + 1 by omega]

lemma checkedOr_eq_ok {text : String} {width v w : ℕ} :
    checkedOr text width v = .ok w ↔ v < 2 ^ width ∧ w = v := by
  by_cases h : v < 2 ^ width
  · rw [checkedOr_of_lt h]
    simp [h, eq_comm]
  · rw [checkedOr_of_ge (by omega)]
    simp [h]

lemma getD_last {t : List ℕ} {largest : ℕ} (h : t.getLast? = some largest) :
    t.getD (t.length - 1) 0 = largest := by
  rw [List.getD_eq_getElem?_getD, ← List.getLast?_eq_getElem?, h]
  rfl

/-- The index is built for up to 256 classes, at the length of `size2class_len`. -/
lemma buildSize2class_eq_ok {L minBlock largest : ℕ} {t : List ℕ}
    (hp : minBlock.isPowerOfTwo) (ht : t.Pairwise (· < ·)) (hlast : t.getLast? = some largest)
    (s : List ℕ) :
    buildSize2class L t minBlock = .ok s ↔
      (t.length ≤ 256 ∧ L = largest / minBlock + 1 ∧ L < 2 ^ 64) ∧
        s = fill t minBlock largest L 0 0 := by
  have hpos : 0 < t.length := by
    cases t with
    | nil => simp at hlast
    | cons a t => simp
  unfold buildSize2class size2classLen
  rw [assert_bind_eq_ok, assert_bind_eq_ok, assert_bind_eq_ok, assert_bind_eq_ok, getD_last hlast,
    bind_eq_ok]
  simp only [assert_bind_eq_ok, checkedOr_eq_ok]
  constructor
  · rintro ⟨-, -, hlen, -, len, ⟨-, hfits, rfl⟩, rfl, hs⟩
    exact ⟨⟨hlen, rfl, hfits⟩, by simpa using hs.symm⟩
  · rintro ⟨⟨hlen, rfl, hfits⟩, rfl⟩
    exact ⟨hpos, hp, hlen, increasing_iff.mpr ht, _, ⟨hp, hfits, rfl⟩, rfl, rfl⟩

namespace Params.Accepted
variable {p : Params} {N : ℕ} (h : p.Accepted N)
include h

lemma perm : p.merged.Perm (p.terms ++ p.extras) := List.merge_perm_append _

lemma merged_increasing : p.merged.Pairwise (· < ·) :=
  pairwise_merge (p.terms_increasing (pos_of_isPowerOfTwo h.powerOfTwo)) h.increasing h.disjoint

lemma length_merged : p.merged.length = N := by
  rw [h.perm.length_eq, List.length_append, Params.terms, List.length_map, List.length_range,
    h.count]

lemma merged_ne_nil : p.merged ≠ [] := by
  rw [← List.length_pos_iff, h.length_merged, h.count]
  exact Nat.add_pos_left h.geoCount_pos _

lemma entries {b : ℕ} (hb : b ∈ p.merged) : 0 < b ∧ p.minBlock ∣ b ∧ b < 2 ^ 64 := by
  have hpos := pos_of_isPowerOfTwo h.powerOfTwo
  rcases List.mem_append.mp (h.perm.mem_iff.mp hb) with hb | hb
  · obtain ⟨i, -, rfl⟩ := List.mem_map.mp hb
    have hle : p.minBlock ≤ p.term i := by
      cases i with
      | zero => exact le_refl _
      | succ i => exact (Nat.le_add_left _ _).trans (le_max_right _ _)
    exact ⟨by omega, p.dvd_term i, h.fits _ hb⟩
  · exact ⟨by have := h.least b hb; omega, h.multiple b hb, p.extras_lt b hb⟩

/-- The bucket index of an accepted table. -/
lemma buckets {largest L : ℕ} (hlast : p.merged.getLast? = some largest) {s : List ℕ}
    (hs : buildSize2class L p.merged p.minBlock = .ok s) :
    s.length = L ∧ ∀ k < L, ∃ c, s[k]? = some c ∧
      Least p.merged (min ((k + 1) * p.minBlock) largest) c := by
  have hat : p.merged[p.merged.length - 1]? = some largest := by
    rw [← List.getLast?_eq_getElem?, hlast]
  have hlt := (h.entries (List.mem_of_getElem? hat)).2.2
  obtain ⟨⟨hcount, -, -⟩, rfl⟩ :=
    (buildSize2class_eq_ok h.powerOfTwo h.merged_increasing hlast s).mp hs
  obtain ⟨hfill, hbuckets⟩ := fill_spec p.merged p.minBlock largest hlt hcount ⟨_, hat⟩ L 0 0
    (Nat.zero_le _) (fun j hj => absurd hj (Nat.not_lt_zero j))
  constructor
  · exact hfill
  · intro k hk
    obtain ⟨c, hget, hleast⟩ := hbuckets k hk
    rw [Nat.zero_add] at hleast
    exact ⟨c, hget, hleast⟩

end Params.Accepted

/-- `build_table` accepts exactly the well-formed schemes and answers the increasing enumeration
of their terms and extras; no wide step overflows; and the bucket index of the table holds the
least class of every bucket. -/
theorem builder_exact (p : Params) (N : ℕ) (hN : N < 2 ^ 64) :
    ((∃ t, buildTable N p = .ok t) ↔ p.Accepted N) ∧
      buildTable N p ≠ .error productText ∧ buildTable N p ≠ .error roundText ∧
      ∀ t, buildTable N p = .ok t →
        t.Pairwise (· < ·) ∧ t.Perm (p.terms ++ p.extras) ∧
        (∀ b ∈ t, 0 < b ∧ p.minBlock ∣ b) ∧
        ∃ largest, t.getLast? = some largest ∧ ∀ L,
          ((∃ s, buildSize2class L t p.minBlock = .ok s) ↔
            N ≤ 256 ∧ L = largest / p.minBlock + 1 ∧ L < 2 ^ 64) ∧
          ∀ s, buildSize2class L t p.minBlock = .ok s → s.length = L ∧
            ∀ k < L, ∃ c, s[k]? = some c ∧
              Least t (min ((k + 1) * p.minBlock) largest) c := by
  have herror : ∀ e, e ∉ [powerOfTwoText, geoCountText, denominatorText, countText, multipleText,
      leastText, increasingText, overflowText, mergedText] → buildTable N p ≠ .error e :=
    fun e he h => he (buildTable_error p h)
  refine ⟨?_, herror _ (by decide +kernel), herror _ (by decide +kernel), ?_⟩
  · constructor
    · rintro ⟨t, ht⟩
      exact ((buildTable_eq_ok p hN t).mp ht).1
    · intro h
      exact ⟨p.merged, (buildTable_eq_ok p hN _).mpr ⟨h, rfl⟩⟩
  · intro t ht
    obtain ⟨h, rfl⟩ := (buildTable_eq_ok p hN t).mp ht
    have hlast := List.getLast?_eq_some_getLast h.merged_ne_nil
    refine ⟨h.merged_increasing, h.perm,
      fun b hb => ⟨(h.entries hb).1, (h.entries hb).2.1⟩, _, hlast, fun L => ⟨?_, ?_⟩⟩
    · have hok := buildSize2class_eq_ok (L := L) h.powerOfTwo h.merged_increasing hlast
      rw [h.length_merged] at hok
      constructor
      · rintro ⟨s, hs⟩
        exact ((hok s).mp hs).1
      · intro hL
        exact ⟨_, (hok _).mpr ⟨hL, rfl⟩⟩
    · exact fun s hs => h.buckets hlast hs

/-- Three terms of growth 5/4 and one extra. -/
def fourClasses : Params where
  minBlock := 16
  growth := (5, 4)
  geoCount := 3
  extras := [256]
  minBlock_lt := by norm_num
  num_lt := by norm_num
  den_lt := by norm_num
  geoCount_lt := by norm_num
  extras_lt := by simp

theorem builder_exact_fourClasses :
    buildTable 4 fourClasses = .ok [16, 32, 48, 256] ∧ fourClasses.Accepted 4 := by
  have hbuild : buildTable 4 fourClasses = .ok [16, 32, 48, 256] := by decide +kernel
  exact ⟨hbuild, (builder_exact fourClasses 4 (by norm_num)).1.mp ⟨_, hbuild⟩⟩

end SeferAlloc.ClassTable
