import SeferAlloc.ClassFor
import SeferAlloc.ClassTable

/-!
# Looking a class up

`class_for` reads the bucket of a size and, for an alignment above the granule,
walks on through the bucket index. Its answer is the least class of the table
that has room for the size and is a multiple of the alignment. The allocator
folds the small alignments into a table of tags; its answer is the same.
-/
namespace SeferAlloc.ClassTable

/-- `SizeClasses`, the table of a scheme with its bucket index. -/
structure Scheme where
  table : List ℕ
  size2class : List ℕ
  minBlockShift : ℕ
  deriving DecidableEq

/-- `SizeClasses::build`; the shift is `trailing_zeros` of the granule. -/
def build (N L : ℕ) (p : Params) : Except String Scheme := do
  let table ← buildTable N p
  let size2class ← buildSize2class L table p.minBlock
  .ok ⟨table, size2class, Nat.log2 p.minBlock⟩

/-- A slice index, which panics past the end. -/
def index (l : List ℕ) (i : ℕ) : Except String ℕ :=
  match l[i]? with
  | some v => .ok v
  | none => .error indexText

namespace Scheme

/-- The walk of `class_for` from class `i`; each round reaches a later class. -/
def walk (sc : Scheme) (align : ℕ) : ℕ → ℕ → Except String (Option ℕ)
  | 0, _ => .error "the walk does not end"
  | rounds + 1, i =>
      if i < sc.table.length then do
        let block ← index sc.table i
        if block &&& (align - 1) = 0 then .ok (some i)
        else
          let next := (block ||| (align - 1)) >>> sc.minBlockShift
          if sc.size2class.length - 1 ≤ next then .ok none
          else do
            let i ← index sc.size2class next
            walk sc align rounds i
      else .ok none

/-- `class_for`; the difference wraps, as it does in a release build. -/
def classFor (sc : Scheme) (size align : ℕ) : Except String (Option ℕ) := do
  let need := if align < size then size else align
  let seedIdx := ((need + (2 ^ 64 - 1)) % 2 ^ 64) >>> sc.minBlockShift
  if sc.size2class.length - 1 ≤ seedIdx then .ok none
  else do
    let seed ← index sc.size2class seedIdx
    if align ≤ 1 <<< sc.minBlockShift then .ok (some seed)
    else sc.walk align sc.table.length seed

/-- `try_class_for`; the inner error is `InvalidAlign`. -/
def tryClassFor (sc : Scheme) (size align : ℕ) : Except String (Except ℕ (Option ℕ)) :=
  if ¬ align.isPowerOfTwo then .ok (.error align)
  else do
    let answer ← sc.classFor size align
    .ok (.ok answer)

end Scheme

/-! ### Answers -/

/-- The classes with room for `size` bytes at a multiple of `align`. -/
def Candidates (table : List ℕ) (size align : ℕ) : Set ℕ :=
  {c | ∃ b, table[c]? = some b ∧ max size 1 ≤ b ∧ align ∣ b}

/-- The linear specification: the least candidate, and none when there is none. -/
def Answers (candidates : Set ℕ) : Option ℕ → Prop
  | some c => IsLeast candidates c
  | none => candidates = ∅

/-- What the builder promises of a scheme. -/
structure Scheme.Built (sc : Scheme) (p : Params) : Prop where
  granule : p.minBlock = 2 ^ sc.minBlockShift
  shift_lt : sc.minBlockShift < 64
  increasing : sc.table.Pairwise (· < ·)
  granular : ∀ b ∈ sc.table, 0 < b ∧ p.minBlock ∣ b
  words : ∀ b ∈ sc.table, b < 2 ^ 64
  last : ∃ largest, sc.table.getLast? = some largest ∧
    sc.size2class.length = largest / p.minBlock + 1 ∧
    ∀ k < sc.size2class.length, ∃ c, sc.size2class[k]? = some c ∧
      Least sc.table (min ((k + 1) * p.minBlock) largest) c

/-- Whatever `build` answers keeps the promises of the builder. -/
lemma build_built {N L : ℕ} {p : Params} {sc : Scheme} (hN : N < 2 ^ 64)
    (h : build N L p = .ok sc) : sc.Built p := by
  unfold build at h
  rw [bind_eq_ok] at h
  obtain ⟨t, ht, h⟩ := h
  rw [bind_eq_ok] at h
  obtain ⟨s, hs, h⟩ := h
  obtain rfl : (⟨t, s, Nat.log2 p.minBlock⟩ : Scheme) = sc := by simpa using h
  obtain ⟨hp, rfl⟩ := (buildTable_eq_ok p hN t).mp ht
  have hlast := List.getLast?_eq_some_getLast hp.merged_ne_nil
  obtain ⟨⟨-, hL, -⟩, -⟩ :=
    (buildSize2class_eq_ok hp.powerOfTwo hp.merged_increasing hlast s).mp hs
  obtain ⟨hlen, hbuckets⟩ := hp.buckets hlast hs
  obtain ⟨k, hk⟩ := hp.powerOfTwo
  have hlog : Nat.log2 p.minBlock = k := by rw [hk, Nat.log2_two_pow]
  have hlt := p.minBlock_lt
  rw [hk] at hlt
  refine ⟨?_, ?_, hp.merged_increasing, fun b hb => ⟨(hp.entries hb).1, (hp.entries hb).2.1⟩,
    fun b hb => (hp.entries hb).2.2, _, hlast, ?_, ?_⟩
  · change p.minBlock = 2 ^ Nat.log2 p.minBlock
    rw [hlog, hk]
  · change Nat.log2 p.minBlock < 64
    rw [hlog]
    exact (Nat.pow_lt_pow_iff_right (by omega)).mp hlt
  · exact hlen.trans hL
  · change ∀ k < s.length, _
    rw [hlen]
    exact hbuckets

lemma le_getLast {l : List ℕ} {a last : ℕ} (hl : l.Pairwise (· < ·))
    (hlast : l.getLast? = some last) (ha : a ∈ l) : a ≤ last := by
  obtain ⟨ys, rfl⟩ := List.getLast?_eq_some_iff.mp hlast
  rcases List.mem_append.mp ha with ha | ha
  · exact ((List.pairwise_append.mp hl).2.2 a ha last (by simp)).le
  · exact (List.mem_singleton.mp ha).le

/-- The bucket of `w` holds the first class above `w`; past the index there is none. -/
lemma Scheme.Built.bucket {sc : Scheme} {p : Params} (h : sc.Built p) (w : ℕ) :
    (sc.size2class.length - 1 ≤ w >>> sc.minBlockShift → ∀ b ∈ sc.table, b ≤ w) ∧
      (¬ sc.size2class.length - 1 ≤ w >>> sc.minBlockShift →
        ∃ c, index sc.size2class (w >>> sc.minBlockShift) = .ok c ∧
          IsLeast {j : ℕ | ∃ b, sc.table[j]? = some b ∧ w < b} c) := by
  obtain ⟨largest, hlast, hlen, hbuckets⟩ := h.last
  have hpos : 0 < p.minBlock := by
    rw [h.granule]
    exact Nat.two_pow_pos _
  rw [Nat.shiftRight_eq_div_pow, ← h.granule, hlen, Nat.add_sub_cancel]
  constructor
  · intro hge b hb
    obtain ⟨q, rfl⟩ := (h.granular b hb).2
    have hle := le_getLast h.increasing hlast hb
    have hq : q ≤ w / p.minBlock := by
      have := Nat.div_le_div_right (c := p.minBlock) hle
      rw [Nat.mul_div_cancel_left _ hpos] at this
      omega
    calc p.minBlock * q ≤ p.minBlock * (w / p.minBlock) := Nat.mul_le_mul_left _ hq
      _ ≤ w := Nat.mul_div_le _ _
  · intro hlt
    obtain ⟨c, hget, hleast⟩ := hbuckets (w / p.minBlock) (by omega)
    have hmin : min ((w / p.minBlock + 1) * p.minBlock) largest =
        (w / p.minBlock + 1) * p.minBlock := by
      apply min_eq_left
      rw [← Nat.le_div_iff_mul_le hpos]
      omega
    rw [hmin] at hleast
    refine ⟨c, by rw [index, hget], ?_⟩
    have hset : {j : ℕ | ∃ b, sc.table[j]? = some b ∧ w < b} =
        {j : ℕ | ∃ b, sc.table[j]? = some b ∧ (w / p.minBlock + 1) * p.minBlock ≤ b} := by
      ext j
      refine exists_congr fun b => and_congr_right fun hb => ?_
      obtain ⟨q, rfl⟩ := (h.granular b (List.mem_of_getElem? hb)).2
      rw [Nat.mul_comm p.minBlock q, Nat.mul_le_mul_right_iff hpos, ← Nat.div_lt_iff_lt_mul hpos,
        Nat.succ_le_iff]
    rw [hset]
    exact hleast

lemma or_pred_eq {b align : ℕ} (ha : align.isPowerOfTwo) :
    b ||| (align - 1) = b / align * align + (align - 1) := by
  obtain ⟨k, rfl⟩ := ha
  have hlt : 2 ^ k - 1 < 2 ^ k := by
    have := Nat.two_pow_pos k
    omega
  rw [Nat.mul_comm, Nat.two_pow_add_eq_or_of_lt hlt]
  apply Nat.eq_of_testBit_eq
  intro i
  rw [Nat.testBit_or, Nat.testBit_or, Nat.testBit_two_pow_sub_one, Nat.testBit_two_pow_mul,
    Nat.testBit_div_two_pow]
  by_cases hi : i < k
  · simp [hi]
  · simp [hi, show k ≤ i by omega, Nat.sub_add_cancel (show k ≤ i by omega)]

/-- A multiple of the alignment above `b` is above every address that `b` rounds to. -/
lemma or_pred_lt {b b' align : ℕ} (ha : align.isPowerOfTwo) (hlt : b < b') (hdvd : align ∣ b') :
    b ||| (align - 1) < b' := by
  have hpos := pos_of_isPowerOfTwo ha
  obtain ⟨q, rfl⟩ := hdvd
  have hq : b / align + 1 ≤ q := by
    rw [Nat.succ_le_iff, Nat.div_lt_iff_lt_mul hpos, Nat.mul_comm]
    exact hlt
  have hmul := Nat.mul_le_mul_left align hq
  rw [or_pred_eq ha, Nat.mul_comm]
  rw [Nat.mul_add] at hmul
  omega

lemma index_eq {l : List ℕ} {i v : ℕ} (h : l[i]? = some v) : index l i = .ok v := by
  rw [index, h]

/-- The walk ends at some answer, and at the linear one for a power of two. -/
lemma Scheme.Built.walk {sc : Scheme} {p : Params} (h : sc.Built p) (size align : ℕ)
    (rounds i : ℕ) (hi : i < sc.table.length) (hrounds : sc.table.length ≤ rounds + i)
    (hroom : ∀ b, sc.table[i]? = some b → max size 1 ≤ b)
    (hleast : align.isPowerOfTwo → ∀ c ∈ Candidates sc.table size align, i ≤ c) :
    ∃ answer, sc.walk align rounds i = .ok answer ∧
      (align.isPowerOfTwo → Answers (Candidates sc.table size align) answer) := by
  induction rounds generalizing i with
  | zero => omega
  | succ rounds ih =>
    obtain ⟨b, hb⟩ : ∃ b, sc.table[i]? = some b := ⟨_, List.getElem?_eq_getElem hi⟩
    rw [Scheme.walk, if_pos hi, index_eq hb, ok_bind]
    by_cases hzero : b &&& (align - 1) = 0
    · rw [if_pos hzero]
      refine ⟨_, rfl, fun ha => ⟨⟨b, hb, hroom b hb, ?_⟩, fun c hc => hleast ha c hc⟩⟩
      exact (and_pred_eq_zero_iff ha).mp hzero
    · rw [if_neg hzero]
      have habove : align.isPowerOfTwo → ∀ c ∈ Candidates sc.table size align,
          ∃ b', sc.table[c]? = some b' ∧ b ||| (align - 1) < b' := by
        rintro ha c ⟨b', hb', hsize, hdvd⟩
        have hic : i < c := by
          apply lt_of_le_of_ne (hleast ha c ⟨b', hb', hsize, hdvd⟩)
          rintro rfl
          obtain rfl : b = b' := by rwa [hb, Option.some_inj] at hb'
          exact hzero ((and_pred_eq_zero_iff ha).mpr hdvd)
        obtain ⟨hc, rfl⟩ := List.getElem?_eq_some_iff.mp hb'
        obtain ⟨hi', rfl⟩ := List.getElem?_eq_some_iff.mp hb
        exact ⟨_, hb', or_pred_lt ha (List.pairwise_iff_getElem.mp h.increasing i c hi' hc hic)
          hdvd⟩
      obtain ⟨hpast, hbucket⟩ := h.bucket (b ||| (align - 1))
      by_cases hend : sc.size2class.length - 1 ≤ (b ||| (align - 1)) >>> sc.minBlockShift
      · rw [if_pos hend]
        refine ⟨_, rfl, fun ha => ?_⟩
        rw [Answers, Set.eq_empty_iff_forall_notMem]
        intro c hc
        obtain ⟨b', hb', hlt⟩ := habove ha c hc
        have := hpast hend b' (List.mem_of_getElem? hb')
        omega
      · obtain ⟨c, hindex, ⟨b', hb', hlt⟩, hlower⟩ := hbucket hend
        rw [if_neg hend, hindex, ok_bind]
        have hbb : b ≤ b ||| (align - 1) := Nat.left_le_or
        obtain ⟨hc, hval⟩ := List.getElem?_eq_some_iff.mp hb'
        obtain ⟨hi', hval'⟩ := List.getElem?_eq_some_iff.mp hb
        have hic : i < c := by
          by_contra hle
          rcases Nat.lt_or_eq_of_le (Nat.not_lt.mp hle) with hci | rfl
          · have := List.pairwise_iff_getElem.mp h.increasing c i hc hi' hci
            omega
          · omega
        apply ih c hc (by omega)
        · intro b'' hb''
          obtain rfl : b' = b'' := by rwa [hb', Option.some_inj] at hb''
          have := hroom b hb
          omega
        · intro ha j hj
          exact hlower (habove ha j hj)

/-- The lookup ends at some answer for all words, and at the linear one for a power of two. -/
lemma Scheme.Built.classFor {sc : Scheme} {p : Params} (h : sc.Built p) (size align : ℕ)
    (hsize : size < 2 ^ 64) (halign : align < 2 ^ 64) :
    ∃ answer, sc.classFor size align = .ok answer ∧
      (align.isPowerOfTwo → Answers (Candidates sc.table size align) answer) := by
  unfold Scheme.classFor
  dsimp only
  have hneed : (if align < size then size else align) = max size align := by
    split <;> omega
  rw [hneed]
  generalize hw : (max size align + (2 ^ 64 - 1)) % 2 ^ 64 = w
  have hwneed : 0 < align → w + 1 = max size align := by omega
  obtain ⟨hpast, hbucket⟩ := h.bucket w
  have habove : align.isPowerOfTwo → ∀ c ∈ Candidates sc.table size align,
      ∃ b, sc.table[c]? = some b ∧ w < b := by
    rintro ha c ⟨b, hb, hroom, hdvd⟩
    have := hwneed (pos_of_isPowerOfTwo ha)
    have := Nat.le_of_dvd (by omega) hdvd
    exact ⟨b, hb, by omega⟩
  by_cases hend : sc.size2class.length - 1 ≤ w >>> sc.minBlockShift
  · rw [if_pos hend]
    refine ⟨_, rfl, fun ha => ?_⟩
    rw [Answers, Set.eq_empty_iff_forall_notMem]
    intro c hc
    obtain ⟨b, hb, hlt⟩ := habove ha c hc
    have := hpast hend b (List.mem_of_getElem? hb)
    omega
  · obtain ⟨c, hindex, ⟨b, hb, hlt⟩, hlower⟩ := hbucket hend
    rw [if_neg hend, hindex, ok_bind]
    have hroom : 0 < align → max size 1 ≤ b := by
      intro hpos
      have := hwneed hpos
      omega
    by_cases hsmall : align ≤ 1 <<< sc.minBlockShift
    · rw [if_pos hsmall]
      refine ⟨_, rfl, fun ha => ⟨⟨b, hb, hroom (pos_of_isPowerOfTwo ha), ?_⟩,
        fun j hj => hlower (habove ha j hj)⟩⟩
      have hgranule : align ∣ p.minBlock := by
        obtain ⟨k, rfl⟩ := ha
        rw [Nat.one_shiftLeft] at hsmall
        rw [h.granule]
        exact Nat.pow_dvd_pow 2 ((Nat.pow_le_pow_iff_right (by omega)).mp hsmall)
      exact hgranule.trans (h.granular b (List.mem_of_getElem? hb)).2
    · rw [if_neg hsmall]
      apply h.walk size align _ c (List.getElem?_eq_some_iff.mp hb).1 (by omega)
      · intro b' hb'
        obtain rfl : b = b' := by rwa [hb, Option.some_inj] at hb'
        exact hroom (Nat.pos_of_ne_zero fun h0 => hsmall (h0 ▸ Nat.zero_le _))
      · exact fun ha j hj => hlower (habove ha j hj)

/-! ### The allocator's scheme -/

/-- The parameters the allocator builds its own scheme from. -/
def allocatorParams (m : MediumClasses) : Params where
  minBlock := minBlock
  growth := (5, 4)
  geoCount := geoCount
  extras := SeferAlloc.extras m
  minBlock_lt := by decide
  num_lt := by decide
  den_lt := by decide
  geoCount_lt := by decide
  extras_lt := by cases m <;> decide +kernel

/-- A class as a live tag: one more than its index, so that zero stays free. -/
def tagOfClass (count c : ℕ) : Except String ℕ :=
  if c + 1 ≤ count then .ok (c + 1) else .error "LiveTag: class out of range"

/-- The allocator's tables: `SC`, and `SIZE2TAG` with every class as its tag. -/
structure Allocator where
  sc : Scheme
  size2tag : List ℕ

/-- The statics, as the compiler evaluates them. -/
def allocator (m : MediumClasses) : Except String Allocator := do
  let tableLen := geoCount + (SeferAlloc.extras m).length
  let table ← buildTable tableLen (allocatorParams m)
  let smallMax ← index table (tableLen - 1)
  let s2cLen ← size2classLen smallMax minBlock
  let sc ← build tableLen s2cLen (allocatorParams m)
  let size2tag ← sc.size2class.mapM (tagOfClass tableLen)
  .ok ⟨sc, size2tag⟩

namespace Allocator

/-- The class for a size alone, read from the tags. -/
def classForSmallAlign (a : Allocator) (size : ℕ) : Except String (Option ℕ) :=
  let seedIdx := if size = 0 then 0 else (size - 1) >>> 4
  if a.sc.size2class.length - 1 ≤ seedIdx then .ok none
  else do
    let tag ← index a.size2tag seedIdx
    .ok (some (tag - 1))

/-- The tags answer for small alignments, the scheme for the others. -/
def classFor (a : Allocator) (size align : ℕ) : Except String (Option ℕ) :=
  if align ≤ minBlock then a.classForSmallAlign size else a.sc.classFor size align

end Allocator

lemma buildTable_allocatorParams (m : MediumClasses) :
    buildTable (geoCount + (SeferAlloc.extras m).length) (allocatorParams m) =
      .ok (sizeClassTable m) := by
  cases m <;> decide +kernel

lemma mapM_eq_ok {f : ℕ → Except String ℕ} {g : ℕ → ℕ} {l : List ℕ}
    (h : ∀ a ∈ l, f a = .ok (g a)) : l.mapM f = .ok (l.map g) := by
  induction l with
  | nil => rfl
  | cons a l ih =>
    obtain ⟨ha, hl⟩ := List.forall_mem_cons.mp h
    rw [List.mapM_cons, ha, ok_bind, ih hl, ok_bind]
    rfl

/-- The statics evaluate; a tag is one more than the class of its bucket. -/
lemma allocator_built (m : MediumClasses) :
    ∃ a : Allocator, allocator m = .ok a ∧ a.sc.Built (allocatorParams m) ∧
      a.sc.table = sizeClassTable m ∧ a.sc.minBlockShift = 4 ∧
      a.size2tag = a.sc.size2class.map (· + 1) := by
  have htable := buildTable_allocatorParams m
  have hN : geoCount + (SeferAlloc.extras m).length ≤ 63 := by cases m <;> decide
  obtain ⟨hp, hmerged⟩ := (buildTable_eq_ok _ (by omega) _).mp htable
  have hlen : (sizeClassTable m).length = geoCount + (SeferAlloc.extras m).length := by
    rw [hmerged, hp.length_merged]
  have hne : sizeClassTable m ≠ [] := by
    rw [hmerged]
    exact hp.merged_ne_nil
  obtain ⟨largest, hlast⟩ : ∃ largest, (sizeClassTable m).getLast? = some largest :=
    ⟨_, List.getLast?_eq_some_getLast hne⟩
  have hlargest : largest < 2 ^ 64 := by
    apply (hp.entries (b := largest) _).2.2
    rw [← hmerged]
    exact List.mem_of_getLast? hlast
  have hdiv : largest / minBlock ≤ largest := Nat.div_le_self _ _
  have hs2c : largest / minBlock + 1 < 2 ^ 64 := by
    have : largest / minBlock ≤ largest / 2 := Nat.div_le_div_left (by decide) (by decide)
    omega
  have hs := (buildSize2class_eq_ok (L := largest / minBlock + 1) hp.powerOfTwo
    hp.merged_increasing (hmerged ▸ hlast) _).mpr
    ⟨⟨by rw [hp.length_merged]; omega, rfl, hs2c⟩, rfl⟩
  rw [← hmerged] at hs
  generalize fill (sizeClassTable m) (allocatorParams m).minBlock largest (largest / minBlock + 1)
    0 0 = s at hs
  have hbuild : build (geoCount + (SeferAlloc.extras m).length) (largest / minBlock + 1)
      (allocatorParams m) = .ok ⟨sizeClassTable m, s, 4⟩ := by
    have hlog : (allocatorParams m).minBlock.log2 = 4 := by
      rw [show (allocatorParams m).minBlock = 2 ^ 4 from rfl, Nat.log2_two_pow]
    rw [build, htable, ok_bind, hs, ok_bind, hlog]
  have hbuilt := build_built (by omega) hbuild
  have htags : s.mapM (tagOfClass (geoCount + (SeferAlloc.extras m).length)) =
      .ok (s.map (· + 1)) := by
    apply mapM_eq_ok
    intro c hc
    obtain ⟨i, hi, rfl⟩ := List.mem_iff_getElem.mp hc
    obtain ⟨_, -, -, hbuckets⟩ := hbuilt.last
    obtain ⟨c, hget, ⟨b, hb, -⟩, -⟩ := hbuckets i hi
    obtain rfl : s[i] = c := by simpa [hi] using hget
    have hlt : s[i] < (sizeClassTable m).length := (List.getElem?_eq_some_iff.mp hb).1
    rw [tagOfClass, if_pos (by omega)]
  refine ⟨⟨⟨sizeClassTable m, s, 4⟩, s.map (· + 1)⟩, ?_, hbuilt, rfl, rfl, rfl⟩
  have hindex : index (sizeClassTable m) (geoCount + (SeferAlloc.extras m).length - 1) =
      .ok largest := by
    apply index_eq
    rw [← hlen, ← List.getLast?_eq_getElem?, hlast]
  have hs2cLen : size2classLen largest minBlock = .ok (largest / minBlock + 1) := by
    rw [size2classLen, assert_of ⟨4, rfl⟩, ok_bind, checkedOr_of_lt hs2c]
  unfold allocator
  dsimp only
  rw [htable, ok_bind, hindex, ok_bind, hs2cLen, ok_bind, hbuild, ok_bind, htags, ok_bind]

/-! ### The two copies agree -/

lemma length_takeWhile_of_least {t : List ℕ} {size c : ℕ} (h : Least t size c) :
    (t.takeWhile (· < size)).length = c := by
  induction t generalizing c with
  | nil =>
    obtain ⟨⟨b, hb, -⟩, -⟩ := h
    simp at hb
  | cons a t ih =>
    obtain ⟨⟨b, hb, hsize⟩, hlower⟩ := h
    by_cases ha : a < size
    · rw [List.takeWhile_cons_of_pos (by simpa using ha), List.length_cons]
      cases c with
      | zero =>
        obtain rfl : a = b := by simpa using hb
        omega
      | succ c =>
        rw [ih ⟨⟨b, by simpa using hb, hsize⟩, ?_⟩]
        rintro j ⟨b', hb', hsize'⟩
        have : c + 1 ≤ j + 1 := hlower ⟨b', by simpa using hb', hsize'⟩
        exact Nat.le_of_succ_le_succ this
    · rw [List.takeWhile_cons_of_neg (by simpa using ha), List.length_nil]
      have := hlower ⟨a, List.getElem?_cons_zero, by omega⟩
      omega

/-- A scheme over the same table has the buckets of the allocator's classes. -/
structure Copies (sch : Scheme) (sc : SizeClasses) : Prop where
  table : sch.table = sc.table
  shift : sch.minBlockShift = 4
  length : sch.size2class.length = sc.s2cLen
  bucket : ∀ k < sc.s2cLen, sch.size2class[k]? = some (sc.size2class k)

lemma Copies.of_built {sch : Scheme} {p : Params} (h : sch.Built p) (sc : SizeClasses)
    (htable : sch.table = sc.table) (hshift : sch.minBlockShift = 4)
    (hminBlock : p.minBlock = minBlock) : Copies sch sc := by
  obtain ⟨largest, hlast, hlen, hbuckets⟩ := h.last
  have hmax : sc.smallMax = largest := by
    rw [SizeClasses.smallMax, SizeClasses.blockSize, SizeClasses.count,
      List.getD_eq_getElem?_getD, ← List.getLast?_eq_getElem?, ← htable, hlast]
    rfl
  have hs2c : sch.size2class.length = sc.s2cLen := by
    rw [hlen, SizeClasses.s2cLen, hmax, hminBlock]
  refine ⟨htable, hshift, hs2c, fun k hk => ?_⟩
  obtain ⟨c, hget, hleast⟩ := hbuckets k (hs2c ▸ hk)
  have hneed : (if (k + 1) * minBlock < sc.smallMax then (k + 1) * minBlock else sc.smallMax) =
      min ((k + 1) * p.minBlock) largest := by
    rw [hmax, hminBlock]
    split <;> omega
  rw [hget, SizeClasses.size2class, hneed, ← htable, length_takeWhile_of_least hleast]

lemma Copies.walk {sch : Scheme} {sc : SizeClasses} (h : Copies sch sc) {align rounds i : ℕ}
    {answer : Option ℕ} (hwalk : sch.walk align rounds i = .ok answer) :
    sc.classWalk align rounds i = answer := by
  induction rounds generalizing i with
  | zero => simp [Scheme.walk] at hwalk
  | succ rounds ih =>
    rw [Scheme.walk, h.table] at hwalk
    rw [SizeClasses.classWalk]
    by_cases hi : i < sc.table.length
    · have hblock : index sc.table i = .ok (sc.blockSize i) := by
        apply index_eq
        rw [SizeClasses.blockSize, List.getD_eq_getElem?_getD, List.getElem?_eq_getElem hi]
        rfl
      rw [if_pos hi, hblock, ok_bind] at hwalk
      rw [if_pos (show i < sc.count from hi)]
      dsimp only
      by_cases hzero : sc.blockSize i &&& (align - 1) = 0
      · rw [if_pos hzero] at hwalk ⊢
        simpa using hwalk
      · rw [if_neg hzero] at hwalk ⊢
        rw [h.shift, Nat.shiftRight_eq_div_pow, h.length] at hwalk
        change (if sc.s2cLen - 1 ≤ (sc.blockSize i ||| (align - 1)) / 2 ^ 4 then _ else _) = _
        by_cases hend : sc.s2cLen - 1 ≤ (sc.blockSize i ||| (align - 1)) / 2 ^ 4
        · rw [if_pos hend] at hwalk ⊢
          simpa using hwalk
        · rw [if_neg hend] at hwalk ⊢
          rw [index_eq (h.bucket _ (by omega)), ok_bind] at hwalk
          exact ih hwalk
    · rw [if_neg hi] at hwalk
      rw [if_neg (show ¬ i < sc.count from hi)]
      simpa using hwalk

lemma Copies.answer {sch : Scheme} {sc : SizeClasses} (h : Copies sch sc) {size align : ℕ}
    (hlarge : ¬ align ≤ minBlock) (hsize : size < 2 ^ 64) (halign : align < 2 ^ 64)
    {answer : Option ℕ} (hanswer : sch.classFor size align = .ok answer) :
    (let seed := (max size align - 1) / minBlock
      if sc.s2cLen - 1 ≤ seed then none
      else sc.classWalk align sc.count (sc.size2class seed)) = answer := by
  have hseed : (((if align < size then size else align) + (2 ^ 64 - 1)) % 2 ^ 64) >>> 4 =
      (max size align - 1) / minBlock := by
    have hgranule : minBlock = 2 ^ 4 := rfl
    rw [hgranule] at hlarge
    rw [Nat.shiftRight_eq_div_pow, hgranule]
    split <;> omega
  unfold Scheme.classFor at hanswer
  dsimp only at hanswer ⊢
  rw [h.shift, hseed, h.length] at hanswer
  by_cases hend : sc.s2cLen - 1 ≤ (max size align - 1) / minBlock
  · rw [if_pos hend] at hanswer ⊢
    simpa using hanswer
  · rw [if_neg hend] at hanswer ⊢
    rw [index_eq (h.bucket _ (by omega)), ok_bind,
      if_neg (show ¬ align ≤ 1 <<< 4 from hlarge), h.table] at hanswer
    exact h.walk hanswer

/-- The allocator's copy answers as its scheme does. -/
lemma Copies.classFor {a : Allocator} {sc : SizeClasses} {p : Params} (h : Copies a.sc sc)
    (hbuilt : a.sc.Built p) (htags : a.size2tag = a.sc.size2class.map (· + 1)) {size align : ℕ}
    (hsize : size < 2 ^ 64) (halign : align < 2 ^ 64) :
    a.classFor size align = .ok (sc.classFor size align) := by
  unfold Allocator.classFor SizeClasses.classFor
  by_cases hsmall : align ≤ minBlock
  · rw [if_pos hsmall, if_pos hsmall]
    unfold Allocator.classForSmallAlign SizeClasses.classForSmallAlign
    have hseed : (if size = 0 then 0 else (size - 1) >>> 4) =
        if size = 0 then 0 else (size - 1) / minBlock := by
      rw [Nat.shiftRight_eq_div_pow]
      rfl
    dsimp only
    rw [hseed, h.length]
    generalize (if size = 0 then 0 else (size - 1) / minBlock) = seed
    by_cases hend : sc.s2cLen - 1 ≤ seed
    · rw [if_pos hend, if_pos hend]
    · rw [if_neg hend, if_neg hend]
      have htag : index a.size2tag seed = .ok (sc.size2class seed + 1) := by
        apply index_eq
        rw [htags, List.getElem?_map, h.bucket seed (by omega)]
        rfl
      rw [htag, ok_bind, Nat.add_sub_cancel]
  · rw [if_neg hsmall, if_neg hsmall]
    obtain ⟨answer, hanswer, -⟩ := hbuilt.classFor size align hsize halign
    rw [hanswer, ← Copies.answer h hsmall hsize halign hanswer]

/-- Under a small alignment the fold reads the bucket that the scheme reads. -/
lemma Copies.small {sch : Scheme} {sc : SizeClasses} (h : Copies sch sc) {size align : ℕ}
    (hpos : 0 < align) (hsmall : align ≤ minBlock) (hsize : size < 2 ^ 64) :
    sch.classFor size align = .ok (sc.classFor size align) := by
  have hseed : (((if align < size then size else align) + (2 ^ 64 - 1)) % 2 ^ 64) >>> 4 =
      if size = 0 then 0 else (size - 1) / minBlock := by
    have hgranule : minBlock = 2 ^ 4 := rfl
    rw [Nat.shiftRight_eq_div_pow, hgranule]
    rw [hgranule] at hsmall
    split <;> split <;> omega
  unfold Scheme.classFor SizeClasses.classFor SizeClasses.classForSmallAlign
  dsimp only
  rw [h.shift, hseed, h.length, if_pos hsmall]
  generalize (if size = 0 then 0 else (size - 1) / minBlock) = seed
  by_cases hend : sc.s2cLen - 1 ≤ seed
  · rw [if_pos hend, if_pos hend]
  · rw [if_neg hend, if_neg hend, index_eq (h.bucket _ (by omega)), ok_bind,
      if_pos (show align ≤ 1 <<< 4 from hsmall)]

/-- For every scheme that builds the shift is below the width of a word, and for every two words the
lookup ends, and for a power of two it answers the least class with room at a multiple of the
alignment; `try_class_for` refuses just the other alignments. The copy of the allocator answers so
for its own table. -/
theorem classFor_exact (N L : ℕ) (p : Params) (sc : Scheme) (hN : N < 2 ^ 64)
    (hsc : build N L p = .ok sc) (size align : ℕ) (hsize : size < 2 ^ 64)
    (halign : align < 2 ^ 64) (m : MediumClasses) :
    (p.minBlock = 2 ^ sc.minBlockShift ∧ sc.minBlockShift < 64) ∧
    (∃ answer, sc.classFor size align = .ok answer ∧
      (align.isPowerOfTwo → Answers (Candidates sc.table size align) answer) ∧
      sc.tryClassFor size align = .ok (if align.isPowerOfTwo then .ok answer else .error align)) ∧
    ∃ a, allocator m = .ok a ∧ a.sc.table = sizeClassTable m ∧
      a.classFor size align = .ok ((SizeClasses.build m).classFor size align) ∧
      (align.isPowerOfTwo → Answers (Candidates (sizeClassTable m) size align)
        ((SizeClasses.build m).classFor size align)) := by
  have hbuilt := build_built hN hsc
  refine ⟨⟨hbuilt.granule, hbuilt.shift_lt⟩, ?_, ?_⟩
  · obtain ⟨answer, hanswer, hanswers⟩ := hbuilt.classFor size align hsize halign
    refine ⟨answer, hanswer, hanswers, ?_⟩
    unfold Scheme.tryClassFor
    by_cases ha : align.isPowerOfTwo
    · rw [if_neg (not_not.mpr ha), if_pos ha, hanswer, ok_bind]
    · rw [if_pos ha, if_neg ha]
  · obtain ⟨a, ha, hbuilt, htable, hshift, htags⟩ := allocator_built m
    have hcopies : Copies a.sc (SizeClasses.build m) :=
      Copies.of_built hbuilt _ htable hshift rfl
    have hanswer := hcopies.classFor hbuilt htags hsize halign
    refine ⟨a, ha, htable, hanswer, fun hpow => ?_⟩
    obtain ⟨answer, hscheme, hanswers⟩ := hbuilt.classFor size align hsize halign
    have hsame : a.sc.classFor size align = .ok ((SizeClasses.build m).classFor size align) := by
      by_cases hsmall : align ≤ minBlock
      · exact hcopies.small (pos_of_isPowerOfTwo hpow) hsmall hsize
      · rw [← hanswer, Allocator.classFor, if_neg hsmall]
    rw [hsame] at hscheme
    rw [← htable, (Except.ok.injEq _ _).mp hscheme]
    exact hanswers hpow

theorem classFor_exact_fourClasses :
    ∃ sc, build 4 17 fourClasses = .ok sc ∧ sc.classFor 40 64 = .ok (some 3) ∧
      Answers (Candidates sc.table 40 64) (some 3) := by
  let sc : Scheme := ⟨[16, 32, 48, 256], [0, 1, 2] ++ List.replicate 14 3, 4⟩
  have hbuild : build 4 17 fourClasses = .ok sc := by decide +kernel
  have hlookup : sc.classFor 40 64 = .ok (some 3) := by decide +kernel
  obtain ⟨-, ⟨answer, hanswer, hanswers, -⟩, -⟩ := classFor_exact 4 17 fourClasses sc (by norm_num)
    hbuild 40 64 (by norm_num) (by norm_num) .none
  rw [hlookup, Except.ok.injEq] at hanswer
  subst hanswer
  exact ⟨sc, hbuild, hlookup, hanswers ⟨6, rfl⟩⟩

end SeferAlloc.ClassTable
