import Mathlib.Data.List.DropRight
import SeferAlloc.ByteText

/-!
# The NUMA cpumap and its reverse index

A cpumap is a comma-separated list of hex words, the most significant one
first. One interpreter reports its set bits to a callback. The reverse index
keeps the first node that claimed a CPU.
-/
namespace SeferAlloc.CpuMap
open ByteText

def maxIndexedCpus : ℕ := 8192

/-- The entry of a CPU that no node claims. -/
def cpuUnmapped : UInt8 := 255

/-- The bytes that `trim_end` drops. -/
def isTrailing (b : UInt8) : Bool := b == 10 || b == 13 || b == 32

/-- The loop of `trim_end`, from the length that is left. -/
def trimLen (data : Bytes) : ℕ → ℕ
  | 0 => 0
  | n + 1 => if (data[n]?).any isTrailing then trimLen data n else n + 1

def trimEnd (data : Bytes) : Bytes := data.take (trimLen data data.length)

def hexDigit (b : UInt8) : Option ℕ :=
  if 48 ≤ b && b ≤ 57 then some (b.toNat - 48)
  else if 97 ≤ b && b ≤ 102 then some (b.toNat - 97 + 10)
  else if 65 ≤ b && b ≤ 70 then some (b.toNat - 65 + 10)
  else none

/-- `val = val.wrapping_shl(4) | digit`: one more hex digit. -/
def hexStep (val : BitVec 32) (b : UInt8) : Option (BitVec 32) :=
  (hexDigit b).map fun d => val <<< 4 ||| BitVec.ofNat 32 d

def parseHexU32 (s : Bytes) : Option (BitVec 32) :=
  if s.isEmpty then none
  else if 8 < s.length then none
  else s.foldlM hexStep 0

/-- The words of a text from the right, `rsplit(|&b| b == b',')`. -/
def rsplit (data : Bytes) : List Bytes := (data.splitOn 44).reverse

section
variable {σ : Type*} (onCpu : ℕ → σ → σ)

/-- The loop over the bits of word `w`; the CPU number is narrowed to `u32`. -/
def eachBit (w : ℕ) (val : BitVec 32) (s : σ) : σ :=
  (List.range 32).foldl
    (fun s bit => if (val >>> bit) &&& 1 = 1 then onCpu ((w * 32 + bit) % 2 ^ 32) s else s) s

/-- The loop over the words; the callback has run for the words before a malformed one. -/
def eachWord : ℕ → List Bytes → σ → Bool × σ
  | _, [], s => (true, s)
  | w, word :: rest, s =>
      match parseHexU32 word with
      | none => (false, s)
      | some val => eachWord (w + 1) rest (eachBit onCpu w val s)

def parseEachSetCpu (data : Bytes) (s : σ) : Bool × σ :=
  eachWord onCpu 0 (rsplit (trimEnd data)) s

end

def parseContainsCpu (data : Bytes) (cpuIdx : ℕ) : Bool :=
  let r := parseEachSetCpu (fun b found => if b = cpuIdx then true else found) data false
  r.1 && r.2

/-- The node of every CPU number, as one byte each. -/
structure ReverseIndex where
  map : ℕ → UInt8

namespace ReverseIndex

def new : ReverseIndex := ⟨fun _ => cpuUnmapped⟩

/-- The second stage's callback: the first mapping wins. -/
def claim (node cpu : ℕ) (r : ReverseIndex) : ReverseIndex :=
  if cpu < maxIndexedCpus then
    if r.map cpu = cpuUnmapped then ⟨Function.update r.map cpu (UInt8.ofNat node)⟩ else r
  else r

def indexNode (r : ReverseIndex) (node : ℕ) (data : Bytes) : Bool × ReverseIndex :=
  if 63 < node then (false, r)
  else if !(parseEachSetCpu (fun _ u => u) data ()).1 then (false, r)
  else (true, (parseEachSetCpu (claim node) data r).2)

def lookup (r : ReverseIndex) (cpu : ℕ) : Option ℕ :=
  if cpu < maxIndexedCpus then
    if r.map cpu = cpuUnmapped then none else some (r.map cpu).toNat
  else none

/-- A sequence of `index_node` calls, each a node and a text. -/
def indexAll (calls : List (ℕ × Bytes)) (r : ReverseIndex) : ReverseIndex :=
  calls.foldl (fun r call => (r.indexNode call.1 call.2).2) r

end ReverseIndex

/-! ## The specification -/

def isHexDigit (b : UInt8) : Bool := (hexDigit b).isSome

/-- One to eight hex digits. -/
def IsWord (word : Bytes) : Prop :=
  word ≠ [] ∧ word.length ≤ 8 ∧ ∀ b ∈ word, isHexDigit b = true

def hexValue (word : Bytes) : ℕ := valueOf 16 (fun b => (hexDigit b).getD 0) word

/-- The text is, without its trailing bytes, the comma-separated list of these words. -/
def CpuList (data : Bytes) (words : List Bytes) : Prop :=
  data.rdropWhile isTrailing = [44].intercalate words ∧ words ≠ [] ∧ ∀ word ∈ words, IsWord word

/-- Bit `b` is set in the word that stands `w` commas from the right. -/
def HasCpu (words : List Bytes) (cpu : ℕ) : Prop :=
  ∃ w b word, words.reverse[w]? = some word ∧ b < 32 ∧ (hexValue word).testBit b = true ∧
    cpu = 32 * w + b

/-! ## Trimming and hex words -/

lemma trimLen_eq (data : Bytes) (n : ℕ) (hn : n ≤ data.length) :
    data.take (trimLen data n) = (data.take n).rdropWhile isTrailing := by
  induction n with
  | zero => simp [trimLen]
  | succ n ih =>
      have hlt : n < data.length := hn
      rw [trimLen, List.getElem?_eq_getElem hlt, Option.any_some, List.take_add_one,
        List.getElem?_eq_getElem hlt, Option.toList_some]
      by_cases ht : isTrailing data[n] = true
      · rw [if_pos ht, List.rdropWhile_concat_pos _ _ _ ht]
        exact ih hlt.le
      · rw [if_neg ht, List.rdropWhile_concat_neg _ _ _ ht, List.take_add_one,
          List.getElem?_eq_getElem hlt, Option.toList_some]

lemma trimEnd_eq (data : Bytes) : trimEnd data = data.rdropWhile isTrailing := by
  rw [trimEnd, trimLen_eq data data.length le_rfl, List.take_length]

lemma hexDigit_lt {b : UInt8} {d : ℕ} (h : hexDigit b = some d) : d < 16 := by
  simp only [hexDigit, Bool.and_eq_true, decide_eq_true_eq, UInt8.le_iff_toNat_le] at h
  have h₀ : (48 : UInt8).toNat = 48 ∧ (57 : UInt8).toNat = 57 := by decide
  have h₁ : (97 : UInt8).toNat = 97 ∧ (102 : UInt8).toNat = 102 := by decide
  have h₂ : (65 : UInt8).toNat = 65 ∧ (70 : UInt8).toNat = 70 := by decide
  rw [h₀.1, h₀.2, h₁.1, h₁.2, h₂.1, h₂.2] at h
  split_ifs at h
  all_goals
    obtain rfl := Option.some.inj h
    omega

lemma not_isHexDigit_comma : isHexDigit 44 = false := by decide

/-- Shifting a value below `2^28` by one digit loses nothing. -/
lemma shift_or {v d : ℕ} (hv : v < 2 ^ 28) (hd : d < 16) :
    (BitVec.ofNat 32 v <<< 4 ||| BitVec.ofNat 32 d) = BitVec.ofNat 32 (v * 16 + d) := by
  apply BitVec.eq_of_toNat_eq
  have hor : v <<< 4 + d = v <<< 4 ||| d := Nat.shiftLeft_add_eq_or_of_lt (by simpa using hd) v
  rw [BitVec.toNat_or, BitVec.toNat_shiftLeft, BitVec.toNat_ofNat, BitVec.toNat_ofNat,
    BitVec.toNat_ofNat, Nat.mod_eq_of_lt (by omega : v < 2 ^ 32),
    Nat.mod_eq_of_lt (by omega : d < 2 ^ 32), Nat.mod_eq_of_lt (by omega : v * 16 + d < 2 ^ 32)]
  rw [Nat.shiftLeft_eq] at hor ⊢
  rw [Nat.mod_eq_of_lt (by omega : v * 2 ^ 4 < 2 ^ 32), ← hor]

lemma hexValue_lt {s : Bytes} (hs : ∀ b ∈ s, isHexDigit b = true) :
    hexValue s < 16 ^ s.length := by
  apply valueOf_lt (by decide)
  intro b hb
  obtain ⟨d, hd⟩ := Option.isSome_iff_exists.mp (hs b hb)
  rw [hd]
  exact hexDigit_lt hd

/-- Reading digits from the left builds the value of the word. -/
lemma foldlM_hex {s : Bytes} (hlen : s.length ≤ 8) : s.foldlM hexStep 0 =
    if s.all isHexDigit = true then some (BitVec.ofNat 32 (hexValue s)) else none := by
  induction s using List.reverseRecOn with
  | nil =>
      have hzero : hexValue [] = 0 := valueOf_nil 16 _
      rw [if_pos (by simp), hzero]
      simp
  | append_singleton s b ih =>
      have hs : s.length < 8 := by simpa using hlen
      have hall : (s ++ [b]).all isHexDigit = true ↔
          s.all isHexDigit = true ∧ isHexDigit b = true := by
        simp
      rw [List.foldlM_append, ih hs.le]
      by_cases hdig : s.all isHexDigit = true
      · rw [if_pos hdig]
        simp only [List.foldlM_cons, List.foldlM_nil, Option.bind_eq_bind, Option.bind_some, hexStep]
        cases hb : hexDigit b with
        | none =>
            rw [if_neg]
            · rfl
            · rw [hall]
              simp [isHexDigit, hb]
        | some d =>
            rw [if_pos (hall.mpr ⟨hdig, by simp [isHexDigit, hb]⟩)]
            have hlt : hexValue s < 2 ^ 28 := by
              calc hexValue s < 16 ^ s.length := hexValue_lt (List.all_eq_true.mp hdig)
                _ ≤ 16 ^ 7 := Nat.pow_le_pow_right (by decide) (by omega)
                _ = 2 ^ 28 := by decide
            have hval : hexValue (s ++ [b]) = hexValue s * 16 + d := by
              rw [hexValue, valueOf_append_singleton, hb]
              rfl
            rw [hval, ← shift_or hlt (hexDigit_lt hb)]
            rfl
      · rw [if_neg hdig, if_neg fun h => hdig (hall.mp h).1]
        rfl

/-- `parse_hex_u32` accepts one to eight hex digits and answers their value. -/
theorem parseHexU32_eq_some_iff {s : Bytes} {val : BitVec 32} :
    parseHexU32 s = some val ↔ IsWord s ∧ val = BitVec.ofNat 32 (hexValue s) := by
  rw [parseHexU32, IsWord]
  by_cases hnil : s = []
  · simp [hnil]
  · rw [if_neg (by simpa using hnil)]
    by_cases hlen : 8 < s.length
    · rw [if_pos hlen]
      simp [hlen]
    · rw [if_neg hlen, foldlM_hex (not_lt.mp hlen)]
      by_cases hdig : ∀ b ∈ s, isHexDigit b = true
      · rw [if_pos (List.all_eq_true.mpr hdig), Option.some.injEq]
        constructor
        · intro h
          exact ⟨⟨hnil, not_lt.mp hlen, hdig⟩, h.symm⟩
        · intro h
          exact h.2.symm
      · rw [if_neg (by rwa [List.all_eq_true])]
        simp [hdig]

lemma and_one_eq_one_iff {n bit : ℕ} (hn : n < 2 ^ 32) :
    (BitVec.ofNat 32 n >>> bit) &&& 1 = 1 ↔ n.testBit bit = true := by
  rw [← BitVec.toNat_inj, BitVec.toNat_and, BitVec.toNat_ushiftRight, BitVec.toNat_ofNat,
    Nat.mod_eq_of_lt hn, Nat.testBit_eq_decide_div_mod_eq, decide_eq_true_eq,
    Nat.shiftRight_eq_div_pow]
  change (n / 2 ^ bit) &&& 1 = 1 ↔ _
  rw [Nat.and_one_is_mod]

lemma hexValue_lt_of_isWord {word : Bytes} (h : IsWord word) : hexValue word < 2 ^ 32 := by
  calc hexValue word < 16 ^ word.length := hexValue_lt h.2.2
    _ ≤ 16 ^ 8 := Nat.pow_le_pow_right (by decide) h.2.1
    _ = 2 ^ 32 := by decide

/-! ## The text as a list of words -/

/-- The words of a well-formed text are what the separator splits it into. -/
lemma CpuList.rsplit_eq {data : Bytes} {words : List Bytes} (h : CpuList data words) :
    rsplit (trimEnd data) = words.reverse := by
  obtain ⟨htext, hne, hword⟩ := h
  rw [rsplit, trimEnd_eq, htext, List.splitOn_intercalate _ _ hne]
  intro word hw hcomma
  have := (hword word hw).2.2 44 hcomma
  simp [not_isHexDigit_comma] at this

lemma cpuList_iff {data : Bytes} {words : List Bytes} :
    CpuList data words ↔ rsplit (trimEnd data) = words.reverse ∧ ∀ word ∈ words, IsWord word := by
  constructor
  · intro h
    exact ⟨h.rsplit_eq, h.2.2⟩
  · rintro ⟨hsplit, hword⟩
    rw [rsplit, List.reverse_inj, trimEnd_eq] at hsplit
    refine ⟨?_, ?_, hword⟩
    · rw [← hsplit, List.intercalate_splitOn]
    · rw [← hsplit]
      exact List.splitOn_ne_nil _ _

/-! ## What is reported -/

/-- The CPU numbers reported for word `w`, in order. -/
def cpusOfWord (w n : ℕ) : List ℕ :=
  ((List.range 32).filter (n.testBit ·)).map fun bit => (w * 32 + bit) % 2 ^ 32

/-- The CPU numbers reported for the words from `w` on. -/
def cpusOfWords : ℕ → List Bytes → List ℕ
  | _, [] => []
  | w, word :: rest => cpusOfWord w (hexValue word) ++ cpusOfWords (w + 1) rest

lemma eachBit_eq {σ : Type*} (onCpu : ℕ → σ → σ) (w n : ℕ) (hn : n < 2 ^ 32) (s : σ) :
    eachBit onCpu w (BitVec.ofNat 32 n) s = (cpusOfWord w n).foldl (fun s cpu => onCpu cpu s) s := by
  simp only [eachBit, cpusOfWord, and_one_eq_one_iff hn]
  rw [List.foldl_map, List.foldl_filter]

/-- On well-formed words the callback runs for the reported numbers, in order. -/
lemma eachWord_eq {σ : Type*} (onCpu : ℕ → σ → σ) {words : List Bytes}
    (h : ∀ word ∈ words, IsWord word) (w : ℕ) (s : σ) : eachWord onCpu w words s =
      (true, (cpusOfWords w words).foldl (fun s cpu => onCpu cpu s) s) := by
  induction words generalizing w s with
  | nil => rfl
  | cons word rest ih =>
      have hword := h word (by simp)
      rw [eachWord, parseHexU32_eq_some_iff.mpr ⟨hword, rfl⟩]
      dsimp only
      rw [ih (fun v hv => h v (by simp [hv])), eachBit_eq _ _ _ (hexValue_lt_of_isWord hword),
        cpusOfWords, List.foldl_append]

/-- A malformed word anywhere makes the parse fail. -/
lemma eachWord_fails {σ : Type*} (onCpu : ℕ → σ → σ) {words : List Bytes}
    (h : ¬ ∀ word ∈ words, IsWord word) (w : ℕ) (s : σ) :
    (eachWord onCpu w words s).1 = false := by
  induction words generalizing w s with
  | nil => simp at h
  | cons word rest ih =>
      rw [eachWord]
      cases hp : parseHexU32 word with
      | none => rfl
      | some val =>
          apply ih
          intro hrest
          apply h
          intro v hv
          rcases List.mem_cons.mp hv with rfl | hv
          · exact (parseHexU32_eq_some_iff.mp hp).1
          · exact hrest v hv

/-- The CPU numbers that a parse reports. -/
def reported (data : Bytes) : List ℕ := cpusOfWords 0 (rsplit (trimEnd data))

/-- The text is some list of words. -/
def WellFormed (data : Bytes) : Prop := ∃ words, CpuList data words

lemma wellFormed_iff {data : Bytes} :
    WellFormed data ↔ ∀ word ∈ rsplit (trimEnd data), IsWord word := by
  constructor
  · rintro ⟨words, h⟩ word hw
    rw [h.rsplit_eq, List.mem_reverse] at hw
    exact h.2.2 word hw
  · intro h
    refine ⟨(rsplit (trimEnd data)).reverse, cpuList_iff.mpr ⟨?_, fun word hw => ?_⟩⟩
    · rw [List.reverse_reverse]
    · exact h word (List.mem_reverse.mp hw)

/-- A well-formed text succeeds and its callback runs for the reported numbers. -/
theorem parseEachSetCpu_eq {σ : Type*} (onCpu : ℕ → σ → σ) {data : Bytes} (h : WellFormed data)
    (s : σ) : parseEachSetCpu onCpu data s =
      (true, (reported data).foldl (fun s cpu => onCpu cpu s) s) :=
  eachWord_eq onCpu (wellFormed_iff.mp h) 0 s

theorem parseEachSetCpu_fails {σ : Type*} (onCpu : ℕ → σ → σ) {data : Bytes}
    (h : ¬ WellFormed data) (s : σ) : (parseEachSetCpu onCpu data s).1 = false :=
  eachWord_fails onCpu (fun hw => h (wellFormed_iff.mpr hw)) 0 s

lemma parseEachSetCpu_fst {σ : Type*} (onCpu : ℕ → σ → σ) (data : Bytes) (s : σ) :
    (parseEachSetCpu onCpu data s).1 = true ↔ WellFormed data := by
  by_cases h : WellFormed data
  · simp [parseEachSetCpu_eq onCpu h s, h]
  · simp [parseEachSetCpu_fails onCpu h s, h]

lemma mem_cpusOfWord {w n c : ℕ} : c ∈ cpusOfWord w n ↔
    ∃ b, b < 32 ∧ n.testBit b = true ∧ c = (w * 32 + b) % 2 ^ 32 := by
  simp only [cpusOfWord, List.mem_map, List.mem_filter, List.mem_range, and_assoc, eq_comm]

lemma mem_cpusOfWords {words : List Bytes} {w c : ℕ} : c ∈ cpusOfWords w words ↔
    ∃ k b word, words[k]? = some word ∧ b < 32 ∧ (hexValue word).testBit b = true ∧
      c = ((w + k) * 32 + b) % 2 ^ 32 := by
  induction words generalizing w with
  | nil => simp [cpusOfWords]
  | cons word rest ih =>
      rw [cpusOfWords, List.mem_append, mem_cpusOfWord, ih]
      constructor
      · rintro (⟨b, hb, hbit, rfl⟩ | ⟨k, b, v, hk, hb, hbit, rfl⟩)
        · exact ⟨0, b, word, by simp, hb, hbit, by simp⟩
        · refine ⟨k + 1, b, v, by simpa using hk, hb, hbit, ?_⟩
          rw [show w + (k + 1) = w + 1 + k by omega]
      · rintro ⟨k, b, v, hk, hb, hbit, rfl⟩
        cases k with
        | zero =>
            obtain rfl : word = v := by simpa using hk
            exact Or.inl ⟨b, hb, hbit, by simp⟩
        | succ k =>
            refine Or.inr ⟨k, b, v, by simpa using hk, hb, hbit, ?_⟩
            rw [show w + (k + 1) = w + 1 + k by omega]

lemma pairwise_cpusOfWord {w : ℕ} (hw : w < 2 ^ 27) (n : ℕ) :
    (cpusOfWord w n).Pairwise (· < ·) := by
  rw [cpusOfWord, List.pairwise_map]
  have hrange : (List.range 32).Pairwise (· < ·) := List.pairwise_lt_range
  apply (hrange.filter _).imp_of_mem
  intro a b ha hb hab
  have ha' : a < 32 := List.mem_range.mp (List.mem_of_mem_filter ha)
  have hb' : b < 32 := List.mem_range.mp (List.mem_of_mem_filter hb)
  rw [Nat.mod_eq_of_lt (by omega), Nat.mod_eq_of_lt (by omega)]
  omega

/-- Below `2^27` words nothing is narrowed away, and the numbers come in ascending order. -/
lemma pairwise_cpusOfWords {words : List Bytes} {w : ℕ} (hw : w + words.length ≤ 2 ^ 27) :
    (cpusOfWords w words).Pairwise (· < ·) := by
  induction words generalizing w with
  | nil => exact List.Pairwise.nil
  | cons word rest ih =>
      rw [List.length_cons] at hw
      apply List.pairwise_append.mpr
      refine ⟨pairwise_cpusOfWord (by omega) _, ih (by omega), fun a ha c hc => ?_⟩
      obtain ⟨b, hb, -, rfl⟩ := mem_cpusOfWord.mp ha
      obtain ⟨k, b', v, hk, hb', -, rfl⟩ := mem_cpusOfWords.mp hc
      have hlen : k < rest.length := (List.getElem?_eq_some_iff.mp hk).1
      rw [Nat.mod_eq_of_lt (by omega), Nat.mod_eq_of_lt (by omega)]
      omega

/-- What is reported are the CPUs of the words, narrowed to 32 bits. -/
theorem mem_reported {data : Bytes} {words : List Bytes} (h : CpuList data words) {c : ℕ} :
    c ∈ reported data ↔ ∃ cpu, HasCpu words cpu ∧ c = cpu % 2 ^ 32 := by
  rw [reported, h.rsplit_eq, mem_cpusOfWords]
  constructor
  · rintro ⟨k, b, word, hk, hb, hbit, rfl⟩
    exact ⟨32 * k + b, ⟨k, b, word, hk, hb, hbit, rfl⟩, by rw [Nat.zero_add, Nat.mul_comm]⟩
  · rintro ⟨cpu, ⟨k, b, word, hk, hb, hbit, rfl⟩, rfl⟩
    exact ⟨k, b, word, hk, hb, hbit, by rw [Nat.zero_add, Nat.mul_comm]⟩

lemma HasCpu.lt {words : List Bytes} {cpu : ℕ} (h : HasCpu words cpu)
    (hlen : words.length < 2 ^ 27) : cpu < 2 ^ 32 := by
  obtain ⟨k, b, word, hk, hb, -, rfl⟩ := h
  have hlt : k < words.reverse.length := (List.getElem?_eq_some_iff.mp hk).1
  rw [List.length_reverse] at hlt
  omega

lemma mem_reported_of_short {data : Bytes} {words : List Bytes} (h : CpuList data words)
    (hlen : words.length < 2 ^ 27) {c : ℕ} : c ∈ reported data ↔ HasCpu words c := by
  rw [mem_reported h]
  constructor
  · rintro ⟨cpu, hcpu, rfl⟩
    rwa [Nat.mod_eq_of_lt (hcpu.lt hlen)]
  · intro hc
    exact ⟨c, hc, (Nat.mod_eq_of_lt (hc.lt hlen)).symm⟩

lemma nodup_reported {data : Bytes} {words : List Bytes} (h : CpuList data words)
    (hlen : words.length < 2 ^ 27) : (reported data).Nodup := by
  rw [reported, h.rsplit_eq]
  apply (pairwise_cpusOfWords _).imp fun hlt => Nat.ne_of_lt hlt
  rw [List.length_reverse]
  omega

/-- The numbers a parse passes to its callback, one after the other. -/
def callbacks (data : Bytes) : Bool × List ℕ :=
  parseEachSetCpu (fun cpu seen => seen ++ [cpu]) data []

lemma callbacks_eq {data : Bytes} (h : WellFormed data) : callbacks data = (true, reported data) := by
  have hfold : ∀ (l acc : List ℕ), l.foldl (fun s c => s ++ [c]) acc = acc ++ l := by
    intro l
    induction l with
    | nil => simp
    | cons c l ih => simp [ih]
  rw [callbacks, parseEachSetCpu_eq _ h, hfold, List.nil_append]

/-! ## The reverse index -/

namespace ReverseIndex

/-- A call that maps CPU `c`: a valid node and a well-formed text that reports `c`. -/
def Claims (call : ℕ × Bytes) (c : ℕ) : Prop :=
  call.1 ≤ 63 ∧ WellFormed call.2 ∧ c ∈ reported call.2

lemma foldl_claim_map {node : ℕ} (hn : node ≤ 63) (l : List ℕ) (r : ReverseIndex) (c : ℕ) :
    (l.foldl (fun r cpu => claim node cpu r) r).map c =
      if c ∈ l ∧ c < maxIndexedCpus ∧ r.map c = cpuUnmapped then UInt8.ofNat node
      else r.map c := by
  have hne : UInt8.ofNat node ≠ cpuUnmapped := by
    intro h
    have := congrArg UInt8.toNat h
    rw [UInt8.toNat_ofNat_of_lt' (by simp only [UInt8.size]; omega)] at this
    simp only [cpuUnmapped] at this
    change node = 255 at this
    omega
  induction l generalizing r with
  | nil => simp
  | cons cpu l ih =>
      rw [List.foldl_cons, ih]
      by_cases hmax : cpu < maxIndexedCpus
      · by_cases hfree : r.map cpu = cpuUnmapped
        · rw [claim, if_pos hmax, if_pos hfree]
          by_cases hc : c = cpu
          · subst hc
            simp [hne, hmax, hfree]
          · simp [Function.update_of_ne hc, hc]
        · rw [claim, if_pos hmax, if_neg hfree]
          by_cases hc : c = cpu
          · subst hc
            simp [hfree]
          · simp [hc]
      · rw [claim, if_neg hmax]
        by_cases hc : c = cpu
        · subst hc
          simp [hmax]
        · simp [hc]

lemma indexNode_rejected (r : ReverseIndex) {node : ℕ} {data : Bytes}
    (h : 63 < node ∨ ¬ WellFormed data) : r.indexNode node data = (false, r) := by
  rw [indexNode]
  by_cases hn : 63 < node
  · rw [if_pos hn]
  · rw [if_neg hn, parseEachSetCpu_fails _ (h.resolve_left hn)]
    rfl

lemma indexNode_accepted (r : ReverseIndex) {node : ℕ} {data : Bytes} (hn : node ≤ 63)
    (h : WellFormed data) : r.indexNode node data =
      (true, (reported data).foldl (fun r cpu => claim node cpu r) r) := by
  rw [indexNode, if_neg (not_lt.mpr hn), parseEachSetCpu_eq _ h, parseEachSetCpu_eq _ h]
  rfl

/-- A call that claims a CPU maps it, unless an earlier one did. -/
lemma lookup_indexNode_of_claims (r : ReverseIndex) {call : ℕ × Bytes} {c : ℕ}
    (hc : c < maxIndexedCpus) (h : Claims call c) :
    (r.indexNode call.1 call.2).2.lookup c = (r.lookup c).or (some call.1) := by
  obtain ⟨hn, hwf, hmem⟩ := h
  have hmap := foldl_claim_map hn (reported call.2) r c
  rw [indexNode_accepted r hn hwf, lookup, lookup, if_pos hc, if_pos hc, hmap]
  by_cases hfree : r.map c = cpuUnmapped
  · have hval : (UInt8.ofNat call.1).toNat = call.1 :=
      UInt8.toNat_ofNat_of_lt' (by simp only [UInt8.size]; omega)
    have hne : UInt8.ofNat call.1 ≠ cpuUnmapped := by
      intro he
      rw [he] at hval
      change 255 = call.1 at hval
      omega
    simp [hmem, hc, hfree, hne, hval]
  · simp [hfree]

/-- Any other call leaves the CPU's entry alone. -/
lemma lookup_indexNode_of_not (r : ReverseIndex) {call : ℕ × Bytes} {c : ℕ}
    (h : ¬ Claims call c) : (r.indexNode call.1 call.2).2.lookup c = r.lookup c := by
  by_cases hacc : call.1 ≤ 63 ∧ WellFormed call.2
  · have hmem : c ∉ reported call.2 := fun hm => h ⟨hacc.1, hacc.2, hm⟩
    have hmap := foldl_claim_map hacc.1 (reported call.2) r c
    rw [if_neg fun h => hmem h.1] at hmap
    rw [indexNode_accepted r hacc.1 hacc.2, lookup, lookup, hmap]
  · rw [indexNode_rejected]
    by_contra hno
    simp only [not_or, not_lt, not_not] at hno
    exact hacc hno

/-- The first call of the sequence that claims the CPU. -/
def FirstClaim (calls : List (ℕ × Bytes)) (c node : ℕ) : Prop :=
  ∃ before data after, calls = before ++ (node, data) :: after ∧ Claims (node, data) c ∧
    ∀ call ∈ before, ¬ Claims call c

lemma firstClaim_cons_of_claims {call : ℕ × Bytes} {calls : List (ℕ × Bytes)} {c node : ℕ}
    (h : Claims call c) : FirstClaim (call :: calls) c node ↔ node = call.1 := by
  constructor
  · rintro ⟨before, data, after, heq, -, hno⟩
    cases before with
    | nil =>
        obtain ⟨rfl, -⟩ := List.cons.inj heq
        rfl
    | cons b before =>
        obtain ⟨rfl, -⟩ := List.cons.inj heq
        exact absurd h (hno call (by simp))
  · rintro rfl
    exact ⟨[], call.2, calls, rfl, h, by simp⟩

lemma firstClaim_cons_of_not {call : ℕ × Bytes} {calls : List (ℕ × Bytes)} {c node : ℕ}
    (h : ¬ Claims call c) : FirstClaim (call :: calls) c node ↔ FirstClaim calls c node := by
  constructor
  · rintro ⟨before, data, after, heq, hc, hno⟩
    cases before with
    | nil =>
        obtain ⟨rfl, -⟩ := List.cons.inj heq
        exact absurd hc h
    | cons b before =>
        obtain ⟨rfl, rfl⟩ := List.cons.inj heq
        exact ⟨before, data, after, rfl, hc, fun x hx => hno x (by simp [hx])⟩
  · rintro ⟨before, data, after, rfl, hc, hno⟩
    refine ⟨call :: before, data, after, rfl, hc, fun x hx => ?_⟩
    rcases List.mem_cons.mp hx with rfl | hx
    · exact h
    · exact hno x hx

/-- Over a sequence of calls an entry is what it was, or the node of the first claim. -/
theorem lookup_indexAll {c : ℕ} (hc : c < maxIndexedCpus) (calls : List (ℕ × Bytes))
    (r : ReverseIndex) (node : ℕ) : (indexAll calls r).lookup c = some node ↔
      r.lookup c = some node ∨ r.lookup c = none ∧ FirstClaim calls c node := by
  induction calls generalizing r with
  | nil => simp [indexAll, FirstClaim]
  | cons call calls ih =>
      change (indexAll calls (r.indexNode call.1 call.2).2).lookup c = some node ↔ _
      rw [ih]
      by_cases h : Claims call c
      · rw [lookup_indexNode_of_claims r hc h, firstClaim_cons_of_claims h]
        cases r.lookup c with
        | none => simp [eq_comm]
        | some m => simp
      · rw [lookup_indexNode_of_not r h, firstClaim_cons_of_not h]

lemma exists_firstClaim {calls : List (ℕ × Bytes)} {c : ℕ} (h : ∃ call ∈ calls, Claims call c) :
    ∃ node, FirstClaim calls c node := by
  induction calls with
  | nil => simp at h
  | cons call calls ih =>
      by_cases hcall : Claims call c
      · exact ⟨call.1, (firstClaim_cons_of_claims hcall).mpr rfl⟩
      · obtain ⟨x, hx, hclaim⟩ := h
        rcases List.mem_cons.mp hx with rfl | hx
        · exact absurd hclaim hcall
        · obtain ⟨node, hnode⟩ := ih ⟨x, hx, hclaim⟩
          exact ⟨node, (firstClaim_cons_of_not hcall).mpr hnode⟩

end ReverseIndex

/-- Every claim of a short text is about a CPU of its words. -/
lemma claims_iff_of_short {node : ℕ} {data : Bytes} {words : List Bytes} (h : CpuList data words)
    (hlen : words.length < 2 ^ 27) {c : ℕ} :
    ReverseIndex.Claims (node, data) c ↔ node ≤ 63 ∧ HasCpu words c := by
  simp only [ReverseIndex.Claims, mem_reported_of_short h hlen]
  exact ⟨fun hc => ⟨hc.1, hc.2.2⟩, fun hc => ⟨hc.1, ⟨words, h⟩, hc.2⟩⟩

/-- `parse_contains_cpu`: the text is well formed and reports the CPU. -/
lemma parseContainsCpu_iff (data : Bytes) (c : ℕ) :
    parseContainsCpu data c = true ↔ WellFormed data ∧ c ∈ reported data := by
  have hfold : ∀ (l : List ℕ) (found : Bool),
      l.foldl (fun found b => if b = c then true else found) found =
        (found || decide (c ∈ l)) := by
    intro l
    induction l with
    | nil => simp
    | cons b l ih =>
        intro found
        rw [List.foldl_cons, ih]
        by_cases hb : b = c
        · simp [hb]
        · simp [hb, Ne.symm hb]
  rw [parseContainsCpu]
  by_cases h : WellFormed data
  · rw [parseEachSetCpu_eq _ h]
    simp only [hfold, Bool.true_and, Bool.false_or, decide_eq_true_eq, h, true_and]
  · simp [parseEachSetCpu_fails _ h, h]

open ReverseIndex in
/-- The parser reports the set bits of its words, and the reverse index over any sequence of
calls is the first valid call that contains the CPU. -/
theorem reverseIndex_exact :
    (∀ data, (callbacks data).1 = true ↔ ∃ words, CpuList data words) ∧
    (∀ data words, CpuList data words → words.length < 2 ^ 27 →
      (callbacks data).2.Nodup ∧ ∀ c, c ∈ (callbacks data).2 ↔ HasCpu words c) ∧
    (∀ calls c, c < maxIndexedCpus →
      (∀ node, (indexAll calls new).lookup c = some node ↔ FirstClaim calls c node) ∧
      ((indexAll calls new).lookup c = none ↔ ∀ call ∈ calls, ¬ Claims call c)) ∧
    (∀ calls c, maxIndexedCpus ≤ c → (indexAll calls new).lookup c = none) ∧
    (∀ node data c, Claims (node, data) c ↔ node ≤ 63 ∧ ∃ words, CpuList data words ∧
      ∃ cpu, HasCpu words cpu ∧ c = cpu % 2 ^ 32) ∧
    (∀ node data words c, CpuList data words → words.length < 2 ^ 27 →
      (Claims (node, data) c ↔ node ≤ 63 ∧ HasCpu words c)) ∧
    (∀ (r : ReverseIndex) node data, (63 < node ∨ ¬ ∃ words, CpuList data words) →
      r.indexNode node data = (false, r)) ∧
    ∀ node data c, node ≤ 63 → c < maxIndexedCpus →
      (parseContainsCpu data c = true ↔ (new.indexNode node data).2.lookup c = some node) := by
  have hnew : ∀ c, new.lookup c = none := fun c => by simp [lookup, new]
  have hall : ∀ calls c node, c < maxIndexedCpus →
      ((indexAll calls new).lookup c = some node ↔ FirstClaim calls c node) := by
    intro calls c node hc
    rw [lookup_indexAll hc]
    simp [hnew]
  refine ⟨fun data => parseEachSetCpu_fst _ data _, fun data words h hlen => ?_,
    fun calls c hc => ⟨fun node => hall calls c node hc, ?_⟩, fun calls c hc => ?_,
    fun node data c => ?_, fun node data words c h hlen => claims_iff_of_short h hlen,
    fun r node data h => indexNode_rejected r h, fun node data c hn hc => ?_⟩
  · rw [callbacks_eq ⟨words, h⟩]
    exact ⟨nodup_reported h hlen, fun c => mem_reported_of_short h hlen⟩
  · constructor
    · intro hnone call hcall hclaim
      obtain ⟨node, hnode⟩ := exists_firstClaim ⟨call, hcall, hclaim⟩
      rw [(hall calls c node hc).mpr hnode] at hnone
      simp at hnone
    · intro hno
      rw [Option.eq_none_iff_forall_ne_some]
      intro node hsome
      obtain ⟨before, data, after, rfl, hclaim, -⟩ := (hall calls c node hc).mp hsome
      exact hno (node, data) (by simp) hclaim
  · rw [lookup, if_neg (not_lt.mpr hc)]
  · constructor
    · rintro ⟨hn, ⟨words, h⟩, hmem⟩
      exact ⟨hn, words, h, (mem_reported h).mp hmem⟩
    · rintro ⟨hn, words, h, hmem⟩
      exact ⟨hn, ⟨words, h⟩, (mem_reported h).mpr hmem⟩
  · rw [parseContainsCpu_iff]
    by_cases hclaim : Claims (node, data) c
    · rw [lookup_indexNode_of_claims new hc hclaim, hnew]
      simp [hclaim.2]
    · rw [lookup_indexNode_of_not new hclaim, hnew]
      simp only [reduceCtorEq, iff_false]
      exact fun h => hclaim ⟨hn, h⟩

/-- `1` and 256 words `0` behind it: one CPU, the first one that no index has an entry for. -/
def wideText : Bytes := 49 :: (List.replicate 256 [44, 48]).flatten

/-- The text has the CPU, and the index of the text alone does not. -/
theorem wideText_beyond_index : (rsplit (trimEnd wideText)).length < 2 ^ 27 ∧
    parseContainsCpu wideText 8192 = true ∧
    (ReverseIndex.new.indexNode 0 wideText).1 = true ∧
    (ReverseIndex.new.indexNode 0 wideText).2.lookup 8192 = none := by
  decide +kernel

/-- `0000000a,3` with a newline, then an overlapping mask of another node. -/
def twoNodes : List (ℕ × Bytes) :=
  [(64, [49]), (5, [48, 48, 48, 48, 48, 48, 48, 97, 44, 51, 10]), (2, [70, 44, 103]), (1, [55])]

open ReverseIndex in
theorem reverseIndex_exact_twoNodes :
    (indexAll twoNodes new).lookup 1 = some 5 ∧ FirstClaim twoNodes 1 5 ∧
      FirstClaim twoNodes 2 1 ∧ FirstClaim twoNodes 35 5 := by
  obtain ⟨-, -, hall, -⟩ := reverseIndex_exact
  have hlookup : (indexAll twoNodes new).lookup 1 = some 5 := by decide +kernel
  refine ⟨hlookup, ?_, ?_, ?_⟩
  · exact ((hall twoNodes 1 (by decide)).1 5).mp hlookup
  · exact ((hall twoNodes 2 (by decide)).1 1).mp (by decide +kernel)
  · exact ((hall twoNodes 35 (by decide)).1 5).mp (by decide +kernel)

end SeferAlloc.CpuMap
