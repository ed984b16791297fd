import SeferAlloc.SegmentHash
import SeferAlloc.BitWord
import SeferAlloc.ActiveKindIndex

/-!
# The segment directory

A bitmap of the segments whose free list of a class is not empty. The bits of
a NUMA node are kept in a bucket of its own while one is left, and otherwise in
the bucket that all nodes share. A bucket whose last bit is cleared is free for
the next node.
-/
namespace SeferAlloc
namespace Directory
open BitWord

/-- `MAX_NODES`, which is 8 under `numa-aware`; without it the shared bucket is the only one. And
`SMALL_CLASS_COUNT`. -/
structure Build where
  maxNodes : ℕ
  classes : ℕ
  classes_le : classes ≤ 64

/-- The node of a segment whose node is unknown. -/
def noNodeRaw : ℕ := 2 ^ 32 - 1

/-- A bucket that no node owns. -/
def nodeSlotEmpty : ℕ := 2 ^ 32 - 1

/-- `SegmentDirectory`. The bucket `maxNodes` is the shared one; it has no node and no counter. -/
structure SegmentDirectory where
  classNonemptyByNode : ℕ → ℕ → ℕ → Word
  nodeIds : ℕ → ℕ
  activeBitsByNode : ℕ → ℕ

/-- Zeroed pages with `init_node_ids_raw`. -/
def fresh : SegmentDirectory := ⟨fun _ _ _ => 0, fun _ => nodeSlotEmpty, fun _ => 0⟩

variable (b : Build)

/-- `node_ids.iter().position(|&n| n == id)`: the first bucket with this id. -/
def position (d : SegmentDirectory) (id : ℕ) : Option ℕ :=
  (List.range b.maxNodes).find? fun nb => d.nodeIds nb = id

/-- The bucket of a node for writing: its own, a free one it takes, else the shared one. -/
def nodeBucketMut (nodeId : ℕ) (d : SegmentDirectory) : SegmentDirectory × ℕ :=
  if nodeId = noNodeRaw then (d, b.maxNodes)
  else
    match position b d nodeId with
    | some idx => (d, idx)
    | none =>
      match position b d nodeSlotEmpty with
      | some idx => ({ d with nodeIds := Function.update d.nodeIds idx nodeId }, idx)
      | none => (d, b.maxNodes)

/-- The bucket of a node for reading, the shared one if it owns none. -/
def nodeBucket (nodeId : ℕ) (d : SegmentDirectory) : ℕ :=
  if nodeId = noNodeRaw then b.maxNodes else (position b d nodeId).getD b.maxNodes

/-- The store to a word of a bucket. -/
def writeCell (nb classIdx word : ℕ) (w : Word) (d : SegmentDirectory) : SegmentDirectory :=
  let bucket := d.classNonemptyByNode nb
  { d with
    classNonemptyByNode := Function.update d.classNonemptyByNode nb
      (Function.update bucket classIdx (Function.update (bucket classIdx) word w)) }

/-- `active_bits_by_node[nb] += 1`, as a machine word. -/
def incActive (nb : ℕ) (d : SegmentDirectory) : SegmentDirectory :=
  { d with
    activeBitsByNode := Function.update d.activeBitsByNode nb
      ((d.activeBitsByNode nb + 1) % 2 ^ 32) }

/-- `active_bits_by_node[nb] -= 1`, as a machine word, and the release of the bucket at zero. -/
def decActive (nb : ℕ) (d : SegmentDirectory) : SegmentDirectory :=
  let n := (d.activeBitsByNode nb + (2 ^ 32 - 1)) % 2 ^ 32
  { d with
    activeBitsByNode := Function.update d.activeBitsByNode nb n
    nodeIds := if n = 0 then Function.update d.nodeIds nb nodeSlotEmpty else d.nodeIds }

/-- Publishes a slot for a class in the bucket of its node. -/
def setBit (nodeId classIdx slotIdx : ℕ) (d : SegmentDirectory) : SegmentDirectory :=
  let (d, nb) := nodeBucketMut b nodeId d
  let word := slotIdx / 64
  let mask := bit (slotIdx % 64)
  let cell := d.classNonemptyByNode nb classIdx word
  let d := writeCell nb classIdx word (cell ||| mask) d
  if cell &&& mask = 0 ∧ nb < b.maxNodes then incActive nb d else d

/-- What `clear_bit`, `clear_bit_all_nodes` and `clear_slot` do to one cell. -/
def clearCell (nb classIdx slotIdx : ℕ) (d : SegmentDirectory) : SegmentDirectory :=
  let word := slotIdx / 64
  let mask := bit (slotIdx % 64)
  let cell := d.classNonemptyByNode nb classIdx word
  let d := writeCell nb classIdx word (cell &&& ~~~mask) d
  if cell &&& mask ≠ 0 ∧ nb < b.maxNodes then decActive nb d else d

/-- Withdraws a slot for a class from the bucket of its node. -/
def clearBit (nodeId classIdx slotIdx : ℕ) (d : SegmentDirectory) : SegmentDirectory :=
  clearCell b (nodeBucket b nodeId d) classIdx slotIdx d

/-- Withdraws a slot for a class from every bucket. -/
def clearBitAllNodes (classIdx slotIdx : ℕ) (d : SegmentDirectory) : SegmentDirectory :=
  (List.range (b.maxNodes + 1)).foldl (fun d nb => clearCell b nb classIdx slotIdx d) d

/-- Withdraws a slot for every class. -/
def clearSlot (slotIdx : ℕ) (d : SegmentDirectory) : SegmentDirectory :=
  (List.range (b.maxNodes + 1)).foldl (fun d nb =>
    (List.range b.classes).foldl (fun d c => clearCell b nb c slotIdx d) d) d

/-! ## Bits -/

/-- The bit of a class and a slot in a bucket. -/
def SegmentDirectory.get (d : SegmentDirectory) (nb classIdx slotIdx : ℕ) : Bool :=
  member (d.classNonemptyByNode nb classIdx) slotIdx

variable {b} {d : SegmentDirectory} {nb c s node : ℕ}

@[simp] lemma writeCell_nodeIds (w : Word) (k : ℕ) : (writeCell nb c k w d).nodeIds = d.nodeIds :=
  rfl

@[simp] lemma writeCell_active (w : Word) (k : ℕ) :
    (writeCell nb c k w d).activeBitsByNode = d.activeBitsByNode := rfl

@[simp] lemma incActive_get (nb' c' s' : ℕ) : (incActive nb d).get nb' c' s' = d.get nb' c' s' :=
  rfl

@[simp] lemma decActive_get (nb' c' s' : ℕ) : (decActive nb d).get nb' c' s' = d.get nb' c' s' := by
  simp only [SegmentDirectory.get, decActive]

lemma get_writeCell_or (nb' c' s' : ℕ) :
    (writeCell nb c (s / 64) (d.classNonemptyByNode nb c (s / 64) ||| bit (s % 64)) d).get
      nb' c' s' = (decide (nb' = nb ∧ c' = c ∧ s' = s) || d.get nb' c' s') := by
  unfold SegmentDirectory.get writeCell
  by_cases hn : nb' = nb
  · subst nb'
    by_cases hc : c' = c
    · subst c'
      simp only [Function.update_self, member_set]
      simp
    · simp [hc]
  · simp [hn]

lemma get_writeCell_clear (nb' c' s' : ℕ) :
    (writeCell nb c (s / 64) (d.classNonemptyByNode nb c (s / 64) &&& ~~~bit (s % 64)) d).get
      nb' c' s' = (!decide (nb' = nb ∧ c' = c ∧ s' = s) && d.get nb' c' s') := by
  unfold SegmentDirectory.get writeCell
  by_cases hn : nb' = nb
  · subst nb'
    by_cases hc : c' = c
    · subst c'
      simp only [Function.update_self, member_clear]
      simp
    · simp [hc]
  · simp [hn]

/-- The test of a cell against the mask reads the bit. -/
lemma cell_and_mask : d.classNonemptyByNode nb c (s / 64) &&& bit (s % 64) = 0 ↔
    d.get nb c s = false := and_bit_eq_zero (Nat.mod_lt _ (by decide))

/-- The bits of a bucket. -/
def bucketBits (b : Build) (d : SegmentDirectory) (nb : ℕ) : Finset (ℕ × ℕ) :=
  ((Finset.range b.classes) ×ˢ (Finset.range maxSegments)).filter fun p => d.get nb p.1 p.2 = true

lemma card_bucketBits_lt (d : SegmentDirectory) (nb : ℕ) : (bucketBits b d nb).card < 2 ^ 32 := by
  have hle : (bucketBits b d nb).card ≤ b.classes * maxSegments := by
    refine (Finset.card_filter_le _ _).trans ?_
    simp
  have hc := b.classes_le
  unfold maxSegments at hle
  omega

lemma mem_bucketBits (hc : c < b.classes) (hs : s < maxSegments) :
    (c, s) ∈ bucketBits b d nb ↔ d.get nb c s = true := by
  simp [bucketBits, hc, hs]

/-! ## Well-formed directories -/

/-- The counters count the bits of their buckets, a bucket without a node has no bit, and no two
buckets are of one node. -/
structure Counted (b : Build) (d : SegmentDirectory) : Prop where
  active : ∀ nb < b.maxNodes, d.activeBitsByNode nb = (bucketBits b d nb).card
  empty : ∀ nb < b.maxNodes, d.nodeIds nb = nodeSlotEmpty → d.activeBitsByNode nb = 0
  distinct : ∀ nb < b.maxNodes, ∀ nb' < b.maxNodes, d.nodeIds nb = d.nodeIds nb' →
    d.nodeIds nb ≠ nodeSlotEmpty → nb = nb'

/-- A bucket without a bit has no node. -/
def ReleasedAt (d : SegmentDirectory) (nb : ℕ) : Prop :=
  d.activeBitsByNode nb = 0 → d.nodeIds nb = nodeSlotEmpty

lemma position_eq_some {id : ℕ} (h : position b d id = some nb) :
    nb < b.maxNodes ∧ d.nodeIds nb = id := by
  have hp := List.find?_some h
  have hm := List.mem_of_find?_eq_some h
  exact ⟨List.mem_range.mp hm, by simpa using hp⟩

lemma position_eq_none {id : ℕ} (h : position b d id = none) : ∀ nb < b.maxNodes,
    d.nodeIds nb ≠ id := by
  intro nb hnb he
  have hn := List.find?_eq_none.mp h nb (List.mem_range.mpr hnb)
  simp [he] at hn

/-- The bucket that a node gets: its own one or the shared one. Every other bucket keeps its node,
and an empty one is taken only by a node that has none. -/
lemma nodeBucketMut_spec (hd : Counted b d) (node : ℕ) :
    ∃ nb ≤ b.maxNodes, ∃ ids, nodeBucketMut b node d = ({ d with nodeIds := ids }, nb) ∧
      (∀ k, k ≠ nb → ids k = d.nodeIds k) ∧
      (nb < b.maxNodes → ids nb = node ∧ node ≠ nodeSlotEmpty ∧
        (d.nodeIds nb = node ∨ d.nodeIds nb = nodeSlotEmpty) ∧
        ∀ k < b.maxNodes, k ≠ nb → d.nodeIds k ≠ node) ∧
      (∀ k < b.maxNodes, d.nodeIds k = node → node ≠ nodeSlotEmpty → nb = k) := by
  unfold nodeBucketMut
  by_cases hn : node = noNodeRaw
  · rw [if_pos hn]
    exact ⟨_, le_rfl, d.nodeIds, rfl, fun _ _ => rfl, fun h => absurd h (lt_irrefl _),
      fun _ _ _ hne => absurd hn hne⟩
  · rw [if_neg hn]
    cases hp : position b d node with
    | some idx =>
      obtain ⟨hlt, hid⟩ := position_eq_some hp
      refine ⟨idx, hlt.le, d.nodeIds, rfl, fun _ _ => rfl, fun _ => ?_, fun k hk he hne =>
        hd.distinct idx hlt k hk (hid.trans he.symm) (hid ▸ hne)⟩
      refine ⟨hid, hn, .inl hid, fun k hk hne he => hne ?_⟩
      exact hd.distinct k hk idx hlt (he.trans hid.symm) (he ▸ hn)
    | none =>
      have hnone := position_eq_none hp
      cases he : position b d nodeSlotEmpty with
      | some idx =>
        obtain ⟨hlt, hid⟩ := position_eq_some he
        refine ⟨idx, hlt.le, _, rfl, fun k hk => Function.update_of_ne hk _ _, fun _ => ?_,
          fun k hk he _ => absurd he (hnone k hk)⟩
        exact ⟨Function.update_self .., hn, .inr hid, fun k hk _ => hnone k hk⟩
      | none =>
        exact ⟨_, le_rfl, d.nodeIds, rfl, fun _ _ => rfl, fun h => absurd h (lt_irrefl _),
          fun k hk he _ => absurd he (hnone k hk)⟩

/-- A directory whose bucket `nb` gained or lost bits, with its counter and its node. -/
lemma Counted.of_bucket {d' : SegmentDirectory} (nb : ℕ) (hd : Counted b d)
    (hother : ∀ k, k ≠ nb → d'.nodeIds k = d.nodeIds k ∧
      d'.activeBitsByNode k = d.activeBitsByNode k ∧ bucketBits b d' k = bucketBits b d k)
    (hself : nb < b.maxNodes → d'.activeBitsByNode nb = (bucketBits b d' nb).card ∧
      (d'.nodeIds nb = nodeSlotEmpty → d'.activeBitsByNode nb = 0) ∧
      (d'.nodeIds nb = nodeSlotEmpty ∨ ∀ k < b.maxNodes, k ≠ nb → d.nodeIds k ≠ d'.nodeIds nb)) :
    Counted b d' := by
  constructor
  · intro k hk
    by_cases he : k = nb
    · subst k
      exact (hself hk).1
    · obtain ⟨-, ha, hb⟩ := hother k he
      rw [ha, hb, hd.active k hk]
  · intro k hk
    by_cases he : k = nb
    · subst k
      exact (hself hk).2.1
    · obtain ⟨hi, ha, -⟩ := hother k he
      rw [hi, ha]
      exact hd.empty k hk
  · intro k hk k' hk' he hne
    by_cases hkn : k = nb
    · subst k
      by_contra hkk
      have hk'n : k' ≠ nb := fun h => hkk h.symm
      rw [(hother k' hk'n).1] at he
      exact ((hself hk).2.2.resolve_left hne) k' hk' hk'n he.symm
    · by_cases hk'n : k' = nb
      · subst k'
        rw [(hother k hkn).1] at he hne
        exact (((hself hk').2.2.resolve_left (he ▸ hne)) k hk hkn he).elim
      · rw [(hother k hkn).1] at he hne
        rw [(hother k' hk'n).1] at he
        exact hd.distinct k hk k' hk' he hne

lemma bucketBits_congr {d' : SegmentDirectory} (h : ∀ c s, d'.get nb c s = d.get nb c s) :
    bucketBits b d' nb = bucketBits b d nb := by
  ext p
  simp [bucketBits, h]

/-- `set_bit` adds one bit, in the bucket of the node or in the shared one. -/
lemma setBit_spec (hd : Counted b d) (hc : c < b.classes) (hs : s < maxSegments) (node : ℕ) :
    ∃ nb ≤ b.maxNodes, Counted b (setBit b node c s d) ∧
      (∀ k < b.maxNodes, ReleasedAt d k → ReleasedAt (setBit b node c s d) k) ∧
      (∀ nb' c' s', (setBit b node c s d).get nb' c' s' =
        (decide (nb' = nb ∧ c' = c ∧ s' = s) || d.get nb' c' s')) ∧
      (∀ k < b.maxNodes, d.nodeIds k ≠ nodeSlotEmpty →
        (setBit b node c s d).nodeIds k = d.nodeIds k) ∧
      (nb < b.maxNodes → (setBit b node c s d).nodeIds nb = node) ∧
      (∀ k < b.maxNodes, d.nodeIds k = node → node ≠ nodeSlotEmpty → nb = k) := by
  obtain ⟨nb, hle, ids, hb, hother, hself, htaken⟩ := nodeBucketMut_spec hd node
  set d₁ : SegmentDirectory := { d with nodeIds := ids } with hd₁
  set d₂ := writeCell nb c (s / 64) (d₁.classNonemptyByNode nb c (s / 64) ||| bit (s % 64)) d₁
    with hd₂
  have hset : setBit b node c s d =
      if d₁.get nb c s = false ∧ nb < b.maxNodes then incActive nb d₂ else d₂ := by
    simp only [setBit, hb, cell_and_mask]
    rfl
  have hget₂ : ∀ nb' c' s', d₂.get nb' c' s' =
      (decide (nb' = nb ∧ c' = c ∧ s' = s) || d.get nb' c' s') := fun nb' c' s' =>
    get_writeCell_or nb' c' s'
  have hget : ∀ nb' c' s', (setBit b node c s d).get nb' c' s' =
      (decide (nb' = nb ∧ c' = c ∧ s' = s) || d.get nb' c' s') := by
    intro nb' c' s'
    rw [hset, ← hget₂]
    split_ifs
    · exact incActive_get ..
    · rfl
  have hids : (setBit b node c s d).nodeIds = ids := by
    rw [hset]
    split_ifs <;> rfl
  have hact_of_ne : ∀ k, k ≠ nb →
      (setBit b node c s d).activeBitsByNode k = d.activeBitsByNode k := by
    intro k hk
    rw [hset]
    split_ifs
    · exact Function.update_of_ne hk _ _
    · rfl
  have hbits : bucketBits b (setBit b node c s d) nb = insert (c, s) (bucketBits b d nb) := by
    ext ⟨c', s'⟩
    simp only [bucketBits, Finset.mem_filter, Finset.mem_product, Finset.mem_range, hget,
      Finset.mem_insert, Prod.mk.injEq, Bool.or_eq_true, decide_eq_true_eq, true_and]
    constructor
    · rintro ⟨hb, hp | hp⟩
      · exact .inl hp
      · exact .inr ⟨hb, hp⟩
    · rintro (⟨rfl, rfl⟩ | ⟨hb, hp⟩)
      · exact ⟨⟨hc, hs⟩, .inl ⟨rfl, rfl⟩⟩
      · exact ⟨hb, .inr hp⟩
  have hact : nb < b.maxNodes → (setBit b node c s d).activeBitsByNode nb =
      (bucketBits b (setBit b node c s d) nb).card := by
    intro hlt
    have hlt32 := card_bucketBits_lt (b := b) (setBit b node c s d) nb
    rw [hbits] at hlt32 ⊢
    have hmem : (c, s) ∈ bucketBits b d nb ↔ d.get nb c s = true := mem_bucketBits hc hs
    cases hg : d.get nb c s with
    | false =>
      have hnot : (c, s) ∉ bucketBits b d nb := by simp [hmem, hg]
      rw [Finset.card_insert_of_notMem hnot] at hlt32 ⊢
      rw [hset, if_pos ⟨hg, hlt⟩]
      change Function.update d.activeBitsByNode nb ((d.activeBitsByNode nb + 1) % 2 ^ 32) nb = _
      rw [Function.update_self, hd.active nb hlt, Nat.mod_eq_of_lt hlt32]
    | true =>
      have hin : (c, s) ∈ bucketBits b d nb := hmem.mpr hg
      have hstay : setBit b node c s d = d₂ := by
        rw [hset, if_neg (by simp [show d₁.get nb c s = true from hg])]
      rw [Finset.insert_eq_of_mem hin, hstay]
      exact hd.active nb hlt
  refine ⟨nb, hle, ?_, fun k hk hr hz => ?_, hget, fun k hk hne => ?_,
    fun hlt => hids ▸ (hself hlt).1, htaken⟩
  · refine hd.of_bucket nb (fun k hk => ⟨?_, hact_of_ne k hk, ?_⟩) fun hlt => ?_
    · rw [hids, hother k hk]
    · exact bucketBits_congr fun c' s' => by simp [hget, hk]
    · obtain ⟨hnode, hne, -, hk⟩ := hself hlt
      rw [hids, hnode]
      exact ⟨hact hlt, fun h => absurd h hne, .inr hk⟩
  · by_cases hkn : k = nb
    · subst k
      rw [hact hk, hbits, Finset.card_eq_zero] at hz
      exact absurd hz (Finset.insert_ne_empty _ _)
    · rw [hids, hother k hkn]
      exact hr (hact_of_ne k hkn ▸ hz)
  · rw [hids]
    by_cases hkn : k = nb
    · subst k
      obtain ⟨hnode, -, hor, -⟩ := hself hk
      rw [hnode, hor.resolve_right hne]
    · exact hother k hkn

lemma decActive_active (d : SegmentDirectory) (nb : ℕ) : (decActive nb d).activeBitsByNode nb =
    (d.activeBitsByNode nb + (2 ^ 32 - 1)) % 2 ^ 32 := Function.update_self ..

lemma decActive_active_of_ne (d : SegmentDirectory) {k : ℕ} (hk : k ≠ nb) :
    (decActive nb d).activeBitsByNode k = d.activeBitsByNode k := Function.update_of_ne hk ..

lemma decActive_nodeIds_self (d : SegmentDirectory) (nb : ℕ) : (decActive nb d).nodeIds nb =
    if (decActive nb d).activeBitsByNode nb = 0 then nodeSlotEmpty else d.nodeIds nb := by
  rw [decActive_active]
  simp only [decActive]
  split_ifs
  · exact Function.update_self ..
  · rfl

lemma decActive_nodeIds_of_ne (d : SegmentDirectory) {k : ℕ} (hk : k ≠ nb) :
    (decActive nb d).nodeIds k = d.nodeIds k := by
  simp only [decActive]
  split_ifs
  · exact Function.update_of_ne hk _ _
  · rfl

lemma decActive_nodeIds (d : SegmentDirectory) (nb k : ℕ) :
    (decActive nb d).nodeIds k = d.nodeIds k ∨ (decActive nb d).nodeIds k = nodeSlotEmpty := by
  by_cases hk : k = nb
  · subst k
    rw [decActive_nodeIds_self]
    split_ifs
    · exact .inr rfl
    · exact .inl rfl
  · exact .inl (decActive_nodeIds_of_ne d hk)

/-- Clearing a cell removes one bit, and frees the bucket that it leaves without one. -/
lemma clearCell_spec (hd : Counted b d) (hc : c < b.classes) (hs : s < maxSegments) (nb : ℕ) :
    Counted b (clearCell b nb c s d) ∧
      (∀ k < b.maxNodes, ReleasedAt d k → ReleasedAt (clearCell b nb c s d) k) ∧
      (∀ nb' c' s', (clearCell b nb c s d).get nb' c' s' =
        (!decide (nb' = nb ∧ c' = c ∧ s' = s) && d.get nb' c' s')) ∧
      (∀ k < b.maxNodes, (clearCell b nb c s d).nodeIds k = d.nodeIds k ∨
        (clearCell b nb c s d).nodeIds k = nodeSlotEmpty) := by
  set d₂ := writeCell nb c (s / 64) (d.classNonemptyByNode nb c (s / 64) &&& ~~~bit (s % 64)) d
    with hd₂
  have hclear : clearCell b nb c s d =
      if d.get nb c s = true ∧ nb < b.maxNodes then decActive nb d₂ else d₂ := by
    simp only [clearCell, ne_eq, cell_and_mask, Bool.not_eq_false]
    rfl
  have hget : ∀ nb' c' s', (clearCell b nb c s d).get nb' c' s' =
      (!decide (nb' = nb ∧ c' = c ∧ s' = s) && d.get nb' c' s') := by
    intro nb' c' s'
    rw [hclear, ← get_writeCell_clear]
    split_ifs
    · exact decActive_get ..
    · rfl
  have hids : ∀ k, (clearCell b nb c s d).nodeIds k = d.nodeIds k ∨
      (clearCell b nb c s d).nodeIds k = nodeSlotEmpty := by
    intro k
    rw [hclear]
    split_ifs
    · exact decActive_nodeIds d₂ nb k
    · exact .inl rfl
  refine ⟨hd.of_bucket nb (fun k hk => ⟨?_, ?_, ?_⟩) fun hlt => ?_,
    fun k hk hr => ?_, hget, fun k _ => hids k⟩
  · rw [hclear]
    split_ifs
    · exact decActive_nodeIds_of_ne d₂ hk
    · rfl
  · rw [hclear]
    split_ifs
    · exact Function.update_of_ne hk _ _
    · rfl
  · exact bucketBits_congr fun c' s' => by simp [hget, hk]
  · have hbits : bucketBits b (clearCell b nb c s d) nb = (bucketBits b d nb).erase (c, s) := by
      ext ⟨c', s'⟩
      simp only [bucketBits, Finset.mem_filter, Finset.mem_product, Finset.mem_range, hget,
        Finset.mem_erase, ne_eq, Prod.mk.injEq, Bool.and_eq_true, Bool.not_eq_true',
        decide_eq_false_iff_not, true_and]
      exact and_left_comm
    have hmem : (c, s) ∈ bucketBits b d nb ↔ d.get nb c s = true := mem_bucketBits hc hs
    have hold : d.nodeIds nb = nodeSlotEmpty ∨
        ∀ k < b.maxNodes, k ≠ nb → d.nodeIds k ≠ d.nodeIds nb := by
      by_cases he : d.nodeIds nb = nodeSlotEmpty
      · exact .inl he
      · exact .inr fun k hk hkn hkid => hkn (hd.distinct k hk nb hlt hkid (hkid ▸ he))
    rw [hbits]
    cases hg : d.get nb c s with
    | false =>
      have hnot : (c, s) ∉ bucketBits b d nb := by simp [hmem, hg]
      have hstay : clearCell b nb c s d = d₂ := by
        rw [hclear, if_neg (by simp [hg])]
      rw [Finset.erase_eq_of_notMem hnot, hstay]
      exact ⟨hd.active nb hlt, hd.empty nb hlt, hold⟩
    | true =>
      have hin : (c, s) ∈ bucketBits b d nb := hmem.mpr hg
      have hstep : clearCell b nb c s d = decActive nb d₂ := by
        rw [hclear, if_pos ⟨hg, hlt⟩]
      have hact : (decActive nb d₂).activeBitsByNode nb = (bucketBits b d nb).card - 1 := by
        have hpos := Finset.card_pos.mpr ⟨_, hin⟩
        have hlt32 := card_bucketBits_lt (b := b) d nb
        rw [decActive_active, show d₂.activeBitsByNode nb = (bucketBits b d nb).card from
          hd.active nb hlt]
        omega
      rw [hstep, Finset.card_erase_of_mem hin]
      have hne : d₂.nodeIds nb ≠ nodeSlotEmpty := by
        intro he
        have hz : d.activeBitsByNode nb = 0 := hd.empty nb hlt he
        rw [hd.active nb hlt, Finset.card_eq_zero] at hz
        simp [hz] at hin
      refine ⟨hact, ?_, ?_⟩
      · rw [decActive_nodeIds_self]
        split_ifs with hz
        · exact fun _ => hz
        · exact fun h => absurd h hne
      · rw [decActive_nodeIds_self]
        split_ifs
        · exact .inl rfl
        · exact hold
  · rw [hclear]
    split_ifs
    · by_cases hkn : k = nb
      · subst k
        intro hz
        rw [decActive_nodeIds_self, if_pos hz]
      · intro hz
        rw [decActive_nodeIds_of_ne d₂ hkn]
        refine hr ?_
        rwa [decActive_active_of_ne d₂ hkn] at hz
    · exact hr

/-! ## Clearing many cells -/

/-- `d'` is `d` without the bits in `gone`. -/
structure Clears (b : Build) (d d' : SegmentDirectory) (gone : ℕ → ℕ → ℕ → Prop) : Prop where
  counted : Counted b d'
  released : ∀ k < b.maxNodes, ReleasedAt d k → ReleasedAt d' k
  get : ∀ nb c s, d'.get nb c s = true ↔ d.get nb c s = true ∧ ¬ gone nb c s
  ids : ∀ k < b.maxNodes, d'.nodeIds k = d.nodeIds k ∨ d'.nodeIds k = nodeSlotEmpty

lemma Clears.refl (hd : Counted b d) : Clears b d d fun _ _ _ => False where
  counted := hd
  released _ _ := id
  get := by simp
  ids _ _ := .inl rfl

lemma Clears.trans {d₁ d₂ : SegmentDirectory} {p q : ℕ → ℕ → ℕ → Prop} (h₁ : Clears b d d₁ p)
    (h₂ : Clears b d₁ d₂ q) : Clears b d d₂ fun nb c s => p nb c s ∨ q nb c s where
  counted := h₂.counted
  released k hk hr := h₂.released k hk (h₁.released k hk hr)
  get nb c s := by rw [h₂.get, h₁.get, not_or, and_assoc]
  ids k hk := by
    obtain h | h := h₂.ids k hk
    · rw [h]
      exact h₁.ids k hk
    · exact .inr h

lemma Clears.congr {d' : SegmentDirectory} {p q : ℕ → ℕ → ℕ → Prop} (h : Clears b d d' p)
    (hpq : ∀ nb c s, p nb c s ↔ q nb c s) : Clears b d d' q :=
  { h with get := fun nb c s => by rw [h.get, hpq] }

lemma Clears.foldl {α : Type*} {f : SegmentDirectory → α → SegmentDirectory}
    {gone : α → ℕ → ℕ → ℕ → Prop} (xs : List α)
    (hf : ∀ x ∈ xs, ∀ d, Counted b d → Clears b d (f d x) (gone x)) (hd : Counted b d) :
    Clears b d (xs.foldl f d) fun nb c s => ∃ x ∈ xs, gone x nb c s := by
  induction xs generalizing d with
  | nil => exact (Clears.refl hd).congr (by simp)
  | cons x xs ih =>
    have h₁ := hf x (List.mem_cons_self ..) d hd
    have h₂ := ih (fun y hy => hf y (List.mem_cons_of_mem _ hy)) h₁.counted
    exact (h₁.trans h₂).congr fun nb c s => by simp

lemma clearCell_clears (hd : Counted b d) (hc : c < b.classes) (hs : s < maxSegments) (nb : ℕ) :
    Clears b d (clearCell b nb c s d) fun nb' c' s' => nb' = nb ∧ c' = c ∧ s' = s := by
  obtain ⟨hcount, hrel, hget, hids⟩ := clearCell_spec hd hc hs nb
  refine ⟨hcount, hrel, fun nb' c' s' => ?_, hids⟩
  rw [hget, Bool.and_eq_true, Bool.not_eq_true', decide_eq_false_iff_not, and_comm]

/-- `clear_bit` clears the bit in the bucket of the node. -/
lemma clearBit_clears (hd : Counted b d) (hc : c < b.classes) (hs : s < maxSegments) (node : ℕ) :
    Clears b d (clearBit b node c s d) fun nb' c' s' =>
      nb' = nodeBucket b node d ∧ c' = c ∧ s' = s := clearCell_clears hd hc hs _

/-- `clear_bit_all_nodes` clears the bit in every bucket. -/
lemma clearBitAllNodes_clears (hd : Counted b d) (hc : c < b.classes) (hs : s < maxSegments) :
    Clears b d (clearBitAllNodes b c s d) fun nb' c' s' =>
      nb' ≤ b.maxNodes ∧ c' = c ∧ s' = s := by
  refine (Clears.foldl _ (fun nb _ d hd => clearCell_clears hd hc hs nb) hd).congr fun nb' c' s' => ?_
  simp

/-- `clear_slot` clears all bits of the slot. -/
lemma clearSlot_clears (hd : Counted b d) (hs : s < maxSegments) :
    Clears b d (clearSlot b s d) fun nb' c' s' =>
      nb' ≤ b.maxNodes ∧ c' < b.classes ∧ s' = s := by
  refine (Clears.foldl _ (fun nb _ d hd => Clears.foldl _ (fun c hc d hd =>
    clearCell_clears hd (List.mem_range.mp hc) hs nb) hd) hd).congr fun nb' c' s' => ?_
  simp

/-- A bucket with a bit has a node. -/
lemma Counted.nodeIds_ne (hd : Counted b d) (hnb : nb < b.maxNodes) (hc : c < b.classes)
    (hs : s < maxSegments) (hg : d.get nb c s = true) : d.nodeIds nb ≠ nodeSlotEmpty := by
  intro he
  have hz := hd.empty nb hnb he
  rw [hd.active nb hnb, Finset.card_eq_zero] at hz
  have hin := (mem_bucketBits hc hs).mpr hg
  simp [hz] at hin

/-- The bucket of a node is the one with its number. -/
lemma Counted.nodeBucket_eq (hd : Counted b d) (hnb : nb < b.maxNodes)
    (hne : d.nodeIds nb ≠ nodeSlotEmpty) : nodeBucket b (d.nodeIds nb) d = nb := by
  have hraw : d.nodeIds nb ≠ noNodeRaw := hne
  rw [nodeBucket, if_neg hraw]
  cases hp : position b d (d.nodeIds nb) with
  | none => exact absurd rfl (position_eq_none hp nb hnb)
  | some idx =>
    obtain ⟨hlt, hid⟩ := position_eq_some hp
    exact hd.distinct idx hlt nb hnb hid (hid ▸ hne)

lemma fresh_get (nb c s : ℕ) : fresh.get nb c s = false := by
  simp [SegmentDirectory.get, fresh, member]

lemma Counted.fresh (b : Build) : Counted b fresh where
  active nb _ := by
    simp [bucketBits, fresh_get]
    rfl
  empty _ _ _ := rfl
  distinct _ _ _ _ _ hne := absurd rfl hne

lemma ReleasedAt.fresh (nb : ℕ) : ReleasedAt fresh nb := fun _ => rfl

end Directory

end SeferAlloc
