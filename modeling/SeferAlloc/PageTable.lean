import SeferAlloc.Chunks
import Mathlib.Algebra.Group.Nat.Defs
import Mathlib.Data.Nat.Log

/-!
# The persistent page table

A trie of fixed fan-out with the elements in its leaves. Nodes are shared and
never written: `push` and `set` copy the path to one leaf. Every table is the
trie of a list, cut into chunks from above, whichever operations built it.
-/
namespace SeferAlloc
namespace PageTable
open Chunks

/-- The bits of an index that one level reads. -/
def bits : ℕ := 4

/-- The children of a node. -/
def fanout : ℕ := 1 <<< bits

lemma fanout_eq : fanout = 16 := rfl

inductive Node (E : Type*) where
  | leaf (items : List E)
  | inner (children : List (Node E))

/-- A persistent vector: its tree, height and length. -/
@[ext]
structure Table (E : Type*) where
  root : Option (Node E)
  height : ℕ
  len : ℕ

variable {E : Type*}

def digit (idx level : ℕ) : ℕ := (idx >>> (bits * level)) &&& (fanout - 1)

/-- A table with nothing in it. -/
def Table.new : Table E := ⟨none, 0, 0⟩

/-- The chunks that `by_ref().take(FANOUT)` takes until nothing is left. -/
def takeChunks {α : Type*} : List α → List (List α)
  | [] => []
  | x :: xs => (x :: xs).take fanout :: takeChunks ((x :: xs).drop fanout)
termination_by xs => xs.length
decreasing_by
  rw [fanout_eq, List.length_drop, List.length_cons]
  omega

lemma takeChunks_eq {α : Type*} (xs : List α) : takeChunks xs = chunks fanout xs := by
  induction xs using takeChunks.induct with
  | case1 => simp [takeChunks]
  | case2 x xs ih => rw [takeChunks, ih, ← chunks_eq_cons (by decide) (x :: xs) (by simp)]

/-- The loop of `from_vec` that puts inner nodes over a level until one node is left. -/
def buildUp (level : List (Node E)) (height : ℕ) : List (Node E) × ℕ :=
  if 1 < level.length then buildUp ((takeChunks level).map .inner) (height + 1) else (level, height)
termination_by level.length
decreasing_by
  rw [takeChunks_eq, List.length_map, length_chunks, fanout_eq]
  omega

/-- Builds a table bottom up from its leaves. -/
def Table.fromVec (items : List E) : Table E :=
  if items.length = 0 then .new
  else
    let up := buildUp ((takeChunks items).map .leaf) 0
    ⟨up.1.getLast?, up.2, items.length⟩

/-- The walk of `get` from a node. An inner node at level 0 would underflow the level. -/
def Node.get (idx : ℕ) : Node E → ℕ → Option E
  | .leaf items, _ => items[digit idx 0]?
  | .inner _, 0 => none
  | .inner children, level + 1 =>
    children[digit idx (level + 1)]?.bind fun node => node.get idx level

def Table.get (t : Table E) (idx : ℕ) : Option E :=
  if t.len ≤ idx then none else t.root.bind fun node => node.get idx t.height

/-- The items of a leaf, as `put` reads them. -/
def Node.items : Option (Node E) → List E
  | some (.leaf v) => v
  | _ => []

/-- The children of an inner node, as `put` reads them. -/
def Node.children : Option (Node E) → List (Node E)
  | some (.inner v) => v
  | _ => []

def put (idx : ℕ) (item : E) : Option (Node E) → ℕ → Node E
  | node, 0 =>
    let old := Node.items node
    let d := digit idx 0
    .leaf (if d < old.length then old.set d item else old ++ [item])
  | node, level + 1 =>
    let old := Node.children node
    let d := digit idx (level + 1)
    .inner (old.take d ++ [put idx item old[d]? level] ++ old.drop (d + 1))

/-- `set`, which expects the root of a table with elements. -/
def Table.set (t : Table E) (idx : ℕ) (item : E) : Table E × Bool :=
  if t.len ≤ idx then (t, false)
  else ({ t with root := t.root.map fun root => put idx item (some root) t.height }, true)

def Table.push (t : Table E) (item : E) : Table E :=
  let idx := t.len
  match t.root with
  | none => ⟨some (put idx item none t.height), t.height, t.len + 1⟩
  | some old =>
    if 1 <<< (bits * (t.height + 1)) ≤ idx then
      ⟨some (put idx item (some (.inner [old])) (t.height + 1)), t.height + 1, t.len + 1⟩
    else ⟨some (put idx item (some old) t.height), t.height, t.len + 1⟩

/-! ## The trie of a list -/

/-- How many elements a node at a level can hold. -/
def capacity (level : ℕ) : ℕ := fanout ^ (level + 1)

/-- The left-packed trie of a list. -/
def trie : ℕ → List E → Node E
  | 0, xs => .leaf xs
  | level + 1, xs => .inner ((chunks (capacity level) xs).map (trie level))

/-- The least height whose root can hold `n` elements. -/
def heightOf (n : ℕ) : ℕ := Nat.log fanout (n - 1)

/-- The table of a list. -/
def ofList (xs : List E) : Table E :=
  ⟨if xs = [] then none else some (trie (heightOf xs.length) xs), heightOf xs.length, xs.length⟩

variable {xs : List E} {idx level : ℕ} {item : E}

lemma capacity_pos (level : ℕ) : 0 < capacity level := Nat.pow_pos (by decide)

lemma capacity_succ (level : ℕ) : capacity (level + 1) = capacity level * fanout := Nat.pow_succ ..

lemma digit_eq (idx level : ℕ) : digit idx level = idx / fanout ^ level % fanout := by
  unfold digit
  rw [Nat.shiftRight_eq_div_pow, Nat.pow_mul]
  exact Nat.and_two_pow_sub_one_eq_mod _ bits

lemma digit_zero (idx : ℕ) : digit idx 0 = idx % capacity 0 := by
  rw [digit_eq, Nat.pow_zero, Nat.div_one]
  rfl

/-- The digit of a level picks the chunk, and the lower digits the place in it. -/
lemma digit_succ (idx level : ℕ) :
    digit idx (level + 1) = idx % capacity (level + 1) / capacity level := by
  rw [digit_eq, capacity_succ, Nat.mod_mul_right_div_self]
  rfl

lemma mod_capacity (idx level : ℕ) :
    idx % capacity (level + 1) % capacity level = idx % capacity level := by
  rw [capacity_succ]
  exact Nat.mod_mod_of_dvd _ (Nat.dvd_mul_right ..)

/-- A walk finds the element of its index. -/
lemma get_trie (idx level : ℕ) (xs : List E) :
    (trie level xs).get idx level = xs[idx % capacity level]? := by
  induction level generalizing xs with
  | zero => rw [trie, Node.get, digit_zero]
  | succ level ih =>
    have hpos := capacity_pos level
    rw [trie, Node.get, digit_succ, List.getElem?_map, getElem?_chunks hpos]
    set i := idx % capacity (level + 1) with hi
    have hdiv := Nat.div_add_mod i (capacity level)
    have hmod := Nat.mod_lt i hpos
    by_cases hlt : capacity level * (i / capacity level) < xs.length
    · rw [if_pos hlt, Option.map_some, Option.bind_some, ih, ← mod_capacity, ← hi,
        List.getElem?_take, if_pos hmod, List.getElem?_drop, hdiv]
    · rw [if_neg hlt, Option.map_none, Option.bind_none, List.getElem?_eq_none (by omega)]

/-- A path copy replaces the element of its index. -/
lemma put_trie_set (idx level : ℕ) (xs : List E) (item : E) (h : idx % capacity level < xs.length) :
    put idx item (some (trie level xs)) level = trie level (xs.set (idx % capacity level) item) := by
  induction level generalizing xs with
  | zero =>
    simp only [put, trie, Node.items, digit_zero]
    rw [if_pos h]
  | succ level ih =>
    have hpos := capacity_pos level
    simp only [put, trie, Node.children, digit_succ]
    set i := idx % capacity (level + 1) with hi
    have hdiv := Nat.div_add_mod i (capacity level)
    have hmod := Nat.mod_lt i hpos
    have hlt : capacity level * (i / capacity level) < xs.length := by omega
    have hlen : i / capacity level < (chunks (capacity level) xs).length := by
      rw [length_chunks]
      exact (lt_ceil_iff hpos _ _).mpr hlt
    have hc : ((xs.drop (capacity level * (i / capacity level))).take (capacity level)).length ≥
        i % capacity level + 1 := by
      rw [List.length_take, List.length_drop]
      omega
    rw [List.getElem?_map, getElem?_chunks hpos, if_pos hlt, Option.map_some,
      ih _ (by rw [← mod_capacity, ← hi]; exact hc), ← mod_capacity, ← hi, chunks_set hpos,
      List.map_set]
    generalize trie level _ = node
    rw [List.set_eq_take_append_cons_drop, if_pos (by rw [List.length_map]; exact hlen),
      List.append_assoc]
    rfl

/-- A path copy puts the element after the last one; where there is no node yet, it makes the
path. -/
lemma put_trie_push (idx level : ℕ) (xs : List E) (item : E) (h : idx % capacity level = xs.length)
    (node : Option (Node E)) (hn : node = if xs = [] then none else some (trie level xs)) :
    put idx item node level = trie level (xs ++ [item]) := by
  induction level generalizing xs node with
  | zero =>
    have hitems : Node.items node = xs := by
      rw [hn]
      split_ifs with he
      · exact he.symm
      · rfl
    simp only [put, trie, digit_zero, hitems]
    rw [if_neg (by omega)]
  | succ level ih =>
    have hpos := capacity_pos level
    have hchildren : Node.children node = (chunks (capacity level) xs).map (trie level) := by
      rw [hn]
      split_ifs with he
      · rw [he, chunks_nil]
        rfl
      · rfl
    simp only [put, trie, digit_succ, hchildren, h]
    have hdiv := Nat.div_add_mod xs.length (capacity level)
    have hmod := Nat.mod_lt xs.length hpos
    have hlow : idx % capacity level = xs.length % capacity level := by rw [← mod_capacity, h]
    set q := xs.length / capacity level with hq
    -- The last chunk, which is empty where the list ends between chunks.
    have hlast : (List.map (trie level) (chunks (capacity level) xs))[q]? =
        if xs.drop (capacity level * q) = [] then none
        else some (trie level (xs.drop (capacity level * q))) := by
      rw [List.getElem?_map, getElem?_chunks hpos]
      by_cases hlt : capacity level * q < xs.length
      · rw [if_pos hlt, if_neg (by rw [List.drop_eq_nil_iff]; omega), List.take_of_length_le]
        · rfl
        · rw [List.length_drop]
          omega
      · rw [if_neg hlt, if_pos (by rw [List.drop_eq_nil_iff]; omega)]
        rfl
    have hnil : (List.map (trie level) (chunks (capacity level) xs)).drop (q + 1) = [] := by
      rw [List.drop_eq_nil_iff, List.length_map, length_chunks]
      rw [← Nat.not_lt, lt_ceil_iff hpos, Nat.mul_succ]
      omega
    rw [ih (xs.drop (capacity level * q)) (by rw [hlow, List.length_drop]; omega) _ hlast, hnil,
      List.append_nil, chunks_concat hpos, ← hq, List.map_append, List.map_take]
    rfl

/-! ## Every operation makes the table of a list -/

lemma le_capacity_heightOf (n : ℕ) : n ≤ capacity (heightOf n) := by
  have h : n - 1 < capacity (heightOf n) := Nat.lt_pow_succ_log_self (by decide) (n - 1)
  omega

/-- The height that is large enough, and would not be if it were less. -/
lemma heightOf_eq {n h : ℕ} (hmin : h ≠ 0 → capacity (h - 1) < n) (hn : n ≤ capacity h) :
    heightOf n = h := by
  unfold heightOf
  have hpos := capacity_pos h
  cases h with
  | zero =>
    rw [capacity, Nat.pow_one] at hn
    exact Nat.log_of_lt (by rw [fanout_eq] at hn ⊢; omega)
  | succ h =>
    have hlt := hmin (Nat.succ_ne_zero h)
    rw [Nat.add_sub_cancel] at hlt
    unfold capacity at hlt hn hpos
    exact Nat.log_eq_of_pow_le_of_lt_pow (by omega) (by omega)

lemma capacity_heightOf_lt {n : ℕ} (h : heightOf n ≠ 0) : capacity (heightOf n - 1) < n := by
  unfold capacity
  have hne : n - 1 ≠ 0 := fun he => h (by rw [heightOf, he, Nat.log_zero_right])
  have hle := Nat.pow_log_le_self fanout hne
  have hsub : heightOf n - 1 + 1 = heightOf n := by omega
  rw [hsub]
  unfold heightOf
  omega

lemma shift_eq_capacity (h : ℕ) : 1 <<< (bits * (h + 1)) = capacity h := by
  rw [Nat.one_shiftLeft, Nat.pow_mul]
  rfl

lemma trie_of_length_le (hne : xs ≠ []) (hl : xs.length ≤ capacity level) :
    trie (level + 1) xs = .inner [trie level xs] := by
  rw [trie, chunks_of_length_le xs hne hl]
  rfl

/-- The loop of `from_vec` makes the trie of its items. -/
lemma buildUp_eq (hne : xs ≠ []) (nodes : List (Node E)) (h : ℕ)
    (hnodes : nodes = (chunks (capacity h) xs).map (trie h))
    (hmin : h ≠ 0 → capacity (h - 1) < xs.length) :
    buildUp nodes h = ([trie (heightOf xs.length) xs], heightOf xs.length) := by
  have hlen : nodes.length = (xs.length + capacity h - 1) / capacity h := by
    rw [hnodes, List.length_map, length_chunks]
  induction nodes, h using buildUp.induct with
  | case1 nodes h hlt ih =>
    rw [buildUp, if_pos hlt]
    apply ih
    · rw [takeChunks_eq, hnodes, chunks_map, chunks_chunks (capacity_pos h) (by decide),
        capacity_succ, List.map_map, List.map_map]
      rfl
    · intro _
      rw [hlen, lt_ceil_iff (capacity_pos h), Nat.mul_one] at hlt
      exact hlt
    · rw [takeChunks_eq, hnodes, List.length_map, chunks_map, List.length_map,
        chunks_chunks (capacity_pos h) (by decide), capacity_succ, List.length_map, length_chunks]
  | case2 nodes h hlt =>
    rw [hlen, lt_ceil_iff (capacity_pos h), Nat.mul_one, Nat.not_lt] at hlt
    have hh : heightOf xs.length = h := heightOf_eq hmin hlt
    rw [buildUp, if_neg, hh, hnodes, chunks_of_length_le xs hne hlt]
    · rfl
    · rw [hnodes, chunks_of_length_le xs hne hlt]
      simp

/-- `from_vec` makes the table of its items. -/
theorem fromVec_eq (xs : List E) : Table.fromVec xs = ofList xs := by
  unfold Table.fromVec ofList
  by_cases hne : xs = []
  · rw [hne]
    rfl
  · rw [if_neg (by simpa using hne), if_neg hne,
      buildUp_eq hne _ 0 (by rw [takeChunks_eq]; rfl) (fun h => absurd rfl h)]
    rfl

theorem get_ofList (xs : List E) (idx : ℕ) : (ofList xs).get idx = xs[idx]? := by
  unfold Table.get ofList
  by_cases hlt : xs.length ≤ idx
  · rw [if_pos hlt, List.getElem?_eq_none hlt]
  · have hne : xs ≠ [] := by
      rintro rfl
      simp at hlt
    have hcap := le_capacity_heightOf xs.length
    rw [if_neg hlt]
    simp only [if_neg hne, Option.bind_some]
    rw [get_trie, Nat.mod_eq_of_lt (by omega)]

theorem set_ofList (xs : List E) (idx : ℕ) (item : E) :
    (ofList xs).set idx item = (ofList (xs.set idx item), decide (idx < xs.length)) := by
  have hlen : (ofList xs).len = xs.length := rfl
  unfold Table.set
  rw [hlen]
  by_cases hlt : xs.length ≤ idx
  · rw [if_pos hlt, List.set_eq_of_length_le hlt, decide_eq_false (by omega)]
  · have hne : xs ≠ [] := by
      rintro rfl
      simp at hlt
    have hcap := le_capacity_heightOf xs.length
    have hmod : idx % capacity (heightOf xs.length) = idx := Nat.mod_eq_of_lt (by omega)
    have hput := put_trie_set idx (heightOf xs.length) xs item (by omega)
    rw [hmod] at hput
    rw [if_neg hlt, decide_eq_true (by omega)]
    unfold ofList
    simp only [if_neg hne, Option.map_some, List.length_set, List.set_eq_nil_iff, hput]

theorem push_ofList (xs : List E) (item : E) : (ofList xs).push item = ofList (xs ++ [item]) := by
  have hroot : ∀ h, xs.length + 1 ≤ capacity h → (h ≠ 0 → capacity (h - 1) < xs.length + 1) →
      ∀ node, (node = if xs = [] then none else some (trie h xs)) →
      (⟨some (put xs.length item node h), h, xs.length + 1⟩ : Table E) = ofList (xs ++ [item]) := by
    intro h hcap hmin node hnode
    have hh : heightOf (xs.length + 1) = h := heightOf_eq hmin hcap
    have hput := put_trie_push xs.length h xs item (Nat.mod_eq_of_lt (by omega)) node hnode
    unfold ofList
    rw [if_neg (by simp), List.length_append, List.length_singleton, hh, hput]
  unfold Table.push
  by_cases hne : xs = []
  · subst hne
    exact hroot 0 (capacity_pos 0) (fun h => absurd rfl h) none rfl
  · have hcap := le_capacity_heightOf xs.length
    have hmin := fun h => capacity_heightOf_lt (n := xs.length) h
    have hold : ofList xs = ⟨some (trie (heightOf xs.length) xs), heightOf xs.length, xs.length⟩ := by
      rw [ofList, if_neg hne]
    rw [hold]
    simp only [shift_eq_capacity]
    by_cases hfull : capacity (heightOf xs.length) ≤ xs.length
    · rw [if_pos hfull]
      have heq : xs.length = capacity (heightOf xs.length) := by omega
      refine hroot _ ?_ ?_ _ ?_
      · have hpos := capacity_pos (heightOf xs.length)
        rw [capacity_succ, fanout_eq]
        omega
      · intro _
        rw [Nat.add_sub_cancel]
        omega
      · rw [if_neg hne, trie_of_length_le hne hcap]
    · rw [if_neg hfull]
      refine hroot _ (by omega) (fun h => ?_) _ (by rw [if_neg hne])
      have hlt := hmin h
      omega

lemma new_eq : (Table.new : Table E) = ofList [] := rfl

/-- Pushes from the empty table make the table of their items. -/
lemma foldl_push (xs : List E) : xs.foldl Table.push .new = ofList xs := by
  rw [new_eq]
  have key : ∀ ys : List E, xs.foldl Table.push (ofList ys) = ofList (ys ++ xs) := by
    induction xs with
    | nil => simp
    | cons x xs ih =>
      intro ys
      rw [List.foldl_cons, push_ofList, ih, List.append_assoc]
      rfl
  exact key []

/-! ## The shape -/

/-- A node at a level with `n` elements, packed to the left: all children but the last are full. -/
def Packed : ℕ → Node E → ℕ → Prop
  | 0, .leaf items, n => items.length = n ∧ 0 < n ∧ n ≤ fanout
  | level + 1, .inner children, n => children.length ≤ fanout ∧ ∃ full last,
      children = full ++ [last] ∧ (∀ node ∈ full, Packed level node (capacity level)) ∧
        capacity level * full.length < n ∧ Packed level last (n - capacity level * full.length)
  | _, _, _ => False

/-- A table has no root, or a packed one of the least height. -/
def Table.Shape (t : Table E) : Prop :=
  match t.root with
  | none => t.len = 0 ∧ t.height = 0
  | some root => Packed t.height root t.len ∧ t.len ≤ capacity t.height ∧
      (t.height ≠ 0 → capacity (t.height - 1) < t.len)

lemma packed_trie (level : ℕ) (xs : List E) (hne : xs ≠ []) (hl : xs.length ≤ capacity level) :
    Packed level (trie level xs) xs.length := by
  induction level generalizing xs with
  | zero => exact ⟨rfl, List.length_pos_iff.mpr hne, hl⟩
  | succ level ih =>
    have hpos := capacity_pos level
    have hlen := List.length_pos_iff.mpr hne
    -- The last chunk begins at a multiple of the capacity of a child.
    set q := (xs.length - 1) / capacity level with hq
    have hdiv := Nat.div_add_mod (xs.length - 1) (capacity level)
    rw [← hq] at hdiv
    have hmod := Nat.mod_lt (xs.length - 1) hpos
    have hlast : (chunks (capacity level) xs).drop q = [xs.drop (capacity level * q)] := by
      rw [drop_chunks hpos]
      refine chunks_of_length_le _ ?_ ?_
      · rw [Ne, List.drop_eq_nil_iff]
        omega
      · rw [List.length_drop]
        omega
    have hcount : ((chunks (capacity level) xs).take q).length = q := by
      have hdrop := congrArg List.length hlast
      rw [List.length_drop, List.length_singleton] at hdrop
      rw [List.length_take]
      omega
    rw [trie]
    refine ⟨?_, ((chunks (capacity level) xs).take q).map (trie level),
      trie level (xs.drop (capacity level * q)), ?_, ?_, ?_, ?_⟩
    · rw [List.length_map, length_chunks, ← Nat.lt_succ_iff, ← Nat.not_le, ← Nat.lt_iff_add_one_le,
        lt_ceil_iff hpos, Nat.not_lt, ← capacity_succ]
      exact hl
    · rw [← List.map_singleton, ← List.map_append, ← hlast, List.take_append_drop]
    · intro node hnode
      obtain ⟨c, hc, rfl⟩ := List.mem_map.mp hnode
      have hclen := length_of_mem_take hpos (by omega) hc
      rw [← hclen]
      refine ih c ?_ hclen.le
      rw [← List.length_pos_iff, hclen]
      exact hpos
    · rw [List.length_map, hcount]
      omega
    · rw [List.length_map, hcount, ← List.length_drop]
      refine ih _ ?_ ?_
      · rw [Ne, List.drop_eq_nil_iff]
        omega
      · rw [List.length_drop]
        omega

theorem shape_ofList (xs : List E) : (ofList xs).Shape := by
  unfold Table.Shape ofList
  by_cases hne : xs = []
  · rw [if_pos hne, hne]
    exact ⟨rfl, rfl⟩
  · rw [if_neg hne]
    have hcap := le_capacity_heightOf xs.length
    exact ⟨packed_trie _ xs hne hcap, hcap, capacity_heightOf_lt⟩

/-! ## Any number of versions -/

/-- What a caller does with its versions: it makes one, clones one, or changes one. -/
inductive Op (E : Type*) where
  | new
  | fromVec (items : List E)
  | clone (version : ℕ)
  | push (version : ℕ) (item : E)
  | set (version idx : ℕ) (item : E)

/-- The version that an operation changes. -/
def Op.changes : Op E → Option ℕ
  | .push k _ | .set k _ _ => some k
  | _ => none

/-- An operation on the versions. -/
def step (ts : List (Table E)) : Op E → List (Table E)
  | .new => ts ++ [.new]
  | .fromVec items => ts ++ [.fromVec items]
  | .clone k => ts ++ (ts[k]?).toList
  | .push k item => ts.modify k fun t => t.push item
  | .set k idx item => ts.modify k fun t => (t.set idx item).1

/-- The same operation on immutable sequences. -/
def denote (xss : List (List E)) : Op E → List (List E)
  | .new => xss ++ [[]]
  | .fromVec items => xss ++ [items]
  | .clone k => xss ++ (xss[k]?).toList
  | .push k item => xss.modify k fun xs => xs ++ [item]
  | .set k idx item => xss.modify k fun xs => xs.set idx item

/-- A version stands for a sequence. -/
structure Represents (t : Table E) (xs : List E) : Prop where
  len : t.len = xs.length
  get : ∀ idx, t.get idx = xs[idx]?
  set : ∀ idx item, (t.set idx item).2 = decide (idx < xs.length) ∧
    (xs.length ≤ idx → (t.set idx item).1 = t)
  shape : t.Shape
  /-- However it was built, it is the table that `from_vec` makes, and the one that pushes make. -/
  built : t = .fromVec xs ∧ t = xs.foldl Table.push .new

theorem represents_ofList (xs : List E) : Represents (ofList xs) xs where
  len := rfl
  get := get_ofList xs
  set idx item := by
    rw [set_ofList]
    refine ⟨rfl, fun hle => ?_⟩
    rw [List.set_eq_of_length_le hle]
  shape := shape_ofList xs
  built := ⟨(fromVec_eq xs).symm, (foldl_push xs).symm⟩

/-- A change of one version is the one of its sequence. -/
lemma modify_map {f : Table E → Table E} {g : List E → List E} (h : ∀ xs, f (ofList xs) = ofList (g xs))
    {xss : List (List E)} {k : ℕ} :
    (xss.map ofList).modify k f = (xss.modify k g).map ofList := by
  apply List.ext_getElem?
  intro i
  rw [List.getElem?_modify, List.getElem?_map, List.getElem?_map, List.getElem?_modify]
  cases xss[i]? with
  | none => rfl
  | some xs =>
    simp only [Option.map_some]
    split_ifs
    · exact congrArg some (h xs)
    · rfl

/-- An operation on versions is the one on their sequences. -/
lemma step_map (xss : List (List E)) (op : Op E) :
    step (xss.map ofList) op = (denote xss op).map ofList := by
  cases op with
  | new => simp only [step, denote, List.map_append, List.map_singleton, new_eq]
  | fromVec items => simp only [step, denote, List.map_append, List.map_singleton, fromVec_eq]
  | clone k =>
    simp only [step, denote, List.map_append, List.getElem?_map]
    cases xss[k]? <;> rfl
  | push k item =>
    simp only [step, denote]
    exact modify_map fun xs => push_ofList xs item
  | set k idx item =>
    simp only [step, denote]
    exact modify_map fun xs => by rw [set_ofList]

/-- Whatever the operations, every version is the table of the sequence that it denotes. -/
lemma run_map (ops : List (Op E)) (xss : List (List E)) :
    ops.foldl step (xss.map ofList) = (ops.foldl denote xss).map ofList := by
  induction ops generalizing xss with
  | nil => rfl
  | cons op ops ih => rw [List.foldl_cons, List.foldl_cons, step_map, ih]

/-- An operation leaves the versions alone that it does not change. -/
lemma step_others (ts : List (Table E)) (op : Op E) {k : ℕ} (hk : op.changes ≠ some k)
    (hlt : k < ts.length) : (step ts op)[k]? = ts[k]? := by
  cases op with
  | new | fromVec | clone => exact List.getElem?_append_left hlt
  | push j item | set j idx item =>
    have hne : j ≠ k := fun he => hk (congrArg some he)
    exact List.getElem?_modify_ne _ _ hne

/-- Over any sequence of operations on any number of versions, every version stands for its
sequence, and an operation on one leaves what every other one answers. -/
theorem versions_exact (ops : List (Op E)) :
    (∀ (k : ℕ) t, (ops.foldl step [])[k]? = some t →
      ∃ xs, (ops.foldl denote [])[k]? = some xs ∧ Represents t xs) ∧
    (ops.foldl step ([] : List (Table E))).length = (ops.foldl denote []).length ∧
    ∀ (op : Op E) (k : ℕ), op.changes ≠ some k → k < (ops.foldl step []).length →
      (step (ops.foldl step []) op)[k]? = (ops.foldl step [])[k]? := by
  have hrun : ops.foldl step ([] : List (Table E)) = (ops.foldl denote []).map ofList :=
    run_map ops []
  refine ⟨fun k t ht => ?_, by rw [hrun, List.length_map], fun op k => step_others _ op⟩
  rw [hrun, List.getElem?_map, Option.map_eq_some_iff] at ht
  obtain ⟨xs, hxs, rfl⟩ := ht
  exact ⟨xs, hxs, represents_ofList xs⟩

end PageTable

end SeferAlloc
