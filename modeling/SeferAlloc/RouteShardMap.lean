import SeferAlloc.RouteShard

/-!
# The shard as a finite map

The linked blocks are nonempty and hold the entries in the order of their keys.
A lookup finds the place of a key among them; an insert puts its entry at that
place and a removal takes it out, so that the shard is the map of the entries
inserted last. Splits and merges move no entry past another.
-/
namespace SeferAlloc
namespace RouteShard
open SortedBlocks

/-- The order of the entries. -/
def Before (e f : Entry) : Prop := e.key < f.key

namespace Shard

/-- The linked blocks. -/
def blocks (s : Shard) : List (List Entry) := s.index.map s.block

def entries (s : Shard) : List Entry := s.blocks.flatten

/-- The map that the entries are. -/
def lookup (s : Shard) : ℕ → Option Entry := assoc Entry.key s.entries

/-- The linked blocks are sorted, not empty and not too short; names are used once. -/
structure Wf (s : Shard) : Prop where
  sorted : Blocks blockHalf Before s.blocks
  nodup : s.index.Nodup
  spare : ∀ b, s.spare = some b → b ∉ s.index ∧ s.block b = []
  used : ∀ b, b ∈ s.index ∨ s.spare = some b → b < s.fresh
  room : s.index.length ≤ s.cap
  layout : layoutFits s.cap

/-! ## Tables of blocks -/

lemma map_update_of_not_mem {f : ℕ → List Entry} {b : ℕ} {v : List Entry} {P : List ℕ}
    (h : b ∉ P) : P.map (Function.update f b v) = P.map f := by
  refine List.map_congr_left fun c hc => Function.update_of_ne ?_ _ _
  rintro rfl
  exact h hc

variable {s : Shard} {P Q : List ℕ} {b : ℕ} {l m : List Entry} {key : ℕ}

/-- A linked block is in none of the other places of the index. -/
lemma Wf.not_mem (h : Wf s) (hidx : s.index = P ++ b :: Q) : b ∉ P ∧ b ∉ Q := by
  have := h.nodup
  rw [hidx, List.nodup_append, List.nodup_cons] at this
  exact ⟨fun hb => this.2.2 b hb b List.mem_cons_self rfl, this.2.1.1⟩

lemma blocks_eq (hidx : s.index = P ++ b :: Q) :
    s.blocks = P.map s.block ++ s.block b :: Q.map s.block := by
  rw [blocks, hidx, List.map_append, List.map_cons]

/-! ## Lookup -/

/-- The place of a key in a sorted block. -/
lemma blockFind_spec {bl : List Entry} (hs : bl.Pairwise Before) (key : ℕ) :
    ∃ l m, bl = l ++ m ∧ (∀ e ∈ l, e.key < key) ∧
      ((∃ e m', m = e :: m' ∧ e.key = key ∧ blockFind bl key = some (.ok l.length)) ∨
        (∀ e ∈ m, key < e.key) ∧ blockFind bl key = some (.error l.length)) := by
  obtain ⟨l, m, rfl, hl, hm⟩ := Bisection.exists_cut (q := fun e => decide (e.key < key)) hs
    fun e _ f _ hef hf => by
      simp only [Before, decide_eq_true_eq] at hef hf ⊢
      omega
  have hsearch := Bisection.search_append (p := fun mid =>
    (keyAt (l ++ m) mid).map fun k => decide (k < key)) (fun i e he => by simp [keyAt, he]) hl hm
  refine ⟨l, m, rfl, by simpa using hl, ?_⟩
  rw [blockFind, hsearch]
  dsimp only
  cases m with
  | nil => exact .inr ⟨by simp, by simp⟩
  | cons e m =>
      have he := hm e List.mem_cons_self
      have hkey : keyAt (l ++ e :: m) l.length = some e.key := by simp [keyAt]
      rw [hkey]
      by_cases heq : e.key = key
      · exact .inl ⟨e, m, rfl, heq, by simp [heq]⟩
      · refine .inr ⟨fun f hf => ?_, by simp [heq]⟩
        have hef : e.key ≤ f.key := by
          obtain rfl | hf := List.mem_cons.mp hf
          · exact Nat.le_refl _
          · rw [List.pairwise_append] at hs
            exact Nat.le_of_lt ((List.pairwise_cons.mp hs.2.1).1 f hf)
        simp only [decide_eq_false_iff_not] at he
        omega

/-- Whether a block begins at or below a key. -/
def beginsBelow (key : ℕ) : List Entry → Bool
  | [] => false
  | e :: _ => decide (e.key ≤ key)

/-- The place of a key among the blocks: what is before has lower keys, and what is at or after
has higher ones, the entry of the key apart. -/
lemma locate_spec (h : Wf s) (hne : s.index ≠ []) (key : ℕ) :
    ∃ P b Q l m, s.index = P ++ b :: Q ∧ s.block b = l ++ m ∧
      (∀ e ∈ (P.map s.block).flatten ++ l, e.key < key) ∧
      ((∃ e m', m = e :: m' ∧ e.key = key ∧
          s.locate key = some (some (P.length, .ok l.length))) ∨
        (∀ e ∈ m ++ (Q.map s.block).flatten, key < e.key) ∧
          s.locate key = some (some (P.length, .error l.length))) := by
  have hsorted := List.pairwise_flatten.mp h.sorted.sorted
  have hcross : s.index.Pairwise fun b c => ∀ e ∈ s.block b, ∀ f ∈ s.block c, Before e f :=
    List.pairwise_map.mp hsorted.2
  have hnonempty : ∀ b ∈ s.index, s.block b ≠ [] := fun b hb =>
    h.sorted.nonempty _ (List.mem_map_of_mem hb)
  obtain ⟨A, B, hidx, hA, hB⟩ := Bisection.exists_cut
    (q := fun b => beginsBelow key (s.block b)) hcross fun b hb c hc hbc hq => by
      obtain ⟨e, bl, he⟩ := List.exists_cons_of_ne_nil (hnonempty b hb)
      obtain ⟨f, cl, hf⟩ := List.exists_cons_of_ne_nil (hnonempty c hc)
      have := hbc e (by simp [he]) f (by simp [hf])
      simp only [he, hf, beginsBelow, Before, decide_eq_true_eq] at this hq ⊢
      omega
  have hsearch : Bisection.search (fun mid => (s.index[mid]?).bind fun b =>
      (keyAt (s.block b) 0).map fun k => decide (k ≤ key)) 0 s.index.length = some A.length := by
    rw [hidx]
    refine Bisection.search_append (fun i b hb => ?_) hA hB
    have hmem : b ∈ s.index := hidx ▸ List.mem_of_getElem? hb
    obtain ⟨e, bl, he⟩ := List.exists_cons_of_ne_nil (hnonempty b hmem)
    simp [hb, keyAt, he, beginsBelow]
  -- The block is the last that begins at or below the key, or the first one.
  obtain ⟨P, b, Q, hidx', hlen, hP, hQ⟩ : ∃ P b Q, s.index = P ++ b :: Q ∧
      A.length - 1 = P.length ∧ (∀ e ∈ (P.map s.block).flatten, e.key < key) ∧
        ∀ e ∈ (Q.map s.block).flatten, key < e.key := by
    have high : ∀ Q : List ℕ, (∀ c ∈ Q, c ∈ B) → ∀ e ∈ (Q.map s.block).flatten, key < e.key := by
      intro Q hQ e he
      obtain ⟨bl, hbl, he⟩ := List.mem_flatten.mp he
      obtain ⟨c, hc, rfl⟩ := List.mem_map.mp hbl
      have hmem : c ∈ s.index := hidx ▸ List.mem_append_right _ (hQ c hc)
      obtain ⟨f, fl, hf⟩ := List.exists_cons_of_ne_nil (hnonempty c hmem)
      have hq := hB c (hQ c hc)
      have hs := hsorted.1 _ (List.mem_map_of_mem hmem)
      simp only [hf, beginsBelow, decide_eq_false_iff_not] at hq
      rw [hf] at hs he
      obtain rfl | he := List.mem_cons.mp he
      · omega
      · have : Before f e := (List.pairwise_cons.mp hs).1 e he
        unfold Before at this
        omega
    obtain rfl | hAne := A.eq_nil_or_concat
    · obtain ⟨b, Q, rfl⟩ := List.exists_cons_of_ne_nil (l := B) (by simpa [hidx] using hne)
      exact ⟨[], b, Q, hidx, rfl, by simp, high Q fun c hc => List.mem_cons_of_mem _ hc⟩
    · obtain ⟨P, b, rfl⟩ := hAne
      refine ⟨P, b, B, by simpa using hidx, by simp, fun e he => ?_, high B fun _ => id⟩
      obtain ⟨bl, hbl, he⟩ := List.mem_flatten.mp he
      obtain ⟨c, hc, rfl⟩ := List.mem_map.mp hbl
      have hb := hA b (by simp)
      have hmem : b ∈ s.index := by simp [hidx]
      obtain ⟨f, fl, hf⟩ := List.exists_cons_of_ne_nil (hnonempty b hmem)
      rw [hidx, List.concat_eq_append, List.append_assoc, List.pairwise_append] at hcross
      have : Before e f := hcross.2.2 c hc b (by simp) e he f (by simp [hf])
      simp only [hf, beginsBelow, decide_eq_true_eq] at hb
      unfold Before at this
      omega
  have hget : s.index[A.length - 1]? = some b := by simp [hidx', hlen]
  obtain ⟨l, m, hbl, hl, hfound⟩ := blockFind_spec (hsorted.1 _ (List.mem_map_of_mem
    (by simp [hidx'] : b ∈ s.index))) key
  refine ⟨P, b, Q, l, m, hidx', hbl, fun e he => ?_, ?_⟩
  · obtain he | he := List.mem_append.mp he
    · exact hP e he
    · exact hl e he
  · have hlocate : s.locate key =
        (blockFind (s.block b) key).map fun found => some (P.length, found) := by
      rw [locate, if_neg (by simpa using hne), hsearch]
      dsimp only
      rw [hget, hlen, Option.bind_some]
    rw [hlocate]
    obtain ⟨e, m', hm, he, hfind⟩ | ⟨hm, hfind⟩ := hfound
    · exact .inl ⟨e, m', hm, he, by rw [hfind]; rfl⟩
    · refine .inr ⟨fun e he => ?_, by rw [hfind]; rfl⟩
      obtain he | he := List.mem_append.mp he
      · exact hm e he
      · exact hQ e he

/-- The entries around a linked block. -/
lemma entries_eq (hidx : s.index = P ++ b :: Q) (hbl : s.block b = l ++ m) :
    s.entries = ((P.map s.block).flatten ++ l) ++ (m ++ (Q.map s.block).flatten) := by
  simp [entries, blocks_eq hidx, hbl]

/-- No other entry has the key of one that is indexed. -/
lemma key_ne_of_before {A B : List Entry} {e : Entry} (h : (A ++ e :: B).Pairwise Before) :
    (∀ f ∈ A, f.key ≠ e.key) ∧ ∀ f ∈ B, f.key ≠ e.key := by
  rw [List.pairwise_append, List.pairwise_cons] at h
  refine ⟨fun f hf heq => ?_, fun f hf heq => ?_⟩
  · have : Before f e := h.2.2 f hf e List.mem_cons_self
    unfold Before at this
    omega
  · have : Before e f := h.2.1.1 f hf
    unfold Before at this
    omega

/-- `find` is the lookup of the map. -/
theorem find_eq (h : Wf s) (key : ℕ) : s.find key = some (s.lookup key) := by
  by_cases hne : s.index = []
  · simp [find, locate, hne, lookup, entries, blocks, assoc]
  · obtain ⟨P, b, Q, l, m, hidx, hbl, hlow, ⟨e, m', rfl, rfl, hloc⟩ | ⟨hhigh, hloc⟩⟩ :=
      locate_spec h hne key
    · rw [find, hloc, lookup, entries_eq hidx hbl]
      have hfound : assoc Entry.key (((P.map s.block).flatten ++ l) ++
          e :: (m' ++ (Q.map s.block).flatten)) e.key = some e := by
        rw [assoc_insert fun f hf => Nat.ne_of_lt (hlow f hf), Function.update_self]
      rw [List.cons_append, hfound]
      simp [hidx, hbl]
    · rw [find, hloc, lookup, entries_eq hidx hbl]
      dsimp only
      refine congrArg some (Eq.symm (assoc_eq_none fun f hf => ?_))
      obtain hf | hf := List.mem_append.mp hf
      · exact Nat.ne_of_lt (hlow f hf)
      · exact Nat.ne_of_gt (hhigh f hf)

/-! ## Insertion -/

lemma blocks_setBlock (h : Wf s) (hidx : s.index = P ++ b :: Q) (v : List Entry) :
    (s.setBlock b v).blocks = P.map s.block ++ v :: Q.map s.block := by
  obtain ⟨hP, hQ⟩ := h.not_mem hidx
  rw [blocks_eq (s := s.setBlock b v) hidx]
  simp only [setBlock, Function.update_self, map_update_of_not_mem hP, map_update_of_not_mem hQ]

/-- An index is to grow unless it has room. -/
lemma indexCapNeeded_eq_zero : s.indexCapNeeded = 0 ↔ s.index.length < s.cap := by
  unfold indexCapNeeded initialIndexCap usizeMax
  split_ifs with hlt hcap
  · simp [hlt]
  · simp [hcap]
  · simp only [hlt, iff_false]
    omega

/-- What an insert of `e` that is done has made of the shard. -/
structure Inserted (s s' : Shard) (e : Entry) : Prop where
  wf : Wf s'
  lookup : s'.lookup = Function.update s.lookup e.key (some e)

/-- An entry goes into a block that has room. -/
lemma insertAt_spec (h : Wf s) (hidx : s.index = P ++ b :: Q) (hbl : s.block b = l ++ m)
    (hroom : (l ++ m).length < blockCap) {e : Entry}
    (hlow : ∀ f ∈ (P.map s.block).flatten ++ l, f.key < e.key)
    (hhigh : ∀ f ∈ m ++ (Q.map s.block).flatten, e.key < f.key) :
    ∃ s', s.insertAt b l.length e = some s' ∧ Inserted s s' e := by
  have hnot : ¬ ((s.block b).length = blockCap ∨ l.length > (s.block b).length) := by
    rw [hbl]
    simp only [List.length_append] at hroom ⊢
    omega
  have hblocks := blocks_setBlock h hidx (l ++ e :: m)
  refine ⟨s.setBlock b (l ++ e :: m), ?_, ⟨?_, h.nodup, fun c hc => ?_, h.used, h.room, h.layout⟩, ?_⟩
  · rw [insertAt, if_neg hnot, hbl, insertIdx_append_length]
  · rw [hblocks]
    refine Blocks.insert ?_ (by simpa [blockHalf, blockCap] using hroom) hlow hhigh
    rw [← hbl, ← blocks_eq hidx]
    exact h.sorted
  · obtain ⟨hlinked, hempty⟩ := h.spare c hc
    have hcb : c ≠ b := by
      rintro rfl
      exact hlinked (by simp [hidx])
    exact ⟨hlinked, (Function.update_of_ne hcb _ _).trans hempty⟩
  · have hentries : (s.setBlock b (l ++ e :: m)).entries =
        ((P.map s.block).flatten ++ l) ++ e :: (m ++ (Q.map s.block).flatten) := by
      simp [entries, hblocks]
    rw [lookup, hentries, assoc_insert fun f hf => Nat.ne_of_lt (hlow f hf), lookup,
      entries_eq hidx hbl]

/-- The first entry goes into the spare block. -/
lemma first_spec (h : Wf s) (hidx : s.index = []) {fresh : ℕ} (hspare : s.spare = some fresh)
    (hroom : s.index.length < s.cap) (e : Entry) :
    ∃ s', ((s.target true 0 0).bind fun (s, b, pos) => s.insertAt b pos e) = some s' ∧
      Inserted s s' e := by
  obtain ⟨hlinked, hempty⟩ := h.spare fresh hspare
  have hnot : ¬ (s.index.length = s.cap ∨ 0 > s.index.length) := by omega
  have htarget : s.target true 0 0 =
      some ({ s with spare := none, index := [fresh] }, fresh, 0) := by
    simp [target, hspare, hidx, indexInsert] at hnot ⊢
    exact hnot
  refine ⟨({ s with spare := none, index := [fresh] } : Shard).setBlock fresh [e], ?_,
    ⟨?_, by simp [setBlock], by simp [setBlock], fun b hb => ?_, ?_, h.layout⟩, ?_⟩
  · rw [htarget, Option.bind_some]
    simp [insertAt, hempty, blockCap]
  · have hblocks : (({ s with spare := none, index := [fresh] } : Shard).setBlock fresh [e]).blocks =
        [[e]] := by
      simp [blocks, setBlock]
    rw [hblocks]
    exact Blocks.singleton (by decide) e
  · simp only [setBlock, List.mem_singleton, reduceCtorEq, or_false] at hb
    subst b
    exact h.used fresh (.inr hspare)
  · simp only [setBlock, List.length_singleton]
    omega
  · simp only [lookup, entries, blocks, setBlock, hidx, List.map_cons, List.map_nil,
      Function.update_self, List.flatten_cons, List.flatten_nil, List.append_nil]
    exact assoc_insert (a := []) (by simp)

/-- A full block gives its upper half to the spare block. -/
lemma split_spec (h : Wf s) (hidx : s.index = P ++ b :: Q) (hfull : (s.block b).length = blockCap)
    {fresh : ℕ} (hspare : s.spare = some fresh) (hroom : s.index.length < s.cap) :
    ∃ s₁, (({ s with spare := none } : Shard).splitInto b fresh).bind
        (fun s => s.indexInsert (P.length + 1) fresh) = some s₁ ∧ Wf s₁ ∧
      s₁.entries = s.entries ∧ s₁.index = P ++ b :: fresh :: Q ∧
      s₁.block b = (s.block b).take blockHalf ∧ s₁.block fresh = (s.block b).drop blockHalf ∧
      P.map s₁.block = P.map s.block ∧ Q.map s₁.block = Q.map s.block := by
  obtain ⟨hlinked, hempty⟩ := h.spare fresh hspare
  obtain ⟨hbP, hbQ⟩ := h.not_mem hidx
  have hfresh : fresh ∉ P ∧ fresh ≠ b ∧ fresh ∉ Q := by simpa [hidx] using hlinked
  obtain ⟨hfP, hfb, hfQ⟩ := hfresh
  set A := (s.block b).take blockHalf with hA
  set B := (s.block b).drop blockHalf with hB
  set f := Function.update (Function.update s.block b A) fresh B with hf
  have hfb' : f b = A := by rw [hf, Function.update_of_ne (Ne.symm hfb), Function.update_self]
  have hff : f fresh = B := Function.update_self _ _ _
  have hfP' : P.map f = P.map s.block := by
    rw [hf, map_update_of_not_mem hfP, map_update_of_not_mem hbP]
  have hfQ' : Q.map f = Q.map s.block := by
    rw [hf, map_update_of_not_mem hfQ, map_update_of_not_mem hbQ]
  have hAB : A ++ B = s.block b := List.take_append_drop _ _
  have hsplit : ({ s with spare := none } : Shard).splitInto b fresh =
      some { s with spare := none, block := f } := by
    simp [splitInto, hempty, hfull, setBlock, hf, hA, hB]
  have hinsert : ({ s with spare := none, block := f } : Shard).indexInsert (P.length + 1) fresh =
      some { s with spare := none, block := f, index := P ++ b :: fresh :: Q } := by
    have hins : s.index.insertIdx (P.length + 1) fresh = P ++ b :: fresh :: Q := by
      rw [hidx, ← List.singleton_append, ← List.append_assoc]
      have := insertIdx_append_length (a := P ++ [b]) (b := Q) (x := fresh)
      simpa using this
    have hnot : ¬ (s.index.length = s.cap ∨ P.length + 1 > s.index.length) := by
      have : s.index.length = P.length + (Q.length + 1) := by simp [hidx]
      omega
    rw [indexInsert, if_neg hnot, hins]
  have hblocks : ({ s with spare := none, block := f, index := P ++ b :: fresh :: Q } :
      Shard).blocks = P.map s.block ++ A :: B :: Q.map s.block := by
    simp [blocks, hfb', hff, hfP', hfQ']
  refine ⟨{ s with spare := none, block := f, index := P ++ b :: fresh :: Q }, ?_,
    ⟨?_, ?_, by simp, fun c hc => ?_, ?_, h.layout⟩, ?_, rfl, hfb', hff, hfP', hfQ'⟩
  · rw [hsplit, Option.bind_some, hinsert]
  · rw [hblocks]
    refine Blocks.split ?_ (by decide) ?_ ?_
    · rw [hAB, ← blocks_eq hidx]
      exact h.sorted
    · simp [hA, hfull, blockHalf, blockCap]
    · simp [hB, hfull, blockHalf, blockCap]
  · have := h.nodup
    rw [hidx] at this
    simp only [List.nodup_append, List.nodup_cons, List.mem_cons] at this ⊢
    grind
  · refine h.used c ?_
    simp only [List.mem_append, List.mem_cons, reduceCtorEq, or_false] at hc
    rw [hidx, hspare]
    simp only [List.mem_append, List.mem_cons, Option.some.injEq]
    tauto
  · have : s.index.length = P.length + (Q.length + 1) := by simp [hidx]
    simp only [List.length_append, List.length_cons]
    omega
  · rw [entries, hblocks, entries, blocks_eq hidx, ← hAB]
    simp

/-- An insert behind its lookup: the place is linked, or nothing is. -/
lemma insertAtPos_spec (h : Wf s) (hidx : s.index = P ++ b :: Q) (hbl : s.block b = l ++ m)
    {e : Entry} (hlow : ∀ f ∈ (P.map s.block).flatten ++ l, f.key < e.key)
    (hhigh : ∀ f ∈ m ++ (Q.map s.block).flatten, e.key < f.key) :
    (∃ s', s.insertAtPos P.length l.length e = some (s', .done) ∧ Inserted s s' e) ∨
      (s.spare = none ∨ ¬ s.index.length < s.cap) ∧ s.insertAtPos P.length l.length e =
        some (s, .need (decide (s.spare = none)) s.indexCapNeeded) := by
  have hget : s.index[P.length]? = some b := by simp [hidx]
  have hne : s.index.length ≠ 0 := by simp [hidx]
  unfold insertAtPos
  simp only [hget, Option.map_some, Option.some.injEq, hne, false_or]
  by_cases hfull : (s.block b).length = blockCap
  · by_cases hneed : s.spare = none ∨ s.indexCapNeeded ≠ 0
    · rw [if_pos ⟨hfull, hneed⟩]
      exact .inr ⟨hneed.imp id (fun hc => fun hlt => hc (indexCapNeeded_eq_zero.mpr hlt)), rfl⟩
    · rw [if_neg fun hc => hneed hc.2]
      left
      push Not at hneed
      obtain ⟨fresh, hspare⟩ := Option.ne_none_iff_exists'.mp hneed.1
      obtain ⟨s₁, hs₁, hwf, hentries, hidx₁, hb₁, hf₁, hP₁, hQ₁⟩ :=
        split_spec h hidx hfull hspare (indexCapNeeded_eq_zero.mp hneed.2)
      have htarget : s.target true P.length l.length =
          some (if l.length ≤ blockHalf then (s₁, b, l.length)
            else (s₁, fresh, l.length - blockHalf)) := by
        rw [target, if_neg (by simp), hspare]
        dsimp only
        rw [if_neg hne, hget, Option.bind_some]
        obtain ⟨s₂, hs₂, hins⟩ := Option.bind_eq_some_iff.mp hs₁
        rw [hs₂, Option.bind_some, hins, Option.map_some]
      rw [decide_eq_true hfull, htarget, Option.bind_some]
      have hlookup : s₁.lookup = s.lookup := by rw [lookup, hentries, lookup]
      have hlen : (l ++ m).length = 2 * blockHalf := by rw [← hbl, hfull]; rfl
      split_ifs with hpos
      · obtain ⟨s', hs', hwf', hl'⟩ := insertAt_spec (l := l) (m := m.take (blockHalf - l.length))
          hwf hidx₁ (by rw [hb₁, hbl, List.take_append, List.take_of_length_le hpos])
          (by simp [blockCap, blockHalf] at hpos ⊢; omega) (by rwa [hP₁]) (by
            intro f hf
            refine hhigh f ?_
            rw [List.map_cons, hQ₁, hf₁, hbl, List.drop_append, List.drop_of_length_le hpos,
              List.flatten_cons, List.nil_append, ← List.append_assoc, List.take_append_drop] at hf
            exact hf)
        exact ⟨s', by simp [hs'], hwf', hlookup ▸ hl'⟩
      · have hlt : blockHalf < l.length := by omega
        have hlen₁ : (l.drop blockHalf).length = l.length - blockHalf := List.length_drop
        obtain ⟨s', hs', hwf', hl'⟩ := insertAt_spec (P := P ++ [b]) (l := l.drop blockHalf)
          (m := m) hwf (by simpa using hidx₁)
          (by rw [hf₁, hbl, List.drop_append_of_le_length (Nat.le_of_lt hlt)])
          (by
            simp only [List.length_append, List.length_drop, blockCap, blockHalf] at hlen hlt ⊢
            omega)
          (by
            intro f hf
            refine hlow f ?_
            rw [List.map_append, hP₁, List.map_singleton, hb₁, hbl,
              List.take_append_of_le_length (Nat.le_of_lt hlt), List.flatten_append,
              List.flatten_singleton, List.append_assoc, List.take_append_drop] at hf
            exact hf) (by rwa [hQ₁])
        rw [hlen₁] at hs'
        exact ⟨s', by simp [hs'], hwf', hlookup ▸ hl'⟩
  · rw [if_neg fun hc => hfull hc.1]
    left
    have hle : (s.block b).length ≤ blockCap :=
      h.sorted.short _ (List.mem_map_of_mem (by simp [hidx]))
    obtain ⟨s', hs', hins⟩ := insertAt_spec h hidx hbl
      (by rw [← hbl]; exact Nat.lt_of_le_of_ne hle hfull) hlow hhigh
    refine ⟨s', ?_, hins⟩
    rw [decide_eq_false hfull, target, if_pos rfl, hget]
    simp [hs']

/-- What an insert may do: it refuses a key that is present; or it puts the entry in; or it asks
for what it lacks, a spare block or room in the index, and leaves the shard. -/
theorem insert_spec (h : Wf s) (e : Entry) :
    (s.lookup e.key ≠ none ∧ s.insert e.key e = some (s, .duplicate)) ∨
    (s.lookup e.key = none ∧ ∃ s', s.insert e.key e = some (s', .done) ∧ Inserted s s' e) ∨
    s.lookup e.key = none ∧ (s.spare = none ∨ ¬ s.index.length < s.cap) ∧
      s.insert e.key e = some (s, .need (decide (s.spare = none)) s.indexCapNeeded) := by
  by_cases hne : s.index = []
  · have habsent : s.lookup e.key = none := by simp [lookup, entries, blocks, hne, assoc]
    have hinsert : s.insert e.key e = s.insertAtPos 0 0 e := by
      simp [insert, locate, hne]
    rw [hinsert]
    unfold insertAtPos
    simp only [hne, List.length_nil, true_or, true_and, decide_true]
    by_cases hneed : s.spare = none ∨ s.indexCapNeeded ≠ 0
    · rw [if_pos hneed]
      have hwhy := hneed.imp id fun hc => fun hlt => hc (indexCapNeeded_eq_zero.mpr hlt)
      rw [hne] at hwhy
      exact .inr (.inr ⟨habsent, hwhy, rfl⟩)
    · rw [if_neg hneed]
      push Not at hneed
      obtain ⟨fresh, hspare⟩ := Option.ne_none_iff_exists'.mp hneed.1
      obtain ⟨s', hs', hins⟩ := first_spec h hne hspare (indexCapNeeded_eq_zero.mp hneed.2) e
      refine .inr (.inl ⟨habsent, s', ?_, hins⟩)
      obtain ⟨t, ht, hat⟩ := Option.bind_eq_some_iff.mp hs'
      simp [ht, hat]
  · obtain ⟨P, b, Q, l, m, hidx, hbl, hlow, ⟨f, m', rfl, hkey, hloc⟩ | ⟨hhigh, hloc⟩⟩ :=
      locate_spec h hne e.key
    · refine .inl ⟨?_, by rw [insert, hloc]⟩
      have hfind := find_eq h e.key
      rw [find, hloc] at hfind
      simp only [hidx, List.getElem?_append_right, Nat.le_refl, Nat.sub_self,
        List.getElem?_cons_zero, Option.bind_some, hbl, Option.map_some, Option.some.injEq] at hfind
      rw [← hfind]
      simp
    · right
      have habsent : s.lookup e.key = none := by
        rw [lookup, entries_eq hidx hbl]
        refine assoc_eq_none fun f hf => ?_
        obtain hf | hf := List.mem_append.mp hf
        · exact Nat.ne_of_lt (hlow f hf)
        · exact Nat.ne_of_gt (hhigh f hf)
      have hinsert : s.insert e.key e = s.insertAtPos P.length l.length e := by
        rw [insert, hloc]
      rw [hinsert]
      exact (insertAtPos_spec h hidx hbl hlow hhigh).imp (⟨habsent, ·⟩) (⟨habsent, ·⟩)

/-- An installation leaves the entries; it fills the spare place if a block is brought, and makes
room in the index if a longer index is brought. -/
lemma install_spec (h : Wf s) (block : Bool) (indexCap : Option ℕ)
    (hfits : ∀ cap, indexCap = some cap → layoutFits cap) :
    ∃ s', s.install block indexCap = some s' ∧ Wf s' ∧ s'.lookup = s.lookup ∧
      s'.index = s.index ∧ (s.spare ≠ none ∨ block = true → s'.spare ≠ none) ∧
      s.cap ≤ s'.cap ∧
      ∀ cap, indexCap = some cap → s.index.length < cap → s'.index.length < s'.cap := by
  obtain ⟨s₁, hs₁, hwf, hlookup, hidx, hspare, hcap⟩ : ∃ s₁,
      (if block = true ∧ s.spare = none then
        { s.setBlock s.fresh [] with spare := some s.fresh, fresh := s.fresh + 1 } else s) = s₁ ∧
      Wf s₁ ∧ s₁.lookup = s.lookup ∧ s₁.index = s.index ∧
      (s.spare ≠ none ∨ block = true → s₁.spare ≠ none) ∧ s₁.cap = s.cap := by
    split_ifs with hc
    · have hnew : s.fresh ∉ s.index := fun hmem => Nat.lt_irrefl _ (h.used _ (.inl hmem))
      have hblocks : s.index.map (Function.update s.block s.fresh []) = s.blocks :=
        map_update_of_not_mem hnew
      refine ⟨_, rfl, ⟨?_, h.nodup, fun b hb => ?_, fun b hb => ?_, h.room, h.layout⟩, ?_, rfl,
        fun _ => by simp, rfl⟩
      · change Blocks blockHalf Before (s.index.map (Function.update s.block s.fresh []))
        rw [hblocks]
        exact h.sorted
      · obtain rfl := Option.some.inj hb
        exact ⟨hnew, Function.update_self _ _ _⟩
      · obtain hb | hb := hb
        · exact Nat.lt_succ_of_lt (h.used b (.inl hb))
        · obtain rfl := Option.some.inj hb
          exact Nat.lt_succ_self _
      · change assoc Entry.key (s.index.map (Function.update s.block s.fresh [])).flatten = _
        rw [hblocks]
        rfl
    · refine ⟨s, rfl, h, rfl, rfl, fun hs => ?_, rfl⟩
      tauto
  unfold install
  rw [hs₁]
  cases indexCap with
  | none => exact ⟨s₁, rfl, hwf, hlookup, hidx, hspare, hcap.ge, by simp⟩
  | some cap =>
      dsimp only
      split_ifs with hfull hsmall
      · have := hwf.room
        omega
      · refine ⟨_, rfl, ⟨hwf.sorted, hwf.nodup, hwf.spare, hwf.used, ?_, hfits cap rfl⟩, hlookup,
          hidx, hspare, ?_, fun c hc hlt => ?_⟩
        · exact Nat.le_of_not_lt hsmall
        · simp only
          omega
        · obtain rfl := Option.some.inj hc
          rw [hidx]
          exact hlt
      · refine ⟨s₁, rfl, hwf, hlookup, hidx, hspare, hcap.ge, fun c hc hlt => ?_⟩
        obtain rfl := Option.some.inj hc
        have := hwf.room
        rw [← hidx] at hlt
        omega

/-! ## Removal -/

/-- The facts of `Wf` about names and room. -/
structure Names (s : Shard) : Prop where
  nodup : s.index.Nodup
  spare : ∀ b, s.spare = some b → b ∉ s.index ∧ s.block b = []
  used : ∀ b, b ∈ s.index ∨ s.spare = some b → b < s.fresh
  room : s.index.length ≤ s.cap
  layout : layoutFits s.cap

lemma Wf.names (h : Wf s) : Names s := ⟨h.nodup, h.spare, h.used, h.room, h.layout⟩

lemma Names.wf (h : Names s) (hs : Blocks blockHalf Before s.blocks) : Wf s :=
  ⟨hs, h.nodup, h.spare, h.used, h.room, h.layout⟩

lemma Names.not_mem (h : Names s) (hidx : s.index = P ++ b :: Q) : b ∉ P ∧ b ∉ Q := by
  have := h.nodup
  rw [hidx, List.nodup_append, List.nodup_cons] at this
  exact ⟨fun hb => this.2.2 b hb b List.mem_cons_self rfl, this.2.1.1⟩

/-- Names stay good when linked blocks change. -/
lemma Names.blocks (h : Names s) {f : ℕ → List Entry} (hf : ∀ c, c ∉ s.index → f c = s.block c) :
    Names { s with block := f } := by
  refine ⟨h.nodup, fun c hc => ?_, h.used, h.room, h.layout⟩
  obtain ⟨hlinked, hempty⟩ := h.spare c hc
  exact ⟨hlinked, (hf c hlinked).trans hempty⟩

/-- The retired blocks are neither linked nor kept as the spare one. -/
def Gone (s : Shard) (retired : List ℕ) : Prop :=
  retired.Nodup ∧ ∀ b ∈ retired, b ∉ s.index ∧ s.spare ≠ some b

/-- What a merge, or the unlinking of an empty block, does besides moving entries. -/
structure Settles (s : Shard) (retired : List ℕ) (s' : Shard) (retired' : List ℕ) : Prop where
  names : Names s'
  gone : Gone s' retired'
  few : retired'.length ≤ retired.length + 1
  cap : s'.cap = s.cap
  index : s'.index.length ≤ s.index.length
  spare : s.spare ≠ none → s'.spare ≠ none

lemma Settles.refl (h : Names s) {retired : List ℕ} (hg : Gone s retired) :
    Settles s retired s retired :=
  ⟨h, hg, Nat.le_succ _, rfl, Nat.le_refl _, id⟩

/-- An empty block is unlinked, and kept or retired. -/
lemma unlink_spec (h : Names s) (hidx : s.index = P ++ b :: Q) (hempty : s.block b = [])
    {retired : List ℕ} (hg : Gone s retired) :
    ∃ s' retired', (s.indexRemove P.length).map (fun s => s.retire b retired) =
        some (s', retired') ∧
      Settles s retired s' retired' ∧ s'.index = P ++ Q ∧ s'.block = s.block := by
  obtain ⟨hP, hQ⟩ := h.not_mem hidx
  have hremove : s.indexRemove P.length = some { s with index := P ++ Q } := by
    have hlt : ¬ P.length ≥ s.index.length := by simp [hidx]
    rw [indexRemove, if_neg hlt, hidx, eraseIdx_append_length]
  have hnodup : (P ++ Q).Nodup := by
    refine h.nodup.sublist ?_
    rw [hidx]
    exact (List.Sublist.refl _).append (List.sublist_cons_self _ _)
  have hsub : ∀ c, c ∈ P ++ Q → c ∈ s.index := by
    intro c hc
    rw [hidx]
    simp only [List.mem_append, List.mem_cons] at hc ⊢
    tauto
  have hlen : (P ++ Q).length ≤ s.index.length := by simp [hidx]
  have hmem : b ∈ s.index := by simp [hidx]
  have hb : b ∉ P ++ Q := by simp [hP, hQ]
  rw [hremove, Option.map_some, retire]
  cases hspare : s.spare with
  | none =>
      refine ⟨_, _, rfl, ⟨⟨hnodup, fun c hc => ?_, fun c hc => ?_, hlen.trans h.room, h.layout⟩,
        ⟨hg.1, fun c hc => ⟨fun hin => (hg.2 c hc).1 (hsub c hin), fun heq => ?_⟩⟩,
        Nat.le_succ _, rfl, hlen, by simp⟩, rfl, rfl⟩
      · obtain rfl := Option.some.inj hc
        exact ⟨hb, hempty⟩
      · obtain hc | hc := hc
        · exact h.used c (.inl (hsub c hc))
        · obtain rfl := Option.some.inj hc
          exact h.used b (.inl hmem)
      · obtain rfl := Option.some.inj heq
        exact (hg.2 b hc).1 hmem
  | some k =>
      refine ⟨_, _, rfl, ⟨⟨hnodup, fun c hc => ?_, fun c hc => ?_, hlen.trans h.room, h.layout⟩,
        ⟨?_, fun c hc => ?_⟩, by simp, rfl, hlen, by simp [hspare]⟩, rfl, rfl⟩
      · obtain ⟨hlinked, he⟩ := h.spare c (hspare.trans hc)
        exact ⟨fun hin => hlinked (hsub c hin), he⟩
      · obtain hc | hc := hc
        · exact h.used c (.inl (hsub c hc))
        · exact h.used c (.inr (hspare.trans hc))
      · rw [List.nodup_append]
        refine ⟨hg.1, List.nodup_cons.mpr ⟨by simp, List.nodup_nil⟩, fun c hc d hd => ?_⟩
        rintro rfl
        obtain rfl := List.mem_singleton.mp hd
        exact (hg.2 c hc).1 hmem
      · obtain hc | hc := List.mem_append.mp hc
        · exact ⟨fun hin => (hg.2 c hc).1 (hsub c hin), fun hs => (hg.2 c hc).2 (hspare.trans hs)⟩
        · obtain rfl := List.mem_singleton.mp hc
          exact ⟨hb, fun hs => (h.spare c (hspare.trans hs)).1 hmem⟩

/-- A block absorbs another linked one, which is unlinked. -/
lemma absorb_spec {A B : List ℕ} {other : ℕ} (h : Names s) (hidx : s.index = A ++ other :: B)
    (hb : b ∈ A ++ B) (hshort : (s.block b).length + (s.block other).length ≤ blockHalf)
    {retired : List ℕ} (hg : Gone s retired) :
    ∃ s' retired', ((s.absorb b other).bind fun s =>
        (s.indexRemove A.length).map fun s => s.retire other retired) = some (s', retired') ∧
      Settles s retired s' retired' ∧ s'.index = A ++ B ∧
      s'.block b = s.block b ++ s.block other ∧
      ∀ c, c ≠ b → c ≠ other → s'.block c = s.block c := by
  obtain ⟨hA, hB⟩ := h.not_mem hidx
  have hne : b ≠ other := by
    rintro rfl
    simp [hA, hB] at hb
  have hmem : b ∈ s.index := by
    rw [hidx]
    simp only [List.mem_append, List.mem_cons] at hb ⊢
    tauto
  set f := Function.update (Function.update s.block b (s.block b ++ s.block other)) other []
  have habsorb : s.absorb b other = some { s with block := f } := by
    have hnot : ¬ (s.block b).length + (s.block other).length > blockCap := by
      simp only [blockHalf, blockCap] at hshort ⊢
      omega
    rw [absorb, if_neg hnot]
    rfl
  have hnames : Names { s with block := f } := h.blocks fun c hc => by
    have hcb : c ≠ b := by
      rintro rfl
      exact hc hmem
    have hco : c ≠ other := by
      rintro rfl
      exact hc (by simp [hidx])
    simp only [f, Function.update_of_ne hco, Function.update_of_ne hcb]
  obtain ⟨s', retired', heq, hset, hidx', hblock⟩ :=
    unlink_spec hnames (b := other) hidx (Function.update_self _ _ _) hg
  refine ⟨s', retired', by rw [habsorb, Option.bind_some, heq], ?_, hidx', ?_, fun c hcb hco => ?_⟩
  · exact ⟨hset.names, hset.gone, hset.few, hset.cap, hset.index, hset.spare⟩
  · rw [hblock]
    simp only [f, Function.update_of_ne hne, Function.update_self]
  · rw [hblock]
    simp only [f, Function.update_of_ne hco, Function.update_of_ne hcb]

/-- Merging with the right neighbour leaves the block apart on the right. -/
lemma mergeNext_spec (h : Names s) (hidx : s.index = P ++ b :: Q)
    (hloose : Loose blockHalf Before (P.map s.block) (s.block b) (Q.map s.block))
    {retired : List ℕ} (hg : Gone s retired) :
    ∃ s' retired' Q', s.mergeNext P.length b retired = some (s', retired') ∧
      Settles s retired s' retired' ∧ s'.index = P ++ b :: Q' ∧ s'.entries = s.entries ∧
      Loose blockHalf Before (P.map s'.block) (s'.block b) (Q'.map s'.block) ∧
      (s'.block b :: Q'.map s'.block).IsChain (Apart blockHalf) := by
  unfold mergeNext
  cases Q with
  | nil =>
      rw [if_neg (by simp [hidx])]
      exact ⟨s, retired, [], rfl, .refl h hg, hidx, rfl, hloose, hloose.keep_right (by simp)⟩
  | cons next Q =>
      have hget : s.index[P.length + 1]? = some next := by simp [hidx]
      rw [if_pos (by simp [hidx]), hget, Option.bind_some]
      split_ifs with hle
      · obtain ⟨hP, hQ⟩ := h.not_mem hidx
        have hidx₁ : s.index = (P ++ [b]) ++ next :: Q := by simpa using hidx
        obtain ⟨hP', hQ'⟩ := h.not_mem hidx₁
        obtain ⟨s', retired', heq, hset, hidx', hbl, hother⟩ :=
          absorb_spec h hidx₁ (b := b) (by simp) hle hg
        have hlen : (P ++ [b]).length = P.length + 1 := by simp
        rw [hlen] at heq
        have hmapP : P.map s'.block = P.map s.block := by
          refine List.map_congr_left fun c hc => hother c ?_ ?_
          · rintro rfl
            exact hP hc
          · rintro rfl
            exact hP' (by simp [hc])
        have hmapQ : Q.map s'.block = Q.map s.block := by
          refine List.map_congr_left fun c hc => hother c ?_ ?_
          · rintro rfl
            exact hQ (by simp [hc])
          · rintro rfl
            exact hQ' hc
        have hidx'' : s'.index = P ++ b :: Q := by simpa using hidx'
        refine ⟨s', retired', Q, heq, hset, hidx'', ?_, ?_⟩
        · simp [entries, blocks_eq hidx'', blocks_eq hidx, hmapP, hmapQ, hbl]
        · rw [hmapP, hmapQ, hbl]
          exact hloose.absorb_right hle
      · refine ⟨s, retired, next :: Q, rfl, .refl h hg, hidx, rfl, hloose, hloose.keep_right ?_⟩
        intro m hm
        simp only [List.map_cons, List.head?_cons, Option.mem_some_iff] at hm
        subst m
        omega

/-- Merging with the left neighbour leaves all blocks apart. -/
lemma mergePrev_spec (h : Names s) (hidx : s.index = P ++ b :: Q)
    (hloose : Loose blockHalf Before (P.map s.block) (s.block b) (Q.map s.block))
    (hright : (s.block b :: Q.map s.block).IsChain (Apart blockHalf))
    {retired : List ℕ} (hg : Gone s retired) :
    ∃ s' retired', s.mergePrev P.length b retired = some (s', retired') ∧
      Settles s retired s' retired' ∧ s'.entries = s.entries ∧
      Blocks blockHalf Before s'.blocks := by
  unfold mergePrev
  obtain rfl | ⟨P, prev, rfl⟩ := P.eq_nil_or_concat
  · rw [if_neg (by simp)]
    refine ⟨s, retired, rfl, .refl h hg, rfl, ?_⟩
    rw [blocks_eq hidx]
    exact hloose.keep_left hright (by simp)
  · rw [List.concat_eq_append] at hidx hloose ⊢
    have hidx₁ : s.index = P ++ prev :: b :: Q := by simpa using hidx
    have hget : s.index[(P ++ [prev]).length - 1]? = some prev := by simp [hidx₁]
    rw [if_pos (by simp), hget, Option.bind_some]
    rw [List.map_append, List.map_singleton] at hloose
    split_ifs with hle
    · obtain ⟨hP, hQ⟩ := h.not_mem hidx
      obtain ⟨hP', hQ'⟩ := h.not_mem hidx₁
      obtain ⟨s', retired', heq, hset, hidx', hbl, hother⟩ :=
        absorb_spec h hidx (b := prev) (by simp) hle hg
      have hmapP : P.map s'.block = P.map s.block := by
        refine List.map_congr_left fun c hc => hother c ?_ ?_
        · rintro rfl
          exact hP' hc
        · rintro rfl
          exact hP (by simp [hc])
      have hmapQ : Q.map s'.block = Q.map s.block := by
        refine List.map_congr_left fun c hc => hother c ?_ ?_
        · rintro rfl
          exact hQ' (by simp [hc])
        · rintro rfl
          exact hQ hc
      have hidx'' : s'.index = P ++ prev :: Q := by simpa using hidx'
      refine ⟨s', retired', heq, hset, ?_, ?_⟩
      · simp [entries, blocks_eq hidx'', blocks_eq hidx₁, hmapP, hmapQ, hbl]
      · rw [blocks_eq hidx'', hmapP, hmapQ, hbl]
        exact hloose.absorb_left hright hle
    · refine ⟨s, retired, rfl, .refl h hg, rfl, ?_⟩
      rw [blocks_eq hidx, List.map_append, List.map_singleton]
      refine hloose.keep_left hright fun m hm => ?_
      rw [List.getLast?_concat, Option.mem_some_iff] at hm
      subst m
      omega

/-- What a removal of `e` has made of the shard. -/
structure Removed (s s' : Shard) (e : Entry) (retired : List ℕ) : Prop where
  wf : Wf s'
  lookup : s'.lookup = Function.update s.lookup e.key none
  gone : Gone s' retired
  few : retired.length ≤ 2
  cap : s'.cap = s.cap
  index : s'.index.length ≤ s.index.length
  spare : s.spare ≠ none → s'.spare ≠ none

/-- A removal takes out the entry, and aborts unless the entry is in. -/
theorem remove_spec (h : Wf s) (e : Entry) :
    (s.lookup e.key = some e → ∃ s' retired, s.remove e.key e = some (s', retired) ∧
      Removed s s' e retired) ∧ (s.lookup e.key ≠ some e → s.remove e.key e = none) := by
  by_cases hne : s.index = []
  · have habsent : s.lookup e.key = none := by simp [lookup, entries, blocks, hne, assoc]
    exact ⟨fun hl => by simp [habsent] at hl, fun _ => by simp [remove, locate, hne]⟩
  obtain ⟨P, b, Q, l, m, hidx, hbl, hlow, ⟨f, m', rfl, hkey, hloc⟩ | ⟨hhigh, hloc⟩⟩ :=
    locate_spec h hne e.key
  swap
  · have habsent : s.lookup e.key = none := by
      have hfind := find_eq h e.key
      rw [find, hloc] at hfind
      exact (Option.some.inj hfind).symm
    exact ⟨fun hl => by simp [habsent] at hl, fun _ => by rw [remove, hloc]⟩
  have hget : s.index[P.length]? = some b := by simp [hidx]
  have hentry : (s.block b)[l.length]? = some f := by simp [hbl]
  have hfound : s.lookup e.key = some f := by
    have hfind := find_eq h e.key
    rw [find, hloc] at hfind
    simp only [hget, Option.bind_some, hentry, Option.map_some, Option.some.injEq] at hfind
    exact hfind.symm
  have hremove : s.remove e.key e =
      if f = e then s.removeAtPos P.length b l.length else none := by
    rw [remove, hloc]
    simp only [hget, Option.bind_some, hentry, Option.some.injEq]
  refine ⟨fun hl => ?_, fun hl => ?_⟩
  swap
  · rw [hremove, if_neg]
    rintro rfl
    exact hl hfound
  obtain rfl : f = e := Option.some.inj (hfound.symm.trans hl)
  rw [hremove, if_pos rfl]
  have hsorted : Blocks blockHalf Before
      (P.map s.block ++ (l ++ f :: m') :: Q.map s.block) := by
    rw [← hbl, ← blocks_eq hidx]
    exact h.sorted
  have hmem : b ∈ s.index := by simp [hidx]
  have hlookup : assoc Entry.key (((P.map s.block).flatten ++ l) ++
      (m' ++ (Q.map s.block).flatten)) = Function.update s.lookup f.key none := by
    have hs := h.sorted.sorted
    rw [← entries, entries_eq hidx hbl, List.cons_append] at hs
    obtain ⟨hA, hB⟩ := key_ne_of_before hs
    rw [assoc_erase hA hB, lookup, entries_eq hidx hbl, List.cons_append]
  have hat : s.removeAt b l.length = some (s.setBlock b (l ++ m')) := by
    rw [removeAt, if_neg (by simp [hbl]), hbl, eraseIdx_append_length]
  have hblocks := blocks_setBlock h hidx (l ++ m')
  have hnames : Names (s.setBlock b (l ++ m')) := h.names.blocks fun c hc => by
    refine Function.update_of_ne ?_ _ _
    rintro rfl
    exact hc hmem
  have hself : (s.setBlock b (l ++ m')).block b = l ++ m' := Function.update_self _ _ _
  have hg : Gone (s.setBlock b (l ++ m')) [] := ⟨List.nodup_nil, by simp⟩
  rw [removeAtPos, hat, Option.bind_some, hself]
  have hmaps := hblocks
  rw [blocks_eq (s := s.setBlock b (l ++ m')) hidx, hself] at hmaps
  obtain ⟨hmapP, hmapQ⟩ := List.append_inj hmaps (by simp)
  have hmapQ := (List.cons.inj hmapQ).2
  have hentries : (s.setBlock b (l ++ m')).entries =
      ((P.map s.block).flatten ++ l) ++ (m' ++ (Q.map s.block).flatten) := by
    simp [entries, hblocks]
  split_ifs with hzero
  · obtain ⟨rfl, rfl⟩ : l = [] ∧ m' = [] := by simpa using hzero
    obtain ⟨s', retired, heq, hset, hidx', hblock⟩ := unlink_spec hnames (b := b) hidx hself hg
    have hblocks' : s'.blocks = P.map s.block ++ Q.map s.block := by
      rw [blocks, hidx', hblock, List.map_append, hmapP, hmapQ]
    refine ⟨s', retired, heq, hset.names.wf ?_, ?_, hset.gone, hset.few.trans (by simp), hset.cap,
      hset.index, hset.spare⟩
    · rw [hblocks']
      exact hsorted.erase_single (by decide)
    · rw [← hlookup, lookup, entries, hblocks']
      simp
  · have hloose := hsorted.erase (by simpa using hzero)
    have hloose' : Loose blockHalf Before (P.map (s.setBlock b (l ++ m')).block)
        ((s.setBlock b (l ++ m')).block b) (Q.map (s.setBlock b (l ++ m')).block) := by
      rwa [hmapP, hmapQ, hself]
    obtain ⟨s₁, retired₁, Q₁, heq₁, hset₁, hidx₁, hent₁, hloose₁, hright₁⟩ :=
      mergeNext_spec hnames hidx hloose' hg
    obtain ⟨s₂, retired₂, heq₂, hset₂, hent₂, hblocks₂⟩ :=
      mergePrev_spec hset₁.names hidx₁ hloose₁ hright₁ hset₁.gone
    refine ⟨s₂, retired₂, by simp only [heq₁, Option.bind_some, heq₂], hset₂.names.wf hblocks₂, ?_,
      hset₂.gone, ?_, hset₂.cap.trans hset₁.cap, hset₂.index.trans hset₁.index,
      fun hs => hset₂.spare (hset₁.spare hs)⟩
    · rw [← hlookup, lookup, hent₂, hent₁, hentries]
    · have h₁ := hset₁.few
      have h₂ := hset₂.few
      simp only [List.length_nil] at h₁
      omega

end Shard

end RouteShard
end SeferAlloc
