import SeferAlloc.OracleDrive

/-!
# Clients and answers of an allocator

What a client holds is read off the trace of its calls. From it follow the calls
it may make, the answers the allocator owes, and what the checks of the driver
establish.
-/
namespace SeferAlloc
namespace AllocatorOracle

/-- The size is not zero, and its round-up to the alignment fits `isize`. -/
structure Layout.Admissible (layout : Layout) : Prop where
  align : layout.align.isPowerOfTwo
  pos : 0 < layout.size
  roundUp : (layout.size + layout.align - 1) / layout.align * layout.align ≤ isizeMax

structure Block where
  ptr : ℕ
  layout : Layout
deriving DecidableEq

namespace Block

def Contains (b : Block) (a : ℕ) : Prop := b.ptr ≤ a ∧ a < b.ptr + b.layout.size

def Disjoint (b c : Block) : Prop :=
  b.ptr + b.layout.size ≤ c.ptr ∨ c.ptr + c.layout.size ≤ b.ptr

lemma Disjoint.symm {b c : Block} (h : b.Disjoint c) : c.Disjoint b := Or.symm h

lemma Disjoint.not_contains {b c : Block} (h : b.Disjoint c) {a : ℕ} (ha : c.Contains a) :
    ¬b.Contains a := by
  unfold Disjoint at h
  unfold Contains at ha ⊢
  omega

end Block

/-! ## Clients -/

/-- The blocks a client holds, and the one its last call freed. -/
structure Client where
  held : Multiset Block
  freed : Option Block

namespace Client

def after (c : Client) : Event → Client
  | .alloc _ layout ptr _ => ⟨if ptr = 0 then c.held else ⟨ptr, layout⟩ ::ₘ c.held, none⟩
  | .dealloc ptr layout _ => ⟨c.held.erase ⟨ptr, layout⟩, some ⟨ptr, layout⟩⟩
  | .freeAgain _ _ => ⟨c.held, none⟩
  | .realloc ptr layout newSize result _ _ =>
      ⟨if result = 0 then c.held
        else ⟨result, newSize, layout.align⟩ ::ₘ c.held.erase ⟨ptr, layout⟩, none⟩
  | .wrote _ _ _ => c

/-- The preconditions of `GlobalAlloc`, with the one exception of the second free. A client writes
into blocks it holds. -/
def Permits (c : Client) (doubleFree : Bool) : Event → Prop
  | .alloc _ layout _ _ => layout.Admissible
  | .dealloc ptr layout _ => ⟨ptr, layout⟩ ∈ c.held
  | .freeAgain ptr layout => doubleFree = true ∧ c.freed = some ⟨ptr, layout⟩
  | .realloc ptr layout newSize _ _ _ =>
      ⟨ptr, layout⟩ ∈ c.held ∧ Layout.Admissible ⟨newSize, layout.align⟩
  | .wrote ptr size _ => ∃ align, ⟨ptr, size, align⟩ ∈ c.held

end Client

def clientAfter (es : List Event) : Client := es.foldl Client.after ⟨0, none⟩

/-- What the driver wrote last at each address. -/
def lastWritten (es : List Event) : ℕ → Option UInt8 :=
  es.foldl (fun f e =>
    match e with
    | .wrote ptr size after => fun a => if ptr ≤ a ∧ a < ptr + size then some (after a) else f a
    | _ => f) fun _ => none

/-- The property holds of every event, after the ones before it. -/
def Throughout (P : List Event → Event → Prop) (es : List Event) : Prop :=
  ∀ before e after, es = before ++ e :: after → P before e

lemma throughout_nil (P : List Event → Event → Prop) : Throughout P [] := by
  intro before e after h
  simp at h

lemma Throughout.snoc {P : List Event → Event → Prop} {es : List Event} {e : Event}
    (h : Throughout P es) (he : P es e) : Throughout P (es ++ [e]) := by
  intro before e' after heq
  obtain rfl | ⟨after, z, rfl⟩ := List.eq_nil_or_concat' after
  · obtain ⟨rfl, hlast⟩ := List.append_inj' heq rfl
    obtain rfl := List.singleton_inj.mp hlast
    exact he
  · rw [← List.cons_append, ← List.append_assoc] at heq
    exact h before e' after (List.append_inj' heq rfl).1

/-- Every call meets its precondition. -/
def Legal (doubleFree : Bool) : List Event → Prop :=
  Throughout fun before e => (clientAfter before).Permits doubleFree e

/-! ## Answers -/

/-- The memory is as before in every one of the blocks. -/
def Unchanged (held : Multiset Block) (m m' : Memory) : Prop :=
  ∀ b ∈ held, ∀ a, b.Contains a → m' a = m a

/-- The contract of an allocator that does not run out of memory. -/
def Event.Kept (held : Multiset Block) (m m' : Memory) : Event → Prop
  | .alloc zeroed layout ptr _ => ptr ≠ 0 ∧ layout.align ∣ ptr ∧
      (∀ b ∈ held, Block.Disjoint ⟨ptr, layout⟩ b) ∧ Unchanged held m m' ∧
      (zeroed = true → ∀ off < layout.size, m' (ptr + off) = 0)
  | .dealloc ptr layout _ => Unchanged (held.erase ⟨ptr, layout⟩) m m'
  | .freeAgain _ _ => Unchanged held m m'
  | .realloc ptr layout newSize result _ _ =>
      (result = 0 → Unchanged held m m') ∧
      (result ≠ 0 → layout.align ∣ result ∧
        (∀ b ∈ held.erase ⟨ptr, layout⟩, Block.Disjoint ⟨result, newSize, layout.align⟩ b) ∧
        Unchanged (held.erase ⟨ptr, layout⟩) m m' ∧
        ∀ off < min layout.size newSize, m' (result + off) = m (ptr + off))
  | .wrote _ _ _ => True

section
variable {σ : Type} (A : RawAllocator σ) (doubleFree : Bool) (s₀ : σ) (m₀ : Memory)

/-- The event takes place, with this answer of the allocator. -/
def RawAllocator.Does (s : σ) (m : Memory) (s' : σ) (m' : Memory) : Event → Prop
  | .alloc zeroed layout ptr after => m' = after ∧
      (if zeroed then A.allocZeroed layout s m else A.alloc layout s m) = (ptr, s', m')
  | .dealloc ptr layout before => before = m ∧ A.dealloc ptr layout s m = (s', m')
  | .freeAgain ptr layout => A.dealloc ptr layout s m = (s', m')
  | .realloc ptr layout newSize result before after => before = m ∧ m' = after ∧
      A.realloc ptr layout newSize s m = (result, s', m')
  | .wrote ptr size after => s' = s ∧ m' = after ∧
      ∀ a, ¬(ptr ≤ a ∧ a < ptr + size) → m' a = m a

/-- The allocator, its memory and its client after permitted calls and writes. -/
inductive Reaches : σ → Memory → Client → Prop
  | start : Reaches s₀ m₀ ⟨0, none⟩
  | step {s s' : σ} {m m' : Memory} {c : Client} {e : Event} : Reaches s m c →
      c.Permits doubleFree e → A.Does s m s' m' e → Reaches s' m' (c.after e)

/-- However a client uses it, the allocator keeps the contract. -/
def Honours : Prop :=
  ∀ s m c e s' m', Reaches A doubleFree s₀ m₀ s m c → c.Permits doubleFree e →
    A.Does s m s' m' e → e.Kept c.held m m'

end

/-! ## Findings -/

/-- A block the allocator returned ends before the last byte of the address space. -/
def Event.Below : Event → Prop
  | .alloc _ layout ptr _ => ptr ≠ 0 → ptr + layout.size ≤ usizeMax
  | .realloc _ _ newSize result _ _ => result ≠ 0 → result + newSize ≤ usizeMax
  | _ => True

/-- The memory holds what was written last in the block. -/
def Preserved (written : ℕ → Option UInt8) (b : Block) (m : Memory) : Prop :=
  ∀ off < b.layout.size, some (m (b.ptr + off)) = written (b.ptr + off)

/-- What is right about the answer to a call, and about the block it gives away. -/
def Event.Answered (held : Multiset Block) (written : ℕ → Option UInt8) : Event → Prop
  | .alloc zeroed layout ptr after => ptr ≠ 0 ∧ layout.align ∣ ptr ∧
      (∀ b ∈ held, Block.Disjoint ⟨ptr, layout⟩ b) ∧
      (zeroed = true → ∀ off < layout.size, after (ptr + off) = 0)
  | .dealloc ptr layout before => Preserved written ⟨ptr, layout⟩ before
  | .realloc ptr layout newSize result before after =>
      Preserved written ⟨ptr, layout⟩ before ∧
      (result ≠ 0 → layout.align ∣ result ∧
        (∀ b ∈ held.erase ⟨ptr, layout⟩, Block.Disjoint ⟨result, newSize, layout.align⟩ b) ∧
        ∀ off < min layout.size newSize, some (after (result + off)) = written (ptr + off))
  | .freeAgain _ _ => True
  | .wrote _ _ _ => True

/-- Every answer was right. -/
def Sound : List Event → Prop :=
  Throughout fun before e => e.Answered (clientAfter before).held (lastWritten before)

end AllocatorOracle
end SeferAlloc
