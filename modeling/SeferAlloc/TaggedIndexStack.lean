import SeferAlloc.Linearization
import SeferAlloc.StackLog
import SeferAlloc.TaggedIndex
import Mathlib.Data.Finset.Defs

/-!
# The tagged index stack

Bindings join a head word to an array of link cells; several bindings may join
the same array. Every shared access of the source is one action below, and a
thread between two accesses is at a location of `Loc`. The contract of the
storage is `StackStorage`, and the contract of `push_index` is the guard of a
call: an index is pushed only by who has the authority over it, `free` in
`authority`. The log records the operations at the access that decides them.
-/
namespace SeferAlloc
namespace IndexStack
open TaggedIndex Interleaving StackLog

/-- Bindings `B` over arrays `A` of link cells. A binding uses indices of its link domain,
and no array holds an index that is invalid for one of its bindings. -/
structure StackStorage (A B : Type*) where
  backing : B → A
  layout : B → TaggedIndex
  linkDomain : B → Finset ℕ
  valid : ∀ b c, backing b = backing c → ∀ i ∈ linkDomain c, i < (layout b).indexMask

/-- Who has the authority over an index of an array. -/
inductive Authority (B : Type*) where
  | free
  | pushing
  | reachable (b : B)
  deriving DecidableEq

/-- The heads and the cells, with the authorities, a clock and the log. -/
structure Shared (A B : Type*) where
  head : B → Word
  link : A → ℕ → ℕ
  authority : A → ℕ → Authority B
  clock : ℕ
  log : List (ℕ × StackEvent B ℕ)

/-- Where a thread stands. `pushStore` and `pushCas` carry the observed head, `popNext` and
`popCas` too, and `popCas` the link it has read. -/
inductive Loc (B : Type*) where
  | idle
  | pushLoad (b : B) (index : ℕ)
  | pushStore (b : B) (index : ℕ) (head : Word)
  | pushCas (b : B) (index : ℕ) (head : Word)
  | popLoad (b : B)
  | popNext (b : B) (head : Word)
  | popCas (b : B) (head : Word) (next : ℕ)
  | respond (answer : StackEvent B ℕ) (point : ℕ)
  | panicked

/-- The operation that an idle thread is to call. -/
inductive Command (B : Type*) where
  | push (b : B) (index : ℕ)
  | pop (b : B)

/-- The operation of an event. -/
def Command.of {B : Type*} : StackEvent B ℕ → Command B
  | .push b index | .refuse b index => .push b index
  | .pop b _ | .empty b => .pop b

/-- A thread: where it stands, its current or last operation, when this was called, and what
the thread has done. -/
structure Thread (B : Type*) where
  loc : Loc B
  command : Command B
  called : ℕ
  done : List (Finished (Command B) (StackEvent B ℕ))

variable {A B : Type*} [DecidableEq A] [DecidableEq B] (S : StackStorage A B)

namespace Shared

/-- Writes one entry of a table by array and index. -/
def set {V : Type*} (f : A → ℕ → V) (a : A) (index : ℕ) (v : V) : A → ℕ → V :=
  Function.update f a (Function.update (f a) index v)

def setAuthority (x : Shared A B) (a : A) (index : ℕ) (v : Authority B) : Shared A B :=
  { x with authority := set x.authority a index v }

def setHead (x : Shared A B) (b : B) (w : Word) : Shared A B :=
  { x with head := Function.update x.head b w }

def storeNext (x : Shared A B) (a : A) (index next : ℕ) : Shared A B :=
  { x with link := set x.link a index next }

/-- Notes the answer of an operation. -/
def decide (x : Shared A B) (e : StackEvent B ℕ) : Shared A B :=
  { x with log := (x.clock, e) :: x.log }

end Shared

/-- `TAIL` for the empty index, else the index. -/
def nextLink (t : TaggedIndex) (index : ℕ) : ℕ :=
  if index = t.emptyIndex then TAIL else index

/-- A push has observed a head: it is refused at the last tag. -/
def pushSeen (x : Shared A B) (b : B) (index : ℕ) (head : Word) : Shared A B × Loc B :=
  if ((S.layout b).unpack head).2 = (S.layout b).tagMax then
    ((x.setAuthority (S.backing b) index .free).decide (.refuse b index),
      .respond (.refuse b index) x.clock)
  else (x, .pushStore b index head)

/-- A pop has observed a head: it is over at an empty one. -/
def popSeen (x : Shared A B) (b : B) (head : Word) : Shared A B × Loc B :=
  if (S.layout b).isEmpty head then (x.decide (.empty b), .respond (.empty b) x.clock)
  else (x, .popNext b head)

/-- A thread calls an operation; a push within its contract takes the authority. -/
def call (x : Shared A B) : Command B → Shared A B × Loc B
  | .push b index =>
      if index ∈ S.linkDomain b ∧ x.authority (S.backing b) index = .free then
        if index ≥ (S.layout b).indexMask then (x, .panicked)
        else (x.setAuthority (S.backing b) index .pushing, .pushLoad b index)
      else (x, .idle)
  | .pop b => (x, .popLoad b)

/-- `push_index_impl` from its `store_next` on. -/
def pushStep (x : Shared A B) (b : B) (index : ℕ) (head : Word) : Shared A B × Loc B :=
  let t := S.layout b
  if x.head b = head then
    ((((x.setHead b (t.packTruncating index ((t.unpack head).2 + 1))).setAuthority (S.backing b)
      index (.reachable b)).decide (.push b index)), .respond (.push b index) x.clock)
  else pushSeen S x b index (x.head b)

/-- The guard of `pop_index_impl` on the link it has read. -/
def popGuard (t : TaggedIndex) (index next : ℕ) : Prop :=
  next ≠ TAIL ∧ (next ≥ t.indexMask ∨ next = index)

instance (t : TaggedIndex) (index next : ℕ) : Decidable (popGuard t index next) :=
  inferInstanceAs (Decidable (_ ∧ _))

/-- The head below an index with link `next`, under the same tag. -/
def newHead (t : TaggedIndex) (head : Word) (next : ℕ) : Word :=
  if next = TAIL then t.packTruncating t.emptyIndex (t.unpack head).2
  else t.packTruncating next (t.unpack head).2

/-- The compare-exchange of `pop_index_impl`. -/
def popStep (x : Shared A B) (b : B) (head : Word) (next : ℕ) : Shared A B × Loc B :=
  let t := S.layout b
  let index := (t.unpack head).1
  if x.head b = head then
    ((((x.setHead b (newHead t head next)).setAuthority (S.backing b) index .free).decide
      (.pop b index)), .respond (.pop b index) x.clock)
  else popSeen S x b (x.head b)

/-- One access, or one call or return, of a thread. -/
def access (c : Command B) (x : Shared A B) : Loc B → Shared A B × Loc B
  | .idle => call S x c
  | .pushLoad b index => pushSeen S x b index (x.head b)
  | .pushStore b index head =>
      (x.storeNext (S.backing b) index (nextLink (S.layout b) ((S.layout b).unpack head).1),
        .pushCas b index head)
  | .pushCas b index head => pushStep S x b index head
  | .popLoad b => popSeen S x b (x.head b)
  | .popNext b head =>
      let next := x.link (S.backing b) ((S.layout b).unpack head).1
      if popGuard (S.layout b) ((S.layout b).unpack head).1 next then (x, .panicked)
      else (x, .popCas b head next)
  | .popCas b head next => popStep S x b head next
  | .respond _ _ => (x, .idle)
  | .panicked => (x, .panicked)

/-- A turn: an access, which takes one unit of time. -/
def act (c : Command B) (x : Shared A B) (l : Thread B) : Shared A B × Thread B :=
  let r := access S c x l.loc
  ({ r.1 with clock := x.clock + 1 },
    { loc := r.2
      command := match l.loc with
        | .idle => c
        | _ => l.command
      called := match l.loc with
        | .idle => x.clock
        | _ => l.called
      done := match l.loc with
        | .respond e p => ⟨l.command, e, l.called, p, x.clock⟩ :: l.done
        | _ => l.done })

/-- Empty stacks over cells of any contents, and idle threads. -/
def start {ι : Type*} (link : A → ℕ → ℕ) (command : ι → Command B) :
    World ι (Shared A B) (Thread B) where
  shared :=
    { head := fun b => (S.layout b).bootstrapEmpty
      link
      authority := fun _ _ => .free
      clock := 0
      log := [] }
  loc i := { loc := .idle, command := command i, called := 0, done := [] }

/-- The operations of a thread, for their linearization. -/
def operations : Clocked (Shared A B) (Thread B) (Command B) (StackEvent B ℕ) where
  clock x := x.clock
  log x := x.log
  op := Command.of
  stage l := match l.loc with
    | .idle => .idle
    | .respond e p => .decided l.command e l.called p
    | _ => .called l.command l.called
  done l := l.done

end IndexStack
end SeferAlloc
