import Everyfile.Lib.Transition
import Mathlib.Logic.Function.Basic

/-!
# `__no_lock_queue_with_CAS` with one producer and one consumer

One thread calls `enqueue`, another calls `dequeue`. Each read or write of `Head`, `Tail` or of a node is one step, and
`CAS` takes the three steps of its body: it loads the target into a local atomic, compares and exchanges there, and
stores the local back to the target, whether the exchange took place or not. The weak compare-exchange may fail without
cause (`weak`).

A node is named by its place in the order of allocation; the name of a deleted node is not used again, so a pointer to
it stays a pointer to a deleted node.
-/

namespace Everyfile.Queue

/-- `__pointer_to_entry`. -/
structure Ptr where
  ptr : Option Nat
  counter : UInt64
  deriving DecidableEq, Repr

/-- `__entry_in_queue`. -/
structure Entry (α : Type*) where
  value : α
  next : Ptr

/-- Where a call of `CAS` stands, with its `_atom` and `_res`; the value loaded is kept for the record. -/
inductive CasPc
  | load
  | exchange (atom : Ptr)
  | store (loaded atom : Ptr) (res : Bool)
  deriving DecidableEq, Repr

/-- `atomic_compare_exchange_weak` on the local atomic. -/
def exchange (atom oldv newv : Ptr) (weak : Bool) : CasPc :=
  if atom = oldv ∧ weak = false then .store atom newv true else .store atom atom false

/-! ## The threads -/

/-- The steps of `enqueue`, with its value, its node and its locals `tail` and `next`. -/
inductive EnqPc (α : Type*)
  | idle
  | loadTail (v : α) (node : Nat)
  | readNext (v : α) (node : Nat) (tail : Ptr)
  | recheck (v : α) (node : Nat) (tail next : Ptr)
  /-- `CAS` on `tail.ptr->next`. -/
  | link (v : α) (node : Nat) (tail next : Ptr) (c : CasPc)
  /-- `CAS` on `Tail` in the loop. -/
  | help (v : α) (node : Nat) (tail next : Ptr) (c : CasPc)
  /-- `CAS` on `Tail` after the loop. -/
  | swing (v : α) (node : Nat) (tail : Ptr) (c : CasPc)
  | incSize

/-- The steps of `dequeue`, with its locals `head`, `tail`, `next` and `_res`. -/
inductive DeqPc (α : Type*)
  | idle
  | loadHead
  | loadTail (head : Ptr)
  | readNext (head tail : Ptr)
  | recheck (head tail next : Ptr)
  /-- `CAS` on `Tail`. -/
  | help (head tail next : Ptr) (c : CasPc)
  | readValue (head next : Ptr)
  /-- `CAS` on `Head`. -/
  | casHead (head next : Ptr) (res : α) (c : CasPc)
  | delete (head : Ptr) (res : α)
  | decSize (res : α)

structure State (α : Type*) where
  heap : Nat → Option (Entry α)
  /-- The number of nodes allocated so far. -/
  allocated : Nat
  head : Ptr
  tail : Ptr
  size : Int
  enq : EnqPc α
  deq : DeqPc α
  /-- The values whose node has been linked, and the values returned. -/
  linked : List α
  returned : List α
  /-- The pointers dereferenced while they pointed to no node. -/
  faults : List Ptr

/-- Calls and steps of the two threads. -/
inductive Act (α : Type*)
  | enqueue (v : α)
  | enq (weak : Bool)
  | dequeue
  | deq (weak : Bool)

variable {α : Type*}

namespace State

/-- The node a pointer points to. -/
def deref (s : State α) (p : Ptr) : Option (Entry α) := p.ptr.bind s.heap

/-- A dereference that finds no node. -/
def fault (s : State α) (p : Ptr) : State α := { s with faults := s.faults ++ [p] }

/-- The heap after `p.ptr->next = q`, where the node is there. -/
def setNext (s : State α) (p : Ptr) (e : Entry α) (q : Ptr) : Nat → Option (Entry α) :=
  match p.ptr with
  | some a => Function.update s.heap a (some { e with next := q })
  | none => s.heap

/-- The heap after `delete p.ptr`. -/
def free (s : State α) (p : Ptr) : Nat → Option (Entry α) :=
  match p.ptr with
  | some a => Function.update s.heap a none
  | none => s.heap

end State

/-- One step of `enqueue`. -/
def enqStep (weak : Bool) (s : State α) : Option (State α) :=
  match s.enq with
  | .idle => none
  | .loadTail v n => some { s with enq := .readNext v n s.tail }
  | .readNext v n tail =>
    match s.deref tail with
    | some e => some { s with enq := .recheck v n tail e.next }
    | none => some (s.fault tail)
  | .recheck v n tail next =>
    some { s with
      enq :=
        if tail = s.tail then
          if next.ptr = none then .link v n tail next .load else .help v n tail next .load
        else .loadTail v n }
  | .link v n tail next .load =>
    match s.deref tail with
    | some e => some { s with enq := .link v n tail next (.exchange e.next) }
    | none => some (s.fault tail)
  | .link v n tail next (.exchange atom) =>
    some { s with enq := .link v n tail next (exchange atom next ⟨some n, next.counter + 1⟩ weak) }
  | .link v n tail _ (.store _ atom res) =>
    match s.deref tail with
    | some e =>
      some { s with
        heap := s.setNext tail e atom
        enq := if res then .swing v n tail .load else .loadTail v n
        linked := if res then s.linked ++ [v] else s.linked }
    | none => some (s.fault tail)
  | .help v n tail next .load => some { s with enq := .help v n tail next (.exchange s.tail) }
  | .help v n tail next (.exchange atom) =>
    some { s with enq := .help v n tail next (exchange atom tail ⟨next.ptr, tail.counter + 1⟩ weak) }
  | .help v n _ _ (.store _ atom _) => some { s with tail := atom, enq := .loadTail v n }
  | .swing v n tail .load => some { s with enq := .swing v n tail (.exchange s.tail) }
  | .swing v n tail (.exchange atom) =>
    some { s with enq := .swing v n tail (exchange atom tail ⟨some n, tail.counter + 1⟩ weak) }
  | .swing _ _ _ (.store _ atom _) => some { s with tail := atom, enq := .incSize }
  | .incSize => some { s with size := s.size + 1, enq := .idle }

/-- One step of `dequeue`. -/
def deqStep (weak : Bool) (s : State α) : Option (State α) :=
  match s.deq with
  | .idle => none
  | .loadHead => some { s with deq := .loadTail s.head }
  | .loadTail head => some { s with deq := .readNext head s.tail }
  | .readNext head tail =>
    match s.deref head with
    | some e => some { s with deq := .recheck head tail e.next }
    | none => some (s.fault head)
  | .recheck head tail next =>
    some { s with
      deq :=
        if head = s.head then
          if head.ptr = tail.ptr then
            if next.ptr = none then .idle else .help head tail next .load
          else .readValue head next
        else .loadHead }
  | .help head tail next .load => some { s with deq := .help head tail next (.exchange s.tail) }
  | .help head tail next (.exchange atom) =>
    some { s with deq := .help head tail next (exchange atom tail ⟨next.ptr, tail.counter + 1⟩ weak) }
  | .help _ _ _ (.store _ atom _) => some { s with tail := atom, deq := .loadHead }
  | .readValue head next =>
    match s.deref next with
    | some e => some { s with deq := .casHead head next e.value .load }
    | none => some (s.fault next)
  | .casHead head next v .load => some { s with deq := .casHead head next v (.exchange s.head) }
  | .casHead head next v (.exchange atom) =>
    some { s with deq := .casHead head next v (exchange atom head ⟨next.ptr, head.counter + 1⟩ weak) }
  | .casHead head _ v (.store _ atom res) =>
    some { s with head := atom, deq := if res then .delete head v else .loadHead }
  | .delete head v => some { s with heap := s.free head, deq := .decSize v }
  | .decSize v => some { s with size := s.size - 1, deq := .idle, returned := s.returned ++ [v] }

/-- One step; a call begins with the allocation of its node. -/
def step (s : State α) : Act α → Option (State α)
  | .enqueue v =>
    match s.enq with
    | .idle =>
      some { s with
        heap := Function.update s.heap s.allocated (some ⟨v, ⟨none, 0⟩⟩)
        allocated := s.allocated + 1
        enq := .loadTail v s.allocated }
    | _ => none
  | .enq weak => enqStep weak s
  | .dequeue =>
    match s.deq with
    | .idle => some { s with deq := .loadHead }
    | _ => none
  | .deq weak => deqStep weak s

/-- The constructor: one node, whose value is never read. -/
def start (v₀ : α) : State α where
  heap := fun a => if a = 0 then some ⟨v₀, ⟨none, 0⟩⟩ else none
  allocated := 1
  head := ⟨some 0, 0⟩
  tail := ⟨some 0, 0⟩
  size := 0
  enq := .idle
  deq := .idle
  linked := []
  returned := []
  faults := []

def system (α : Type*) : Transition.System (State α) (Act α) := ⟨fun s => ∃ v₀, s = start v₀, step⟩

/-! ## What is asked of the queue -/

/-- The values returned are the first values linked, in their order, and no dereference has missed its node. -/
def Correct (s : State α) : Prop := s.returned <+: s.linked ∧ s.faults = []

/-- The value loaded from `Tail` and the value about to be stored there. -/
def EnqPc.tailStore : EnqPc α → Option (Ptr × Ptr)
  | .help _ _ _ _ (.store loaded atom _) | .swing _ _ _ (.store loaded atom _) => some (loaded, atom)
  | _ => none

def DeqPc.tailStore : DeqPc α → Option (Ptr × Ptr)
  | .help _ _ _ (.store loaded atom _) => some (loaded, atom)
  | _ => none

/-- The store of a `CAS` to `Tail` loses no other update: `Tail` is as loaded, or is what is stored. -/
def NoLostUpdate (s : State α) (w : Option (Ptr × Ptr)) : Prop := ∀ p ∈ w, s.tail = p.1 ∨ s.tail = p.2

instance (s : State α) (w : Option (Ptr × Ptr)) : Decidable (NoLostUpdate s w) :=
  inferInstanceAs (Decidable (∀ p ∈ w, s.tail = p.1 ∨ s.tail = p.2))

def EnqPc.loadsTail : EnqPc α → Bool
  | .loadTail .. => true
  | _ => false

/-- `Tail` points to the last node. -/
def TailLast (s : State α) : Prop := ∀ e ∈ s.deref s.tail, e.next.ptr = none

instance (s : State α) : Decidable (TailLast s) :=
  inferInstanceAs (Decidable (∀ e ∈ s.deref s.tail, e.next.ptr = none))

/-- The step neither overwrites an update of `Tail` nor begins an enqueue from a `Tail` that lags behind. -/
def Orderly (s : State α) : Act α → Prop
  | .enq _ => NoLostUpdate s s.enq.tailStore ∧ (s.enq.loadsTail = true → TailLast s)
  | .deq _ => NoLostUpdate s s.deq.tailStore
  | .enqueue _ | .dequeue => True

instance (s : State α) : (a : Act α) → Decidable (Orderly s a)
  | .enq _ => inferInstanceAs (Decidable (_ ∧ _))
  | .deq _ => inferInstanceAs (Decidable (NoLostUpdate _ _))
  | .enqueue _ | .dequeue => .isTrue trivial

end Everyfile.Queue
