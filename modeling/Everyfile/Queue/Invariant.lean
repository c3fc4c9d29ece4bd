import Everyfile.Queue.NoLockQueue
import Mathlib.Data.List.Basic

/-!
# The invariant of the queue

Nodes are linked in the order of their allocation, so the nodes of the list are the numbers from `Head`'s node `h` to
the last one, `L` values having been linked: node `i` points to node `i + 1`, and holds the value linked as the `i`-th.
`Tail` points to a node `t` with `h ≤ t ≤ L`, and an enqueue that has read `Tail` and not yet linked its node has
`t = L`. What the two threads hold in their locals is said by `EnqOk` and `DeqOk`, each of them kept by the steps of
the other thread (`EnqOk.mono`, `DeqOk.mono`).
-/

namespace Everyfile.Queue

variable {α : Type*}

/-- Node `i` of the list. -/
def NodeOk (linked : List α) (i : Nat) (e : Entry α) : Prop :=
  e.next.ptr = (if i < linked.length then some (i + 1) else none) ∧ ∀ j, i = j + 1 → linked[j]? = some e.value

/-- A node that has been filled and not yet linked. -/
def NewNode (heap : Nat → Option (Entry α)) (allocated last : Nat) (v : α) (n : Nat) : Prop :=
  n = last + 1 ∧ allocated = last + 2 ∧ heap n = some ⟨v, ⟨none, 0⟩⟩

/-! ## What the steps compute -/

theorem exchange_eq (atom oldv newv : Ptr) (weak : Bool) :
    exchange atom oldv newv weak = .store atom atom false ∨
      atom = oldv ∧ exchange atom oldv newv weak = .store oldv newv true := by
  unfold exchange
  split
  next hc => exact .inr ⟨hc.1, by rw [hc.1]⟩
  next => exact .inl rfl

theorem heap_setNext {s : State α} {p : Ptr} {a : Nat} (hp : p.ptr = some a) (e : Entry α) (q : Ptr) :
    s.setNext p e q = Function.update s.heap a (some { e with next := q }) := by
  rw [State.setNext, hp]

theorem heap_free {s : State α} {p : Ptr} {a : Nat} (hp : p.ptr = some a) :
    s.free p = Function.update s.heap a none := by
  rw [State.free, hp]

/-! ## The list of nodes -/

/-- A linked value keeps its place when more are linked. -/
theorem linked_append {linked : List α} (more : List α) {i : Nat} {v : α} (hv : linked[i]? = some v) :
    (linked ++ more)[i]? = some v := by
  rw [List.getElem?_append_left (List.getElem?_eq_some_iff.mp hv).1, hv]

/-- The nodes from `lo` to the last one. -/
def Nodes (heap : Nat → Option (Entry α)) (linked : List α) (lo : Nat) : Prop :=
  ∀ i, lo ≤ i → i ≤ linked.length → ∃ e, heap i = some e ∧ NodeOk linked i e

section Nodes

variable {heap : Nat → Option (Entry α)} {linked : List α} {lo : Nat}

theorem Nodes.mono (hn : Nodes heap linked lo) {lo' : Nat} (h : lo ≤ lo') : Nodes heap linked lo' :=
  fun i hlo hhi => hn i (h.trans hlo) hhi

/-- A change elsewhere in the heap. -/
theorem Nodes.congr (hn : Nodes heap linked lo) {heap' : Nat → Option (Entry α)}
    (h : ∀ i, lo ≤ i → i ≤ linked.length → heap' i = heap i) : Nodes heap' linked lo := by
  intro i hlo hhi
  obtain ⟨e, he, hok⟩ := hn i hlo hhi
  exact ⟨e, (h i hlo hhi).trans he, hok⟩

/-- A new null pointer in the last node. -/
theorem Nodes.setNext_last (hn : Nodes heap linked lo) {e : Entry α} (hok : NodeOk linked linked.length e) {q : Ptr}
    (hq : q.ptr = none) : Nodes (Function.update heap linked.length (some { e with next := q })) linked lo := by
  intro i hlo hhi
  by_cases hlast : i = linked.length
  · subst hlast
    exact ⟨_, Function.update_self .., by simpa using hq, hok.2⟩
  · obtain ⟨e', he', hok'⟩ := hn i hlo hhi
    exact ⟨e', (Function.update_of_ne hlast ..).trans he', hok'⟩

/-- A new node behind the last one. -/
theorem Nodes.link (hn : Nodes heap linked lo) {e : Entry α} (hok : NodeOk linked linked.length e) {q : Ptr} {v : α}
    (hq : q.ptr = some (linked.length + 1)) (hnew : heap (linked.length + 1) = some ⟨v, ⟨none, 0⟩⟩) :
    Nodes (Function.update heap linked.length (some { e with next := q })) (linked ++ [v]) lo := by
  intro i hlo hhi
  have hlen : (linked ++ [v]).length = linked.length + 1 := by simp
  rcases Nat.lt_trichotomy i linked.length with hlt | rfl | hgt
  · obtain ⟨e', he', hnext, hval⟩ := hn i hlo (by omega)
    refine ⟨e', (Function.update_of_ne (by omega) ..).trans he', ?_, fun j hj => linked_append [v] (hval j hj)⟩
    rw [hnext, if_pos hlt, if_pos (by omega)]
  · exact ⟨_, Function.update_self .., by rw [if_pos (by omega), hq], fun j hj => linked_append [v] (hok.2 j hj)⟩
  · obtain rfl : i = linked.length + 1 := by omega
    refine ⟨_, (Function.update_of_ne (by omega) ..).trans hnew, by rw [if_neg (by omega)], fun j hj => ?_⟩
    obtain rfl : j = linked.length := by omega
    simp

end Nodes

/-! ## The invariant -/

/-- The locals of `enqueue`. -/
def EnqOk (heap : Nat → Option (Entry α)) (allocated last t : Nat) : EnqPc α → Prop
  | .idle | .incSize => allocated = last + 1
  | .loadTail v n => NewNode heap allocated last v n
  | .readNext v n tail => NewNode heap allocated last v n ∧ t = last ∧ tail.ptr = some last
  | .recheck v n tail next => NewNode heap allocated last v n ∧ t = last ∧ tail.ptr = some last ∧ next.ptr = none
  | .link v n tail next c =>
    NewNode heap allocated last v n ∧ t = last ∧ tail.ptr = some last ∧ next.ptr = none ∧
      match c with
      | .load => True
      | .exchange atom => atom.ptr = none
      | .store _ atom res => atom.ptr = if res then some n else none
  | .help .. => False
  | .swing _ n _ c =>
    n = last ∧ allocated = last + 1 ∧
      match c with
      | .store loaded atom _ => atom = loaded ∨ atom.ptr = some last
      | _ => True

/-- The locals of `dequeue`. -/
def DeqOk (linked : List α) (head : Ptr) (h t : Nat) : DeqPc α → Prop
  | .idle | .loadHead => True
  | .loadTail hd => hd = head
  | .readNext hd tl => hd = head ∧ ∃ a, tl.ptr = some a ∧ h ≤ a ∧ a ≤ t
  | .recheck hd tl next =>
    hd = head ∧ ∃ a, tl.ptr = some a ∧ h ≤ a ∧ a ≤ t ∧
      (next.ptr = none ∧ a = h ∨ next.ptr = some (h + 1) ∧ h + 1 ≤ linked.length)
  | .help _ tl next c =>
    next.ptr = some (h + 1) ∧ h + 1 ≤ linked.length ∧ tl.ptr = some h ∧
      match c with
      | .store loaded atom _ => atom = loaded ∨ loaded.ptr = some h ∧ atom.ptr = some (h + 1)
      | _ => True
  | .readValue hd next => hd = head ∧ next.ptr = some (h + 1) ∧ h + 1 ≤ t
  | .casHead hd next v c =>
    hd = head ∧ next.ptr = some (h + 1) ∧ h + 1 ≤ t ∧ linked[h]? = some v ∧
      match c with
      | .load => True
      | .exchange atom => atom = head
      | .store _ atom res => if res then atom.ptr = some (h + 1) else atom = head
  | .delete hd v => hd.ptr = some (h - 1) ∧ 1 ≤ h ∧ linked[h - 1]? = some v
  | .decSize v => 1 ≤ h ∧ linked[h - 1]? = some v

/-- The first node that has not been deleted. -/
def DeqPc.live (h : Nat) : DeqPc α → Nat
  | .delete .. => h - 1
  | _ => h

theorem DeqPc.live_le (pc : DeqPc α) (h : Nat) : pc.live h ≤ h := by
  cases pc <;> simp [DeqPc.live]

/-- The number of values returned. -/
def DeqPc.given (h : Nat) : DeqPc α → Nat
  | .delete .. | .decSize _ => h - 1
  | _ => h

structure QueueInv (s : State α) (h t : Nat) : Prop where
  head_eq : s.head.ptr = some h
  tail_eq : s.tail.ptr = some t
  head_le : h ≤ t
  tail_le : t ≤ s.linked.length
  nodes : ∀ i, s.deq.live h ≤ i → i ≤ s.linked.length → ∃ e, s.heap i = some e ∧ NodeOk s.linked i e
  enq_ok : EnqOk s.heap s.allocated s.linked.length t s.enq
  deq_ok : DeqOk s.linked s.head h t s.deq
  returned_eq : s.returned = s.linked.take (s.deq.given h)
  faults_eq : s.faults = []

variable {s s' : State α} {h t : Nat}

theorem QueueInv.correct (hi : QueueInv s h t) : Correct s := by
  refine ⟨?_, hi.faults_eq⟩
  rw [hi.returned_eq]
  exact List.take_prefix _ _

theorem queueInv_start (v₀ : α) : QueueInv (start v₀) 0 0 := by
  refine ⟨rfl, rfl, le_rfl, le_rfl, ?_, rfl, trivial, rfl, rfl⟩
  intro i _ hi
  obtain rfl : i = 0 := Nat.le_zero.mp hi
  exact ⟨_, rfl, rfl, by simp⟩

/-! ## What the other thread's steps leave -/

/-- A later `Tail`, and a heap with the new node unchanged. -/
theorem EnqOk.mono {heap heap' : Nat → Option (Entry α)} {allocated last t t' : Nat} {pc : EnqPc α}
    (he : EnqOk heap allocated last t pc) (ht : t ≤ t') (hlast : t' ≤ last)
    (hheap : heap' (last + 1) = heap (last + 1)) : EnqOk heap' allocated last t' pc := by
  have hnew : ∀ v n, NewNode heap allocated last v n → NewNode heap' allocated last v n := by
    rintro v n ⟨rfl, ha, hn⟩
    exact ⟨rfl, ha, hheap.trans hn⟩
  have ht' : t = last → t' = last := fun h => by omega
  cases pc with
  | loadTail v n => exact hnew v n he
  | readNext v n tail => exact ⟨hnew v n he.1, ht' he.2.1, he.2.2⟩
  | recheck v n tail next => exact ⟨hnew v n he.1, ht' he.2.1, he.2.2⟩
  | link v n tail next c => exact ⟨hnew v n he.1, ht' he.2.1, he.2.2⟩
  | _ => exact he

/-- A later `Tail`, and more values linked. -/
theorem DeqOk.mono {linked : List α} (more : List α) {head : Ptr} {h t t' : Nat} {pc : DeqPc α}
    (hd : DeqOk linked head h t pc) (ht : t ≤ t') : DeqOk (linked ++ more) head h t' pc := by
  have hlen : linked.length ≤ (linked ++ more).length := by simp
  cases pc with
  | readNext hd' tl =>
    obtain ⟨rfl, a, ha, hle, hat⟩ := hd
    exact ⟨rfl, a, ha, hle, hat.trans ht⟩
  | recheck hd' tl next =>
    obtain ⟨rfl, a, ha, hle, hat, hnext⟩ := hd
    exact ⟨rfl, a, ha, hle, hat.trans ht, hnext.imp_right fun hn => ⟨hn.1, hn.2.trans hlen⟩⟩
  | help hd' tl next c => exact ⟨hd.1, hd.2.1.trans hlen, hd.2.2⟩
  | readValue hd' next => exact ⟨hd.1, hd.2.1, hd.2.2.trans ht⟩
  | casHead hd' next v c => exact ⟨hd.1, hd.2.1, hd.2.2.1.trans ht, linked_append more hd.2.2.2.1, hd.2.2.2.2⟩
  | delete hd' v => exact ⟨hd.1, hd.2.1, linked_append more hd.2.2⟩
  | decSize v => exact ⟨hd.1, linked_append more hd.2⟩
  | _ => exact hd

end Everyfile.Queue
