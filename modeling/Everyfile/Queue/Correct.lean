import Everyfile.Queue.Invariant

/-!
# What the queue does, and when

Under `Orderly` every step of the two threads keeps the invariant (`QueueInv.enqStep`, `QueueInv.deqStep`), so the
values come out in the order in which they went in and no thread touches a deleted node (`queue_correct`). The stores of
`CAS` do not meet that condition by themselves: in `deleted_node_read` the consumer's store puts `Tail` back behind a
finished enqueue, dequeues past it, and the producer reads the node it has deleted.
-/

namespace Everyfile.Queue

variable {α : Type*} {s s' : State α} {h t : Nat}

/-! ## Nodes that are there -/

/-- Every node from `Head` on can be dereferenced. -/
theorem QueueInv.deref (hi : QueueInv s h t) {p : Ptr} {i : Nat} (hp : p.ptr = some i) (hlo : h ≤ i)
    (hhi : i ≤ s.linked.length) : ∃ e, s.deref p = some e ∧ NodeOk s.linked i e := by
  obtain ⟨e, he, hok⟩ := hi.nodes i ((s.deq.live_le h).trans hlo) hhi
  exact ⟨e, by rw [State.deref, hp, Option.bind_some, he], hok⟩

/-! ## `enqueue` -/

/-- A step of `enqueue` that changes its own locals only. -/
theorem QueueInv.setEnq (hi : QueueInv s h t) {pc : EnqPc α} (he : EnqOk s.heap s.allocated s.linked.length t pc) :
    QueueInv { s with enq := pc } h t :=
  { hi with enq_ok := he }

/-- The store to `Tail`. -/
theorem QueueInv.storeTail (hi : QueueInv s h t) {p : Ptr} {t' : Nat} (hp : p.ptr = some t') (ht : t ≤ t')
    (hlast : t' ≤ s.linked.length) : QueueInv { s with tail := p } h t' where
  head_eq := hi.head_eq
  tail_eq := hp
  head_le := hi.head_le.trans ht
  tail_le := hlast
  nodes := hi.nodes
  enq_ok := hi.enq_ok.mono ht hlast rfl
  deq_ok := by simpa using hi.deq_ok.mono [] ht
  returned_eq := hi.returned_eq
  faults_eq := hi.faults_eq

/-- The store of a `CAS` to `Tail` that loses no update: it leaves `Tail` alone or moves it on. -/
theorem QueueInv.casTail (hi : QueueInv s h t) {loaded atom : Ptr} (hlost : s.tail = loaded ∨ s.tail = atom)
    (hc : atom = loaded ∨ (s.tail = loaded → ∃ t', atom.ptr = some t' ∧ t ≤ t' ∧ t' ≤ s.linked.length)) :
    ∃ t', QueueInv { s with tail := atom } h t' := by
  have hsame : s.tail = atom → ∃ t', QueueInv { s with tail := atom } h t' := by
    rintro rfl
    exact ⟨t, hi⟩
  rcases hlost with hl | hl
  · rcases hc with rfl | hc
    · exact hsame hl
    · obtain ⟨t', hp, hle, hlast⟩ := hc hl
      exact ⟨t', hi.storeTail hp hle hlast⟩
  · exact hsame hl

/-- The store of a failed `CAS` to the `next` field of the last node, which it finds as loaded. -/
theorem QueueInv.setNext_last (hi : QueueInv s h t) {p q : Ptr} {e : Entry α} (hp : p.ptr = some s.linked.length)
    (hok : NodeOk s.linked s.linked.length e) (hq : q.ptr = none) {pc : EnqPc α}
    (hpc : EnqOk s.heap s.allocated s.linked.length t pc) :
    QueueInv { s with heap := s.setNext p e q, enq := pc } h t := by
  rw [heap_setNext hp]
  have hnodes : Nodes s.heap s.linked (s.deq.live h) := hi.nodes
  refine { hi with nodes := hnodes.setNext_last hok hq, enq_ok := ?_ }
  exact hpc.mono le_rfl hi.tail_le (Function.update_of_ne (by omega) ..)

/-- The store that links the new node. -/
theorem QueueInv.link (hi : QueueInv s h t) {p q : Ptr} {e : Entry α} {v : α} (hp : p.ptr = some s.linked.length)
    (hok : NodeOk s.linked s.linked.length e)
    (hnew : NewNode s.heap s.allocated s.linked.length v (s.linked.length + 1))
    (hq : q.ptr = some (s.linked.length + 1)) {tail : Ptr} :
    QueueInv { s with
      heap := s.setNext p e q, enq := .swing v (s.linked.length + 1) tail .load, linked := s.linked ++ [v] } h t := by
  obtain ⟨-, halloc, hheap⟩ := hnew
  have hlen : (s.linked ++ [v]).length = s.linked.length + 1 := by simp
  have hgiven : s.deq.given h ≤ s.linked.length := by
    have := hi.head_le; have := hi.tail_le
    cases s.deq <;> simp only [DeqPc.given] <;> omega
  have hnodes : Nodes s.heap s.linked (s.deq.live h) := hi.nodes
  rw [heap_setNext hp]
  exact { hi with
    tail_le := hi.tail_le.trans (by simp)
    nodes := hnodes.link hok hq hheap
    enq_ok := ⟨hlen.symm, by rw [halloc, hlen], trivial⟩
    deq_ok := hi.deq_ok.mono [v] le_rfl
    returned_eq := by rw [hi.returned_eq, List.take_append_of_le_length hgiven] }

theorem QueueInv.enqStep (hi : QueueInv s h t) {weak : Bool} (hok : Orderly s (.enq weak))
    (hs : enqStep weak s = some s') : ∃ t', QueueInv s' h t' := by
  obtain ⟨hlost, hlag⟩ := hok
  have hlen := hi.tail_le
  have hle := hi.head_le
  have he := hi.enq_ok
  unfold Queue.enqStep at hs
  cases hpc : s.enq with
  | idle => simp [hpc] at hs
  | loadTail v n =>
    rw [hpc] at hs he
    cases hs
    obtain ⟨e, hd, hnode⟩ := hi.deref hi.tail_eq hle hlen
    have hlast : t = s.linked.length := by
      have hnone := hlag (by rw [hpc]; rfl) e hd
      rw [hnode.1] at hnone
      by_contra hne
      rw [if_pos (by omega)] at hnone
      cases hnone
    exact ⟨t, hi.setEnq ⟨he, hlast, hlast ▸ hi.tail_eq⟩⟩
  | readNext v n tail =>
    rw [hpc] at hs he
    obtain ⟨hnew, ht, htail⟩ := he
    obtain ⟨e, hd, hnode⟩ := hi.deref htail (by omega) le_rfl
    simp only [hd] at hs
    cases hs
    exact ⟨t, hi.setEnq ⟨hnew, ht, htail, by simpa using hnode.1⟩⟩
  | recheck v n tail next =>
    rw [hpc] at hs he
    obtain ⟨hnew, ht, htail, hnext⟩ := he
    simp only [hnext, if_true] at hs
    cases hs
    refine ⟨t, hi.setEnq ?_⟩
    split
    · exact ⟨hnew, ht, htail, hnext, trivial⟩
    · exact hnew
  | link v n tail next c =>
    rw [hpc] at hs he
    obtain ⟨hnew, ht, htail, hnext, hc⟩ := he
    obtain ⟨e, hd, hnode⟩ := hi.deref htail (by omega) le_rfl
    cases c with
    | load =>
      simp only [hd] at hs
      cases hs
      exact ⟨t, hi.setEnq ⟨hnew, ht, htail, hnext, by simpa using hnode.1⟩⟩
    | exchange atom =>
      cases hs
      refine ⟨t, hi.setEnq ⟨hnew, ht, htail, hnext, ?_⟩⟩
      rcases exchange_eq atom next ⟨some n, next.counter + 1⟩ weak with hx | ⟨-, hx⟩ <;> rw [hx]
      · simpa using hc
      · rfl
    | store loaded atom res =>
      simp only [hd] at hs
      cases hs
      cases res with
      | false => exact ⟨t, hi.setNext_last htail hnode hc hnew⟩
      | true =>
        obtain rfl : n = s.linked.length + 1 := hnew.1
        exact ⟨t, hi.link htail hnode hnew hc⟩
  | help v n tail next c => rw [hpc] at he; exact he.elim
  | swing v n tail c =>
    rw [hpc] at hs he
    obtain ⟨hn, halloc, hc⟩ := he
    cases c with
    | load => cases hs; exact ⟨t, hi.setEnq ⟨hn, halloc, trivial⟩⟩
    | exchange atom =>
      cases hs
      refine ⟨t, hi.setEnq ⟨hn, halloc, ?_⟩⟩
      rcases exchange_eq atom tail ⟨some n, tail.counter + 1⟩ weak with hx | ⟨-, hx⟩ <;> rw [hx]
      · exact .inl rfl
      · exact .inr (congrArg some hn)
    | store loaded atom res =>
      cases hs
      have hset : QueueInv { s with enq := .incSize } h t := hi.setEnq halloc
      refine hset.casTail (hlost (loaded, atom) (by rw [hpc]; rfl)) (hc.imp_right fun hlast _ => ?_)
      exact ⟨s.linked.length, hlast, hlen, le_rfl⟩
  | incSize =>
    rw [hpc] at hs he
    cases hs
    have hset : QueueInv { s with enq := .idle } h t := hi.setEnq he
    exact ⟨t, { hset with }⟩

/-! ## `dequeue` -/

/-- A step of `dequeue` that changes its own locals only, and neither deletes nor returns. -/
theorem QueueInv.setDeq (hi : QueueInv s h t) {pc₀ pc : DeqPc α} (hpc : s.deq = pc₀) (hlive : pc₀.live h ≤ pc.live h)
    (hgiven : pc₀.given h = pc.given h) (hd : DeqOk s.linked s.head h t pc) : QueueInv { s with deq := pc } h t := by
  subst hpc
  exact { hi with
    nodes := fun i hlo hhi => hi.nodes i (hlive.trans hlo) hhi
    deq_ok := hd
    returned_eq := by rw [hi.returned_eq, hgiven] }

/-- The store that moves `Head` on. -/
theorem QueueInv.moveHead (hi : QueueInv s h t) {hd atom : Ptr} {v : α} (hlive : s.deq.live h = h)
    (hgiven : s.deq.given h = h) (hhd : hd = s.head) (hatom : atom.ptr = some (h + 1)) (ht : h + 1 ≤ t)
    (hv : s.linked[h]? = some v) : QueueInv { s with head := atom, deq := .delete hd v } (h + 1) t :=
  { hi with
    head_eq := hatom
    head_le := ht
    nodes := fun i hlo hhi => hi.nodes i (hlive.le.trans hlo) hhi
    deq_ok := ⟨by rw [hhd, hi.head_eq]; rfl, by omega, hv⟩
    returned_eq := by rw [hi.returned_eq, hgiven]; rfl }

/-- `delete` of the node before `Head`. -/
theorem QueueInv.free (hi : QueueInv s h t) {hd : Ptr} {v : α} (hpc : s.deq = .delete hd v) :
    QueueInv { s with heap := s.free hd, deq := .decSize v } h t := by
  have hok := hi.deq_ok
  have hle := hi.head_le
  have hlen := hi.tail_le
  have hret := hi.returned_eq
  rw [hpc] at hok hret
  obtain ⟨hhd, hpos, hv⟩ := hok
  rw [heap_free hhd]
  have hnodes : Nodes s.heap s.linked (s.deq.live h) := hi.nodes
  refine { hi with nodes := ?_, enq_ok := ?_, deq_ok := ⟨hpos, hv⟩, returned_eq := hret }
  · exact (hnodes.mono (s.deq.live_le h)).congr fun i hlo _ => Function.update_of_ne (by omega) ..
  · exact hi.enq_ok.mono le_rfl hlen (Function.update_of_ne (by omega) ..)

theorem QueueInv.deqStep (hi : QueueInv s h t) {weak : Bool} (hok : Orderly s (.deq weak))
    (hs : deqStep weak s = some s') : ∃ h' t', QueueInv s' h' t' := by
  have hlost : NoLostUpdate s s.deq.tailStore := hok
  have hlen := hi.tail_le
  have hle := hi.head_le
  have hd := hi.deq_ok
  unfold Queue.deqStep at hs
  cases hpc : s.deq with
  | idle => simp [hpc] at hs
  | loadHead =>
    rw [hpc] at hs
    cases hs
    exact ⟨h, t, hi.setDeq hpc le_rfl rfl rfl⟩
  | loadTail hd' =>
    rw [hpc] at hs hd
    cases hs
    exact ⟨h, t, hi.setDeq hpc le_rfl rfl ⟨hd, t, hi.tail_eq, hle, le_rfl⟩⟩
  | readNext hd' tl =>
    rw [hpc] at hs hd
    obtain ⟨rfl, a, ha, hha, hat⟩ := hd
    obtain ⟨e, hderef, hnode⟩ := hi.deref hi.head_eq le_rfl (by omega)
    simp only [hderef] at hs
    cases hs
    refine ⟨h, t, hi.setDeq hpc le_rfl rfl ⟨rfl, a, ha, hha, hat, ?_⟩⟩
    have hnext := hnode.1
    split at hnext
    · exact .inr ⟨hnext, by omega⟩
    · exact .inl ⟨hnext, by omega⟩
  | recheck hd' tl next =>
    rw [hpc] at hs hd
    obtain ⟨rfl, a, ha, hha, hat, hnext⟩ := hd
    simp only [if_true, hi.head_eq, ha, Option.some.injEq] at hs
    subst hs
    split
    next heq =>
      subst heq
      rcases hnext with ⟨hnone, -⟩ | ⟨hsome, hlast⟩
      · simp only [hnone, if_true]
        exact ⟨h, t, hi.setDeq hpc le_rfl rfl trivial⟩
      · simp only [hsome, reduceCtorEq, if_false]
        exact ⟨h, t, hi.setDeq hpc le_rfl rfl ⟨hsome, hlast, ha, trivial⟩⟩
    next hne =>
      rcases hnext with ⟨-, rfl⟩ | ⟨hsome, -⟩
      · exact absurd rfl hne
      · exact ⟨h, t, hi.setDeq hpc le_rfl rfl ⟨rfl, hsome, by omega⟩⟩
  | help hd' tl next c =>
    rw [hpc] at hs hd
    obtain ⟨hnext, hlast, htl, hc⟩ := hd
    cases c with
    | load =>
      cases hs
      exact ⟨h, t, hi.setDeq hpc le_rfl rfl ⟨hnext, hlast, htl, trivial⟩⟩
    | exchange atom =>
      cases hs
      refine ⟨h, t, hi.setDeq hpc le_rfl rfl ⟨hnext, hlast, htl, ?_⟩⟩
      rcases exchange_eq atom tl ⟨next.ptr, tl.counter + 1⟩ weak with hx | ⟨-, hx⟩ <;> rw [hx]
      · exact .inl rfl
      · exact .inr ⟨htl, hnext⟩
    | store loaded atom res =>
      cases hs
      have hset : QueueInv { s with deq := .loadHead } h t := hi.setDeq hpc le_rfl rfl trivial
      refine ⟨h, hset.casTail (hlost (loaded, atom) (by rw [hpc]; rfl)) (hc.imp_right fun hp heq => ?_)⟩
      -- `Tail` is as loaded, at the node of `Head`: the store moves it on
      obtain rfl : t = h := Option.some.inj (hi.tail_eq.symm.trans ((congrArg Ptr.ptr heq).trans hp.1))
      exact ⟨t + 1, hp.2, by omega, hlast⟩
  | readValue hd' next =>
    rw [hpc] at hs hd
    obtain ⟨rfl, hnext, ht⟩ := hd
    obtain ⟨e, hderef, hnode⟩ := hi.deref hnext (by omega) (by omega)
    simp only [hderef] at hs
    cases hs
    exact ⟨h, t, hi.setDeq hpc le_rfl rfl ⟨rfl, hnext, ht, hnode.2 h rfl, trivial⟩⟩
  | casHead hd' next v c =>
    rw [hpc] at hs hd
    obtain ⟨rfl, hnext, ht, hv, hc⟩ := hd
    cases c with
    | load =>
      cases hs
      exact ⟨h, t, hi.setDeq hpc le_rfl rfl ⟨rfl, hnext, ht, hv, rfl⟩⟩
    | exchange atom =>
      cases hs
      refine ⟨h, t, hi.setDeq hpc le_rfl rfl ⟨rfl, hnext, ht, hv, ?_⟩⟩
      rcases exchange_eq atom s.head ⟨next.ptr, s.head.counter + 1⟩ weak with hx | ⟨-, hx⟩ <;> rw [hx]
      · exact hc
      · exact hnext
    | store loaded atom res =>
      cases hs
      cases res with
      | true => exact ⟨h + 1, t, hi.moveHead (by rw [hpc]; rfl) (by rw [hpc]; rfl) rfl hc ht hv⟩
      | false =>
        obtain rfl : atom = s.head := hc
        have hset : QueueInv { s with deq := .loadHead } h t :=
          hi.setDeq hpc le_rfl rfl trivial
        exact ⟨h, t, hset⟩
  | delete hd' v =>
    rw [hpc] at hs
    cases hs
    exact ⟨h, t, hi.free hpc⟩
  | decSize v =>
    rw [hpc] at hs hd
    cases hs
    have hret := hi.returned_eq
    rw [hpc] at hret
    obtain ⟨hpos, hv⟩ := hd
    have hnodes : ∀ i, h ≤ i → i ≤ s.linked.length → ∃ e, s.heap i = some e ∧ NodeOk s.linked i e :=
      fun i hlo hhi => hi.nodes i (by rw [hpc]; exact hlo) hhi
    refine ⟨h, t, { hi with nodes := hnodes, deq_ok := trivial, returned_eq := ?_ }⟩
    obtain ⟨k, rfl⟩ : ∃ k, h = k + 1 := ⟨h - 1, by omega⟩
    change s.returned ++ [v] = s.linked.take (k + 1)
    rw [hret, List.take_add_one, show s.linked[k]? = some v from hv]
    rfl

/-! ## Runs -/

/-- The allocation of a node. -/
theorem QueueInv.call (hi : QueueInv s h t) (hidle : s.enq = .idle) (v : α) :
    QueueInv { s with
      heap := Function.update s.heap s.allocated (some ⟨v, ⟨none, 0⟩⟩)
      allocated := s.allocated + 1
      enq := .loadTail v s.allocated } h t := by
  have halloc : s.allocated = s.linked.length + 1 := by
    have he := hi.enq_ok
    rwa [hidle] at he
  refine { hi with nodes := fun i hlo hhi => ?_, enq_ok := ⟨halloc, congrArg (· + 1) halloc, Function.update_self ..⟩ }
  change i ≤ s.linked.length at hhi
  obtain ⟨e, he, hnode⟩ := hi.nodes i hlo hhi
  exact ⟨e, (Function.update_of_ne (by omega) ..).trans he, hnode⟩

theorem QueueInv.step (hi : QueueInv s h t) {a : Act α} (hok : Orderly s a) (hs : step s a = some s') :
    ∃ h' t', QueueInv s' h' t' := by
  cases a with
  | enqueue v =>
    simp only [Queue.step] at hs
    split at hs
    next hidle => cases hs; exact ⟨h, t, hi.call hidle v⟩
    next => cases hs
  | enq weak => exact ⟨h, hi.enqStep hok hs⟩
  | dequeue =>
    simp only [Queue.step] at hs
    split at hs
    next hidle => cases hs; exact ⟨h, t, hi.setDeq hidle le_rfl rfl trivial⟩
    next => cases hs
  | deq weak => exact hi.deqStep hok hs

/-- **When the queue is correct**: in every run whose stores to `Tail` lose no update and whose enqueues begin from the
last node, the values returned are a prefix of those linked and no deleted node is dereferenced. -/
theorem queue_correct (h : (system α).Reach Orderly s) : Correct s := by
  have hi : ∃ h t, QueueInv s h t := by
    refine h.invariant (P := fun s => ∃ h t, QueueInv s h t) ?_ ?_
    · rintro _ ⟨v₀, rfl⟩
      exact ⟨0, 0, queueInv_start v₀⟩
    · rintro s a s' ⟨h, t, hi⟩ hok hs
      exact hi.step hok hs
  obtain ⟨h, t, hi⟩ := hi
  exact hi.correct

/-- Steps without spurious failures. -/
def enqs (n : Nat) : List (Act Nat) := List.replicate n (.enq false)

def deqs (n : Nat) : List (Act Nat) := List.replicate n (.deq false)

/-- Two values go in, with a dequeue between them and one after; both come out. -/
theorem queue_correct_two : ∃ s : State Nat, s.linked = [1, 2] ∧ s.returned = [1, 2] ∧ Correct s := by
  obtain ⟨s, hs, hp⟩ := Transition.System.reach_of_runIf (system Nat) (start 0) Orderly
    (fun s a => decide (Orderly s a)) (fun _ _ => of_decide_eq_true) ⟨0, rfl⟩
    ([.enqueue 1] ++ enqs 10 ++ [.dequeue] ++ deqs 10 ++ [.enqueue 2] ++ enqs 10 ++ [.dequeue] ++ deqs 10)
    (fun s => decide (s.linked = [1, 2] ∧ s.returned = [1, 2])) (by decide +kernel)
  obtain ⟨hlinked, hreturned⟩ := of_decide_eq_true hp
  exact ⟨s, hlinked, hreturned, queue_correct hs⟩

/-- The consumer is about to store the first node to `Tail` when the producer finishes its first enqueue and a second
one; the store puts `Tail` back to the first node. The producer reads it there, the consumer dequeues and deletes that
node, and the producer dereferences it. -/
theorem deleted_node_read : ∃ s : State Nat, (system Nat).Reachable s ∧ s.heap 1 = none ∧
    s.faults.map Ptr.ptr = [some 1] ∧ ¬Correct s := by
  obtain ⟨s, hs, hp⟩ := Transition.System.reachable_of_run (system Nat) (start 0) ⟨0, rfl⟩
    ([.enqueue 1] ++ enqs 6 ++ [.dequeue] ++ deqs 6 ++ enqs 4 ++ [.enqueue 2] ++ enqs 10 ++ deqs 11 ++ [.enqueue 3] ++
      enqs 1 ++ [.dequeue] ++ deqs 17 ++ enqs 1)
    (fun s => (s.heap 1).isNone && decide (s.faults.map Ptr.ptr = [some 1])) (by decide +kernel)
  obtain ⟨hheap, hfaults⟩ := Bool.and_eq_true_iff.mp hp
  have hfaults := of_decide_eq_true hfaults
  refine ⟨s, hs, Option.isNone_iff_eq_none.mp hheap, hfaults, fun hc => ?_⟩
  rw [hc.2] at hfaults
  simp at hfaults

end Everyfile.Queue
