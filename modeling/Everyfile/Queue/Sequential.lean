import Everyfile.Queue.Invariant

/-!
# The queue in the hands of one thread

Runs of the steps of `enqueue` and `dequeue` in which a call begins only when the one before has returned (`Alone`). The
other thread being away, what a call has read of `Head`, `Tail` and the nodes stays as read, so a `CAS` fails only
without cause; if the one behind the loop of `enqueue` does, `Tail` is left one node behind, and the next call finds it
there. `SeqInv` is the invariant, and each step of a call keeps it, keeps the account of the values and, unless it fails
without cause, comes nearer to the return (`SeqInv.enqStep`, `SeqInv.deqStep`).

With finitely many such failures every call returns, and the queue is a list, first in first out (`fifo_refined`).
-/

namespace Everyfile.Queue

variable {α : Type*}

/-! ## Calls one after the other -/

def EnqPc.isIdle : EnqPc α → Bool
  | .idle => true
  | _ => false

def DeqPc.isIdle : DeqPc α → Bool
  | .idle => true
  | _ => false

/-- A call begins only when no other one is under way. -/
def Alone (s : State α) : Act α → Prop
  | .enqueue _ => s.deq.isIdle = true
  | .dequeue => s.enq.isIdle = true
  | .enq _ | .deq _ => True

/-! ## The calls on their way -/

namespace EnqPc

/-- The value of a call whose node has not been linked. -/
def pending : EnqPc α → List α
  | .loadTail v _ | .readNext v .. | .recheck v .. | .link v .. | .help v .. => [v]
  | _ => []

/-- The node that has been linked and not been counted. -/
def uncounted : EnqPc α → Nat
  | .swing .. | .incSize => 1
  | _ => 0

/-- A bound on the steps to the return if no `CAS` fails without cause and `Tail` lags by `lag` nodes. -/
def rank (lag : Nat) : EnqPc α → Nat
  | .idle => 0
  | .incSize => 1
  | .swing _ _ _ c =>
    match c with
    | .store .. => 2
    | .exchange _ => 3
    | .load => 4
  | .link _ _ _ _ c =>
    match c with
    | .store _ _ true => 5
    | .exchange _ => 6
    | .load => 7
    | .store _ _ false => 11 + 6 * lag
  | .recheck .. => 8 + 6 * lag
  | .readNext .. => 9 + 6 * lag
  | .loadTail .. => 10 + 6 * lag
  | .help _ _ _ _ c =>
    match c with
    | .store _ _ true => 11
    | .exchange _ => 12
    | .load => 13
    | .store _ _ false => 17

end EnqPc

def DeqPc.rank (lag : Nat) : DeqPc α → Nat
  | .idle => 0
  | .decSize _ => 1
  | .delete .. => 2
  | .casHead _ _ _ c =>
    match c with
    | .store _ _ true => 3
    | .exchange _ => 4
    | .load => 5
    | .store _ _ false => 11 + 7 * lag
  | .readValue .. => 6
  | .recheck .. => 7 + 7 * lag
  | .readNext .. => 8 + 7 * lag
  | .loadTail _ => 9 + 7 * lag
  | .loadHead => 10 + 7 * lag
  | .help _ _ _ c =>
    match c with
    | .store _ _ true => 11
    | .exchange _ => 12
    | .load => 13
    | .store _ _ false => 18

/-- A bound on the steps of the call under way. -/
def State.rank (s : State α) : Nat :=
  let lag := if s.tail.ptr = some s.linked.length then 0 else 1
  s.enq.rank lag + s.deq.rank lag

/-! ## The invariant -/

/-- `p` is the `next` field of the node that `q` points to. -/
def State.NextOf (s : State α) (q p : Ptr) : Prop := ∃ e, s.deref q = some e ∧ e.next = p

/-- The locals of `enqueue`: what has been read is still there. -/
def EnqExact (s : State α) (t : Nat) : EnqPc α → Prop
  | .idle | .incSize => s.allocated = s.linked.length + 1
  | .loadTail v n => NewNode s.heap s.allocated s.linked.length v n
  | .readNext v n tail => NewNode s.heap s.allocated s.linked.length v n ∧ tail = s.tail
  | .recheck v n tail next =>
    NewNode s.heap s.allocated s.linked.length v n ∧ tail = s.tail ∧ s.NextOf s.tail next
  | .link v n tail next c =>
    NewNode s.heap s.allocated s.linked.length v n ∧ tail = s.tail ∧ s.NextOf s.tail next ∧ next.ptr = none ∧
      match c with
      | .load => True
      | .exchange atom => atom = next
      | .store _ atom res => atom.ptr = if res then some n else none
  | .help v n tail next c =>
    NewNode s.heap s.allocated s.linked.length v n ∧ tail = s.tail ∧ next.ptr = some (t + 1) ∧ t < s.linked.length ∧
      match c with
      | .load => True
      | .exchange atom => atom = s.tail
      | .store _ atom res => if res then atom.ptr = some (t + 1) else atom = s.tail
  | .swing _ n tail c =>
    n = s.linked.length ∧ s.allocated = s.linked.length + 1 ∧ tail = s.tail ∧
      match c with
      | .load => True
      | .exchange atom => atom = s.tail
      | .store _ atom res => if res then atom.ptr = some s.linked.length else atom = s.tail

/-- The locals of `dequeue`, likewise. -/
def DeqExact (s : State α) (h t : Nat) : DeqPc α → Prop
  | .idle | .loadHead => True
  | .loadTail hd => hd = s.head
  | .readNext hd tl => hd = s.head ∧ tl = s.tail
  | .recheck hd tl next => hd = s.head ∧ tl = s.tail ∧ s.NextOf s.head next
  | .help _ tl next c =>
    tl = s.tail ∧ t = h ∧ next.ptr = some (t + 1) ∧ t < s.linked.length ∧
      match c with
      | .load => True
      | .exchange atom => atom = s.tail
      | .store _ atom res => if res then atom.ptr = some (t + 1) else atom = s.tail
  | .readValue hd next => hd = s.head ∧ next.ptr = some (h + 1) ∧ h < t
  | .casHead hd next v c =>
    hd = s.head ∧ next.ptr = some (h + 1) ∧ h < t ∧ s.linked[h]? = some v ∧
      match c with
      | .load => True
      | .exchange atom => atom = s.head
      | .store _ atom res => if res then atom.ptr = some (h + 1) else atom = s.head
  | .delete hd v => hd.ptr = some (h - 1) ∧ 1 ≤ h ∧ s.linked[h - 1]? = some v
  | .decSize v => 1 ≤ h ∧ s.linked[h - 1]? = some v

/-- One thread: `Tail` points to the last node or the one before it, and the size counts the nodes behind `Head`. -/
structure SeqInv (s : State α) (h t : Nat) : Prop where
  alone : s.enq.isIdle = true ∨ s.deq.isIdle = true
  head_eq : s.head.ptr = some h
  tail_eq : s.tail.ptr = some t
  head_le : h ≤ t
  tail_le : t ≤ s.linked.length
  lag : s.linked.length ≤ t + 1
  nodes : Nodes s.heap s.linked (s.deq.live h)
  enq_ok : EnqExact s t s.enq
  deq_ok : DeqExact s h t s.deq
  returned_eq : s.returned = s.linked.take (s.deq.given h)
  size_eq : s.size + s.enq.uncounted + s.returned.length = s.linked.length

variable {s s' : State α} {h t : Nat}

theorem EnqPc.eq_idle {pc : EnqPc α} (hpc : pc.isIdle = true) : pc = .idle := by
  cases pc <;> first | rfl | cases hpc

theorem DeqPc.eq_idle {pc : DeqPc α} (hpc : pc.isIdle = true) : pc = .idle := by
  cases pc <;> first | rfl | cases hpc

theorem seqInv_start (v₀ : α) : SeqInv (start v₀) 0 0 where
  alone := .inl rfl
  head_eq := rfl
  tail_eq := rfl
  head_le := le_rfl
  tail_le := le_rfl
  lag := Nat.zero_le _
  nodes := (queueInv_start v₀).nodes
  enq_ok := rfl
  deq_ok := trivial
  returned_eq := rfl
  size_eq := rfl

/-- A node of the list, read through a pointer to it. -/
theorem SeqInv.deref (hi : SeqInv s h t) {p : Ptr} {i : Nat} (hp : p.ptr = some i) (hlo : s.deq.live h ≤ i)
    (hhi : i ≤ s.linked.length) : ∃ e, s.deref p = some e ∧ NodeOk s.linked i e := by
  obtain ⟨e, he, hok⟩ := hi.nodes i hlo hhi
  exact ⟨e, by rw [State.deref, hp, Option.bind_some, he], hok⟩

/-- The exchange of a `CAS` that finds what it expects. -/
theorem exchange_self (oldv newv : Ptr) (weak : Bool) :
    exchange oldv oldv newv weak = if weak then .store oldv oldv false else .store oldv newv true := by
  cases weak <;> simp [exchange]

theorem SeqInv.rank_eq (hi : SeqInv s h t) :
    s.rank = s.enq.rank (s.linked.length - t) + s.deq.rank (s.linked.length - t) := by
  have hlag : (if s.tail.ptr = some s.linked.length then 0 else 1) = s.linked.length - t := by
    have := hi.tail_le
    have := hi.lag
    rw [hi.tail_eq]
    split
    next heq =>
      have := Option.some_inj.mp heq
      omega
    next hne =>
      have hne : t ≠ s.linked.length := fun heq => hne (congrArg some heq)
      omega
  rw [State.rank, hlag]

/-! ## `enqueue` -/

/-- What a step of `enqueue` leaves, and what it brings nearer. -/
structure EnqAdvance (s s' : State α) (h : Nat) (weak : Bool) : Prop where
  inv : ∃ t, SeqInv s' h t
  rank : weak = false → s'.rank < s.rank
  values : s'.linked ++ s'.enq.pending = s.linked ++ s.enq.pending
  returned_eq : s'.returned = s.returned
  deq_eq : s'.deq = s.deq

section Enq

variable {weak : Bool}

/-- A call under way has a next step. -/
theorem enqStep_isSome (hbusy : s.enq.isIdle = false) (weak : Bool) : ∃ s', enqStep weak s = some s' := by
  fun_cases enqStep weak s with
  | case1 hpc => simp [hpc, EnqPc.isIdle] at hbusy
  | _ => exact ⟨_, rfl⟩

/-- A step that changes the locals only. -/
theorem SeqInv.enqLocal (hi : SeqInv s h t) (hdeq : s.deq.isIdle = true) {pc₀ pc : EnqPc α} (hpc : s.enq = pc₀)
    (hok : EnqExact s t pc) (hunc : pc.uncounted = pc₀.uncounted) (hpend : pc.pending = pc₀.pending)
    (hrank : weak = false → pc.rank (s.linked.length - t) < pc₀.rank (s.linked.length - t)) :
    EnqAdvance s { s with enq := pc } h weak := by
  subst hpc
  have hinv : SeqInv { s with enq := pc } h t :=
    { hi with
      alone := .inr hdeq
      enq_ok := hok
      size_eq := by rw [hunc]; exact hi.size_eq }
  refine ⟨⟨t, hinv⟩, fun hw => ?_, by rw [hpend], rfl, rfl⟩
  rw [hinv.rank_eq, hi.rank_eq]
  exact Nat.add_lt_add_right (hrank hw) _

/-- The store of a `CAS` to `Tail`. -/
theorem SeqInv.enqTail (hi : SeqInv s h t) (hdeq : s.deq.isIdle = true) {pc₀ pc : EnqPc α} (hpc : s.enq = pc₀)
    {t' : Nat} {atom : Ptr} (hatom : atom.ptr = some t') (ht : t ≤ t') (hlast : t' ≤ s.linked.length)
    (hok : EnqExact { s with tail := atom } t' pc) (hunc : pc.uncounted = pc₀.uncounted)
    (hpend : pc.pending = pc₀.pending) (hrank : pc.rank (s.linked.length - t') < pc₀.rank (s.linked.length - t)) :
    EnqAdvance s { s with tail := atom, enq := pc } h weak := by
  subst hpc
  have hidle := DeqPc.eq_idle hdeq
  have hlag : s.linked.length ≤ t' + 1 := by
    have := hi.lag
    omega
  have hinv : SeqInv { s with tail := atom, enq := pc } h t' :=
    { hi with
      alone := .inr hdeq
      tail_eq := hatom
      head_le := hi.head_le.trans ht
      tail_le := hlast
      lag := hlag
      enq_ok := hok
      deq_ok := by rw [hidle]; trivial
      size_eq := by rw [hunc]; exact hi.size_eq }
  refine ⟨⟨t', hinv⟩, fun _ => ?_, by rw [hpend], rfl, rfl⟩
  rw [hinv.rank_eq, hi.rank_eq, hidle]
  exact hrank

/-- The store of a `CAS` to the `next` field of the last node. -/
theorem SeqInv.enqLink (hi : SeqInv s h t) (hdeq : s.deq.isIdle = true) {v : α} {n : Nat} {next loaded atom : Ptr}
    {res : Bool} (hpc : s.enq = .link v n s.tail next (.store loaded atom res)) {e : Entry α} (ht : t = s.linked.length)
    (hnode : NodeOk s.linked t e) (hnew : NewNode s.heap s.allocated s.linked.length v n)
    (hatom : atom.ptr = if res then some n else none) :
    EnqAdvance s { s with
      heap := s.setNext s.tail e atom
      enq := if res then .swing v n s.tail .load else .loadTail v n
      linked := if res then s.linked ++ [v] else s.linked } h weak := by
  have hidle := DeqPc.eq_idle hdeq
  obtain ⟨rfl, halloc, hheap⟩ := hnew
  subst ht
  rw [heap_setNext hi.tail_eq]
  cases res with
  | false =>
    have hkeep : Function.update s.heap s.linked.length (some { e with next := atom }) (s.linked.length + 1) =
        s.heap (s.linked.length + 1) := Function.update_of_ne (by omega) ..
    have hinv : SeqInv { s with
        heap := Function.update s.heap s.linked.length (some { e with next := atom })
        enq := .loadTail v (s.linked.length + 1) } h s.linked.length :=
      { hi with
        alone := .inr hdeq
        nodes := hi.nodes.setNext_last hnode hatom
        enq_ok := ⟨rfl, halloc, hkeep.trans hheap⟩
        deq_ok := by rw [hidle]; trivial
        size_eq := by rw [← hi.size_eq, hpc]; rfl }
    refine ⟨⟨_, hinv⟩, fun _ => (hinv.rank_eq.trans_lt ?_).trans_eq hi.rank_eq.symm, by rw [hpc]; rfl, rfl, rfl⟩
    simp only [hpc, EnqPc.rank]
    omega
  | true =>
    have hlen : (s.linked ++ [v]).length = s.linked.length + 1 := by simp
    have hret : s.returned = (s.linked ++ [v]).take (s.deq.given h) := by
      have hgiven : s.deq.given h ≤ s.linked.length := by rw [hidle]; exact hi.head_le
      rw [hi.returned_eq, List.take_append_of_le_length hgiven]
    have hinv : SeqInv { s with
        heap := Function.update s.heap s.linked.length (some { e with next := atom })
        enq := .swing v (s.linked.length + 1) s.tail .load
        linked := s.linked ++ [v] } h s.linked.length :=
      { hi with
        alone := .inr hdeq
        tail_le := by rw [hlen]; omega
        lag := hlen.le
        nodes := hi.nodes.link hnode hatom hheap
        enq_ok := ⟨hlen.symm, by rw [halloc, hlen], rfl, trivial⟩
        deq_ok := by rw [hidle]; trivial
        returned_eq := hret
        size_eq := by
          have hsize := hi.size_eq
          simp only [hpc, EnqPc.uncounted] at hsize
          simp only [hlen, EnqPc.uncounted]
          omega }
    refine ⟨⟨_, hinv⟩, fun _ => (hinv.rank_eq.trans_lt ?_).trans_eq hi.rank_eq.symm,
      by rw [hpc]; simp [EnqPc.pending], rfl, rfl⟩
    simp only [hpc, hidle, EnqPc.rank, DeqPc.rank]
    omega

/-- **The step of `enqueue`.** -/
theorem SeqInv.enqStep (hi : SeqInv s h t) (hs : enqStep weak s = some s') : EnqAdvance s s' h weak := by
  have hbusy : s.enq.isIdle = false := by
    by_contra hidle
    have hpc := EnqPc.eq_idle (by simpa using hidle)
    simp [Queue.enqStep, hpc] at hs
  have hdeq : s.deq.isIdle = true := hi.alone.resolve_left (by simp [hbusy])
  have hle := hi.head_le
  have hlen := hi.tail_le
  have hlag := hi.lag
  have he := hi.enq_ok
  have hlive : s.deq.live h ≤ t := by rw [DeqPc.eq_idle hdeq]; exact hle
  obtain ⟨e, hderef, hnode⟩ := hi.deref hi.tail_eq hlive hlen
  unfold Queue.enqStep at hs
  cases hpc : s.enq with
  | idle => simp [hpc, EnqPc.isIdle] at hbusy
  | loadTail v n =>
    rw [hpc] at hs he
    cases hs
    exact hi.enqLocal hdeq hpc ⟨he, rfl⟩ rfl rfl fun _ => by simp only [EnqPc.rank]; omega
  | readNext v n tail =>
    rw [hpc] at hs he
    obtain ⟨hnew, rfl⟩ := he
    simp only [hderef] at hs
    cases hs
    exact hi.enqLocal hdeq hpc ⟨hnew, rfl, e, hderef, rfl⟩ rfl rfl fun _ => by simp only [EnqPc.rank]; omega
  | recheck v n tail next =>
    rw [hpc] at hs he
    obtain ⟨hnew, rfl, e', he', rfl⟩ := he
    obtain rfl := Option.some_inj.mp (hderef.symm.trans he')
    have hnext := hnode.1
    split at hnext
    next hlt =>
      -- `Tail` lags behind
      simp only [hnext, reduceCtorEq, if_true, if_false] at hs
      cases hs
      exact hi.enqLocal hdeq hpc ⟨hnew, rfl, hnext, hlt, trivial⟩ rfl rfl fun _ => by simp only [EnqPc.rank]; omega
    next =>
      simp only [hnext, if_true] at hs
      cases hs
      exact hi.enqLocal hdeq hpc ⟨hnew, rfl, ⟨e, hderef, rfl⟩, hnext, trivial⟩ rfl rfl
        fun _ => by simp only [EnqPc.rank]; omega
  | link v n tail next c =>
    rw [hpc] at hs he
    obtain ⟨hnew, rfl, ⟨e', he', rfl⟩, hnone, hc⟩ := he
    obtain rfl := Option.some_inj.mp (hderef.symm.trans he')
    have ht : t = s.linked.length := by
      by_contra hne
      rw [hnode.1, if_pos (by omega)] at hnone
      cases hnone
    cases c with
    | load =>
      simp only [hderef] at hs
      cases hs
      exact hi.enqLocal hdeq hpc ⟨hnew, rfl, ⟨e, hderef, rfl⟩, hnone, rfl⟩ rfl rfl
        fun _ => by simp only [EnqPc.rank]; omega
    | exchange atom =>
      obtain rfl : atom = e.next := hc
      simp only [exchange_self] at hs
      cases hs
      cases weak with
      | false =>
        exact hi.enqLocal hdeq hpc ⟨hnew, rfl, ⟨e, hderef, rfl⟩, hnone, rfl⟩ rfl rfl
          fun _ => by simp [EnqPc.rank]
      | true => exact hi.enqLocal hdeq hpc ⟨hnew, rfl, ⟨e, hderef, rfl⟩, hnone, hnone⟩ rfl rfl nofun
    | store loaded atom res =>
      simp only [hderef] at hs
      cases hs
      exact hi.enqLink hdeq hpc ht hnode hnew hc
  | help v n tail next c =>
    rw [hpc] at hs he
    obtain ⟨hnew, rfl, hnext, hlt, hc⟩ := he
    cases c with
    | load =>
      cases hs
      exact hi.enqLocal hdeq hpc ⟨hnew, rfl, hnext, hlt, rfl⟩ rfl rfl fun _ => by simp only [EnqPc.rank]; omega
    | exchange atom =>
      obtain rfl : atom = s.tail := hc
      simp only [exchange_self] at hs
      cases hs
      cases weak with
      | false => exact hi.enqLocal hdeq hpc ⟨hnew, rfl, hnext, hlt, hnext⟩ rfl rfl fun _ => by simp [EnqPc.rank]
      | true => exact hi.enqLocal hdeq hpc ⟨hnew, rfl, hnext, hlt, rfl⟩ rfl rfl nofun
    | store loaded atom res =>
      cases hs
      cases res with
      | false =>
        obtain rfl : atom = s.tail := hc
        exact hi.enqTail hdeq hpc hi.tail_eq le_rfl hlen hnew rfl rfl (by simp only [EnqPc.rank]; omega)
      | true => exact hi.enqTail hdeq hpc hc (by omega) hlt hnew rfl rfl (by simp only [EnqPc.rank]; omega)
  | swing v n tail c =>
    rw [hpc] at hs he
    obtain ⟨hn, halloc, rfl, hc⟩ := he
    cases c with
    | load =>
      cases hs
      exact hi.enqLocal hdeq hpc ⟨hn, halloc, rfl, rfl⟩ rfl rfl fun _ => by simp only [EnqPc.rank]; omega
    | exchange atom =>
      obtain rfl : atom = s.tail := hc
      simp only [exchange_self] at hs
      cases hs
      cases weak with
      | false =>
        exact hi.enqLocal hdeq hpc ⟨hn, halloc, rfl, congrArg some hn⟩ rfl rfl fun _ => by simp [EnqPc.rank]
      | true => exact hi.enqLocal hdeq hpc ⟨hn, halloc, rfl, rfl⟩ rfl rfl nofun
    | store loaded atom res =>
      cases hs
      cases res with
      | false =>
        obtain rfl : atom = s.tail := hc
        exact hi.enqTail hdeq hpc hi.tail_eq le_rfl hlen halloc rfl rfl (by simp only [EnqPc.rank]; omega)
      | true => exact hi.enqTail hdeq hpc hc hlen le_rfl halloc rfl rfl (by simp only [EnqPc.rank]; omega)
  | incSize =>
    rw [hpc] at hs he
    cases hs
    have hinv : SeqInv { s with size := s.size + 1, enq := .idle } h t :=
      { hi with
        alone := .inl rfl
        enq_ok := he
        size_eq := by
          have hsize := hi.size_eq
          simp only [hpc, EnqPc.uncounted] at hsize ⊢
          omega }
    refine ⟨⟨t, hinv⟩, fun _ => (hinv.rank_eq.trans_lt ?_).trans_eq hi.rank_eq.symm, by rw [hpc]; rfl, rfl, rfl⟩
    simp only [hpc, EnqPc.rank]
    omega

end Enq

/-! ## `dequeue` -/

/-- What a step of `dequeue` leaves, and what it brings nearer; when it returns, one more of the linked values has been
returned, if there was one. -/
structure DeqAdvance (s s' : State α) (weak : Bool) : Prop where
  inv : ∃ h t, SeqInv s' h t
  rank : weak = false → s'.rank < s.rank
  linked_eq : s'.linked = s.linked
  enq_eq : s'.enq = s.enq
  returned_eq : s'.returned = if s'.deq.isIdle then s.linked.take (s.returned.length + 1) else s.returned

section Deq

variable {weak : Bool}

theorem deqStep_isSome (hbusy : s.deq.isIdle = false) (weak : Bool) : ∃ s', deqStep weak s = some s' := by
  fun_cases deqStep weak s with
  | case1 hpc => simp [hpc, DeqPc.isIdle] at hbusy
  | _ => exact ⟨_, rfl⟩

/-- A step that changes the locals only. -/
theorem SeqInv.deqLocal (hi : SeqInv s h t) (henq : s.enq.isIdle = true) {pc₀ pc : DeqPc α} (hpc : s.deq = pc₀)
    (hok : DeqExact s h t pc) (hbusy : pc.isIdle = false) (hlive : pc.live h = pc₀.live h)
    (hgiven : pc.given h = pc₀.given h)
    (hrank : weak = false → pc.rank (s.linked.length - t) < pc₀.rank (s.linked.length - t)) :
    DeqAdvance s { s with deq := pc } weak := by
  subst hpc
  have hinv : SeqInv { s with deq := pc } h t :=
    { hi with
      alone := .inl henq
      nodes := by rw [hlive]; exact hi.nodes
      deq_ok := hok
      returned_eq := by rw [hgiven]; exact hi.returned_eq }
  refine ⟨⟨h, t, hinv⟩, fun hw => ?_, rfl, rfl, by rw [hbusy]; rfl⟩
  rw [hinv.rank_eq, hi.rank_eq]
  exact Nat.add_lt_add_left (hrank hw) _

/-- The store of a `CAS` to `Tail`. -/
theorem SeqInv.deqTail (hi : SeqInv s h t) (henq : s.enq.isIdle = true) {hd tl next loaded atom : Ptr} {res : Bool}
    (hpc : s.deq = .help hd tl next (.store loaded atom res)) {t' : Nat} (hatom : atom.ptr = some t') (ht : t ≤ t')
    (hlast : t' ≤ s.linked.length)
    (hrank : (DeqPc.loadHead : DeqPc α).rank (s.linked.length - t') < s.deq.rank (s.linked.length - t)) :
    DeqAdvance s { s with tail := atom, deq := .loadHead } weak := by
  have hidle := EnqPc.eq_idle henq
  have hlag : s.linked.length ≤ t' + 1 := by
    have := hi.lag
    omega
  have hret := hi.returned_eq
  have hnodes := hi.nodes
  have henqOk := hi.enq_ok
  rw [hpc] at hret hnodes
  rw [hidle] at henqOk
  have hinv : SeqInv { s with tail := atom, deq := .loadHead } h t' :=
    { hi with
      alone := .inl henq
      tail_eq := hatom
      head_le := hi.head_le.trans ht
      tail_le := hlast
      lag := hlag
      nodes := hnodes
      enq_ok := by rw [hidle]; exact henqOk
      deq_ok := trivial
      returned_eq := hret }
  refine ⟨⟨h, t', hinv⟩, fun _ => ?_, rfl, rfl, rfl⟩
  rw [hinv.rank_eq, hi.rank_eq, hidle]
  exact Nat.add_lt_add_left hrank _

/-- The store of a `CAS` to `Head` that moves it on. -/
theorem SeqInv.deqHead (hi : SeqInv s h t) (henq : s.enq.isIdle = true) {next loaded atom : Ptr} {v : α}
    (hpc : s.deq = .casHead s.head next v (.store loaded atom true)) (hatom : atom.ptr = some (h + 1)) (ht : h < t)
    (hv : s.linked[h]? = some v) : DeqAdvance s { s with head := atom, deq := .delete s.head v } weak := by
  have hidle := EnqPc.eq_idle henq
  have hret := hi.returned_eq
  have hnodes := hi.nodes
  have henqOk := hi.enq_ok
  rw [hpc] at hret hnodes
  rw [hidle] at henqOk
  have hinv : SeqInv { s with head := atom, deq := .delete s.head v } (h + 1) t :=
    { hi with
      alone := .inl henq
      head_eq := hatom
      head_le := ht
      nodes := hnodes
      enq_ok := by rw [hidle]; exact henqOk
      deq_ok := ⟨hi.head_eq, by omega, hv⟩
      returned_eq := hret }
  refine ⟨⟨h + 1, t, hinv⟩, fun _ => (hinv.rank_eq.trans_lt ?_).trans_eq hi.rank_eq.symm, rfl, rfl, rfl⟩
  simp only [hpc, DeqPc.rank]
  omega

/-- `delete` of the node before `Head`. -/
theorem SeqInv.deqDelete (hi : SeqInv s h t) (henq : s.enq.isIdle = true) {hd : Ptr} {v : α}
    (hpc : s.deq = .delete hd v) : DeqAdvance s { s with heap := s.free hd, deq := .decSize v } weak := by
  have hidle := EnqPc.eq_idle henq
  have hd := hi.deq_ok
  have hret := hi.returned_eq
  have henqOk := hi.enq_ok
  rw [hpc] at hret hd
  rw [hidle] at henqOk
  obtain ⟨hhd, hpos, hv⟩ := hd
  rw [heap_free hhd]
  have hnodes : Nodes (Function.update s.heap (h - 1) none) s.linked h :=
    (hi.nodes.mono (s.deq.live_le h)).congr fun i hlo _ => Function.update_of_ne (by omega) ..
  have hinv : SeqInv { s with heap := Function.update s.heap (h - 1) none, deq := .decSize v } h t :=
    { hi with
      alone := .inl henq
      nodes := hnodes
      enq_ok := by rw [hidle]; exact henqOk
      deq_ok := ⟨hpos, hv⟩
      returned_eq := hret }
  refine ⟨⟨h, t, hinv⟩, fun _ => (hinv.rank_eq.trans_lt ?_).trans_eq hi.rank_eq.symm, rfl, rfl, rfl⟩
  simp only [hpc, DeqPc.rank]
  omega

/-- The return with a value. -/
theorem SeqInv.deqDecSize (hi : SeqInv s h t) (henq : s.enq.isIdle = true) {v : α} (hpc : s.deq = .decSize v) :
    DeqAdvance s { s with size := s.size - 1, deq := .idle, returned := s.returned ++ [v] } weak := by
  have hd := hi.deq_ok
  have hret := hi.returned_eq
  have hnodes := hi.nodes
  rw [hpc] at hret hd hnodes
  obtain ⟨hpos, hv⟩ := hd
  obtain ⟨k, rfl⟩ : ∃ k, h = k + 1 := ⟨h - 1, by omega⟩
  have hret : s.returned = s.linked.take k := hret
  have hnew : s.returned ++ [v] = s.linked.take (k + 1) := by
    rw [hret, List.take_add_one, show s.linked[k]? = some v from hv]
    rfl
  have hlen : s.returned.length = k := by
    rw [hret, List.length_take]
    have := hi.head_le
    have := hi.tail_le
    omega
  have hinv : SeqInv { s with size := s.size - 1, deq := .idle, returned := s.returned ++ [v] } (k + 1) t :=
    { hi with
      alone := .inl henq
      nodes := hnodes
      deq_ok := trivial
      returned_eq := hnew
      size_eq := by
        have hsize := hi.size_eq
        simp only [List.length_append, List.length_singleton]
        omega }
  refine ⟨⟨k + 1, t, hinv⟩, fun _ => (hinv.rank_eq.trans_lt ?_).trans_eq hi.rank_eq.symm, rfl, rfl, ?_⟩
  · simp only [hpc, DeqPc.rank]
    omega
  · rw [hlen]
    exact hnew

/-- The return without a value. -/
theorem SeqInv.deqEmpty (hi : SeqInv s h t) (henq : s.enq.isIdle = true) {hd tl next : Ptr}
    (hpc : s.deq = .recheck hd tl next) (hh : h = s.linked.length) :
    DeqAdvance s { s with deq := .idle } weak := by
  have hret := hi.returned_eq
  have hnodes := hi.nodes
  rw [hpc] at hret hnodes
  have hinv : SeqInv { s with deq := .idle } h t :=
    { hi with
      alone := .inl henq
      nodes := hnodes
      deq_ok := trivial
      returned_eq := hret }
  refine ⟨⟨h, t, hinv⟩, fun _ => (hinv.rank_eq.trans_lt ?_).trans_eq hi.rank_eq.symm, rfl, rfl, ?_⟩
  · simp only [hpc, DeqPc.rank]
    omega
  · have hall : s.returned = s.linked := by rw [hret, hh]; exact List.take_length
    show s.returned = s.linked.take (s.returned.length + 1)
    rw [hall, List.take_of_length_le (by omega)]

/-- **The step of `dequeue`.** -/
theorem SeqInv.deqStep (hi : SeqInv s h t) (hs : deqStep weak s = some s') : DeqAdvance s s' weak := by
  have hbusy : s.deq.isIdle = false := by
    by_contra hidle
    have hpc := DeqPc.eq_idle (by simpa using hidle)
    simp [Queue.deqStep, hpc] at hs
  have henq : s.enq.isIdle = true := hi.alone.resolve_right (by simp [hbusy])
  have hle := hi.head_le
  have hlen := hi.tail_le
  have hlag := hi.lag
  have hd := hi.deq_ok
  unfold Queue.deqStep at hs
  cases hpc : s.deq with
  | idle => simp [hpc, DeqPc.isIdle] at hbusy
  | loadHead =>
    rw [hpc] at hs
    cases hs
    exact hi.deqLocal henq hpc rfl rfl rfl rfl fun _ => by simp only [DeqPc.rank]; omega
  | loadTail hd' =>
    rw [hpc] at hs hd
    cases hs
    exact hi.deqLocal henq hpc ⟨hd, rfl⟩ rfl rfl rfl fun _ => by simp only [DeqPc.rank]; omega
  | readNext hd' tl =>
    rw [hpc] at hs hd
    obtain ⟨rfl, rfl⟩ := hd
    obtain ⟨e, hderef, hnode⟩ := hi.deref hi.head_eq (s.deq.live_le h) (hle.trans hlen)
    simp only [hderef] at hs
    cases hs
    exact hi.deqLocal henq hpc ⟨rfl, rfl, e, hderef, rfl⟩ rfl rfl rfl fun _ => by simp only [DeqPc.rank]; omega
  | recheck hd' tl next =>
    rw [hpc] at hs hd
    obtain ⟨rfl, rfl, e, hderef, rfl⟩ := hd
    obtain ⟨e', he', hnode⟩ := hi.deref hi.head_eq (s.deq.live_le h) (hle.trans hlen)
    obtain rfl := Option.some_inj.mp (hderef.symm.trans he')
    have hnext := hnode.1
    simp only [if_true, hi.head_eq, hi.tail_eq, Option.some.injEq] at hs
    subst hs
    by_cases hht : h = t
    · subst hht
      by_cases hlast : h < s.linked.length
      · rw [if_pos hlast] at hnext
        simp only [hnext, reduceCtorEq, if_true, if_false]
        exact hi.deqLocal henq hpc ⟨rfl, rfl, hnext, hlast, trivial⟩ rfl rfl rfl
          fun _ => by simp only [DeqPc.rank]; omega
      · rw [if_neg hlast] at hnext
        simp only [hnext, if_true]
        exact hi.deqEmpty henq hpc (by omega)
    · rw [if_pos (by omega)] at hnext
      simp only [hht, if_false]
      exact hi.deqLocal henq hpc ⟨rfl, hnext, by omega⟩ rfl rfl rfl fun _ => by simp only [DeqPc.rank]; omega
  | help hd' tl next c =>
    rw [hpc] at hs hd
    obtain ⟨rfl, rfl, hnext, hlt, hc⟩ := hd
    cases c with
    | load =>
      cases hs
      exact hi.deqLocal henq hpc ⟨rfl, rfl, hnext, hlt, rfl⟩ rfl rfl rfl fun _ => by simp only [DeqPc.rank]; omega
    | exchange atom =>
      obtain rfl : atom = s.tail := hc
      simp only [exchange_self] at hs
      cases hs
      cases weak with
      | false =>
        exact hi.deqLocal henq hpc ⟨rfl, rfl, hnext, hlt, hnext⟩ rfl rfl rfl fun _ => by simp [DeqPc.rank]
      | true => exact hi.deqLocal henq hpc ⟨rfl, rfl, hnext, hlt, rfl⟩ rfl rfl rfl nofun
    | store loaded atom res =>
      cases hs
      cases res with
      | false =>
        obtain rfl : atom = s.tail := hc
        exact hi.deqTail henq hpc hi.tail_eq le_rfl hlen (by simp only [hpc, DeqPc.rank]; omega)
      | true => exact hi.deqTail henq hpc hc (by omega) hlt (by simp only [hpc, DeqPc.rank]; omega)
  | readValue hd' next =>
    rw [hpc] at hs hd
    obtain ⟨rfl, hnext, ht⟩ := hd
    obtain ⟨e, hderef, hnode⟩ := hi.deref hnext ((s.deq.live_le h).trans (by omega)) (by omega)
    simp only [hderef] at hs
    cases hs
    exact hi.deqLocal henq hpc ⟨rfl, hnext, ht, hnode.2 h rfl, trivial⟩ rfl rfl rfl
      fun _ => by simp only [DeqPc.rank]; omega
  | casHead hd' next v c =>
    rw [hpc] at hs hd
    obtain ⟨rfl, hnext, ht, hv, hc⟩ := hd
    cases c with
    | load =>
      cases hs
      exact hi.deqLocal henq hpc ⟨rfl, hnext, ht, hv, rfl⟩ rfl rfl rfl fun _ => by simp only [DeqPc.rank]; omega
    | exchange atom =>
      obtain rfl : atom = s.head := hc
      simp only [exchange_self] at hs
      cases hs
      cases weak with
      | false => exact hi.deqLocal henq hpc ⟨rfl, hnext, ht, hv, hnext⟩ rfl rfl rfl fun _ => by simp [DeqPc.rank]
      | true => exact hi.deqLocal henq hpc ⟨rfl, hnext, ht, hv, rfl⟩ rfl rfl rfl nofun
    | store loaded atom res =>
      cases hs
      cases res with
      | false =>
        obtain rfl : atom = s.head := hc
        have hback : DeqAdvance s { s with deq := .loadHead } weak :=
          hi.deqLocal henq hpc trivial rfl rfl rfl fun _ => by simp only [DeqPc.rank]; omega
        exact hback
      | true => exact hi.deqHead henq hpc hc ht hv
  | delete hd' v =>
    rw [hpc] at hs
    cases hs
    exact hi.deqDelete henq hpc
  | decSize v =>
    rw [hpc] at hs
    cases hs
    exact hi.deqDecSize henq hpc

end Deq

/-! ## Runs -/

/-- The call of `enqueue`: a node is allocated. -/
theorem SeqInv.callEnqueue (hi : SeqInv s h t) (henq : s.enq = .idle) (hdeq : s.deq.isIdle = true) (v : α) :
    SeqInv { s with
      heap := Function.update s.heap s.allocated (some ⟨v, ⟨none, 0⟩⟩)
      allocated := s.allocated + 1
      enq := .loadTail v s.allocated } h t := by
  have halloc : s.allocated = s.linked.length + 1 := by
    have he := hi.enq_ok
    rwa [henq] at he
  have hidle := DeqPc.eq_idle hdeq
  have hsize := hi.size_eq
  rw [henq] at hsize
  exact { hi with
    alone := .inr hdeq
    nodes := hi.nodes.congr fun i _ hhi => Function.update_of_ne (by omega) ..
    enq_ok := ⟨halloc, congrArg (· + 1) halloc, Function.update_self ..⟩
    deq_ok := by rw [hidle]; trivial
    size_eq := hsize }

/-- The call of `dequeue`. -/
theorem SeqInv.callDequeue (hi : SeqInv s h t) (henq : s.enq.isIdle = true) (hdeq : s.deq = .idle) :
    SeqInv { s with deq := .loadHead } h t := by
  have hret := hi.returned_eq
  have hnodes := hi.nodes
  rw [hdeq] at hret hnodes
  exact { hi with
    alone := .inl henq
    nodes := hnodes
    deq_ok := trivial
    returned_eq := hret }

theorem SeqInv.step (hi : SeqInv s h t) {a : Act α} (hok : Alone s a) (hs : step s a = some s') :
    ∃ h' t', SeqInv s' h' t' := by
  cases a with
  | enqueue v =>
    simp only [Queue.step] at hs
    split at hs
    next henq => cases hs; exact ⟨h, t, hi.callEnqueue henq hok v⟩
    next => cases hs
  | enq weak => exact ⟨h, (hi.enqStep hs).inv⟩
  | dequeue =>
    simp only [Queue.step] at hs
    split at hs
    next hdeq => cases hs; exact ⟨h, t, hi.callDequeue hok hdeq⟩
    next => cases hs
  | deq weak => exact (hi.deqStep hs).inv

theorem seqInv_of_reach (h : (system α).Reach Alone s) : ∃ h t, SeqInv s h t := by
  refine h.invariant (P := fun s => ∃ h t, SeqInv s h t) ?_ ?_
  · rintro _ ⟨v₀, rfl⟩
    exact ⟨0, 0, seqInv_start v₀⟩
  · rintro s a s' ⟨h, t, hi⟩ hok hs
    exact hi.step hok hs

end Everyfile.Queue
