import Everyfile.Queue.Sequential

/-!
# The queue as a list

The calls of one thread as functions: `call` runs a call up to its return, `calls` a sequence of calls, `destroy` the
loop of the destructor. They take fuel, and a sequence that says which steps fail without cause. With finitely many
such failures there is fuel enough, and the calls give back what a list gives, first in first out (`fifo_refined`); the
size does not leave the range of `int` while there are fewer than 2^31 elements.

Between two calls the nodes from `Head` on are a chain with the contents (`boundary_of_reach`), and a node is deleted
only when no chain leads to it (`deleteSafe_of_reach`).
-/

namespace Everyfile.Queue

variable {α : Type*}

/-! ## Calls -/

inductive Call (α : Type*)
  | enqueue (v : α)
  | dequeue
  | size

/-- What a call gives back; `value none` is a dequeue that returns false. -/
inductive Ret (α : Type*)
  | done
  | value (v : Option α)
  | size (n : Int)
  deriving DecidableEq

section Calls

/- `w i` is whether the compare-exchange of step `i` fails without cause. -/
variable (w : Nat → Bool) (fuel : Nat)

/-- A call from step `i` on: where it returns, the next step, the state and what it gives back. -/
def call (i : Nat) (s : State α) : Call α → Option (Nat × State α × Ret α)
  | .enqueue v =>
    ((step s (.enqueue v)).bind ((system α).runUntil (fun i => .enq (w i)) (·.enq.isIdle) fuel i)).map fun r =>
      (r.1, r.2, .done)
  | .dequeue =>
    -- what it gives back is the value added to those returned, if there is one
    ((step s .dequeue).bind ((system α).runUntil (fun i => .deq (w i)) (·.deq.isIdle) fuel i)).map fun r =>
      (r.1, r.2, .value r.2.returned[s.returned.length]?)
  | .size => some (i, s, .size s.size)

def calls (i : Nat) (s : State α) : List (Call α) → Option (Nat × State α × List (Ret α))
  | [] => some (i, s, [])
  | c :: cs => (call w fuel i s c).bind fun r => (calls r.1 r.2.1 cs).map fun r' => (r'.1, r'.2.1, r.2.2 :: r'.2.2)

/-- The destructor: `while(_size!=0) dequeue(tmp)`, with fewer than `n` passes. -/
def destroy : Nat → Nat → State α → Option (State α)
  | 0, _, _ => none
  | n + 1, i, s => if s.size = 0 then some s else (call w fuel i s .dequeue).bind fun r => destroy n r.1 r.2.1

end Calls

/-! ## What is asked of the calls -/

/-- A list, first in first out: the contents after a call, and what the call gives back. -/
def fifoStep (q : List α) : Call α → List α × Ret α
  | .enqueue v => (q ++ [v], .done)
  | .dequeue => (q.tail, .value q.head?)
  | .size => (q, .size q.length)

def fifo (q : List α) : List (Call α) → List α × List (Ret α)
  | [] => (q, [])
  | c :: cs =>
    let (q', r) := fifoStep q c
    let (q'', rs) := fifo q' cs
    (q'', r :: rs)

/-- The nodes from a pointer on, up to the null pointer. -/
def Chain (heap : Nat → Option (Entry α)) : Ptr → List (Nat × Entry α) → Prop
  | p, [] => p.ptr = none
  | p, (a, e) :: nodes => p.ptr = some a ∧ heap a = some e ∧ Chain heap e.next nodes

/-- Between two calls, with contents `q`: the nodes from `Head` on are a dummy and one node for each value, and `Tail`
is the last node or the one before it. -/
structure Boundary (s : State α) (q : List α) : Prop where
  idle : s.enq.isIdle = true ∧ s.deq.isIdle = true
  size_eq : s.size = q.length
  chain : ∃ dummy nodes, Chain s.heap s.head (dummy :: nodes) ∧ nodes.map (·.2.value) = q ∧
    ∃ before node rest, dummy :: nodes = before ++ node :: rest ∧ s.tail.ptr = some node.1 ∧ rest.length ≤ 1

/-- The node `a` is found from `p` on. -/
inductive Reaches (heap : Nat → Option (Entry α)) : Ptr → Nat → Prop
  | here {p : Ptr} {a : Nat} : p.ptr = some a → Reaches heap p a
  | next {p : Ptr} {a b : Nat} {e : Entry α} : p.ptr = some a → heap a = some e → Reaches heap e.next b →
    Reaches heap p b

/-- The node that is about to be deleted is found neither from `Head` nor from `Tail` on. -/
def DeleteSafe (s : State α) : Prop :=
  ∀ hd v a, s.deq = .delete hd v → hd.ptr = some a → ¬Reaches s.heap s.head a ∧ ¬Reaches s.heap s.tail a

/-! ## Chains -/

section Nodes

variable {heap : Nat → Option (Entry α)} {linked : List α} {lo : Nat}

/-- The chain of the nodes, with the values behind its first node. -/
theorem Nodes.chain (hn : Nodes heap linked lo) (k : Nat) {i : Nat} {p : Ptr} (hp : p.ptr = some i) (hlo : lo ≤ i)
    (hk : i + k = linked.length) : ∃ e nodes, Chain heap p ((i, e) :: nodes) ∧
      nodes.map Prod.fst = List.range' (i + 1) k ∧ nodes.map (·.2.value) = linked.drop i := by
  induction k generalizing i p with
  | zero =>
    obtain ⟨e, he, hok⟩ := hn i hlo (by omega)
    have hnone : e.next.ptr = none := by rw [hok.1, if_neg (by omega)]
    exact ⟨e, [], ⟨hp, he, hnone⟩, rfl, by rw [List.drop_eq_nil_of_le (by omega)]; rfl⟩
  | succ k ih =>
    obtain ⟨e, he, hok⟩ := hn i hlo (by omega)
    have hnext : e.next.ptr = some (i + 1) := by rw [hok.1, if_pos (by omega)]
    obtain ⟨e', nodes, hchain, hfst, hval⟩ := ih hnext (by omega) (by omega)
    have hvalue : linked[i]? = some e'.value := by
      obtain ⟨e'', he'', hok''⟩ := hn (i + 1) (by omega) (by omega)
      obtain rfl : e' = e'' := Option.some_inj.mp (hchain.2.1.symm.trans he'')
      exact hok''.2 i rfl
    refine ⟨e, (i + 1, e') :: nodes, ⟨hp, he, hchain⟩, ?_, ?_⟩
    · rw [List.map_cons, hfst, List.range'_succ]
    · obtain ⟨hlt, hget⟩ := List.getElem?_eq_some_iff.mp hvalue
      rw [List.map_cons, hval, List.drop_eq_getElem_cons hlt, hget]

/-- From a node on only later nodes are found. -/
theorem Nodes.le_of_reaches (hn : Nodes heap linked lo) {p : Ptr} {a i : Nat} (h : Reaches heap p a)
    (hp : p.ptr = some i) (hlo : lo ≤ i) (hhi : i ≤ linked.length) : i ≤ a := by
  induction h generalizing i with
  | here ha =>
    obtain rfl := Option.some_inj.mp (hp.symm.trans ha)
    exact le_rfl
  | next ha he _ ih =>
    obtain rfl := Option.some_inj.mp (hp.symm.trans ha)
    obtain ⟨e', he', hok⟩ := hn i hlo hhi
    obtain rfl := Option.some_inj.mp (he.symm.trans he')
    have hnext := hok.1
    split at hnext
    next hlt => exact (Nat.le_succ i).trans (ih hnext (by omega) hlt)
    next =>
      -- the last node leads nowhere
      rename_i hreach _
      cases hreach with
      | here hb => rw [hnext] at hb; cases hb
      | next hb => rw [hnext] at hb; cases hb

end Nodes

/-! ## Between two calls -/

/-- The values linked and not returned. -/
def State.contents (s : State α) : List α := s.linked.drop s.returned.length

/-- No call is under way. -/
def State.Idle (s : State α) : Prop := s.enq.isIdle = true ∧ s.deq.isIdle = true

section Boundary

variable {s : State α} {h t : Nat}

/-- Without a call of `dequeue` the nodes before `Head` are those of the values returned. -/
theorem SeqInv.length_returned (hi : SeqInv s h t) (hdeq : s.deq.isIdle = true) : s.returned.length = h := by
  have hle := hi.head_le.trans hi.tail_le
  rw [hi.returned_eq, DeqPc.eq_idle hdeq, List.length_take]
  exact Nat.min_eq_left hle

theorem SeqInv.boundary (hi : SeqInv s h t) (hidle : s.Idle) : Boundary s s.contents := by
  have hret := hi.length_returned hidle.2
  have hlen := hi.tail_le
  have hle := hi.head_le
  have hlag := hi.lag
  have hnodes : Nodes s.heap s.linked h := hi.nodes.mono (s.deq.live_le h)
  have hsize := hi.size_eq
  rw [EnqPc.eq_idle hidle.1, hret] at hsize
  obtain ⟨e, nodes, hchain, hfst, hval⟩ := hnodes.chain (s.linked.length - h) hi.head_eq le_rfl (by omega)
  -- the nodes are numbered from `h` on, and `Tail` points to number `t`
  have hall : ((h, e) :: nodes).map Prod.fst = List.range' h (s.linked.length - h + 1) := by
    rw [List.map_cons, hfst, List.range'_succ]
  have hcount : ((h, e) :: nodes).length = s.linked.length - h + 1 := by
    simpa using congrArg List.length hall
  have hdrop : (((h, e) :: nodes).drop (t - h)).length = s.linked.length + 1 - t := by
    rw [List.length_drop, hcount]
    omega
  obtain ⟨node, rest, hnode⟩ := List.exists_cons_of_length_pos (l := ((h, e) :: nodes).drop (t - h)) (by omega)
  have htail : node.1 = t := by
    have hhead := congrArg (List.head? ∘ List.map Prod.fst) hnode
    simp only [Function.comp_apply, List.map_drop, hall, List.head?_drop] at hhead
    rw [List.getElem?_range' (by omega), List.map_cons, List.head?_cons, Option.some_inj] at hhead
    omega
  refine ⟨hidle, ?_, (h, e), nodes, hchain, by rw [hval, State.contents, hret],
    ((h, e) :: nodes).take (t - h), node, rest, ?_, ?_, ?_⟩
  · rw [State.contents, hret, List.length_drop]
    simp only [EnqPc.uncounted] at hsize
    omega
  · rw [← hnode, List.take_append_drop]
  · rw [hi.tail_eq, htail]
  · rw [hnode, List.length_cons] at hdrop
    omega

/-- The node before `Head`. -/
theorem SeqInv.deleteSafe (hi : SeqInv s h t) : DeleteSafe s := by
  intro hd v a hpc ha
  have hok := hi.deq_ok
  have hle := hi.head_le
  have hlen := hi.tail_le
  rw [hpc] at hok
  obtain ⟨hhd, hpos, -⟩ := hok
  obtain rfl := Option.some_inj.mp (hhd.symm.trans ha)
  have hnodes : Nodes s.heap s.linked h := hi.nodes.mono (s.deq.live_le h)
  constructor
  · intro hreach
    have := hnodes.le_of_reaches hreach hi.head_eq le_rfl (by omega)
    omega
  · intro hreach
    have := hnodes.le_of_reaches hreach hi.tail_eq hle hlen
    omega

end Boundary

theorem boundary_of_reach {s : State α} (h : (system α).Reach Alone s) (hidle : s.Idle) : Boundary s s.contents := by
  obtain ⟨h', t, hi⟩ := seqInv_of_reach h
  exact hi.boundary hidle

theorem deleteSafe_of_reach {s : State α} (h : (system α).Reach Alone s) : DeleteSafe s := by
  obtain ⟨h', t, hi⟩ := seqInv_of_reach h
  exact hi.deleteSafe

/-! ## One call -/

section Runs

variable {w : Nat → Bool} {fuel fuel' n i : Nat} {s : State α}

theorem call_mono {c : Call α} {r : Nat × State α × Ret α} (h : call w fuel i s c = some r) (hle : fuel ≤ fuel') :
    call w fuel' i s c = some r := by
  cases c with
  | enqueue v | dequeue =>
    obtain ⟨x, hx, hr⟩ := Option.map_eq_some_iff.mp h
    obtain ⟨s', hs, hrun⟩ := Option.bind_eq_some_iff.mp hx
    simp only [call, hs, Option.bind_some, Transition.System.runUntil_mono hrun hle, Option.map_some, hr]
  | size => exact h

/-- `enqueue` returns, and has linked its value. -/
theorem call_enqueue (hw : ∀ i, n ≤ i → w i = false) (hr : (system α).Reach Alone s) (hidle : s.Idle) (i : Nat)
    (v : α) : ∃ fuel j t, call w fuel i s (.enqueue v) = some (j, t, .done) ∧ (system α).Reach Alone t ∧ t.Idle ∧
      t.linked = s.linked ++ [v] ∧ t.returned = s.returned := by
  have henq := EnqPc.eq_idle hidle.1
  obtain ⟨s', hs⟩ : ∃ s', step s (.enqueue v) = some s' := by simp [step, henq]
  have hcalled : s'.linked ++ s'.enq.pending = s.linked ++ [v] ∧ s'.returned = s.returned ∧ s'.deq = s.deq := by
    simp only [step, henq] at hs
    cases hs
    exact ⟨rfl, rfl, rfl⟩
  -- the values linked, with the one that is about to be, stay the same
  obtain ⟨fuel, j, t, hrun, ⟨ht, hdeq, hvals, hret⟩, hdone⟩ := (system α).exists_runUntil
    (fun i => .enq (w i)) (·.enq.isIdle)
    (fun t => (system α).Reach Alone t ∧ t.deq.isIdle = true ∧ t.linked ++ t.enq.pending = s.linked ++ [v] ∧
      t.returned = s.returned) State.rank
    (by
      rintro i t ⟨ht, hdeq, hvals, hret⟩ hbusy
      obtain ⟨h, k, hi⟩ := seqInv_of_reach ht
      obtain ⟨t', ht'⟩ := enqStep_isSome hbusy (w i)
      have hadv := hi.enqStep ht'
      have hreach : (system α).Reach Alone t' := .step (a := .enq (w i)) ht trivial ht'
      exact ⟨t', ht', ⟨hreach, by rw [hadv.deq_eq, hdeq], hadv.values.trans hvals, hadv.returned_eq.trans hret⟩,
        fun hni => hadv.rank (hw i hni)⟩)
    i ⟨.step (a := .enqueue v) hr hidle.2 hs, by rw [hcalled.2.2, hidle.2], hcalled.1, hcalled.2.1⟩
  rw [EnqPc.eq_idle hdone] at hvals
  refine ⟨fuel, j, t, ?_, ht, ⟨hdone, hdeq⟩, by simpa [EnqPc.pending] using hvals, hret⟩
  simp only [call, hs, Option.bind_some, hrun, Option.map_some]

/-- `dequeue` returns, and has returned one more of the values linked if there was one. -/
theorem call_dequeue (hw : ∀ i, n ≤ i → w i = false) (hr : (system α).Reach Alone s) (hidle : s.Idle) (i : Nat) :
    ∃ fuel j t, call w fuel i s .dequeue = some (j, t, .value t.returned[s.returned.length]?) ∧
      (system α).Reach Alone t ∧ t.Idle ∧ t.linked = s.linked ∧
      t.returned = s.linked.take (s.returned.length + 1) := by
  have hdeq := DeqPc.eq_idle hidle.2
  obtain ⟨s', hs⟩ : ∃ s', step s .dequeue = some s' := by simp [step, hdeq]
  have hcalled : s'.linked = s.linked ∧ s'.returned = s.returned ∧ s'.enq = s.enq ∧ s'.deq.isIdle = false := by
    simp only [step, hdeq] at hs
    cases hs
    exact ⟨rfl, rfl, rfl, rfl⟩
  obtain ⟨fuel, j, t, hrun, ⟨ht, henq, hlinked, hret⟩, hdone⟩ := (system α).exists_runUntil
    (fun i => .deq (w i)) (·.deq.isIdle)
    (fun t => (system α).Reach Alone t ∧ t.enq.isIdle = true ∧ t.linked = s.linked ∧
      t.returned = if t.deq.isIdle then s.linked.take (s.returned.length + 1) else s.returned) State.rank
    (by
      rintro i t ⟨ht, henq, hlinked, hret⟩ hbusy
      obtain ⟨h, k, hi⟩ := seqInv_of_reach ht
      obtain ⟨t', ht'⟩ := deqStep_isSome hbusy (w i)
      have hadv := hi.deqStep ht'
      have hreach : (system α).Reach Alone t' := .step (a := .deq (w i)) ht trivial ht'
      have hret' : t.returned = s.returned := by rw [hret, hbusy]; rfl
      refine ⟨t', ht', ⟨hreach, by rw [hadv.enq_eq, henq], hadv.linked_eq.trans hlinked, ?_⟩,
        fun hni => hadv.rank (hw i hni)⟩
      rw [hadv.returned_eq, hlinked, hret'])
    i ⟨.step (a := .dequeue) hr hidle.1 hs, by rw [hcalled.2.2.1, hidle.1], hcalled.1,
      by rw [hcalled.2.1, hcalled.2.2.2]; rfl⟩
  rw [hdone] at hret
  refine ⟨fuel, j, t, ?_, ht, ⟨henq, hdone⟩, hlinked, hret⟩
  simp only [call, hs, Option.bind_some, hrun, Option.map_some]

/-- **One call**: it returns, gives back what the list gives back, and leaves what the list holds. -/
theorem call_spec (hw : ∀ i, n ≤ i → w i = false) (hr : (system α).Reach Alone s) (hidle : s.Idle) (i : Nat)
    (c : Call α) : ∃ fuel j t, call w fuel i s c = some (j, t, (fifoStep s.contents c).2) ∧
      (system α).Reach Alone t ∧ t.Idle ∧ t.contents = (fifoStep s.contents c).1 := by
  obtain ⟨h, k, hi⟩ := seqInv_of_reach hr
  have hlen := hi.length_returned hidle.2
  have hle := hi.head_le.trans hi.tail_le
  cases c with
  | enqueue v =>
    obtain ⟨fuel, j, t, hcall, ht, htidle, hlinked, hret⟩ := call_enqueue hw hr hidle i v
    refine ⟨fuel, j, t, hcall, ht, htidle, ?_⟩
    rw [State.contents, hlinked, hret, List.drop_append_of_le_length (by omega)]
    rfl
  | dequeue =>
    obtain ⟨fuel, j, t, hcall, ht, htidle, hlinked, hret⟩ := call_dequeue hw hr hidle i
    refine ⟨fuel, j, t, hcall.trans ?_, ht, htidle, ?_⟩
    · simp [fifoStep, State.contents, hret, List.head?_drop]
    · rw [State.contents, hlinked, hret, List.length_take]
      by_cases hlt : s.returned.length < s.linked.length
      · simp [fifoStep, State.contents, Nat.min_eq_left hlt]
      · have hmin : min (s.returned.length + 1) s.linked.length = s.linked.length := by omega
        simp only [fifoStep, State.contents, hmin, List.tail_drop]
        rw [List.drop_eq_nil_of_le le_rfl, List.drop_eq_nil_of_le (by omega)]
  | size =>
    refine ⟨0, i, s, ?_, hr, hidle, rfl⟩
    rw [call, fifoStep, (hi.boundary hidle).size_eq]

/-! ## Sequences of calls -/

theorem calls_mono {cs : List (Call α)} {r : Nat × State α × List (Ret α)} (h : calls w fuel i s cs = some r)
    (hle : fuel ≤ fuel') : calls w fuel' i s cs = some r := by
  induction cs generalizing i s r with
  | nil => exact h
  | cons c cs ih =>
    obtain ⟨x, hx, h⟩ := Option.bind_eq_some_iff.mp h
    obtain ⟨y, hy, rfl⟩ := Option.map_eq_some_iff.mp h
    rw [calls, call_mono hx hle, Option.bind_some, ih hy, Option.map_some]

theorem destroy_mono {m : Nat} {u : State α} (h : destroy w fuel m i s = some u) (hle : fuel ≤ fuel') :
    destroy w fuel' m i s = some u := by
  induction m generalizing i s with
  | zero => cases h
  | succ m ih =>
    rw [destroy] at h ⊢
    split at h
    next hsize => rw [if_pos hsize, h]
    next hsize =>
      obtain ⟨x, hx, h⟩ := Option.bind_eq_some_iff.mp h
      rw [if_neg hsize, call_mono hx hle, Option.bind_some, ih h]

/-- **A sequence of calls.** -/
theorem calls_spec (hw : ∀ i, n ≤ i → w i = false) (hr : (system α).Reach Alone s) (hidle : s.Idle) (i : Nat)
    (cs : List (Call α)) : ∃ fuel j t, calls w fuel i s cs = some (j, t, (fifo s.contents cs).2) ∧
      (system α).Reach Alone t ∧ t.Idle ∧ t.contents = (fifo s.contents cs).1 := by
  induction cs generalizing i s with
  | nil => exact ⟨0, i, s, rfl, hr, hidle, rfl⟩
  | cons c cs ih =>
    obtain ⟨fuel, j, t, hcall, ht, htidle, htc⟩ := call_spec hw hr hidle i c
    obtain ⟨fuel', k, u, hcalls, hu, huidle, huc⟩ := ih ht htidle j
    refine ⟨max fuel fuel', k, u, ?_, hu, huidle, by rw [huc, htc]; rfl⟩
    rw [calls, call_mono hcall (le_max_left ..), Option.bind_some, calls_mono hcalls (le_max_right ..), htc]
    rfl

/-- **The destructor**, by induction on the number of values left. -/
theorem destroy_spec (hw : ∀ i, n ≤ i → w i = false) (hr : (system α).Reach Alone s) (hidle : s.Idle) (i : Nat) :
    ∃ fuel m u, destroy w fuel m i s = some u ∧ Boundary u [] := by
  induction hq : s.contents generalizing i s with
  | nil =>
    have hb := boundary_of_reach hr hidle
    rw [hq] at hb
    exact ⟨0, 1, s, by rw [destroy, if_pos (by rw [hb.size_eq]; rfl)], hb⟩
  | cons v q ih =>
    have hb := boundary_of_reach hr hidle
    rw [hq] at hb
    obtain ⟨fuel, j, t, hcall, ht, htidle, htc⟩ := call_spec hw hr hidle i .dequeue
    obtain ⟨fuel', m, u, hdestroy, hu⟩ := ih ht htidle j (by rw [htc, hq]; rfl)
    refine ⟨max fuel fuel', m + 1, u, ?_, hu⟩
    have hsize : s.size ≠ 0 := by
      rw [hb.size_eq, List.length_cons]
      omega
    rw [destroy, if_neg hsize, call_mono hcall (le_max_left ..), Option.bind_some]
    exact destroy_mono hdestroy (le_max_right ..)

end Runs

/-- **The queue of one thread.** With finitely many failures without cause, every sequence of calls after the
construction returns and gives back what a list gives back, the nodes between the calls are those of the list, and the
destructor ends with the queue empty; and at no point of such a run is a node deleted that can be found. -/
theorem fifo_refined {w : Nat → Bool} (hw : ∃ n, ∀ i, n ≤ i → w i = false) (v₀ : α) (cs : List (Call α)) :
    (∃ fuel j t, calls w fuel 0 (start v₀) cs = some (j, t, (fifo [] cs).2) ∧ Boundary t (fifo [] cs).1 ∧
      ∃ fuel m u, destroy w fuel m j t = some u ∧ Boundary u []) ∧
    ∀ s : State α, (system α).Reach Alone s → DeleteSafe s := by
  obtain ⟨n, hw⟩ := hw
  obtain ⟨fuel, j, t, hcalls, ht, hidle, hc⟩ := calls_spec hw (.init ⟨v₀, rfl⟩) ⟨rfl, rfl⟩ 0 cs
  have hb := boundary_of_reach ht hidle
  rw [hc] at hb
  exact ⟨⟨fuel, j, t, hcalls, hb, destroy_spec hw ht hidle j⟩, fun s => deleteSafe_of_reach⟩

/-- The `CAS` behind the loop of the first enqueue fails without cause; the next calls find `Tail` behind. -/
theorem fifo_refined_lag : (∃ n, ∀ i, n ≤ i → (i == 7) = false) ∧
    ∃ fuel j t, calls (· == 7) fuel 0 (start 0) [.enqueue 1, .enqueue 2, .dequeue, .size] =
        some (j, t, [.done, .done, .value (some 1), .size 1]) ∧ Boundary t [2] := by
  have hw : ∃ n, ∀ i, n ≤ i → (i == 7) = false := ⟨8, fun i hi => by simp; omega⟩
  obtain ⟨fuel, j, t, hcalls, hb, -⟩ := (fifo_refined hw 0 [.enqueue 1, .enqueue 2, .dequeue, .size]).1
  exact ⟨hw, fuel, j, t, hcalls, hb⟩

end Everyfile.Queue
