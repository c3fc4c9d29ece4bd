import Everyfile.Init.Pipeline
import Everyfile.Queue.Correct

/-!
# The pipeline of `--init` over the queue it uses

`out_sys_files` and `in_db` with the queue `__no_lock_queue_with_CAS` between them: a call of `enqueue` or `dequeue` is
the run of its steps, which interleave with those of the other thread.

In runs whose steps on the queue are orderly (`Queue.Orderly`) this refines the pipeline over an atomic channel
(`pipeline_refined`): a record enters the channel when its node is linked, it leaves the channel when `Head` is moved
over it, and the channel is found empty when `head.ptr->next` is read. So what holds of the atomic pipeline holds here,
and no record is lost in the runs that are timely besides (`pipeline_lossless`).
-/

namespace Everyfile.Init.OverQueue

open Queue (QueueInv EnqPc DeqPc enqStep deqStep)

/-! ## The two threads -/

/-- `db` is at `dequeue` from the call of `buf.dequeue(info)` to its return. -/
structure State where
  scan : ScanPc
  db : DbPc
  out : Int
  queue : Queue.State FileInfo
  added : List FileInfo

inductive Act
  /-- A step of `out_sys_files`; whether a weak exchange fails without cause matters inside `enqueue`. -/
  | scan (weak : Bool)
  | db (weak : Bool)
  deriving DecidableEq, Repr

variable (recs : List FileInfo)

/-- One step of `out_sys_files` over a tree with the records `recs`. -/
def outSysFiles (s : State) (weak : Bool) : Option State :=
  match s.queue.enq with
  | .idle =>
    match s.scan with
    | .start => some { s with scan := .scanning recs, out := 1 }
    | .scanning (r :: rest) =>
      (Queue.step s.queue (.enqueue r)).map fun q => { s with scan := .scanning rest, queue := q }
    | .scanning [] => some { s with scan := .done, out := 0 }
    | .done => none
  | _ => (enqStep weak s.queue).map fun q => { s with queue := q }

/-- Where `in_db` goes after a step of `dequeue` from `pc`: the call returns true with a value, false, or goes on. -/
def afterDeq (pc : DeqPc FileInfo) (q : Queue.State FileInfo) : DbPc :=
  match pc, q.deq with
  | .decSize r, _ => .add r
  | _, .idle => .readOut
  | _, _ => .dequeue

/-- One step of `in_db`. -/
def inDb (s : State) (weak : Bool) : Option State :=
  match s.db with
  | .dequeue =>
    match s.queue.deq with
    | .idle => (Queue.step s.queue .dequeue).map fun q => { s with queue := q }
    | pc => (deqStep weak s.queue).map fun q => { s with queue := q, db := afterDeq pc q }
  | .readOut => some { s with db := if s.out = 0 then .left else .dequeue }
  | .add r => some { s with db := .dequeue, added := s.added ++ [r] }
  | .left => none

def step (s : State) : Act → Option State
  | .scan weak => outSysFiles recs s weak
  | .db weak => inDb s weak

/-- `main` has set `out` to 0; the queue is as its constructor leaves it. -/
def start (v₀ : FileInfo) : State := ⟨.start, .dequeue, 0, Queue.start v₀, []⟩

def system : Transition.System State Act := ⟨fun s => ∃ v₀, s = start v₀, step recs⟩

/-- The step keeps the queue in order. -/
def Orderly (s : State) : Act → Prop
  | .scan weak => Queue.Orderly s.queue (.enq weak)
  | .db weak => Queue.Orderly s.queue (.deq weak)

/-- The step is orderly, and `in_db` does not read 0 from `out` before the scan of a tree with records, nor while values
linked to the queue have not been returned. -/
def Timely (s : State) (a : Act) : Prop :=
  Orderly s a ∧ match a with
    | .db _ => s.db = .readOut → s.out = 0 → (s.scan = .start → recs = []) ∧ s.queue.returned = s.queue.linked
    | .scan _ => True

instance (s : State) : (a : Act) → Decidable (Orderly s a)
  | .scan weak => inferInstanceAs (Decidable (Queue.Orderly s.queue (.enq weak)))
  | .db weak => inferInstanceAs (Decidable (Queue.Orderly s.queue (.deq weak)))

instance (s : State) : (a : Act) → Decidable (Timely recs s a)
  | .scan weak => inferInstanceAs (Decidable (Orderly s (.scan weak) ∧ True))
  | .db weak => inferInstanceAs (Decidable (Orderly s (.db weak) ∧ (s.db = .readOut → s.out = 0 →
      (s.scan = .start → recs = []) ∧ s.queue.returned = s.queue.linked)))

/-! ## The map to the atomic pipeline -/

/-- The record whose node has not been linked yet. -/
def pending : EnqPc FileInfo → List FileInfo
  | .idle | .swing .. | .incSize => []
  | .loadTail r _ | .readNext r .. | .recheck r .. | .link r .. | .help r .. => [r]

/-- `out_sys_files` has still to enqueue the record whose node is not linked. -/
def scanOf (pc : ScanPc) (enq : EnqPc FileInfo) : ScanPc :=
  match pc with
  | .scanning rest => .scanning (pending enq ++ rest)
  | pc => pc

/-- A call of `dequeue` has found the queue empty once the next pointer of the first node was null, and has its record
once `Head` was moved. -/
def dbOf (pc : DbPc) (deq : DeqPc FileInfo) : DbPc :=
  match pc, deq with
  | .dequeue, .recheck _ _ next => if next.ptr = none then .readOut else .dequeue
  | .dequeue, .delete _ r | .dequeue, .decSize r => .add r
  | pc, _ => pc

/-- The state of the atomic pipeline: in the channel are the values linked behind the node of `Head`. -/
def State.abs (s : State) : Init.State where
  scan := scanOf s.scan s.queue.enq
  db := dbOf s.db s.queue.deq
  out := s.out
  buf := s.queue.linked.drop (s.queue.head.ptr.getD 0)
  enqueued := s.queue.linked
  added := s.added

/-- Between its calls a thread has no local of the queue's operations. -/
structure Inv (s : State) : Prop where
  queue : ∃ h t, QueueInv s.queue h t
  enq_idle : (∀ rest, s.scan ≠ .scanning rest) → s.queue.enq = .idle
  deq_idle : s.db ≠ .dequeue → s.queue.deq = .idle

/-! ## Steps of the queue -/

section Effects

variable {q q' : Queue.State FileInfo} {weak : Bool} {h t : Nat}

/-- A step of `enqueue` links the pending record or changes nothing that counts. -/
theorem enqStep_effect (hs : enqStep weak q = some q') : q'.head = q.head ∧ q'.deq = q.deq ∧
    (pending q'.enq = pending q.enq ∧ q'.linked = q.linked ∨
      ∃ r, pending q.enq = [r] ∧ pending q'.enq = [] ∧ q'.linked = q.linked ++ [r]) := by
  revert hs
  fun_cases enqStep weak q <;> intro hs <;> cases hs <;> refine ⟨rfl, rfl, ?_⟩
  all_goals simp [pending, Queue.State.fault, *]
  · split_ifs <;> rfl
  · -- the store to the last node links the new one where the exchange has taken place
    rename_i res _ _ _
    cases res <;> simp

/-- The call of `enqueue` makes its record the pending one. -/
theorem enqueue_call {r : FileInfo} (hs : Queue.step q (.enqueue r) = some q') :
    q'.head = q.head ∧ q'.deq = q.deq ∧ q'.linked = q.linked ∧ pending q'.enq = [r] := by
  simp only [Queue.step] at hs
  split at hs
  · cases hs
    exact ⟨rfl, rfl, rfl, rfl⟩
  · cases hs

/-- A step of `dequeue`, as the atomic pipeline sees it: nothing, the queue found empty, or its first record taken. -/
inductive DeqEffect (q q' : Queue.State FileInfo) (h : Nat) : Prop
  | still (hdb : dbOf (afterDeq q.deq q') q'.deq = dbOf .dequeue q.deq) (hhead : q'.head.ptr = some h)
  | empty (hpc : dbOf .dequeue q.deq = .dequeue) (hnil : q.linked.drop h = [])
      (hdb : dbOf (afterDeq q.deq q') q'.deq = .readOut) (hhead : q'.head.ptr = some h)
  | taken (r : FileInfo) (hpc : dbOf .dequeue q.deq = .dequeue) (hr : q.linked[h]? = some r)
      (hdb : dbOf (afterDeq q.deq q') q'.deq = .add r) (hhead : q'.head.ptr = some (h + 1))

/-- The call of `dequeue` goes on, or it has returned. -/
theorem afterDeq_eq (pc : DeqPc FileInfo) (q : Queue.State FileInfo) :
    afterDeq pc q = .dequeue ∨ q.deq = .idle ∨ ∃ r, pc = .decSize r := by
  unfold afterDeq
  split
  · exact .inr (.inr ⟨_, rfl⟩)
  next h => exact .inr (.inl h)
  · exact .inl rfl

/-- A step of `dequeue` leaves the other thread alone. -/
theorem deqStep_frame (hs : deqStep weak q = some q') : q'.enq = q.enq ∧ q'.linked = q.linked := by
  revert hs
  fun_cases deqStep weak q <;> intro hs <;> cases hs <;> exact ⟨rfl, rfl⟩

theorem deqStep_effect (hi : QueueInv q h t) (hs : deqStep weak q = some q') : DeqEffect q q' h := by
  have hd := hi.deq_ok
  have hh := hi.head_eq
  cases hpc : q.deq with
  | idle => simp [deqStep, hpc] at hs
  | loadHead =>
    simp only [deqStep, hpc, Option.some.injEq] at hs
    subst hs
    exact .still (by rw [hpc]; rfl) hh
  | loadTail hd' =>
    simp only [deqStep, hpc, Option.some.injEq] at hs
    subst hs
    exact .still (by rw [hpc]; rfl) hh
  | readNext hd' tl =>
    rw [hpc] at hd
    obtain ⟨rfl, -⟩ := hd
    obtain ⟨e, hderef, hnode⟩ := hi.deref hh le_rfl (hi.head_le.trans hi.tail_le)
    simp only [deqStep, hpc, hderef, Option.some.injEq] at hs
    subst hs
    by_cases hnone : e.next.ptr = none
    · -- the node of `Head` is the last one
      refine .empty (by rw [hpc]; rfl) ?_ (by rw [hpc]; simp [afterDeq, dbOf, hnone]) hh
      have hnext := hnode.1
      rw [hnone] at hnext
      apply List.drop_eq_nil_of_le
      by_contra hlt
      rw [if_pos (by omega)] at hnext
      cases hnext
    · exact .still (by rw [hpc]; simp [afterDeq, dbOf, hnone]) hh
  | recheck hd' tl next =>
    rw [hpc] at hd
    obtain ⟨rfl, a, ha, hle, hat, hnext⟩ := hd
    simp only [deqStep, hpc, if_true, Option.some.injEq] at hs
    subst hs
    refine .still ?_ hh
    rw [hpc]
    rcases hnext with ⟨hnone, rfl⟩ | ⟨hsome, -⟩
    · simp [afterDeq, dbOf, hnone, hh, ha]
    · by_cases heq : q.head.ptr = tl.ptr <;> simp [afterDeq, dbOf, hsome, heq]
  | help hd' tl next c =>
    cases c <;>
      · simp only [deqStep, hpc, Option.some.injEq] at hs
        subst hs
        exact .still (by rw [hpc]; rfl) hh
  | readValue hd' next =>
    rw [hpc] at hd
    obtain ⟨rfl, hnext, ht⟩ := hd
    obtain ⟨e, hderef, -⟩ := hi.deref hnext (by omega) (by have := hi.tail_le; omega)
    simp only [deqStep, hpc, hderef, Option.some.injEq] at hs
    subst hs
    exact .still (by rw [hpc]; rfl) hh
  | casHead hd' next v c =>
    rw [hpc] at hd
    obtain ⟨rfl, hnext, ht, hv, hc⟩ := hd
    cases c with
    | load =>
      simp only [deqStep, hpc, Option.some.injEq] at hs
      subst hs
      exact .still (by rw [hpc]; rfl) hh
    | exchange atom =>
      simp only [deqStep, hpc, Option.some.injEq] at hs
      subst hs
      exact .still (by rw [hpc]; rfl) hh
    | store loaded atom res =>
      simp only [deqStep, hpc, Option.some.injEq] at hs
      subst hs
      cases res with
      | true => exact .taken v (by rw [hpc]; rfl) hv (by rw [hpc]; rfl) hc
      | false =>
        obtain rfl : atom = q.head := hc
        exact .still (by rw [hpc]; rfl) hh
  | delete hd' v =>
    simp only [deqStep, hpc, Option.some.injEq] at hs
    subst hs
    exact .still (by rw [hpc]; rfl) hh
  | decSize v =>
    simp only [deqStep, hpc, Option.some.injEq] at hs
    subst hs
    exact .still (by rw [hpc]; rfl) hh

end Effects

/-! ## One step of the pipeline -/

variable {recs} {s s' : State} {weak : Bool}

theorem inv_start (v₀ : FileInfo) : Inv (start v₀) :=
  ⟨⟨0, 0, Queue.queueInv_start v₀⟩, fun _ => rfl, fun _ => rfl⟩

theorem abs_start (v₀ : FileInfo) : (start v₀).abs = Init.start := rfl

theorem pending_idle : pending .idle = [] := rfl

/-- A step of `out_sys_files` is one of the atomic pipeline, or none. -/
theorem outSysFiles_abs (hi : Inv s) (hok : Orderly s (.scan weak)) (hs : outSysFiles recs s weak = some s') :
    Inv s' ∧ (s'.abs = s.abs ∨ Init.outSysFiles recs s.abs = some s'.abs) := by
  obtain ⟨⟨h, t, hq⟩, henq, hdeq⟩ := hi
  have hhead : s.queue.head.ptr.getD 0 = h := by rw [hq.head_eq]; rfl
  by_cases hidle : s.queue.enq = .idle
  · simp only [outSysFiles, hidle] at hs
    cases hscan : s.scan with
    | start =>
      simp only [hscan, Option.some.injEq] at hs
      subst hs
      refine ⟨⟨⟨h, t, hq⟩, fun _ => hidle, hdeq⟩, .inr ?_⟩
      simp [Init.outSysFiles, State.abs, scanOf, hscan, hidle, pending]
    | scanning rest =>
      cases rest with
      | nil =>
        simp only [hscan, Option.some.injEq] at hs
        subst hs
        refine ⟨⟨⟨h, t, hq⟩, fun _ => hidle, hdeq⟩, .inr ?_⟩
        simp [Init.outSysFiles, State.abs, scanOf, hscan, hidle, pending]
      | cons r rest =>
        simp only [hscan] at hs
        obtain ⟨q, hstep, rfl⟩ := Option.map_eq_some_iff.mp hs
        obtain ⟨hh, hd, hl, hp⟩ := enqueue_call hstep
        refine ⟨⟨hq.step (a := .enqueue r) trivial hstep, fun hne => absurd rfl (hne rest), ?_⟩, .inl ?_⟩
        · intro hne
          rw [hd]
          exact hdeq hne
        · simp [State.abs, scanOf, hscan, hidle, hh, hd, hl, hp, pending_idle]
    | done => simp [hscan] at hs
  · have hbusy : outSysFiles recs s weak = (enqStep weak s.queue).map fun q => { s with queue := q } := by
      unfold outSysFiles
      split
      next h0 => exact absurd h0 hidle
      next => rfl
    rw [hbusy] at hs
    obtain ⟨q, hstep, rfl⟩ := Option.map_eq_some_iff.mp hs
    -- inside a call of `enqueue` the traversal is under way
    obtain ⟨rest, hscan⟩ : ∃ rest, s.scan = .scanning rest := by
      by_contra hne
      exact hidle (henq fun rest hrest => hne ⟨rest, hrest⟩)
    obtain ⟨hh, hd, heffect⟩ := enqStep_effect hstep
    refine ⟨⟨hq.step (a := .enq weak) hok hstep, fun hne => absurd hscan (hne rest), ?_⟩, ?_⟩
    · intro hne
      change q.deq = .idle
      rw [hd]
      exact hdeq hne
    · rcases heffect with ⟨hp, hl⟩ | ⟨r, hp, hp', hl⟩
      · left
        simp [State.abs, scanOf, hscan, hh, hd, hl, hp]
      · right
        have hle : h ≤ s.queue.linked.length := hq.head_le.trans hq.tail_le
        simp only [Init.outSysFiles, State.abs, scanOf, hscan, hh, hd, hl, hp, hp', hhead, List.nil_append,
          List.singleton_append, List.drop_append_of_le_length hle]

/-- A step of `in_db` is one of the atomic pipeline, or none; it is the test of `out` there only where it is here. -/
theorem inDb_abs (hi : Inv s) (hok : Orderly s (.db weak)) (hs : inDb s weak = some s') :
    Inv s' ∧ (s'.abs = s.abs ∨ Init.inDb s.abs = some s'.abs ∧ (s.abs.db = .readOut → s.db = .readOut)) := by
  obtain ⟨⟨h, t, hq⟩, henq, hdeq⟩ := hi
  have hhead : s.queue.head.ptr.getD 0 = h := by rw [hq.head_eq]; rfl
  cases hdb : s.db with
  | dequeue =>
    by_cases hidle : s.queue.deq = .idle
    · simp only [inDb, hdb, hidle, Queue.step, Option.map_some, Option.some.injEq] at hs
      subst hs
      refine ⟨⟨⟨h, t, hq.setDeq hidle le_rfl rfl trivial⟩, henq, fun hne => absurd rfl hne⟩, .inl ?_⟩
      simp [State.abs, hdb, hidle, dbOf]
    · have hbusy : inDb s weak =
          (deqStep weak s.queue).map fun q => { s with queue := q, db := afterDeq s.queue.deq q } := by
        simp only [inDb, hdb]
      rw [hbusy] at hs
      obtain ⟨q, hstep, rfl⟩ := Option.map_eq_some_iff.mp hs
      obtain ⟨he, hl⟩ := deqStep_frame hstep
      refine ⟨⟨hq.step (a := .deq weak) hok hstep, fun hne => ?_, fun hne => ?_⟩, ?_⟩
      · change q.enq = .idle
        rw [he]
        exact henq hne
      · -- the call has returned
        change q.deq = .idle
        rcases afterDeq_eq s.queue.deq q with hgo | hret | ⟨r, hpc⟩
        · exact absurd hgo hne
        · exact hret
        · simp only [deqStep, hpc, Option.some.injEq] at hstep
          rw [← hstep]
      · rcases deqStep_effect hq hstep with ⟨hdb', hh⟩ | ⟨hpc, hnil, hdb', hh⟩ | ⟨r, hpc, hr, hdb', hh⟩
        · left
          simp [State.abs, hdb, he, hl, hdb', hh, hhead]
        · right
          simp [Init.inDb, State.abs, hdb, he, hl, hdb', hh, hhead, hpc, hnil]
        · right
          have hcons : s.queue.linked.drop h = r :: s.queue.linked.drop (h + 1) := by
            obtain ⟨hlt, rfl⟩ := List.getElem?_eq_some_iff.mp hr
            exact List.drop_eq_getElem_cons hlt
          simp [Init.inDb, State.abs, hdb, he, hl, hdb', hh, hhead, hpc, hcons]
  | readOut =>
    have hidle := hdeq (by rw [hdb]; simp)
    simp only [inDb, hdb, Option.some.injEq] at hs
    subst hs
    refine ⟨⟨⟨h, t, hq⟩, henq, fun _ => hidle⟩, .inr ⟨?_, fun _ => rfl⟩⟩
    by_cases hout : s.out = 0 <;> simp [Init.inDb, State.abs, hdb, hidle, dbOf, hout]
  | add r =>
    have hidle := hdeq (by rw [hdb]; simp)
    simp only [inDb, hdb, Option.some.injEq] at hs
    subst hs
    refine ⟨⟨⟨h, t, hq⟩, henq, fun _ => hidle⟩, .inr ?_⟩
    simp [Init.inDb, State.abs, hdb, hidle, dbOf]
  | left => simp [inDb, hdb] at hs

/-! ## Runs -/

/-- The invariant holds in runs whose steps keep the queue in order. -/
theorem Inv.of_reach {ok : State → Act → Prop} (hok : ∀ s a, ok s a → Orderly s a)
    (h : (system recs).Reach ok s) : Inv s := by
  refine h.invariant (by rintro _ ⟨v₀, rfl⟩; exact inv_start v₀) fun s a s' hi ha hs => ?_
  cases a with
  | scan weak => exact (outSysFiles_abs hi (hok _ _ ha) hs).1
  | db weak => exact (inDb_abs hi (hok _ _ ha) hs).1

/-- **Refinement**: in a run whose steps keep the queue in order the pipeline does what the one over an atomic channel
does, and no step of the queue touches a deleted node. -/
theorem pipeline_refined (h : (system recs).Reach Orderly s) :
    (Init.system recs).Reachable s.abs ∧ s.queue.faults = [] := by
  have hinv : ∀ {s}, (system recs).Reach Orderly s → Inv s := Inv.of_reach fun _ _ h => h
  constructor
  · refine h.refines State.abs (by rintro _ ⟨v₀, rfl⟩; exact abs_start v₀) fun s a s' hr hok hs => ?_
    cases a with
    | scan weak => exact (outSysFiles_abs (hinv hr) hok hs).2.imp_right fun ht => ⟨.scan, trivial, ht⟩
    | db weak => exact (inDb_abs (hinv hr) hok hs).2.imp_right fun ht => ⟨.db, trivial, ht.1⟩
  · obtain ⟨⟨h', t, hq⟩, -, -⟩ := hinv h
    exact hq.faults_eq

/-- Steps without spurious failures. -/
def scans (n : Nat) : List Act := List.replicate n (.scan false)

def dbs (n : Nat) : List Act := List.replicate n (.db false)

def twoRecs : List FileInfo := [⟨bytes "//a", .EREG, 1⟩, ⟨bytes "//b", .EREG, 2⟩]

/-- The exchange of the first call of `enqueue` fails once without cause. A call of `dequeue` begins before the second
record is linked and returns the first one while the second call of `enqueue` is still under way. -/
theorem pipeline_refined_two : ∃ s : State, s.queue.linked = twoRecs ∧ s.queue.returned = twoRecs.take 1 ∧
    s.added = twoRecs.take 1 ∧ s.out = 1 ∧ (Init.system twoRecs).Reachable s.abs ∧ s.queue.faults = [] := by
  obtain ⟨s, hs, hp⟩ := Transition.System.reach_of_runIf (system twoRecs) (start ⟨[], .ERR, 0⟩) Orderly
    (fun s a => decide (Orderly s a)) (fun _ _ => of_decide_eq_true) ⟨_, rfl⟩
    (scans 7 ++ [.scan true] ++ scans 8 ++ dbs 4 ++ scans 6 ++ dbs 8)
    (fun s => decide (s.queue.linked = twoRecs ∧ s.queue.returned = twoRecs.take 1 ∧ s.added = twoRecs.take 1 ∧
      s.out = 1)) (by decide +kernel)
  obtain ⟨hlinked, hreturned, hadded, hout⟩ := of_decide_eq_true hp
  exact ⟨s, hlinked, hreturned, hadded, hout, pipeline_refined hs⟩

/-- At the test of `out` the channel is empty if all that was linked has been returned. -/
theorem buf_eq_nil (hi : Inv s) (hdb : s.db = .readOut) (hret : s.queue.returned = s.queue.linked) :
    s.abs.buf = [] := by
  obtain ⟨⟨h, t, hq⟩, -, hdeq⟩ := hi
  have hgiven := hq.returned_eq
  rw [hret, hdeq (by rw [hdb]; simp)] at hgiven
  have hlen := congrArg List.length hgiven
  rw [List.length_take] at hlen
  have hhead : s.queue.head.ptr.getD 0 = h := by rw [hq.head_eq]; rfl
  simp only [State.abs, hhead, DeqPc.given] at hlen ⊢
  exact List.drop_eq_nil_of_le (by omega)

/-- The atomic pipeline loses no record in timely runs. -/
theorem lossless_of_timely {t : Init.State} (h : (Init.system recs).Reach (Init.Timely recs) t) :
    Lossless recs t := by
  refine h.rec_on_steps (by rintro _ rfl hdb; cases hdb) fun t a t' hr hl hok hs => ?_
  exact (lossless_step (PipelineInv.of_reach hr) hl hs).mpr hok

theorem orderly_of_timely {a : Act} (h : Timely recs s a) : Orderly s a := h.1

/-- Timely steps are timely in the atomic pipeline. -/
theorem abs_timely (h : (system recs).Reach (Timely recs) s) : (Init.system recs).Reach (Init.Timely recs) s.abs := by
  refine h.refines State.abs (by rintro _ ⟨v₀, rfl⟩; exact abs_start v₀) fun s a s' hr hok hs => ?_
  have hinv := Inv.of_reach (fun _ _ => orderly_of_timely) hr
  cases a with
  | scan weak => exact (outSysFiles_abs hinv hok.1 hs).2.imp_right fun ht => ⟨.scan, trivial, ht⟩
  | db weak =>
    refine (inDb_abs hinv hok.1 hs).2.imp_right fun ht => ⟨.db, fun hpc hout => ?_, ht.1⟩
    obtain ⟨hstart, hret⟩ := hok.2 (ht.2 hpc) hout
    refine ⟨fun hscan => hstart ?_, buf_eq_nil hinv (ht.2 hpc) hret⟩
    cases hpcs : s.scan <;> simp [State.abs, scanOf, hpcs] at hscan ⊢

/-- All records have been linked and added. -/
theorem added_eq (h : (system recs).Reach (Timely recs) s) (hleft : s.db = .left) :
    s.queue.linked = recs ∧ s.added = recs :=
  lossless_of_timely (abs_timely h) (by simp [State.abs, hleft, dbOf])

/-- **`--init` over its queue loses no record** in runs that are orderly and timely: when `in_db` has left its loop, all
records have gone through the queue and been added, once and in the order of the scan. -/
theorem pipeline_lossless (h : (system recs).Reach (Timely recs) s) (hleft : s.db = .left) :
    s.added = recs ∧ s.queue.returned = recs ∧ s.queue.faults = [] := by
  obtain ⟨henq, hadd⟩ := added_eq h hleft
  -- nothing is left in the channel, so what was linked has been returned
  have hbuf := (PipelineInv.of_reach (abs_timely h)).enqueued_eq
  obtain ⟨⟨h', t, hq⟩, -, hdeq⟩ := Inv.of_reach (fun _ _ => orderly_of_timely) h
  have hhead : s.queue.head.ptr.getD 0 = h' := by rw [hq.head_eq]; rfl
  have hret := hq.returned_eq
  rw [hdeq (by rw [hleft]; simp)] at hret
  simp only [State.abs, hleft, dbOf, DbPc.taken, hhead, henq, hadd, List.append_nil] at hbuf
  have hdrop := List.self_eq_append_right.mp hbuf
  refine ⟨hadd, ?_, hq.faults_eq⟩
  rw [hret, henq]
  exact List.take_of_length_le (List.drop_eq_nil_iff.mp hdrop)

/-- A dequeue begins while the second record is being linked; both come out and are added. -/
theorem pipeline_lossless_two : ∃ s : State, s.db = .left ∧ s.queue.linked.length = 2 ∧
    s.added = twoRecs ∧ s.queue.returned = twoRecs ∧ s.queue.faults = [] := by
  obtain ⟨s, hs, hp⟩ := Transition.System.reach_of_runIf (system twoRecs) (start ⟨[], .ERR, 0⟩) (Timely twoRecs)
    (fun s a => decide (Timely twoRecs s a)) (fun _ _ => of_decide_eq_true) ⟨_, rfl⟩
    (scans 15 ++ dbs 4 ++ scans 9 ++ dbs 26) (fun s => decide (s.db = .left ∧ s.queue.linked.length = 2))
    (by decide +kernel)
  obtain ⟨hleft, htwo⟩ := of_decide_eq_true hp
  exact ⟨s, hleft, htwo, pipeline_lossless hs hleft⟩

end Everyfile.Init.OverQueue
