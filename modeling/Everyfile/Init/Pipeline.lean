import Everyfile.Daemon.Dispatch
import Everyfile.Lib.Transition

/-!
# The pipeline of `--init`

`out_sys_files` sets `out` to 1, enqueues a record for each file the traversal finds and sets `out` to 0; `in_db` takes
records from the queue and passes them to `ef_db::add`, and leaves its loop when the queue was empty and `out` is 0.
Each access to `out` and each operation of the queue is one step.

The two tests of `in_db` are apart, and `out` is 0 before the scan as after it. A run loses records when `in_db` reads
0 before the scan has begun, or when the last records are enqueued between its two tests (`record_lost`). `Timely`
excludes just these steps (`lossless_iff_timely`).
-/

namespace Everyfile.Init

/-! ## The two threads -/

/-- `out_sys_files`; while it scans, with the records it has still to find. -/
inductive ScanPc
  | start
  | scanning (rest : List FileInfo)
  | done
  deriving DecidableEq, Repr

/-- `in_db`: the test of the queue, the test of `out`, the call of `add`, and after the loop. -/
inductive DbPc
  | dequeue
  | readOut
  | add (info : FileInfo)
  | left
  deriving DecidableEq, Repr

structure State where
  scan : ScanPc
  db : DbPc
  out : Int
  buf : List FileInfo
  /-- The records enqueued and the records passed to `add`, since the start. -/
  enqueued : List FileInfo
  added : List FileInfo
  deriving DecidableEq, Repr

inductive Act
  | scan
  | db
  deriving DecidableEq, Repr

variable (recs : List FileInfo)

/-- One step of `out_sys_files` over a tree with the records `recs`. -/
def outSysFiles (s : State) : Option State :=
  match s.scan with
  | .start => some { s with scan := .scanning recs, out := 1 }
  | .scanning (r :: rest) =>
    some { s with scan := .scanning rest, buf := s.buf ++ [r], enqueued := s.enqueued ++ [r] }
  | .scanning [] => some { s with scan := .done, out := 0 }
  | .done => none

/-- One step of `in_db`. -/
def inDb (s : State) : Option State :=
  match s.db with
  | .dequeue =>
    match s.buf with
    | [] => some { s with db := .readOut }
    | r :: rest => some { s with db := .add r, buf := rest }
  | .readOut => some { s with db := if s.out = 0 then .left else .dequeue }
  | .add r => some { s with db := .dequeue, added := s.added ++ [r] }
  | .left => none

def step (s : State) : Act → Option State
  | .scan => outSysFiles recs s
  | .db => inDb s

/-- `main` has set `out` to 0. -/
def start : State := ⟨.start, .dequeue, 0, [], [], []⟩

def system : Transition.System State Act := ⟨(· = start), step recs⟩

/-! ## Losing no record -/

/-- When `in_db` has left its loop, all records have been enqueued and passed to `add`, in the order of the scan. -/
def Lossless (s : State) : Prop := s.db = .left → s.enqueued = recs ∧ s.added = recs

/-- `in_db` does not read 0 from `out` before the scan of a tree with records, nor while records are in the queue. -/
def Timely (s : State) : Act → Prop
  | .db => s.db = .readOut → s.out = 0 → (s.scan = .start → recs = []) ∧ s.buf = []
  | .scan => True

/-- The records the scan has still to enqueue. -/
def ScanPc.rest : ScanPc → List FileInfo
  | .start => recs
  | .scanning rest => rest
  | .done => []

/-- The record `in_db` has taken from the queue. -/
def DbPc.taken : DbPc → List FileInfo
  | .add r => [r]
  | _ => []

/-- The invariant: the records are in the scan, in the queue, in the hands of `in_db`, or added. -/
structure PipelineInv (s : State) : Prop where
  recs_eq : recs = s.enqueued ++ s.scan.rest recs
  enqueued_eq : s.enqueued = s.added ++ s.db.taken ++ s.buf
  out_eq : s.out = 0 ↔ ∀ rest, s.scan ≠ .scanning rest

variable {recs} {s s' : State}

theorem pipelineInv_start : PipelineInv recs start := by
  constructor <;> simp [start, ScanPc.rest, DbPc.taken]

theorem PipelineInv.outSysFiles (h : PipelineInv recs s) (hs : outSysFiles recs s = some s') : PipelineInv recs s' := by
  obtain ⟨hr, he, ho⟩ := h
  unfold Init.outSysFiles at hs
  split at hs
  next hpc =>
    cases hs
    exact ⟨by simpa [hpc, ScanPc.rest] using hr, he, by simp⟩
  next r rest hpc =>
    cases hs
    exact ⟨by simpa [hpc, ScanPc.rest] using hr, by simp [he], by simpa [hpc] using ho⟩
  next hpc =>
    cases hs
    exact ⟨by simpa [hpc, ScanPc.rest] using hr, he, by simp⟩
  next => cases hs

theorem PipelineInv.inDb (h : PipelineInv recs s) (hs : inDb s = some s') : PipelineInv recs s' := by
  obtain ⟨hr, he, ho⟩ := h
  unfold Init.inDb at hs
  split at hs
  next hpc =>
    split at hs <;> rename_i hbuf <;> cases hs
    · exact ⟨hr, by simpa [hpc, DbPc.taken, hbuf] using he, ho⟩
    · exact ⟨hr, by simpa [hpc, DbPc.taken, hbuf] using he, ho⟩
  next hpc =>
    cases hs
    refine ⟨hr, ?_, ho⟩
    have htaken : (if s.out = 0 then DbPc.left else .dequeue).taken = [] := by split <;> rfl
    rw [htaken]
    simpa [hpc, DbPc.taken] using he
  next r hpc =>
    cases hs
    exact ⟨hr, by simpa [hpc, DbPc.taken] using he, ho⟩
  next => cases hs

theorem PipelineInv.of_reach {ok : State → Act → Prop} (h : (system recs).Reach ok s) : PipelineInv recs s := by
  refine h.invariant (by rintro _ rfl; exact pipelineInv_start) fun s a s' hi _ hs => ?_
  cases a with
  | scan => exact hi.outSysFiles hs
  | db => exact hi.inDb hs

/-- The exit of `in_db` is lossless exactly where it is timely. -/
theorem PipelineInv.lossless_exit (h : PipelineInv recs s) (hpc : s.db = .readOut) (hout : s.out = 0) :
    (s.enqueued = recs ∧ s.added = recs) ↔ (s.scan = .start → recs = []) ∧ s.buf = [] := by
  obtain ⟨hr, he, ho⟩ := h
  have hadded : s.enqueued = s.added ++ s.buf := by simpa [hpc, DbPc.taken] using he
  have hpcs := ho.mp hout
  constructor
  · rintro ⟨henq, hadd⟩
    have hbuf : s.buf = [] := by simpa [henq, hadd] using hadded
    refine ⟨fun hstart => ?_, hbuf⟩
    simpa [henq, hstart, ScanPc.rest] using hr
  · rintro ⟨hstart, hbuf⟩
    have heq : s.enqueued = s.added := by simpa [hbuf] using hadded
    have henq : s.enqueued = recs := by
      cases hscan : s.scan with
      | start =>
        have hnil := hstart hscan
        rw [hnil] at hr
        rw [hnil, (List.append_eq_nil_iff.mp hr.symm).1]
      | scanning rest => exact absurd hscan (hpcs rest)
      | done => simpa [hscan, ScanPc.rest] using hr.symm
    exact ⟨henq, heq ▸ henq⟩

/-- After an exit without loss the scan has nothing more to enqueue. -/
theorem Lossless.outSysFiles (hl : Lossless recs s) (h : PipelineInv recs s) (hs : Init.outSysFiles recs s = some s') :
    Lossless recs s' := by
  intro hleft
  have hr := h.recs_eq
  unfold Init.outSysFiles at hs
  split at hs
  next => cases hs; exact hl hleft
  next r rest hpc =>
    cases hs
    rw [hpc, ScanPc.rest, (hl hleft).1] at hr
    exact absurd (List.self_eq_append_right.mp hr) (by simp)
  next => cases hs; exact hl hleft
  next => cases hs

theorem PipelineInv.lossless_inDb (h : PipelineInv recs s) (hs : Init.inDb s = some s') :
    Lossless recs s' ↔ Timely recs s .db := by
  unfold Init.inDb at hs
  split at hs
  next hpc =>
    split at hs <;> cases hs <;> simp [Lossless, Timely, hpc]
  next hpc =>
    cases hs
    by_cases hout : s.out = 0
    · simpa [Lossless, Timely, hpc, hout] using h.lossless_exit hpc hout
    · simp [Lossless, Timely, hout]
  next hpc => cases hs; simp [Lossless, Timely, hpc]
  next => cases hs

/-- One step: it keeps the run without loss exactly where it is timely. -/
theorem lossless_step (h : PipelineInv recs s) (hl : Lossless recs s) {a : Act} (hs : step recs s a = some s') :
    Lossless recs s' ↔ Timely recs s a := by
  cases a with
  | scan => exact iff_of_true (hl.outSysFiles h hs) trivial
  | db => exact h.lossless_inDb hs

/-- **When `--init` loses no record.** In a run whose steps are timely `in_db` leaves its loop with all records added
once, in the order of the scan; and a step that is not timely ends such a run. -/
theorem lossless_iff_timely (h : (system recs).Reach (Timely recs) s) :
    Lossless recs s ∧ ∀ a s', step recs s a = some s' → (Lossless recs s' ↔ Timely recs s a) := by
  have hl : Lossless recs s := by
    refine h.rec_on_steps (by rintro _ rfl hdb; cases hdb) fun s a s' hr hl hok hs => ?_
    exact (lossless_step (PipelineInv.of_reach hr) hl hs).mpr hok
  exact ⟨hl, fun a s' hs => lossless_step (PipelineInv.of_reach h) hl hs⟩

/-- A run over two records whose `in_db` starts late. -/
theorem lossless_two : ∃ s, s.db = .left ∧ s.added = [⟨bytes "//a", .EREG, 1⟩, ⟨bytes "//b", .EREG, 2⟩] ∧
    Lossless [⟨bytes "//a", .EREG, 1⟩, ⟨bytes "//b", .EREG, 2⟩] s := by
  obtain ⟨s, hs, hp⟩ := Transition.System.reach_of_runIf
    (system [⟨bytes "//a", .EREG, 1⟩, ⟨bytes "//b", .EREG, 2⟩]) start (Timely _)
    (fun s a => a = .scan ∨ s.db ≠ .readOut ∨ s.out ≠ 0 ∨ s.scan ≠ .start ∧ s.buf = [])
    (fun s a ht => by
      cases a with
      | scan => trivial
      | db =>
        intro hpc hout
        have := of_decide_eq_true ht
        simp_all)
    rfl (List.replicate 4 .scan ++ List.replicate 6 .db)
    (fun s => decide (s.db = .left ∧ s.added = [⟨bytes "//a", .EREG, 1⟩, ⟨bytes "//b", .EREG, 2⟩])) (by decide)
  obtain ⟨hleft, hadded⟩ := of_decide_eq_true hp
  exact ⟨s, hleft, hadded, (lossless_iff_timely hs).1⟩

/-- `in_db` finds the queue empty, the scan enqueues its only record and ends, and `in_db` reads 0. -/
theorem record_lost : ∃ s, (system [⟨bytes "//a", .EREG, 1⟩]).Reachable s ∧ ¬Lossless [⟨bytes "//a", .EREG, 1⟩] s := by
  obtain ⟨s, hs, hp⟩ := Transition.System.reachable_of_run (system [⟨bytes "//a", .EREG, 1⟩]) start rfl
    [.scan, .db, .scan, .scan, .db] (fun s => decide (s.db = .left ∧ s.added = [])) (by decide)
  obtain ⟨hleft, hadded⟩ := of_decide_eq_true hp
  refine ⟨s, hs, fun hl => ?_⟩
  have := (hl hleft).2
  simp [hadded] at this

end Everyfile.Init
