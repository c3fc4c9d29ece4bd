import Everyfile.Db.Refine
import Everyfile.Lib.Transition

/-!
# Transactions

`add` puts its insert between `BEGIN` and `COMMIT`; `rm` leaves its delete to `sqlite3_exec`. Every call of SQLite can
fail, and of the results the two operations look only at those of `BEGIN` and of the compilation: they return 0 also
where the statement was not executed, and after a `COMMIT` that was busy the transaction stays open, so that the next
`BEGIN` throws. `Lands` says which calls do what they return, and leave no transaction behind (`atomic_iff_lands`).
Without failures these are the operations of `ef_db` on a table (`add_quiet`, `rm_quiet`).
-/

namespace Everyfile.Db

/-- The result of `sqlite3_step`. -/
inductive StepResult
  | done
  | constraint
  | busy
  deriving DecidableEq, Repr

/-- What comes of one statement, where its text and the table leave it open. -/
structure StmtResults where
  prepare : Bool
  step : StepResult
  deriving DecidableEq, Repr

structure AddResults extends StmtResults where
  /-- `COMMIT` is not busy. -/
  commit : Bool
  deriving DecidableEq, Repr

/-- The committed table, and the table in the open transaction. -/
structure Connection where
  committed : Table
  pending : Option Table
  deriving DecidableEq

/-- One step of a compiled statement. An error of the statement itself is a violated constraint; the table is then as
before. -/
def stepOn (f : Table → Option (Table × List Row)) : StepResult → Table → Table × StepResult
  | .done, t =>
    match f t with
    | some r => (r.1, .done)
    | none => (t, .constraint)
  | r, t => (t, r)

namespace Connection

/-! ## Calls of SQLite -/

/-- `BEGIN`, an error inside a transaction. -/
def begin (s : Connection) : Option Connection :=
  match s.pending with
  | none => some ⟨s.committed, some s.committed⟩
  | some _ => none

/-- `COMMIT`, an error outside of transactions. A busy one leaves the transaction open. -/
def commit (s : Connection) (ok : Bool) : Connection × Bool :=
  match s.pending with
  | some t => if ok then (⟨t, none⟩, true) else (s, false)
  | none => (s, false)

def rollback (s : Connection) : Connection := ⟨s.committed, none⟩

/-- `sqlite3_step`: outside of transactions the change is committed with the statement. -/
def step (s : Connection) (f : Table → Option (Table × List Row)) (r : StepResult) : Connection × StepResult :=
  match s.pending with
  | some t => (⟨s.committed, some (stepOn f r t).1⟩, (stepOn f r t).2)
  | none => (⟨(stepOn f r s.committed).1, none⟩, (stepOn f r s.committed).2)

/-- `sqlite3_prepare` of a statement. -/
def prepared (E : Sqlite) (st : List Token) (r : StmtResults) : Option (Table → Option (Table × List Row)) :=
  if r.prepare then E.compile st else none

/-- The statements of `sqlite3_exec`, of which the `i`-th has results `rs i`. -/
def exec (E : Sqlite) : List (List Token) → (Nat → StmtResults) → Connection → Connection × Bool
  | [], _, s => (s, true)
  | st :: sts, rs, s =>
    match prepared E st (rs 0) with
    | none => (s, false)
    | some f =>
      if (s.step f (rs 0).step).2 = .done then exec E sts (fun i => rs (i + 1)) (s.step f (rs 0).step).1
      else ((s.step f (rs 0).step).1, false)

/-! ## The operations -/

variable (E : Sqlite)

/-- `ef_db::add`. Where the constructor of `transaction` throws, its destructor does not run; where that of `command`
throws, it rolls back. The results of `cmd.execute()` and `xct.commit()` are dropped. -/
def add (info : FileInfo) (o : AddResults) (s : Connection) : Option (Connection × Outcome) :=
  (sprintf (EfDb.addText { info with file_name := EfDb.normalise info.file_name })).map fun sql =>
    match s.begin with
    | none => (s, .threw)
    | some s =>
      match prepared E ((splitStatements (lex sql)).headD []) o.toStmtResults with
      | none => (s.rollback, .threw)
      | some f => (((s.step f o.step).1.commit o.commit).1, .returned 0)

/-- `ef_db::rm`. The result of `db.execute` is dropped. -/
def rm (n : List Byte) (rs : Nat → StmtResults) (s : Connection) : Option (Connection × Outcome) :=
  (sprintf (EfDb.rmText n)).map fun sql => ((exec E (splitStatements (lex sql)) rs s).1, .returned 0)

inductive Call
  | add (info : FileInfo) (o : AddResults)
  | rm (n : List Byte) (rs : Nat → StmtResults)

/-- A call, where its text fits. -/
def call : Call → Connection → Option (Connection × Outcome)
  | .add info o, s => s.add E info o
  | .rm n rs, s => s.rm E n rs

/-- Sequences of calls, on a table that is there already. -/
def system : Transition.System Connection Call where
  init s := s.pending = none
  step s a := (call E a s).map Prod.fst

/-! ## All or nothing -/

/-- The row of a record. -/
def rowOf (info : FileInfo) : Row := ⟨info.file_name, decimal info.file_type.toNat, E.datetime info.file_time⟩

/-- The change of a call is in the table. -/
def Landed : Call → Table → Prop
  | .add info _, t => rowOf E info ∈ t.rows
  | .rm n _, t => n ∉ t.names

/-- The first statement of a call's text, which for `add` is all that is compiled. -/
def Call.stmt : Call → List Token
  | .add info _ =>
    (splitStatements (lex (EfDb.addText { info with file_name := EfDb.normalise info.file_name }))).headD []
  | .rm n _ => (splitStatements (lex (EfDb.rmText n))).headD []

def Call.results : Call → StmtResults
  | .add _ o => o.toStmtResults
  | .rm _ rs => rs 0

/-- The first statement compiles and its step is done. -/
def Executed (a : Call) : Prop := prepared E a.stmt a.results ≠ none ∧ a.results.step = .done

/-- What a call leaves: no open transaction, and its change if it returned 0, else the table as it was. -/
structure Atomic (a : Call) (s : Connection) (r : Connection × Outcome) : Prop where
  closed : r.1.pending = none
  landed : r.2 = .returned 0 → Landed E a r.1.committed
  unchanged : r.2 ≠ .returned 0 → r.1.committed = s.committed

/-- A name that stands in a statement as one literal. -/
def Plain (n : List Byte) : Prop := NulFree n ∧ 34 ∉ n

def Call.Plain : Call → Prop
  | .add info _ => Connection.Plain info.file_name
  | .rm n _ => Connection.Plain n

/-- The condition for a call. What is executed is a statement with the name as one literal. An `add` does not compile,
or its `COMMIT` is not busy and the insert is done under the name itself or its row is there already. An `rm` has its
delete done, which compares with the name, or its name is not there. -/
def Lands (s : Connection) (a : Call) : Prop :=
  (Executed E a → a.Plain) ∧
    match a with
    | .add info o =>
      prepared E a.stmt a.results = none ∨
        o.commit = true ∧
          (rowOf E info ∈ s.committed.rows ∨
            o.step = .done ∧ EfDb.normalise info.file_name = info.file_name ∧ info.file_name ∉ s.committed.names)
    | .rm n _ =>
      n ∉ s.committed.names ∨ Executed E a ∧ ∀ r ∈ s.committed.rows, r.file_name = n → E.nameEq n r = true

/-! ## What the operations do outside of a transaction -/

section outside

variable {E} {s : Connection} {info : FileInfo} {n : List Byte} {o : AddResults} {rs : Nat → StmtResults}
  {r : Connection × Outcome}

theorem Plain.normalise (h : Plain n) : Plain (EfDb.normalise n) :=
  ⟨nulFree_normalise h.1, quoteFree_normalise h.2⟩

/-- A text that is not written past the buffer fits; its NUL may be the one behind it. -/
theorem length_le_of_sprintf {text sql : List Byte} (h : sprintf text = some sql) : text.length ≤ 4096 := by
  by_contra hfit
  rw [sprintf, if_neg hfit] at h
  cases h

/-- A step that is not done changes nothing. -/
theorem stepOn_of_ne_done {x : StepResult} (hx : x ≠ .done) (f : Table → Option (Table × List Row)) (t : Table) :
    stepOn f x t = (t, x) := by
  cases x with
  | done => exact absurd rfl hx
  | constraint | busy => rfl

/-- **A call of `add`**: it throws with the table as it was, or the step's table is committed or left open. -/
theorem add_cases (hp : s.pending = none) (hr : s.add E info o = some r) :
    let a : Call := .add info o
    (prepared E a.stmt a.results = none ∧ r = (⟨s.committed, none⟩, .threw)) ∨
      ∃ f, prepared E a.stmt a.results = some f ∧
        r = (if o.commit then ⟨(stepOn f o.step s.committed).1, none⟩
          else ⟨s.committed, some (stepOn f o.step s.committed).1⟩, .returned 0) := by
  obtain ⟨sql, hsql, rfl⟩ := Option.map_eq_some_iff.mp hr
  rw [sprintf_addText (length_le_of_sprintf hsql)] at hsql
  obtain rfl := Option.some_inj.mp hsql
  simp only [begin, hp]
  split
  next hnone => exact .inl ⟨hnone, rfl⟩
  next f hf =>
    refine .inr ⟨f, hf, ?_⟩
    cases hc : o.commit <;> simp [step, commit]

/-- A text whose first statement is not executed is executed no further. -/
theorem exec_not_executed {sts : List (List Token)} {t : Table}
    (h : ¬(prepared E (sts.headD []) (rs 0) ≠ none ∧ (rs 0).step = .done)) :
    (exec E sts rs ⟨t, none⟩).1 = ⟨t, none⟩ := by
  cases sts with
  | nil => rfl
  | cons st sts =>
    rw [exec]
    split
    next => rfl
    next f hf =>
      have hx : (rs 0).step ≠ .done := by
        intro hdone
        apply h
        rw [List.headD_cons, hf]
        exact ⟨nofun, hdone⟩
      simp only [step, stepOn_of_ne_done hx, if_neg hx]

/-- **A call of `rm`** outside of a transaction: without its statement nothing happens, and for a plain name the delete
alone. -/
theorem rm_cases (hp : s.pending = none) (hr : s.rm E n rs = some r) :
    (¬Executed E (.rm n rs) → r = (⟨s.committed, none⟩, .returned 0)) ∧
      (Executed E (.rm n rs) → Plain n → r = (⟨s.committed.delete (E.nameEq n), none⟩, .returned 0)) := by
  obtain ⟨sql, hsql, rfl⟩ := Option.map_eq_some_iff.mp hr
  rw [sprintf_rmText (length_le_of_sprintf hsql)] at hsql
  obtain rfl := Option.some_inj.mp hsql
  obtain ⟨t, p⟩ := s
  obtain rfl : p = none := hp
  constructor
  · intro h
    rw [exec_not_executed h]
  · rintro ⟨hprep, hdone⟩ hn
    have hst := statements_rmText hn.1 hn.2
    have hprepare : (rs 0).prepare = true := by
      by_contra hfalse
      exact hprep (if_neg hfalse)
    have hdone : (rs 0).step = .done := hdone
    simp [hst, exec, prepared, hprepare, hdone, Sqlite.compile, parse_delete, step, stepOn]

/-! ## When a call is atomic -/

/-- The insert of a plain name. -/
theorem prepared_insert (hn : Plain info.file_name) {f : Table → Option (Table × List Row)}
    (h : prepared E (Call.add info o).stmt o.toStmtResults = some f) :
    f = fun t => (t.insert (rowOf E { info with file_name := EfDb.normalise info.file_name })).map (·, []) := by
  rw [Call.stmt, statements_addText _ hn.normalise.1 hn.normalise.2, List.headD_cons, prepared, Sqlite.compile,
    parse_insert] at h
  exact (Option.some_inj.mp (Option.ite_none_right_eq_some.mp h).2).symm

/-- The insert leaves the row exactly where it is there already or is new. -/
theorem mem_stepOn_insert (type : List Byte) (time : Option (List Byte)) (m : List Byte) (t : Table) :
    (⟨n, type, time⟩ : Row) ∈ (stepOn (fun t => (t.insert ⟨m, type, time⟩).map (·, [])) .done t).1.rows ↔
      ⟨n, type, time⟩ ∈ t.rows ∨ m = n ∧ n ∉ t.names := by
  have hadd : (stepOn (fun t => (t.insert ⟨m, type, time⟩).map (·, [])) .done t).1 = t.add ⟨m, type, time⟩ := by
    rw [stepOn, Table.add]
    cases t.insert ⟨m, type, time⟩ <;> rfl
  rw [hadd]
  by_cases hm : m ∈ t.names
  · rw [Table.rows_add_of_mem hm]
    refine ⟨.inl, fun h => h.elim id ?_⟩
    rintro ⟨rfl, hnot⟩
    exact absurd hm hnot
  · rw [Table.rows_add_of_notMem hm, List.mem_append, List.mem_singleton, Row.mk.injEq]
    apply or_congr_right
    constructor
    · rintro ⟨rfl, -, -⟩
      exact ⟨rfl, hm⟩
    · rintro ⟨rfl, -⟩
      exact ⟨rfl, rfl, rfl⟩

/-- The delete leaves no row of the name exactly where it takes each of them. -/
theorem names_delete (p : Row → Bool) (t : Table) :
    n ∉ (t.delete p).names ↔ ∀ r ∈ t.rows, r.file_name = n → p r = true := by
  simp only [Table.names, Table.delete, List.mem_map, List.mem_filter]
  constructor
  · intro h r hr hn
    by_contra hp
    exact h ⟨r, ⟨hr, by simpa using hp⟩, hn⟩
  · rintro h ⟨r, ⟨hr, hp⟩, hn⟩
    rw [h r hr hn] at hp
    cases hp

/-- Back outside of a transaction, a call that returns 0 is atomic if its change is there. -/
theorem atomic_returned {a : Call} {t : Table} : Atomic E a s (⟨t, none⟩, .returned 0) ↔ Landed E a t :=
  ⟨fun h => h.landed rfl, fun h => ⟨rfl, fun _ => h, fun hne => absurd rfl hne⟩⟩

/-- **When a call of `add` is atomic**, if no other statement than the insert of a plain name is executed. -/
theorem atomic_add_iff (hread : Executed E (.add info o) → Plain info.file_name) (hp : s.pending = none)
    (hr : s.add E info o = some r) : Atomic E (.add info o) s r ↔ Lands E s (.add info o) := by
  obtain ⟨hnone, rfl⟩ | ⟨f, hf, rfl⟩ := add_cases hp hr
  · exact iff_of_true ⟨rfl, nofun, fun _ => rfl⟩ ⟨hread, .inl hnone⟩
  · have hrow : rowOf E info ∈ (stepOn f o.step s.committed).1.rows ↔ rowOf E info ∈ s.committed.rows ∨
        o.step = .done ∧ EfDb.normalise info.file_name = info.file_name ∧ info.file_name ∉ s.committed.names := by
      by_cases hdone : o.step = .done
      · obtain rfl := prepared_insert (hread ⟨by rw [hf]; nofun, hdone⟩) hf
        rw [hdone, and_iff_right rfl]
        exact mem_stepOn_insert _ _ _ _
      · simp [stepOn_of_ne_done hdone, hdone]
    have hlands : Lands E s (.add info o) ↔ o.commit = true ∧ _ :=
      ⟨fun h => h.2.resolve_left (by rw [hf]; nofun), fun h => ⟨hread, .inr h⟩⟩
    rw [hlands, ← hrow]
    cases hc : o.commit with
    | false => exact iff_of_false (fun h => by cases h.closed) (by simp)
    | true =>
      rw [and_iff_right rfl]
      exact atomic_returned

/-- **When a call of `rm` is atomic**, if no other statement than the delete of a plain name is executed. -/
theorem atomic_rm_iff (hread : Executed E (.rm n rs) → Plain n) (hp : s.pending = none)
    (hr : s.rm E n rs = some r) : Atomic E (.rm n rs) s r ↔ Lands E s (.rm n rs) := by
  have hlands : Lands E s (.rm n rs) ↔ n ∉ s.committed.names ∨ Executed E (.rm n rs) ∧ _ := and_iff_right hread
  rw [hlands]
  by_cases hexec : Executed E (.rm n rs)
  · obtain rfl := (rm_cases hp hr).2 hexec (hread hexec)
    rw [atomic_returned, Landed, names_delete, and_iff_right hexec]
    refine ⟨.inr, fun h => h.elim (fun hn r hr hname => ?_) id⟩
    exact absurd (hname ▸ List.mem_map_of_mem hr) hn
  · obtain rfl := (rm_cases hp hr).1 hexec
    rw [atomic_returned]
    simp [Landed, hexec]

end outside

/-! ## Runs -/

variable {E} {s : Connection}

theorem atomic_call_iff (hp : s.pending = none) {a : Call} (hread : Executed E a → a.Plain)
    {r : Connection × Outcome} (hr : call E a s = some r) : Atomic E a s r ↔ Lands E s a := by
  cases a with
  | add info o => exact atomic_add_iff hread hp hr
  | rm n rs => exact atomic_rm_iff hread hp hr

/-- **When database updates are all-or-nothing**: after calls that meet the condition no transaction is open, and each
next call is atomic if it meets the condition, and only then if no other statement than that of a plain name is
executed. -/
theorem atomic_iff_lands (h : (system E).Reach (Lands E) s) : s.pending = none ∧
    ∀ a r, call E a s = some r →
      (Lands E s a → Atomic E a s r) ∧ ((Executed E a → a.Plain) → Atomic E a s r → Lands E s a) := by
  have hp : s.pending = none := by
    refine h.invariant (fun s hs => hs) fun s a s' hp hok hs => ?_
    obtain ⟨r, hr, rfl⟩ := Option.map_eq_some_iff.mp hs
    exact ((atomic_call_iff hp hok.1 hr).mpr hok).closed
  refine ⟨hp, fun a r hr => ⟨fun hlands => ?_, fun hread => ?_⟩⟩
  · exact (atomic_call_iff hp hlands.1 hr).mpr hlands
  · exact (atomic_call_iff hp hread hr).mp

/-- A regular file. -/
def fileA : FileInfo := ⟨bytes "/a", .EREG, 0⟩

theorem atomic_iff_lands_fileA : let s : Connection := ⟨⟨[rowOf plainEngine fileA], by decide⟩, none⟩
    (system plainEngine).Reach (Lands plainEngine) s ∧ s.pending = none ∧ ∀ a r, call plainEngine a s = some r →
      (Lands plainEngine s a → Atomic plainEngine a s r) ∧
        ((Executed plainEngine a → a.Plain) → Atomic plainEngine a s r → Lands plainEngine s a) := by
  intro s
  have hlands : Lands plainEngine ⟨Table.empty, none⟩ (.add fileA ⟨⟨true, .done⟩, true⟩) :=
    ⟨fun _ => ⟨by decide, by decide⟩, .inr ⟨rfl, .inr ⟨rfl, by decide, by decide⟩⟩⟩
  have hinit : (system plainEngine).init ⟨Table.empty, none⟩ := rfl
  have h : (system plainEngine).Reach (Lands plainEngine) s := .step (.init hinit) hlands (by decide)
  exact ⟨h, atomic_iff_lands h⟩

/-- A busy `COMMIT`: the call returns 0, its row is not committed, and the next call throws. A busy delete: the call
returns 0, and the row stays. -/
theorem busy_commit_open :
    (∃ r, call plainEngine (.add fileA ⟨⟨true, .done⟩, false⟩) ⟨Table.empty, none⟩ = some r ∧ r.2 = .returned 0 ∧
      r.1.pending.isSome = true ∧ r.1.committed = Table.empty ∧
      call plainEngine (.add ⟨bytes "/b", .EREG, 0⟩ ⟨⟨true, .done⟩, true⟩) r.1 = some (r.1, .threw) ∧
      ¬Atomic plainEngine (.add fileA ⟨⟨true, .done⟩, false⟩) ⟨Table.empty, none⟩ r) ∧
    ∃ t : Table, bytes "/y" ∈ t.names ∧
      call plainEngine (.rm (bytes "/y") fun _ => ⟨true, .busy⟩) ⟨t, none⟩ = some (⟨t, none⟩, .returned 0) := by
  refine ⟨⟨(⟨Table.empty, some ⟨[rowOf plainEngine fileA], by decide⟩⟩, .returned 0), by decide, rfl, rfl, rfl,
    by decide, fun h => ?_⟩, rowY, by decide, by decide⟩
  cases h.closed

/-! ## Calls without failures -/

/-- **`add` without failures** is that of the table. -/
theorem add_quiet (info : FileInfo) (t : Table) : add E info ⟨⟨true, .done⟩, true⟩ ⟨t, none⟩ =
    (EfDb.add E info t).map fun r => (⟨r.1, none⟩, r.2) := by
  rw [add, EfDb.add, Option.map_map]
  congr 1
  funext sql
  simp only [Function.comp_apply, begin, prepared, if_true, Sqlite.prepare]
  cases E.compile ((splitStatements (lex sql)).headD []) with
  | none => rfl
  | some f =>
    simp only [step, stepOn, commit, if_true]
    cases f t <;> rfl

theorem exec_quiet (sts : List (List Token)) (t : Table) :
    exec E sts (fun _ => ⟨true, .done⟩) ⟨t, none⟩ = (⟨(E.runAll sts t).1, none⟩, (E.runAll sts t).2) := by
  induction sts generalizing t with
  | nil => rfl
  | cons st sts ih =>
    simp only [exec, prepared, if_true, Sqlite.runAll, Sqlite.run]
    cases E.compile st with
    | none => rfl
    | some f =>
      obtain hft | ⟨r, hft⟩ := Option.eq_none_or_eq_some (f t)
      · simp [step, stepOn, hft]
      · simpa [step, stepOn, hft] using ih r.1

/-- **`rm` without failures** is that of the table. -/
theorem rm_quiet (n : List Byte) (t : Table) : rm E n (fun _ => ⟨true, .done⟩) ⟨t, none⟩ =
    (EfDb.rm E n t).map fun r => (⟨r.1, none⟩, r.2) := by
  rw [rm, EfDb.rm, Option.map_map]
  congr 1
  funext sql
  rw [exec_quiet]
  rfl

end Connection

end Everyfile.Db
