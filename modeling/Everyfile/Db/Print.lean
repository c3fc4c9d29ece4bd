import Everyfile.Db.Refine

/-!
# Printing what is stored

`print_res` reads three columns of each row into a `std::string`, and `sqlite3pp` builds it from whatever
`sqlite3_column_text` returns. For a time outside the years that SQLite's `datetime` knows the column is `NULL`, the
pointer is null, and there is no string to be built (`printRes` has no value). A record that was added is printed by
the query for its stored name exactly where its time is in range and SQLite reads the name in quotes as a text, or as
the column of the names (`prints_iff`).
-/

namespace Everyfile.Db

/-! ## The read path -/

/-- `sqlite3_column_text` of the three columns; `none` is a null pointer. -/
def Row.columns (r : Row) : List (Option (List Byte)) := [some r.file_name, some r.file_type, r.file_time]

/-- `rows::get(int, std::string)`: no value where the string is built from a null pointer. -/
def getString (r : Row) (idx : Nat) : Option (List Byte) := (r.columns[idx]?.bind id).map cstr

/-- `(*iter).getter()>>_a>>_b>>_c`, and the line that is printed. -/
def printRow (r : Row) : Option (List Byte) :=
  (getString r 0).bind fun _a => (getString r 1).bind fun _b => (getString r 2).map fun _c => _a

/-- `print_res`: the lines. -/
def printRes : List Row → Option (List (List Byte))
  | [] => some []
  | r :: rs => (printRow r).bind fun line => (printRes rs).map (line :: ·)

/-- What the read path relies on: `datetime` is `NULL` outside the years it represents, and its texts are no columns'
names. -/
structure DatedSqlite extends Sqlite where
  first : Int
  last : Int
  datetime_isSome : ∀ t, (datetime t).isSome = true ↔ first ≤ t ∧ t ≤ last
  datetime_column : ∀ t v, datetime t = some v → columnOf v = none

/-- A record is added to an empty table, and the query for its stored name prints the name once. -/
def Prints (E : Sqlite) (info : FileInfo) : Prop :=
  ∃ t rows, EfDb.add E info Table.empty = some (t, .returned 0) ∧
    EfDb.qryExact E (EfDb.normalise info.file_name) t = some (t, some rows) ∧
    printRes rows = some [EfDb.normalise info.file_name]

/-! ## One row -/

variable {E : DatedSqlite} {n : List Byte} {type : FileType} {time : Int64}

/-- A row is printed where its time is not `NULL`. -/
theorem printRow_eq {r : Row} (hz : NulFree r.file_name) :
    printRow r = if r.file_time.isSome then some r.file_name else none := by
  obtain ⟨name, type, time⟩ := r
  have hname : cstr name = name := cstr_of_nulFree hz
  cases time <;> simp [printRow, getString, Row.columns, hname]

/-- Rows with times are printed by their names. -/
theorem printRes_eq {rows : List Row} (h : ∀ r ∈ rows, NulFree r.file_name ∧ r.file_time.isSome = true) :
    printRes rows = some (rows.map Row.file_name) := by
  induction rows with
  | nil => rfl
  | cons r rows ih =>
    obtain ⟨⟨hz, htime⟩, hrows⟩ := List.forall_mem_cons.mp h
    simp [printRes, printRow_eq hz, htime, ih hrows]

/-- A type or a time is not taken for the name of a column. -/
theorem nameEq_stored (m : List Byte) (type : FileType) (time : Int64) :
    E.nameEq m ⟨m, decimal type.toNat, E.datetime time.toInt⟩ = true ↔
      columnOf m = none ∨ columnOf m = some .file_name := by
  have htype : columnOf (decimal type.toNat) = none := by cases type <;> decide
  cases hc : columnOf m with
  | none => simp [Sqlite.nameEq, hc]
  | some c =>
    cases c with
    | file_name => simp [Sqlite.nameEq, hc]
    | file_type =>
      have hne : m ≠ decimal type.toNat := by
        rintro rfl
        rw [htype] at hc
        cases hc
      simp [Sqlite.nameEq, hc, hne]
    | file_time =>
      have hne : E.datetime time.toInt ≠ some m := by
        intro htime
        rw [E.datetime_column _ _ htime] at hc
        cases hc
      simp [Sqlite.nameEq, hc, hne]
    | rowid =>
      have hne : E.rowidEq ⟨m, decimal type.toNat, E.datetime time.toInt⟩ ≠ true := by
        intro hrow
        rw [E.rowidEq_name _ hrow] at hc
        cases hc
      simp [Sqlite.nameEq, hc, hne]

theorem select_add_empty (r : Row) (p : Row → Bool) : (Table.empty.add r).select p = if p r then [r] else [] := by
  have hrows : (Table.empty.add r).rows = [r] := Table.rows_add_of_notMem (by simp [Table.empty])
  rw [Table.select, hrows, List.filter_singleton, Bool.cond_eq_ite]

/-- The lines for the only row of a table, where it is found. -/
theorem printRes_stored {m : List Byte} (hz : NulFree m) (r : Row) (hr : r.file_name = m) :
    printRes ((Table.empty.add r).select (E.nameEq m)) = some [m] ↔
      r.file_time.isSome = true ∧ E.nameEq m r = true := by
  subst hr
  rw [select_add_empty]
  split
  next hname =>
    rw [printRes, printRow_eq hz]
    split
    next htime => simp [printRes, htime, hname]
    next htime => simp [htime]
  next hname => simp [printRes, hname]

/-! ## The law -/

/-- **When a stored row is printed**: its time is one that `datetime` knows, and its name in quotes is a text or the
column of the names. -/
theorem prints_iff (hz : NulFree n) (hq : 34 ∉ n)
    (hadd : (EfDb.addText ⟨EfDb.normalise n, type, time.toInt⟩).length < 4096)
    (hqry : (EfDb.qryExactText (EfDb.normalise n)).length < 4096) :
    Prints E.toSqlite ⟨n, type, time.toInt⟩ ↔ (E.first ≤ time.toInt ∧ time.toInt ≤ E.last) ∧
      (columnOf (EfDb.normalise n) = none ∨ columnOf (EfDb.normalise n) = some .file_name) := by
  have hzm : NulFree (EfDb.normalise n) := nulFree_normalise hz
  have hqm : 34 ∉ EfDb.normalise n := quoteFree_normalise hq
  have hstored : EfDb.add E.toSqlite ⟨n, type, time.toInt⟩ Table.empty =
      some (Table.empty.add ⟨EfDb.normalise n, decimal type.toNat, E.datetime time.toInt⟩, .returned 0) :=
    add_eq rfl hzm hqm hadd
  have hread : ∀ t, EfDb.qryExact E.toSqlite (EfDb.normalise n) t = some (t, some (t.select (E.nameEq _))) :=
    fun t => qryExact_select hzm hqm hqry
  have hprint := printRes_stored (E := E) hzm ⟨EfDb.normalise n, decimal type.toNat, E.datetime time.toInt⟩ rfl
  rw [← E.datetime_isSome, ← nameEq_stored (E := E) _ type time, ← hprint]
  constructor
  · rintro ⟨t, rows, ht, hrows, hlines⟩
    rw [hstored] at ht
    obtain ⟨rfl, -⟩ := Prod.mk.inj (Option.some_inj.mp ht)
    rw [hread] at hrows
    rwa [← Option.some_inj.mp (Prod.mk.inj (Option.some_inj.mp hrows)).2] at hlines
  · intro hlines
    exact ⟨_, _, hstored, hread _, hlines⟩

/-- The years from 0 to 9999, with one text for all of their seconds. -/
def yearsText (t : Int) : Option (List Byte) :=
  if -62167219200 ≤ t ∧ t ≤ 253402300799 then some (bytes "1970-01-01 00:00:00") else none

theorem yearsText_isSome (t : Int) : (yearsText t).isSome = true ↔ -62167219200 ≤ t ∧ t ≤ 253402300799 := by
  unfold yearsText
  split <;> simp [*]

theorem columnOf_yearsText {t : Int} {v : List Byte} (h : yearsText t = some v) : columnOf v = none := by
  unfold yearsText at h
  split at h
  · cases h
    decide
  · cases h

def yearsEngine : DatedSqlite where
  toSqlite := { plainEngine with datetime := yearsText }
  first := -62167219200
  last := 253402300799
  datetime_isSome := yearsText_isSome
  datetime_column _ _ := columnOf_yearsText

theorem prints_iff_epoch : (EfDb.addText ⟨EfDb.normalise (bytes "/a"), .EREG, (0 : Int64).toInt⟩).length < 4096 ∧
    Prints yearsEngine.toSqlite ⟨bytes "/a", .EREG, (0 : Int64).toInt⟩ := by
  have hadd : (EfDb.addText ⟨EfDb.normalise (bytes "/a"), .EREG, (0 : Int64).toInt⟩).length < 4096 := by decide
  refine ⟨hadd, (prints_iff (E := yearsEngine) ?_ ?_ hadd ?_).mpr ?_⟩ <;> decide

def rowA : Table := ⟨[⟨bytes "/a", bytes "1", none⟩], by decide⟩

/-- A file of the year 10000 is stored with `NULL`, and its row cannot be printed. -/
theorem null_not_printed :
    EfDb.add yearsEngine.toSqlite ⟨bytes "/a", .EREG, (253402300800 : Int64).toInt⟩ Table.empty =
        some (rowA, .returned 0) ∧
      EfDb.qryExact yearsEngine.toSqlite (bytes "/a") rowA = some (rowA, some rowA.rows) ∧
      printRes rowA.rows = none ∧
      ¬Prints yearsEngine.toSqlite ⟨bytes "/a", .EREG, (253402300800 : Int64).toInt⟩ := by
  have hadd : EfDb.add yearsEngine.toSqlite ⟨bytes "/a", .EREG, (253402300800 : Int64).toInt⟩ Table.empty =
      some (rowA, .returned 0) := by decide
  have hread : EfDb.qryExact yearsEngine.toSqlite (bytes "/a") rowA = some (rowA, some rowA.rows) := by decide
  have hnone : printRes rowA.rows = none := by decide
  refine ⟨hadd, hread, hnone, ?_⟩
  rintro ⟨t, rows, ht, hrows, hlines⟩
  rw [hadd] at ht
  obtain ⟨rfl, -⟩ := Prod.mk.inj (Option.some_inj.mp ht)
  have hsame : EfDb.normalise (bytes "/a") = bytes "/a" := by decide
  rw [hsame, hread] at hrows
  rw [← Option.some_inj.mp (Prod.mk.inj (Option.some_inj.mp hrows)).2, hnone] at hlines
  cases hlines

end Everyfile.Db
