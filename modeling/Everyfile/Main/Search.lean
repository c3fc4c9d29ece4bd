import Everyfile.Init.Agree
import Everyfile.Init.OverQueue
import Everyfile.Init.StoredName
import Everyfile.Main.Command

/-!
# From `--init` to a search

`everyfile --init` on an empty table, and a search of the table it leaves. Where no record is lost in the queue and
every one can be stored, the table has one row for each regular file that the scan can reach, in its order and under the
stored name (`names_initRun`); an exact search finds a name that is stored, and every fuzzy search prints the names with
an `s` or `S` (`init_search`). As no stored name is the path of its file, a search for a path finds a file only where
the path is the stored name of another.
-/

namespace Everyfile.Main

open FileTree (Tree)
open Db (Sqlite Table Row)
open Init (Name StatNode Faults DirNames records scan reported record storedName initRun)

/-- What the searches rely on. -/
structure SearchSqlite extends Db.DatedSqlite, Db.LikeSqlite

/-- A record whose statement fits its buffer, with a time that can be printed. -/
structure Storable (E : Db.DatedSqlite) (info : FileInfo) : Prop where
  nulFree : NulFree info.file_name
  quoteFree : 34 ∉ info.file_name
  fits : (Db.EfDb.addText { info with file_name := Db.EfDb.normalise info.file_name }).length < 4096
  dated : E.first ≤ info.file_time ∧ info.file_time ≤ E.last

/-- The row of a record. -/
def rowOf (E : Sqlite) (info : FileInfo) : Row :=
  ⟨Db.EfDb.normalise info.file_name, decimal info.file_type.toNat, E.datetime info.file_time⟩

variable {E : SearchSqlite} {t : Table} {infos : List FileInfo}

/-- The calls of `in_db` add the rows of the records. -/
theorem initRun_eq (h : ∀ info ∈ infos, Storable E.toDatedSqlite info) :
    initRun E.toSqlite t infos = some ((infos.map (rowOf E.toSqlite)).foldl Table.add t) := by
  induction infos generalizing t with
  | nil => rfl
  | cons info infos ih =>
    obtain ⟨hinfo, hinfos⟩ := List.forall_mem_cons.mp h
    have hnul := Db.nulFree_normalise hinfo.nulFree
    have hadd : Db.EfDb.add E.toSqlite info t = some (t.add (rowOf E.toSqlite info), .returned 0) :=
      Db.add_eq rfl hnul (Db.quoteFree_normalise hinfo.quoteFree) hinfo.fits
    have hrun : (Daemon.DbCall.add info).run E.toSqlite t = some (t.add (rowOf E.toSqlite info)) := by
      simp [Daemon.DbCall.run, hadd]
    rw [initRun, hrun, Option.bind_some, ih hinfos]
    rfl

theorem rows_initRun (h : ∀ info ∈ infos, Storable E.toDatedSqlite info)
    (hnodup : (infos.map fun info => Db.EfDb.normalise info.file_name).Nodup) :
    ∃ t, initRun E.toSqlite Table.empty infos = some t ∧ t.rows = infos.map (rowOf E.toSqlite) := by
  refine ⟨_, initRun_eq h, ?_⟩
  have hnames : (infos.map (rowOf E.toSqlite)).map Row.file_name =
      infos.map fun info => Db.EfDb.normalise info.file_name := by
    rw [List.map_map]
    rfl
  rw [Table.rows_foldl_add (by simpa [Table.empty, ← hnames] using hnodup)]
  rfl

/-! ## Searches of a table whose rows can be printed -/

/-- The rows have times, and their names are C strings. -/
def Printable (t : Table) : Prop := ∀ r ∈ t.rows, NulFree r.file_name ∧ r.file_time.isSome = true

theorem printRes_select (h : Printable t) (p : Row → Bool) :
    Db.printRes (t.select p) = some ((t.select p).map Row.file_name) :=
  Db.printRes_eq fun r hr => h r (List.mem_of_mem_filter hr)

theorem printed_exact {q : List Byte} (ht : Printable t) (hz : NulFree q) (hq : 34 ∉ q) (hc : Db.columnOf q = none)
    (hfit : (Db.EfDb.qryExactText q).length < 4096) :
    printed E.toSqlite t (.exact q) = some (q :: if q ∈ t.names then [q] else []) := by
  have hrows := printRes_select ht fun r => r.file_name = q
  rw [printed, Db.qryExact_eq hz hq hc hfit, Option.bind_some, Option.bind_some, hrows, Option.map_some,
    Table.select_name]
  cases hlookup : t.lookup q with
  | none =>
    have hnot : q ∉ t.names := Table.lookup_eq_none.mp hlookup
    simp [hnot]
  | some r =>
    have hmem : q ∈ t.names := Table.lookup_isSome.mp (by rw [hlookup]; rfl)
    simp [hmem, Table.lookup_name hlookup]

/-- A fuzzy search does not depend on what is searched for. -/
theorem printed_fuzzy (ht : Printable t) (q : List Byte) :
    printed E.toSqlite t (.fuzzy q) = some (t.names.filter fun n => 115 ∈ n ∨ 83 ∈ n) := by
  have hlike : ∀ n : List Byte, Db.like (bytes "%s%") n = decide (115 ∈ n ∨ 83 ∈ n) := fun n => by
    rw [Bool.eq_iff_iff, decide_eq_true_iff]
    exact Db.like_within_s (q := [115]) (.inl rfl)
  have hrows := printRes_select ht fun r => Db.like (bytes "%s%") r.file_name
  rw [printed, Db.qryNoExact_eq E.toLikeSqlite, Option.bind_some, Option.bind_some, hrows]
  simp only [hlike, Table.select, Table.names, List.filter_map]
  rfl

/-! ## The scan, the queue and the table -/

section Scan

/-- The records of a scan from the root. -/
def scanned (F : Faults) (es : List (Name × StatNode)) : List FileInfo := records (scan F (bytes "/") (.dir es)).1

variable {F : Faults} {es : List (Name × StatNode)} {s : Init.OverQueue.State}

/-- **From `--init` to a search.** -/
theorem init_search (hnames : Tree.Names DirNames (.dir es : StatNode))
    (hz : Tree.Names (∀ x ∈ ·, NulFree x) (.dir es : StatNode))
    (hst : ∀ info ∈ scanned F es, Storable E.toDatedSqlite info)
    (h : (Init.OverQueue.system (scanned F es)).Reach (Init.OverQueue.Timely (scanned F es)) s)
    (hleft : s.db = .left) :
    ∃ t, initRun E.toSqlite Table.empty s.added = some t ∧
      t.names = (reported F (bytes "/") (.dir es)).map (fun r => storedName (record (bytes "/") r).file_name) ∧
      (∀ prog q, NulFree q → 34 ∉ q → Db.columnOf q = none → (Db.EfDb.qryExactText q).length < 4096 →
        printed E.toSqlite t (command [prog, bytes "-e", q]) = some (q :: if q ∈ t.names then [q] else [])) ∧
      ∀ prog q, printed E.toSqlite t (command [prog, bytes "-f", q]) =
        some (t.names.filter fun n => 115 ∈ n ∨ 83 ∈ n) := by
  -- a record's name is stored without a cut
  have hcut : ∀ info ∈ scanned F es,
      Db.EfDb.normalise info.file_name = storedName info.file_name := fun info hinfo =>
    (cstr_of_nulFree (Db.nulFree_normalise (hst info hinfo).nulFree)).symm
  have hstored : (scanned F es).map (fun info => Db.EfDb.normalise info.file_name) =
      (reported F (bytes "/") (.dir es)).map fun r => storedName (record (bytes "/") r).file_name := by
    rw [List.map_congr_left hcut, scanned, Init.records_scan, List.map_map]
    rfl
  obtain ⟨t, ht, hrows⟩ := rows_initRun hst (by rw [hstored]; exact Init.nodup_stored hnames hz)
  have hprint : Printable t := by
    intro r hr
    rw [hrows] at hr
    obtain ⟨info, hinfo, rfl⟩ := List.mem_map.mp hr
    exact ⟨Db.nulFree_normalise (hst info hinfo).nulFree, (E.datetime_isSome _).mpr (hst info hinfo).dated⟩
  refine ⟨t, ?_, ?_, fun prog q hzq hq hc hfit => ?_, fun prog q => ?_⟩
  · rw [(Init.OverQueue.added_eq h hleft).2, ht]
  · rw [Table.names, hrows, List.map_map, ← hstored]
    rfl
  · rw [command_exact]
    exact printed_exact hprint hzq hq hc hfit
  · rw [command_fuzzy]
    exact printed_fuzzy hprint q

end Scan

/-- The years from 0 to 9999, and `LIKE`. -/
def searchEngine : SearchSqlite where
  toSqlite := { Db.likeEngine.toSqlite with datetime := Db.yearsText }
  first := Db.yearsEngine.first
  last := Db.yearsEngine.last
  datetime_isSome := Db.yearsText_isSome
  datetime_column _ _ := Db.columnOf_yearsText
  other_like := Db.likeEngine.other_like

/-- Of a tree with the file `/a` a search for `/a` finds nothing, one for `/aa` finds what is stored. -/
theorem init_search_oneFile : ∃ (s : Init.OverQueue.State) (t : Table), s.db = .left ∧
    initRun searchEngine.toSqlite Table.empty s.added = some t ∧ t.names = [bytes "/aa"] ∧
    printed searchEngine.toSqlite t (command [bytes "everyfile", bytes "-e", bytes "/a"]) = some [bytes "/a"] ∧
    printed searchEngine.toSqlite t (command [bytes "everyfile", bytes "-e", bytes "/aa"]) =
      some [bytes "/aa", bytes "/aa"] := by
  have hscan : scanned ⟨fun _ => false, fun _ => false⟩ Init.oneFile = [⟨bytes "//a", .EREG, 9⟩] := by
    simp only [scanned, scan, Init.scanEntries, Init.oneFile]
    decide
  have hreported : (reported ⟨fun _ => false, fun _ => false⟩ (bytes "/") (.dir Init.oneFile)).map
      (fun r => storedName (record (bytes "/") r).file_name) = [bytes "/aa"] := by
    simp only [reported, Init.oneFile, Tree.leaves, Tree.leavesOf]
    decide
  obtain ⟨s, hs, hp⟩ := Transition.System.reach_of_runIf (Init.OverQueue.system [⟨bytes "//a", .EREG, 9⟩])
    (Init.OverQueue.start ⟨[], .ERR, 0⟩) (Init.OverQueue.Timely [⟨bytes "//a", .EREG, 9⟩])
    (fun s a => decide (Init.OverQueue.Timely [⟨bytes "//a", .EREG, 9⟩] s a)) (fun _ _ => of_decide_eq_true) ⟨_, rfl⟩
    (Init.OverQueue.scans 13 ++ Init.OverQueue.dbs 18) (fun s => decide (s.db = .left)) (by decide +kernel)
  rw [← hscan] at hs
  have hleft := of_decide_eq_true hp
  have hnames : Tree.Names DirNames (.dir Init.oneFile : StatNode) :=
    .dir (by decide) (by simpa [Init.oneFile] using .leaf _)
  have hz : Tree.Names (∀ x ∈ ·, NulFree x) (.dir Init.oneFile : StatNode) :=
    .dir (by decide) (by simpa [Init.oneFile] using .leaf _)
  have hst : ∀ info ∈ scanned ⟨fun _ => false, fun _ => false⟩ Init.oneFile,
      Storable searchEngine.toDatedSqlite info := by
    rw [hscan]
    simp only [List.forall_mem_singleton]
    exact ⟨by decide, by decide, by decide, by decide⟩
  obtain ⟨t, ht, hrows, hexact, -⟩ := init_search hnames hz hst hs hleft
  rw [hreported] at hrows
  refine ⟨s, t, hleft, ht, hrows, ?_, ?_⟩
  · rw [hexact _ _ (by decide) (by decide) (by decide) (by decide), hrows]
    decide
  · rw [hexact _ _ (by decide) (by decide) (by decide) (by decide), hrows]
    decide

end Everyfile.Main
