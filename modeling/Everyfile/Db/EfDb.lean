import Everyfile.Db.Sqlite
import Everyfile.Daemon.Dispatch

/-!
# `ef_db`

The operations of `ef_db` format a statement into the 4096 bytes of `qry`, cut it at the first NUL and hand it to
SQLite: `qry_exact` and `add` to `sqlite3_prepare`, `rm` to `sqlite3_exec`. A text that does not fit is written past the
buffer, and nothing is said about what happens then (`none`).
-/

namespace Everyfile.Db

/-- What a call of an `ef_db` operation comes to. -/
inductive Outcome
  | returned (ret : Int)
  | threw
  deriving DecidableEq, Repr

/-- `sprintf` into `qry` and the scan for the NUL. The NUL of a text of 4096 bytes is the one that ends the string. -/
def sprintf (text : List Byte) : Option (List Byte) := if text.length ≤ 4096 then some (cstr text) else none

namespace EfDb

def qryExactText (n : List Byte) : List Byte :=
  bytes "SELECT file_name, file_type, file_time FROM files WHERE file_name = \"" ++ cstr n ++ bytes "\""

def rmText (n : List Byte) : List Byte :=
  bytes "DELETE FROM files WHERE file_name = \"" ++ cstr n ++ bytes "\""

def addText (info : FileInfo) : List Byte :=
  bytes "INSERT INTO files values(\"" ++ cstr info.file_name ++ bytes "\",\"" ++ decimal info.file_type.toNat ++
    bytes "\",datetime(" ++ decimalInt info.file_time ++ bytes ",\"unixepoch\"))"

/-- `for(int i=1;i<info.file_name.size();i++) info.file_name[i-1]=info.file_name[i];` -/
def shiftLeft (n : List Byte) : List Byte :=
  (List.range' 1 (n.length - 1)).foldl (fun s i => s.set (i - 1) (s.getD i 0)) n

/-- The rewriting of a name that begins with two slashes; it shifts the name and keeps its size. -/
def normalise (n : List Byte) : List Byte := if n[0]? = some 47 ∧ n[1]? = some 47 then shiftLeft n else n

/-- The loop up to `i = k`. -/
theorem shiftLeft_loop {n : List Byte} {k : Nat} (h : k < n.length) :
    (List.range' 1 k).foldl (fun s i => s.set (i - 1) (s.getD i 0)) n = n.tail.take k ++ n.drop k := by
  induction k with
  | zero => simp
  | succ k ih =>
    have hlen : (n.tail.take k).length = k := by simp; omega
    have hdrop : n.drop k = n[k] :: n.drop (k + 1) := List.drop_eq_getElem_cons (by omega)
    have htake : n.tail.take (k + 1) = n.tail.take k ++ [n[k + 1]] := by
      rw [List.take_add_one, List.getElem?_eq_getElem (by simp; omega)]
      simp
    have hget : (n.tail.take k ++ n.drop k).getD (1 + k) 0 = n[k + 1] := by
      rw [List.getD_eq_getElem?_getD, List.getElem?_append_right (by omega), hlen, List.getElem?_drop,
        List.getElem?_eq_getElem (by omega)]
      simp only [Option.getD_some]
      congr 1
      omega
    rw [List.range'_concat, List.foldl_append, ih (by omega), Nat.one_mul, List.foldl_cons, List.foldl_nil, hget,
      Nat.add_sub_cancel_left, List.set_append_right _ _ (by omega), hlen, Nat.sub_self, hdrop, List.set_cons_zero,
      htake]
    simp

/-- **The rewriting of two slashes**: the second one is dropped, and the last byte stands twice. -/
theorem normalise_slash {n : List Byte} (h : n[0]? = some 47) : normalise (47 :: n) = n ++ n.drop (n.length - 1) := by
  obtain ⟨b, n, rfl⟩ := List.exists_cons_of_ne_nil (l := n) (by rintro rfl; cases h)
  rw [normalise, if_pos ⟨rfl, h⟩, shiftLeft, shiftLeft_loop (by simp)]
  simp

variable (E : Sqlite)

/-- `ef_db::qry_exact` and the stepping through its result: the rows, or `none` where the constructor throws. -/
def qryExact (n : List Byte) (t : Table) : Option (Table × Option (List Row)) :=
  (sprintf (qryExactText n)).map fun sql =>
    match E.prepare sql with
    | none => (t, none)
    | some f =>
      match f t with
      | some (t', rows) => (t', some rows)
      | none => (t, none)

/-- `ef_db::add`. A statement that does not compile throws, and the transaction is rolled back; the result of
`cmd.execute()` is dropped. -/
def add (info : FileInfo) (t : Table) : Option (Table × Outcome) :=
  (sprintf (addText { info with file_name := normalise info.file_name })).map fun sql =>
    match E.prepare sql with
    | none => (t, .threw)
    | some f =>
      match f t with
      | some (t', _) => (t', .returned 0)
      | none => (t, .returned 0)

/-- `ef_db::rm`. -/
def rm (n : List Byte) (t : Table) : Option (Table × Outcome) :=
  (sprintf (rmText n)).map fun sql => ((E.exec sql t).1, .returned 0)

end EfDb

end Everyfile.Db
