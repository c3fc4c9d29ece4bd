import Everyfile.Db.Literals

/-!
# `ef_db` against a map of names

The purpose of the database layer is a map from names to rows: `Table.add`, `Table.erase` and the selection of one name
(`lookup_add`, `lookup_erase`). `MapLike n` says that the three operations do that for the name `n`, on every table and
whatever SQLite makes of statements that are not theirs. They do so exactly for the names without a double quote that
are not the name of a column (`mapLike_iff`): a quote ends the literal, and a column's name in quotes is the column.
-/

namespace Everyfile.Db

/-- The three operations are those of a map at the name `n`, each of them wherever its text fits, and each text is one
statement. -/
structure MapLike (n : List Byte) : Prop where
  add : ∀ (E : Sqlite) (t : Table) (type : FileType) (time : Int), (EfDb.addText ⟨n, type, time⟩).length < 4096 →
    EfDb.add E ⟨n, type, time⟩ t = some (t.add ⟨n, decimal type.toNat, E.datetime time⟩, .returned 0)
  rm : ∀ (E : Sqlite) (t : Table), (EfDb.rmText n).length < 4096 →
    EfDb.rm E n t = some (t.erase n, .returned 0)
  qry_exact : ∀ (E : Sqlite) (t : Table), (EfDb.qryExactText n).length < 4096 →
    EfDb.qryExact E n t = some (t, some (t.select (·.file_name = n)))
  one_statement : ∀ type time,
    (splitStatements (lex (EfDb.addText ⟨n, type, time⟩))).length = 1 ∧
    (splitStatements (lex (EfDb.rmText n))).length = 1 ∧ (splitStatements (lex (EfDb.qryExactText n))).length = 1

/-! ## Names that are read back -/

section plain

variable {E : Sqlite} {t : Table} {n : List Byte}

theorem nameEq_of_columnOf (hc : columnOf n = none) : E.nameEq n = (fun r => decide (r.file_name = n)) := by
  funext r
  simp [Sqlite.nameEq, hc]

/-- **`rm` removes the row of the name.** -/
theorem rm_eq (hz : NulFree n) (hq : 34 ∉ n) (hc : columnOf n = none) (hfit : (EfDb.rmText n).length < 4096) :
    EfDb.rm E n t = some (t.erase n, .returned 0) := by
  rw [EfDb.rm, sprintf_rmText hfit.le]
  simp only [Option.map_some, Sqlite.exec, statements_rmText hz hq, Sqlite.runAll, Sqlite.run, Sqlite.compile,
    parse_delete, nameEq_of_columnOf hc]
  rfl

/-- `qry_exact` returns the rows that SQLite compares with the name. -/
theorem qryExact_select (hz : NulFree n) (hq : 34 ∉ n) (hfit : (EfDb.qryExactText n).length < 4096) :
    EfDb.qryExact E n t = some (t, some (t.select (E.nameEq n))) := by
  rw [EfDb.qryExact, sprintf_qryExactText hfit.le]
  simp only [Option.map_some, Sqlite.prepare, statements_qryExactText hz hq, List.headD_cons, Sqlite.compile,
    parse_select]

/-- **`qry_exact` returns the rows of the name.** -/
theorem qryExact_eq (hz : NulFree n) (hq : 34 ∉ n) (hc : columnOf n = none)
    (hfit : (EfDb.qryExactText n).length < 4096) :
    EfDb.qryExact E n t = some (t, some (t.select (·.file_name = n))) := by
  rw [qryExact_select hz hq hfit, nameEq_of_columnOf hc]

/-- **`add` adds the row of the name it has after the rewriting of slashes.** In `VALUES` a name in quotes is never a
column. -/
theorem add_eq {type : FileType} {time : Int} {m : List Byte} (hm : EfDb.normalise n = m) (hz : NulFree m)
    (hq : 34 ∉ m) (hfit : (EfDb.addText ⟨m, type, time⟩).length < 4096) :
    EfDb.add E ⟨n, type, time⟩ t = some (t.add ⟨m, decimal type.toNat, E.datetime time⟩, .returned 0) := by
  have hst := statements_addText ⟨m, type, time⟩ hz hq
  simp only [EfDb.add, hm, sprintf_addText hfit.le, Option.map_some, Sqlite.prepare, hst, List.headD_cons,
    Sqlite.compile, parse_insert, Table.add]
  cases t.insert ⟨m, decimal type.toNat, E.datetime time⟩ <;> rfl

theorem normalise_eq_self (h : ¬(n[0]? = some 47 ∧ n[1]? = some 47)) : EfDb.normalise n = n := by
  rw [EfDb.normalise, if_neg h]

theorem slashes_iff : (n[0]? = some 47 ∧ n[1]? = some 47) ↔ bytes "//" <+: n := by
  have hcons : bytes "//" = [47, 47] := rfl
  rw [hcons]
  match n with
  | [] => simp
  | [a] => simp [eq_comm]
  | a :: b :: n => simp [List.cons_prefix_cons, eq_comm]

/-- What the rewriting makes of a name. -/
theorem normalise_cases (n : List Byte) :
    (∃ m, n = bytes "//" ++ m ∧ EfDb.normalise n = 47 :: m ++ (47 :: m).drop m.length) ∨
      ¬bytes "//" <+: n ∧ EfDb.normalise n = n := by
  by_cases h : bytes "//" <+: n
  · obtain ⟨m, rfl⟩ := h
    exact .inl ⟨m, rfl, EfDb.normalise_slash rfl⟩
  · exact .inr ⟨h, normalise_eq_self fun hs => h (slashes_iff.mp hs)⟩

theorem mem_normalise {b : Byte} (hb : b ∈ EfDb.normalise n) : b ∈ n := by
  rcases normalise_cases n with ⟨m, rfl, h⟩ | ⟨-, h⟩
  · rw [h] at hb
    have hm : b ∈ 47 :: m := (List.mem_append.mp hb).elim id List.mem_of_mem_drop
    exact List.mem_cons_of_mem _ hm
  · rwa [h] at hb

/-- The rewriting keeps the size. -/
theorem length_normalise (n : List Byte) : (EfDb.normalise n).length = n.length := by
  rcases normalise_cases n with ⟨m, rfl, h⟩ | ⟨-, h⟩
  · rw [h]
    simp [bytes]
  · rw [h]

theorem nulFree_normalise (h : NulFree n) : NulFree (EfDb.normalise n) := fun b hb => h b (mem_normalise hb)

theorem quoteFree_normalise (h : 34 ∉ n) : 34 ∉ EfDb.normalise n := fun hb => h (mem_normalise hb)

theorem mapLike_of_plain (hz : NulFree n) (hs : ¬(n[0]? = some 47 ∧ n[1]? = some 47)) (hq : 34 ∉ n)
    (hc : columnOf n = none) : MapLike n where
  add _ _ _ _ hfit := add_eq (normalise_eq_self hs) hz hq hfit
  rm _ _ hfit := rm_eq hz hq hc hfit
  qry_exact _ _ hfit := qryExact_eq hz hq hc hfit
  one_statement _ _ := by
    rw [statements_addText _ hz hq, statements_rmText hz hq, statements_qryExactText hz hq]
    exact ⟨rfl, rfl, rfl⟩

end plain

/-! ## The law -/

variable {n : List Byte}

theorem not_mapLike_of_harmless (hlex : ∀ t ∈ lex (EfDb.rmText n), ∀ m, n.length < m.length → Harmless n m t)
    (hfit : (EfDb.rmText n).length < 4096) : ¬ MapLike n := by
  intro h
  have hne : n ≠ n ++ [97] := fun heq => by simpa using congrArg List.length heq
  have hty : n ≠ n ++ [97] := hne
  exact rm_ne_erase hty hne (fun t ht => hlex t ht _ (by simp)) hfit (h.rm _ _ hfit)

/-- **When `ef_db` is a map**: for the names without a double quote that are not a column's name, and for no others. -/
theorem mapLike_iff (hz : NulFree n) (hs : ¬(n[0]? = some 47 ∧ n[1]? = some 47))
    (hfit : (EfDb.rmText n).length < 4096) : MapLike n ↔ 34 ∉ n ∧ columnOf n = none := by
  constructor
  · intro h
    by_contra hcon
    refine not_mapLike_of_harmless (fun t ht m hm v hv => ?_) hfit h
    subst hv
    by_cases hq : 34 ∈ n
    · have hlt : v.length < n.length := weight_rmText hz hq _ ht
      refine ⟨fun hvm => ?_, fun hvn => ?_⟩
      · subst hvm; omega
      · subst hvn; omega
    · have hc : columnOf n ≠ none := fun hc => hcon ⟨hq, hc⟩
      rw [lex_rmText hz hq] at ht
      have hv : v = n := by simpa [deleteHead, whereName, kw] using ht
      subst hv
      refine ⟨fun hvm => ?_, fun _ => hc⟩
      subst hvm; omega
  · rintro ⟨hq, hc⟩
    exact mapLike_of_plain hz hs hq hc

/-- An ordinary path is a key. -/
theorem mapLike_path : MapLike (bytes "/home/a") ↔ 34 ∉ bytes "/home/a" ∧ columnOf (bytes "/home/a") = none :=
  mapLike_iff (by decide) (by decide) (by decide)

def rowY : Table := ⟨[⟨bytes "/y", bytes "1", none⟩], by decide⟩

/-- A name that closes its literal: `rm` runs a second statement, which removes the row of another name. -/
theorem rm_removes_other_row :
    let n := bytes "/x\"; DELETE FROM files WHERE file_name = \"/y"
    NulFree n ∧ ¬(n[0]? = some 47 ∧ n[1]? = some 47) ∧ (EfDb.rmText n).length < 4096 ∧
      EfDb.rm plainEngine n rowY = some (Table.empty, .returned 0) ∧ rowY.erase n = rowY ∧ ¬ MapLike n := by
  refine ⟨by decide, by decide, by decide, by decide, by decide, fun h => ?_⟩
  exact absurd (h.rm plainEngine rowY (by decide)) (by decide)

end Everyfile.Db
