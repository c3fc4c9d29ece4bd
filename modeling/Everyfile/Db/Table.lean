import Everyfile.Bytes
import Mathlib.Data.List.Nodup
import Mathlib.Data.Set.Basic

/-!
# The table `files`

The table created by `ef_db::ef_db`, with `file_name` as primary key: a list of rows with distinct names. As a map from
names it is read by `lookup`; `add` is an insertion that leaves the table alone where the name is taken, `erase` removes
the row of one name.
-/

namespace Everyfile.Db

structure Row where
  file_name : List Byte
  file_type : List Byte
  file_time : Option (List Byte)
  deriving DecidableEq, Repr

/-- Rows with distinct primary keys. -/
structure Table where
  rows : List Row
  nodup : (rows.map Row.file_name).Nodup

namespace Table

@[ext] theorem ext {t u : Table} (h : t.rows = u.rows) : t = u := by
  cases t; cases u; cases h; rfl

instance : DecidableEq Table := fun t u => decidable_of_iff (t.rows = u.rows) ⟨ext, congrArg rows⟩

def empty : Table := ⟨[], List.nodup_nil⟩

/-- The rows that satisfy a condition: a `SELECT`. -/
def select (t : Table) (p : Row → Bool) : List Row := t.rows.filter p

/-- Remove the rows that satisfy a condition: a `DELETE`. -/
def delete (t : Table) (p : Row → Bool) : Table where
  rows := t.rows.filter (!p ·)
  nodup := t.nodup.sublist (List.filter_sublist.map _)

/-- Append a row, unless its name is taken: an `INSERT` and its primary-key conflict. -/
def insert (t : Table) (r : Row) : Option Table :=
  if h : r.file_name ∈ t.rows.map Row.file_name then none
  else some ⟨t.rows ++ [r], by
    rw [List.map_append, List.nodup_append]
    exact ⟨t.nodup, by simp, fun a ha b hb hab => h (by simp_all)⟩⟩

/-- The row of a name. -/
def lookup (t : Table) (n : List Byte) : Option Row := t.rows.find? (·.file_name = n)

/-- The table with the row of one name added, where the name is new. -/
def add (t : Table) (r : Row) : Table := (t.insert r).getD t

/-- The table without the row of one name. -/
def erase (t : Table) (n : List Byte) : Table := t.delete (·.file_name = n)

theorem rows_add_of_mem {t : Table} {r : Row} (h : r.file_name ∈ t.rows.map Row.file_name) : t.add r = t := by
  simp [add, insert, h]

theorem rows_add_of_notMem {t : Table} {r : Row} (h : r.file_name ∉ t.rows.map Row.file_name) :
    (t.add r).rows = t.rows ++ [r] := by
  simp [add, insert, h]

theorem lookup_eq_none {t : Table} {n : List Byte} : t.lookup n = none ↔ n ∉ t.rows.map Row.file_name := by
  simp [lookup]

theorem lookup_isSome {t : Table} {n : List Byte} : (t.lookup n).isSome ↔ n ∈ t.rows.map Row.file_name := by
  rw [← not_iff_not, Option.not_isSome_iff_eq_none, lookup_eq_none]

/-- **`add` on the map**: the name's row is added if there is none, other names are untouched. -/
theorem lookup_add (t : Table) (r : Row) (n : List Byte) :
    (t.add r).lookup n = if n = r.file_name then some ((t.lookup n).getD r) else t.lookup n := by
  by_cases h : r.file_name ∈ t.rows.map Row.file_name
  · rw [rows_add_of_mem h]
    split
    · rename_i hn
      subst hn
      obtain ⟨r', hr'⟩ := Option.isSome_iff_exists.mp (lookup_isSome.mpr h)
      simp [hr']
    · rfl
  · have hnone := lookup_eq_none.mpr h
    unfold lookup at hnone ⊢
    rw [rows_add_of_notMem h, List.find?_append]
    split
    · rename_i hn
      subst hn
      simp [hnone]
    · rename_i hn
      simp [eq_comm, hn]

/-- **`erase` on the map**: the name's row is gone, other names are untouched. -/
theorem lookup_erase (t : Table) (n n' : List Byte) :
    (t.erase n).lookup n' = if n' = n then none else t.lookup n' := by
  unfold lookup erase delete
  rw [List.find?_filter]
  split
  · rename_i h
    subst h
    simp [List.find?_eq_none]
  · rename_i h
    congr 1
    funext r
    by_cases hr : r.file_name = n'
    · simp [hr, h]
    · simp [hr]

theorem lookup_name {t : Table} {n : List Byte} {r : Row} (h : t.lookup n = some r) : r.file_name = n := by
  unfold lookup at h
  simpa using List.find?_some h

/-- The rows of a name: the one it has, if any. -/
theorem select_name (t : Table) (n : List Byte) : t.select (·.file_name = n) = (t.lookup n).toList := by
  have hrows : ∀ rows : List Row, (rows.map Row.file_name).Nodup →
      rows.filter (·.file_name = n) = (rows.find? (·.file_name = n)).toList := by
    intro rows hnodup
    induction rows with
    | nil => rfl
    | cons r rows ih =>
      obtain ⟨hr, hrest⟩ := List.nodup_cons.mp hnodup
      by_cases hn : r.file_name = n
      · have hnone : rows.filter (·.file_name = n) = [] := by
          refine List.filter_eq_nil_iff.mpr fun r' hr' hname => hr ?_
          rw [hn, ← of_decide_eq_true hname]
          exact List.mem_map_of_mem hr'
        simp [hn, hnone]
      · simp [hn, ih hrest]
  exact hrows t.rows t.nodup

theorem lookup_of_mem {t : Table} {r : Row} (h : r ∈ t.rows) : t.lookup r.file_name = some r := by
  have hmem : r ∈ t.select (·.file_name = r.file_name) := List.mem_filter.mpr ⟨h, by simp⟩
  rwa [select_name, Option.mem_toList] at hmem

/-- Rows with new names, one after the other. -/
theorem rows_foldl_add {t : Table} {rs : List Row} (h : ((t.rows ++ rs).map Row.file_name).Nodup) :
    (rs.foldl add t).rows = t.rows ++ rs := by
  induction rs generalizing t with
  | nil => simp
  | cons r rs ih =>
    have hnew : r.file_name ∉ t.rows.map Row.file_name := by
      rw [List.map_append, List.nodup_append] at h
      intro hmem
      exact h.2.2 _ hmem r.file_name (by simp) rfl
    have hrows := rows_add_of_notMem hnew
    rw [List.foldl_cons, ih (by rwa [hrows, List.append_assoc, List.singleton_append]), hrows, List.append_assoc,
      List.singleton_append]

/-! ## Names and types -/

/-- The names of the rows. -/
def names (t : Table) : List (List Byte) := t.rows.map Row.file_name

@[simp] theorem names_empty : empty.names = [] := rfl

@[simp] theorem mem_names_add {t : Table} {r : Row} {n : List Byte} :
    n ∈ (t.add r).names ↔ n ∈ t.names ∨ n = r.file_name := by
  rw [names, ← lookup_isSome, lookup_add, names, ← lookup_isSome]
  split <;> simp [*]

@[simp] theorem mem_names_erase {t : Table} {m n : List Byte} : n ∈ (t.erase m).names ↔ n ∈ t.names ∧ n ≠ m := by
  rw [names, ← lookup_isSome, lookup_erase, names, ← lookup_isSome]
  split <;> simp [*]

/-- The pairs (file_name, file_type) of the rows. -/
def entries (t : Table) : Set (List Byte × List Byte) := {k | ∃ r ∈ t.rows, (r.file_name, r.file_type) = k}

@[simp] theorem entries_empty : empty.entries = ∅ := by
  ext k
  simp [entries, empty]

theorem mem_entries_add {t : Table} {r : Row} (h : r.file_name ∉ t.rows.map Row.file_name)
    {k : List Byte × List Byte} : k ∈ (t.add r).entries ↔ k ∈ t.entries ∨ k = (r.file_name, r.file_type) := by
  simp only [entries, rows_add_of_notMem h, List.mem_append, List.mem_singleton, Set.mem_ofPred_eq]
  constructor
  · rintro ⟨r', hr' | rfl, rfl⟩
    · exact .inl ⟨r', hr', rfl⟩
    · exact .inr rfl
  · rintro (⟨r', hr', rfl⟩ | rfl)
    · exact ⟨r', .inl hr', rfl⟩
    · exact ⟨r, .inr rfl, rfl⟩

/-- Where all rows have the type of the new one, its entry is there afterwards in any case. -/
theorem mem_entries_add_of_type {t : Table} {r : Row} (h : ∀ k ∈ t.entries, k.2 = r.file_type)
    {k : List Byte × List Byte} : k ∈ (t.add r).entries ↔ k ∈ t.entries ∨ k = (r.file_name, r.file_type) := by
  by_cases hmem : r.file_name ∈ t.rows.map Row.file_name
  · rw [rows_add_of_mem hmem]
    refine ⟨.inl, fun hk => hk.elim id ?_⟩
    rintro rfl
    obtain ⟨r', hr', hname⟩ := List.mem_map.mp hmem
    have hentry : (r'.file_name, r'.file_type) ∈ t.entries := ⟨r', hr', rfl⟩
    have htype := h _ hentry
    rw [← hname]
    exact htype ▸ hentry
  · exact mem_entries_add hmem

theorem mem_entries_erase {t : Table} {n : List Byte} {k : List Byte × List Byte} :
    k ∈ (t.erase n).entries ↔ k ∈ t.entries ∧ k.1 ≠ n := by
  simp only [entries, erase, delete, List.mem_filter, Set.mem_ofPred_eq]
  constructor
  · rintro ⟨r, ⟨hr, hne⟩, rfl⟩
    exact ⟨⟨r, hr, rfl⟩, by simpa using hne⟩
  · rintro ⟨⟨r, hr, rfl⟩, hne⟩
    exact ⟨r, ⟨hr, by simpa using hne⟩, rfl⟩

theorem mem_names_iff {t : Table} {n : List Byte} : n ∈ t.rows.map Row.file_name ↔ ∃ ty, (n, ty) ∈ t.entries := by
  simp [entries]

end Table

end Everyfile.Db
