import Everyfile.Db.Literals
import Everyfile.Lib.Scanf
import Everyfile.Lib.Wildcard

/-!
# The fuzzy search

`qry_no_exact` writes its pattern as `\"\%%s\%\"` in a C literal. The literal's escapes leave `"%%s%"`, of which
`sprintf` makes `"%s%"`, without the query: `%%` is one percent sign, and `%"` is no conversion. So every fuzzy search
looks for the names with an `s` or `S` (`like_within_s`). It is the search asked for on the tables whose rows cannot
tell the two patterns apart, and on all tables only for the queries that are `s` or `S` up to percent signs
(`searches_iff`).
-/

namespace Everyfile.Db

/-! ## The operator `LIKE` -/

def isCont (b : Byte) : Bool := 128 ≤ b && b < 192

/-- One continuation byte by itself. -/
def contChar : List Byte → Bool
  | [b] => isCont b
  | _ => false

/-- The characters of a text in UTF-8: a byte from 192 on takes the continuation bytes after it. -/
def chars : List Byte → List (List Byte)
  | [] => []
  | b :: s =>
    if 192 ≤ b then (b :: ((chars s).takeWhile contChar).flatten) :: (chars s).dropWhile contChar
    else [b] :: chars s

/-- `%` and `_` are wildcards. -/
def likeItem (c : List Byte) : Wildcard.Item (List Byte) :=
  if c = bytes "%" then .any else if c = bytes "_" then .one else .char c

/-- `n LIKE p`, which does not distinguish upper and lower case of ASCII letters. -/
def like (p n : List Byte) : Bool :=
  Wildcard.fits (fun c d => lower c = lower d) ((chars p).map likeItem) (chars n)

theorem chars_ascii {b : Byte} (hb : b < 192) (s : List Byte) : chars (b :: s) = [b] :: chars s := by
  rw [chars, if_neg (by simpa using hb)]

/-- A percent sign is a character of its own. -/
theorem chars_append_percent (p s : List Byte) : chars (p ++ 37 :: s) = chars p ++ [37] :: chars s := by
  induction p with
  | nil => exact chars_ascii (by decide) s
  | cons b p ih =>
    rw [List.cons_append, chars, chars]
    split
    · rw [ih, Scanf.takeWhile_append_stop (by decide), Scanf.dropWhile_append_stop (by decide)]
      rfl
    · rw [ih]
      rfl

theorem flatten_chars (n : List Byte) : (chars n).flatten = n := by
  induction n with
  | nil => rfl
  | cons b s ih =>
    rw [chars]
    split
    · rw [List.flatten_cons, List.cons_append, ← List.flatten_append, List.takeWhile_append_dropWhile, ih]
    · rw [List.flatten_cons, ih]
      rfl

/-- The characters of a text are one byte below 128, or have no such byte. -/
theorem char_cases {n c : List Byte} (hc : c ∈ chars n) : (∃ b, c = [b]) ∨ c ≠ [] ∧ ∀ b ∈ c, 128 ≤ b := by
  induction n with
  | nil => cases hc
  | cons b s ih =>
    rw [chars] at hc
    split at hc
    next hb =>
      rcases List.mem_cons.mp hc with rfl | hc
      · refine .inr ⟨by simp, fun b' hb' => ?_⟩
        rcases List.mem_cons.mp hb' with rfl | hb'
        · exact UInt8.le_trans (by decide) hb
        · -- the bytes taken are continuation bytes
          obtain ⟨d, hd, hb'⟩ := List.mem_flatten.mp hb'
          have hcont := List.mem_takeWhile_imp hd
          match d, hcont with
          | [b''], hcont =>
            obtain rfl := List.mem_singleton.mp hb'
            simp only [contChar, isCont, Bool.and_eq_true, decide_eq_true_eq] at hcont
            exact hcont.1
      · exact ih ((List.dropWhile_suffix _).subset hc)
    next =>
      rcases List.mem_cons.mp hc with rfl | hc
      · exact .inl ⟨b, rfl⟩
      · exact ih hc

/-- A byte below 128 is a character of its own. -/
theorem mem_chars_ascii {b : Byte} (hb : b < 128) {n : List Byte} : [b] ∈ chars n ↔ b ∈ n := by
  constructor
  · intro h
    rw [← flatten_chars n]
    exact List.mem_flatten.mpr ⟨[b], h, by simp⟩
  · intro h
    rw [← flatten_chars n] at h
    obtain ⟨c, hc, hbc⟩ := List.mem_flatten.mp h
    rcases char_cases hc with ⟨b', rfl⟩ | ⟨-, hlarge⟩
    · rwa [List.mem_singleton.mp hbc]
    · exact absurd (hlarge b hbc) (by simpa using hb)

/-! ## Searches for a part of the name -/

/-- The items of a query. -/
def queryItems (q : List Byte) : List (Wildcard.Item (List Byte)) := (chars q).map likeItem

theorem like_within (q n : List Byte) : like (bytes "%" ++ q ++ bytes "%") n =
    Wildcard.fits (fun c d => lower c = lower d) (.any :: (queryItems q ++ [.any])) (chars n) := by
  have hchars : chars (bytes "%" ++ q ++ bytes "%") = [37] :: (chars q ++ [[37]]) := by
    have hcons : bytes "%" ++ q ++ bytes "%" = 37 :: (q ++ [37]) := rfl
    rw [hcons, chars_ascii (by decide), chars_append_percent]
    rfl
  rw [like, hchars]
  simp [queryItems, likeItem, bytes]

/-- Without the percent signs the characters of a query are those of its other bytes. -/
theorem flatten_filter_chars (q : List Byte) :
    ((chars q).filter (· ≠ [37])).flatten = q.filter (· ≠ 37) := by
  have hfilter : ∀ cs : List (List Byte), (∀ c ∈ cs, (∃ b, c = [b]) ∨ c ≠ [] ∧ ∀ b ∈ c, 128 ≤ b) →
      (cs.filter (· ≠ [37])).flatten = cs.flatten.filter (· ≠ 37) := by
    intro cs hcs
    induction cs with
    | nil => rfl
    | cons c cs ih =>
      rw [List.forall_mem_cons] at hcs
      rw [List.flatten_cons, List.filter_append, ← ih hcs.2]
      rcases hcs.1 with ⟨b, rfl⟩ | ⟨-, hlarge⟩
      · by_cases hb : b = 37 <;> simp [hb]
      · have hc : c ≠ [37] := by
          rintro rfl
          exact absurd (hlarge 37 (by simp)) (by decide)
        have hall : c.filter (· ≠ 37) = c := by
          rw [List.filter_eq_self]
          intro b hb
          rw [decide_eq_true_eq]
          rintro rfl
          exact absurd (hlarge 37 hb) (by decide)
        rw [List.filter_cons, if_pos (by simpa using hc), List.flatten_cons, hall]
  rw [hfilter _ fun c hc => char_cases hc, flatten_chars]

theorem proper_queryItems (q : List Byte) :
    Wildcard.proper (queryItems q) = ((chars q).filter (· ≠ [37])).map likeItem := by
  rw [Wildcard.proper, queryItems, List.filter_map]
  congr 1
  refine List.filter_congr fun c _ => ?_
  have hp : bytes "%" = [37] := rfl
  rw [Function.comp_apply, likeItem, hp]
  by_cases h37 : c = [37]
  · rw [if_pos h37]
    simp [Wildcard.Item.isAny, h37]
  · rw [if_neg h37]
    split <;> simp [Wildcard.Item.isAny, h37]

/-- A query with one character, up to percent signs, looks for the names with that character in upper or lower case. -/
theorem like_within_single {q c n : List Byte} (hc : c ≠ bytes "_") (h : (chars q).filter (· ≠ [37]) = [c]) :
    like (bytes "%" ++ q ++ bytes "%") n = true ↔ ∃ d ∈ chars n, lower c = lower d := by
  have hmem : c ∈ (chars q).filter (· ≠ [37]) := h ▸ List.mem_singleton_self c
  have h37 : c ≠ bytes "%" := of_decide_eq_true (List.mem_filter.mp hmem).2
  have hproper : Wildcard.proper (queryItems q) = [.char c] := by
    rw [proper_queryItems, h, List.map_singleton, likeItem, if_neg h37, if_neg hc]
  rw [like_within, Wildcard.fits_within_single hproper]
  simp [Wildcard.Item.accepts]

theorem lower_eq_s {c : List Byte} : lower c = [115] ↔ c = [115] ∨ c = [83] := by
  have hb : ∀ b : Byte, (if 65 ≤ b && b ≤ 90 then b + 32 else b) = 115 ↔ b = 115 ∨ b = 83 := by
    intro b
    grind
  match c with
  | [] => simp [lower]
  | [b] => simpa [lower] using hb b
  | _ :: _ :: _ => simp [lower]

theorem flatten_eq_singleton {α : Type*} {cs : List (List α)} {b : α} (hne : ∀ c ∈ cs, c ≠ [])
    (h : cs.flatten = [b]) : cs = [[b]] := by
  cases cs with
  | nil => cases h
  | cons c cs =>
    rw [List.forall_mem_cons] at hne
    obtain ⟨x, hx⟩ := List.exists_mem_of_ne_nil c hne.1
    rw [List.flatten_cons] at h
    have hlen := congrArg List.length h
    have hc := List.length_pos_of_mem hx
    rw [List.length_append, List.length_singleton] at hlen
    have hcs : cs = [] := by
      refine List.eq_nil_iff_forall_not_mem.mpr fun d hd => hne.2 d hd ?_
      have hnil : cs.flatten = [] := List.eq_nil_of_length_eq_zero (by omega)
      exact List.flatten_eq_nil_iff.mp hnil d hd
    rw [hcs, List.flatten_nil, List.append_nil] at h
    rw [hcs, h]

/-- A query is an `s` up to percent signs. -/
theorem like_within_s {q n : List Byte} (h : q.filter (· ≠ 37) = [115] ∨ q.filter (· ≠ 37) = [83]) :
    like (bytes "%" ++ q ++ bytes "%") n = true ↔ 115 ∈ n ∨ 83 ∈ n := by
  obtain ⟨b, hb, hq⟩ : ∃ b, (b = 115 ∨ b = 83) ∧ q.filter (· ≠ 37) = [b] := by
    rcases h with h | h
    · exact ⟨115, .inl rfl, h⟩
    · exact ⟨83, .inr rfl, h⟩
  have hchars : (chars q).filter (· ≠ [37]) = [[b]] := by
    have hne : ∀ c ∈ (chars q).filter (· ≠ [37]), c ≠ [] := by
      intro c hc
      rcases char_cases (List.mem_filter.mp hc).1 with ⟨b, rfl⟩ | ⟨hne, -⟩
      · simp
      · exact hne
    exact flatten_eq_singleton hne ((flatten_filter_chars q).trans hq)
  have hne : [b] ≠ bytes "_" := by
    rcases hb with rfl | rfl <;> decide
  have hlower : lower [b] = [115] := lower_eq_s.mpr (by simpa using hb)
  rw [like_within_single hne hchars, hlower, ← mem_chars_ascii (by decide), ← mem_chars_ascii (by decide)]
  constructor
  · rintro ⟨d, hd, hs⟩
    rcases lower_eq_s.mp hs.symm with rfl | rfl
    · exact .inl hd
    · exact .inr hd
  · rintro (hd | hd)
    · exact ⟨_, hd, rfl⟩
    · exact ⟨_, hd, rfl⟩

/-- A pattern that fits `s` and not `a` is that of a query that is an `s` up to percent signs. -/
theorem query_eq_s {q : List Byte} (hs : like (bytes "%" ++ q ++ bytes "%") [115] = true)
    (ha : like (bytes "%" ++ q ++ bytes "%") [97] = false) :
    q.filter (· ≠ 37) = [115] ∨ q.filter (· ≠ 37) = [83] := by
  have hlen : ((chars q).filter (· ≠ [37])).length ≤ 1 := by
    rw [like_within] at hs
    have hle := Wildcard.length_proper_le hs
    rw [Wildcard.proper_any, Wildcard.proper, List.filter_append] at hle
    change (Wildcard.proper (queryItems q) ++ []).length ≤ 1 at hle
    rwa [List.append_nil, proper_queryItems, List.length_map] at hle
  rw [← flatten_filter_chars]
  rcases Nat.le_one_iff_eq_zero_or_eq_one.mp hlen with hlen | hlen
  · -- nothing but percent signs: every name is found
    have hcs := List.eq_nil_of_length_eq_zero hlen
    have hproper : Wildcard.proper (queryItems q) = [] := by rw [proper_queryItems, hcs, List.map_nil]
    rw [like_within, Wildcard.fits_within_nil hproper] at ha
    cases ha
  · obtain ⟨c, hcs⟩ := List.length_eq_one_iff.mp hlen
    by_cases hc : c = bytes "_"
    · -- one character of any kind: the name `a` is found
      have hproper : Wildcard.proper (queryItems q) = [.one] := by
        rw [proper_queryItems, hcs, hc]
        rfl
      have hfit : like (bytes "%" ++ q ++ bytes "%") [97] = true := by
        rw [like_within, Wildcard.fits_within_single hproper]
        exact ⟨[97], by decide, rfl⟩
      rw [ha] at hfit
      cases hfit
    · obtain ⟨d, hd, hcd⟩ := (like_within_single hc hcs).mp hs
      obtain rfl : d = [115] := by simpa [chars] using hd
      rw [hcs]
      simpa using lower_eq_s.mp hcd

/-! ## The text of `qry_no_exact` -/

/-- The escapes of a C literal, as far as those of `ef_db.cpp` go. -/
def cLiteral : List Byte → List Byte
  | 92 :: 48 :: s => 0 :: cLiteral s
  | 92 :: b :: s => b :: cLiteral s
  | b :: s => b :: cLiteral s
  | [] => []

/-- `%%` and `%s` of `sprintf`; an unknown conversion is copied. -/
def vsprintf : List Byte → List (List Byte) → List Byte
  | 37 :: 37 :: f, args => 37 :: vsprintf f args
  | 37 :: 115 :: f, a :: args => a ++ vsprintf f args
  | b :: f, args => b :: vsprintf f args
  | [], _ => []

/-- What `sprintf` writes for a format given as a literal of the source. -/
def printfText (literal : List Byte) (args : List (List Byte)) : List Byte := vsprintf (cstr (cLiteral literal)) args

theorem vsprintf_append {p : List Byte} (hp : 37 ∉ p) (f : List Byte) (args : List (List Byte)) :
    vsprintf (p ++ f) args = p ++ vsprintf f args := by
  induction p with
  | nil => rfl
  | cons b p ih =>
    obtain ⟨hb, hp⟩ := List.ne_and_not_mem_of_not_mem_cons hp
    rw [List.cons_append, vsprintf, ih hp, List.cons_append]
    · intro _ h _
      exact hb h.symm
    · intro _ _ _ _ h _
      exact hb h.symm

/-- `SELECT file_name, file_type, file_time FROM files WHERE file_name like` -/
def likeHead : List Token :=
  [kw "SELECT", kw "file_name", .sym 44, kw "file_type", .sym 44, kw "file_time"] ++
    [kw "FROM", kw "files", kw "WHERE", kw "file_name", kw "like"]

/-- What the search relies on: SQLite selects the rows whose name is like a pattern that is no column's name. -/
structure LikeSqlite extends Sqlite where
  other_like : ∀ p, columnOf p = none → other (likeHead ++ [.str 34 p]) = some fun t =>
    some (t, t.select fun r => like p r.file_name)

namespace EfDb

/-- The format of `qry_exact`. -/
def qryExactFormat : List Byte :=
  bytes "SELECT file_name, file_type, file_time FROM files WHERE file_name = \\\"%s\\\"\\0"

/-- The format of `qry_no_exact`. -/
def qryNoExactFormat : List Byte :=
  bytes "SELECT file_name, file_type, file_time FROM files WHERE file_name like \\\"\\%%s\\%\\\"\\0"

/-- `ef_db::qry_no_exact` and the stepping through its result. -/
def qryNoExact (E : Sqlite) (q : List Byte) (t : Table) : Option (Table × Option (List Row)) :=
  (sprintf (printfText qryNoExactFormat [cstr q])).map fun sql =>
    match E.prepare sql with
    | none => (t, none)
    | some f =>
      match f t with
      | some (t', rows) => (t', some rows)
      | none => (t, none)

end EfDb

/-- The format of `qry_exact` does take its argument. -/
theorem printfText_qryExactFormat (n : List Byte) : printfText EfDb.qryExactFormat [cstr n] = EfDb.qryExactText n := by
  have hformat : cstr (cLiteral EfDb.qryExactFormat) =
      bytes "SELECT file_name, file_type, file_time FROM files WHERE file_name = \"" ++ (bytes "%s" ++ bytes "\"") := by
    decide +kernel
  have hargs : vsprintf (bytes "%s" ++ bytes "\"") [cstr n] = cstr n ++ bytes "\"" := rfl
  rw [printfText, hformat, vsprintf_append (by decide), hargs, EfDb.qryExactText, List.append_assoc]

/-- The format of `qry_no_exact` leaves its argument out. -/
theorem printfText_qryNoExactFormat (q : List Byte) : printfText EfDb.qryNoExactFormat [cstr q] =
    bytes "SELECT file_name, file_type, file_time FROM files WHERE file_name like \"%s%\"" := by
  have hformat : cstr (cLiteral EfDb.qryNoExactFormat) =
      bytes "SELECT file_name, file_type, file_time FROM files WHERE file_name like \"" ++ bytes "%%s%\"" := by
    decide +kernel
  have hargs : vsprintf (bytes "%%s%\"") [cstr q] = bytes "%s%\"" := rfl
  rw [printfText, hformat, vsprintf_append (by decide), hargs]
  decide

/-- **The fuzzy search**, of whatever query: for the names with an `s`. -/
theorem qryNoExact_eq (E : LikeSqlite) (q : List Byte) (t : Table) :
    EfDb.qryNoExact E.toSqlite q t = some (t, some (t.select fun r => like (bytes "%s%") r.file_name)) := by
  have hsql : sprintf (bytes "SELECT file_name, file_type, file_time FROM files WHERE file_name like \"%s%\"") =
      some (bytes "SELECT file_name, file_type, file_time FROM files WHERE file_name like \"%s%\"") := by
    decide +kernel
  have hstmt : splitStatements (lex
      (bytes "SELECT file_name, file_type, file_time FROM files WHERE file_name like \"%s%\"")) =
      [likeHead ++ [.str 34 (bytes "%s%")]] := by decide +kernel
  have hparse : parse (likeHead ++ [.str 34 (bytes "%s%")]) = .other (likeHead ++ [.str 34 (bytes "%s%")]) := by decide
  rw [EfDb.qryNoExact, printfText_qryNoExactFormat, hsql]
  simp only [Option.map_some, Sqlite.prepare, hstmt, List.headD_cons, Sqlite.compile, hparse,
    E.other_like _ (by decide : columnOf (bytes "%s%") = none)]

/-! ## The search that was asked for -/

/-- The search for `q` on `t`: the rows whose name is like `%q%`, and the table as it was. -/
def Searches (E : Sqlite) (q : List Byte) (t : Table) : Prop :=
  EfDb.qryNoExact E q t = some (t, some (t.select fun r => like (bytes "%" ++ q ++ bytes "%") r.file_name))

instance (E : Sqlite) (q : List Byte) (t : Table) : Decidable (Searches E q t) := inferInstanceAs (Decidable (_ = _))

theorem searches_iff_rows (E : LikeSqlite) (q : List Byte) (t : Table) : Searches E.toSqlite q t ↔
    ∀ r ∈ t.rows, ((115 ∈ r.file_name ∨ 83 ∈ r.file_name) ↔
      like (bytes "%" ++ q ++ bytes "%") r.file_name = true) := by
  have hs : ∀ n : List Byte, like (bytes "%s%") n = true ↔ 115 ∈ n ∨ 83 ∈ n := fun n =>
    like_within_s (q := [115]) (.inl rfl)
  rw [Searches, qryNoExact_eq, Option.some_inj, Prod.mk.injEq, Option.some_inj]
  simp only [true_and, ← hs]
  constructor
  · intro h r hr
    have hmem := congrArg (r ∈ ·) h
    simpa [Table.select, hr] using hmem
  · intro h
    refine List.filter_congr fun r hr => ?_
    rw [Bool.eq_iff_iff]
    exact h r hr

/-- **When the fuzzy search is the one asked for**: on a table whose rows have an `s` exactly where they are like the
pattern; and on every table exactly for the queries that are an `s` up to percent signs. -/
theorem searches_iff (E : LikeSqlite) (q : List Byte) :
    (∀ t, Searches E.toSqlite q t ↔ ∀ r ∈ t.rows, ((115 ∈ r.file_name ∨ 83 ∈ r.file_name) ↔
      like (bytes "%" ++ q ++ bytes "%") r.file_name = true)) ∧
    ((∀ t, Searches E.toSqlite q t) ↔ q.filter (· ≠ 37) = [115] ∨ q.filter (· ≠ 37) = [83]) := by
  refine ⟨searches_iff_rows E q, fun h => ?_, fun hq t => ?_⟩
  · -- the names `s` and `a` tell the queries apart
    have hrow := (searches_iff_rows E q ⟨[⟨[115], [], none⟩, ⟨[97], [], none⟩], by decide⟩).mp (h _)
    simp only [List.forall_mem_cons] at hrow
    obtain ⟨hs, ha, -⟩ := hrow
    exact query_eq_s (by simpa using hs) (by simpa using ha)
  · exact (searches_iff_rows E q t).mpr fun r _ => (like_within_s hq).symm

/-- An engine that knows the statement of the search. -/
def likeEngine : LikeSqlite where
  datetime := plainEngine.datetime
  other ts := ((likeHead.isPrefixOf? ts).bind parseOperand).map fun p t =>
    some (t, t.select fun r => like p r.file_name)
  rowidEq := plainEngine.rowidEq
  rowidEq_name := plainEngine.rowidEq_name
  other_like p _ := by simp [likeHead, List.isPrefixOf?, parseOperand]

/-- A search for `a` does not find the file `/a`, which the exact search for its name does. -/
theorem fuzzy_misses :
    let t : Table := ⟨[⟨bytes "/a", bytes "1", none⟩], by decide⟩
    EfDb.qryNoExact likeEngine.toSqlite (bytes "a") t = some (t, some []) ∧
      EfDb.qryExact likeEngine.toSqlite (bytes "/a") t = some (t, some t.rows) ∧
      t.select (fun r => like (bytes "%" ++ bytes "a" ++ bytes "%") r.file_name) = t.rows ∧
      ¬ Searches likeEngine.toSqlite (bytes "a") t := by
  decide +kernel

end Everyfile.Db
