import Everyfile.Db.EfDb
import Mathlib.Data.Nat.Digits.Defs

/-!
# The three statements read back

For a name without a double quote, the texts of `qry_exact`, `rm` and `add` are one statement each, and it is the one
they were rendered from (`statements_rmText`, `statements_qryExactText`, `statements_addText`). The name is collected
by the scanner inside the quotes without a token; the number of `datetime(...)` is read back from its digits.
-/

namespace Everyfile.Db

/-! ## Quoted text and words -/

/-- Text between quotes without the quote. -/
theorem scan_quoted {n : List Byte} (h : 34 ∉ n) :
    Scanner.scan next (.quoted 34 []) n = ([], .quoted 34 n) := by
  refine Scanner.scan_silent next (Mode.quoted 34) (fun b => b ≠ 34) ?_ [] n ?_
  · intro acc b hb
    simp [next, hb]
  · rintro b hb rfl
    exact h hb

/-- Bytes of a word. -/
theorem scan_word {w : List Byte} (h : ∀ b ∈ w, isWord b = true) (acc : List Byte) :
    Scanner.scan next (.word acc) w = ([], .word (acc ++ w)) := by
  refine Scanner.scan_silent next Mode.word (fun b => isWord b = true) ?_ acc w h
  intro acc b hb
  simp [next, hb]

theorem splitStatements_of_notMem {ts : List Token} (h : .sym 59 ∉ ts) : splitStatements ts = [ts] := by
  induction ts with
  | nil => rfl
  | cons t ts ih =>
    obtain ⟨ht, hts⟩ := not_or.mp (by simpa using h)
    simp [splitStatements, Ne.symm ht, ih hts]

/-! ## `qry_exact` and `rm` -/

open EfDb

theorem lex_quoted_end {pre : List Byte} {ts : List Token} (hpre : Scanner.scan next .normal pre = (ts, .quoted 34 []))
    {n : List Byte} (h : 34 ∉ n) : lex (pre ++ n ++ bytes "\"") = ts ++ [.str 34 n] := by
  rw [lex, lexFrom, List.append_assoc, Scanner.scan_append_of next hpre,
    Scanner.scan_append_of next (scan_quoted h)]
  simp [bytes, next, flush, Scanner.scan_cons]

theorem lex_rmText {n : List Byte} (hz : NulFree n) (h : 34 ∉ n) : lex (rmText n) = deleteHead ++ [.str 34 n] := by
  rw [rmText, cstr_of_nulFree hz]
  exact lex_quoted_end (by decide) h

theorem lex_qryExactText {n : List Byte} (hz : NulFree n) (h : 34 ∉ n) :
    lex (qryExactText n) = selectHead ++ [.str 34 n] := by
  rw [qryExactText, cstr_of_nulFree hz]
  exact lex_quoted_end (by decide) h

/-! ## Numbers -/

theorem isDigit_of_mem_decimal {n : Nat} {b : Byte} (h : b ∈ decimal n) : isDigit b = true := by
  obtain ⟨hlo, hhi⟩ := mem_decimal h
  simp [isDigit, hlo, hhi]

theorem readDecimal_decimal (n : Nat) : readDecimal (decimal n) = n := by
  rw [readDecimal, map_char_decimal, Nat.ofDigitChars_ten_toDigits]

theorem startToken_digit {b : Byte} (h : isDigit b = true) : startToken b = ([], .word [b]) := by
  have hs : isSpace b = false := by
    by_contra hs
    simp only [Bool.not_eq_false, isSpace, Bool.or_eq_true, decide_eq_true_eq] at hs
    rcases hs with (((rfl | rfl) | rfl) | rfl) | rfl <;> exact absurd h (by decide)
  simp [startToken, hs, isWord, h]

/-- A number read from a mode that a digit ends. -/
theorem scan_decimal {m : Mode} {ts : List Token} (hm : ∀ d, isDigit d = true → next m d = (ts, .word [d])) (n : Nat) :
    Scanner.scan next m (decimal n) = (ts, .word (decimal n)) := by
  have hdig : ∀ b ∈ decimal n, isDigit b = true := fun b => isDigit_of_mem_decimal
  obtain ⟨d, ds, hd⟩ := List.exists_cons_of_ne_nil (decimal_ne_nil n)
  rw [hd] at hdig ⊢
  rw [Scanner.scan_cons, hm d (hdig d (by simp)), scan_word fun b hb => by simp [isWord, hdig b (by simp [hb])]]
  simp

theorem quote_notMem_decimal (n : Nat) : 34 ∉ decimal n := fun h => absurd (isDigit_of_mem_decimal h) (by decide)

/-! ## `add` -/

/-- The tokens of a number. -/
def numberTokens : Int → List Token
  | .ofNat n => [.word (decimal n)]
  | .negSucc n => [.sym 45, .word (decimal (n + 1))]

/-- A number followed by the rest of the statement. -/
theorem scan_number (k : Int) :
    Scanner.scan next .normal (decimalInt k ++ bytes ",\"unixepoch\"))") =
      (numberTokens k ++ [.sym 44, .str 34 (bytes "unixepoch"), .sym 41, .sym 41], .normal) := by
  have htail : ∀ w, Scanner.scan next (.word w) (bytes ",\"unixepoch\"))") =
      (.word w :: [.sym 44, .str 34 (bytes "unixepoch"), .sym 41, .sym 41], .normal) := fun w => rfl
  cases k with
  | ofNat n =>
    rw [decimalInt, Scanner.scan_append_of next (scan_decimal (fun d => startToken_digit) n), htail]
    rfl
  | negSucc n =>
    have hdash : ∀ d, isDigit d = true → next .dash d = ([.sym 45], .word [d]) := by
      intro d hd
      have hne : d ≠ 45 := by
        rintro rfl
        exact absurd hd (by decide)
      simp [next, hne, emit, startToken_digit hd]
    have hminus : Scanner.scan next .normal (bytes "-") = ([], .dash) := rfl
    rw [decimalInt, List.append_assoc, Scanner.scan_append_of next hminus,
      Scanner.scan_append_of next (scan_decimal hdash (n + 1)), htail]
    rfl

def insertTokens (n ty : List Byte) (secs : Int) : List Token :=
  insertHead ++ [.str 34 n, .sym 44, .str 34 ty, .sym 44, kw "datetime", .sym 40] ++ numberTokens secs ++
    [.sym 44, .str 34 (bytes "unixepoch"), .sym 41, .sym 41]

theorem lex_addText (info : FileInfo) (hz : NulFree info.file_name) (h : 34 ∉ info.file_name) :
    lex (addText info) = insertTokens info.file_name (decimal info.file_type.toNat) info.file_time := by
  have hpre : Scanner.scan next .normal (bytes "INSERT INTO files values(\"") = (insertHead, .quoted 34 []) := by decide
  have hsep : ∀ v, Scanner.scan next (.quoted 34 v) (bytes "\",\"") = ([.str 34 v, .sym 44], .quoted 34 []) :=
    fun v => rfl
  have hmid : ∀ v, Scanner.scan next (.quoted 34 v) (bytes "\",datetime(") =
      ([.str 34 v, .sym 44, kw "datetime", .sym 40], .normal) := fun v => rfl
  rw [addText, cstr_of_nulFree hz, lex, lexFrom]
  simp only [List.append_assoc]
  rw [Scanner.scan_append_of next hpre, Scanner.scan_append_of next (scan_quoted h),
    Scanner.scan_append_of next (hsep _), Scanner.scan_append_of next (scan_quoted (quote_notMem_decimal _)),
    Scanner.scan_append_of next (hmid _), scan_number]
  simp [insertTokens, flush]

/-! ## The buffer

The cut at the first NUL takes nothing from a text, for `%s` stops at one already.
-/

theorem nulFree_cstr (p : List Byte) : NulFree (cstr p) := fun b hb => by
  simpa using List.mem_takeWhile_imp hb

theorem nulFree_decimalInt : ∀ k, NulFree (decimalInt k)
  | .ofNat n => nulFree_decimal n
  | .negSucc n => nulFree_append (by decide) (nulFree_decimal _)

theorem sprintf_of_nulFree {text : List Byte} (hz : NulFree text) (h : text.length ≤ 4096) :
    sprintf text = some text := by
  rw [sprintf, if_pos h, cstr_of_nulFree hz]

theorem nulFree_rmText (n : List Byte) : NulFree (rmText n) :=
  nulFree_append (nulFree_append (by decide) (nulFree_cstr n)) (by decide)

theorem nulFree_qryExactText (n : List Byte) : NulFree (qryExactText n) :=
  nulFree_append (nulFree_append (by decide) (nulFree_cstr n)) (by decide)

theorem nulFree_addText (info : FileInfo) : NulFree (addText info) := by
  unfold addText
  repeat' apply nulFree_append
  all_goals first | exact nulFree_cstr _ | exact nulFree_decimal _ | exact nulFree_decimalInt _ | decide

theorem sprintf_rmText {n : List Byte} (h : (rmText n).length ≤ 4096) : sprintf (rmText n) = some (rmText n) :=
  sprintf_of_nulFree (nulFree_rmText n) h

theorem sprintf_qryExactText {n : List Byte} (h : (qryExactText n).length ≤ 4096) :
    sprintf (qryExactText n) = some (qryExactText n) :=
  sprintf_of_nulFree (nulFree_qryExactText n) h

theorem sprintf_addText {info : FileInfo} (h : (addText info).length ≤ 4096) :
    sprintf (addText info) = some (addText info) :=
  sprintf_of_nulFree (nulFree_addText info) h

theorem length_cstr_le (p : List Byte) : (cstr p).length ≤ p.length := (List.takeWhile_prefix _).length_le

/-- A number of 64 bits has at most 19 digits. -/
theorem length_decimalInt_le (k : Int64) : (decimalInt k.toInt).length ≤ 20 := by
  have hlen : ∀ n : Nat, n < 10 ^ 19 → (decimal n).length ≤ 19 := by
    intro n hn
    rw [decimal, List.length_map]
    exact Nat.toDigitsCore_length 10 (n + 1) n 19 (by decide) hn
  have hlo := k.le_toInt
  have hhi := k.toInt_lt
  cases h : k.toInt with
  | ofNat n =>
    rw [h, Int.ofNat_eq_natCast] at hhi
    exact (hlen n (by omega)).trans (by decide)
  | negSucc n =>
    rw [h] at hlo
    have := hlen (n + 1) (by omega)
    simp [decimalInt, bytes]
    omega

theorem length_rmText_lt {n : List Byte} (h : n.length ≤ 1024) : (rmText n).length < 4096 := by
  have := length_cstr_le n
  simp [rmText, bytes]
  omega

theorem length_qryExactText_lt {n : List Byte} (h : n.length ≤ 1024) : (qryExactText n).length < 4096 := by
  have := length_cstr_le n
  simp [qryExactText, bytes]
  omega

theorem length_addText_lt {n : List Byte} (type : FileType) (h : n.length ≤ 1024) (k : Int64) :
    (addText ⟨n, type, k.toInt⟩).length < 4096 := by
  have hn := length_cstr_le n
  have hk := length_decimalInt_le k
  have htype : (decimal type.toNat).length = 1 := by cases type <;> decide
  simp [addText, bytes, htype]
  omega

/-! ## One statement each -/

theorem numberTokens_semicolon (k : Int) : .sym 59 ∉ numberTokens k := by
  cases k <;> simp [numberTokens]

theorem statements_rmText {n : List Byte} (hz : NulFree n) (h : 34 ∉ n) :
    splitStatements (lex (rmText n)) = [deleteHead ++ [.str 34 n]] := by
  rw [lex_rmText hz h, splitStatements_of_notMem (by simp [deleteHead, whereName, kw])]

theorem statements_qryExactText {n : List Byte} (hz : NulFree n) (h : 34 ∉ n) :
    splitStatements (lex (qryExactText n)) = [selectHead ++ [.str 34 n]] := by
  rw [lex_qryExactText hz h, splitStatements_of_notMem (by simp [selectHead, whereName, kw])]

theorem statements_addText (info : FileInfo) (hz : NulFree info.file_name) (h : 34 ∉ info.file_name) :
    splitStatements (lex (addText info)) =
      [insertTokens info.file_name (decimal info.file_type.toNat) info.file_time] := by
  rw [lex_addText info hz h, splitStatements_of_notMem]
  simp [insertTokens, insertHead, kw, numberTokens_semicolon]

theorem parse_delete (v : List Byte) : parse (deleteHead ++ [.str 34 v]) = .delete v := rfl

theorem parse_select (v : List Byte) : parse (selectHead ++ [.str 34 v]) = .select v := rfl

theorem parse_insert (n ty : List Byte) (secs : Int) : parse (insertTokens n ty secs) = .insert n ty secs := by
  have hdig : ∀ k, (decimal k).all isDigit = true := fun k => by simpa using fun b => isDigit_of_mem_decimal
  have hcond : ∀ k, bytes "datetime" = bytes "datetime" ∧ bytes "unixepoch" = bytes "unixepoch" ∧
      (decimal k).all isDigit = true := fun k => ⟨rfl, rfl, hdig k⟩
  cases secs with
  | ofNat k =>
    calc parse (insertTokens n ty (.ofNat k))
        = (if _ then some (Stmt.insert n ty (readDecimal (decimal k))) else none).getD
            (.other (insertTokens n ty (.ofNat k))) := rfl
      _ = .insert n ty k := by rw [if_pos (hcond k), readDecimal_decimal]; rfl
  | negSucc k =>
    calc parse (insertTokens n ty (.negSucc k))
        = (if _ then some (Stmt.insert n ty (-readDecimal (decimal (k + 1)))) else none).getD
            (.other (insertTokens n ty (.negSucc k))) := rfl
      _ = .insert n ty (.negSucc k) := by rw [if_pos (hcond _), readDecimal_decimal]; rfl

end Everyfile.Db
