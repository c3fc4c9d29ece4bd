import Everyfile.Db.Table
import Everyfile.Lib.Scanner

/-!
# SQLite, as far as `ef_db` uses it

The tokens of an SQL text (`lex`), its statements, and the effect of the three kinds of statement that `ef_db` issues on
the table `files`. A token in double quotes ends at the next quote that is not doubled, a doubled quote stands for one;
in the condition of a statement it names a column if it is the name of one, else it is a string literal.
`sqlite3_prepare` compiles the first statement of a text, `sqlite3_exec` runs all of them up to the first error.

What SQLite makes of other statements, and of a time, is a parameter (`Sqlite`).
-/

namespace Everyfile.Db

/-! ## Tokens -/

inductive Token
  | word (w : List Byte)
  /-- A token between quotes, with the opening one. -/
  | str (q : Byte) (v : List Byte)
  | sym (b : Byte)
  | illegal
  deriving DecidableEq, Repr

inductive Mode
  | normal
  | word (acc : List Byte)
  | quoted (q : Byte) (acc : List Byte)
  /-- After a quote inside quotes: the end of the token, or the first of two. -/
  | quote (q : Byte) (acc : List Byte)
  | bracket (acc : List Byte)
  | dash
  | lineComment
  | slash
  | comment
  | star
  deriving DecidableEq, Repr

def isSpace (b : Byte) : Bool := b = 32 || b = 9 || b = 10 || b = 12 || b = 13

def isDigit (b : Byte) : Bool := 48 ≤ b && b ≤ 57

/-- Letters, digits, `_`, `$` and the bytes above ASCII. -/
def isWord (b : Byte) : Bool :=
  isDigit b || (65 ≤ b && b ≤ 90) || (97 ≤ b && b ≤ 122) || b = 95 || b = 36 || 128 ≤ b

/-- The first byte of a token. -/
def startToken (b : Byte) : List Token × Mode :=
  if isSpace b then ([], .normal)
  else if isWord b then ([], .word [b])
  else if b = 34 ∨ b = 39 ∨ b = 96 then ([], .quoted b [])
  else if b = 91 then ([], .bracket [])
  else if b = 45 then ([], .dash)
  else if b = 47 then ([], .slash)
  else ([.sym b], .normal)

def emit (t : Token) (r : List Token × Mode) : List Token × Mode := (t :: r.1, r.2)

def next : Mode → Byte → List Token × Mode
  | .normal, b => startToken b
  | .word acc, b => if isWord b then ([], .word (acc ++ [b])) else emit (.word acc) (startToken b)
  | .quoted q acc, b => if b = q then ([], .quote q acc) else ([], .quoted q (acc ++ [b]))
  | .quote q acc, b => if b = q then ([], .quoted q (acc ++ [q])) else emit (.str q acc) (startToken b)
  | .bracket acc, b => if b = 93 then ([.str 91 acc], .normal) else ([], .bracket (acc ++ [b]))
  | .dash, b => if b = 45 then ([], .lineComment) else emit (.sym 45) (startToken b)
  | .lineComment, b => if b = 10 then ([], .normal) else ([], .lineComment)
  | .slash, b => if b = 42 then ([], .comment) else emit (.sym 47) (startToken b)
  | .comment, b => if b = 42 then ([], .star) else ([], .comment)
  | .star, b => if b = 47 then ([], .normal) else if b = 42 then ([], .star) else ([], .comment)

/-- The token under way at the end of the text. -/
def flush : Mode → List Token
  | .word acc => [.word acc]
  | .quoted _ _ | .bracket _ => [.illegal]
  | .quote q acc => [.str q acc]
  | .dash => [.sym 45]
  | .slash => [.sym 47]
  | _ => []

def lexFrom (m : Mode) (sql : List Byte) : List Token :=
  (Scanner.scan next m sql).1 ++ flush (Scanner.scan next m sql).2

def lex (sql : List Byte) : List Token := lexFrom .normal sql

/-! ## Statements -/

/-- The statements of a text, separated by semicolons. -/
def splitStatements : List Token → List (List Token)
  | [] => [[]]
  | t :: ts =>
    if t = .sym 59 then [] :: splitStatements ts
    else
      match splitStatements ts with
      | st :: sts => (t :: st) :: sts
      | [] => [[t]]

inductive Stmt
  | empty
  /-- `INSERT INTO files values("name","type",datetime(secs,"unixepoch"))` -/
  | insert (name type : List Byte) (secs : Int)
  /-- `DELETE FROM files WHERE file_name = "v"` -/
  | delete (v : List Byte)
  /-- `SELECT file_name, file_type, file_time FROM files WHERE file_name = "v"` -/
  | select (v : List Byte)
  | other (ts : List Token)
  deriving DecidableEq, Repr

def kw (s : String) : Token := .word (bytes s)

def whereName : List Token := [kw "FROM", kw "files", kw "WHERE", kw "file_name", .sym 61]

def deleteHead : List Token := kw "DELETE" :: whereName

def selectHead : List Token :=
  [kw "SELECT", kw "file_name", .sym 44, kw "file_type", .sym 44, kw "file_time"] ++ whereName

def insertHead : List Token := [kw "INSERT", kw "INTO", kw "files", kw "values", .sym 40]

/-- The value of a decimal literal. -/
def readDecimal (ds : List Byte) : Nat := Nat.ofDigitChars 10 (ds.map fun b => Char.ofNat b.toNat) 0

/-- The values of the `INSERT`. -/
def parseValues : List Token → Option Stmt
  | [.str 34 n, .sym 44, .str 34 ty, .sym 44, .word f, .sym 40, .word ds, .sym 44, .str 34 u, .sym 41, .sym 41] =>
    if f = bytes "datetime" ∧ u = bytes "unixepoch" ∧ ds.all isDigit then some (.insert n ty (readDecimal ds)) else none
  | [.str 34 n, .sym 44, .str 34 ty, .sym 44, .word f, .sym 40, .sym 45, .word ds, .sym 44, .str 34 u, .sym 41,
      .sym 41] =>
    if f = bytes "datetime" ∧ u = bytes "unixepoch" ∧ ds.all isDigit then some (.insert n ty (-readDecimal ds))
    else none
  | _ => none

/-- The operand of a comparison: one token in double quotes. -/
def parseOperand : List Token → Option (List Byte)
  | [.str 34 v] => some v
  | _ => none

def parse (ts : List Token) : Stmt :=
  if ts = [] then .empty
  else
    match (deleteHead.isPrefixOf? ts).bind parseOperand with
    | some v => .delete v
    | none =>
      match (selectHead.isPrefixOf? ts).bind parseOperand with
      | some v => .select v
      | none => ((insertHead.isPrefixOf? ts).bind parseValues).getD (.other ts)

/-! ## Names in double quotes -/

/-- The columns of `files`; every table has a row number under three names. -/
inductive Column
  | file_name | file_type | file_time | rowid
  deriving DecidableEq, Repr

/-- Names of columns do not distinguish upper and lower case. -/
def lower (v : List Byte) : List Byte := v.map fun b => if 65 ≤ b && b ≤ 90 then b + 32 else b

def columnOf (v : List Byte) : Option Column :=
  if lower v = bytes "file_name" then some .file_name
  else if lower v = bytes "file_type" then some .file_type
  else if lower v = bytes "file_time" then some .file_time
  else if lower v = bytes "rowid" ∨ lower v = bytes "oid" ∨ lower v = bytes "_rowid_" then some .rowid
  else none

/-! ## The engine -/

/-- What the model leaves open of SQLite: the text of `datetime(secs,"unixepoch")`, the compilation and the effect of
other statements (`none` is an error), and which rows have their row number as name. A column's name is no number. -/
structure Sqlite where
  datetime : Int → Option (List Byte)
  other : List Token → Option (Table → Option (Table × List Row))
  rowidEq : Row → Bool
  rowidEq_name : ∀ r, rowidEq r = true → columnOf r.file_name = none

namespace Sqlite

variable (E : Sqlite)

/-- `file_name = "v"` on a row. -/
def nameEq (v : List Byte) (r : Row) : Bool :=
  match columnOf v with
  | some .file_name => true
  | some .file_type => r.file_name = r.file_type
  | some .file_time => r.file_time = some r.file_name
  | some .rowid => E.rowidEq r
  | none => r.file_name = v

/-- Compile one statement: `none` where it does not compile, else its effect and the rows it returns, where it has no
error. -/
def compile (ts : List Token) : Option (Table → Option (Table × List Row)) :=
  match parse ts with
  | .empty => some fun t => some (t, [])
  | .insert n ty secs => some fun t => (t.insert ⟨n, ty, E.datetime secs⟩).map (·, [])
  | .delete v => some fun t => some (t.delete (E.nameEq v), [])
  | .select v => some fun t => some (t, t.select (E.nameEq v))
  | .other ts => E.other ts

/-- `sqlite3_prepare` compiles the first statement. -/
def prepare (sql : List Byte) : Option (Table → Option (Table × List Row)) :=
  E.compile ((splitStatements (lex sql)).headD [])

def run (ts : List Token) (t : Table) : Option (Table × List Row) := (E.compile ts).bind (· t)

/-- Run statements up to the first error; `false` reports one. -/
def runAll : List (List Token) → Table → Table × Bool
  | [], t => (t, true)
  | st :: sts, t =>
    match E.run st t with
    | some r => runAll sts r.1
    | none => (t, false)

/-- `sqlite3_exec`. -/
def exec (sql : List Byte) (t : Table) : Table × Bool := E.runAll (splitStatements (lex sql)) t

end Sqlite

end Everyfile.Db
