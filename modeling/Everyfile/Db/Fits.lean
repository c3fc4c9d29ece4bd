import Everyfile.Db.Fuzzy
import Everyfile.Db.Refine

/-!
# The statement buffer

Each operation of `ef_db` formats its statement into the 4096 bytes of `qry`, looks for the NUL, and cuts the buffer
there. The statement is whole exactly where it leaves a byte for the NUL (`whole_iff`). The callers of `rm` and the
fixed text of `qry_no_exact` see to that; a path of the scan and an argument of the command line may be too long
(`text_whole_iff`).
-/

namespace Everyfile.Db

/-- The statements, with what they are formatted from. -/
inductive Qry
  | qry_exact (fname : List Byte)
  | qry_no_exact (fname : List Byte)
  | add (info : FileInfo)
  | rm (fname : List Byte)
  deriving DecidableEq, Repr

namespace Qry

/-- What `sprintf` writes, up to the NUL. -/
def text : Qry → List Byte
  | .qry_exact fname => EfDb.qryExactText fname
  | .qry_no_exact fname => printfText EfDb.qryNoExactFormat [cstr fname]
  | .add info => EfDb.addText { info with file_name := EfDb.normalise info.file_name }
  | .rm fname => EfDb.rmText fname

/-- What the callers can supply: an argument of the command line, a path that `lstat` accepts with a time of 64 bits, a
path that the daemon has received. -/
def Supplied : Qry → Prop
  | .qry_exact fname | .qry_no_exact fname => NulFree fname
  | .add info => NulFree info.file_name ∧ info.file_name.length ≤ 4095 ∧ ∃ time : Int64, info.file_time = time.toInt
  | .rm fname => NulFree fname ∧ fname.length ≤ 1022

/-- The bound on what is supplied: the fixed texts are 70 bytes of `qry_exact` and 55 of `add`, with the type's
digit. -/
def Short : Qry → Prop
  | .qry_exact fname => fname.length ≤ 4025
  | .add info => info.file_name.length + (decimalInt info.file_time).length ≤ 4040
  | .qry_no_exact _ | .rm _ => True

end Qry

/-! ## The buffer -/

/-- The bytes of `qry` after `sprintf`; what is written past them is not there. -/
def qryBuffer (text : List Byte) : List Byte := (text ++ List.replicate (4096 - text.length) 0).take 4096

/-- The loop over `insert_size`, from `i` with `k` passes left. -/
def insertSize (qry : List Byte) : Nat → Nat → Nat
  | 0, i => i
  | k + 1, i => if qry.getD i 0 = 0 then i else insertSize qry k (i + 1)

/-- The text and its NUL are in the buffer, the loop stops at the end of the text, and all of it is executed. -/
structure Whole (text : List Byte) : Prop where
  fits : text.length + 1 ≤ 4096
  stops : insertSize (qryBuffer text) 4096 0 = text.length
  executed : sprintf text = some text

variable {text qry : List Byte}

/-- The loop finds the first NUL. -/
theorem insertSize_eq {k i : Nat} (h : i + k ≤ qry.length) :
    insertSize qry k i = i + (cstr ((qry.drop i).take k)).length := by
  induction k generalizing i with
  | zero => simp [insertSize, cstr]
  | succ k ih =>
    have hdrop : qry.drop i = qry[i] :: qry.drop (i + 1) := List.drop_eq_getElem_cons (by omega)
    have hget : qry.getD i 0 = qry[i] := by
      rw [List.getD_eq_getElem?_getD, List.getElem?_eq_getElem (by omega), Option.getD_some]
    rw [insertSize, hget, hdrop, List.take_succ_cons, cstr, List.takeWhile_cons]
    by_cases hz : qry[i] = 0
    · simp [hz]
    · rw [if_neg hz, if_pos (by simpa using hz), ih (by omega), cstr, List.length_cons]
      omega

/-- **Whole statements** are those that leave a byte for the NUL. -/
theorem whole_iff (hz : NulFree text) : Whole text ↔ text.length + 1 ≤ 4096 := by
  refine ⟨Whole.fits, fun hfit => ⟨hfit, ?_, sprintf_of_nulFree hz (by omega)⟩⟩
  have hbuffer : qryBuffer text = text ++ List.replicate (4096 - text.length) 0 := by
    apply List.take_of_length_le
    rw [List.length_append, List.length_replicate]
    omega
  have hlen : (qryBuffer text).length = 4096 := by
    rw [hbuffer, List.length_append, List.length_replicate]
    omega
  rw [insertSize_eq (by omega), List.drop_zero, List.take_of_length_le (by omega), hbuffer, cstr_append_zeros hz,
    Nat.zero_add]

/-! ## The texts -/

theorem nulFree_text (q : Qry) : NulFree q.text := by
  cases q with
  | qry_exact fname => exact nulFree_qryExactText fname
  | qry_no_exact fname =>
    rw [Qry.text, printfText_qryNoExactFormat]
    decide
  | add info => exact nulFree_addText _
  | rm fname => exact nulFree_rmText fname

/-- The rewriting of slashes does not change the length. -/
theorem length_text_add {info : FileInfo} (hz : NulFree info.file_name) :
    (Qry.text (.add info)).length = info.file_name.length + (decimalInt info.file_time).length + 55 := by
  have hnul : NulFree (EfDb.normalise info.file_name) := nulFree_normalise hz
  have htype : (decimal info.file_type.toNat).length = 1 := by cases info.file_type <;> decide
  simp [Qry.text, EfDb.addText, bytes, cstr_of_nulFree hnul, length_normalise, htype]
  omega

/-- The name that the scan gives a file under `n - 1` directories. -/
def deepName (n : Nat) : List Byte := bytes "/" ++ (List.replicate n (bytes "d")).flatMap fun d => bytes "/" ++ d

theorem length_deepName (n : Nat) : (deepName n).length = 2 * n + 1 := by
  simp [deepName, bytes]
  omega

theorem nulFree_deepName (n : Nat) : NulFree (deepName n) := by
  apply nulFree_append
  · decide
  · apply nulFree_flatMap
    intro d hd
    obtain rfl := (List.mem_replicate.mp hd).2
    decide

/-- **When the statements fit**: `rm` and `qry_no_exact` for all that their callers supply, `add` and `qry_exact` under
the bound. -/
theorem text_whole_iff {q : Qry} (h : q.Supplied) : Whole q.text ↔ q.Short := by
  rw [whole_iff (nulFree_text q)]
  cases q with
  | qry_exact fname =>
    have hlen : (EfDb.qryExactText fname).length = fname.length + 70 := by
      simp [EfDb.qryExactText, bytes, cstr_of_nulFree (show NulFree fname from h)]
    rw [Qry.text, hlen, Qry.Short]
    omega
  | qry_no_exact fname =>
    rw [Qry.text, printfText_qryNoExactFormat]
    exact iff_of_true (by decide) trivial
  | add info =>
    rw [length_text_add h.1, Qry.Short]
    omega
  | rm fname =>
    have hlen : (EfDb.rmText fname).length < 4096 := length_rmText_lt (h.2.trans (by decide))
    exact iff_of_true hlen trivial

/-- A path of 4039 bytes: with a time of one digit its statement fills the buffer, with one of two digits it is too
long. -/
theorem text_whole_iff_deep : Whole (Qry.text (.add ⟨deepName 2019, .EREG, 9⟩)) ∧
    ¬Whole (Qry.text (.add ⟨deepName 2019, .EREG, 10⟩)) := by
  have hlen := length_deepName 2019
  have hz := nulFree_deepName 2019
  generalize deepName 2019 = n at hlen hz
  have hsupplied : ∀ time : Int64, Qry.Supplied (.add ⟨n, .EREG, time.toInt⟩) := fun time =>
    ⟨hz, by simp [hlen], time, rfl⟩
  have hnine : (decimalInt (9 : Int64).toInt).length = 1 := by decide
  have hten : (decimalInt (10 : Int64).toInt).length = 2 := by decide
  constructor
  · refine (text_whole_iff (hsupplied 9)).mpr ?_
    show n.length + (decimalInt (9 : Int64).toInt).length ≤ 4040
    omega
  · intro h
    have hshort : n.length + (decimalInt (10 : Int64).toInt).length ≤ 4040 := (text_whole_iff (hsupplied 10)).mp h
    omega

/-- A path of 4095 bytes: its statement is written past the buffer. -/
theorem deepName_past : Qry.Supplied (.add ⟨deepName 2047, .EREG, 0⟩) ∧
    ¬Whole (Qry.text (.add ⟨deepName 2047, .EREG, 0⟩)) ∧
    ∀ E t, EfDb.add E ⟨deepName 2047, .EREG, 0⟩ t = none := by
  have hlen := length_deepName 2047
  have hz := nulFree_deepName 2047
  generalize deepName 2047 = n at hlen hz
  have htext : (Qry.text (.add ⟨n, .EREG, 0⟩)).length = 4151 := by
    rw [length_text_add hz, hlen]
    rfl
  refine ⟨⟨hz, by simp [hlen], 0, rfl⟩, fun h => ?_, fun E t => ?_⟩
  · have hfit := h.fits
    omega
  · have hnone : sprintf (Qry.text (.add ⟨n, .EREG, 0⟩)) = none := if_neg (by omega)
    exact congrArg (Option.map _) hnone

end Everyfile.Db
