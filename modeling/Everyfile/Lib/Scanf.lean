import Mathlib.Data.List.DropRight

/-!
# The kernel's `sscanf`

A format is a list of directives. `vsscanf` reads a text from its start and gives the values it has assigned; it stops
where the text does not match. White space in the format skips any white space of the text, line ends included, and a
directive with `*` skips to the next white space. A text is read as words between white space: the first word of a text
and what follows it do not depend on what is appended after white space (`firstWord_append`, `afterWord_append`).
-/

namespace Scanf

/-- White space in the kernel's character table, which is Latin-1: 160 is the no-break space. -/
def isSpace (b : UInt8) : Bool := b = 32 || (9 ≤ b && b ≤ 13) || b = 160

def isDigit (b : UInt8) : Bool := 48 ≤ b && b ≤ 57

inductive Directive
  /-- White space. -/
  | space
  | lit (b : UInt8)
  /-- `%*d`, `%*s`. -/
  | skip
  /-- `%d`. -/
  | int
  /-- `%s` with a field width. -/
  | str (width : Nat)
  deriving DecidableEq, Repr

/-- A value assigned. -/
inductive Arg
  | int (n : Int)
  | str (s : List UInt8)
  deriving DecidableEq, Repr

def skipSpaces (s : List UInt8) : List UInt8 := s.dropWhile isSpace

/-- The bytes up to the next white space. -/
def word (s : List UInt8) : List UInt8 := s.takeWhile (!isSpace ·)

def skipWord (s : List UInt8) : List UInt8 := s.dropWhile (!isSpace ·)

/-- The value of decimal digits. -/
def readNat (ds : List UInt8) : Nat := Nat.ofDigitChars 10 (ds.map fun b => Char.ofNat b.toNat) 0

/-- A decimal number at the start of a text, and what follows it. -/
def readInt (s : List UInt8) : Option (Int × List UInt8) :=
  let digits := if s.head? = some 45 then s.tail else s
  let ds := digits.takeWhile isDigit
  if ds = [] then none
  else some (if s.head? = some 45 then -(readNat ds : Int) else readNat ds, digits.dropWhile isDigit)

def vsscanf : List Directive → List UInt8 → List Arg
  | [], _ => []
  | .space :: ds, s => vsscanf ds (skipSpaces s)
  | .lit b :: ds, s => if s.head? = some b then vsscanf ds s.tail else []
  | .skip :: ds, s => if s = [] then [] else vsscanf ds (skipWord s)
  | .int :: ds, s =>
    match readInt (skipSpaces s) with
    | some (n, s) => .int n :: vsscanf ds s
    | none => []
  | .str width :: ds, s =>
    if s = [] then []
    else
      let field := (word (skipSpaces s)).take width
      .str field :: vsscanf ds ((skipSpaces s).drop field.length)

/-! ## Words -/

section Words

variable {s t w : List UInt8}

/-- A word, in a text where it is followed by white space or the end. -/
def IsWord (w : List UInt8) : Prop := w ≠ [] ∧ ∀ b ∈ w, isSpace b = false

instance (w : List UInt8) : Decidable (IsWord w) := inferInstanceAs (Decidable (_ ∧ _))

def firstWord (s : List UInt8) : List UInt8 := word (skipSpaces s)

def afterWord (s : List UInt8) : List UInt8 := skipWord (skipSpaces s)

theorem skipSpaces_space {b : UInt8} (h : isSpace b = true) : skipSpaces (b :: s) = skipSpaces s := by
  simp [skipSpaces, h]

theorem skipSpaces_of_head {b : UInt8} (h : isSpace b = false) : skipSpaces (b :: s) = b :: s := by
  simp [skipSpaces, h]

theorem skipSpaces_word (h : IsWord w) : skipSpaces (w ++ s) = w ++ s := by
  obtain ⟨b, w, rfl⟩ := List.exists_cons_of_ne_nil h.1
  exact skipSpaces_of_head (h.2 b (by simp))

/-- A text with a byte that is not white space has a first word. -/
theorem skipSpaces_ne_nil : skipSpaces s ≠ [] ↔ ∃ b ∈ s, isSpace b = false := by
  simp [skipSpaces, List.dropWhile_eq_nil_iff]

theorem skipSpaces_append (h : ∃ b ∈ s, isSpace b = false) : skipSpaces (s ++ t) = skipSpaces s ++ t := by
  unfold skipSpaces
  rw [List.dropWhile_append, if_neg]
  simpa using h

/-- What is taken ends at a symbol that stops it, whatever follows. -/
theorem takeWhile_append_stop {α : Type*} {p : α → Bool} {b : α} (h : p b = false) (s t : List α) :
    (s ++ b :: t).takeWhile p = s.takeWhile p := by
  induction s with
  | nil => simp [h]
  | cons c s ih => rw [List.cons_append, List.takeWhile_cons, List.takeWhile_cons, ih]

/-- What is dropped ends there as well. -/
theorem dropWhile_append_stop {α : Type*} {p : α → Bool} {b : α} (h : p b = false) (s t : List α) :
    (s ++ b :: t).dropWhile p = s.dropWhile p ++ b :: t := by
  induction s with
  | nil => simp [h]
  | cons c s ih =>
    rw [List.cons_append, List.dropWhile_cons, List.dropWhile_cons, ih]
    split <;> rfl

/-- **The end of a word**: white space, whatever follows it. -/
theorem word_append_space {b : UInt8} (h : isSpace b = true) : word (s ++ b :: t) = word s :=
  takeWhile_append_stop (by simp [h]) s t

theorem skipWord_append_space {b : UInt8} (h : isSpace b = true) : skipWord (s ++ b :: t) = skipWord s ++ b :: t :=
  dropWhile_append_stop (by simp [h]) s t

theorem firstWord_append {b : UInt8} (hs : ∃ b ∈ s, isSpace b = false) (h : isSpace b = true) :
    firstWord (s ++ b :: t) = firstWord s := by
  rw [firstWord, skipSpaces_append hs, word_append_space h]
  rfl

theorem afterWord_append {b : UInt8} (hs : ∃ b ∈ s, isSpace b = false) (h : isSpace b = true) :
    afterWord (s ++ b :: t) = afterWord s ++ b :: t := by
  rw [afterWord, skipSpaces_append hs, skipWord_append_space h]
  rfl

theorem word_of_isWord (h : ∀ b ∈ w, isSpace b = false) : word w = w := by
  rw [word, List.takeWhile_eq_self_iff]
  simpa using h

theorem skipWord_of_isWord (h : ∀ b ∈ w, isSpace b = false) : skipWord w = [] := by
  rw [skipWord, List.dropWhile_eq_nil_iff]
  simpa using h

/-- A word between white space is skipped. -/
theorem afterWord_word {b c : UInt8} (hb : isSpace b = true) (h : IsWord w) (hc : isSpace c = true) :
    afterWord (b :: (w ++ c :: t)) = c :: t := by
  rw [afterWord, skipSpaces_space hb, skipSpaces_word h, skipWord_append_space hc, skipWord_of_isWord h.2]
  rfl

end Words

/-! ## Directives -/

section Directives

variable {ds : List Directive} {s t w : List UInt8}

/-- A word that is skipped. -/
theorem vsscanf_skip_word {b : UInt8} (h : IsWord w) (hb : isSpace b = true) :
    vsscanf (.skip :: .space :: ds) (w ++ b :: t) = vsscanf ds (skipSpaces t) := by
  rw [vsscanf, if_neg (by simp [h.1]), skipWord_append_space hb, skipWord_of_isWord h.2, List.nil_append, vsscanf,
    skipSpaces_space hb]

/-- Digits are read up to a byte that is none. -/
theorem readInt_digits {b : UInt8} (hw : w ≠ []) (hdig : ∀ b ∈ w, isDigit b = true) (hb : isDigit b = false) :
    readInt (w ++ b :: t) = some ((readNat w : Int), b :: t) := by
  have hminus : (w ++ b :: t).head? ≠ some 45 := by
    obtain ⟨c, w, rfl⟩ := List.exists_cons_of_ne_nil hw
    intro h
    obtain rfl : c = 45 := by simpa using h
    exact absurd (hdig 45 (by simp)) (by decide)
  have htake : (w ++ b :: t).takeWhile isDigit = w := by
    rw [List.takeWhile_append_of_pos hdig]
    simp [hb]
  have hdrop : (w ++ b :: t).dropWhile isDigit = b :: t := by
    rw [List.dropWhile_append_of_pos hdig]
    simp [hb]
  simp only [readInt, if_neg hminus, htake, hdrop, if_neg hw]

theorem isSpace_of_isDigit {b : UInt8} (h : isDigit b = true) : isSpace b = false := by
  simp only [isDigit, Bool.and_eq_true, decide_eq_true_eq, UInt8.le_iff_toNat_le] at h
  have h48 : (48 : UInt8).toNat = 48 := rfl
  have h57 : (57 : UInt8).toNat = 57 := rfl
  simp only [isSpace, Bool.or_eq_false_iff, Bool.and_eq_false_iff, decide_eq_false_iff_not, UInt8.le_iff_toNat_le,
    ← UInt8.toNat_inj]
  refine ⟨⟨?_, .inr ?_⟩, ?_⟩ <;> simp <;> omega

theorem vsscanf_int {b : UInt8} (hw : w ≠ []) (hdig : ∀ b ∈ w, isDigit b = true) (hb : isDigit b = false) :
    vsscanf (.int :: ds) (w ++ b :: t) = .int (readNat w) :: vsscanf ds (b :: t) := by
  have hword : IsWord w := ⟨hw, fun b hb => isSpace_of_isDigit (hdig b hb)⟩
  rw [vsscanf, skipSpaces_word hword, readInt_digits hw hdig hb]

/-- The word of a text that a field directive takes after white space. -/
theorem vsscanf_str (ds : List Directive) (width : Nat) (hs : ∃ b ∈ s, isSpace b = false) :
    ∃ t, vsscanf (.space :: .str width :: ds) s = .str ((firstWord s).take width) :: vsscanf ds t := by
  have hne := skipSpaces_ne_nil.mpr hs
  have hskip : skipSpaces (skipSpaces s) = skipSpaces s := List.dropWhile_idempotent _ _
  exact ⟨_, by rw [vsscanf, vsscanf, if_neg hne, hskip]; rfl⟩

theorem vsscanf_skip (hs : ∃ b ∈ s, isSpace b = false) :
    vsscanf (.space :: .skip :: ds) s = vsscanf ds (afterWord s) := by
  rw [vsscanf, vsscanf, if_neg (skipSpaces_ne_nil.mpr hs)]
  rfl

theorem vsscanf_lit {b : UInt8} : vsscanf (.lit b :: ds) (b :: t) = vsscanf ds t := by simp [vsscanf]

/-- Directives that assign nothing. -/
theorem vsscanf_silent (h : ∀ d ∈ ds, d = .space ∨ d = .skip) : vsscanf ds s = [] := by
  induction ds generalizing s with
  | nil => rfl
  | cons d ds ih =>
    obtain ⟨hd, hds⟩ := List.forall_mem_cons.mp h
    rcases hd with rfl | rfl
    · rw [vsscanf, ih hds]
    · rw [vsscanf, ih hds, ite_self]

end Directives

end Scanf
