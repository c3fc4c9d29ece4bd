import Mathlib.Data.List.Infix

/-!
# `getopt_long`

The first call on the words of a command line, the first of which names the program. Words that are no options are
passed over. An option is a letter of the option string after a dash, or a long name after two dashes, which may be cut
where this leaves no doubt. Its argument is the rest of its word, or the next word (`found_arg`); `optind` is the number
of words passed and used up.
-/

namespace GetOpt

abbrev Word := List UInt8

/-- A letter of the option string, with or without a colon behind it. -/
structure Letter where
  val : UInt8
  hasArg : Bool
  deriving DecidableEq, Repr

/-- An entry of the table of long options. -/
structure Long where
  name : Word
  hasArg : Bool
  val : UInt8
  deriving DecidableEq, Repr

inductive Result
  | found (val : UInt8) (optarg : Option Word) (optind : Nat)
  /-- `?`: no such option, an ambiguous one, or an argument too many or missing. -/
  | unknown
  /-- -1: there is no option. -/
  | done
  deriving DecidableEq, Repr

/-- The dash is 45. -/
def isOption (w : Word) : Bool := w.head? = some 45 && w ≠ [45]

/-- The place of the first option. -/
def place (argv : List Word) : Nat := 1 + (argv.tail.takeWhile (!isOption ·)).length

/-- The long option of a name, exact or cut. -/
def longOption (longs : List Long) (name : Word) : Option Long :=
  match longs.find? (·.name = name) with
  | some l => some l
  | none =>
    match longs.filter (name <+: ·.name) with
    | [] => none
    | l :: ls => if ls.all fun l' => l'.hasArg = l.hasArg ∧ l'.val = l.val then some l else none

/-- An option that takes the next word as its argument. -/
def takeNext (argv : List Word) (val : UInt8) : Result :=
  match argv[place argv + 1]? with
  | some a => .found val (some a) (place argv + 2)
  | none => .unknown

/-- The name in `text`, and what stands behind an equality sign, which is 61. -/
def splitText : Word → Word × Option Word
  | [] => ([], none)
  | b :: text => if b = 61 then ([], some text) else (b :: (splitText text).1, (splitText text).2)

/-- An option `--text`. -/
def callLong (longs : List Long) (argv : List Word) (text : Word) : Result :=
  match longOption longs (splitText text).1, (splitText text).2 with
  | none, _ => .unknown
  | some l, some a => if l.hasArg then .found l.val (some a) (place argv + 1) else .unknown
  | some l, none => if l.hasArg then takeNext argv l.val else .found l.val none (place argv + 1)

/-- An option `-c` with more letters behind it; where it takes no argument these are options of later calls. -/
def callShort (letters : List Letter) (argv : List Word) (c : UInt8) (more : Word) : Result :=
  match letters.find? (·.val = c), more with
  | none, _ => .unknown
  | some o, [] => if o.hasArg then takeNext argv c else .found c none (place argv + 1)
  | some o, b :: bs => if o.hasArg then .found c (some (b :: bs)) (place argv + 1) else .found c none (place argv)

def call (letters : List Letter) (longs : List Long) (argv : List Word) : Result :=
  match argv[place argv]? with
  | some [45, 45] => .done
  | some (45 :: 45 :: text) => callLong longs argv text
  | some (45 :: c :: more) => callShort letters argv c more
  | _ => .done

/-- The option's word brings its argument with it. -/
def Attached : Word → Prop
  | 45 :: 45 :: text => 61 ∈ text
  | 45 :: _ :: more => more ≠ []
  | _ => False

instance : DecidablePred Attached := fun w => by
  unfold Attached
  split <;> infer_instance

variable {letters : List Letter} {longs : List Long} {argv : List Word} {val val' : UInt8} {a : Word} {n : Nat}

theorem attached_letter {c : UInt8} {more : Word} (hc : c ≠ 45) : Attached (45 :: c :: more) ↔ more ≠ [] := by
  unfold Attached
  split
  next h => simp_all
  next h => simp_all
  next h => exact absurd rfl (h c more)

theorem takeNext_found (h : takeNext argv val' = .found val (some a) n) :
    n = place argv + 2 ∧ argv[place argv + 1]? = some a := by
  unfold takeNext at h
  split at h
  next hnext =>
    cases h
    exact ⟨rfl, hnext⟩
  next => cases h

theorem splitText_none {text : Word} : (splitText text).2 = none ↔ 61 ∉ text := by
  induction text with
  | nil => simp [splitText]
  | cons b text ih =>
    rw [splitText]
    by_cases hb : b = 61
    · simp [hb]
    · simp [hb, ih, eq_comm]

theorem splitText_some {text : Word} (h : (splitText text).2 = some a) : text = (splitText text).1 ++ 61 :: a := by
  induction text with
  | nil => cases h
  | cons b text ih =>
    rw [splitText] at h ⊢
    by_cases hb : b = 61
    · simp_all
    · simp only [if_neg hb] at h ⊢
      rw [List.cons_append, ← ih h]

/-- The argument of a long option: what follows the equality sign, or the next word. -/
theorem callLong_found {text : Word} (h : callLong longs argv text = .found val (some a) n) :
    if 61 ∈ text then n = place argv + 1 ∧ ∃ name, text = name ++ 61 :: a
    else n = place argv + 2 ∧ argv[place argv + 1]? = some a := by
  unfold callLong at h
  split at h
  next => cases h
  next l a' _ heq =>
    have hmem : 61 ∈ text := by
      rw [splitText_some heq]
      simp
    rw [if_pos hmem]
    split at h
    · cases h
      exact ⟨rfl, _, splitText_some heq⟩
    · cases h
  next l _ hnone =>
    rw [if_neg (splitText_none.mp hnone)]
    split at h
    · exact takeNext_found h
    · cases h

/-- The argument of a letter: the rest of its word, or the next word. -/
theorem callShort_found {c : UInt8} {more : Word} (h : callShort letters argv c more = .found val (some a) n) :
    if more ≠ [] then n = place argv + 1 ∧ more = a
    else n = place argv + 2 ∧ argv[place argv + 1]? = some a := by
  unfold callShort at h
  split at h
  next => cases h
  next =>
    rw [if_neg (by simp)]
    split at h
    · exact takeNext_found h
    · cases h
  next =>
    rw [if_pos (by simp)]
    split at h
    · cases h
      exact ⟨rfl, rfl⟩
    · cases h

/-- **Where an argument stands**: with its option in one word, which it ends, or as the word after it. -/
theorem found_arg (h : call letters longs argv = .found val (some a) n) :
    ∃ w, argv[place argv]? = some w ∧ w.head? = some 45 ∧
      if Attached w then n = place argv + 1 ∧ ∃ p ≠ [], w = p ++ a
      else n = place argv + 2 ∧ argv[place argv + 1]? = some a := by
  unfold call at h
  split at h
  next => cases h
  next text _ hw =>
    refine ⟨_, hw, rfl, ?_⟩
    have hfound := callLong_found h
    have hatt : Attached (45 :: 45 :: text) ↔ 61 ∈ text := Iff.rfl
    simp only [hatt]
    split
    next hmem =>
      rw [if_pos hmem] at hfound
      obtain ⟨hn, name, rfl⟩ := hfound
      exact ⟨hn, 45 :: 45 :: (name ++ [61]), by simp, by simp⟩
    next hmem => simpa [hmem] using hfound
  next hno hw =>
    refine ⟨_, hw, rfl, ?_⟩
    have hfound := callShort_found h
    simp only [attached_letter hno]
    split
    next hmore =>
      rw [if_pos hmore] at hfound
      obtain ⟨hn, rfl⟩ := hfound
      exact ⟨hn, [45, _], by simp, rfl⟩
    next hmore => rwa [if_neg hmore] at hfound
  next => cases h

end GetOpt
