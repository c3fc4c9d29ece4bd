import Everyfile.Kernel.Mounts
import Everyfile.Lib.Scanf

/-!
# The mount table

`parse_mounts_info` goes through the text of `/proc/self/mountinfo` line by line, reads the device and the mount point
of each line with one `sscanf` and appends a partition unless the mount point is special. The text is rendered from
mount records by `mountinfo`: a line of fields for each record, with white space and backslashes in octal.

The loop stays in step with the lines whatever their fields hold, ends at the end of the text and takes from each line
the second word after the device, cut to 250 bytes (`parse_mountinfo`). The octal codes are not undone, so the mount
points come back exactly where that word is the mount point itself (`restored_iff_readable`): for special mount points,
and for those without white space and backslashes that fit the field (`MountRecord.readable_iff_fields`).
-/

namespace Everyfile.Kernel

open Scanf

/-! ## The parser -/

/-- `"%*d %*d %d:%d %*s %250s %*s %*s %*s %*s %*s %*s\n"`. -/
def mountFormat : List Directive :=
  [.skip, .space, .skip, .space, .int, .lit 58, .int, .space, .skip, .space, .str 250, .space, .skip, .space, .skip,
    .space, .skip, .space, .skip, .space, .skip, .space, .skip, .space]

/-- What `sscanf` assigns: `major`, `minor` and `mp`. -/
structure MountEntry where
  major : UInt32
  minor : UInt32
  mp : List Byte
  deriving DecidableEq, Repr

def scanEntry (line : List Byte) : Option MountEntry :=
  match vsscanf mountFormat line with
  | [.int major, .int minor, .str mp] => some ⟨UInt32.ofInt major, UInt32.ofInt minor, mp⟩
  | _ => none

/-- `strchr(line, '\n')+1`; without a line end the pointer leaves the text. -/
def nextLine : List Byte → Option (List Byte)
  | [] => none
  | b :: s => if b = 10 then some s else nextLine s

/-- The partition of an entry. -/
def MountEntry.partition (e : MountEntry) : KrpPartition := ⟨e.major.toUInt8, e.minor.toUInt8, e.mp⟩

/-- The rest of the loop's body; `alloc` is the outcome of its `kmalloc`. -/
def addPartition (alloc : Bool) (parts : List KrpPartition) (e : MountEntry) : List KrpPartition :=
  if isSpecialMp e.mp then parts else if alloc then parts ++ [e.partition] else parts

theorem length_nextLine_lt {line line' : List Byte} (h : nextLine line = some line') : line'.length < line.length := by
  induction line with
  | nil => cases h
  | cons b s ih =>
    rw [nextLine] at h
    split at h
    · cases h
      simp
    · exact (ih h).trans (by simp)

/-- The loop; `none` is a read outside the text. `alloc i` is the outcome of `kmalloc` in the `i`-th pass from here. -/
def parseLines (alloc : Nat → Bool) (line : List Byte) (parts : List KrpPartition) : Option (List KrpPartition) :=
  match scanEntry line with
  | none => some parts
  | some e =>
    if h : (nextLine line).isSome then
      parseLines (fun i => alloc (i + 1)) ((nextLine line).get h) (addPartition (alloc 0) parts e)
    else none
termination_by line.length
decreasing_by exact length_nextLine_lt (Option.some_get h).symm

/-- `parse_mounts_info`: the partitions after it. -/
def parseMountsInfo (alloc : Nat → Bool) (buf : Option (List Byte)) (parts : List KrpPartition) :
    Option (List KrpPartition) :=
  match buf with
  | none => some parts
  | some text => parseLines alloc (cstr text) parts

/-- The lines in whose pass `kmalloc` succeeds, or would. -/
def allocated {α : Type*} (alloc : Nat → Bool) : List α → List α
  | [] => []
  | a :: as =>
    let rest := allocated (fun i => alloc (i + 1)) as
    if alloc 0 then a :: rest else rest

section

variable {alloc : Nat → Bool} {line line' : List Byte} {parts : List KrpPartition} {e : MountEntry}

theorem parseLines_end (h : scanEntry line = none) : parseLines alloc line parts = some parts := by
  rw [parseLines, h]

/-- One pass of the loop. -/
theorem parseLines_line (h : scanEntry line = some e) (hn : nextLine line = some line') :
    parseLines alloc line parts = parseLines (fun i => alloc (i + 1)) line' (addPartition (alloc 0) parts e) := by
  rw [parseLines, h]
  simp [hn]

theorem foldl_addPartition (es : List MountEntry) (parts : List KrpPartition) :
    es.foldl (addPartition true) parts = parts ++ (es.filter (!isSpecialMp ·.mp)).map MountEntry.partition := by
  induction es generalizing parts with
  | nil => simp
  | cons e es ih =>
    rw [List.foldl_cons, ih, addPartition]
    by_cases h : isSpecialMp e.mp = true <;> simp [h]

theorem addPartition_false (parts : List KrpPartition) (e : MountEntry) : addPartition false parts e = parts := by
  simp [addPartition]

variable {α : Type*} {as : List α} {a : α}

@[simp] theorem allocated_true (as : List α) : allocated (fun _ => true) as = as := by
  induction as with
  | nil => rfl
  | cons a as ih => rw [allocated, ih, if_pos rfl]

end

/-! ## The text -/

/-- A line of the mount table before rendering. -/
structure MountRecord where
  id : Nat
  parent : Nat
  major : Nat
  minor : Nat
  root : List Byte
  mountPoint : List Byte
  options : List Byte
  optional : List (List Byte)
  fsType : List Byte
  source : List Byte
  superOptions : List Byte
  nulFree : ∀ f ∈ root :: mountPoint :: options :: fsType :: source :: superOptions :: optional, NulFree f
  /-- The root is not blank. -/
  root_visible : ∃ b ∈ root, isSpace b = false

/-- Space, tab, newline and backslash are written in octal. -/
def escapeByte (b : Byte) : List Byte :=
  if b = 32 ∨ b = 9 ∨ b = 10 ∨ b = 92 then [92, 48 + b / 64, 48 + b / 8 % 8, 48 + b % 8] else [b]

def escape (f : List Byte) : List Byte := f.flatMap escapeByte

namespace MountRecord

variable (r : MountRecord)

/-- The fields from the mount point on. -/
def fromMountPoint : List Byte :=
  escape r.mountPoint ++ bytes " " ++ escape r.options ++ r.optional.flatMap (fun o => bytes " " ++ escape o) ++
    bytes " - " ++ escape r.fsType ++ bytes " " ++ escape r.source ++ bytes " " ++ escape r.superOptions

/-- The fields after the device. -/
def afterDevice : List Byte := 32 :: (escape r.root ++ 32 :: r.fromMountPoint)

def line : List Byte :=
  decimal r.id ++ 32 :: (decimal r.parent ++ 32 ::
    (decimal r.major ++ 58 :: (decimal r.minor ++ r.afterDevice ++ [10])))

/-- The second word after the device, cut to the width of the field. -/
def read : List Byte := (firstWord (afterWord r.afterDevice)).take 250

/-- What the parser reads of the line. -/
def entry : MountEntry := ⟨UInt32.ofInt r.major, UInt32.ofInt r.minor, r.read⟩

end MountRecord

/-- The text of `/proc/self/mountinfo`. -/
def mountinfo (rs : List MountRecord) : List Byte := rs.flatMap MountRecord.line

/-! ## Fields -/

theorem mem_escape {f : List Byte} {b : Byte} (h : b ∈ escape f) :
    b ∈ f ∧ b ≠ 32 ∧ b ≠ 9 ∧ b ≠ 10 ∧ b ≠ 92 ∨ b = 92 ∨ 48 ≤ b ∧ b ≤ 55 := by
  obtain ⟨c, hc, hb⟩ := List.mem_flatMap.mp h
  unfold escapeByte at hb
  split at hb
  next hcase =>
    have hoct : ∀ c ∈ ([32, 9, 10, 92] : List Byte), ∀ b ∈ [92, 48 + c / 64, 48 + c / 8 % 8, 48 + c % 8],
        b = 92 ∨ 48 ≤ b ∧ b ≤ 55 := by decide +kernel
    exact .inr (hoct c (by simpa using hcase) b hb)
  next hcase =>
    obtain rfl : b = c := by simpa using hb
    simp only [not_or] at hcase
    exact .inl ⟨hc, hcase⟩

theorem newline_notMem_escape (f : List Byte) : 10 ∉ escape f := by
  intro h
  rcases mem_escape h with ⟨-, -, -, h, -⟩ | h | h
  · exact h rfl
  · exact absurd h (by decide)
  · exact absurd h (by decide)

theorem nulFree_escape {f : List Byte} (h : NulFree f) : NulFree (escape f) := by
  rintro b hb rfl
  rcases mem_escape hb with ⟨hf, -⟩ | h | h
  · exact h 0 hf rfl
  · exact absurd h (by decide)
  · exact absurd h (by decide)

/-- A field with nothing to write in octal. -/
theorem escape_eq_self {f : List Byte} (h : ∀ b ∈ f, b ≠ 32 ∧ b ≠ 9 ∧ b ≠ 10 ∧ b ≠ 92) : escape f = f := by
  rw [escape]
  conv_rhs => rw [← List.flatMap_singleton' f]
  refine List.flatMap_congr fun b hb => ?_
  obtain ⟨h32, h9, h10, h92⟩ := h b hb
  simp [escapeByte, h32, h9, h10, h92]

theorem escape_append (f g : List Byte) : escape (f ++ g) = escape f ++ escape g := List.flatMap_append

theorem length_le_escape (f : List Byte) : f.length ≤ (escape f).length := by
  induction f with
  | nil => exact Nat.zero_le _
  | cons b f ih =>
    have hb : 1 ≤ (escapeByte b).length := by
      unfold escapeByte
      split <;> simp
    rw [escape, List.flatMap_cons, List.length_append, List.length_cons]
    rw [escape] at ih
    omega

/-- A byte that is not white space is there after the rendering, or the backslash of its code. -/
theorem visible_escape {f : List Byte} (h : ∃ b ∈ f, isSpace b = false) : ∃ b ∈ escape f, isSpace b = false := by
  obtain ⟨b, hb, hvis⟩ := h
  by_cases hesc : b = 32 ∨ b = 9 ∨ b = 10 ∨ b = 92
  · exact ⟨92, List.mem_flatMap.mpr ⟨b, hb, by simp [escapeByte, hesc]⟩, by decide⟩
  · exact ⟨b, List.mem_flatMap.mpr ⟨b, hb, by simp [escapeByte, hesc]⟩, hvis⟩

theorem nextLine_append {s t : List Byte} (h : 10 ∉ s) : nextLine (s ++ 10 :: t) = some t := by
  induction s with
  | nil => simp [nextLine]
  | cons b s ih =>
    obtain ⟨hb, hs⟩ := not_or.mp (by simpa using h)
    rw [List.cons_append, nextLine, if_neg (Ne.symm hb), ih hs]

/-! ## One line -/

namespace MountRecord

variable (r : MountRecord)

/-- The line without its end. -/
def body : List Byte :=
  decimal r.id ++ 32 :: (decimal r.parent ++ 32 :: (decimal r.major ++ 58 :: (decimal r.minor ++ r.afterDevice)))

theorem line_eq (rest : List Byte) : r.line ++ rest = r.body ++ 10 :: rest := by simp [line, body]

theorem newline_notMem_body : 10 ∉ r.body := by
  have hdec : ∀ n, 10 ∉ decimal n := fun n h => absurd (mem_decimal h).1 (by decide)
  simp [body, afterDevice, fromMountPoint, hdec, newline_notMem_escape, bytes]

theorem nulFree_line : NulFree r.line := by
  have hesc : ∀ f ∈ r.root :: r.mountPoint :: r.options :: r.fsType :: r.source :: r.superOptions :: r.optional,
      0 ∉ escape f := fun f hf h0 => nulFree_escape (r.nulFree f hf) 0 h0 rfl
  have hdec : ∀ n, 0 ∉ decimal n := fun n h0 => nulFree_decimal n 0 h0 rfl
  have hline : 0 ∉ r.line := by
    simp only [List.forall_mem_cons] at hesc
    obtain ⟨h1, h2, h3, h4, h5, h6, hopt⟩ := hesc
    simp [line, afterDevice, fromMountPoint, hdec, h1, h2, h3, h4, h5, h6, bytes]
    exact hopt
  rintro b hb rfl
  exact hline hb

/-- After the root there is still the separator. -/
theorem visible_afterWord : ∃ b ∈ afterWord r.afterDevice, isSpace b = false := by
  have hroot : ∃ b ∈ 32 :: escape r.root, isSpace b = false := by
    obtain ⟨b, hb, hvis⟩ := visible_escape r.root_visible
    exact ⟨b, by simp [hb], hvis⟩
  rw [afterDevice, ← List.cons_append, afterWord_append hroot (by decide)]
  exact ⟨45, by simp [fromMountPoint, bytes], by decide⟩

theorem visible_afterDevice : ∃ b ∈ r.afterDevice, isSpace b = false := by
  obtain ⟨b, hb, hvis⟩ := r.visible_afterWord
  exact ⟨b, ((List.dropWhile_suffix _).trans (List.dropWhile_suffix _)).subset hb, hvis⟩

/-- **The read of one line** does not depend on the lines that follow. -/
theorem scanEntry_line (rest : List Byte) : scanEntry (r.line ++ rest) = some r.entry := by
  have hdig : ∀ n, ∀ b ∈ decimal n, isDigit b = true := by
    intro n b hb
    obtain ⟨hlo, hhi⟩ := mem_decimal hb
    simp [isDigit, hlo, hhi]
  have hword : ∀ n, IsWord (decimal n) := fun n =>
    ⟨decimal_ne_nil n, fun b hb => isSpace_of_isDigit (hdig n b hb)⟩
  have hval : ∀ n, readNat (decimal n) = n := fun n => by
    rw [readNat, map_char_decimal, Nat.ofDigitChars_ten_toDigits]
  have hvis : ∃ b ∈ afterWord r.afterDevice ++ 10 :: rest, isSpace b = false := by
    obtain ⟨b, hb, hvis⟩ := r.visible_afterWord
    exact ⟨b, by simp [hb], hvis⟩
  have hdev : ∃ b ∈ r.afterDevice ++ 10 :: rest, isSpace b = false := by
    obtain ⟨b, hb, hvis⟩ := r.visible_afterDevice
    exact ⟨b, by simp [hb], hvis⟩
  have hdevice : r.afterDevice ++ 10 :: rest = 32 :: (escape r.root ++ 32 :: (r.fromMountPoint ++ 10 :: rest)) := by
    simp [afterDevice]
  have hargs : vsscanf mountFormat (r.line ++ rest) = [.int r.major, .int r.minor, .str r.read] := by
    have hfmt : mountFormat = .skip :: .space :: .skip :: .space :: .int :: .lit 58 :: .int :: .space :: .skip ::
        .space :: .str 250 :: mountFormat.drop 11 := rfl
    rw [line_eq, body]
    simp only [List.append_assoc, List.cons_append]
    rw [hfmt, vsscanf_skip_word (hword _) (by decide), skipSpaces_word (hword _),
      vsscanf_skip_word (hword _) (by decide), skipSpaces_word (hword _),
      vsscanf_int (decimal_ne_nil _) (hdig _) (by decide), hval, vsscanf_lit, hdevice,
      vsscanf_int (decimal_ne_nil _) (hdig _) (by decide), hval, ← hdevice, vsscanf_skip hdev,
      afterWord_append r.visible_afterDevice (by decide)]
    obtain ⟨t, ht⟩ := vsscanf_str (mountFormat.drop 11) 250 hvis
    rw [ht, vsscanf_silent (by decide), firstWord_append r.visible_afterWord (by decide)]
    rfl
  rw [scanEntry, hargs]
  rfl

/-- The loop's pass over the line. -/
theorem parseLines_cons (alloc : Nat → Bool) (rest : List Byte) (parts : List KrpPartition) :
    parseLines alloc (r.line ++ rest) parts =
      parseLines (fun i => alloc (i + 1)) rest (addPartition (alloc 0) parts r.entry) :=
  parseLines_line (r.scanEntry_line rest) (by rw [line_eq, nextLine_append r.newline_notMem_body])

end MountRecord

/-! ## The whole text -/

theorem parseLines_mountinfo (alloc : Nat → Bool) (rs : List MountRecord) (parts : List KrpPartition) :
    parseLines alloc (mountinfo rs) parts =
      some (((allocated alloc rs).map MountRecord.entry).foldl (addPartition true) parts) := by
  induction rs generalizing alloc parts with
  | nil => exact parseLines_end rfl
  | cons r rs ih =>
    have hrest := ih (fun i => alloc (i + 1)) (addPartition (alloc 0) parts r.entry)
    rw [mountinfo] at hrest
    rw [mountinfo, List.flatMap_cons, r.parseLines_cons, hrest, allocated]
    cases alloc 0 with
    | true => rfl
    | false => rw [addPartition_false, if_neg Bool.false_ne_true]

theorem nulFree_mountinfo (rs : List MountRecord) : NulFree (mountinfo rs) := by
  intro b hb
  obtain ⟨r, -, hb⟩ := List.mem_flatMap.mp hb
  exact r.nulFree_line b hb

/-- **The run of the parser**: it stays in the text and appends the partitions of the entries it reads, where it gets
them allocated. -/
theorem parse_mountinfo (alloc : Nat → Bool) (rs : List MountRecord) (parts : List KrpPartition) :
    parseMountsInfo alloc (some (mountinfo rs)) parts = some (parts ++
      (((allocated alloc rs).map MountRecord.entry).filter (!isSpecialMp ·.mp)).map MountEntry.partition) := by
  rw [parseMountsInfo, cstr_of_nulFree (nulFree_mountinfo rs), parseLines_mountinfo, foldl_addPartition]

/-- A record whose paths need no care: the root is one word of the line, the mount point an absolute path without white
space and backslashes that fits the field, the device one of 12 and 20 bits. -/
structure MountRecord.Plain (r : MountRecord) : Prop where
  root : ∀ b ∈ escape r.root, isSpace b = false
  abs : r.mountPoint.head? = some 47
  unescaped : ∀ b ∈ r.mountPoint, isSpace b = false ∧ b ≠ 92
  length_le : r.mountPoint.length ≤ 250
  major_lt : r.major < 4096
  minor_lt : r.minor < 1048576

/-- Where the root is one word of the line, the mount point is read up to white space. -/
theorem MountRecord.read_eq {r : MountRecord} (hroot : ∀ b ∈ escape r.root, isSpace b = false)
    (habs : r.mountPoint.head? = some 47) : r.read = (word (escape r.mountPoint)).take 250 := by
  have hspace : isSpace 32 = true := rfl
  have hword : IsWord (escape r.root) := by
    obtain ⟨b, hb, -⟩ := visible_escape r.root_visible
    exact ⟨List.ne_nil_of_mem hb, hroot⟩
  obtain ⟨t, ht⟩ : ∃ t, r.fromMountPoint = escape r.mountPoint ++ 32 :: t := ⟨_, by simp [fromMountPoint, bytes]; rfl⟩
  obtain ⟨s, hs⟩ : ∃ s, escape r.mountPoint = 47 :: s := by
    obtain ⟨m, hm⟩ := List.head?_eq_some_iff.mp habs
    exact ⟨escape m, by rw [hm]; rfl⟩
  rw [read, afterDevice, afterWord_word hspace hword hspace, ht, firstWord, skipSpaces_space hspace, hs,
    List.cons_append, skipSpaces_of_head (by decide), ← List.cons_append, word_append_space hspace]

/-- Bytes that are neither white space nor a backslash are written as they are. -/
theorem escape_visible {f : List Byte} (h : ∀ b ∈ f, isSpace b = false) (h92 : 92 ∉ f) : escape f = f := by
  refine escape_eq_self fun b hb => ⟨?_, ?_, ?_, ?_⟩
  all_goals
    rintro rfl
    first
      | exact h92 hb
      | cases h _ hb

theorem MountRecord.Plain.read_eq {r : MountRecord} (h : r.Plain) : r.read = r.mountPoint := by
  have hvis : ∀ b ∈ r.mountPoint, isSpace b = false := fun b hb => (h.unescaped b hb).1
  rw [MountRecord.read_eq h.root h.abs, escape_visible hvis fun hb => (h.unescaped _ hb).2 rfl, word_of_isWord hvis,
    List.take_of_length_le h.length_le]

/-! ## What comes back -/

/-- With every allocation succeeding the parser appends one partition for each record whose mount point is not special,
in order, under that mount point. -/
def Restored (rs : List MountRecord) : Prop :=
  ∀ parts, ∃ new, parseMountsInfo (fun _ => true) (some (mountinfo rs)) parts = some (parts ++ new) ∧
    new.map KrpPartition.root = (rs.map MountRecord.mountPoint).filter (!isSpecialMp ·)

/-- The word read is the mount point, or both are special. -/
def MountRecord.Readable (r : MountRecord) : Prop :=
  if isSpecialMp r.mountPoint then isSpecialMp r.read = true else r.read = r.mountPoint

theorem restored_iff {rs : List MountRecord} : Restored rs ↔
    (rs.map MountRecord.read).filter (!isSpecialMp ·) = (rs.map MountRecord.mountPoint).filter (!isSpecialMp ·) := by
  have hroots : (((rs.map MountRecord.entry).filter (!isSpecialMp ·.mp)).map MountEntry.partition).map
      KrpPartition.root = (rs.map MountRecord.read).filter (!isSpecialMp ·) := by
    simp only [List.filter_map, List.map_map]
    rfl
  rw [← hroots]
  constructor
  · intro h
    obtain ⟨new, hnew, hroot⟩ := h []
    rw [parse_mountinfo, allocated_true, Option.some_inj, List.append_cancel_left_eq] at hnew
    rw [hnew, hroot]
  · exact fun h parts => ⟨_, by rw [parse_mountinfo, allocated_true], h⟩

theorem MountRecord.readable_iff {r : MountRecord} :
    r.Readable ↔ [r.read].filter (!isSpecialMp ·) = [r.mountPoint].filter (!isSpecialMp ·) := by
  unfold Readable
  by_cases hmp : isSpecialMp r.mountPoint = true
  · simp [hmp]
  · by_cases hread : isSpecialMp r.read = true
    · have hne : r.read ≠ r.mountPoint := fun h => hmp (h ▸ hread)
      simp [hmp, hread, hne]
    · simp [hmp, hread]

/-- **When the mount points come back**: a table and the tables that begin it are restored exactly if each record's
mount point can be read. -/
theorem restored_iff_readable (rs : List MountRecord) :
    (∀ rs', rs' <+: rs → Restored rs') ↔ ∀ r ∈ rs, r.Readable := by
  simp only [restored_iff, MountRecord.readable_iff]
  constructor
  · intro h r hr
    -- the record is the last one of a table that begins this one
    obtain ⟨a, b, rfl⟩ := List.append_of_mem hr
    have ha := h a (List.prefix_append a _)
    have har := h (a ++ [r]) ⟨b, by simp⟩
    simp only [List.map_append, List.filter_append, ha] at har
    exact List.append_cancel_left har
  · rintro h rs' ⟨t, rfl⟩
    induction rs' with
    | nil => rfl
    | cons r rs' ih =>
      have hr := h r (by simp)
      have hrs := ih fun r' hr' => h r' (by simp at hr' ⊢; tauto)
      rw [← List.singleton_append, List.map_append, List.map_append, List.filter_append, List.filter_append, hrs]
      exact congrArg (· ++ _) hr

/-! ## The condition on the fields -/

/-- The digits of the backslash's code, `n` times. -/
def codes (n : Nat) : List Byte := (List.replicate n (bytes "134")).flatten

/-- What follows the first backslash repeats the digits of its code. -/
def SpelledOut (f : List Byte) : Prop := ∃ a t n, f = a ++ 92 :: t ∧ 92 ∉ a ∧ t <+: codes n

section Fields

variable {f t : List Byte} {k n width : Nat}

theorem codes_succ (n : Nat) : codes (n + 1) = bytes "134" ++ codes n := by
  rw [codes, List.replicate_succ, List.flatten_cons, codes]

theorem codes_concat (n : Nat) : codes (n + 1) = codes n ++ bytes "134" := by
  rw [codes, List.replicate_succ', List.flatten_concat, codes]

/-- The digits are written as they are. -/
theorem escape_codes (h : t <+: codes n) : escape t = t := by
  have hdigits : ∀ b ∈ bytes "134", b ≠ 32 ∧ b ≠ 9 ∧ b ≠ 10 ∧ b ≠ 92 := by simp [bytes]
  refine escape_eq_self fun b hb => ?_
  obtain ⟨l, hl, hb⟩ := List.mem_flatten.mp (h.subset hb)
  rw [List.eq_of_mem_replicate hl] at hb
  exact hdigits b hb

/-- A rest that is what is read of the code and of itself has all the room there is. -/
theorem length_of_take_code (h : (bytes "134" ++ escape t).take k = t) : t.length = k := by
  have hle := length_le_escape t
  have hlen := congrArg List.length h
  have hcode : (bytes "134").length = 3 := rfl
  rw [List.length_take, List.length_append, hcode] at hlen
  omega

/-- Such a rest begins with the code, and what follows it there is such a rest again. -/
theorem codes_of_take_code (h : (bytes "134" ++ escape t).take k = t) : ∃ n, t <+: codes n := by
  have hcode : (bytes "134").length = 3 := rfl
  induction k using Nat.strong_induction_on generalizing t with
  | _ k ih =>
    by_cases hk : k ≤ 3
    · refine ⟨1, ?_⟩
      rw [← h, List.take_append_of_le_length (by rw [hcode]; exact hk)]
      exact List.take_prefix k (bytes "134")
    · obtain ⟨j, rfl⟩ : ∃ j, k = 3 + j := ⟨k - 3, by omega⟩
      have ht : t = bytes "134" ++ (escape t).take j := by
        rw [← hcode, List.take_length_add_append] at h
        exact h.symm
      generalize hu : (escape t).take j = u at ht
      have hesc : escape t = bytes "134" ++ escape u := by
        rw [ht, escape_append]
        rfl
      obtain ⟨n, hn⟩ := ih j (by omega) (hesc ▸ hu)
      refine ⟨n + 1, ?_⟩
      rw [ht, codes_succ]
      exact (List.prefix_append_right_inj _).mpr hn

/-- A repetition of the code is what is read of the code and of itself. -/
theorem take_code_of_codes (h : t <+: codes n) : (bytes "134" ++ escape t).take t.length = t := by
  have hcons : bytes "134" ++ t <+: codes (n + 1) := by
    rw [codes_succ]
    exact (List.prefix_append_right_inj _).mpr h
  have hself : t <+: codes (n + 1) := by
    rw [codes_concat]
    exact h.trans (List.prefix_append _ _)
  have hprefix : t <+: bytes "134" ++ t := List.prefix_of_prefix_length_le hself hcons (by simp)
  rw [escape_codes h]
  exact (List.prefix_iff_eq_take.mp hprefix).symm

/-- Of a field without white space the word is all that is written. -/
theorem word_escape (h : ∀ b ∈ f, isSpace b = false) : word (escape f) = escape f := by
  refine word_of_isWord fun b hb => ?_
  rcases mem_escape hb with ⟨hb, -⟩ | rfl | ⟨hlo, hhi⟩
  · exact h b hb
  · rfl
  · have hle : b ≤ 57 := UInt8.le_trans hhi (by decide)
    exact isSpace_of_isDigit (by simp [isDigit, hlo, hle])

/-- **What is read of a field**: itself, if it has no white space and no backslash and fits. A backslash may only stand
in a field of full length whose rest happens to be what is read of the code. -/
theorem take_word_eq_iff : (word (escape f)).take width = f ↔
    (∀ b ∈ f, isSpace b = false) ∧ f.length ≤ width ∧ (92 ∉ f ∨ f.length = width ∧ SpelledOut f) := by
  -- the field is taken apart at its first backslash
  have hsplit : ∀ a t, 92 ∉ a → f = a ++ 92 :: t → (∀ b ∈ f, isSpace b = false) →
      escape f = a ++ 92 :: (bytes "134" ++ escape t) := by
    rintro a t ha rfl hvis
    rw [escape_append, escape_visible (fun b hb => hvis b (by simp [hb])) ha]
    rfl
  constructor
  · intro h
    have hvis : ∀ b ∈ f, isSpace b = false := by
      intro b hb
      rw [← h] at hb
      simpa using List.mem_takeWhile_imp (List.mem_of_mem_take hb)
    have hle : f.length ≤ width := by
      rw [← h]
      exact List.length_take_le _ _
    refine ⟨hvis, hle, or_iff_not_imp_left.mpr fun hmem => ?_⟩
    obtain ⟨a, t, hf, ha⟩ := List.eq_append_cons_of_mem (not_not.mp hmem)
    obtain ⟨k, rfl⟩ : ∃ k, width = a.length + (k + 1) := ⟨width - a.length - 1, by
      rw [hf, List.length_append, List.length_cons] at hle
      omega⟩
    rw [word_escape hvis, hsplit a t ha hf hvis, List.take_length_add_append, List.take_succ_cons] at h
    have hcode := (List.cons.inj (List.append_cancel_left (h.trans hf))).2
    obtain ⟨n, hn⟩ := codes_of_take_code hcode
    exact ⟨by simp [hf, length_of_take_code hcode], a, t, n, hf, ha, hn⟩
  · rintro ⟨hvis, hle, h92 | ⟨hlen, a, t, n, hf, ha, hn⟩⟩
    · rw [word_escape hvis, escape_visible hvis h92, List.take_of_length_le hle]
    · have hwidth : width = a.length + (t.length + 1) := by simp [← hlen, hf]
      rw [word_escape hvis, hsplit a t ha hf hvis, hwidth, List.take_length_add_append, List.take_succ_cons,
        take_code_of_codes hn, hf]

end Fields

/-- A special mount point may be cut, but not so that it is special no more. -/
theorem isSpecialMp_take_word {mp : List Byte} (habs : mp.head? = some 47) (h : isSpecialMp mp = true) :
    isSpecialMp ((word (escape mp)).take 250) = true := by
  obtain ⟨d, hd, hu⟩ := (isSpecialMp_iff habs).mp h
  have hdirs : ∀ d ∈ specialDirs, d.head? = some 47 ∧ (∀ b ∈ d, isSpace b = false) ∧ escape d = d ∧ d.length ≤ 5 := by
    decide +kernel
  obtain ⟨hhead, hvis, hesc, hlen⟩ := hdirs d hd
  have hword : ∀ s, word (d ++ s) = d ++ word s := fun s => List.takeWhile_append_of_pos (by simpa using hvis)
  have hunder : Under d ((word (escape mp)).take 250) := by
    rcases hu with rfl | ⟨s, rfl⟩
    · rw [hesc, word_of_isWord hvis, List.take_of_length_le (by omega)]
      exact .inl rfl
    · have hcons : word (escape (bytes "/" ++ s)) = bytes "/" ++ word (escape s) := rfl
      rw [List.append_assoc, escape_append, hesc, hword, hcons, ← List.append_assoc, List.take_append,
        List.take_of_length_le (by simp [bytes]; omega)]
      exact .inr (List.prefix_append _ _)
  refine (isSpecialMp_iff ?_).mpr ⟨d, hd, hunder⟩
  rcases hunder with h | ⟨s, h⟩
  · rw [h, hhead]
  · rw [← h, List.append_assoc, List.head?_append, hhead]
    rfl

/-- **The condition on the fields**, where the root is one word of the line and the mount point absolute. -/
theorem MountRecord.readable_iff_fields {r : MountRecord} (hroot : ∀ b ∈ escape r.root, isSpace b = false)
    (habs : r.mountPoint.head? = some 47) : r.Readable ↔ isSpecialMp r.mountPoint = true ∨
      (∀ b ∈ r.mountPoint, isSpace b = false) ∧ r.mountPoint.length ≤ 250 ∧
        (92 ∉ r.mountPoint ∨ r.mountPoint.length = 250 ∧ SpelledOut r.mountPoint) := by
  rw [Readable, MountRecord.read_eq hroot habs]
  split
  next hs => simp [hs, isSpecialMp_take_word habs hs]
  next hs => rw [or_iff_right hs, take_word_eq_iff]

theorem slash_visible : ∃ b ∈ bytes "/", isSpace b = false := by decide

/-- A mount point with a space in its name is read with the octal code of the space. -/
def spaceRecord : MountRecord where
  id := 36
  parent := 35
  major := 8
  minor := 1
  root := bytes "/"
  mountPoint := bytes "/my disk"
  options := bytes "rw"
  optional := []
  fsType := bytes "ext4"
  source := bytes "/dev/sda1"
  superOptions := bytes "rw"
  nulFree := by decide
  root_visible := slash_visible

theorem octal_kept : parseMountsInfo (fun _ => true) (some (mountinfo [spaceRecord])) [] =
    some [⟨8, 1, bytes "/my\\040disk"⟩] ∧ ¬Restored [spaceRecord] := by
  have hread : spaceRecord.read = bytes "/my\\040disk" := by decide
  refine ⟨?_, fun h => ?_⟩
  · rw [parse_mountinfo]
    decide
  · rw [restored_iff] at h
    simp only [List.map_cons, List.map_nil, hread] at h
    exact absurd h (by decide)

end Everyfile.Kernel
