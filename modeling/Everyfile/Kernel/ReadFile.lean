import Everyfile.Bytes
import Everyfile.Lib.Loop
import Mathlib.Logic.Function.Basic

/-!
# Reading a whole file

`read_file_content` allocates `size` bytes, reads the file from its beginning into them, and is done if the read has
returned more than 0 and fewer than `size`; else it tries again. What it makes larger for the next round is the pointer
`real_size`, not `size`. So it returns the contents exactly for the files of 1 to `ALLOC_UNIT - 1` bytes
(`reads_whole_iff`), and for the others it does not return, with a store further beyond its caller's variable in each
round (`never_read`, `stores_beyond`).
-/

namespace Everyfile.Kernel

open Looping (run Ends Head)

/-- `1<<12`. -/
def ALLOC_UNIT : Nat := 4096

/-- The outcomes of `kmalloc`: for the `i`-th call, the contents of the new block, if there is one. -/
abbrev Kmalloc := (i size : Nat) → Option {block : List Byte // block.length = size}

/-- The variables of `read_file_content`, and the memory of its caller from `*real_size` on. -/
structure ReadState where
  round : Nat
  size : Nat
  /-- The pointer, as the number of ints from the caller's variable to its target. -/
  real_size : Nat
  buf : Option (List Byte)
  /-- The ints that have been stored to, counted from the caller's variable. -/
  ints : Nat → Option Int
  /-- The loop has been left by `break`. -/
  done : Bool

namespace ReadState

/-- Before the loop, after `*real_size = 0`. -/
def start : ReadState where
  round := 0
  size := ALLOC_UNIT
  real_size := 0
  buf := none
  ints := Function.update (fun _ => none) 0 (some 0)
  done := false

/-- The body of the loop, for a file with the given contents. A read at offset 0 returns as many bytes as fit. -/
def pass (kmalloc : Kmalloc) (content : List Byte) (s : ReadState) : ReadState :=
  match kmalloc s.round s.size with
  | none => { s with buf := none, done := true }
  | some block =>
    let n := min s.size content.length
    let buf := content.take n ++ block.1.drop n
    let s := { s with ints := Function.update s.ints s.real_size (some n) }
    if 0 < n ∧ n < s.size then { s with buf := some (buf.set n 0), done := true }
    else { s with real_size := s.real_size + ALLOC_UNIT, round := s.round + 1 }

def loop (kmalloc : Kmalloc) (content : List Byte) (s : ReadState) : Option ReadState :=
  if s.done then none else some (s.pass kmalloc content)

end ReadState

/-- `read_file_content`, of a file with the given contents; without them `filp_open` has failed. The buffer in the last
state is what it returns. -/
def readFileContent (kmalloc : Kmalloc) (file : Option (List Byte)) (fuel : Nat) : Option ReadState :=
  match file with
  | none => some { ReadState.start with ints := fun _ => none }
  | some content => run (ReadState.loop kmalloc content) fuel .start

/-- What a caller expects: a buffer with the contents and a NUL, the length in its variable, and no other store. -/
structure ReadsWhole (content : List Byte) (s : ReadState) : Prop where
  buf : ∃ b, s.buf = some b ∧ content ++ [0] <+: b
  size : s.ints 0 = some content.length
  others : ∀ p, p ≠ 0 → s.ints p = none

variable {kmalloc : Kmalloc} {content : List Byte} {s : ReadState}

/-- A buffer that is large enough gets the contents and the NUL. -/
theorem terminated_prefix {block : List Byte} (h : content.length < block.length) :
    content ++ [0] <+: (content ++ block.drop content.length).set content.length 0 := by
  obtain ⟨b, rest, hdrop⟩ := List.exists_cons_of_length_pos (l := block.drop content.length) (by simp; omega)
  rw [hdrop, List.set_append_right _ _ le_rfl, Nat.sub_self, List.set_cons_zero]
  exact ⟨rest, by simp⟩

/-- **A file that fits** is read in the first round. -/
theorem read_fits (halloc : ∀ i size, (kmalloc i size).isSome = true) (hpos : 0 < content.length)
    (hlt : content.length < ALLOC_UNIT) :
    ∃ fuel s, readFileContent kmalloc (some content) fuel = some s ∧ ReadsWhole content s := by
  obtain ⟨block, hblock⟩ := Option.isSome_iff_exists.mp (halloc 0 ALLOC_UNIT)
  have hmin : min ALLOC_UNIT content.length = content.length := by omega
  have hpass : ReadState.start.pass kmalloc content = { ReadState.start with
      buf := some ((content ++ block.1.drop content.length).set content.length 0)
      ints := Function.update ReadState.start.ints 0 (some (content.length : Int))
      done := true } := by
    simp [ReadState.pass, ReadState.start, hblock, hmin, hpos, hlt]
  have hends : Ends (ReadState.loop kmalloc content) .start (ReadState.start.pass kmalloc content) :=
    .pass rfl (.exit (by simp [ReadState.loop, hpass]))
  obtain ⟨fuel, hrun⟩ := Looping.ends_iff_run.mp hends
  refine ⟨fuel, _, hrun, ?_⟩
  rw [hpass]
  refine ⟨⟨_, rfl, terminated_prefix (by rw [block.2]; exact hlt)⟩, by simp, fun p hp => ?_⟩
  simp [ReadState.start, hp]

/-! ## Files that do not fit -/

/-- A round that reads nothing, or fills the buffer, is followed by another. -/
theorem pass_again (halloc : ∀ i size, (kmalloc i size).isSome = true) (hsize : s.size = ALLOC_UNIT)
    (hfit : ¬(0 < content.length ∧ content.length < ALLOC_UNIT)) : s.pass kmalloc content = { s with
      ints := Function.update s.ints s.real_size (some (min ALLOC_UNIT content.length : Nat))
      real_size := s.real_size + ALLOC_UNIT
      round := s.round + 1 } := by
  obtain ⟨block, hblock⟩ := Option.isSome_iff_exists.mp (halloc s.round s.size)
  have hagain : ¬(0 < min s.size content.length ∧ min s.size content.length < s.size) := by
    rw [hsize]
    simp only [ALLOC_UNIT] at hfit ⊢
    omega
  rw [ReadState.pass, hblock]
  simp only [hagain, if_false]
  rw [hsize]

/-- **A file that does not fit** is read for ever. -/
theorem never_read (halloc : ∀ i size, (kmalloc i size).isSome = true)
    (hfit : ¬(0 < content.length ∧ content.length < ALLOC_UNIT)) (fuel : Nat) :
    readFileContent kmalloc (some content) fuel = none := by
  by_contra h
  obtain ⟨u, hrun⟩ := Option.ne_none_iff_exists'.mp h
  refine Looping.not_ends_of_invariant (P := fun s : ReadState => s.size = ALLOC_UNIT ∧ s.done = false) ?_ ⟨rfl, rfl⟩
    (Looping.ends_iff_run.mpr ⟨fuel, hrun⟩)
  rintro s ⟨hsize, hdone⟩
  refine ⟨s.pass kmalloc content, by simp [ReadState.loop, hdone], ?_⟩
  rw [pass_again halloc hsize hfit]
  exact ⟨hsize, hdone⟩

/-- Each round stores further beyond the caller's variable. -/
theorem stores_beyond (halloc : ∀ i size, (kmalloc i size).isSome = true)
    (hfit : ¬(0 < content.length ∧ content.length < ALLOC_UNIT)) (k : Nat) :
    ∃ s, Head (ReadState.loop kmalloc content) .start s ∧ (s.ints (k * ALLOC_UNIT)).isSome = true := by
  suffices h : ∀ k, ∃ s, Head (ReadState.loop kmalloc content) .start s ∧ s.size = ALLOC_UNIT ∧ s.done = false ∧
      s.real_size = k * ALLOC_UNIT by
    obtain ⟨s, hhead, hsize, hdone, hptr⟩ := h k
    refine ⟨s.pass kmalloc content, hhead.tail (by simp [ReadState.loop, hdone]), ?_⟩
    rw [pass_again halloc hsize hfit, ← hptr]
    simp
  intro k
  induction k with
  | zero => exact ⟨.start, .refl, rfl, rfl, by simp [ReadState.start]⟩
  | succ k ih =>
    obtain ⟨s, hhead, hsize, hdone, hptr⟩ := ih
    refine ⟨s.pass kmalloc content, hhead.tail (by simp [ReadState.loop, hdone]), ?_⟩
    rw [pass_again halloc hsize hfit]
    exact ⟨hsize, hdone, by rw [hptr, Nat.succ_mul]⟩

/-- **When a file is read**: exactly if it has 1 to `ALLOC_UNIT - 1` bytes. -/
theorem reads_whole_iff (halloc : ∀ i size, (kmalloc i size).isSome = true) :
    (∃ fuel s, readFileContent kmalloc (some content) fuel = some s ∧ ReadsWhole content s) ↔
      0 < content.length ∧ content.length < ALLOC_UNIT := by
  constructor
  · rintro ⟨fuel, s, hrun, -⟩
    by_contra hfit
    rw [never_read halloc hfit] at hrun
    cases hrun
  · rintro ⟨hpos, hlt⟩
    exact read_fits halloc hpos hlt

/-- Blocks of zeros, always. -/
def zeroBlocks : Kmalloc := fun _ size => some ⟨List.replicate size 0, List.length_replicate⟩

theorem reads_whole_line : (∀ i size, (zeroBlocks i size).isSome = true) ∧
    ∃ fuel s, readFileContent zeroBlocks (some (bytes "abc")) fuel = some s ∧ ReadsWhole (bytes "abc") s :=
  ⟨fun _ _ => rfl, (reads_whole_iff fun _ _ => rfl).mpr ⟨by decide, by decide⟩⟩

/-- The empty file: no call returns, and the second round stores `ALLOC_UNIT` ints beyond the caller's variable. -/
theorem empty_never_read : (∀ fuel, readFileContent zeroBlocks (some []) fuel = none) ∧
    (∃ s, Head (ReadState.loop zeroBlocks []) .start s ∧ (s.ints ALLOC_UNIT).isSome = true) ∧
    ¬∃ fuel s, readFileContent zeroBlocks (some []) fuel = some s ∧ ReadsWhole [] s := by
  have halloc : ∀ i size, (zeroBlocks i size).isSome = true := fun _ _ => rfl
  have hnever : ∀ fuel, readFileContent zeroBlocks (some []) fuel = none := never_read halloc (by simp)
  have hbeyond : ∃ s, Head (ReadState.loop zeroBlocks []) .start s ∧ (s.ints (1 * ALLOC_UNIT)).isSome = true :=
    stores_beyond halloc (by simp) 1
  refine ⟨hnever, by simpa using hbeyond, ?_⟩
  rintro ⟨fuel, s, hrun, -⟩
  rw [hnever] at hrun
  cases hrun

end Everyfile.Kernel
