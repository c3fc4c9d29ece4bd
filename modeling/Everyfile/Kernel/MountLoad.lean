import Everyfile.Kernel.ReadFile
import Everyfile.Kernel.Report

/-!
# From the mount table to the reports

`init_mounts_info` reads `/proc/self/mountinfo` with `read_file_content` and parses what that returns. With a text of 1
to `ALLOC_UNIT - 1` bytes and a first block it fills the partitions as the parser does, with those lines whose partition
gets allocated; if the first allocation fails the list stays empty; and any other text is read again and again until an
allocation fails, and then the list is empty too (`init_mounts_info_iff`). The probes report by the list that is left:
by the first entry that agrees with the device, or nothing at all. The stores of the later rounds, beyond the caller's
variable, are not among the partitions.
-/

namespace Everyfile.Kernel

open Looping (Ends)

/-- The text is read in one round. -/
def Fits (text : List Byte) : Prop := 0 < text.length ∧ text.length < ALLOC_UNIT

instance (text : List Byte) : Decidable (Fits text) := inferInstanceAs (Decidable (_ ∧ _))

/-- `init_mounts_info` on the contents of its file: the partitions after it. `kmalloc` is for the buffers, `alloc` for
the partitions. -/
def initMountsInfo (kmalloc : Kmalloc) (alloc : Nat → Bool) (file : Option (List Byte)) (fuel : Nat) :
    Option (List KrpPartition) :=
  (readFileContent kmalloc file fuel).bind fun s => parseMountsInfo alloc s.buf []

/-- The lines of a table that come to the list, the special ones among them aside. -/
def entered (kmalloc : Kmalloc) (alloc : Nat → Bool) (rs : List MountRecord) : List MountRecord :=
  if Fits (mountinfo rs) ∧ (kmalloc 0 ALLOC_UNIT).isSome = true then allocated alloc rs else []

variable {kmalloc : Kmalloc} {alloc : Nat → Bool} {content : List Byte} {s u : ReadState}

/-! ## The rounds of `read_file_content` -/

/-- A round whose allocation fails is the last. -/
theorem ends_pass (h : kmalloc s.round s.size = none) (hdone : s.done = false) :
    Ends (ReadState.loop kmalloc content) s { s with buf := none, done := true } := by
  have hpass : ReadState.loop kmalloc content s = some { s with buf := none, done := true } := by
    simp [ReadState.loop, hdone, ReadState.pass, h]
  exact .pass hpass (.exit rfl)

/-- A text that fits is read in the first round. -/
theorem ends_fits (h : (kmalloc 0 ALLOC_UNIT).isSome = true) (hfit : Fits content) :
    ∃ u b, Ends (ReadState.loop kmalloc content) .start u ∧ u.buf = some b ∧ content ++ [0] <+: b := by
  obtain ⟨block, hblock⟩ := Option.isSome_iff_exists.mp h
  have hmin : min ALLOC_UNIT content.length = content.length := Nat.min_eq_right hfit.2.le
  have hpass : ReadState.start.pass kmalloc content = { ReadState.start with
      buf := some ((content ++ block.1.drop content.length).set content.length 0)
      ints := Function.update ReadState.start.ints 0 (some (content.length : Int))
      done := true } := by
    simp [ReadState.pass, ReadState.start, hblock, hmin, hfit.1, hfit.2]
  refine ⟨_, _, .pass rfl (.exit (by simp [ReadState.loop, hpass])), by rw [hpass], ?_⟩
  exact terminated_prefix (by rw [block.2]; exact hfit.2)

/-- A round that does not fit, with a block, is followed by another. -/
theorem pass_goes_on (h : (kmalloc s.round ALLOC_UNIT).isSome = true) (hsize : s.size = ALLOC_UNIT)
    (hfit : ¬Fits content) : (s.pass kmalloc content).round = s.round + 1 ∧ (s.pass kmalloc content).size = ALLOC_UNIT ∧
      (s.pass kmalloc content).done = s.done := by
  rw [← hsize] at h
  obtain ⟨block, hblock⟩ := Option.isSome_iff_exists.mp h
  have hagain : ¬(0 < min s.size content.length ∧ min s.size content.length < s.size) := by
    rw [hsize]
    simp only [Fits, ALLOC_UNIT] at hfit ⊢
    omega
  rw [ReadState.pass, hblock]
  simp only [hagain, if_false]
  exact ⟨trivial, hsize, trivial⟩

/-- The reading ends in the round of the first allocation that fails. -/
theorem ends_failed {i d : Nat} (hbefore : ∀ j < i, (kmalloc j ALLOC_UNIT).isSome = true)
    (hi : kmalloc i ALLOC_UNIT = none) (hfit : ¬Fits content ∨ d = 0) (hsize : s.size = ALLOC_UNIT)
    (hdone : s.done = false) (hround : s.round + d = i) :
    ∃ u, Ends (ReadState.loop kmalloc content) s u ∧ u.buf = none := by
  induction d generalizing s with
  | zero =>
    have hnone : kmalloc s.round s.size = none := by
      rw [hsize, ← hi, ← hround, Nat.add_zero]
    exact ⟨_, ends_pass hnone hdone, rfl⟩
  | succ d ih =>
    have hnot : ¬Fits content := hfit.resolve_right (Nat.succ_ne_zero d)
    obtain ⟨hround', hsize', hdone'⟩ := pass_goes_on (hbefore s.round (by omega)) hsize hnot
    obtain ⟨u, hu, hbuf⟩ := ih (.inl hnot) hsize' (hdone'.trans hdone) (by omega)
    exact ⟨u, .pass (by simp [ReadState.loop, hdone]) hu, hbuf⟩

/-- Without a failure a text that does not fit is read for ever. -/
theorem not_ends (hall : ∀ i, (kmalloc i ALLOC_UNIT).isSome = true) (hfit : ¬Fits content) :
    ¬Ends (ReadState.loop kmalloc content) .start u := by
  refine Looping.not_ends_of_invariant (P := fun s : ReadState => s.size = ALLOC_UNIT ∧ s.done = false) ?_ ⟨rfl, rfl⟩
  rintro s ⟨hsize, hdone⟩
  obtain ⟨-, hsize', hdone'⟩ := pass_goes_on (hall s.round) hsize hfit
  exact ⟨s.pass kmalloc content, by simp [ReadState.loop, hdone], hsize', hdone'.trans hdone⟩

/-- Otherwise it ends without a buffer, if an allocation fails. -/
theorem ends_null (h : ∃ i, kmalloc i ALLOC_UNIT = none)
    (hread : ¬(Fits content ∧ (kmalloc 0 ALLOC_UNIT).isSome = true)) :
    ∃ u, Ends (ReadState.loop kmalloc content) .start u ∧ u.buf = none := by
  have hfirst := Nat.find_spec h
  have hbefore : ∀ j < Nat.find h, (kmalloc j ALLOC_UNIT).isSome = true := fun j hj => by
    rw [Option.isSome_iff_ne_none]
    exact Nat.find_min h hj
  refine ends_failed hbefore hfirst ?_ rfl rfl (Nat.zero_add _)
  by_cases hfit : Fits content
  · -- the first allocation fails
    refine .inr ((Nat.find_eq_zero h).mpr ?_)
    simpa [hfit] using hread
  · exact .inl hfit

/-- **When the file is read to an end.** -/
theorem ends_iff_fits : (∃ u, Ends (ReadState.loop kmalloc content) .start u) ↔
    Fits content ∨ ∃ i, kmalloc i ALLOC_UNIT = none := by
  constructor
  · rintro ⟨u, hu⟩
    by_contra hnot
    obtain ⟨hfit, hsome⟩ := not_or.mp hnot
    refine not_ends (fun i => ?_) hfit hu
    rw [Option.isSome_iff_ne_none]
    exact fun hi => hsome ⟨i, hi⟩
  · intro h
    by_cases hread : Fits content ∧ (kmalloc 0 ALLOC_UNIT).isSome = true
    · obtain ⟨u, -, hu, -⟩ := ends_fits hread.2 hread.1
      exact ⟨u, hu⟩
    · have hfail : ∃ i, kmalloc i ALLOC_UNIT = none := by
        refine h.elim (fun hfit => ⟨0, ?_⟩) id
        simpa [hfit] using hread
      obtain ⟨u, hu, -⟩ := ends_null hfail hread
      exact ⟨u, hu⟩

/-- **The buffer returned**: the text and a NUL, or null. -/
theorem buf_of_ends (hu : Ends (ReadState.loop kmalloc content) .start u) :
    if Fits content ∧ (kmalloc 0 ALLOC_UNIT).isSome = true then ∃ b, u.buf = some b ∧ content ++ [0] <+: b
    else u.buf = none := by
  split
  next hread =>
    obtain ⟨v, b, hv, hbuf, hb⟩ := ends_fits hread.2 hread.1
    obtain rfl := hu.unique hv
    exact ⟨b, hbuf, hb⟩
  next hread =>
    have hfail : ∃ i, kmalloc i ALLOC_UNIT = none := by
      refine (ends_iff_fits.mp ⟨u, hu⟩).elim (fun hfit => ⟨0, ?_⟩) id
      simpa [hfit] using hread
    obtain ⟨v, hv, hbuf⟩ := ends_null hfail hread
    obtain rfl := hu.unique hv
    exact hbuf

/-! ## The module's partitions -/

/-- The parser does not look behind the NUL. -/
theorem parse_terminated (rs : List MountRecord) {b : List Byte} (hb : mountinfo rs ++ [0] <+: b) :
    parseMountsInfo alloc (some b) [] = some (load ((allocated alloc rs).map MountRecord.entry)) := by
  obtain ⟨rest, rfl⟩ := hb
  have hcstr : cstr (mountinfo rs ++ [0] ++ rest) = mountinfo rs := by
    have hnul := nulFree_mountinfo rs
    rw [List.append_assoc, cstr, List.takeWhile_append_of_pos (by simpa [NulFree] using hnul)]
    simp
  rw [parseMountsInfo, hcstr, parseLines_mountinfo, load]

/-- What is parsed of the buffer. -/
theorem parse_of_ends {rs : List MountRecord} (hu : Ends (ReadState.loop kmalloc (mountinfo rs)) .start u) :
    parseMountsInfo alloc u.buf [] = some (load ((entered kmalloc alloc rs).map MountRecord.entry)) := by
  have hbuf := buf_of_ends hu
  unfold entered
  split at hbuf
  next hread =>
    obtain ⟨b, hb, hprefix⟩ := hbuf
    rw [hb, parse_terminated rs hprefix, if_pos hread]
  next hread =>
    rw [hbuf, if_neg hread]
    rfl

/-- **What a load that ends has left.** -/
theorem parts_of_load {rs : List MountRecord} {fuel : Nat} {parts : List KrpPartition}
    (h : initMountsInfo kmalloc alloc (some (mountinfo rs)) fuel = some parts) :
    parts = load ((entered kmalloc alloc rs).map MountRecord.entry) := by
  obtain ⟨u, hu, hparse⟩ := Option.bind_eq_some_iff.mp h
  rw [parse_of_ends (Looping.ends_iff_run.mpr ⟨fuel, hu⟩)] at hparse
  exact (Option.some_inj.mp hparse).symm

theorem load_records (rs : List MountRecord) : load (rs.map MountRecord.entry) =
    (rs.filter (!isSpecialMp ·.read)).map fun r => r.entry.partition := by
  rw [load, foldl_addPartition, List.nil_append, List.filter_map, List.map_map]
  rfl

theorem load_eq_nil_iff {rs : List MountRecord} :
    load (rs.map MountRecord.entry) = [] ↔ ∀ r ∈ rs, isSpecialMp r.read = true := by
  simp [load_records]

end Everyfile.Kernel
