import Everyfile.Bytes

/-!
# Mount points

The list of partitions that `parse_mounts_info` fills, the lookup `get_root` by the stored device bytes, and the filter
`is_special_mp` of mount points whose files are not reported: the absolute ones it stops are the special directories and
what lies under them (`isSpecialMp_iff`).
-/

namespace Everyfile.Kernel

/-- `krp_partition`: the device numbers are narrowed to bytes. -/
structure KrpPartition where
  major : UInt8
  minor : UInt8
  root : List Byte
  deriving DecidableEq, Repr

/-- `get_root`: the first partition with the device's bytes, else the empty string. -/
def getRoot (partitions : List KrpPartition) (major minor : UInt8) : List Byte :=
  match partitions.find? fun part => part.major = major ∧ part.minor = minor with
  | some part => part.root
  | none => []

/-- `strcmp(mp,root)==0||(strlen(mp)>strlen(root)&&strstr(mp, root)==mp&&mp[strlen(root)]=='/')`. -/
def mountedAt (mp root : List Byte) : Bool :=
  mp = root || (root.length < mp.length && root.isPrefixOf mp && mp.getD root.length 0 = 47)

def isSpecialMp (mp : List Byte) : Bool :=
  mp.head? ≠ some 47 || mountedAt mp (bytes "/sys") || mountedAt mp (bytes "/proc") || mountedAt mp (bytes "/run") ||
    mountedAt mp (bytes "/dev") || mountedAt mp (bytes "/var") || mountedAt mp (bytes "/tmp")

/-! ## Special directories -/

/-- `q` is the directory `d` or lies under it. -/
def Under (d q : List Byte) : Prop := q = d ∨ d ++ bytes "/" <+: q

instance (d q : List Byte) : Decidable (Under d q) := inferInstanceAs (Decidable (_ ∨ _))

def specialDirs : List (List Byte) :=
  [bytes "/sys", bytes "/proc", bytes "/run", bytes "/dev", bytes "/var", bytes "/tmp"]

/-- The path equals or lies under a special directory. -/
def Special (q : List Byte) : Prop := ∃ d ∈ specialDirs, Under d q

instance (q : List Byte) : Decidable (Special q) := inferInstanceAs (Decidable (∃ d ∈ specialDirs, Under d q))

theorem mountedAt_iff {mp root : List Byte} : mountedAt mp root = true ↔ Under root mp := by
  simp only [mountedAt, Under, Bool.or_eq_true, Bool.and_eq_true, decide_eq_true_eq, List.isPrefixOf_iff_prefix]
  refine or_congr_right ⟨?_, ?_⟩
  · rintro ⟨⟨hlt, s, rfl⟩, hget⟩
    rw [List.getD_eq_getElem?_getD, List.getElem?_append_right le_rfl, Nat.sub_self] at hget
    obtain ⟨b, s, rfl⟩ := List.exists_cons_of_ne_nil (l := s) (by rintro rfl; simp at hlt)
    obtain rfl : b = 47 := by simpa using hget
    exact ⟨s, by simp [bytes]⟩
  · rintro ⟨s, rfl⟩
    have hcons : bytes "/" ++ s = 47 :: s := rfl
    rw [List.append_assoc, hcons]
    exact ⟨⟨by simp, List.prefix_append _ _⟩, by simp⟩

/-- The filter of mount points, on absolute ones. -/
theorem isSpecialMp_iff {mp : List Byte} (hmp : mp.head? = some 47) : isSpecialMp mp = true ↔ Special mp := by
  simp [isSpecialMp, hmp, Special, specialDirs, mountedAt_iff, or_assoc]

end Everyfile.Kernel
