import Everyfile.Init.Scan

/-!
# The value of the scan

`_traverse_file_system` is to return 1 when errors occur and 0 when everything could be accessed. It drops the values of
its calls for the entries of a directory, so that a failure below an open directory is lost, and for a symlink, device,
fifo or socket it comes to its end without a value; a node of unknown type gives 1 although no call has failed.
`tells_iff` says for which trees and failures the value tells what happened.
-/

namespace Everyfile.Init

open FileTree (Tree)

/-- The call at one node comes to the call at the other. -/
inductive Calls (F : Faults) : List Byte → StatNode → List Byte → StatNode → Prop
  | self (root : List Byte) (t : StatNode) : Calls F root t root t
  | entry {root root' : List Byte} {es : List (Name × StatNode)} {e : Name × StatNode} {n : StatNode} :
      F.lstat root = false → F.opendir root = false → e ∈ es → Listed e.1 →
      Calls F (root ++ bytes "/" ++ e.1) e.2 root' n → Calls F root (.dir es) root' n

def ScanCall.Succeeds (F : Faults) : ScanCall → Prop
  | .lstat path => F.lstat path = false
  | .opendir path => F.opendir path = false
  | .add_file_info _ => True

/-- What the value is for: each call has one, and it is 0 if no `lstat` and `opendir` has failed, else 1. -/
structure Tells (F : Faults) (root : List Byte) (t : StatNode) : Prop where
  defined : ∀ root' n, Calls F root t root' n → (scan F root' n).2 ≠ none
  zero : (scan F root t).2 = some 0 ↔ ∀ call ∈ (scan F root t).1, call.Succeeds F
  one : (¬∀ call ∈ (scan F root t).1, call.Succeeds F) → (scan F root t).2 = some 1

/-- Nothing fails at a node, and the function has a value there. -/
def Smooth (F : Faults) (root : List Byte) : StatNode → Prop
  | .leaf st => F.lstat root = false ∧ (getFileType st.1.st_mode = .EREG ∨ getFileType st.1.st_mode = .ERR)
  | .dir _ => F.lstat root = false ∧ F.opendir root = false

/-- The condition: a failure at the root itself, or a regular file, or a directory with nothing but smooth nodes
below. -/
def Told (F : Faults) (root : List Byte) : StatNode → Prop
  | .leaf st => F.lstat root = true ∨ getFileType st.1.st_mode = .EREG
  | .dir es => F.lstat root = true ∨ F.opendir root = true ∨
      ∀ e ∈ es, Listed e.1 → ∀ root' n, Calls F (root ++ bytes "/" ++ e.1) e.2 root' n → Smooth F root' n

variable {F : Faults} {root root' : List Byte} {t n : StatNode} {es : List (Name × StatNode)}

/-! ## The calls of a node -/

theorem calls_leaf {st : LeafStat} : Calls F root (.leaf st) root' n ↔ root' = root ∧ n = .leaf st := by
  constructor
  · rintro ⟨⟩
    exact ⟨rfl, rfl⟩
  · rintro ⟨rfl, rfl⟩
    exact .self _ _

/-- A directory that is not read makes no further call. -/
theorem calls_closed (h : F.lstat root = true ∨ F.opendir root = true) :
    Calls F root (.dir es) root' n ↔ root' = root ∧ n = .dir es := by
  constructor
  · intro hcalls
    cases hcalls with
    | self => exact ⟨rfl, rfl⟩
    | entry hl ho => simp [hl, ho] at h
  · rintro ⟨rfl, rfl⟩
    exact .self _ _

theorem calls_open (hl : F.lstat root = false) (ho : F.opendir root = false) : Calls F root (.dir es) root' n ↔
    (root' = root ∧ n = .dir es) ∨ ∃ e ∈ es, Listed e.1 ∧ Calls F (root ++ bytes "/" ++ e.1) e.2 root' n := by
  constructor
  · intro hcalls
    cases hcalls with
    | self => exact .inl ⟨rfl, rfl⟩
    | entry _ _ he hlist h => exact .inr ⟨_, he, hlist, h⟩
  · rintro (⟨rfl, rfl⟩ | ⟨e, he, hlist, h⟩)
    · exact .self _ _
    · exact .entry hl ho he hlist h

/-! ## The values -/

theorem scan_leaf_value (st : LeafStat) : (scan F root (.leaf st)).2 =
    if F.lstat root = true then some 1
    else
      match getFileType st.1.st_mode with
      | .EREG => some 0
      | .ERR => some 1
      | _ => none := by
  rw [scan]
  split
  · rfl
  · cases getFileType st.1.st_mode <;> rfl

theorem scan_dir_value : (scan F root (.dir es)).2 =
    if F.lstat root = true ∨ F.opendir root = true then some 1 else some 0 := by
  rw [scan]
  by_cases hl : F.lstat root = true
  · simp [hl]
  · by_cases ho : F.opendir root = true <;> simp [hl, ho]

/-- A smooth node is one where nothing fails and there is a value. -/
theorem smooth_iff : Smooth F root t ↔ (scan F root t).2 ≠ none ∧ F.lstat root = false ∧
    (t.isDir = true → F.opendir root = false) := by
  cases t with
  | leaf st =>
    have hdir := st.2
    rw [Smooth, scan_leaf_value]
    by_cases hl : F.lstat root = true
    · simp [hl]
    · cases hty : getFileType st.1.st_mode <;> simp_all [Tree.isDir]
  | dir es =>
    rw [Smooth, scan_dir_value]
    by_cases hl : F.lstat root = true
    · simp [hl]
    · by_cases ho : F.opendir root = true <;> simp [hl, ho, Tree.isDir]

/-! ## The failures -/

theorem succeeds_leaf {st : LeafStat} :
    (∀ call ∈ (scan F root (.leaf st)).1, call.Succeeds F) ↔ F.lstat root = false := by
  rw [scan]
  by_cases hl : F.lstat root = true
  · simp [hl, ScanCall.Succeeds]
  · cases getFileType st.1.st_mode <;> simp [hl, ScanCall.Succeeds]

theorem succeeds_dir : (∀ call ∈ (scan F root (.dir es)).1, call.Succeeds F) ↔
    F.lstat root = false ∧ F.opendir root = false ∧
      ∀ e ∈ es, Listed e.1 → ∀ call ∈ (scan F (root ++ bytes "/" ++ e.1) e.2).1, call.Succeeds F := by
  rw [scan]
  by_cases hl : F.lstat root = true
  · simp [hl, ScanCall.Succeeds]
  by_cases ho : F.opendir root = true
  · simp [hl, ho, ScanCall.Succeeds]
  simp only [hl, ho, Bool.false_eq_true, if_false, List.forall_mem_cons, ScanCall.Succeeds, scanEntries_eq,
    List.mem_flatMap, forall_exists_index, and_imp, true_and]
  constructor
  · intro h e he hlist call hcall
    exact h call e he (by simpa [hlist] using hcall)
  · intro h call e he hcall
    split at hcall
    · exact h e he ‹_› call hcall
    · cases hcall

/-- **No call fails** exactly if none of the nodes come to fails. -/
theorem succeeds_iff : (∀ call ∈ (scan F root t).1, call.Succeeds F) ↔
    ∀ root' n, Calls F root t root' n → F.lstat root' = false ∧ (n.isDir = true → F.opendir root' = false) := by
  induction t using Tree.induct generalizing root with
  | leaf st =>
    rw [succeeds_leaf]
    simp [calls_leaf, Tree.isDir]
  | dir es ih =>
    rw [succeeds_dir]
    constructor
    · rintro ⟨hl, ho, hes⟩ root' n hcalls
      rcases (calls_open hl ho).mp hcalls with ⟨rfl, rfl⟩ | ⟨e, he, hlist, h⟩
      · exact ⟨hl, fun _ => ho⟩
      · exact (ih e he).mp (hes e he hlist) root' n h
    · intro h
      obtain ⟨hl, ho⟩ := h root _ (.self _ _)
      have ho := ho rfl
      exact ⟨hl, ho, fun e he hlist => (ih e he).mpr fun root' n hcalls => h root' n (.entry hl ho he hlist hcalls)⟩

/-! ## When the value tells what happened -/

theorem tells_leaf_iff {st : LeafStat} : Tells F root (.leaf st) ↔ Told F root (.leaf st) := by
  have hdir := st.2
  have hiff : Tells F root (.leaf st) ↔ (scan F root (.leaf st)).2 ≠ none ∧
      ((scan F root (.leaf st)).2 = some 0 ↔ F.lstat root = false) ∧
        (F.lstat root = true → (scan F root (.leaf st)).2 = some 1) := by
    constructor
    · rintro ⟨hdef, hzero, hone⟩
      rw [succeeds_leaf] at hzero hone
      exact ⟨hdef _ _ (.self _ _), hzero, fun hl => hone (by simp [hl])⟩
    · rintro ⟨hdef, hzero, hone⟩
      refine ⟨fun root' n hcalls => ?_, by rw [succeeds_leaf, hzero], fun hfail => hone ?_⟩
      · obtain ⟨rfl, rfl⟩ := calls_leaf.mp hcalls
        exact hdef
      · rw [succeeds_leaf] at hfail
        simpa using hfail
  rw [hiff, Told, scan_leaf_value]
  by_cases hl : F.lstat root = true
  · simp [hl]
  · cases hty : getFileType st.1.st_mode <;> simp_all

/-- A failure of the directory's own is told. -/
theorem tells_closed (h : F.lstat root = true ∨ F.opendir root = true) : Tells F root (.dir es) := by
  have hfail : ¬∀ call ∈ (scan F root (.dir es)).1, call.Succeeds F := by
    rw [succeeds_dir]
    rintro ⟨hl, ho, -⟩
    simp [hl, ho] at h
  have hvalue : (scan F root (.dir es)).2 = some 1 := by rw [scan_dir_value, if_pos h]
  refine ⟨fun root' n hcalls => ?_, ?_, fun _ => hvalue⟩
  · obtain ⟨rfl, rfl⟩ := (calls_closed h).mp hcalls
    simp [hvalue]
  · exact iff_of_false (by simp [hvalue]) hfail

/-- A directory that is read gives 0, whatever happens below. -/
theorem tells_open_iff (hl : F.lstat root = false) (ho : F.opendir root = false) : Tells F root (.dir es) ↔
    ∀ e ∈ es, Listed e.1 → ∀ root' n, Calls F (root ++ bytes "/" ++ e.1) e.2 root' n → Smooth F root' n := by
  have hvalue : (scan F root (.dir es)).2 = some 0 := by
    rw [scan_dir_value]
    simp [hl, ho]
  constructor
  · intro h e he hlist root' n hcalls
    have hsucc := succeeds_iff.mp (h.zero.mp hvalue)
    have hhere : Calls F root (.dir es) root' n := .entry hl ho he hlist hcalls
    exact smooth_iff.mpr ⟨h.defined _ _ hhere, hsucc _ _ hhere⟩
  · intro h
    have hsucc : ∀ call ∈ (scan F root (.dir es)).1, call.Succeeds F := by
      rw [succeeds_dir]
      refine ⟨hl, ho, fun e he hlist => succeeds_iff.mpr fun root' n hcalls => ?_⟩
      exact (smooth_iff.mp (h e he hlist root' n hcalls)).2
    refine ⟨fun root' n hcalls => ?_, iff_of_true hvalue hsucc, fun hfail => absurd hsucc hfail⟩
    rcases (calls_open hl ho).mp hcalls with ⟨rfl, rfl⟩ | ⟨e, he, hlist, hcalls⟩
    · simp [hvalue]
    · exact (smooth_iff.mp (h e he hlist root' n hcalls)).1

theorem tells_dir_iff : Tells F root (.dir es) ↔ Told F root (.dir es) := by
  by_cases hclosed : F.lstat root = true ∨ F.opendir root = true
  · exact iff_of_true (tells_closed hclosed) (hclosed.elim .inl fun ho => .inr (.inl ho))
  · have hopen := not_or.mp hclosed
    have hl : F.lstat root = false := by simpa using hopen.1
    have ho : F.opendir root = false := by simpa using hopen.2
    rw [tells_open_iff hl ho, Told]
    simp [hl, ho]

/-- **When the scan's value tells what happened.** -/
theorem tells_iff (F : Faults) (root : List Byte) (t : StatNode) : Tells F root t ↔ Told F root t := by
  cases t with
  | leaf st => exact tells_leaf_iff
  | dir es => exact tells_dir_iff

/-- A symlink has no value; and below an open directory a failure of `lstat` is lost. -/
theorem failure_lost :
    let link : StatNode := .leaf ⟨⟨0o120777, 6⟩, by decide⟩
    let tree : StatNode := .dir [(bytes "a", .leaf ⟨⟨0o100644, 5⟩, by decide⟩)]
    let F : Faults := ⟨(· = bytes "//a"), fun _ => false⟩
    (scan ⟨fun _ => false, fun _ => false⟩ (bytes "/") link).2 = none ∧
      scan F (bytes "/") tree = ([.lstat (bytes "/"), .opendir (bytes "/"), .lstat (bytes "//a")], some 0) ∧
      ¬Tells F (bytes "/") tree := by
  intro link tree F
  have hscan : scan F (bytes "/") tree =
      ([.lstat (bytes "/"), .opendir (bytes "/"), .lstat (bytes "//a")], some 0) := by
    simp only [tree, scan, scanEntries]
    decide
  refine ⟨?_, hscan, fun h => ?_⟩
  · simp only [link, scan]
    decide
  · have hsucc := h.zero.mp (by rw [hscan])
    rw [hscan] at hsucc
    exact absurd (hsucc (.lstat (bytes "//a")) (by simp)) (by simp [ScanCall.Succeeds, F])

end Everyfile.Init
