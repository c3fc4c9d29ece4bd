import Everyfile.Init.Traverse

/-!
# The scan where calls fail

`_traverse_file_system` once more, with the types of nodes as `st_mode` has them, with its calls of `lstat` and
`opendir`, each of which may fail, and with what it returns. The records it passes to `add_file_info` are those of the
regular files that it can reach, each under its own path and in the order of the listing (`records_scan`); it opens
only what `lstat` calls a directory. Where no call fails this is `traverse` (`records_scan_quiet`).
-/

namespace Everyfile.Init

open FileTree (Tree)

/-! ## Nodes -/

/-- `struct stat`, as far as the scan reads it. -/
structure Stat where
  st_mode : UInt32
  st_mtime : Int64
  deriving DecidableEq, Repr

/-- `_file::_get_file_type`. -/
def getFileType (m : UInt32) : FileType :=
  let fmt := m &&& 0o170000
  if fmt = 0o120000 then .ELNK
  else if fmt = 0o100000 then .EREG
  else if fmt = 0o040000 then .EDIR
  else if fmt = 0o020000 then .ECHR
  else if fmt = 0o060000 then .EBLK
  else if fmt = 0o010000 then .EFIFO
  else if fmt = 0o140000 then .ESOCK
  else .ERR

/-- A node that is no directory. -/
abbrev LeafStat := {st : Stat // getFileType st.st_mode ≠ .EDIR}

abbrev StatNode := Tree Name LeafStat

/-- The paths at which calls fail. -/
structure Faults where
  lstat : List Byte → Bool
  opendir : List Byte → Bool

inductive ScanCall
  | lstat (path : List Byte)
  | opendir (path : List Byte)
  | add_file_info (info : FileInfo)
  deriving DecidableEq, Repr

/-! ## The walk -/

mutual

/-- `_file::_traverse_file_system`: its calls in order, and its value; for a symlink, device, fifo or socket it comes
to its end without a `return`. -/
def scan (F : Faults) (root : List Byte) : StatNode → List ScanCall × Option Int
  | .leaf st =>
    if F.lstat root then ([.lstat root], some 1)
    else
      match getFileType st.1.st_mode with
      | .EREG => ([.lstat root, .add_file_info ⟨root, .EREG, st.1.st_mtime.toInt⟩], some 0)
      | .ERR => ([.lstat root], some 1)
      | _ => ([.lstat root], none)
  | .dir es =>
    if F.lstat root then ([.lstat root], some 1)
    else if F.opendir root then ([.lstat root, .opendir root], some 1)
    else (.lstat root :: .opendir root :: scanEntries F root es, some 0)

/-- The loop over `readdir`; the values of the calls are dropped. -/
def scanEntries (F : Faults) (root : List Byte) : List (Name × StatNode) → List ScanCall
  | [] => []
  | (d_name, n) :: es =>
    (if d_name = bytes "." ∨ d_name = bytes ".." then [] else (scan F (root ++ bytes "/" ++ d_name) n).1) ++
      scanEntries F root es

end

def ScanCall.info? : ScanCall → Option FileInfo
  | .add_file_info info => some info
  | _ => none

/-- The records passed to `add_file_info`. -/
def records (calls : List ScanCall) : List FileInfo := calls.filterMap ScanCall.info?

@[simp] theorem records_nil : records [] = [] := rfl

@[simp] theorem records_lstat (path : List Byte) (calls : List ScanCall) :
    records (.lstat path :: calls) = records calls := rfl

@[simp] theorem records_opendir (path : List Byte) (calls : List ScanCall) :
    records (.opendir path :: calls) = records calls := rfl

@[simp] theorem records_add_file_info (info : FileInfo) (calls : List ScanCall) :
    records (.add_file_info info :: calls) = info :: records calls := rfl

/-! ## What is to be reported -/

/-- `lstat` works on a path and on every directory above it, and `opendir` on these. -/
def Accessible (F : Faults) (root : List Byte) (q : List Name) : Prop :=
  ∀ p ∈ q.inits, F.lstat (root ++ pathText p) = false ∧ (p ≠ q → F.opendir (root ++ pathText p) = false)

instance (F : Faults) (root : List Byte) (q : List Name) : Decidable (Accessible F root q) :=
  inferInstanceAs (Decidable (∀ p ∈ q.inits, _))

/-- The accessible regular files below a root, depth first, with their paths. -/
def reported (F : Faults) (root : List Byte) (t : StatNode) : List (List Name × LeafStat) :=
  t.leaves.filter fun r => (∀ x ∈ r.1, Listed x) ∧ getFileType r.2.1.st_mode = .EREG ∧ Accessible F root r.1

/-- The record of a file. -/
def record (root : List Byte) (r : List Name × LeafStat) : FileInfo :=
  ⟨root ++ pathText r.1, .EREG, r.2.1.st_mtime.toInt⟩

/-- The names in a directory: distinct, and without a slash. -/
def DirNames (names : List Name) : Prop := names.Nodup ∧ ∀ x ∈ names, 47 ∉ x

instance (names : List Name) : Decidable (DirNames names) := inferInstanceAs (Decidable (_ ∧ _))

/-- A call is made at a node of the tree; one of `opendir` at a directory, after `lstat` found it. -/
def Visits (F : Faults) (root : List Byte) (t : StatNode) : ScanCall → Prop
  | .lstat path => ∃ q, Tree.At (fun _ => true) q t = true ∧ path = root ++ pathText q
  | .opendir path => F.lstat path = false ∧ ∃ q, Tree.At Tree.isDir q t = true ∧ path = root ++ pathText q
  | .add_file_info info => ∃ q, Tree.At (!·.isDir) q t = true ∧ info.file_name = root ++ pathText q

variable {F F' : Faults} {root : List Byte} {t : StatNode} {es : List (Name × StatNode)} {x : Name} {q : List Name}

@[simp] theorem accessible_nil : Accessible F root [] ↔ F.lstat root = false := by simp [Accessible]

theorem accessible_cons : Accessible F root (x :: q) ↔
    F.lstat root = false ∧ F.opendir root = false ∧ Accessible F (root ++ bytes "/" ++ x) q := by
  simp only [Accessible, List.inits_cons, List.forall_mem_cons, List.forall_mem_map, pathText_nil, List.append_nil,
    pathText_cons, ← List.append_assoc, ne_eq, List.cons.injEq, true_and, reduceCtorEq, not_false_eq_true, true_implies]
  tauto

theorem record_cons (st : LeafStat) :
    record root (x :: q, st) = record (root ++ bytes "/" ++ x) (q, st) := by
  simp [record, pathText_cons]

theorem reported_leaf (st : LeafStat) : reported F root (.leaf st) =
    if getFileType st.1.st_mode = .EREG ∧ F.lstat root = false then [([], st)] else [] := by
  rw [reported, Tree.leaves_leaf, List.filter_singleton]
  simp

theorem reported_dir : reported F root (.dir es) =
    if F.lstat root = false ∧ F.opendir root = false then
      es.flatMap fun e => if Listed e.1 then
        (reported F (root ++ bytes "/" ++ e.1) e.2).map fun r => (e.1 :: r.1, r.2) else []
    else [] := by
  have hentry : ∀ e : Name × StatNode, ∀ r : List Name × LeafStat,
      ((∀ x ∈ e.1 :: r.1, Listed x) ∧ getFileType r.2.1.st_mode = .EREG ∧ Accessible F root (e.1 :: r.1)) ↔
        (F.lstat root = false ∧ F.opendir root = false) ∧ Listed e.1 ∧ (∀ x ∈ r.1, Listed x) ∧
          getFileType r.2.1.st_mode = .EREG ∧ Accessible F (root ++ bytes "/" ++ e.1) r.1 := by
    intro e r
    rw [accessible_cons, List.forall_mem_cons]
    tauto
  simp only [reported, Tree.leaves_dir, List.filter_flatMap, List.filter_map, Function.comp_def, hentry]
  split
  next hopen =>
    apply List.flatMap_congr
    intro e _
    by_cases hlist : Listed e.1 <;> simp [hopen, hlist]
  next hfail => simp [hfail]

/-! ## The records -/

theorem scanEntries_eq : scanEntries F root es =
    es.flatMap fun e => if Listed e.1 then (scan F (root ++ bytes "/" ++ e.1) e.2).1 else [] := by
  induction es with
  | nil => rw [scanEntries, List.flatMap_nil]
  | cons e es ih =>
    obtain ⟨x, n⟩ := e
    rw [scanEntries, ih, ite_skip, List.flatMap_cons]

/-- **What the scan reports.** -/
theorem records_scan (F : Faults) (root : List Byte) (t : StatNode) :
    records (scan F root t).1 = (reported F root t).map (record root) := by
  induction t using Tree.induct generalizing root with
  | leaf st =>
    rw [reported_leaf, scan]
    by_cases hl : F.lstat root = true
    · simp [hl]
    · simp only [hl, Bool.false_eq_true, if_false, and_true]
      cases getFileType st.1.st_mode <;> simp [record]
  | dir es ih =>
    rw [reported_dir, scan]
    by_cases hl : F.lstat root = true
    · simp [hl]
    by_cases ho : F.opendir root = true
    · simp [hl, ho]
    -- the directory is read, entry by entry
    simp only [hl, ho, Bool.false_eq_true, if_false, and_self, if_true, records_lstat, records_opendir]
    rw [scanEntries_eq, records, List.filterMap_flatMap, List.map_flatMap]
    apply List.flatMap_congr
    intro e he
    split
    · have hrecord : record root ∘ (fun r => (e.1 :: r.1, r.2)) = record (root ++ bytes "/" ++ e.1) :=
        funext fun r => record_cons r.2
      rw [List.map_map, hrecord]
      exact ih e he _
    · rfl

/-- The record's path is its own. -/
theorem nodup_records (root : List Byte) (h : t.Names DirNames) :
    ((records (scan F root t).1).map FileInfo.file_name).Nodup := by
  have hslash : ∀ r ∈ t.leaves, ∀ x ∈ r.1, 47 ∉ x := fun r hr => (h.mono fun _ hl => hl.2).forall_mem hr
  have hpaths : ((reported F root t).map Prod.fst).Nodup :=
    (Tree.nodup_leaves (h.mono fun _ hl => hl.1)).sublist (List.filter_sublist.map _)
  have hnames : (records (scan F root t).1).map FileInfo.file_name =
      ((reported F root t).map Prod.fst).map fun q => root ++ pathText q := by
    rw [records_scan, List.map_map, List.map_map]
    rfl
  rw [hnames]
  refine hpaths.map_on fun p hp q hq hpq => ?_
  obtain ⟨r, hr, rfl⟩ := List.mem_map.mp hp
  obtain ⟨r', hr', rfl⟩ := List.mem_map.mp hq
  exact pathText_inj (hslash r (List.mem_filter.mp hr).1) (hslash r' (List.mem_filter.mp hr').1)
    (List.append_cancel_left hpq)

/-! ## The calls -/

/-- A call at an entry is one in the directory. -/
theorem Visits.entry {call : ScanCall} {e : Name × StatNode} (he : e ∈ es)
    (h : Visits F (root ++ bytes "/" ++ e.1) e.2 call) : Visits F root (.dir es) call := by
  have hat : ∀ {φ : StatNode → Bool} {path : List Byte},
      (∃ q, Tree.At φ q e.2 = true ∧ path = root ++ bytes "/" ++ e.1 ++ pathText q) →
        ∃ q, Tree.At φ q (.dir es) = true ∧ path = root ++ pathText q := by
    rintro φ path ⟨q, hq, rfl⟩
    exact ⟨e.1 :: q, Tree.at_cons.mpr ⟨e, he, rfl, hq⟩, by simp [pathText_cons]⟩
  cases call with
  | lstat path => exact hat h
  | opendir path => exact ⟨h.1, hat h.2⟩
  | add_file_info info => exact hat h

/-- The node as `traverse` has it. -/
def LeafStat.toLeaf (st : LeafStat) : Leaf :=
  if getFileType st.1.st_mode = .EREG then .reg st.1.st_mtime else .other (getFileType st.1.st_mode)

/-- **Without failures** the records are those of `traverse`. -/
theorem records_scan_quiet (root : List Byte) (t : StatNode) :
    records (scan ⟨fun _ => false, fun _ => false⟩ root t).1 = traverse root (t.mapLeaves LeafStat.toLeaf) := by
  induction t using Tree.induct generalizing root with
  | leaf st =>
    rw [Tree.mapLeaves, LeafStat.toLeaf, scan]
    cases getFileType st.1.st_mode <;> simp [traverse]
  | dir es ih =>
    rw [Tree.mapLeaves, Tree.mapEntries_eq, traverse, traverseEntries_eq, List.flatMap_map, scan]
    simp only [Bool.false_eq_true, if_false, records_lstat, records_opendir]
    rw [scanEntries_eq, records, List.filterMap_flatMap]
    apply List.flatMap_congr
    intro e he
    split
    · exact ih e he _
    · rfl

/-! ## The scan -/

end Everyfile.Init
