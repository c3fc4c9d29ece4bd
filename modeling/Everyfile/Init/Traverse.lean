import Everyfile.Daemon.Dispatch
import Everyfile.Lib.FileTree

/-!
# The scan of the file system

`_traverse_file_system` walks a tree of directories in the order in which `readdir` lists them. It reports a regular
file by the path it has come by, descends into directories, and reports nothing else: the records are those of the
regular files, each under the root, a slash and the names joined by slashes (`mem_traverse_of_at`,
`reports_of_mem_traverse`).
-/

namespace Everyfile.Init

open FileTree (Tree)

/-- What is not a directory: a regular file with its `st_mtime`, or a node of another type. -/
inductive Leaf
  | reg (mtime : Int64)
  | other (type : FileType)
  deriving DecidableEq, Repr

abbrev Name := List Byte
abbrev FsNode := Tree Name Leaf

def isReg : FsNode → Bool
  | .leaf (.reg _) => true
  | _ => false

theorem shallow_isReg : Tree.Shallow isReg := fun _ _ => rfl

/-- An absolute path, or what follows a root. -/
def pathText (p : List Name) : List Byte := p.flatMap fun x => bytes "/" ++ x

@[simp] theorem pathText_nil : pathText [] = [] := rfl

theorem pathText_cons (x : Name) (p : List Name) : pathText (x :: p) = bytes "/" ++ x ++ pathText p := rfl

theorem nulFree_pathText {p : List Name} (h : ∀ x ∈ p, NulFree x) : NulFree (pathText p) := by
  apply nulFree_flatMap
  exact fun x hx => nulFree_append (by decide) (h x hx)

/-- The first name of a text. -/
theorem takeWhile_pathText {x : Name} (h : 47 ∉ x) (p : List Name) :
    (x ++ pathText p).takeWhile (· ≠ 47) = x := by
  have hp : (pathText p).takeWhile (· ≠ 47) = [] := by cases p <;> rfl
  have hx : ∀ b ∈ x, decide (b ≠ 47) = true := by
    intro b hb
    rw [decide_eq_true_eq]
    rintro rfl
    exact h hb
  rw [List.takeWhile_append_of_pos hx, hp, List.append_nil]

/-- **A text has one path** of names without a slash. -/
theorem pathText_inj {p q : List Name} (hp : ∀ x ∈ p, 47 ∉ x) (hq : ∀ x ∈ q, 47 ∉ x)
    (h : pathText p = pathText q) : p = q := by
  induction p generalizing q with
  | nil =>
    cases q with
    | nil => rfl
    | cons y q => cases h
  | cons x p ih =>
    cases q with
    | nil => cases h
    | cons y q =>
      have htail : x ++ pathText p = y ++ pathText q := List.cons.inj h |>.2
      have hxy : x = y := by
        rw [← takeWhile_pathText (hp x (by simp)) p, htail, takeWhile_pathText (hq y (by simp)) q]
      subst hxy
      rw [ih (fun z hz => hp z (by simp [hz])) (fun z hz => hq z (by simp [hz])) (List.append_cancel_left htail)]

/-! ## The walk -/

mutual

/-- `_file::_traverse_file_system` at a node that `lstat` finds: the records passed to `add_file_info`. -/
def traverse (root : List Byte) : FsNode → List FileInfo
  | .leaf (.reg mtime) => [⟨root, .EREG, mtime.toInt⟩]
  | .leaf (.other _) => []
  | .dir es => traverseEntries root es

/-- The loop over `readdir`. -/
def traverseEntries (root : List Byte) : List (Name × FsNode) → List FileInfo
  | [] => []
  | (d_name, n) :: es =>
    (if d_name = bytes "." ∨ d_name = bytes ".." then [] else traverse (root ++ bytes "/" ++ d_name) n) ++
      traverseEntries root es

end

/-- The name of an entry that the loop does not skip. -/
def Listed (x : Name) : Prop := x ≠ bytes "." ∧ x ≠ bytes ".."

instance (x : Name) : Decidable (Listed x) := inferInstanceAs (Decidable (_ ∧ _))

/-- What the loop does at an entry. -/
theorem ite_skip {β : Type*} (x : Name) (l : List β) :
    (if x = bytes "." ∨ x = bytes ".." then [] else l) = if Listed x then l else [] := by
  by_cases hskip : x = bytes "." ∨ x = bytes ".."
  · rw [if_pos hskip, if_neg fun h : Listed x => hskip.elim h.1 h.2]
  · rw [if_neg hskip, if_pos (show Listed x from not_or.mp hskip)]

theorem traverseEntries_eq {root : List Byte} {es : List (Name × FsNode)} : traverseEntries root es =
    es.flatMap fun e => if Listed e.1 then traverse (root ++ bytes "/" ++ e.1) e.2 else [] := by
  induction es with
  | nil => rw [traverseEntries, List.flatMap_nil]
  | cons e es ih =>
    obtain ⟨x, n⟩ := e
    rw [traverseEntries, ih, ite_skip, List.flatMap_cons]

theorem mem_traverseEntries {root : List Byte} {es : List (Name × FsNode)} {info : FileInfo} :
    info ∈ traverseEntries root es ↔ ∃ e ∈ es, Listed e.1 ∧ info ∈ traverse (root ++ bytes "/" ++ e.1) e.2 := by
  rw [traverseEntries_eq, List.mem_flatMap]
  apply exists_congr
  intro e
  by_cases hlist : Listed e.1 <;> simp [hlist]

/-- A regular file whose path has only listed names is reported. -/
theorem mem_traverse_of_at (root : List Byte) {q : List Name} {n : FsNode} (h : Tree.At isReg q n = true)
    (hq : ∀ x ∈ q, Listed x) : ∃ info ∈ traverse root n, info.file_name = root ++ pathText q := by
  induction q generalizing root n with
  | nil =>
    rw [Tree.at_nil] at h
    cases n with
    | leaf a =>
      cases a with
      | reg mtime => exact ⟨_, List.mem_singleton_self _, by simp⟩
      | other type => cases h
    | dir es => cases h
  | cons x q ih =>
    cases n with
    | leaf a => cases h
    | dir es =>
      obtain ⟨e, he, rfl, hreg⟩ := Tree.at_cons.mp h
      obtain ⟨info, hinfo, hname⟩ := ih (root ++ bytes "/" ++ e.1) hreg fun y hy => hq y (by simp [hy])
      refine ⟨info, mem_traverseEntries.mpr ⟨e, he, hq _ (by simp), hinfo⟩, ?_⟩
      rw [hname, pathText_cons]
      simp

/-- A record of the scan under `root`. -/
def Reports (root : List Byte) (n : FsNode) (info : FileInfo) : Prop :=
  info.file_type = .EREG ∧ (∃ mtime : Int64, info.file_time = mtime.toInt) ∧
    ∃ q, Tree.At isReg q n = true ∧ info.file_name = root ++ pathText q

mutual

theorem reports_of_mem_traverse {root : List Byte} {info : FileInfo} :
    ∀ n : FsNode, info ∈ traverse root n → Reports root n info
  | .leaf (.reg mtime), h => by
    rw [traverse, List.mem_singleton] at h
    subst h
    exact ⟨rfl, ⟨mtime, rfl⟩, [], rfl, by simp⟩
  | .leaf (.other _), h => by simp [traverse] at h
  | .dir es, h => by
    obtain ⟨e, he, htype, htime, q, hq, hname⟩ := reports_of_mem_traverseEntries es h
    exact ⟨htype, htime, e.1 :: q, Tree.at_cons.mpr ⟨e, he, rfl, hq⟩, by rw [hname, pathText_cons]; simp⟩

theorem reports_of_mem_traverseEntries {root : List Byte} {info : FileInfo} :
    ∀ es : List (Name × FsNode), info ∈ traverseEntries root es →
      ∃ e ∈ es, Reports (root ++ bytes "/" ++ e.1) e.2 info
  | [], h => by simp [traverseEntries] at h
  | (x, n) :: es, h => by
    rw [traverseEntries, List.mem_append] at h
    rcases h with h | h
    · split at h
      · cases h
      · exact ⟨(x, n), by simp, reports_of_mem_traverse n h⟩
    · obtain ⟨e, he, hr⟩ := reports_of_mem_traverseEntries es h
      exact ⟨e, by simp [he], hr⟩

end

end Everyfile.Init
