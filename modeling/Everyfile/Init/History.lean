import Everyfile.Daemon.Index
import Everyfile.Init.Traverse

/-!
# Histories of a file system

A history is a list of operations on a file system with one root, each of them valid where it happens. Its events are
what the probes of the five functions report: the flag of the operation and the absolute path. `replay` gives the tree
after a history; the regular files and directories of that tree are read off the operations (`at_insert_iff`,
`at_remove_iff`).
-/

namespace Everyfile.Init

open FileTree (Tree)
open Kernel (NlMsg)

/-- A name of an entry: not empty, without slash, NUL and double quote, and neither `.` nor `..`. -/
structure NameOk (x : Name) : Prop where
  ne_nil : x ≠ []
  noSlash : 47 ∉ x
  quoteFree : 34 ∉ x
  nulFree : NulFree x
  listed : Listed x

instance (x : Name) : Decidable (NameOk x) :=
  decidable_of_iff (x ≠ [] ∧ 47 ∉ x ∧ 34 ∉ x ∧ NulFree x ∧ Listed x)
    ⟨fun ⟨h1, h2, h3, h4, h5⟩ => ⟨h1, h2, h3, h4, h5⟩, fun h => ⟨h.1, h.2, h.3, h.4, h.5⟩⟩

/-- A path of such names, of at most 1022 bytes. -/
def PathOk (p : List Name) : Prop := (∀ x ∈ p, NameOk x) ∧ (pathText p).length ≤ 1022

instance (p : List Name) : Decidable (PathOk p) := inferInstanceAs (Decidable (_ ∧ _))

/-! ## Paths and their texts -/

theorem pathText_injective {p q : List Name} (hp : ∀ x ∈ p, NameOk x) (hq : ∀ x ∈ q, NameOk x)
    (h : pathText p = pathText q) : p = q :=
  pathText_inj (fun x hx => (hp x hx).noSlash) (fun x hx => (hq x hx).noSlash) h

/-- The text of a path is a name under which the database works. -/
theorem plainName_pathText {p : List Name} (h : PathOk p) (hne : p ≠ []) : Daemon.PlainName (pathText p) := by
  obtain ⟨hnames, hlen⟩ := h
  refine ⟨?_, ?_, hlen, ?_, ?_⟩
  · exact nulFree_pathText fun x hx => (hnames x hx).nulFree
  · intro hb
    obtain ⟨x, hx, hb⟩ := List.mem_flatMap.mp hb
    rcases List.mem_append.mp hb with hb | hb
    · exact absurd hb (by decide)
    · exact (hnames x hx).quoteFree hb
  · obtain ⟨x, p, rfl⟩ := List.exists_cons_of_ne_nil hne
    rfl
  · obtain ⟨x, p, rfl⟩ := List.exists_cons_of_ne_nil hne
    have hx := hnames x (by simp)
    obtain ⟨b, x, rfl⟩ := List.exists_cons_of_ne_nil hx.ne_nil
    intro hb
    have hb47 : b = 47 := by simpa [pathText_cons, bytes] using hb
    exact hx.noSlash (by simp [hb47])

/-! ## Operations -/

/-- An operation on the entry `name` of the directory `dir`; a new entry is listed at the place `slot`. -/
inductive Op
  | create (dir : List Name) (name : Name) (slot : Nat) (mtime : Int64)
  | unlink (dir : List Name) (name : Name)
  | mkdir (dir : List Name) (name : Name) (slot : Nat)
  | rmdir (dir : List Name) (name : Name)
  | symlink (dir : List Name) (name : Name) (slot : Nat)
  deriving DecidableEq, Repr

namespace Op

def path : Op → List Name
  | create d x _ _ | unlink d x | mkdir d x _ | rmdir d x | symlink d x _ => d ++ [x]

/-- The flag of the probed function. -/
def flag : Op → Nat
  | create .. => 1
  | unlink .. => 2
  | mkdir .. => 3
  | rmdir .. => 4
  | symlink .. => 5

def event (o : Op) : NlMsg := ⟨o.flag, pathText o.path⟩

def apply : Op → FsNode → FsNode
  | create d x slot mtime => Tree.insert d x slot (.leaf (.reg mtime))
  | unlink d x => Tree.remove d x
  | mkdir d x slot => Tree.insert d x slot (.dir [])
  | rmdir d x => Tree.remove d x
  | symlink d x slot => Tree.insert d x slot (.leaf (.other .ELNK))

/-- A new entry needs its directory and a free name, `unlink` something that is not a directory, `rmdir` an empty
directory. -/
def Valid (t : FsNode) (o : Op) : Prop :=
  PathOk o.path ∧
    match o with
    | create d x _ _ | mkdir d x _ | symlink d x _ =>
      Tree.At Tree.isDir d t = true ∧ Tree.At (fun _ => true) (d ++ [x]) t = false
    | unlink d x => Tree.At (!·.isDir) (d ++ [x]) t = true ∧ Tree.At Tree.isDir (d ++ [x]) t = false
    | rmdir d x => Tree.At Tree.isEmptyDir (d ++ [x]) t = true ∧ Tree.At (!·.isEmptyDir) (d ++ [x]) t = false

instance (t : FsNode) : (o : Op) → Decidable (Valid t o)
  | create .. | unlink .. | mkdir .. | rmdir .. | symlink .. => inferInstanceAs (Decidable (PathOk _ ∧ _ ∧ _))

end Op

/-- The tree after a history, if each of its operations is valid in turn. -/
def replay : FsNode → List Op → Option FsNode
  | t, [] => some t
  | t, o :: os => if o.Valid t then replay (o.apply t) os else none

variable {t : FsNode} {φ : FsNode → Bool} {d q : List Name} {x : Name}

/-- The root stays a directory. -/
theorem isDir_of_replay {T : FsNode} {ops : List Op} (h : replay t ops = some T) (ht : t.isDir = true) :
    T.isDir = true := by
  induction ops generalizing t with
  | nil => cases h; exact ht
  | cons o ops ih =>
    obtain ⟨-, h⟩ := Option.ite_none_right_eq_some.mp h
    exact ih h (by cases o <;> simpa [Op.apply, Tree.insert, Tree.remove] using ht)

/-- A node without entries has nothing below it. -/
theorem at_of_noEntries {n : FsNode} (hn : n.isDir = false ∨ n.isEmptyDir = true) :
    Tree.At φ q n = true ↔ q = [] ∧ φ n = true := by
  cases q with
  | nil => simp
  | cons y q =>
    cases n with
    | leaf a => simp
    | dir es =>
      cases es with
      | nil => simp [Tree.At]
      | cons e es => simp [Tree.isDir, Tree.isEmptyDir] at hn

/-- A new entry adds its node. -/
theorem at_insert_iff (hφ : Tree.Shallow φ) {n : FsNode} (hn : n.isDir = false ∨ n.isEmptyDir = true) (slot : Nat)
    (hd : Tree.At Tree.isDir d t = true) :
    Tree.At φ q (Tree.insert d x slot n t) = true ↔ Tree.At φ q t = true ∨ q = d ++ [x] ∧ φ n = true := by
  rw [Tree.at_insert hφ]
  simp only [hd, true_and, at_of_noEntries hn]
  refine or_congr_right ⟨?_, ?_⟩
  · rintro ⟨r, rfl, rfl, h⟩
    exact ⟨rfl, h⟩
  · rintro ⟨rfl, h⟩
    exact ⟨[], rfl, rfl, h⟩

/-- A removed entry without entries takes only itself away. -/
theorem at_remove_iff (hφ : Tree.Shallow φ)
    (h : Tree.At (fun n => n.isDir && !n.isEmptyDir) (d ++ [x]) t = false) :
    Tree.At φ q (Tree.remove d x t) = true ↔ Tree.At φ q t = true ∧ q ≠ d ++ [x] := by
  rw [Tree.at_remove hφ]
  refine and_congr_right fun hq => ⟨?_, ?_⟩
  · rintro hne rfl
    exact hne (List.prefix_refl _)
  · rintro hne ⟨r, rfl⟩
    cases r with
    | nil => exact hne (List.append_nil _)
    | cons y r => rw [Tree.at_isDir_of_at_append hq] at h; cases h

end Everyfile.Init
