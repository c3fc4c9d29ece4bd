import Mathlib.Data.List.Basic
import Mathlib.Data.List.Infix
import Mathlib.Data.List.Nodup

/-!
# Trees of directories

A directory lists its entries in some order; a path is the list of names from the root. `At φ p t` says that some node
at the path `p` satisfies `φ` (one node, where names are unique in each directory). Entries are inserted and removed
below a directory, and what holds at the paths of the new tree is read off the old one (`at_insert`, `at_remove`) for
the predicates that do not look into directories (`Shallow`).

`leaves` lists the leaves with their paths, depth first; a path stands there once where each directory has distinct
names (`nodup_leaves`).
-/

namespace FileTree

inductive Tree (ν τ : Type*)
  | leaf (a : τ)
  | dir (entries : List (ν × Tree ν τ))

variable {ν τ : Type*}

namespace Tree

def isDir : Tree ν τ → Bool
  | dir _ => true
  | leaf _ => false

def isEmptyDir : Tree ν τ → Bool
  | dir [] => true
  | _ => false

/-- The predicate does not distinguish directories. -/
def Shallow (φ : Tree ν τ → Bool) : Prop := ∀ es es', φ (dir es) = φ (dir es')

theorem shallow_isDir : Shallow (isDir : Tree ν τ → Bool) := fun _ _ => rfl

variable [DecidableEq ν]

/-- Some node at the path satisfies `φ`. -/
def At (φ : Tree ν τ → Bool) : List ν → Tree ν τ → Bool
  | [], t => φ t
  | x :: p, dir es => es.any fun e => e.1 = x && At φ p e.2
  | _ :: _, leaf _ => false

/-- The tree with the entries of the directory at a path changed. -/
def modify (f : List (ν × Tree ν τ) → List (ν × Tree ν τ)) : List ν → Tree ν τ → Tree ν τ
  | [], dir es => dir (f es)
  | x :: p, dir es => dir (es.map fun e => (e.1, if e.1 = x then modify f p e.2 else e.2))
  | _, leaf a => leaf a

/-- A new entry in the directory `d`, listed at the place `slot`. -/
def insert (d : List ν) (x : ν) (slot : Nat) (n : Tree ν τ) : Tree ν τ → Tree ν τ :=
  modify (fun es => es.take slot ++ (x, n) :: es.drop slot) d

/-- The directory `d` without the entry `x`. -/
def remove (d : List ν) (x : ν) : Tree ν τ → Tree ν τ := modify (fun es => es.filter fun e => e.1 ≠ x) d

variable {φ : Tree ν τ → Bool} {p q d : List ν} {x y : ν} {t n : Tree ν τ} {es : List (ν × Tree ν τ)}

@[simp] theorem at_nil : At φ [] t = φ t := by cases t <;> rfl

@[simp] theorem at_leaf (a : τ) : At φ (x :: p) (leaf a) = false := rfl

theorem at_cons : At φ (x :: p) (dir es) = true ↔ ∃ e ∈ es, e.1 = x ∧ At φ p e.2 = true := by
  simp [At]

/-- Above a node there are directories. -/
theorem at_isDir_of_at_append (h : At φ (p ++ y :: q) t = true) :
    At (fun n => n.isDir && !n.isEmptyDir) p t = true := by
  induction p generalizing t with
  | nil =>
    cases t with
    | leaf a => simp at h
    | dir es =>
      obtain ⟨e, he, -⟩ := at_cons.mp h
      cases es with
      | nil => cases he
      | cons e es => rfl
  | cons x p ih =>
    cases t with
    | leaf a => simp at h
    | dir es =>
      obtain ⟨e, he, hx, h⟩ := at_cons.mp h
      exact at_cons.mpr ⟨e, he, hx, ih h⟩

theorem At.mono {ψ : Tree ν τ → Bool} (h : At φ p t = true) (hw : ∀ n, φ n = true → ψ n = true) : At ψ p t = true := by
  induction p generalizing t with
  | nil =>
    rw [at_nil] at h ⊢
    exact hw t h
  | cons x p ih =>
    cases t with
    | leaf a => simp at h
    | dir es =>
      obtain ⟨e, he, hx, h⟩ := at_cons.mp h
      exact at_cons.mpr ⟨e, he, hx, ih h⟩

@[simp] theorem isDir_modify (f : List (ν × Tree ν τ) → List (ν × Tree ν τ)) : (modify f p t).isDir = t.isDir := by
  cases t <;> cases p <;> rfl

/-- Under the modified directory, the entries are those of the path's directory. -/
theorem at_modify_cons (f : List (ν × Tree ν τ) → List (ν × Tree ν τ)) :
    At φ (y :: q) (modify f (x :: p) (dir es)) = true ↔
      ∃ e ∈ es, e.1 = y ∧ At φ q (if y = x then modify f p e.2 else e.2) = true := by
  rw [modify, at_cons]
  simp only [List.mem_map]
  constructor
  · rintro ⟨_, ⟨e, he, rfl⟩, rfl, h⟩
    exact ⟨e, he, rfl, h⟩
  · rintro ⟨e, he, rfl, h⟩
    exact ⟨_, ⟨e, he, rfl⟩, rfl, h⟩

/-- **Insertion**: below the new entry there is the new node, elsewhere nothing has changed. -/
theorem at_insert (hφ : Shallow φ) (slot : Nat) :
    At φ q (insert d x slot n t) = true ↔
      At φ q t = true ∨ At isDir d t = true ∧ ∃ r, q = d ++ x :: r ∧ At φ r n = true := by
  induction d generalizing q t with
  | nil =>
    cases t with
    | leaf a => simp [insert, modify, isDir]
    | dir es =>
      cases q with
      | nil => simp [insert, modify, hφ _ es]
      | cons y q =>
        have hmem : ∀ e, e ∈ es.take slot ++ (x, n) :: es.drop slot ↔ e ∈ es ∨ e = (x, n) := by
          intro e
          conv_rhs => rw [← List.take_append_drop slot es]
          simp only [List.mem_append, List.mem_cons]
          tauto
        simp only [insert, modify, at_cons, hmem, at_nil, isDir, true_and, List.nil_append]
        constructor
        · rintro ⟨e, he | rfl, hy, h⟩
          · exact .inl ⟨e, he, hy, h⟩
          · exact .inr ⟨q, by rw [← hy], h⟩
        · rintro (⟨e, he, hy, h⟩ | ⟨r, hr, h⟩)
          · exact ⟨e, .inl he, hy, h⟩
          · obtain ⟨rfl, rfl⟩ := List.cons.inj hr
            exact ⟨_, .inr rfl, rfl, h⟩
  | cons z d ih =>
    cases t with
    | leaf a => simp [insert, modify]
    | dir es =>
      cases q with
      | nil => simp [insert, modify, hφ _ es]
      | cons y q =>
        unfold insert at ih ⊢
        rw [at_modify_cons, at_cons, at_cons]
        by_cases hyz : y = z
        · subst hyz
          simp only [if_true, ih, List.cons_append, List.cons.injEq, true_and]
          constructor
          · rintro ⟨e, he, hy, h | ⟨hd, hr⟩⟩
            · exact .inl ⟨e, he, hy, h⟩
            · exact .inr ⟨⟨e, he, hy, hd⟩, hr⟩
          · rintro (⟨e, he, hy, h⟩ | ⟨⟨e, he, hy, hd⟩, hr⟩)
            · exact ⟨e, he, hy, .inl h⟩
            · exact ⟨e, he, hy, .inr ⟨hd, hr⟩⟩
        · simp [hyz]

/-- **Removal**: nothing is left at the entry and below, elsewhere nothing has changed. -/
theorem at_remove (hφ : Shallow φ) :
    At φ q (remove d x t) = true ↔ At φ q t = true ∧ ¬ (d ++ [x]) <+: q := by
  induction d generalizing q t with
  | nil =>
    cases t with
    | leaf a => cases q <;> simp [remove, modify]
    | dir es =>
      cases q with
      | nil => simp [remove, modify, hφ _ es]
      | cons y q =>
        simp only [remove, modify, at_cons, List.mem_filter, List.nil_append, List.cons_prefix_cons, List.nil_prefix,
          and_true, decide_eq_true_eq]
        constructor
        · rintro ⟨e, ⟨he, hne⟩, hy, h⟩
          exact ⟨⟨e, he, hy, h⟩, fun hxy => hne (hy.trans hxy.symm)⟩
        · rintro ⟨⟨e, he, hy, h⟩, hne⟩
          exact ⟨e, ⟨he, fun hx => hne (hx.symm.trans hy)⟩, hy, h⟩
  | cons z d ih =>
    cases t with
    | leaf a => cases q <;> simp [remove, modify]
    | dir es =>
      cases q with
      | nil => simp [remove, modify, hφ _ es]
      | cons y q =>
        unfold remove at ih ⊢
        rw [at_modify_cons, at_cons]
        by_cases hyz : y = z
        · subst hyz
          simp only [if_true, ih, List.cons_append, List.cons_prefix_cons, true_and]
          constructor
          · rintro ⟨e, he, hy, h, hne⟩
            exact ⟨⟨e, he, hy, h⟩, hne⟩
          · rintro ⟨⟨e, he, hy, h⟩, hne⟩
            exact ⟨e, he, hy, h, hne⟩
        · simp [hyz, Ne.symm hyz]

/-! ## Leaves -/

section Leaves

variable {τ' : Type*}

omit [DecidableEq ν]

mutual

/-- The leaves and their paths, depth first. -/
def leaves : Tree ν τ → List (List ν × τ)
  | leaf a => [([], a)]
  | dir es => leavesOf es

def leavesOf : List (ν × Tree ν τ) → List (List ν × τ)
  | [] => []
  | (x, t) :: es => (leaves t).map (fun r => (x :: r.1, r.2)) ++ leavesOf es

end

mutual

/-- The tree with its leaves changed. -/
def mapLeaves (f : τ → τ') : Tree ν τ → Tree ν τ'
  | leaf a => leaf (f a)
  | dir es => dir (mapEntries f es)

def mapEntries (f : τ → τ') : List (ν × Tree ν τ) → List (ν × Tree ν τ')
  | [] => []
  | (x, t) :: es => (x, mapLeaves f t) :: mapEntries f es

end

mutual

/-- **Induction on trees**: for a directory the statement holds of its entries. -/
@[elab_as_elim]
theorem induct {P : Tree ν τ → Prop} (leaf : ∀ a, P (leaf a)) (dir : ∀ es, (∀ e ∈ es, P e.2) → P (dir es)) : ∀ t, P t
  | .leaf a => leaf a
  | .dir es => dir es (inductEntries leaf dir es)

theorem inductEntries {P : Tree ν τ → Prop} (leaf : ∀ a, P (leaf a)) (dir : ∀ es, (∀ e ∈ es, P e.2) → P (dir es)) :
    ∀ es : List (ν × Tree ν τ), ∀ e ∈ es, P e.2
  | [], _, h => by cases h
  | (_, t) :: es, e, h => by
    rcases List.mem_cons.mp h with rfl | h
    · exact induct leaf dir t
    · exact inductEntries leaf dir es e h

end

@[simp] theorem leaves_leaf (a : τ) : leaves (leaf a : Tree ν τ) = [([], a)] := by rw [leaves]

theorem leaves_dir : leaves (dir es) = es.flatMap fun e => (leaves e.2).map fun r => (e.1 :: r.1, r.2) := by
  rw [leaves]
  induction es with
  | nil => rw [leavesOf, List.flatMap_nil]
  | cons e es ih =>
    obtain ⟨x, t⟩ := e
    rw [leavesOf, ih, List.flatMap_cons]

theorem mapEntries_eq (f : τ → τ') : mapEntries f es = es.map fun e => (e.1, mapLeaves f e.2) := by
  induction es with
  | nil => rw [mapEntries, List.map_nil]
  | cons e es ih =>
    obtain ⟨x, t⟩ := e
    rw [mapEntries, ih, List.map_cons]

/-- In every directory the list of names satisfies `P`. -/
inductive Names (P : List ν → Prop) : Tree ν τ → Prop
  | leaf (a : τ) : Names P (leaf a)
  | dir {es : List (ν × Tree ν τ)} : P (es.map Prod.fst) → (∀ e ∈ es, Names P e.2) → Names P (dir es)

theorem Names.mono {P Q : List ν → Prop} (h : Names P t) (hw : ∀ l, P l → Q l) : Names Q t := by
  induction h with
  | leaf a => exact .leaf a
  | dir hnames _ ih => exact .dir (hw _ hnames) ih

/-- The names on the paths to leaves are those of directories. -/
theorem Names.forall_mem {Q : ν → Prop} (h : Names (∀ x ∈ ·, Q x) t) {r : List ν × τ} (hr : r ∈ leaves t) :
    ∀ x ∈ r.1, Q x := by
  induction h generalizing r with
  | leaf a =>
    rw [leaves_leaf, List.mem_singleton] at hr
    simp [hr]
  | dir hnames _ ih =>
    rw [leaves_dir] at hr
    obtain ⟨e, he, hr⟩ := List.mem_flatMap.mp hr
    obtain ⟨r', hr', rfl⟩ := List.mem_map.mp hr
    intro x hx
    rcases List.mem_cons.mp hx with rfl | hx
    · exact hnames _ (List.mem_map_of_mem he)
    · exact ih e he hr' x hx

/-- **Each leaf has a path of its own** where the names in each directory are distinct. -/
theorem nodup_leaves (h : Names List.Nodup t) : ((leaves t).map Prod.fst).Nodup := by
  induction h with
  | leaf a => simp
  | @dir es hnames _ ih =>
    have hmap : (leaves (.dir es)).map Prod.fst =
        es.flatMap fun e => ((leaves e.2).map Prod.fst).map (e.1 :: ·) := by
      rw [leaves_dir, List.map_flatMap]
      simp only [List.map_map, Function.comp_def]
    rw [hmap, List.nodup_flatMap]
    constructor
    · exact fun e he => (ih e he).map fun p q hpq => (List.cons.inj hpq).2
    · refine (List.pairwise_map.mp hnames).imp fun {e e'} hne => ?_
      intro p hp hp'
      obtain ⟨q, -, rfl⟩ := List.mem_map.mp hp
      obtain ⟨q', -, hq'⟩ := List.mem_map.mp hp'
      exact hne (List.cons.inj hq').1.symm

end Leaves

end Tree

end FileTree
