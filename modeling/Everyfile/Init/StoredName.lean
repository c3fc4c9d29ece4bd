import Everyfile.Db.Refine
import Everyfile.Init.Scan

/-!
# The name that is stored

`add` rewrites a name that begins with two slashes: it shifts the bytes to the left over one of them, and leaves the
size as it was, so that the last byte stands twice. Names without the two slashes are kept, and no others but runs of
slashes (`keeps_name_iff`). Every record of a scan from `/` has the two slashes, so no file is stored under its path
(`stored_names_iff`); the names stored are still distinct (`nodup_stored`).
-/

namespace Everyfile.Init

open FileTree (Tree)

/-- The name in the text of `add`. -/
def storedName (n : List Byte) : List Byte := cstr (Db.EfDb.normalise n)

/-- What the rewriting is for: of two slashes one is left, other names are kept, and it is done once. -/
structure KeepsName (n : List Byte) : Prop where
  doubled : ∀ r, n = bytes "//" ++ r → r.head? ≠ some 47 → storedName n = bytes "/" ++ r
  other : ¬bytes "//" <+: n → storedName n = n
  again : Db.EfDb.normalise (Db.EfDb.normalise n) = Db.EfDb.normalise n

/-- The condition: a C string without the two slashes, or nothing but three or more slashes. -/
def Kept (n : List Byte) : Prop := if bytes "//" <+: n then (∀ b ∈ n, b = 47) ∧ 3 ≤ n.length else NulFree n

/-! ## The rewriting -/

variable {n r : List Byte}

theorem normalise_other (h : ¬bytes "//" <+: n) : Db.EfDb.normalise n = n :=
  Db.normalise_eq_self fun hs => h (Db.slashes_iff.mp hs)

/-- The shift keeps the size: one slash goes, and the last byte comes twice. -/
theorem normalise_doubled {b : Byte} {r : List Byte} :
    Db.EfDb.normalise (47 :: 47 :: (r ++ [b])) = 47 :: (r ++ [b]) ++ [b] := by
  have hdrop : (47 :: (r ++ [b])).drop ((47 :: (r ++ [b])).length - 1) = [b] := by
    have hcons : 47 :: (r ++ [b]) = (47 :: r) ++ [b] := rfl
    rw [hcons, List.length_append, List.length_singleton, Nat.add_sub_cancel, List.drop_left]
  rw [Db.EfDb.normalise_slash rfl, hdrop]

/-- The stored name is one byte too long, or ends early. -/
theorem storedName_ne (r : List Byte) : storedName (bytes "//" ++ r) ≠ bytes "/" ++ r := by
  intro h
  have hfree : NulFree (bytes "/" ++ r) := h ▸ Db.nulFree_cstr _
  have hnul : NulFree (bytes "//" ++ r) := by
    apply nulFree_append
    · decide
    · exact fun b hb => hfree b (List.mem_append_right _ hb)
  have hcut : storedName (bytes "//" ++ r) = Db.EfDb.normalise (bytes "//" ++ r) :=
    cstr_of_nulFree (Db.nulFree_normalise hnul)
  have hlen := congrArg List.length (hcut.symm.trans h)
  rw [Db.length_normalise, List.length_append, List.length_append] at hlen
  simp [bytes] at hlen

/-- A list that is its own shift. -/
theorem eq_of_cons_eq_append {a b : Byte} {l : List Byte} (h : a :: l = l ++ [b]) : ∀ c ∈ l, c = a := by
  induction l generalizing a with
  | nil => exact List.forall_mem_nil _
  | cons c l ih =>
    obtain ⟨rfl, htail⟩ := List.cons.inj h
    rw [List.forall_mem_cons]
    exact ⟨rfl, ih htail⟩

/-- Nothing but slashes is kept. -/
theorem normalise_slashes (h : ∀ b ∈ n, b = 47) : Db.EfDb.normalise n = n := by
  have hmem : ∀ b ∈ Db.EfDb.normalise n, b = 47 := fun b hb => h b (Db.mem_normalise hb)
  calc Db.EfDb.normalise n = List.replicate (Db.EfDb.normalise n).length 47 := List.eq_replicate_of_mem hmem
    _ = List.replicate n.length 47 := by rw [Db.length_normalise]
    _ = n := (List.eq_replicate_of_mem h).symm

/-- From three slashes on the rewriting is done again, and comes to an end with slashes only. -/
theorem slashes_of_again (h : Db.EfDb.normalise (Db.EfDb.normalise (47 :: 47 :: 47 :: r)) =
    Db.EfDb.normalise (47 :: 47 :: 47 :: r)) : ∀ b ∈ r, b = 47 := by
  obtain ⟨l, b, hl⟩ : ∃ l b, 47 :: r = l ++ [b] := by
    simpa using (List.eq_nil_or_concat (47 :: r)).resolve_left (List.cons_ne_nil _ _)
  have honce : Db.EfDb.normalise (47 :: 47 :: 47 :: r) = 47 :: 47 :: (r ++ [b]) := by
    rw [hl, normalise_doubled, ← hl]
    rfl
  rw [honce, normalise_doubled] at h
  have hshift : 47 :: (r ++ [b]) = r ++ [b] ++ [b] := (List.cons.inj h).2.symm
  exact fun c hc => eq_of_cons_eq_append hshift c (List.mem_append_left _ hc)

/-- **The names that are kept.** -/
theorem keeps_name_iff (n : List Byte) : KeepsName n ↔ Kept n := by
  unfold Kept
  split
  next hs =>
    obtain ⟨r, rfl⟩ := hs
    constructor
    · intro h
      by_cases hr : r.head? = some 47
      · obtain ⟨r, rfl⟩ := List.head?_eq_some_iff.mp hr
        have hslashes := slashes_of_again h.again
        simpa [bytes] using hslashes
      · exact absurd (h.doubled r rfl hr) (storedName_ne r)
    · rintro ⟨hall, hlen⟩
      refine ⟨fun r' hr' hhead => ?_, fun hno => absurd (List.prefix_append _ _) hno, ?_⟩
      · obtain rfl := List.append_cancel_left hr'
        cases r with
        | nil => exact absurd hlen (by decide)
        | cons b r =>
          have hb : b = 47 := hall b (by simp)
          exact absurd (congrArg some hb) hhead
      · rw [normalise_slashes hall, normalise_slashes hall]
  next hs =>
    constructor
    · intro h
      exact h.other hs ▸ Db.nulFree_cstr _
    · intro h
      refine ⟨fun r hr => absurd (hr ▸ List.prefix_append _ _) hs, fun _ => ?_, ?_⟩
      · rw [storedName, normalise_other hs, cstr_of_nulFree h]
      · rw [normalise_other hs, normalise_other hs]

/-! ## The scan from `/` -/

/-- Each file is stored under its path, and under a name of its own. -/
structure KeepsPaths (F : Faults) (t : StatNode) : Prop where
  path : ∀ r ∈ reported F (bytes "/") t, storedName (record (bytes "/") r).file_name = pathText r.1
  distinct : ((reported F (bytes "/") t).map fun r => storedName (record (bytes "/") r).file_name).Nodup

variable {F : Faults} {es : List (Name × StatNode)}

/-- The path of a file below a directory has a first slash, which the record's name has twice. -/
theorem reported_slash {r : List Name × LeafStat} (h : r ∈ reported F (bytes "/") (.dir es)) :
    ∃ p, pathText r.1 = bytes "/" ++ p ∧ (record (bytes "/") r).file_name = bytes "//" ++ p := by
  rw [reported_dir] at h
  split at h
  next =>
    obtain ⟨e, -, h⟩ := List.mem_flatMap.mp h
    split at h
    next =>
      obtain ⟨r, -, rfl⟩ := List.mem_map.mp h
      exact ⟨e.1 ++ pathText r.1, rfl, rfl⟩
    next => cases h
  next => cases h

theorem keeps_paths_iff : KeepsPaths F (.dir es) ↔ reported F (bytes "/") (.dir es) = [] := by
  constructor
  · intro h
    apply List.eq_nil_iff_forall_not_mem.mpr
    intro r hr
    obtain ⟨p, hpath, hname⟩ := reported_slash hr
    have hstored := h.path r hr
    rw [hpath, hname] at hstored
    exact storedName_ne p hstored
  · intro h
    refine ⟨?_, ?_⟩
    · rw [h]
      exact List.forall_mem_nil _
    · rw [h]
      exact List.nodup_nil

/-- **When names are kept**: one name exactly under the condition, and the paths of a scan from `/` only where it has no
file to report. -/
theorem stored_names_iff (n : List Byte) (F : Faults) (es : List (Name × StatNode)) :
    (KeepsName n ↔ Kept n) ∧ (KeepsPaths F (.dir es) ↔ reported F (bytes "/") (.dir es) = []) :=
  ⟨keeps_name_iff n, keeps_paths_iff⟩

/-- The entries of a directory with one file. -/
def oneFile : List (Name × StatNode) := [(bytes "a", .leaf ⟨⟨0o100644, 9⟩, by decide⟩)]

/-- The record of the file `/a` is stored as `/aa`. -/
theorem doubled_stored :
    records (scan ⟨fun _ => false, fun _ => false⟩ (bytes "/") (.dir oneFile)).1 = [⟨bytes "//a", .EREG, 9⟩] ∧
      storedName (bytes "//a") = bytes "/aa" ∧ ¬KeepsName (bytes "//a") ∧
      ¬KeepsPaths ⟨fun _ => false, fun _ => false⟩ (.dir oneFile) := by
  have hrec : records (scan ⟨fun _ => false, fun _ => false⟩ (bytes "/") (.dir oneFile)).1 =
      [⟨bytes "//a", .EREG, 9⟩] := by
    simp only [scan, scanEntries, oneFile]
    decide
  refine ⟨hrec, by decide, fun h => ?_, fun h => ?_⟩
  · exact absurd (h.doubled (bytes "a") rfl (by decide)) (by decide)
  · rw [records_scan, keeps_paths_iff.mp h] at hrec
    cases hrec

/-! ## Distinct names -/

/-- The shift loses nothing. -/
theorem storedName_inj {p q : List Byte} (hp : NulFree p) (hq : NulFree q)
    (h : storedName (bytes "//" ++ p) = storedName (bytes "//" ++ q)) : p = q := by
  have hcut : ∀ {p : List Byte}, NulFree p →
      storedName (bytes "//" ++ p) = Db.EfDb.normalise (bytes "//" ++ p) := by
    intro p hp
    apply cstr_of_nulFree
    apply Db.nulFree_normalise
    exact nulFree_append (by decide) hp
  rw [hcut hp, hcut hq] at h
  have hlen := congrArg List.length h
  rw [Db.length_normalise, Db.length_normalise, List.length_append, List.length_append] at hlen
  have hshift : ∀ p : List Byte, Db.EfDb.normalise (bytes "//" ++ p) =
      47 :: p ++ (47 :: p).drop ((47 :: p).length - 1) := fun p => Db.EfDb.normalise_slash rfl
  rw [hshift, hshift] at h
  have hcons := List.append_inj_left h (by simp only [List.length_cons]; omega)
  exact (List.cons.inj hcons).2

/-- **Distinct files have distinct stored names**, although none is the file's path. -/
theorem nodup_stored (h : Tree.Names DirNames (.dir es : StatNode))
    (hz : Tree.Names (∀ x ∈ ·, NulFree x) (.dir es : StatNode)) :
    ((reported F (bytes "/") (.dir es)).map fun r => storedName (record (bytes "/") r).file_name).Nodup := by
  have hnodup := nodup_records (F := F) (bytes "/") h
  rw [records_scan, List.map_map] at hnodup
  have hfree : ∀ r ∈ reported F (bytes "/") (.dir es), NulFree (pathText r.1) := by
    intro r hr
    apply nulFree_pathText
    exact hz.forall_mem (List.mem_filter.mp hr).1
  have hmap : (reported F (bytes "/") (.dir es)).map (fun r => storedName (record (bytes "/") r).file_name) =
      ((reported F (bytes "/") (.dir es)).map (FileInfo.file_name ∘ record (bytes "/"))).map storedName := by
    rw [List.map_map]
    rfl
  rw [hmap]
  refine hnodup.map_on fun n hn n' hn' heq => ?_
  obtain ⟨r, hr, rfl⟩ := List.mem_map.mp hn
  obtain ⟨r', hr', rfl⟩ := List.mem_map.mp hn'
  obtain ⟨p, hp, hname⟩ := reported_slash hr
  obtain ⟨p', hp', hname'⟩ := reported_slash hr'
  -- what follows the two slashes is part of the path
  have hfreep : NulFree p := fun b hb => hfree r hr b (hp ▸ List.mem_append_right _ hb)
  have hfreep' : NulFree p' := fun b hb => hfree r' hr' b (hp' ▸ List.mem_append_right _ hb)
  rw [Function.comp_apply, Function.comp_apply, hname, hname'] at heq ⊢
  rw [storedName_inj hfreep hfreep' heq]

end Everyfile.Init
