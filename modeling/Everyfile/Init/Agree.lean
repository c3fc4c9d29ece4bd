import Everyfile.Init.History

/-!
# The daemon's table and the table of `--init`

The daemon builds its table from the events of a history, `--init` from a scan of the tree after it. The first has a row
for each regular file and each directory, under its path (`Indexed`); the second has rows for the regular files only,
each under its path with the last byte repeated (`entries_initRun`). The two agree for the trees without regular files
and directories, and for no others (`index_agrees_iff`).
-/

namespace Everyfile.Init

open FileTree (Tree)
open Db (Sqlite Table Row)
open Daemon (DbCall)

/-! ## The two tables -/

/-- The daemon's passes over the messages of a history, each with the time it is received at. -/
def daemonRun (E : Sqlite) : FileInfo × Table → List (Op × Int64) → Option (FileInfo × Table)
  | s, [] => some s
  | s, (o, now) :: os => (Daemon.pass E s o.event.encode now.toInt).bind (daemonRun E · os)

/-- The calls of `in_db` for the records of a scan. -/
def initRun (E : Sqlite) : Table → List FileInfo → Option Table
  | t, [] => some t
  | t, info :: infos => ((DbCall.add info).run E t).bind (initRun E · infos)

/-- The tree has no regular file, and no directory but its root. -/
def Bare (T : FsNode) : Prop := (∀ q, Tree.At isReg q T = false) ∧ ∀ q, Tree.At Tree.isDir q T = true → q = []

/-! ## The daemon -/

def regType : List Byte := decimal FileType.EREG.toNat
def dirType : List Byte := decimal FileType.EDIR.toNat

/-- The node at the path has a row of this type. -/
def Recorded (t : FsNode) (q : List Name) (ty : List Byte) : Prop :=
  ty = regType ∧ Tree.At isReg q t = true ∨ ty = dirType ∧ Tree.At Tree.isDir q t = true

/-- The table has the rows of the tree's regular files and directories under their paths. -/
structure Indexed (t : FsNode) (tbl : Table) : Prop where
  names : ∀ q, Tree.At (fun _ => true) q t = true → PathOk q
  entries : ∀ k, k ∈ tbl.entries ↔ ∃ q, q ≠ [] ∧ k.1 = pathText q ∧ Recorded t q k.2

theorem indexed_empty : Indexed (.dir []) Table.empty where
  names q h := by
    obtain ⟨rfl, -⟩ := (at_of_noEntries (.inr rfl)).mp h
    exact ⟨by simp, by simp⟩
  entries k := by
    simp only [Table.entries_empty, Set.mem_empty_iff_false, false_iff, not_exists]
    rintro q ⟨hq, -, ⟨-, h⟩ | ⟨-, h⟩⟩
    · exact hq ((at_of_noEntries (.inr rfl)).mp h).1
    · exact hq ((at_of_noEntries (.inr rfl)).mp h).1

variable {E : Sqlite} {t : FsNode} {tbl : Table} {d q : List Name} {x : Name}

theorem Recorded.at {ty : List Byte} (h : Recorded t q ty) : Tree.At (fun _ => true) q t = true := by
  rcases h with ⟨-, h⟩ | ⟨-, h⟩ <;> exact Tree.At.mono h fun _ _ => rfl

/-- A free path has no row. -/
theorem Indexed.notMem (h : Indexed t tbl) {p : List Name} (hp : PathOk p)
    (hfree : Tree.At (fun _ => true) p t = false) : pathText p ∉ tbl.rows.map Row.file_name := by
  rw [Table.mem_names_iff]
  rintro ⟨ty, hty⟩
  obtain ⟨q, -, htext, hrec⟩ := (h.entries _).mp hty
  obtain rfl := pathText_injective hp.1 (h.names q hrec.at).1 htext
  rw [hrec.at] at hfree
  cases hfree

theorem Indexed.names_insert (h : Indexed t tbl) {n : FsNode} (hn : n.isDir = false ∨ n.isEmptyDir = true) (slot : Nat)
    (hd : Tree.At Tree.isDir d t = true) (hp : PathOk (d ++ [x])) :
    ∀ q, Tree.At (fun _ => true) q (Tree.insert d x slot n t) = true → PathOk q := by
  intro q hq
  rcases (at_insert_iff (fun _ _ => rfl) hn slot hd).mp hq with hq | ⟨rfl, -⟩
  · exact h.names q hq
  · exact hp

/-- A new file or directory and its row. -/
theorem Indexed.insert (h : Indexed t tbl) {n : FsNode} (hn : n.isDir = false ∨ n.isEmptyDir = true) (slot : Nat)
    (hd : Tree.At Tree.isDir d t = true) (hfree : Tree.At (fun _ => true) (d ++ [x]) t = false)
    (hp : PathOk (d ++ [x])) {r : Row} (hname : r.file_name = pathText (d ++ [x]))
    (htype : ∀ ty, ty = regType ∧ isReg n = true ∨ ty = dirType ∧ n.isDir = true ↔ ty = r.file_type) :
    Indexed (Tree.insert d x slot n t) (tbl.add r) where
  names := h.names_insert hn slot hd hp
  entries k := by
    have hrec : ∀ q ty, Recorded (Tree.insert d x slot n t) q ty ↔
        Recorded t q ty ∨ q = d ++ [x] ∧ ty = r.file_type := by
      intro q ty
      simp only [Recorded, at_insert_iff shallow_isReg hn slot hd, at_insert_iff Tree.shallow_isDir hn slot hd,
        ← htype]
      tauto
    rw [Table.mem_entries_add (hname ▸ h.notMem hp hfree), h.entries]
    simp only [hrec]
    constructor
    · rintro (⟨q, hq, htext, hr⟩ | rfl)
      · exact ⟨q, hq, htext, .inl hr⟩
      · exact ⟨d ++ [x], by simp, hname, .inr ⟨rfl, rfl⟩⟩
    · rintro ⟨q, hq, htext, hr | ⟨rfl, hty⟩⟩
      · exact .inl ⟨q, hq, htext, hr⟩
      · exact .inr (Prod.ext (htext.trans hname.symm) hty)

/-- A new node without a row. -/
theorem Indexed.insert_other (h : Indexed t tbl) {n : FsNode} (hdir : n.isDir = false) (hreg : isReg n = false)
    (slot : Nat) (hd : Tree.At Tree.isDir d t = true) (hp : PathOk (d ++ [x])) :
    Indexed (Tree.insert d x slot n t) tbl where
  names := h.names_insert (.inl hdir) slot hd hp
  entries k := by
    rw [h.entries]
    simp only [Recorded, at_insert_iff shallow_isReg (.inl hdir) slot hd,
      at_insert_iff Tree.shallow_isDir (.inl hdir) slot hd, hdir, hreg]
    simp

/-- A removed node and its row. -/
theorem Indexed.remove (h : Indexed t tbl)
    (hrem : Tree.At (fun n => n.isDir && !n.isEmptyDir) (d ++ [x]) t = false) (hp : PathOk (d ++ [x])) :
    Indexed (Tree.remove d x t) (tbl.erase (pathText (d ++ [x]))) where
  names q hq := h.names q ((at_remove_iff (fun _ _ => rfl) hrem).mp hq).1
  entries k := by
    have hrec : ∀ q ty, Recorded (Tree.remove d x t) q ty ↔ Recorded t q ty ∧ q ≠ d ++ [x] := by
      intro q ty
      simp only [Recorded, at_remove_iff shallow_isReg hrem, at_remove_iff Tree.shallow_isDir hrem]
      tauto
    rw [Table.mem_entries_erase, h.entries]
    simp only [hrec]
    constructor
    · rintro ⟨⟨q, hq, htext, hr⟩, hne⟩
      exact ⟨q, hq, htext, hr, fun heq => hne (heq ▸ htext)⟩
    · rintro ⟨q, hq, htext, hr, hne⟩
      exact ⟨⟨q, hq, htext, hr⟩, fun heq => hne (pathText_injective (h.names q hr.at).1 hp.1 (htext ▸ heq))⟩

theorem Op.wf {o : Op} (h : PathOk o.path) : o.event.WF where
  flags_pos := by cases o <;> simp [Op.event, Op.flag]
  flags_le := by cases o <;> simp [Op.event, Op.flag]
  nulFree := by
    obtain ⟨x, p, hp⟩ : ∃ x p, o.path = x :: p := by
      cases o <;> exact List.exists_cons_of_ne_nil (by simp [Op.path])
    exact (plainName_pathText h (by simp [hp])).nulFree
  length_le := h.2

theorem Op.path_ne_nil (o : Op) : o.path ≠ [] := by
  cases o <;> simp [Op.path]

/-- **One event**: the daemon keeps its table that of the tree. -/
theorem Indexed.event (h : Indexed t tbl) {o : Op} (hv : o.Valid t) (now : Int64) :
    ∃ tbl', Daemon.applyEvent E tbl o.event now.toInt = some tbl' ∧ Indexed (o.apply t) tbl' := by
  obtain ⟨hp, hv⟩ := hv
  have hplain := plainName_pathText hp o.path_ne_nil
  cases o with
  | create d x slot mtime =>
    exact ⟨_, hplain.run_add .EREG now, h.insert (.inl rfl) slot hv.1 hv.2 hp rfl
      (by simp [isReg, Tree.isDir, regType])⟩
  | mkdir d x slot =>
    exact ⟨_, hplain.run_add .EDIR now, h.insert (.inr rfl) slot hv.1 hv.2 hp rfl
      (by simp [isReg, Tree.isDir, dirType])⟩
  | symlink d x slot => exact ⟨tbl, rfl, h.insert_other rfl rfl slot hv.1 hp⟩
  | unlink d x =>
    refine ⟨_, hplain.run_rm, h.remove ?_ hp⟩
    by_contra hne
    have hdir : Tree.At Tree.isDir (d ++ [x]) t = true :=
      Tree.At.mono (eq_true_of_ne_false hne) fun n hn => (Bool.and_eq_true_iff.mp hn).1
    rw [hv.2] at hdir
    cases hdir
  | rmdir d x =>
    refine ⟨_, hplain.run_rm, h.remove ?_ hp⟩
    by_contra hne
    have hfull : Tree.At (!·.isEmptyDir) (d ++ [x]) t = true :=
      Tree.At.mono (eq_true_of_ne_false hne) fun n hn => (Bool.and_eq_true_iff.mp hn).2
    rw [hv.2] at hfull
    cases hfull

/-- **The daemon's table after a history.** -/
theorem indexed_daemonRun {hist : List (Op × Int64)} {T : FsNode} (h : Indexed t tbl) (info : FileInfo)
    (hr : replay t (hist.map Prod.fst) = some T) :
    ∃ td, (daemonRun E (info, tbl) hist).map Prod.snd = some td ∧ Indexed T td := by
  induction hist generalizing t tbl info with
  | nil =>
    cases hr
    exact ⟨tbl, rfl, h⟩
  | cons e hist ih =>
    obtain ⟨o, now⟩ := e
    simp only [List.map_cons, replay] at hr
    obtain ⟨hv, hr⟩ := Option.ite_none_right_eq_some.mp hr
    obtain ⟨tbl', happly, h'⟩ := h.event (E := E) hv now
    rw [← Daemon.pass_event E (info, tbl) (Op.wf hv.1)] at happly
    obtain ⟨⟨info', _⟩, hpass, rfl⟩ := Option.map_eq_some_iff.mp happly
    obtain ⟨td, htd, hi⟩ := ih h' info' hr
    refine ⟨td, ?_, hi⟩
    rw [daemonRun, hpass, Option.bind_some, htd]

/-! ## `--init` -/

/-- The name under which `add` stores a path the scan has found: without the root's slash, its last byte repeated. -/
def scanName (n : List Byte) : List Byte := n ++ n.drop (n.length - 1)

/-- A record of a regular file of the tree below the root. -/
def FromScan (T : FsNode) (info : FileInfo) : Prop :=
  info.file_type = .EREG ∧ (∃ mtime : Int64, info.file_time = mtime.toInt) ∧
    ∃ q, q ≠ [] ∧ PathOk q ∧ Tree.At isReg q T = true ∧ info.file_name = bytes "/" ++ pathText q

theorem length_scanName_lt {n : List Byte} (h : n ≠ []) : n.length < (scanName n).length := by
  have := List.length_pos_of_ne_nil h
  simp only [scanName, List.length_append, List.length_drop]
  omega

/-- The call of `add` for a record of the scan. -/
theorem run_add_scan (tbl : Table) {q : List Name} (hq : q ≠ []) (hp : PathOk q) (mtime : Int64) :
    (DbCall.add ⟨bytes "/" ++ pathText q, .EREG, mtime.toInt⟩).run E tbl =
      some (tbl.add ⟨scanName (pathText q), regType, E.datetime mtime.toInt⟩) := by
  have hplain := plainName_pathText hp hq
  have hmem : ∀ b ∈ scanName (pathText q), b ∈ pathText q := by
    intro b hb
    exact (List.mem_append.mp hb).elim id List.mem_of_mem_drop
  have hlen : (scanName (pathText q)).length ≤ 1024 := by
    have := hplain.length_le
    simp only [scanName, List.length_append, List.length_drop]
    omega
  have hnorm : Db.EfDb.normalise (bytes "/" ++ pathText q) = scanName (pathText q) :=
    Db.EfDb.normalise_slash hplain.head
  rw [DbCall.run, Db.add_eq hnorm (fun b hb => hplain.nulFree b (hmem b hb)) (fun hb => hplain.quoteFree (hmem _ hb))
    (Db.length_addText_lt _ hlen mtime)]
  rfl

/-- **The table of a scan.** -/
theorem entries_initRun (tbl : Table) {T : FsNode} {infos : List FileInfo} (hinfos : ∀ info ∈ infos, FromScan T info)
    (htbl : ∀ k ∈ tbl.entries, k.2 = regType) :
    ∃ ti, initRun E tbl infos = some ti ∧
      ∀ k, k ∈ ti.entries ↔ k ∈ tbl.entries ∨ ∃ info ∈ infos, k = (scanName info.file_name.tail, regType) := by
  induction infos generalizing tbl with
  | nil => exact ⟨tbl, rfl, by simp⟩
  | cons info infos ih =>
    obtain ⟨htype, ⟨mtime, htime⟩, q, hq, hp, -, hname⟩ := hinfos info (by simp)
    obtain rfl : info = ⟨bytes "/" ++ pathText q, .EREG, mtime.toInt⟩ := by
      cases info
      simp_all
    have hrun := run_add_scan (E := E) tbl hq hp mtime
    have hadd := fun k => Table.mem_entries_add_of_type (t := tbl) (k := k)
      (r := ⟨scanName (pathText q), regType, E.datetime mtime.toInt⟩) htbl
    obtain ⟨ti, hti, hent⟩ := ih (tbl.add _) (fun i hi => hinfos i (by simp [hi])) fun k hk => by
      rcases (hadd k).mp hk with hk | rfl
      · exact htbl k hk
      · rfl
    refine ⟨ti, by rw [initRun, hrun, Option.bind_some, hti], fun k => ?_⟩
    have htail : (bytes "/" ++ pathText q).tail = pathText q := rfl
    rw [hent, hadd, List.exists_mem_cons_iff, htail, or_assoc]

/-- The records of a scan from the root. -/
theorem fromScan_of_mem {T : FsNode} (hT : T.isDir = true) (hnames : ∀ q, Tree.At (fun _ => true) q T = true → PathOk q)
    {info : FileInfo} (h : info ∈ traverse (bytes "/") T) : FromScan T info := by
  obtain ⟨htype, htime, q, hq, hname⟩ := reports_of_mem_traverse T h
  refine ⟨htype, htime, q, ?_, hnames q (Tree.At.mono hq fun _ _ => rfl), hq, hname⟩
  rintro rfl
  rw [Tree.at_nil] at hq
  cases T <;> simp_all [isReg, Tree.isDir]

/-- The rows of `--init`: the regular files, under their names of the scan. -/
theorem entries_scan {T : FsNode} (hT : T.isDir = true)
    (hnames : ∀ q, Tree.At (fun _ => true) q T = true → PathOk q) :
    ∃ ti, initRun E Table.empty (traverse (bytes "/") T) = some ti ∧
      ∀ k, k ∈ ti.entries ↔ ∃ q, q ≠ [] ∧ Tree.At isReg q T = true ∧ k = (scanName (pathText q), regType) := by
  have hfrom : ∀ info ∈ traverse (bytes "/") T, FromScan T info := fun _ => fromScan_of_mem hT hnames
  obtain ⟨ti, hti, hi⟩ := entries_initRun (E := E) Table.empty hfrom (by simp)
  refine ⟨ti, hti, fun k => ?_⟩
  rw [hi]
  simp only [Table.entries_empty, Set.mem_empty_iff_false, false_or]
  constructor
  · rintro ⟨info, hinfo, rfl⟩
    obtain ⟨-, -, q, hq, -, hreg, hname⟩ := hfrom info hinfo
    exact ⟨q, hq, hreg, by rw [hname]; rfl⟩
  · rintro ⟨q, -, hreg, rfl⟩
    have hlisted : ∀ x ∈ q, Listed x := fun x hx => ((hnames q (Tree.At.mono hreg fun _ _ => rfl)).1 x hx).listed
    obtain ⟨info, hinfo, hname⟩ := mem_traverse_of_at (bytes "/") hreg hlisted
    exact ⟨info, hinfo, by rw [hname]; rfl⟩

/-! ## Agreement -/

theorem regType_ne_dirType : regType ≠ dirType := by decide

/-- The shortest path of a regular file is no name of the scan: these are longer than the paths they come from. -/
theorem no_reg_of_scanned {T : FsNode}
    (h : ∀ q, q ≠ [] → Tree.At isReg q T = true → ∃ q', q' ≠ [] ∧ Tree.At isReg q' T = true ∧
      pathText q = scanName (pathText q')) (q : List Name) (hq : q ≠ []) : Tree.At isReg q T = false := by
  induction hn : (pathText q).length using Nat.strong_induction_on generalizing q with
  | _ n ih =>
    by_contra hreg
    obtain ⟨q', hq', hreg', htext⟩ := h q hq (eq_true_of_ne_false hreg)
    have hlt : (pathText q').length < n := by
      have hne : pathText q' ≠ [] := by cases q' <;> simp_all [pathText_cons, bytes]
      rw [← hn, htext]
      exact length_scanName_lt hne
    rw [ih _ hlt q' hq' rfl] at hreg'
    cases hreg'

/-- **When the two ways of building the index agree**: after a history that leaves neither a regular file nor a
directory besides the root. -/
theorem index_agrees_iff (E : Sqlite) (info : FileInfo) {hist : List (Op × Int64)} {T : FsNode}
    (h : replay (.dir []) (hist.map Prod.fst) = some T) :
    ∃ td ti, (daemonRun E (info, Table.empty) hist).map Prod.snd = some td ∧
      initRun E Table.empty (traverse (bytes "/") T) = some ti ∧ (td.entries = ti.entries ↔ Bare T) := by
  have hT : T.isDir = true := isDir_of_replay h rfl
  have hroot : isReg T = false := by cases T <;> simp_all [isReg, Tree.isDir]
  obtain ⟨td, htd, hd⟩ := indexed_daemonRun (E := E) indexed_empty info h
  obtain ⟨ti, hti, hi⟩ := entries_scan (E := E) hT hd.names
  refine ⟨td, ti, htd, hti, ?_, ?_⟩
  · intro heq
    have hsame : ∀ q ty, q ≠ [] → Recorded T q ty →
        ∃ q', q' ≠ [] ∧ Tree.At isReg q' T = true ∧ (pathText q, ty) = (scanName (pathText q'), regType) := by
      intro q ty hq hrec
      exact (hi _).mp (heq ▸ (hd.entries _).mpr ⟨q, hq, rfl, hrec⟩)
    refine ⟨fun q => ?_, fun q hdir => ?_⟩
    · by_cases hq : q = []
      · rw [hq, Tree.at_nil, hroot]
      refine no_reg_of_scanned (fun q hq hreg => ?_) q hq
      obtain ⟨q', hq', hreg', hk⟩ := hsame q regType hq (.inl ⟨rfl, hreg⟩)
      exact ⟨q', hq', hreg', congrArg Prod.fst hk⟩
    · by_contra hq
      obtain ⟨_, -, -, hk⟩ := hsame q dirType hq (.inr ⟨rfl, hdir⟩)
      exact regType_ne_dirType (congrArg Prod.snd hk).symm
  · rintro ⟨hreg, hdir⟩
    ext k
    rw [hd.entries, hi]
    constructor
    · rintro ⟨q, hq, -, ⟨-, h⟩ | ⟨-, h⟩⟩
      · rw [hreg] at h; cases h
      · exact absurd (hdir q h) hq
    · rintro ⟨q, -, h, -⟩
      rw [hreg] at h; cases h

/-- A directory with a file comes and goes, a link stays. -/
def comeAndGo : List (Op × Int64) :=
  [(.mkdir [] (bytes "d") 0, 1), (.create [bytes "d"] (bytes "f") 0 2, 2), (.symlink [] (bytes "l") 1, 3),
    (.unlink [bytes "d"] (bytes "f"), 4), (.rmdir [] (bytes "d"), 5)]

theorem index_agrees_comeAndGo : ∃ td ti,
    (daemonRun Db.plainEngine (⟨[], .ELNK, 0⟩, Table.empty) comeAndGo).map Prod.snd = some td ∧
      initRun Db.plainEngine Table.empty (traverse (bytes "/") (.dir [(bytes "l", .leaf (.other .ELNK))])) = some ti ∧
      (td.entries = ti.entries ↔ Bare (.dir [(bytes "l", .leaf (.other .ELNK))])) :=
  index_agrees_iff Db.plainEngine ⟨[], .ELNK, 0⟩ rfl

/-- One file: the daemon stores `/a`, `--init` stores `/aa`. -/
theorem index_disagrees :
    let hist : List (Op × Int64) := [(.create [] (bytes "a") 0 5, 7)]
    let T : FsNode := .dir [(bytes "a", .leaf (.reg 5))]
    replay (.dir []) (hist.map Prod.fst) = some T ∧
      ∃ td ti, (daemonRun Db.plainEngine (⟨[], .ELNK, 0⟩, Table.empty) hist).map Prod.snd = some td ∧
        initRun Db.plainEngine Table.empty (traverse (bytes "/") T) = some ti ∧
        td.entries = {(bytes "/a", bytes "1")} ∧ ti.entries = {(bytes "/aa", bytes "1")} ∧ td.entries ≠ ti.entries := by
  refine ⟨rfl, ⟨[⟨bytes "/a", bytes "1", none⟩], by decide⟩, ⟨[⟨bytes "/aa", bytes "1", none⟩], by decide⟩, by decide,
    by decide, ?_⟩
  have hd : (⟨[⟨bytes "/a", bytes "1", none⟩], by decide⟩ : Table).entries = {(bytes "/a", bytes "1")} := by
    ext k
    simp [Table.entries, eq_comm]
  have hi : (⟨[⟨bytes "/aa", bytes "1", none⟩], by decide⟩ : Table).entries = {(bytes "/aa", bytes "1")} := by
    ext k
    simp [Table.entries, eq_comm]
  refine ⟨hd, hi, fun heq => ?_⟩
  rw [hd, hi, Set.singleton_eq_singleton_iff] at heq
  exact absurd heq (by decide)

end Everyfile.Init
