import Everyfile.Daemon.Index
import Everyfile.Lib.Transition

/-!
# `--init` beside a live daemon

The scan reads a file's state and enqueues a record, `in_db` passes records to `add`, and the daemon applies the events
of creations and deletions to the same table, each of them at its own pace. Nothing ties the two writers together: a
record read before a deletion may be added after the daemon has applied it, and its row stays (`stale_row`). These are
the only rows of files that do not exist (`quiet_rows`).
-/

namespace Everyfile.Init.Live

open Daemon (DbCall PlainName)
open Db (Sqlite Table)
open Kernel (NlMsg)

/-- The absolute path of a file, without double quote and leading double slash. -/
abbrev FileName := { n : List Byte // PlainName n }

instance : DecidableEq FileName := inferInstanceAs (DecidableEq (Subtype _))

/-- The event of `vfs_create` or of `vfs_unlink`. -/
structure Event where
  created : Bool
  name : FileName
  deriving DecidableEq

def Event.msg (e : Event) : NlMsg := ⟨if e.created then 1 else 2, e.name⟩

/-- A record of the scan. -/
structure Record where
  name : FileName
  mtime : Int64
  deriving DecidableEq

def Record.info (r : Record) : FileInfo := ⟨r.name, .EREG, r.mtime.toInt⟩

structure State where
  files : List FileName
  scanning : Bool
  /-- Records enqueued and not yet added. -/
  buf : List Record
  /-- Events that have happened and that the daemon has not applied. -/
  pending : List Event
  table : Table
  /-- The files created or scanned in the run. -/
  touched : List FileName
  /-- The files whose record `in_db` has added after the daemon had applied their last deletion. -/
  late : List FileName

/-- Operations on the file system, steps of the scan, of `in_db` and of the daemon. -/
inductive Act
  | create (p : FileName)
  | unlink (p : FileName)
  | scan (p : FileName) (mtime : Int64)
  | scanDone
  | inDb
  | daemon (now : Int64)

variable (E : Sqlite)

/-- The call of `add` for a record: late, if the file is gone and no deletion of it is still to be applied. -/
def addRecord (s : State) (r : Record) (rest : List Record) : Option State :=
  ((DbCall.add r.info).run E s.table).map fun table =>
    { s with
      buf := rest
      table := table
      late := if r.name ∉ s.files ∧ ⟨false, r.name⟩ ∉ s.pending then r.name :: s.late else s.late }

def step (s : State) : Act → Option State
  | .create p =>
    if p ∈ s.files then none
    else some { s with
      files := p :: s.files
      pending := s.pending ++ [⟨true, p⟩]
      touched := p :: s.touched
      late := s.late.filter (· ≠ p) }
  | .unlink p =>
    if p ∈ s.files then
      some { s with files := s.files.filter (· ≠ p), pending := s.pending ++ [⟨false, p⟩] }
    else none
  | .scan p mtime =>
    -- `lstat` finds the node as it is now
    if s.scanning = false then none
    else if p ∈ s.files then some { s with buf := s.buf ++ [⟨p, mtime⟩], touched := p :: s.touched }
    else some s
  | .scanDone => some { s with scanning := false }
  | .inDb =>
    match s.buf with
    | [] => some s
    | r :: rest => addRecord E s r rest
  | .daemon now =>
    match s.pending with
    | [] => some s
    | e :: rest =>
      (Daemon.applyEvent E s.table e.msg now.toInt).map fun table => { s with pending := rest, table := table }

/-- The table is empty; there are files already. -/
def start (files : List FileName) : State := ⟨files, true, [], [], Table.empty, [], []⟩

def system : Transition.System State Act := ⟨fun s => ∃ files, s = start files, step E⟩

/-- The scan is over, and the queue and the list of pending events are empty. -/
def Quiet (s : State) : Prop := s.scanning = false ∧ s.buf = [] ∧ s.pending = []

/-- What is asked of a quiet state: the rows are those of existing files, and every existing file that was created or
scanned has one. -/
def Fresh (s : State) : Prop :=
  Quiet s → (∀ n ∈ s.table.names, ∃ p ∈ s.files, p.1 = n) ∧ ∀ p ∈ s.files, p ∈ s.touched → p.1 ∈ s.table.names

/-! ## The invariant -/

/-- The pending events of a file. -/
def State.events (s : State) (p : FileName) : List Event := s.pending.filter (·.name = p)

/-- What the table will say of a file once its pending events have been applied. -/
structure LiveInv (s : State) : Prop where
  last : ∀ p e, (s.events p).getLast? = some e → (e.created = true ↔ p ∈ s.files)
  row : ∀ p : FileName, s.events p = [] → p.1 ∈ s.table.names → p ∈ s.files ∨ p ∈ s.late
  found : ∀ p : FileName, s.events p = [] → p ∈ s.files → p ∈ s.touched →
    p.1 ∈ s.table.names ∨ ∃ r ∈ s.buf, r.name = p
  late : ∀ p : FileName, p ∈ s.late → p ∉ s.files ∧ s.events p = [] ∧ p.1 ∈ s.table.names
  named : ∀ n ∈ s.table.names, PlainName n

variable {E} {s s' : State}

theorem liveInv_start (files : List FileName) : LiveInv (start files) := by
  constructor <;> simp [start, State.events]

/-! ## Steps of the file system and of the scan -/

/-- A new event is the last one of its file. -/
theorem events_snoc (s s' : State) {e : Event} {p : FileName} (h : s'.pending = s.pending ++ [e]) :
    s'.events p = if e.name = p then s.events p ++ [e] else s.events p := by
  rw [State.events, h, List.filter_append]
  split <;> simp [State.events, *]

/-- The first event is taken from those of its file. -/
theorem events_cons (s s' : State) {e : Event} {p : FileName} (h : s.pending = e :: s'.pending) :
    s.events p = if e.name = p then e :: s'.events p else s'.events p := by
  rw [State.events, h, List.filter_cons]
  simp [State.events]

/-- A change of the file system: the event of a file settles whether it exists, and no row of it is late any more. -/
theorem LiveInv.event (h : LiveInv s) {e : Event} (hpending : s'.pending = s.pending ++ [e]) (hbuf : s'.buf = s.buf)
    (htable : s'.table = s.table) (hself : e.name ∈ s'.files ↔ e.created = true)
    (hfiles : ∀ q, q ≠ e.name → (q ∈ s'.files ↔ q ∈ s.files))
    (htouched : ∀ q, q ≠ e.name → q ∈ s'.touched → q ∈ s.touched)
    (hlate : ∀ q, q ∈ s'.late ↔ q ∈ s.late ∧ q ≠ e.name) : LiveInv s' := by
  have hev : ∀ q, s'.events q = if e.name = q then s.events q ++ [e] else s.events q := fun q =>
    events_snoc s s' hpending
  -- without pending events, a file is another one, and its events are those from before
  have hother : ∀ q, s'.events q = [] → q ≠ e.name ∧ s.events q = [] := by
    intro q hq
    rw [hev] at hq
    split at hq
    next => simp at hq
    next hne => exact ⟨Ne.symm hne, hq⟩
  constructor
  · intro q e' hlast
    rw [hev] at hlast
    split at hlast
    next heq =>
      subst heq
      obtain rfl : e = e' := by simpa using hlast
      exact hself.symm
    next hne => rw [h.last q e' hlast, hfiles q (Ne.symm hne)]
  · intro q hq hrow
    obtain ⟨hne, hq⟩ := hother q hq
    rw [htable] at hrow
    rw [hfiles q hne, hlate]
    exact (h.row q hq hrow).imp_right fun hl => ⟨hl, hne⟩
  · intro q hq hf ht
    obtain ⟨hne, hq⟩ := hother q hq
    rw [htable, hbuf]
    exact h.found q hq ((hfiles q hne).mp hf) (htouched q hne ht)
  · intro q hl
    obtain ⟨hl, hne⟩ := (hlate q).mp hl
    obtain ⟨hf, hq, hrow⟩ := h.late q hl
    refine ⟨mt (hfiles q hne).mp hf, ?_, htable ▸ hrow⟩
    rw [hev, if_neg (Ne.symm hne), hq]
  · rw [htable]
    exact h.named

theorem LiveInv.create (h : LiveInv s) {p : FileName} :
    LiveInv { s with
      files := p :: s.files
      pending := s.pending ++ [⟨true, p⟩]
      touched := p :: s.touched
      late := s.late.filter (· ≠ p) } := by
  refine h.event rfl rfl rfl ?_ ?_ ?_ ?_
  · simp
  · intro q hne
    simp [hne]
  · intro q hne hq
    exact (List.mem_cons.mp hq).resolve_left hne
  · intro q
    simp

theorem LiveInv.unlink (h : LiveInv s) {p : FileName} (hp : p ∈ s.files) :
    LiveInv { s with files := s.files.filter (· ≠ p), pending := s.pending ++ [⟨false, p⟩] } := by
  refine h.event rfl rfl rfl ?_ ?_ ?_ ?_
  · simp
  · intro q hne
    simp [hne]
  · intro q hne hq
    exact hq
  · intro q
    refine ⟨fun hl => ⟨hl, ?_⟩, And.left⟩
    -- a late row is one of a file that is gone
    rintro rfl
    exact (h.late _ hl).1 hp

theorem LiveInv.scan (h : LiveInv s) {p : FileName} (mtime : Int64) :
    LiveInv { s with buf := s.buf ++ [⟨p, mtime⟩], touched := p :: s.touched } := by
  refine { h with found := fun q hq hf ht => ?_ }
  rcases List.mem_cons.mp ht with rfl | ht
  · exact .inr ⟨_, List.mem_append_right _ (List.mem_singleton_self _), rfl⟩
  · exact (h.found q hq hf ht).imp_right fun ⟨r, hr, hname⟩ => ⟨r, List.mem_append_left _ hr, hname⟩

/-! ## Steps of `in_db` and of the daemon -/

/-- A file that is gone, with no deletion pending, has no pending event. -/
theorem LiveInv.events_eq_nil (h : LiveInv s) {p : FileName} (hp : p ∉ s.files) (hdel : ⟨false, p⟩ ∉ s.pending) :
    s.events p = [] := by
  by_contra hne
  obtain ⟨e, he⟩ := Option.ne_none_iff_exists'.mp (mt List.getLast?_eq_none_iff.mp hne)
  have hcreated : e.created = false := by
    have := h.last p e he
    simpa [hp] using this
  obtain ⟨hmem, hname⟩ := List.mem_filter.mp (List.mem_of_getLast? he)
  have hname : e.name = p := of_decide_eq_true hname
  subst hname
  rw [← hcreated] at hdel
  exact hdel hmem

theorem LiveInv.addRecord (h : LiveInv s) {r : Record} {rest : List Record} (hbuf : s.buf = r :: rest)
    (hs : addRecord E s r rest = some s') : LiveInv s' := by
  rw [Live.addRecord, Record.info, r.name.2.run_add, Option.map_some, Option.some.injEq] at hs
  subst hs
  have hlate : ∀ q, q ∈ (if r.name ∉ s.files ∧ ⟨false, r.name⟩ ∉ s.pending then r.name :: s.late else s.late) ↔
      q ∈ s.late ∨ q = r.name ∧ q ∉ s.files ∧ ⟨false, q⟩ ∉ s.pending := by
    intro q
    split <;> grind
  constructor
  · exact h.last
  · intro q hq hrow
    rcases Table.mem_names_add.mp hrow with hrow | heq
    · exact (h.row q hq hrow).imp_right fun hl => (hlate q).mpr (.inl hl)
    · have hqr : q = r.name := Subtype.ext heq
      by_cases hf : q ∈ s.files
      · exact .inl hf
      · refine .inr ((hlate q).mpr (.inr ⟨hqr, hf, fun hmem => ?_⟩))
        have : (⟨false, q⟩ : Event) ∈ s.events q := List.mem_filter.mpr ⟨hmem, by simp⟩
        rw [show s.events q = [] from hq] at this
        cases this
  · intro q hq hf ht
    rcases h.found q hq hf ht with hrow | ⟨r', hr', hname⟩
    · exact .inl (Table.mem_names_add.mpr (.inl hrow))
    · rw [hbuf] at hr'
      rcases List.mem_cons.mp hr' with rfl | hr'
      · exact .inl (Table.mem_names_add.mpr (.inr (by rw [hname])))
      · exact .inr ⟨r', hr', hname⟩
  · intro q hq
    rcases (hlate q).mp hq with hl | ⟨rfl, hf, hdel⟩
    · obtain ⟨hf, hev, hrow⟩ := h.late q hl
      exact ⟨hf, hev, Table.mem_names_add.mpr (.inl hrow)⟩
    · exact ⟨hf, h.events_eq_nil hf hdel, Table.mem_names_add.mpr (.inr rfl)⟩
  · intro n hn
    rcases Table.mem_names_add.mp hn with hn | rfl
    · exact h.named n hn
    · exact r.name.2

/-- The names after the call of an event. -/
theorem names_applyEvent {t t' : Table} {e : Event} {now : Int64}
    (hs : Daemon.applyEvent E t e.msg now.toInt = some t') (n : List Byte) :
    n ∈ t'.names ↔ if e.created then n ∈ t.names ∨ n = e.name.1 else n ∈ t.names ∧ n ≠ e.name.1 := by
  obtain ⟨created, name⟩ := e
  cases created with
  | true =>
    have hrun : Daemon.applyEvent E t (Event.msg ⟨true, name⟩) now.toInt = _ := name.2.run_add .EREG now
    rw [hrun] at hs
    cases hs
    simp
  | false =>
    have hrun : Daemon.applyEvent E t (Event.msg ⟨false, name⟩) now.toInt = _ := name.2.run_rm
    rw [hrun] at hs
    cases hs
    simp

theorem LiveInv.daemon (h : LiveInv s) {e : Event} {rest : List Event} (hpending : s.pending = e :: rest) {now : Int64}
    {table : Table} (hs : Daemon.applyEvent E s.table e.msg now.toInt = some table) :
    LiveInv { s with pending := rest, table := table } := by
  have hnames := names_applyEvent hs
  have hev : ∀ q, s.events q = if e.name = q then e :: State.events { s with pending := rest, table := table } q
      else State.events { s with pending := rest, table := table } q := fun q => events_cons s _ hpending
  -- the event applied is the last one of its file
  have hlast : State.events { s with pending := rest, table := table } e.name = [] →
      (e.created = true ↔ e.name ∈ s.files) := by
    intro hnil
    refine h.last e.name e ?_
    rw [hev, if_pos rfl, hnil]
    rfl
  have hother : ∀ q, q ≠ e.name → (q.1 ∈ table.names ↔ q.1 ∈ s.table.names) := by
    intro q hne
    have hval : q.1 ≠ e.name.1 := fun heq => hne (Subtype.ext heq)
    rw [hnames]
    split <;> simp [hval]
  constructor
  · intro q e' he'
    refine h.last q e' ?_
    rw [hev]
    split
    · rw [List.getLast?_cons, show _ = some e' from he']
      rfl
    · exact he'
  · intro q hq hrow
    by_cases hqe : q = e.name
    · subst hqe
      refine .inl ((hlast hq).mp ?_)
      by_contra hc
      rw [hnames, if_neg hc] at hrow
      exact hrow.2 rfl
    · exact h.row q (by rw [hev, if_neg (Ne.symm hqe)]; exact hq) ((hother q hqe).mp hrow)
  · intro q hq hf ht
    by_cases hqe : q = e.name
    · subst hqe
      left
      rw [hnames, if_pos ((hlast hq).mpr hf)]
      exact .inr rfl
    · refine (h.found q (by rw [hev, if_neg (Ne.symm hqe)]; exact hq) hf ht).imp_left fun hrow => ?_
      exact (hother q hqe).mpr hrow
  · intro q hl
    obtain ⟨hf, hq, hrow⟩ := h.late q hl
    have hqe : q ≠ e.name := by
      rintro rfl
      rw [hev, if_pos rfl] at hq
      cases hq
    refine ⟨hf, ?_, (hother q hqe).mpr hrow⟩
    rwa [hev, if_neg (Ne.symm hqe)] at hq
  · intro n hn
    rw [hnames] at hn
    split at hn
    · rcases hn with hn | rfl
      · exact h.named n hn
      · exact e.name.2
    · exact h.named n hn.1

/-! ## Runs -/

theorem LiveInv.step (h : LiveInv s) {a : Act} (hs : step E s a = some s') : LiveInv s' := by
  cases a with
  | create p =>
    simp only [Live.step] at hs
    split at hs <;> cases hs
    exact h.create
  | unlink p =>
    simp only [Live.step] at hs
    split at hs <;> cases hs
    next hp => exact h.unlink hp
  | scan p mtime =>
    simp only [Live.step] at hs
    split_ifs at hs <;> cases hs
    · exact h.scan mtime
    · exact h
  | scanDone => cases hs; exact { h with }
  | inDb =>
    simp only [Live.step] at hs
    split at hs
    next => cases hs; exact h
    next hbuf => exact h.addRecord hbuf hs
  | daemon now =>
    simp only [Live.step] at hs
    split at hs
    next => cases hs; exact h
    next hpending =>
      obtain ⟨table, happly, rfl⟩ := Option.map_eq_some_iff.mp hs
      exact h.daemon hpending happly

theorem LiveInv.of_reachable (h : (system E).Reachable s) : LiveInv s := by
  refine h.invariant ?_ fun s a s' hi _ hs => hi.step hs
  rintro _ ⟨files, rfl⟩
  exact liveInv_start files

/-- **The rows when all is quiet**: every existing file that was created or scanned has one, and every row is that of an
existing file or one that `in_db` has added late; the latter are the stale ones. -/
theorem quiet_rows (h : (system E).Reachable s) (hquiet : Quiet s) :
    (∀ p ∈ s.files, p ∈ s.touched → p.1 ∈ s.table.names) ∧
      (∀ n ∈ s.table.names, (∃ p ∈ s.files, p.1 = n) ∨ ∃ p ∈ s.late, p.1 = n) ∧
        ∀ p ∈ s.late, p ∉ s.files ∧ p.1 ∈ s.table.names := by
  have hi := LiveInv.of_reachable h
  obtain ⟨-, hbuf, hpending⟩ := hquiet
  have hev : ∀ p, s.events p = [] := fun p => by rw [State.events, hpending]; rfl
  refine ⟨fun p hf ht => ?_, fun n hn => ?_, fun p hl => ?_⟩
  · rcases hi.found p (hev p) hf ht with hrow | ⟨r, hr, -⟩
    · exact hrow
    · rw [hbuf] at hr; cases hr
  · have hp := hi.named n hn
    exact (hi.row ⟨n, hp⟩ (hev _) hn).imp (fun hf => ⟨_, hf, rfl⟩) fun hl => ⟨_, hl, rfl⟩
  · obtain ⟨hf, -, hrow⟩ := hi.late p hl
    exact ⟨hf, hrow⟩

def fileA : FileName := ⟨bytes "/a", by decide⟩

/-- A file is created while the scan goes on; its row is there in the end. -/
theorem quiet_rows_created : ∃ s, (system Db.plainEngine).Reachable s ∧ Quiet s ∧ s.files = [fileA] ∧
    (∀ p ∈ s.files, p ∈ s.touched → p.1 ∈ s.table.names) ∧
      (∀ n ∈ s.table.names, (∃ p ∈ s.files, p.1 = n) ∨ ∃ p ∈ s.late, p.1 = n) ∧
        ∀ p ∈ s.late, p ∉ s.files ∧ p.1 ∈ s.table.names := by
  obtain ⟨s, hs, hp⟩ := Transition.System.reachable_of_run (system Db.plainEngine) (start []) ⟨[], rfl⟩
    [.create fileA, .scan fileA 5, .daemon 7, .inDb, .scanDone]
    (fun s => decide ((s.scanning = false ∧ s.buf = [] ∧ s.pending = []) ∧ s.files = [fileA])) (by decide +kernel)
  obtain ⟨hquiet, hfiles⟩ := of_decide_eq_true hp
  exact ⟨s, hs, hquiet, hfiles, quiet_rows hs hquiet⟩

/-- The scan reads a file, the file is deleted, the daemon applies the deletion, and `in_db` adds the record: the row
stays. -/
theorem stale_row : ∃ s, (system Db.plainEngine).Reachable s ∧ ¬Fresh s := by
  obtain ⟨s, hs, hp⟩ := Transition.System.reachable_of_run (system Db.plainEngine) (start [fileA])
    ⟨[fileA], rfl⟩ [.scan fileA 5, .unlink fileA, .daemon 7, .inDb, .scanDone]
    (fun s => decide ((s.scanning = false ∧ s.buf = [] ∧ s.pending = []) ∧ s.files = [] ∧
      bytes "/a" ∈ s.table.names)) (by decide +kernel)
  obtain ⟨hquiet, hfiles, hrow⟩ := of_decide_eq_true hp
  refine ⟨s, hs, fun hfresh => ?_⟩
  obtain ⟨p, hp, -⟩ := (hfresh hquiet).1 _ hrow
  rw [hfiles] at hp
  cases hp

end Everyfile.Init.Live
