import Everyfile.Daemon.EndToEnd
import Everyfile.Main.Search

/-!
# From the file system to a search

The operations of a history are reported by the probes, buffered, sent, read by the daemon and made calls of the
database; `everyfile` then searches the table. `main` prints the name it is asked for before it searches; then, where
all accepted events have come through, the exact search for a path prints it once more if the last event at it is a
creation (`search_tells`).

Where the events accepted are those of a history of a tree, the table has the rows of the tree's regular files and
directories (`indexed_foldl`), and the searches answer from the tree (`tree_search`): the exact search for a path prints
it once more exactly if it is one of theirs, the fuzzy search prints those of their paths that have an `s` or `S`.
-/

namespace Everyfile.Main

open FileTree (Tree)
open Db (Sqlite DatedSqlite Table Row)
open Daemon (Received received runCalls PlainName PlainEvent IsTime Plain InRange Drained lastCreates)
open Init (FsNode Name isReg pathText PathOk Op replay Indexed)
open Kernel (NlMsg State system Delivered)

/-! ## The last event at a path -/

section Tells

variable {ι κ : Type*} [DecidableEq ι] [DecidableEq κ] {s : State ι κ} {E : DatedSqlite} {t₀ : Table} {p : List Byte}

/-- **What a search tells**: after a run over plain paths whose sends have succeeded, with nothing spilled and nothing
on its way, the calls of the daemon come back, and `everyfile -e p` prints `p`, and `p` again if the last accepted event
at `p` is a creation, nothing more if it is a removal, and what was there before if there is none. -/
theorem search_tells (h : (system ι κ).Reach (fun s a => Plain s a ∧ Delivered s a ∧ InRange E s a) s) (hd : Drained s)
    (ht₀ : ∀ r ∈ t₀.rows, r.file_time.isSome = true) (hp : PlainName p) :
    ∃ t, runCalls E.toSqlite t₀ s.calls = some t ∧ ∀ prog, printed E.toSqlite t (command [prog, bytes "-e", p]) =
      some (p :: if lastCreates s.mem.accepted p (decide (p ∈ t₀.names)) then [p] else []) := by
  obtain ⟨t, rows, ht, hquery, hprint⟩ := Daemon.printRes_qryExact h hd ht₀ hp
  refine ⟨t, ht, fun prog => ?_⟩
  rw [command_exact, printed, hquery, Option.bind_some, Option.bind_some, hprint, Option.map_some]

end Tells

/-- The file `/a` is created: a search for it prints it twice, and one for `/b` prints what is asked for alone. -/
theorem search_tells_created : ∃ (s : State Unit Unit) (t : Table), s.mem.accepted = [⟨1, bytes "/a"⟩] ∧
    runCalls Db.yearsEngine.toSqlite Table.empty s.calls = some t ∧
    printed Db.yearsEngine.toSqlite t (command [bytes "everyfile", bytes "-e", bytes "/a"]) =
      some [bytes "/a", bytes "/a"] ∧
    printed Db.yearsEngine.toSqlite t (command [bytes "everyfile", bytes "-e", bytes "/b"]) = some [bytes "/b"] := by
  obtain ⟨s, hs, hd, hacc, -⟩ := Daemon.created_run
  have hempty : ∀ r ∈ Table.empty.rows, r.file_time.isSome = true := by simp [Table.empty]
  have hb : PlainName (bytes "/b") := by decide
  obtain ⟨t, ht, hprint⟩ := search_tells hs hd hempty Daemon.plainEvent_a.2
  obtain ⟨t', ht', hprint'⟩ := search_tells hs hd hempty hb
  obtain rfl := Option.some_inj.mp (ht.symm.trans ht')
  rw [hacc] at hprint hprint'
  exact ⟨s, t, hacc, ht, hprint _, hprint' _⟩

/-! ## The tree -/

/-- A regular file or a directory of the tree. -/
def Shown (T : FsNode) (q : List Name) : Prop := Tree.At isReg q T = true ∨ Tree.At Tree.isDir q T = true

instance (T : FsNode) (q : List Name) : Decidable (Shown T q) := inferInstanceAs (Decidable (_ ∨ _))

variable {T₀ T : FsNode} {t : Table} {hist : List Op} {q : List Name}

/-! ## The table of the events of a history -/

section Table

variable {E : Sqlite}

/-- The message of a valid operation's event makes the table that of the new tree. -/
theorem indexed_received {o : Op} {e : NlMsg × Int} (h : Indexed T₀ t) (hv : o.Valid T₀) (he : e.1 = o.event)
    (htime : IsTime e.2) : Indexed (o.apply T₀) ((received e).apply E t) := by
  have hplain : PlainEvent e.1 := by
    rw [he]
    exact ⟨Init.Op.wf hv.1, Init.plainName_pathText hv.1 o.path_ne_nil⟩
  obtain ⟨t', hcall, hindexed⟩ := h.event (E := E) hv (Int64.ofInt e.2)
  rw [show (Int64.ofInt e.2).toInt = e.2 from htime, ← he, Daemon.applyEvent_eq hplain htime] at hcall
  cases hcall
  exact hindexed

/-- **The events of a history.** -/
theorem indexed_foldl {es : List (NlMsg × Int)} (h : Indexed T₀ t) (hr : replay T₀ hist = some T)
    (hes : es.map Prod.fst = hist.map Op.event) (htime : ∀ e ∈ es, IsTime e.2) :
    Indexed T ((es.map received).foldl (Received.apply E) t) := by
  induction hist generalizing T₀ t es with
  | nil =>
    cases hr
    rw [List.map_nil, List.map_eq_nil_iff] at hes
    rw [hes]
    exact h
  | cons o hist ih =>
    obtain ⟨hv, hr⟩ := Option.ite_none_right_eq_some.mp hr
    cases es with
    | nil => cases hes
    | cons e es =>
      obtain ⟨he, hes⟩ := List.cons.inj hes
      obtain ⟨htime, htimes⟩ := List.forall_mem_cons.mp htime
      rw [List.map_cons, List.foldl_cons]
      exact ih (indexed_received h hv he htime) hr hes htimes

/-- The names of such a table. -/
theorem mem_names_indexed (h : Indexed T t) {n : List Byte} :
    n ∈ t.names ↔ ∃ q, q ≠ [] ∧ n = pathText q ∧ Shown T q := by
  rw [Table.names, Table.mem_names_iff]
  simp only [h.entries]
  constructor
  · rintro ⟨ty, q, hq, htext, ⟨-, hat⟩ | ⟨-, hat⟩⟩
    · exact ⟨q, hq, htext, .inl hat⟩
    · exact ⟨q, hq, htext, .inr hat⟩
  · rintro ⟨q, hq, htext, hat | hat⟩
    · exact ⟨_, q, hq, htext, .inl ⟨rfl, hat⟩⟩
    · exact ⟨_, q, hq, htext, .inr ⟨rfl, hat⟩⟩

theorem shown_pathOk (h : Indexed T t) (hq : Shown T q) : PathOk q := by
  rcases hq with hat | hat
  · exact h.names q (Tree.At.mono hat fun _ _ => rfl)
  · exact h.names q (Tree.At.mono hat fun _ _ => rfl)

theorem pathText_mem_names (h : Indexed T t) (hp : PathOk q) (hq : q ≠ []) : pathText q ∈ t.names ↔ Shown T q := by
  rw [mem_names_indexed h]
  constructor
  · rintro ⟨q', -, htext, hshown⟩
    obtain rfl := Init.pathText_injective hp.1 (shown_pathOk h hshown).1 htext
    exact hshown
  · exact fun hshown => ⟨q, hq, rfl, hshown⟩

end Table

/-! ## The searches -/

section Search

variable {ι κ : Type*} [DecidableEq ι] [DecidableEq κ] {s : State ι κ} {E : SearchSqlite}

/-- The rows of the events read can be printed. -/
theorem printable_foldl (h : (system ι κ).Reach (fun s a => Plain s a ∧ InRange E.toDatedSqlite s a) s)
    (hi : Indexed T ((s.applied.map received).foldl (Received.apply E.toSqlite) Table.empty)) :
    Printable ((s.applied.map received).foldl (Received.apply E.toSqlite) Table.empty) := by
  intro r hr
  have hmem : r.file_name ∈ Table.names _ := List.mem_map_of_mem hr
  obtain ⟨q, hq, htext, hshown⟩ := (mem_names_indexed hi).mp hmem
  have hfollows := Daemon.follows_foldl E.toSqlite Table.empty (s.applied.map received) r.file_name
  have hlookup := Table.lookup_of_mem hr
  refine ⟨?_, hfollows.file_time_isSome (by simp [Table.empty]) (Daemon.received_inRange h) hlookup⟩
  rw [htext]
  exact (Init.plainName_pathText (shown_pathOk hi hshown) hq).nulFree

/-- **From the file system to a search.** -/
theorem tree_search (hr : replay (.dir []) hist = some T)
    (h : (system ι κ).Reach (fun s a => Plain s a ∧ Delivered s a ∧ InRange E.toDatedSqlite s a) s) (hd : Drained s)
    (hacc : s.mem.accepted = hist.map Op.event) :
    ∃ t, runCalls E.toSqlite Table.empty s.calls = some t ∧ Indexed T t ∧
      (∀ prog q, PathOk q → q ≠ [] → printed E.toSqlite t (command [prog, bytes "-e", pathText q]) =
        some (pathText q :: if Shown T q then [pathText q] else [])) ∧
      ∀ prog q, ∃ lines, printed E.toSqlite t (command [prog, bytes "-f", q]) = some lines ∧ lines.Nodup ∧
        ∀ n, n ∈ lines ↔ (∃ p, p ≠ [] ∧ n = pathText p ∧ Shown T p) ∧ (115 ∈ n ∨ 83 ∈ n) := by
  have hplain : (system ι κ).Reach Plain s := h.mono fun _ _ ha => ha.1
  have happlied := Daemon.applied_plain hplain
  -- the daemon has read the events of the history
  have hall := Daemon.applied_eq_accepted (h.mono fun _ _ ha => ⟨ha.1, ha.2.1⟩) hd
  have hindexed := indexed_foldl (E := E.toSqlite) Init.indexed_empty hr (hall.trans hacc) fun e he => (happlied e he).2
  have hprint := printable_foldl (h.mono fun _ _ ha => ⟨ha.1, ha.2.2⟩) hindexed
  refine ⟨_, ?_, hindexed, fun prog q hp hq => ?_, fun prog q => ⟨_, printed_fuzzy hprint q, ?_, fun n => ?_⟩⟩
  · rw [Kernel.calls_eq hplain.reachable]
    exact Daemon.runCalls_eq happlied
  · have hname := Init.plainName_pathText hp hq
    have hfit := Db.length_qryExactText_lt (hname.length_le.trans (by decide))
    rw [command_exact, printed_exact hprint hname.nulFree hname.quoteFree (Daemon.PlainName.columnOf_eq_none hname.head)
      hfit]
    simp only [pathText_mem_names hindexed hp hq]
  · exact (Table.nodup _).filter _
  · rw [List.mem_filter, mem_names_indexed hindexed, decide_eq_true_iff]

end Search

/-- The file `/a` is created: a search for `/a` finds it, and one for `/b` finds nothing. -/
theorem tree_search_created : ∃ (s : State Unit Unit) (t : Table), s.mem.accepted = [⟨1, bytes "/a"⟩] ∧
    runCalls searchEngine.toSqlite Table.empty s.calls = some t ∧
    printed searchEngine.toSqlite t (command [bytes "everyfile", bytes "-e", bytes "/a"]) =
      some [bytes "/a", bytes "/a"] ∧
    printed searchEngine.toSqlite t (command [bytes "everyfile", bytes "-e", bytes "/b"]) = some [bytes "/b"] := by
  obtain ⟨s, hs, hd, hacc, -⟩ := Daemon.created_run
  have hrun : (system Unit Unit).Reach
      (fun s a => Plain s a ∧ Delivered s a ∧ InRange searchEngine.toDatedSqlite s a) s := hs
  have hr : replay (.dir []) [.create [] (bytes "a") 0 5] = some (.dir [(bytes "a", .leaf (.reg 5))]) := rfl
  obtain ⟨t, ht, -, hexact, -⟩ := tree_search hr hrun hd hacc
  refine ⟨s, t, hacc, ht, (hexact _ [bytes "a"] (by decide) (by simp)).trans ?_,
    (hexact _ [bytes "b"] (by decide) (by simp)).trans ?_⟩
  · decide
  · decide

end Everyfile.Main
