import Everyfile.Daemon.Loop
import Everyfile.Db.Print
import Everyfile.Kernel.InOrder

/-!
# From the probes to the answer of a search

The calls that the daemon makes in a run of the module and the daemon (`State.calls`), made on a table, give a table
that follows the events the daemon has read, path by path (`index_follows`). When the sends have succeeded, nothing was
spilled and nothing is on its way any more, these are all accepted events, and the rows of an exact search for `p` are
printed as `p` exactly if the last accepted event at `p` is a creation (`printRes_qryExact`).
-/

namespace Everyfile.Daemon

open Db (Sqlite DatedSqlite Table Row)
open Kernel (NlMsg State Act start system Delivered)

/-! ## Calls -/

/-- The calls of a run, one after the other. -/
def runCalls (E : Sqlite) (t : Table) (calls : List DbCall) : Option Table := calls.foldlM (DbCall.run E) t

/-- An event with the time at which it was read, as a received message. -/
def received (e : NlMsg × Int) : Received := ⟨e.1.digit, e.1.path, Int64.ofInt e.2⟩

/-- A probe's event at a plain path. -/
def PlainEvent (m : NlMsg) : Prop := m.WF ∧ PlainName m.path

/-- A value of `time_t`. -/
def IsTime (now : Int) : Prop := (Int64.ofInt now).toInt = now

variable {E : Sqlite} {t t₀ : Table} {p : List Byte}

theorem runCalls_cons (call : DbCall) (calls : List DbCall) :
    runCalls E t (call :: calls) = (call.run E t).bind fun t => runCalls E t calls := rfl

/-- The call of an event does to the table what its message does. -/
theorem applyEvent_eq {e : NlMsg × Int} (hm : PlainEvent e.1) (ht : IsTime e.2) :
    applyEvent E t e.1 e.2 = some ((received e).apply E t) := by
  obtain ⟨⟨flags, path⟩, now⟩ := e
  obtain ⟨hwf, hplain⟩ := hm
  have h1 := hwf.flags_pos
  have h6 := hwf.flags_le
  change (Int64.ofInt now).toInt = now at ht
  change PlainName path at hplain
  -- a creation, with its type
  have hadd : ∀ type : FileType, (DbCall.add ⟨path, type, now⟩).run E t =
      some (t.add ⟨path, decimal type.toNat, E.datetime (Int64.ofInt now).toInt⟩) := by
    intro type
    have hrun := hplain.run_add (E := E) (t := t) type (Int64.ofInt now)
    rwa [ht] at hrun ⊢
  obtain rfl | rfl | rfl | rfl | rfl | rfl :
      flags = 1 ∨ flags = 2 ∨ flags = 3 ∨ flags = 4 ∨ flags = 5 ∨ flags = 6 := by
    simp only at h1 h6
    omega
  · exact hadd .EREG
  · exact hplain.run_rm
  · exact hadd .EDIR
  · exact hplain.run_rm
  · rfl
  · exact hadd .EREG

/-- The calls of events do to the table what their messages do. -/
theorem runCalls_eq {es : List (NlMsg × Int)} (h : ∀ e ∈ es, PlainEvent e.1 ∧ IsTime e.2) :
    runCalls E t (es.filterMap fun e => eventCall e.1 e.2) =
      some ((es.map received).foldl (Received.apply E) t) := by
  induction es generalizing t with
  | nil => rfl
  | cons e es ih =>
    obtain ⟨⟨hm, ht⟩, hes⟩ := List.forall_mem_cons.mp h
    have hone := applyEvent_eq (E := E) (t := t) hm ht
    rw [List.map_cons, List.foldl_cons, ← ih hes]
    unfold applyEvent at hone
    cases hcall : eventCall e.1 e.2 with
    | none =>
      rw [hcall] at hone
      have hsame : t = (received e).apply E t := Option.some.inj hone
      rw [← hsame]
      simp only [List.filterMap_cons, hcall]
    | some call =>
      rw [hcall] at hone
      simp only [List.filterMap_cons, hcall, runCalls_cons, hone, Option.bind_some]

/-! ## Any run -/

section Runs

variable {ι κ : Type*} [DecidableEq ι] [DecidableEq κ] {s : State ι κ}

/-- The probes report plain paths, and the clock shows a `time_t`. -/
def Plain (_ : State ι κ) : Act ι κ → Prop
  | .call _ m => PlainEvent m
  | .recv now => IsTime now
  | _ => True

theorem accepted_plain (h : (system ι κ).Reach Plain s) : ∀ m ∈ s.mem.accepted, PlainEvent m := by
  apply Kernel.accepted_of_called
  exact h.mono fun s a ha i m hcall => by rw [hcall] at ha; exact ha

/-- The daemon reads accepted events only. -/
theorem accepted_of_applied (h : (system ι κ).Reach Plain s) : ∀ e ∈ s.applied, e.1 ∈ s.mem.accepted := by
  intro e he
  have hland : e.1 ∈ s.landed := List.mem_append_left _ (List.mem_map_of_mem he)
  obtain ⟨m, hm, hread⟩ := List.mem_filterMap.mp ((Kernel.landed_sublist_passed h.reachable).subset hland)
  have hmem : m ∈ s.mem.accepted :=
    (Kernel.passed_sublist_accepted (.of_reachable h.reachable)).subset (List.mem_append_left _ hm)
  rw [Kernel.NlMsg.read_eq (accepted_plain h m hmem).1, Option.some.injEq] at hread
  exact hread ▸ hmem

/-- What the daemon has read in such a run. -/
theorem applied_plain (h : (system ι κ).Reach Plain s) : ∀ e ∈ s.applied, PlainEvent e.1 ∧ IsTime e.2 := by
  have htime : ∀ e ∈ s.applied, IsTime e.2 := by
    apply Kernel.applied_of_received
    exact h.mono fun s a ha now hrecv => by rw [hrecv] at ha; exact ha
  exact fun e he => ⟨accepted_plain h e.1 (accepted_of_applied h e he), htime e he⟩

/-- **The index follows what the daemon has read**, in any run over plain paths. -/
theorem index_follows (h : (system ι κ).Reach Plain s) (E : Sqlite) (t₀ : Table) :
    ∃ t, runCalls E t₀ s.calls = some t ∧ ∀ p, Follows E t₀ t (s.applied.map received) p := by
  refine ⟨_, ?_, fun p => follows_foldl E t₀ _ p⟩
  rw [Kernel.calls_eq h.reachable]
  exact runCalls_eq (applied_plain h)

/-! ## Runs that have come to rest -/

/-- Nothing is on its way and nothing was spilled; the socket may hold `FILEON` messages. -/
structure Drained (s : State ι κ) : Prop where
  socket : ∀ d ∈ s.mem.socket, d.isFileOn = true
  msgBuf : s.mem.msgBuf = []
  written : s.mem.written = []

/-- When the sends have succeeded and nothing is on its way, the daemon has read all accepted events. -/
theorem applied_eq_accepted (h : (system ι κ).Reach (fun s a => Plain s a ∧ Delivered s a) s) (hd : Drained s) :
    s.applied.map Prod.fst = s.mem.accepted := by
  have hb := Kernel.BufferOk.of_reachable h.reachable
  have hacc := accepted_plain (h.mono fun _ _ ha => ha.1)
  have hsock : s.mem.socket.filterMap Kernel.Datagram.read = [] := by
    refine List.filterMap_eq_nil_iff.mpr fun d hmem => ?_
    have hon := hd.socket d hmem
    cases d with
    | vfs m => cases hon
    | fileOn pos covered => exact Kernel.Datagram.read_fileOn pos covered
  have hpassed : s.mem.passed = s.mem.accepted := by
    -- all messages left the buffer by `send_msg`
    have hsent : ∀ e ∈ s.mem.removed, e.2 = .sent := by
      intro e he
      have hw := hb.written
      rw [hd.written] at hw
      cases hroute : e.2 with
      | sent => rfl
      | spilled =>
        have hmem : e.1 ∈ Kernel.routed .spilled s.mem.removed :=
          List.mem_map_of_mem (List.mem_filter.mpr ⟨he, by simp [hroute]⟩)
        rw [← hw] at hmem
        cases hmem
    rw [hb.accepted, hb.passed, hd.msgBuf, List.append_nil, Kernel.routed,
      List.filter_eq_self.mpr fun e he => by simp [hsent e he]]
  have hland := Kernel.landed_eq_passed (h.mono fun s a ha => ha.2)
  rw [State.landed, hsock, List.append_nil, hpassed] at hland
  rw [hland]
  have hread : ∀ m ∈ s.mem.accepted, m.read = some m := fun m hm => Kernel.NlMsg.read_eq (hacc m hm).1
  rw [List.filterMap_congr hread]
  exact List.filterMap_some

end Runs

/-! ## Searching -/

/-- The flags of creations and of removals. -/
def creates (m : NlMsg) : Bool := m.flags = 1 ∨ m.flags = 3 ∨ m.flags = 6

def removes (m : NlMsg) : Bool := m.flags = 2 ∨ m.flags = 4

/-- Whether the last event at `p` is a creation; `before` if there is none. -/
def lastCreates (ms : List NlMsg) (p : List Byte) (before : Bool) : Bool :=
  match (ms.filter fun m => m.path = p ∧ (creates m ∨ removes m)).getLast? with
  | some m => creates m
  | none => before

/-- The messages of events have their paths and kinds. -/
theorem received_flags {e : NlMsg × Int} (h : e.1.WF) :
    (received e).creates = creates e.1 ∧ (received e).removes = removes e.1 := by
  have hd := NlMsg.digit_toNat h.flags_le
  have hcode : (received e).code = e.1.digit := rfl
  have h6 := h.flags_le
  constructor
  · simp only [Received.creates, creates, hcode, ← UInt8.toNat_inj, hd, decide_eq_decide]
    simp
  · simp only [Received.removes, removes, hcode, ← UInt8.toNat_inj, hd, decide_eq_decide]
    simp

/-- The last event of a path among the messages is that among the events. -/
theorem present_iff {es : List (NlMsg × Int)} (h : ∀ e ∈ es, e.1.WF) (b : Bool) :
    (match (eventsOf p (es.map received)).getLast? with
      | some m => m.creates
      | none => b) = lastCreates (es.map Prod.fst) p b := by
  have hfilter : eventsOf p (es.map received) =
      (es.filter fun e => e.1.path = p ∧ (creates e.1 ∨ removes e.1)).map received := by
    rw [eventsOf, List.filter_map]
    congr 1
    refine List.filter_congr fun e he => ?_
    obtain ⟨hc, hr⟩ := received_flags (h e he)
    have hpath : (received e).path = e.1.path := rfl
    simp [hc, hr, hpath]
  have hfilter' : (es.map Prod.fst).filter (fun m => m.path = p ∧ (creates m ∨ removes m)) =
      (es.filter fun e => e.1.path = p ∧ (creates e.1 ∨ removes e.1)).map Prod.fst := by
    rw [List.filter_map]
    rfl
  rw [lastCreates, hfilter, hfilter', List.getLast?_map, List.getLast?_map]
  cases hlast : (es.filter fun e => e.1.path = p ∧ (creates e.1 ∨ removes e.1)).getLast? with
  | none => rfl
  | some e =>
    have hmem := List.mem_of_mem_filter (List.mem_of_getLast? hlast)
    exact (received_flags (h e hmem)).1

/-- A path has a row exactly if its last event is a creation. -/
theorem Follows.lookup_isSome {ms : List Received} (h : Follows E t₀ t ms p) : (t.lookup p).isSome =
    match (eventsOf p ms).getLast? with
      | some m => m.creates
      | none => decide (p ∈ t₀.names) := by
  rw [Bool.eq_iff_iff, Table.lookup_isSome]
  refine h.present.trans ?_
  cases (eventsOf p ms).getLast? <;> simp

/-- The rows of the events are printable where their times are in range. -/
theorem Follows.file_time_isSome {E : DatedSqlite} {ms : List Received} (h : Follows E.toSqlite t₀ t ms p)
    (ht₀ : ∀ r ∈ t₀.rows, r.file_time.isSome = true) (hms : ∀ m ∈ ms, E.first ≤ m.now.toInt ∧ m.now.toInt ≤ E.last)
    {r : Row} (hr : t.lookup p = some r) : r.file_time.isSome = true := by
  rw [h.row] at hr
  rcases Option.or_eq_some_iff.mp hr with hold | ⟨-, hnew⟩
  · obtain ⟨-, hold⟩ := Option.ite_none_right_eq_some.mp hold
    exact ht₀ r (List.mem_of_find?_eq_some hold)
  · obtain ⟨m, hhead, rfl⟩ := Option.map_eq_some_iff.mp hnew
    have hmem : m ∈ ms := List.mem_of_mem_filter ((List.rtakeWhile_suffix _ _).subset (List.mem_of_mem_head? hhead))
    exact (E.datetime_isSome _).mpr (hms m hmem)

/-- What a search for `p` prints of such a table: `p`, if it has a row. -/
theorem Follows.printRes_select {E : DatedSqlite} {ms : List Received} (h : Follows E.toSqlite t₀ t ms p)
    (ht₀ : ∀ r ∈ t₀.rows, r.file_time.isSome = true) (hms : ∀ m ∈ ms, E.first ≤ m.now.toInt ∧ m.now.toInt ≤ E.last)
    (hz : NulFree p) :
    Db.printRes (t.select (·.file_name = p)) = some (if (t.lookup p).isSome then [p] else []) := by
  rw [Table.select_name]
  cases hlookup : t.lookup p with
  | none => rfl
  | some r =>
    have hname : r.file_name = p := Table.lookup_name hlookup
    have hline := Db.printRow_eq (r := r) (by rwa [hname])
    rw [if_pos (h.file_time_isSome ht₀ hms hlookup), hname] at hline
    simp [Db.printRes, hline]

section Search

variable {ι κ : Type*} [DecidableEq ι] [DecidableEq κ] {s : State ι κ}

/-- The clock shows times that `datetime` knows. -/
def InRange (E : DatedSqlite) (_ : State ι κ) : Act ι κ → Prop
  | .recv now => E.first ≤ now ∧ now ≤ E.last
  | _ => True

/-- The events read have printable times. -/
theorem received_inRange {E : DatedSqlite} (h : (system ι κ).Reach (fun s a => Plain s a ∧ InRange E s a) s) :
    ∀ m ∈ s.applied.map received, E.first ≤ m.now.toInt ∧ m.now.toInt ≤ E.last := by
  have hrange : ∀ e ∈ s.applied, E.first ≤ e.2 ∧ e.2 ≤ E.last := by
    apply Kernel.applied_of_received (T := fun now => E.first ≤ now ∧ now ≤ E.last)
    exact h.mono fun s a ha now hrecv => by have := ha.2; rw [hrecv] at this; exact this
  intro m hm
  obtain ⟨e, he, rfl⟩ := List.mem_map.mp hm
  have hnow : (received e).now.toInt = e.2 := (applied_plain (h.mono fun _ _ ha => ha.1) e he).2
  rw [hnow]
  exact hrange e he

/-- After a run over plain paths whose sends have succeeded, with nothing spilled and nothing on its way, the calls of
the daemon come back, and a search for `p` prints `p` if the last accepted event at `p` is a creation and nothing if it
is a removal. -/
theorem printRes_qryExact {E : DatedSqlite}
    (h : (system ι κ).Reach (fun s a => Plain s a ∧ Delivered s a ∧ InRange E s a) s) (hd : Drained s)
    (ht₀ : ∀ r ∈ t₀.rows, r.file_time.isSome = true) (hp : PlainName p) :
    ∃ t rows, runCalls E.toSqlite t₀ s.calls = some t ∧
      Db.EfDb.qryExact E.toSqlite p t = some (t, some rows) ∧
      Db.printRes rows = some (if lastCreates s.mem.accepted p (decide (p ∈ t₀.names)) then [p] else []) := by
  have hplain : (system ι κ).Reach Plain s := h.mono fun _ _ ha => ha.1
  have happlied := applied_plain hplain
  have hall := applied_eq_accepted (h.mono fun _ _ ha => ⟨ha.1, ha.2.1⟩) hd
  have hfollows := follows_foldl E.toSqlite t₀ (s.applied.map received) p
  have hfit := Db.length_qryExactText_lt (hp.length_le.trans (by decide))
  refine ⟨_, _, by rw [Kernel.calls_eq hplain.reachable]; exact runCalls_eq happlied,
    Db.qryExact_eq hp.nulFree hp.quoteFree (PlainName.columnOf_eq_none hp.head) hfit, ?_⟩
  rw [hfollows.printRes_select ht₀ (received_inRange (h.mono fun _ _ ha => ⟨ha.1, ha.2.2⟩)) hp.nulFree]
  -- `p` has a row exactly if its last event is a creation
  have hrow := hfollows.lookup_isSome
  rw [present_iff fun e he => (happlied e he).1.1, hall] at hrow
  rw [hrow]

end Search

theorem plainEvent_a : PlainEvent ⟨1, bytes "/a"⟩ := ⟨⟨by decide, by decide, by decide, by decide⟩, by decide⟩

/-- The steps of a run with one event, which is sent and read. -/
def oneEvent (m : NlMsg) (now : Int) (_ : State Unit Unit) : Act Unit Unit → Bool
  | .call _ m' => m' = m
  | .send o => o = .delivered
  | .recv now' => now' = now
  | _ => true

def oneEventActs (m : NlMsg) (now : Int) : List (Act Unit Unit) :=
  Kernel.submit m ++ Kernel.control ++ Kernel.sends 9 .delivered ++ [.recv now]

/-- A probe reports the file `/a`, and the daemon reads the event at time 7. -/
theorem created_run : ∃ s : State Unit Unit,
    (system Unit Unit).Reach (fun s a => Plain s a ∧ Delivered s a ∧ InRange Db.yearsEngine s a) s ∧ Drained s ∧
      s.mem.accepted = [⟨1, bytes "/a"⟩] ∧ s.applied = [(⟨1, bytes "/a"⟩, 7)] := by
  obtain ⟨s, hs, hp⟩ := Transition.System.reach_of_runIf (system Unit Unit) start
    (fun s a => Plain s a ∧ Delivered s a ∧ InRange Db.yearsEngine s a) (oneEvent ⟨1, bytes "/a"⟩ 7)
    (fun s a ht => by
      cases a with
      | call i m =>
        obtain rfl := of_decide_eq_true ht
        exact ⟨plainEvent_a, by simp [Delivered], trivial⟩
      | send o =>
        obtain rfl := of_decide_eq_true ht
        exact ⟨trivial, fun o ho _ _ => (Act.send.inj ho).symm, trivial⟩
      | recv now =>
        obtain rfl := of_decide_eq_true ht
        have htime : IsTime 7 := rfl
        exact ⟨htime, by simp [Delivered], by simp [Db.yearsEngine], by simp [Db.yearsEngine]⟩
      | _ => exact ⟨trivial, by simp [Delivered], trivial⟩)
    rfl (oneEventActs ⟨1, bytes "/a"⟩ 7)
    (fun s => decide (s.mem.socket = [] ∧ s.mem.msgBuf = [] ∧ s.mem.written = [] ∧
      s.mem.accepted = [⟨1, bytes "/a"⟩] ∧ s.applied = [(⟨1, bytes "/a"⟩, 7)])) (by decide)
  obtain ⟨hsock, hbuf, hwritten, hacc, happ⟩ := of_decide_eq_true hp
  exact ⟨s, hs, ⟨by simp [hsock], hbuf, hwritten⟩, hacc, happ⟩

theorem index_follows_created : ∃ (s : State Unit Unit) (t : Table), s.applied = [(⟨1, bytes "/a"⟩, 7)] ∧
    runCalls Db.yearsEngine.toSqlite Table.empty s.calls = some t ∧
      ∀ p, Follows Db.yearsEngine.toSqlite Table.empty t (s.applied.map received) p := by
  obtain ⟨s, hs, -, -, happ⟩ := created_run
  obtain ⟨t, ht, hfollows⟩ := index_follows (hs.mono fun _ _ ha => ha.1) Db.yearsEngine.toSqlite Table.empty
  exact ⟨s, t, happ, ht, hfollows⟩

end Everyfile.Daemon
