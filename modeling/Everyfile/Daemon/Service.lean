import Everyfile.Daemon.EndToEnd

/-!
# The service loop where system calls fail

`ef_kernel_conn` with what its system calls return: the socket, `bind`, and in each pass of the loop `select`,
`recvfrom` and `sendto`. It tests `recvfrom` and `sendto` for 0 and not for -1. A `recvfrom` that fails leaves the
buffer zeroed, which is the message of no event, and a `sendto` that fails is not noticed at all: the loop goes on
through both and sends a control message in every pass, and the table is that of the messages that were received. It
is left where `select` fails, and ended by a 0, or by a database call that does not come back (`serve_error`).
-/

namespace Everyfile.Daemon

open Db (Sqlite Table)
open Kernel (NlMsg)

/-- What the system calls of a pass return: `recvfrom` with the payload of the message it has copied, and `sendto`. -/
structure Answers where
  select : Int
  recvfrom : Int
  payload : List Byte
  now : Int
  sendto : Int
  deriving DecidableEq, Repr

/-- How `ef_kernel_conn` ends: it comes to its end, calls `exit`, or is ended by a call of `ef_db`. -/
inductive End
  | left
  | exited (code : Int)
  | terminated
  deriving DecidableEq, Repr

/-- The record variable, the table, and the history: the calls of `ef_db` that came back, and those of `sendto`. -/
structure Conn where
  info : FileInfo
  table : Table
  calls : List DbCall
  sent : Nat

/-- The buffer after `memset` and `recvfrom`. -/
def Answers.msg (a : Answers) : List Byte := if a.recvfrom < 0 then userMsg [] else userMsg a.payload

/-- `sendto` and the test of what it returns. -/
def Conn.sendAck (c : Conn) (ret : Int) : Except End Conn :=
  if ret = 0 then .error (.exited (-1)) else .ok { c with sent := c.sent + 1 }

/-- The switch. -/
def Conn.solve (E : Sqlite) (c : Conn) (msg : List Byte) (now : Int) : Except End Conn :=
  match dispatch c.info msg now with
  | (info, none) => .ok { c with info := info }
  | (info, some call) =>
    match call.run E c.table with
    | some t => .ok { c with info := info, table := t, calls := c.calls ++ [call] }
    | none => .error .terminated

/-- A pass of the loop; only the socket is in the set of `select`. -/
def serveOne (E : Sqlite) (c : Conn) (a : Answers) : Except End Conn :=
  if a.select < 0 then .error .left
  else if a.select = 0 then c.sendAck a.sendto
  else if a.recvfrom = 0 then .error (.exited (-1))
  else (c.solve E a.msg a.now).bind fun c => c.sendAck a.sendto

def serve (E : Sqlite) (c : Conn) (as : List Answers) : Except End Conn := as.foldlM (serveOne E) c

/-- `ef_kernel_conn`, with the values of `socket`, `bind` and the first `sendto`. -/
def efKernelConn (E : Sqlite) (t : Table) (socket bind sendto : Int) (as : List Answers) : Except End Conn :=
  if socket = -1 then .error (.exited (-1))
  else if bind ≠ 0 then .error (.exited (-1))
  else (Conn.sendAck ⟨⟨[], .ERR, 0⟩, t, [], 0⟩ sendto).bind fun c => serve E c as

/-! ## What is to hold -/

/-- A pass has received a message. -/
def Answers.Received (a : Answers) : Prop := 0 < a.select ∧ 0 < a.recvfrom

instance (a : Answers) : Decidable a.Received := inferInstanceAs (Decidable (_ ∧ _))

/-- The call of the event in the message of a pass. -/
def Answers.call (a : Answers) : Option DbCall :=
  if a.Received then (decode (userMsg a.payload)).bind (eventCall · a.now) else none

/-- No system call of a pass returns what ends the loop. -/
structure Answers.GoesOn (a : Answers) : Prop where
  select : 0 ≤ a.select
  recvfrom : 0 < a.select → a.recvfrom ≠ 0
  sendto : a.sendto ≠ 0

variable {E : Sqlite} {c c' : Conn} {a : Answers} {as : List Answers} {e : End}

/-- The zeroed buffer has no event. -/
theorem decode_zeros : decode (userMsg []) = none := by
  have hcase : caseOf (userMsg []) = -48 := rfl
  rw [decode, hcase]
  rfl

/-- The event that the switch sees is that of the message received, if any. -/
theorem call_msg (hs : 0 < a.select) (hr : a.recvfrom ≠ 0) : (decode a.msg).bind (eventCall · a.now) = a.call := by
  unfold Answers.msg Answers.call
  by_cases hneg : a.recvfrom < 0
  · have hnot : ¬a.Received := fun h => by
      have := h.2
      omega
    rw [if_pos hneg, if_neg hnot, decode_zeros]
    rfl
  · have hrec : a.Received := ⟨hs, by omega⟩
    rw [if_neg hneg, if_pos hrec]

/-! ## One pass -/

theorem sendAck_ok {ret : Int} : c.sendAck ret = .ok c' ↔ ret ≠ 0 ∧ c' = { c with sent := c.sent + 1 } := by
  unfold Conn.sendAck
  split <;> simp_all [eq_comm]

theorem sendAck_error {ret : Int} : c.sendAck ret = .error e ↔ ret = 0 ∧ e = .exited (-1) := by
  unfold Conn.sendAck
  split <;> simp_all [eq_comm]

theorem solve_eq (msg : List Byte) (now : Int) : c.solve E msg now =
    match (decode msg).bind (eventCall · now) with
    | none => .ok { c with info := (dispatch c.info msg now).1 }
    | some call =>
      match call.run E c.table with
      | some t => .ok ⟨(dispatch c.info msg now).1, t, c.calls ++ [call], c.sent⟩
      | none => .error .terminated := by
  rw [← dispatch_snd c.info, Conn.solve]
  rcases dispatch c.info msg now with ⟨info, _ | call⟩ <;> rfl

/-- What a pass that goes on has done. -/
structure Served (E : Sqlite) (c : Conn) (calls : List DbCall) (passes : Nat) (c' : Conn) : Prop where
  table : runCalls E c.table calls = some c'.table
  calls : c'.calls = c.calls ++ calls
  sent : c'.sent = c.sent + passes

theorem solve_ok {msg : List Byte} {now : Int} (h : c.solve E msg now = .ok c') :
    Served E c ((decode msg).bind (eventCall · now)).toList 0 c' := by
  rw [solve_eq] at h
  split at h
  next hcall =>
    cases h
    exact ⟨by rw [hcall]; rfl, by simp [hcall], rfl⟩
  next call hcall =>
    split at h
    next t hrun =>
      cases h
      rw [hcall]
      exact ⟨by rw [Option.toList_some, runCalls_cons, hrun]; rfl, rfl, rfl⟩
    next => cases h

theorem solve_error {msg : List Byte} {now : Int} (h : c.solve E msg now = .error e) : e = .terminated ∧
    runCalls E c.table ((decode msg).bind (eventCall · now)).toList = none := by
  rw [solve_eq] at h
  split at h
  next => cases h
  next call hcall =>
    split at h
    next => cases h
    next hrun =>
      cases h
      refine ⟨rfl, ?_⟩
      rw [hcall, Option.toList_some, runCalls_cons, hrun]
      rfl

/-- A time-out brings no event. -/
theorem call_timeout (h : a.select = 0) : a.call = none := by
  rw [Answers.call, if_neg]
  intro hrec
  have := hrec.1
  omega

theorem serveOne_ok (h : serveOne E c a = .ok c') : a.GoesOn ∧ Served E c a.call.toList 1 c' := by
  unfold serveOne at h
  split at h
  next => cases h
  next hneg =>
    split at h
    next hzero =>
      obtain ⟨hsend, rfl⟩ := sendAck_ok.mp h
      refine ⟨⟨by omega, by omega, hsend⟩, ?_⟩
      rw [call_timeout hzero]
      exact ⟨rfl, by simp, rfl⟩
    next hpos =>
      split at h
      next => cases h
      next hrecv =>
        cases hsolve : c.solve E a.msg a.now with
        | error e => rw [hsolve] at h; cases h
        | ok c₁ =>
          rw [hsolve] at h
          obtain ⟨hsend, rfl⟩ := sendAck_ok.mp h
          obtain ⟨htable, hcalls, hsent⟩ := solve_ok hsolve
          rw [call_msg (by omega) hrecv] at htable hcalls
          exact ⟨⟨by omega, fun _ => hrecv, hsend⟩, htable, hcalls, congrArg (· + 1) hsent⟩

/-- How a pass ends the loop, over the table it meets. -/
def Answers.Ends (E : Sqlite) (t : Table) (a : Answers) : End → Prop
  | .left => a.select < 0
  | .exited code => code = -1 ∧ (0 < a.select ∧ a.recvfrom = 0 ∨ 0 ≤ a.select ∧ a.sendto = 0)
  | .terminated => a.Received ∧ runCalls E t a.call.toList = none

theorem serveOne_error (h : serveOne E c a = .error e) : a.Ends E c.table e := by
  unfold serveOne at h
  split at h
  next hneg =>
    cases h
    exact hneg
  next hneg =>
    split at h
    next hzero =>
      obtain ⟨hsend, rfl⟩ := sendAck_error.mp h
      exact ⟨rfl, .inr ⟨by omega, hsend⟩⟩
    next hpos =>
      split at h
      next hrecv =>
        cases h
        exact ⟨rfl, .inl ⟨by omega, hrecv⟩⟩
      next hrecv =>
        cases hsolve : c.solve E a.msg a.now with
        | error e' =>
          rw [hsolve] at h
          cases h
          obtain ⟨rfl, hrun⟩ := solve_error hsolve
          rw [call_msg (by omega) hrecv] at hrun
          refine ⟨?_, hrun⟩
          by_contra hnot
          rw [Answers.call, if_neg hnot] at hrun
          cases hrun
        | ok c₁ =>
          rw [hsolve] at h
          obtain ⟨hsend, rfl⟩ := sendAck_error.mp h
          exact ⟨rfl, .inr ⟨by omega, hsend⟩⟩

/-- A pass that does not end the loop goes on. -/
theorem Answers.GoesOn.not_ends {t : Table} (h : a.GoesOn) (hrun : (runCalls E t a.call.toList).isSome) :
    ¬a.Ends E t e := by
  intro hends
  cases e with
  | left =>
    have hneg : a.select < 0 := hends
    have := h.select
    omega
  | exited code =>
    obtain ⟨-, ⟨hs, hr⟩ | ⟨-, hsend⟩⟩ := hends
    · exact h.recvfrom hs hr
    · exact h.sendto hsend
  | terminated =>
    obtain ⟨-, hnone⟩ := hends
    rw [hnone] at hrun
    cases hrun

/-! ## The loop -/

theorem serve_cons : serve E c (a :: as) = (serveOne E c a).bind fun c => serve E c as := rfl

theorem runCalls_append (t : Table) (calls calls' : List DbCall) :
    runCalls E t (calls ++ calls') = (runCalls E t calls).bind fun t => runCalls E t calls' := by
  rw [runCalls, List.foldlM_append]
  rfl

theorem Served.trans {c₁ : Conn} {calls calls' : List DbCall} {m n : Nat} (h : Served E c calls m c₁)
    (h' : Served E c₁ calls' n c') : Served E c (calls ++ calls') (m + n) c' where
  table := by rw [runCalls_append, h.table, Option.bind_some, h'.table]
  calls := by rw [h'.calls, h.calls, List.append_assoc]
  sent := by rw [h'.sent, h.sent, Nat.add_assoc]

theorem serve_ok (h : serve E c as = .ok c') :
    (∀ a ∈ as, a.GoesOn) ∧ Served E c (as.filterMap Answers.call) as.length c' := by
  induction as generalizing c with
  | nil =>
    cases h
    exact ⟨List.forall_mem_nil _, rfl, (List.append_nil _).symm, rfl⟩
  | cons a as ih =>
    rw [serve_cons] at h
    cases hone : serveOne E c a with
    | error e => rw [hone] at h; cases h
    | ok c₁ =>
      rw [hone] at h
      obtain ⟨hgo, hserved⟩ := serveOne_ok hone
      obtain ⟨hgos, hrest⟩ := ih h
      refine ⟨List.forall_mem_cons.mpr ⟨hgo, hgos⟩, ?_⟩
      have hall := hserved.trans hrest
      rw [Nat.add_comm] at hall
      cases hcall : a.call <;> simpa [hcall] using hall

/-- **The pass that ends the loop.** -/
theorem serve_error (h : serve E c as = .error e) : ∃ before a after c₁,
    as = before ++ a :: after ∧ serve E c before = .ok c₁ ∧ a.Ends E c₁.table e := by
  induction as generalizing c with
  | nil => cases h
  | cons a as ih =>
    rw [serve_cons] at h
    cases hone : serveOne E c a with
    | error e' =>
      rw [hone] at h
      cases h
      exact ⟨[], a, as, c, rfl, rfl, serveOne_error hone⟩
    | ok c₁ =>
      rw [hone] at h
      obtain ⟨before, b, after, c₂, rfl, hbefore, hends⟩ := ih h
      refine ⟨a :: before, b, after, c₂, rfl, ?_, hends⟩
      rw [serve_cons, hone]
      exact hbefore

/-- The loop goes on through passes that go on, as long as the calls come back. -/
theorem exists_serve (hgo : ∀ a ∈ as, a.GoesOn) (hrun : (runCalls E c.table (as.filterMap Answers.call)).isSome) :
    ∃ c', serve E c as = .ok c' := by
  cases hserve : serve E c as with
  | ok c' => exact ⟨c', rfl⟩
  | error e =>
    obtain ⟨before, a, after, c₁, rfl, hbefore, hends⟩ := serve_error hserve
    refine absurd hends (Answers.GoesOn.not_ends (hgo a (by simp)) ?_)
    have htable := (serve_ok hbefore).2.table
    have hsplit : (before ++ a :: after).filterMap Answers.call =
        before.filterMap Answers.call ++ (a.call.toList ++ after.filterMap Answers.call) := by
      cases hcall : a.call <;> simp [hcall]
    rw [hsplit, runCalls_append, htable, Option.bind_some, runCalls_append] at hrun
    exact Option.isSome_of_isSome_bind hrun

/-- The first control message, and the loop. -/
theorem efKernelConn_ok {t : Table} {socket bind sendto : Int} :
    efKernelConn E t socket bind sendto as = .ok c ↔ (socket ≠ -1 ∧ bind = 0 ∧ sendto ≠ 0) ∧
      serve E ⟨⟨[], .ERR, 0⟩, t, [], 1⟩ as = .ok c := by
  unfold efKernelConn Conn.sendAck
  split_ifs <;> simp_all [Except.bind]

theorem efKernelConn_error {t : Table} {socket bind sendto : Int} :
    efKernelConn E t socket bind sendto as = .error e ↔
      ¬(socket ≠ -1 ∧ bind = 0 ∧ sendto ≠ 0) ∧ e = .exited (-1) ∨
      (socket ≠ -1 ∧ bind = 0 ∧ sendto ≠ 0) ∧ serve E ⟨⟨[], .ERR, 0⟩, t, [], 1⟩ as = .error e := by
  unfold efKernelConn Conn.sendAck
  split_ifs <;> simp_all [Except.bind, eq_comm]

/-- **The service loop**, whatever its system calls return. It serves on exactly if the socket is there, `bind` and the
first `sendto` have not ended it, no pass meets a failing `select` or a 0, and the calls of the events received come
back; then the table is that of these calls, and each pass has sent one control message. Else it has ended before the
loop, or in the first pass that ends it. -/
theorem service_iff (E : Sqlite) (t : Table) (socket bind sendto : Int) (as : List Answers) :
    ((∃ c, efKernelConn E t socket bind sendto as = .ok c) ↔ (socket ≠ -1 ∧ bind = 0 ∧ sendto ≠ 0) ∧
      (∀ a ∈ as, a.GoesOn) ∧ (runCalls E t (as.filterMap Answers.call)).isSome) ∧
    (∀ c, efKernelConn E t socket bind sendto as = .ok c →
      runCalls E t (as.filterMap Answers.call) = some c.table ∧ c.calls = as.filterMap Answers.call ∧
        c.sent = as.length + 1) ∧
    ∀ e, efKernelConn E t socket bind sendto as = .error e →
      ¬(socket ≠ -1 ∧ bind = 0 ∧ sendto ≠ 0) ∧ e = .exited (-1) ∨
      ∃ before a after c, as = before ++ a :: after ∧ efKernelConn E t socket bind sendto before = .ok c ∧
        a.Ends E c.table e := by
  refine ⟨⟨?_, ?_⟩, fun c hc => ?_, fun e he => ?_⟩
  · rintro ⟨c, hc⟩
    obtain ⟨hsetup, hserve⟩ := efKernelConn_ok.mp hc
    obtain ⟨hgo, hserved⟩ := serve_ok hserve
    exact ⟨hsetup, hgo, by rw [hserved.table]; rfl⟩
  · rintro ⟨hsetup, hgo, hrun⟩
    obtain ⟨c, hc⟩ := exists_serve (c := ⟨⟨[], .ERR, 0⟩, t, [], 1⟩) hgo hrun
    exact ⟨c, efKernelConn_ok.mpr ⟨hsetup, hc⟩⟩
  · obtain ⟨-, htable, hcalls, hsent⟩ := serve_ok (efKernelConn_ok.mp hc).2
    exact ⟨htable, by simpa using hcalls, by rw [hsent, Nat.add_comm]⟩
  · refine (efKernelConn_error.mp he).imp_right fun ⟨hsetup, hserve⟩ => ?_
    obtain ⟨before, a, after, c, has, hbefore, hends⟩ := serve_error hserve
    exact ⟨before, a, after, c, has, efKernelConn_ok.mpr ⟨hsetup, hbefore⟩, hends⟩

/-- All control messages fail, and a message is received: the loop serves on. -/
example : ∃ c, efKernelConn Db.plainEngine Table.empty 3 0 (-1)
    [⟨0, 0, [], 0, -1⟩, ⟨1, -1, [], 7, -1⟩, ⟨1, 20, bytes "1 /a", 7, -1⟩] = .ok c ∧ c.sent = 4 ∧
      c.table.names = [bytes "/a"] :=
  ⟨⟨⟨bytes "/a", .EREG, 7⟩, ⟨[⟨bytes "/a", bytes "1", none⟩], by decide⟩, [.add ⟨bytes "/a", .EREG, 7⟩], 4⟩, rfl, rfl,
    rfl⟩

/-! ## The daemon among the threads -/

/-- The answers to a pass that receives a message, where nothing fails. -/
def Answers.receipt (payload : List Byte) (now : Int) : Answers := ⟨1, 1, payload, now, 1⟩

theorem goesOn_receipt (payload : List Byte) (now : Int) : (Answers.receipt payload now).GoesOn := by
  constructor <;> simp [Answers.receipt]

theorem call_receipt (info : FileInfo) (payload : List Byte) (now : Int) :
    (Answers.receipt payload now).call = (dispatch info (userMsg payload) now).2 := by
  have hrec : (Answers.receipt payload now).Received := by simp [Answers.Received, Answers.receipt]
  rw [dispatch_snd, Answers.call, if_pos hrec]
  rfl

/-- The daemon of a run of the module is the service loop, with answers of system calls that do not fail. -/
theorem service_of_run {ι κ : Type*} [DecidableEq ι] [DecidableEq κ] {s : Kernel.State ι κ} {t t' : Table}
    (h : (Kernel.system ι κ).Reachable s) (hrun : runCalls E t s.calls = some t') :
    ∃ as c, efKernelConn E t 3 0 1 as = .ok c ∧ c.calls = s.calls ∧ c.table = t' := by
  obtain ⟨as, hgo, hcalls⟩ : ∃ as : List Answers, (∀ a ∈ as, a.GoesOn) ∧ as.filterMap Answers.call = s.calls := by
    refine Kernel.system_invariant
      (P := fun s => ∃ as : List Answers, (∀ a ∈ as, a.GoesOn) ∧ as.filterMap Answers.call = s.calls)
      ⟨[], List.forall_mem_nil _, rfl⟩ (fun s a s' hi _ hs => ?_) h
    obtain ⟨as, hgo, hcalls⟩ := hi
    rcases Kernel.step_daemon hs with ⟨-, hsame⟩ | ⟨now, -, hrecv⟩
    · exact ⟨as, hgo, by rw [hsame, hcalls]⟩
    · cases hsock : s.mem.socket with
      | nil => simp [Kernel.efKernelConn, hsock] at hrecv
      | cons d ds =>
        simp only [Kernel.efKernelConn, hsock, Option.some.injEq] at hrecv
        subst hrecv
        refine ⟨as ++ [.receipt d.payload now], List.forall_mem_append.mpr ⟨hgo, ?_⟩, ?_⟩
        · simpa using goesOn_receipt d.payload now
        · have hcall := call_receipt s.info d.payload now
          rw [List.filterMap_append, hcalls]
          cases hd : (dispatch s.info (userMsg d.payload) now).2 <;> simp [hcall, hd]
  rw [← hcalls] at hrun
  obtain ⟨c, hc⟩ := exists_serve (c := ⟨⟨[], .ERR, 0⟩, t, [], 1⟩) hgo (by rw [hrun]; rfl)
  obtain ⟨-, htable, hcalls', -⟩ := serve_ok hc
  refine ⟨as, c, efKernelConn_ok.mpr ⟨by decide, hc⟩, by simpa [hcalls] using hcalls', ?_⟩
  exact Option.some.inj (htable.symm.trans hrun)

end Everyfile.Daemon
