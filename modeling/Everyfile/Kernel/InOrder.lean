import Everyfile.Kernel.Delivery

/-!
# The order of what arrives

Sends may fail, messages may be spilled and the threads may deadlock: what the daemon has read of the messages, followed
by what it will read of those in its socket (`State.landed`), is always what it reads of a subsequence of the messages
passed to `send_msg`, and those with the buffer are a subsequence of the accepted ones. So no event is made up, taken
twice or brought out of order (`landed_in_order`). A step changes these sequences in one of three ways (`Landing`,
`step_landing`).

Where every `netlink_unicast` of a message succeeds, the events that do not arrive are exactly the spilled ones
(`missing_are_spilled`), and before any is spilled more than `MAX_MSG_BUF_LEN` have been accepted.
-/

namespace Everyfile.Kernel

open Daemon (decode userMsg eventCall)

/-- The event the daemon reads in a message of the kernel. -/
def NlMsg.read (m : NlMsg) : Option NlMsg := decode (userMsg m.encode)

theorem NlMsg.read_eq {m : NlMsg} (h : m.WF) : m.read = some m := Daemon.decode_encode h

/-- The event the daemon reads in a datagram. -/
def Datagram.read (d : Datagram) : Option NlMsg := decode (userMsg d.payload)

@[simp] theorem Datagram.read_vfs (m : NlMsg) : (Datagram.vfs m).read = m.read := rfl

@[simp] theorem Datagram.read_fileOn (pos : Nat) (covered : List NlMsg) : (Datagram.fileOn pos covered).read = none :=
  Daemon.decode_fileOn pos covered

section InOrder

variable {ι κ : Type*} {s s' : State ι κ}

/-- The events the daemon has read, and those it will read in its socket. -/
def State.landed (s : State ι κ) : List NlMsg := s.applied.map Prod.fst ++ s.mem.socket.filterMap Datagram.read

/-- What a step does to the messages passed to `send_msg` and to the events that have landed. -/
inductive Landing (s : State ι κ) (a : Act ι κ) (s' : State ι κ) : Prop
  | still (hl : s'.landed = s.landed) (hp : s'.mem.passed = s.mem.passed)
  | lands (m : NlMsg) (hl : s'.landed = s.landed ++ m.read.toList) (hp : s'.mem.passed = s.mem.passed ++ [m])
  | dropped (m : NlMsg) (o : Unicast) (ha : a = .send o) (ho : o ≠ .delivered) (hpc : s.send = .sendBuf)
      (hpos : 0 < s.mem.msgBufSize) (hl : s'.landed = s.landed) (hp : s'.mem.passed = s.mem.passed ++ [m])

/-- The step leaves the socket, the daemon and the passed messages alone. -/
theorem Landing.frame {a : Act ι κ} (hsock : s'.mem.socket = s.mem.socket) (happ : s'.applied = s.applied)
    (hp : s'.mem.passed = s.mem.passed) : Landing s a s' :=
  .still (by rw [State.landed, State.landed, hsock, happ]) hp

theorem Mem.insert_frame (s : Mem) (m : NlMsg) : (s.insert m).socket = s.socket ∧ (s.insert m).passed = s.passed ∧
    (s.insert m).accepted = s.accepted ++ [m] ∧ (s.insert m).fileOn = s.fileOn := by
  unfold Mem.insert Mem.addMsgToFile
  split
  · split <;> exact ⟨rfl, rfl, rfl, rfl⟩
  · exact ⟨rfl, rfl, rfl, rfl⟩

theorem Mem.sendHead_frame (s : Mem) (o : Unicast) :
    (s.sendHead o).written = s.written ∧ (s.sendHead o).accepted = s.accepted := by
  unfold Mem.sendHead
  split
  · split
    · cases o <;> exact ⟨rfl, rfl⟩
    · exact ⟨rfl, rfl⟩
  · exact ⟨rfl, rfl⟩

theorem Mem.sendFileOn_accepted (s : Mem) (o : Unicast) : (s.sendFileOn o).accepted = s.accepted := by
  cases o <;> rfl

/-- A `FILEON` message lands without an event. -/
theorem landing_sendFileOn {a : Act ι κ} (o : Unicast) (p : SendPc) :
    Landing s a { s with mem := s.mem.sendFileOn o, send := p } := by
  cases o with
  | delivered =>
    apply Landing.still
    · simp [State.landed, Mem.sendFileOn]
    · rfl
  | _ => exact .frame rfl rfl rfl

/-- The head of the buffer is passed; it lands if it is delivered. -/
theorem landing_sendHead {o : Unicast} (hpc : s.send = .sendBuf) (p : SendPc) :
    Landing s (.send o) { s with mem := s.mem.sendHead o, send := p } := by
  by_cases hpos : 0 < s.mem.msgBufSize
  · cases hbuf : s.mem.msgBuf with
    | nil =>
      have hsame : s.mem.sendHead o = s.mem := by simp [Mem.sendHead, Mem.getMsgFromList, hbuf, hpos]
      rw [hsame]
      exact .frame rfl rfl rfl
    | cons m rest =>
      rw [Mem.sendHead_cons hbuf hpos]
      cases o with
      | delivered =>
        apply Landing.lands m
        · simp only [State.landed, Mem.sendMsg, Mem.unlink, List.filterMap_append, List.append_assoc]
          cases hread : m.read <;> simp [hread]
        · rfl
      | noBuf => exact .dropped m _ rfl (by simp) hpc hpos rfl rfl
      | failed => exact .dropped m _ rfl (by simp) hpc hpos rfl rfl
  · rw [Mem.sendHead_zero (by omega)]
    exact .frame rfl rfl rfl

/-- The daemon moves an event from its socket to those it has read. -/
theorem landed_recv {now : Int} (hs : efKernelConn s now = some s') : s'.landed = s.landed := by
  cases hsock : s.mem.socket with
  | nil => simp [efKernelConn, hsock] at hs
  | cons d ds =>
    simp only [efKernelConn, hsock, Option.some.injEq] at hs
    subst hs
    have hd : decode (userMsg d.payload) = d.read := rfl
    simp only [State.landed, Mem.popSocket, hsock, List.tail_cons, List.map_append, hd, List.append_assoc]
    cases hread : d.read <;> simp [hread]

theorem landing_recv {a : Act ι κ} {now : Int} (hs : efKernelConn s now = some s') : Landing s a s' := by
  refine .still (landed_recv hs) ?_
  revert hs
  fun_cases efKernelConn s now <;> intro hs <;> cases hs
  rfl

/-- The pass makes the call of the event it has read. -/
theorem calls_recv {now : Int} (hcalls : s.calls = s.applied.filterMap fun e => eventCall e.1 e.2)
    (hs : efKernelConn s now = some s') : s'.calls = s'.applied.filterMap fun e => eventCall e.1 e.2 := by
  cases hsock : s.mem.socket with
  | nil => simp [efKernelConn, hsock] at hs
  | cons d ds =>
    simp only [efKernelConn, hsock, Option.some.injEq, Daemon.dispatch_snd] at hs
    subst hs
    rw [List.filterMap_append, ← hcalls]
    cases decode (userMsg d.payload) with
    | none => rfl
    | some m => cases hcall : eventCall m now <;> simp [hcall]

/-- What was passed and what still waits, in the order of the acceptance. -/
theorem passed_sublist_accepted (h : BufferOk s.mem) :
    (s.mem.passed ++ s.mem.msgBuf).Sublist s.mem.accepted := by
  rw [h.accepted, h.passed]
  exact (List.filter_sublist.map _).append (.refl _)

/-! ## Where messages come from -/

/-- What is to hold of all messages holds of those accepted and of those the handlers have still to link. -/
structure OfCalls (P : NlMsg → Prop) (s : State ι κ) : Prop where
  accepted : ∀ m ∈ s.mem.accepted, P m
  pending : ∀ i m, (s.handler i).msg? = some m → P m

variable {P : NlMsg → Prop}

theorem ofCalls_start : OfCalls P (start : State ι κ) := by
  constructor <;> simp [start, Mem.load, HandlerPc.msg?]

theorem OfCalls.frame (h : OfCalls P s) (hacc : s'.mem.accepted = s.mem.accepted) (hpc : s'.handler = s.handler) :
    OfCalls P s' := by
  constructor
  · rw [hacc]
    exact h.accepted
  · rw [hpc]
    exact h.pending

theorem OfCalls.sendFunc (h : OfCalls P s) {o : Unicast} (hs : sendFunc s o = some s') : OfCalls P s' := by
  revert hs
  fun_cases Kernel.sendFunc s o <;> intro hs <;> cases hs <;>
    first
    | exact h.frame rfl rfl
    | exact h.frame (Mem.sendFileOn_accepted _ _) rfl
    | exact h.frame (Mem.sendHead_frame _ _).2 rfl

section Handlers

variable [DecidableEq ι]

/-- A handler that has no other messages than such ones moves. -/
theorem OfCalls.handler_moves (h : OfCalls P s) {i : ι} {p : HandlerPc} (hacc : ∀ m ∈ s'.mem.accepted, P m)
    (hpc : s'.handler = Function.update s.handler i p) (hp : ∀ m, p.msg? = some m → P m) : OfCalls P s' := by
  refine ⟨hacc, fun j m hm => ?_⟩
  rw [hpc] at hm
  by_cases hji : j = i
  · rw [hji, Function.update_self] at hm
    exact hp m hm
  · rw [Function.update_of_ne hji] at hm
    exact h.pending j m hm

/-- **The step of a handler**: it accepts the message it has. -/
theorem OfCalls.addVfsChanged (h : OfCalls P s) {i : ι} (hs : addVfsChanged s i = some s') : OfCalls P s' := by
  cases hpc : s.handler i with
  | idle => simp [Kernel.addVfsChanged, hpc] at hs
  | lockBuf m =>
    simp only [Kernel.addVfsChanged, hpc] at hs
    obtain ⟨-, hs⟩ := Option.ite_none_right_eq_some.mp hs
    cases hs
    exact h.handler_moves h.accepted rfl fun m' hm' => h.pending i m' (by rw [hpc]; exact hm')
  | insert m =>
    have hm : P m := h.pending i m (by rw [hpc]; rfl)
    have hacc : ∀ m' ∈ (s.mem.insert m).accepted, P m' := by
      rw [(Mem.insert_frame s.mem m).2.2.1]
      simpa [or_imp, forall_and, hm] using h.accepted
    simp only [Kernel.addVfsChanged, hpc] at hs
    split at hs
    · cases hs
      exact h.handler_moves hacc rfl (by simp [HandlerPc.msg?])
    · cases hs
      exact h.handler_moves hacc rfl (by simp [HandlerPc.msg?])
  | lockFile =>
    simp only [Kernel.addVfsChanged, hpc] at hs
    obtain ⟨-, hs⟩ := Option.ite_none_right_eq_some.mp hs
    cases hs
    exact h.handler_moves h.accepted rfl (by simp [HandlerPc.msg?])
  | setOn | unlockFile | unlockBuf =>
    simp only [Kernel.addVfsChanged, hpc] at hs
    cases hs
    exact h.handler_moves h.accepted rfl (by simp [HandlerPc.msg?])

end Handlers

/-! ## One step -/

variable [DecidableEq ι] [DecidableEq κ]

/-- **What one step lands.** -/
theorem step_landing {a : Act ι κ} (hs : step s a = some s') : Landing s a s' := by
  cases a with
  | send o =>
    cases hpc : s.send with
    | sendOn =>
      simp only [step, sendFunc, hpc, Option.some.injEq] at hs
      exact hs ▸ landing_sendFileOn o _
    | sendBuf =>
      simp only [step, sendFunc, hpc, Option.some.injEq] at hs
      exact hs ▸ landing_sendHead hpc _
    | _ =>
      simp only [step, sendFunc, hpc] at hs
      try split at hs
      all_goals
        cases hs
        try exact .frame rfl rfl rfl
  | call i m =>
    obtain ⟨-, hs⟩ := Option.ite_none_right_eq_some.mp hs
    cases hs
    exact .frame rfl rfl rfl
  | handler i =>
    revert hs
    simp only [step]
    fun_cases addVfsChanged s i <;> intro hs <;> cases hs <;> apply Landing.frame <;>
      simp [State.setHandler, Mem.insert_frame, Mem.setFileOn]
  | arrive k =>
    obtain ⟨-, hs⟩ := Option.ite_none_right_eq_some.mp hs
    cases hs
    exact .frame rfl rfl rfl
  | rcv k =>
    revert hs
    simp only [step]
    fun_cases rcvMsg s k <;> intro hs <;> cases hs <;> exact .frame rfl rfl rfl
  | timeout =>
    cases hs
    exact .frame rfl rfl rfl
  | recv now => exact landing_recv hs

/-- Only the daemon's own pass changes what it has read and called. -/
theorem step_daemon {a : Act ι κ} (hs : step s a = some s') :
    s'.applied = s.applied ∧ s'.calls = s.calls ∨ ∃ now, a = .recv now ∧ efKernelConn s now = some s' := by
  cases a with
  | recv now => exact .inr ⟨now, rfl, hs⟩
  | _ =>
    left
    revert hs
    simp only [step]
    first
    | fun_cases sendFunc
    | fun_cases addVfsChanged
    | fun_cases rcvMsg
    | skip
    all_goals
      intro hs
      try split at hs
      all_goals
        cases hs
        try exact ⟨rfl, rfl⟩

/-! ## Any run -/

/-- The daemon makes the calls of the events it has read, in any run. -/
theorem calls_eq (h : (system ι κ).Reachable s) : s.calls = s.applied.filterMap fun e => eventCall e.1 e.2 := by
  refine system_invariant (P := fun s => s.calls = s.applied.filterMap fun e => eventCall e.1 e.2) rfl
    (fun s a s' hcalls _ hs => ?_) h
  rcases step_daemon hs with ⟨happ, hsame⟩ | ⟨now, -, hrecv⟩
  · rw [happ, hsame, hcalls]
  · exact calls_recv hcalls hrecv

theorem landed_sublist_passed (h : (system ι κ).Reachable s) :
    s.landed.Sublist (s.mem.passed.filterMap NlMsg.read) := by
  refine system_invariant (P := fun s => s.landed.Sublist (s.mem.passed.filterMap NlMsg.read))
    (by simp [start, State.landed, Mem.load]) (fun s a s' hsub _ hs => ?_) h
  rcases step_landing hs with ⟨hl, hp⟩ | ⟨m, hl, hp⟩ | ⟨m, o, -, -, -, -, hl, hp⟩
  · rwa [hl, hp]
  · rw [hl, hp, List.filterMap_append]
    refine hsub.append ?_
    cases hread : m.read <;> simp [hread]
  · rw [hl, hp, List.filterMap_append]
    exact hsub.trans (List.sublist_append_left _ _)

/-- **Order of the events**, whatever fails: those the daemon has read, those in its socket and those in the buffer are
a subsequence of the accepted ones, the ones that have left the buffer were passed to `send_msg`, and the daemon has
made the call of each one it has read. -/
theorem landed_in_order (h : (system ι κ).Reachable s) :
    (s.landed ++ s.mem.msgBuf.filterMap NlMsg.read).Sublist (s.mem.accepted.filterMap NlMsg.read) ∧
      s.landed.Sublist (s.mem.passed.filterMap NlMsg.read) ∧
      s.calls = s.applied.filterMap fun e => eventCall e.1 e.2 := by
  have hpassed := landed_sublist_passed h
  refine ⟨?_, hpassed, calls_eq h⟩
  have haccepted := (passed_sublist_accepted (BufferOk.of_reachable h)).filterMap NlMsg.read
  rw [List.filterMap_append] at haccepted
  exact (hpassed.append (.refl _)).trans haccepted

/-- The send of the first event fails; the second one lands. -/
theorem landed_in_order_failed : ∃ s : State Unit Unit,
    s.mem.accepted = [⟨1, bytes "/a"⟩, ⟨2, bytes "/b"⟩] ∧ s.landed = [⟨2, bytes "/b"⟩] ∧
      (s.landed ++ s.mem.msgBuf.filterMap NlMsg.read).Sublist (s.mem.accepted.filterMap NlMsg.read) ∧
      s.landed.Sublist (s.mem.passed.filterMap NlMsg.read) ∧
      s.calls = s.applied.filterMap fun e => eventCall e.1 e.2 := by
  obtain ⟨s, hs, hp⟩ := Transition.System.reachable_of_run (system Unit Unit) start rfl
    (submit ⟨1, bytes "/a"⟩ ++ submit ⟨2, bytes "/b"⟩ ++ control ++ sends 9 .failed ++ [.timeout] ++ control ++
      sends 9 .delivered)
    (fun s => decide (s.mem.accepted = [⟨1, bytes "/a"⟩, ⟨2, bytes "/b"⟩] ∧ s.landed = [⟨2, bytes "/b"⟩]))
    (by decide)
  obtain ⟨hacc, hland⟩ := of_decide_eq_true hp
  exact ⟨s, hacc, hland, landed_in_order hs⟩

/-! ## Messages and times of a run -/

theorem OfCalls.step (h : OfCalls P s) {a : Act ι κ} (ha : ∀ i m, a = .call i m → P m) (hs : step s a = some s') :
    OfCalls P s' := by
  cases a with
  | send o => exact h.sendFunc hs
  | handler i => exact h.addVfsChanged hs
  | call i m =>
    obtain ⟨-, hs⟩ := Option.ite_none_right_eq_some.mp hs
    cases hs
    refine h.handler_moves h.accepted rfl fun m' hm' => ?_
    obtain rfl : m = m' := by simpa [HandlerPc.msg?] using hm'
    exact ha i m rfl
  | arrive k =>
    obtain ⟨-, hs⟩ := Option.ite_none_right_eq_some.mp hs
    cases hs
    exact h.frame rfl rfl
  | rcv k =>
    revert hs
    simp only [Kernel.step]
    fun_cases rcvMsg s k <;> intro hs <;> cases hs <;> exact h.frame rfl rfl
  | timeout =>
    cases hs
    exact h.frame rfl rfl
  | recv now =>
    revert hs
    simp only [Kernel.step]
    fun_cases efKernelConn s now <;> intro hs <;> cases hs
    exact h.frame rfl rfl

/-- Only probes bring messages into the module: what holds of the messages of all calls holds of the accepted ones. -/
theorem accepted_of_called (h : (system ι κ).Reach (fun _ a => ∀ i m, a = .call i m → P m) s) :
    ∀ m ∈ s.mem.accepted, P m := by
  have hinv : OfCalls P s := system_invariant ofCalls_start (fun _ _ _ hi ha hs => hi.step ha hs) h
  exact hinv.accepted

/-- The daemon notes the times at which it receives. -/
theorem applied_of_received {T : Int → Prop}
    (h : (system ι κ).Reach (fun _ a => ∀ now, a = .recv now → T now) s) : ∀ e ∈ s.applied, T e.2 := by
  refine system_invariant (P := fun s => ∀ e ∈ s.applied, T e.2) (by simp [start]) (fun s a s' hi hok hs => ?_) h
  rcases step_daemon hs with ⟨happ, -⟩ | ⟨now, ha, hrecv⟩
  · rwa [happ]
  · cases hsock : s.mem.socket with
    | nil => simp [efKernelConn, hsock] at hrecv
    | cons d ds =>
      simp only [efKernelConn, hsock, Option.some.injEq] at hrecv
      subst hrecv
      refine List.forall_mem_append.mpr ⟨hi, fun e he => ?_⟩
      obtain ⟨m, -, rfl⟩ := Option.map_eq_some_iff.mp (Option.mem_toList.mp he)
      exact hok now ha

/-! ## Runs in which sends succeed -/

/-- A `netlink_unicast` of a message of the buffer delivers it. Handlers may spill, and `FILEON` messages may fail. -/
def Delivered (s : State ι κ) (a : Act ι κ) : Prop :=
  ∀ o, a = .send o → s.send = .sendBuf → 0 < s.mem.msgBufSize → o = .delivered

/-- What is passed lands. -/
theorem landed_eq_passed (h : (system ι κ).Reach Delivered s) : s.landed = s.mem.passed.filterMap NlMsg.read := by
  refine system_invariant (P := fun s => s.landed = s.mem.passed.filterMap NlMsg.read) rfl
    (fun s a s' heq hok hs => ?_) h
  rcases step_landing hs with ⟨hl, hp⟩ | ⟨m, hl, hp⟩ | ⟨m, o, ha, ho, hpc, hpos, -, -⟩
  · rwa [hl, hp]
  · rw [hl, hp, List.filterMap_append, heq]
    cases hread : m.read <;> simp [hread]
  · exact absurd (hok o ha hpc hpos) ho

/-- The messages that left the buffer, by the two routes. -/
theorem perm_routed (ms : List (NlMsg × Route)) :
    (ms.map Prod.fst).Perm (routed .sent ms ++ routed .spilled ms) := by
  have hsplit := List.filter_append_perm (fun e : NlMsg × Route => decide (e.2 = .sent)) ms
  have hother : ms.filter (fun e => !decide (e.2 = .sent)) = ms.filter fun e => decide (e.2 = .spilled) := by
    refine List.filter_congr fun e _ => ?_
    obtain ⟨m, _ | _⟩ := e <;> rfl
  rw [hother] at hsplit
  simpa [routed] using (hsplit.map Prod.fst).symm

/-- Nothing is spilled before the buffer is full. -/
theorem accepted_of_spilled {m : Mem} (h : BufferOk m) (hw : m.written = [] ∨ MAX_MSG_BUF_LEN < m.accepted.length)
    {m' : Mem} (hs : MemStep m m') : m'.written = [] ∨ MAX_MSG_BUF_LEN < m'.accepted.length := by
  cases hs with
  | insert n =>
    by_cases ho : m.overflows n = true
    · right
      have hfull := (h.overflows_iff n).mp ho
      have hacc := congrArg List.length h.accepted
      rw [(m.insert_frame n).2.2.1]
      simp only [List.length_append, List.length_singleton] at hacc ⊢
      omega
    · have hlink : m.insert n = m.link n := by simp [Mem.insert, ho]
      rw [hlink]
      refine hw.imp_right fun hlt => ?_
      simp only [Mem.link, List.length_append]
      omega
  | sendHead o =>
    rw [(m.sendHead_frame o).1, (m.sendHead_frame o).2]
    exact hw
  | sendFileOn o => cases o <;> exact hw
  | _ => exact hw

/-- **What the overflow loses.** Where every send of a message succeeds, each accepted event has landed, waits in the
buffer or was spilled; so those missing are the spilled ones, and none is missing before more than `MAX_MSG_BUF_LEN` of
them were accepted. -/
theorem missing_are_spilled (h : (system ι κ).Reach Delivered s) :
    (s.mem.accepted.filterMap NlMsg.read).Perm
        (s.landed ++ (s.mem.written ++ s.mem.msgBuf).filterMap NlMsg.read) ∧
      (s.mem.written = [] ∨ MAX_MSG_BUF_LEN < s.mem.accepted.length) := by
  have hb := BufferOk.of_reachable h.reachable
  constructor
  · have hperm : s.mem.accepted.Perm (s.mem.passed ++ (s.mem.written ++ s.mem.msgBuf)) := by
      rw [hb.accepted, hb.passed, hb.written, ← List.append_assoc]
      exact (perm_routed s.mem.removed).append_right _
    rw [landed_eq_passed h, ← List.filterMap_append]
    exact hperm.filterMap _
  · refine h.rec_on_steps (P := fun s => s.mem.written = [] ∨ MAX_MSG_BUF_LEN < s.mem.accepted.length)
      (fun s hs => ?_) fun s a s' hr hw _ hs => ?_
    · cases hs
      exact .inl rfl
    · exact accepted_of_spilled (BufferOk.of_reachable hr.reachable) hw (step_mem hs)

/-- One event more than the buffer holds. -/
theorem missing_are_spilled_full : ∃ s : State Unit Unit, s.mem.written = [⟨1, bytes "/a"⟩] ∧ s.landed = [] ∧
    (s.mem.accepted.filterMap NlMsg.read).Perm
        (s.landed ++ (s.mem.written ++ s.mem.msgBuf).filterMap NlMsg.read) ∧
      (s.mem.written = [] ∨ MAX_MSG_BUF_LEN < s.mem.accepted.length) := by
  obtain ⟨s, hs, hp⟩ := Transition.System.reach_of_runIf (system Unit Unit) start Delivered
    (fun _ a => match a with
      | .send _ => false
      | _ => true)
    (fun s a ht o ha => by rw [ha] at ht; cases ht) rfl
    (List.replicate 129 (submit ⟨1, bytes "/a"⟩)).flatten
    (fun s => decide (s.mem.written = [⟨1, bytes "/a"⟩] ∧ s.landed = [])) (by decide +kernel)
  obtain ⟨hw, hl⟩ := of_decide_eq_true hp
  exact ⟨s, hw, hl, missing_are_spilled hs⟩

end InOrder

end Everyfile.Kernel
