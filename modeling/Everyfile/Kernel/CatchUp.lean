import Everyfile.Kernel.Progress

/-!
# Catching up

The events on their way to the daemon are those in its socket and those in the message buffer, with what the handler
inside `sl_buf` is about to do to it (`State.queued`). Unless a state is doomed, the threads and the daemon can go on
from it so that all of them are read, in their order, and nothing is on its way any more; from a doomed one they cannot
(`catches_up_iff`). Each pass of `send_func` takes one message or one announcement with it, and the steps left are
counted by `State.backlog`.
-/

namespace Everyfile.Kernel

open Transition

section CatchUp

variable {ι κ : Type*} {s s' t : State ι κ} {i : ι}

/-- The messages of the buffer once the handler inside `sl_buf` has come out. -/
def State.queued (s : State ι κ) : List NlMsg :=
  match s.slBuf with
  | some (.handler i) =>
    match s.handler i with
    | .insert m => (s.mem.insert m).msgBuf
    | _ => s.mem.msgBuf
  | _ => s.mem.msgBuf

/-- Nothing is on its way to the daemon. -/
structure AtRest (s : State ι κ) : Prop where
  msgBuf : s.mem.msgBuf = []
  socket : s.mem.socket = []
  outside : ∀ i, (s.handler i).inside .buf = false

/-! ## The steps left -/

/-- What an announcement that is due costs. -/
def Mem.onDue (m : Mem) : Nat := if m.fileOn then 12 else 0

/-- Steps of the send thread up to the next message; those after it belong to the next pass. An announcement comes
first. -/
def SendPc.ahead (m : Mem) : SendPc → Nat
  | .sendOn => 15
  | .resetPos => 13
  | .clearOn => 12
  | .unlockBuf => 12 + m.onDue
  | .unlockFile => 11 + m.onDue
  | .lockMsg => 10 + m.onDue
  | .testReady => 9 + m.onDue
  | .unlockSleep => 8 + m.onDue
  | .sleep => 7 + m.onDue
  | .unlockMsg => 6 + m.onDue
  | .lockFile => 5 + m.onDue
  | .testFileOn => 4 + m.onDue
  | .lockBuf => 3 + m.onDue
  | .sendBuf => 2 + m.onDue

/-- Steps of a CPU up to its release of `sl_msg`. -/
def RcvPc.toGo : RcvPc → Nat
  | .load => 3
  | .store _ => 2
  | .unlock => 1
  | _ => 0

/-- Steps of the CPU that holds `sl_msg`. -/
def State.msgToGo (s : State ι κ) : Nat :=
  match s.slMsg with
  | some (.rcv k) => (s.rcv k).toGo
  | _ => 0

/-- Steps of the handler inside `sl_buf`. -/
def State.bufToGo (s : State ι κ) : Nat :=
  match s.slBuf with
  | some (.handler i) => (s.handler i).toGo
  | _ => 0

/-- The weights: a message costs a pass of `send_func`, and a handler may link one and set `file_on`. -/
def State.backlog (s : State ι κ) : Nat :=
  s.mem.socket.length + s.send.ahead s.mem + s.msgToGo + 16 * s.mem.msgBuf.length + 32 * s.bufToGo

theorem Mem.onDue_le (m : Mem) : m.onDue ≤ 12 := by
  unfold Mem.onDue
  split <;> omega

theorem SendPc.ahead_le (p : SendPc) (m m' : Mem) : p.ahead m' ≤ p.ahead m + 12 := by
  have := m'.onDue_le
  cases p <;> simp only [SendPc.ahead] <;> omega

/-- Without a handler at `insert` the buffer is what is queued. -/
theorem queued_eq (h : ∀ i m, s.handler i ≠ .insert m) : s.queued = s.mem.msgBuf := by
  unfold State.queued
  split
  · split
    next hi => exact absurd hi (h _ _)
    next => rfl
  · rfl

/-! ## The send thread -/

/-- The steps that pass no message leave the buffer and what has landed alone. -/
theorem sendFunc_still (hpc : s.send ≠ .sendBuf) (hs : sendFunc s .delivered = some t) :
    t.landed = s.landed ∧ t.mem.msgBuf = s.mem.msgBuf := by
  revert hs
  fun_cases sendFunc s .delivered <;> intro hs <;> cases hs <;>
    first
    | exact ⟨rfl, rfl⟩
    | exact absurd ‹_› hpc
    | simp [State.landed, Mem.sendFileOn]

/-- The head of the buffer lands. -/
theorem sendFunc_lands (hb : BufferOk s.mem) (hpc : s.send = .sendBuf) (hne : s.mem.msgBuf ≠ [])
    (hs : sendFunc s .delivered = some t) :
    t.landed ++ t.mem.msgBuf.filterMap NlMsg.read = s.landed ++ s.mem.msgBuf.filterMap NlMsg.read ∧
      t.mem.socket.length + t.send.ahead t.mem + 16 * t.mem.msgBuf.length <
        s.mem.socket.length + s.send.ahead s.mem + 16 * s.mem.msgBuf.length := by
  obtain ⟨m, rest, hbuf⟩ := List.exists_cons_of_ne_nil hne
  have hpos : 0 < s.mem.msgBufSize := by rw [hb.size, hbuf]; simp
  simp only [sendFunc, hpc, Option.some.injEq, Mem.sendHead_cons hbuf hpos] at hs
  subst hs
  constructor
  · simp only [State.landed, Mem.sendMsg, Mem.unlink, hbuf, List.tail_cons, List.filterMap_append, List.append_assoc]
    cases hread : m.read <;> simp [hread]
  · have hdue : ((s.mem.sendMsg m .delivered).unlink m .sent).onDue = s.mem.onDue := rfl
    simp only [SendPc.ahead, hpc, hdue]
    simp only [Mem.sendMsg, Mem.unlink, hbuf, List.tail_cons, List.length_append, List.length_cons, List.length_nil]
    omega

/-- The other threads come no nearer to the locks they hold. -/
theorem sendFunc_others (hs : sendFunc s .delivered = some t) :
    t.handler = s.handler ∧ t.bufToGo ≤ s.bufToGo ∧ t.msgToGo ≤ s.msgToGo := by
  revert hs
  fun_cases sendFunc s .delivered <;> intro hs <;> cases hs <;> refine ⟨rfl, ?_, ?_⟩ <;>
    first
    | exact le_rfl
    | exact Nat.zero_le _

/-- The send thread comes nearer to its next message. -/
theorem sendFunc_ahead (hpc : s.send ≠ .sendBuf) (hs : sendFunc s .delivered = some t) :
    t.mem.socket.length + t.send.ahead t.mem < s.mem.socket.length + s.send.ahead s.mem := by
  have hdue : s.mem.fileOn = true → s.mem.onDue = 12 := fun hon => by simp [Mem.onDue, hon]
  have hready : s.mem.takeReady.socket = s.mem.socket ∧ s.mem.takeReady.onDue = s.mem.onDue := ⟨rfl, rfl⟩
  have hoff : (s.mem.setFileOn false).socket = s.mem.socket ∧ (s.mem.setFileOn false).onDue = 0 := ⟨rfl, rfl⟩
  revert hs
  fun_cases sendFunc s .delivered <;> intro hs <;> cases hs <;>
    first
    | exact absurd ‹_› hpc
    | simp_all only [SendPc.ahead, Mem.sendFileOn, Mem.resetPos, List.length_append, List.length_singleton]; omega

/-- Moving on inside `sl_file`, and coming out, the send thread does not turn to `sl_buf`. -/
theorem takesBuf_of_sendFunc {o : Unicast} (hin : s.send.inside .file = true) (hs : sendFunc s o = some t)
    (ht : t.send.takesBuf t.mem = true) : s.send.takesBuf s.mem = true := by
  revert hs
  fun_cases sendFunc s o <;> intro hs <;> cases hs <;> simp_all [SendPc.takesBuf, SendPc.inside]

/-! ## The other steps -/

section Handler

variable [DecidableEq ι]

/-- The handler inside `sl_buf` does what was foreseen. -/
theorem addVfsChanged_queued (hheld : s.slBuf = some (.handler i)) (hs : addVfsChanged s i = some t) :
    t.queued = s.queued := by
  revert hs
  fun_cases addVfsChanged s i <;> intro hs <;> cases hs <;>
    simp_all [State.queued, State.setHandler, Mem.setFileOn]

/-- It leaves the socket and the daemon alone, and links one message at most. -/
theorem addVfsChanged_frame (hs : addVfsChanged s i = some t) :
    t.landed = s.landed ∧ t.mem.socket = s.mem.socket ∧ t.send = s.send ∧ t.msgToGo = s.msgToGo := by
  revert hs
  fun_cases addVfsChanged s i <;> intro hs <;> cases hs <;>
    simp [State.landed, State.setHandler, State.msgToGo, Mem.insert_frame, Mem.setFileOn]

theorem length_insert_le (m : Mem) (n : NlMsg) : (m.insert n).msgBuf.length ≤ m.msgBuf.length + 1 := by
  unfold Mem.insert Mem.addMsgToFile
  split
  · split <;> simp [Mem.writeRecord, Mem.unlink, Mem.link]
  · simp [Mem.link]

theorem addVfsChanged_length (hs : addVfsChanged s i = some t) :
    t.mem.msgBuf.length ≤ s.mem.msgBuf.length + 1 := by
  revert hs
  fun_cases addVfsChanged s i <;> intro hs <;> cases hs <;>
    first
    | exact length_insert_le _ _
    | exact Nat.le_succ _

end Handler

/-- The send thread can move where the lock it asks for is free. -/
theorem exists_sendFunc (h : ∀ l, s.send.wants = some l → s.held l = none) :
    ∃ t, sendFunc s .delivered = some t := by
  cases hpc : s.send <;> simp only [hpc, SendPc.wants, Option.some.injEq, forall_eq', State.held, reduceCtorEq,
    false_implies, implies_true] at h <;> simp only [sendFunc, hpc]
  case testReady | testFileOn => split <;> exact ⟨_, rfl⟩
  case lockMsg | lockFile | lockBuf => exact ⟨_, if_pos h⟩
  all_goals exact ⟨_, rfl⟩

theorem not_doomed_of_outside (h : ∀ i, (s.handler i).inside .buf = false) : ¬Doomed s := by
  rintro ⟨-, i, hi⟩
  have hin := HandlerPc.inside_of_takesFile hi
  rw [h i] at hin
  cases hin

theorem queued_of_outside (h : ∀ i, (s.handler i).inside .buf = false) : s.queued = s.mem.msgBuf := by
  refine queued_eq fun i m hi => ?_
  have hout := h i
  rw [hi] at hout
  cases hout

/-- The CPU that holds `sl_msg` comes nearer to its release. -/
theorem rcvMsg_effect [DecidableEq κ] {k : κ} (hheld : s.slMsg = some (.rcv k)) (hs : rcvMsg s k = some t) :
    t.handler = s.handler ∧ t.mem.msgBuf = s.mem.msgBuf ∧ t.landed = s.landed ∧ t.backlog < s.backlog := by
  have hstore : ∀ v, s.send.ahead (s.mem.storeReady v) = s.send.ahead s.mem := fun v => by cases s.send <;> rfl
  revert hs
  fun_cases rcvMsg s k <;> intro hs <;> cases hs <;> refine ⟨rfl, rfl, rfl, ?_⟩ <;>
    simp_all [State.backlog, State.setRcv, State.msgToGo, State.bufToGo, RcvPc.toGo, Mem.storeReady]

theorem efKernelConn_effect {now : Int} (hs : efKernelConn s now = some t) :
    t.handler = s.handler ∧ t.mem.msgBuf = s.mem.msgBuf ∧ t.backlog < s.backlog := by
  have hpop : s.send.ahead s.mem.popSocket = s.send.ahead s.mem := by cases s.send <;> rfl
  cases hsock : s.mem.socket with
  | nil => simp [efKernelConn, hsock] at hs
  | cons d ds =>
    simp only [efKernelConn, hsock, Option.some.injEq] at hs
    subst hs
    refine ⟨rfl, rfl, ?_⟩
    simp_all [State.backlog, State.msgToGo, State.bufToGo, Mem.popSocket]

variable [DecidableEq ι] [DecidableEq κ]

/-- What is kept while the backlog is worked off: the events that have landed or are queued are `es`. -/
structure Working (es : List NlMsg) (s : State ι κ) : Prop where
  free : Free s
  buffer : BufferOk s.mem
  events : s.landed ++ s.queued.filterMap NlMsg.read = es

variable {es : List NlMsg}

/-- The handler inside `sl_buf` moves. -/
theorem Working.handler (h : Working es s) (hin : (s.handler i).inside .buf = true)
    (hfile : s.handler i = .lockFile → s.slFile = none) :
    ∃ a t, step s a = some t ∧ Working es t ∧ t.backlog < s.backlog := by
  obtain ⟨t, p, ht, hf, hsend, hh, hslBuf, hgo⟩ := h.free.handler_moves hin hfile
  have hheld := h.free.1.slBuf_eq hin
  have hs : addVfsChanged s i = some t := ht
  obtain ⟨hland, hsock, -, hmsg⟩ := addVfsChanged_frame hs
  refine ⟨_, t, ht, ⟨hf, h.buffer.step (step_mem ht), ?_⟩, ?_⟩
  · rw [hland, addVfsChanged_queued hheld hs, h.events]
  · have hlen := addVfsChanged_length hs
    have hahead := SendPc.ahead_le s.send s.mem t.mem
    have hbuf : s.bufToGo = (s.handler i).toGo := by simp [State.bufToGo, hheld]
    have hbuf' : t.bufToGo ≤ p.toGo := by
      rcases hslBuf with hslBuf | hslBuf <;> simp [State.bufToGo, hslBuf, hh]
    simp only [State.backlog, hsend, hsock, hmsg]
    omega

/-- The send thread moves. -/
theorem Working.send (h : Working es s) (hins : ∀ i m, s.handler i ≠ .insert m)
    (hne : s.send = .sendBuf → s.mem.msgBuf ≠ []) (hs : sendFunc s .delivered = some t) (hd : ¬Doomed t) :
    ∃ a t, step s a = some t ∧ Working es t ∧ t.backlog < s.backlog := by
  have ht : Kernel.step s (.send .delivered : Act ι κ) = some t := hs
  obtain ⟨hh, hbuf, hmsg⟩ := sendFunc_others hs
  obtain ⟨hevents, hlt⟩ : t.landed ++ t.mem.msgBuf.filterMap NlMsg.read =
        s.landed ++ s.mem.msgBuf.filterMap NlMsg.read ∧
      t.mem.socket.length + t.send.ahead t.mem + 16 * t.mem.msgBuf.length <
        s.mem.socket.length + s.send.ahead s.mem + 16 * s.mem.msgBuf.length := by
    by_cases hpc : s.send = .sendBuf
    · exact sendFunc_lands h.buffer hpc (hne hpc) hs
    · obtain ⟨hland, hsame⟩ := sendFunc_still hpc hs
      have hahead := sendFunc_ahead hpc hs
      rw [hland, hsame]
      exact ⟨rfl, by omega⟩
  refine ⟨_, t, ht, ⟨⟨h.free.1.step ht, hd⟩, h.buffer.step (step_mem ht), ?_⟩, ?_⟩
  · rw [queued_eq fun i m => by rw [hh]; exact hins i m, hevents, ← queued_eq hins, h.events]
  · simp only [State.backlog]
    omega

/-- The CPU that holds `sl_msg` moves. -/
theorem Working.rcv {k : κ} (h : Working es s) (hout : ∀ i, (s.handler i).inside .buf = false)
    (hheld : s.slMsg = some (.rcv k)) : ∃ a t, step s a = some t ∧ Working es t ∧ t.backlog < s.backlog := by
  have hin : (s.rcv k).inside .msg = true := h.free.1.inside_of_held (l := .msg) hheld
  obtain ⟨t, hs⟩ : ∃ t, rcvMsg s k = some t := by
    cases hpc : s.rcv k with
    | idle | lockMsg => rw [hpc] at hin; cases hin
    | _ => simp [rcvMsg, hpc]
  obtain ⟨hh, hbuf, hland, hlt⟩ := rcvMsg_effect hheld hs
  have ht : Kernel.step s (.rcv k : Act ι κ) = some t := hs
  have hout' : ∀ i, (t.handler i).inside .buf = false := by rwa [hh]
  refine ⟨_, t, ht, ⟨⟨h.free.1.step ht, not_doomed_of_outside hout'⟩, h.buffer.step (step_mem ht), ?_⟩, hlt⟩
  rw [hland, queued_of_outside hout', hbuf, ← queued_of_outside hout, h.events]

/-- The daemon receives. -/
theorem Working.recv (h : Working es s) (hout : ∀ i, (s.handler i).inside .buf = false) (hsock : s.mem.socket ≠ []) :
    ∃ a t, step s a = some t ∧ Working es t ∧ t.backlog < s.backlog := by
  obtain ⟨d, ds, hd⟩ := List.exists_cons_of_ne_nil hsock
  obtain ⟨t, hs⟩ : ∃ t, efKernelConn s 0 = some t := by simp [efKernelConn, hd]
  obtain ⟨hh, hbuf, hlt⟩ := efKernelConn_effect hs
  have ht : Kernel.step s (.recv 0 : Act ι κ) = some t := hs
  have hout' : ∀ i, (t.handler i).inside .buf = false := by rwa [hh]
  refine ⟨_, t, ht, ⟨⟨h.free.1.step ht, not_doomed_of_outside hout'⟩, h.buffer.step (step_mem ht), ?_⟩, hlt⟩
  rw [landed_recv hs, queued_of_outside hout', hbuf, ← queued_of_outside hout, h.events]

/-- The send thread, or a CPU that keeps it from `sl_msg`, moves. -/
theorem Working.pass (h : Working es s) (hout : ∀ i, (s.handler i).inside .buf = false) (hbuf : s.mem.msgBuf ≠ []) :
    ∃ a t, step s a = some t ∧ Working es t ∧ t.backlog < s.backlog := by
  have hl := h.free.1
  by_cases hfree : ∀ l, s.send.wants = some l → s.held l = none
  · obtain ⟨t, ht⟩ := exists_sendFunc hfree
    have hout' : ∀ i, (t.handler i).inside .buf = false := by rwa [(sendFunc_others ht).1]
    refine h.send (fun i m hi => ?_) (fun _ => hbuf) ht (not_doomed_of_outside hout')
    have := hout i
    rw [hi] at this
    cases this
  · -- the lock it asks for is in the hands of a CPU
    push Not at hfree
    obtain ⟨l, hw, hheld⟩ := hfree
    obtain ⟨u, hu⟩ := Option.ne_none_iff_exists'.mp hheld
    have hin := hl.inside_of_held hu
    have hsend : s.send.inside l = false := by
      cases hpc : s.send <;> rw [hpc] at hw <;> cases hw <;> rfl
    cases u with
    | send =>
      have hin' : s.send.inside l = true := hin
      rw [hsend] at hin'
      cases hin'
    | handler i =>
      have hin' : (s.handler i).inside .buf = true := HandlerPc.inside_buf hin
      rw [hout i] at hin'
      cases hin'
    | rcv k =>
      have hin' : (s.rcv k).inside l = true := hin
      have hmsg : l = .msg := by cases hpc : s.rcv k <;> rw [hpc] at hin' <;> cases l <;> first | rfl | cases hin'
      subst hmsg
      exact h.rcv hout hu

/-- **Some thread can go on** while something is on its way. -/
theorem Working.step (h : Working es s) (hrest : ¬AtRest s) :
    ∃ a t, step s a = some t ∧ Working es t ∧ t.backlog < s.backlog := by
  have hl := h.free.1
  by_cases hin : ∃ i, (s.handler i).inside .buf = true
  · obtain ⟨i, hi⟩ := hin
    by_cases hfile : s.handler i = .lockFile → s.slFile = none
    · exact h.handler hi hfile
    · -- the handler waits for the send thread, which is not on its way to `sl_buf`
      obtain ⟨hpc, hne⟩ := Classical.not_imp.mp hfile
      have hinf := hl.send_inside_of_waiting hpc hne
      have htakes : s.send.takesBuf s.mem ≠ true := fun ht => h.free.2 ⟨ht, i, by rw [hpc]; rfl⟩
      obtain ⟨t, ht⟩ : ∃ t, sendFunc s .delivered = some t := by
        refine exists_sendFunc fun l hw => ?_
        cases hs : s.send <;> simp_all [SendPc.wants, SendPc.inside, SendPc.takesBuf]
      refine h.send (fun j m hj => ?_) (fun hs => ?_) ht fun hd => htakes (takesBuf_of_sendFunc hinf ht hd.1)
      · obtain rfl := hl.handler_eq hi (show (s.handler j).inside .buf = true by rw [hj]; rfl)
        rw [hpc] at hj
        cases hj
      · have hin : s.send.inside .buf = true := by rw [hs]; rfl
        have hheld := hl.held_of_inside (l := .buf) (t := .send) (by decide) hin
        rw [State.held, hl.slBuf_eq hi] at hheld
        cases hheld
  · have hout : ∀ i, (s.handler i).inside .buf = false := by simpa using hin
    by_cases hsock : s.mem.socket = []
    · exact h.pass hout fun hbuf => hrest ⟨hbuf, hsock, hout⟩
    · exact h.recv hout hsock

/-- **Catching up**: from a reachable state the threads and the daemon can come to rest with all events read that had
landed or were queued, in their order, exactly if the state is not doomed. -/
theorem catches_up_iff (h : (system ι κ).Reachable s) :
    (∃ as t, (system ι κ).run s as = some t ∧ AtRest t ∧
      t.applied.map Prod.fst = s.landed ++ s.queued.filterMap NlMsg.read) ↔ ¬Doomed s := by
  have hl := LockInv.of_reach h
  constructor
  · rintro ⟨as, t, hr, hrest, -⟩ hd
    exact not_doomed_of_outside hrest.outside (hd.forever hl hr).1
  · intro hd
    have hstart : Working (s.landed ++ s.queued.filterMap NlMsg.read) s := ⟨⟨hl, hd⟩, .of_reachable h, rfl⟩
    obtain ⟨as, t, hr, ht, hrest⟩ := System.exists_run_of_rank (system ι κ) (Working _) AtRest State.backlog
      (fun t ht hrest => ht.step hrest) hstart
    refine ⟨as, t, hr, hrest, ?_⟩
    have hevents := ht.events
    rw [queued_of_outside hrest.outside, State.landed, hrest.msgBuf, hrest.socket] at hevents
    simpa using hevents

end CatchUp

/-- Two events wait in the buffer, and the send thread has gone to sleep. -/
theorem catches_up_two : ∃ s : State Unit Unit, s.mem.msgBuf = [⟨1, bytes "/a"⟩, ⟨2, bytes "/b"⟩] ∧ s.send = .sleep ∧
    ∃ as t, (system Unit Unit).run s as = some t ∧ AtRest t ∧
      t.applied.map Prod.fst = [⟨1, bytes "/a"⟩, ⟨2, bytes "/b"⟩] := by
  obtain ⟨s, hs, hp⟩ := Transition.System.reachable_of_run (system Unit Unit) start rfl
    (submit ⟨1, bytes "/a"⟩ ++ submit ⟨2, bytes "/b"⟩ ++ sends 3 .delivered)
    (fun s => decide (s.mem.msgBuf = [⟨1, bytes "/a"⟩, ⟨2, bytes "/b"⟩] ∧ s.send = .sleep ∧
      s.landed ++ s.queued.filterMap NlMsg.read = [⟨1, bytes "/a"⟩, ⟨2, bytes "/b"⟩])) (by decide)
  obtain ⟨hbuf, hsend, hevents⟩ := of_decide_eq_true hp
  have hfree : ¬Doomed s := by
    rintro ⟨htakes, -⟩
    rw [hsend] at htakes
    cases htakes
  obtain ⟨as, t, hr, hrest, hread⟩ := (catches_up_iff hs).mpr hfree
  exact ⟨s, hbuf, hsend, as, t, hr, hrest, hread.trans hevents⟩

end Everyfile.Kernel
