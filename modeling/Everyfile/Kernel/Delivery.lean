import Everyfile.Kernel.Buffer
import Everyfile.Kernel.Locks
import Mathlib.Data.List.Basic

/-!
# Delivery of the events

An accepted event is in the message buffer, in the overflow log below `pos` (until a `FILEON` message that covers it is
sent), in the netlink socket (its own message, or a `FILEON` message whose part of the log still holds its record), or
applied by the daemon; `Conserved` says that these places, in the order of the way to the daemon, hold exactly the
accepted events in the order of their acceptance.

The module and the daemon lose events: a message whose `netlink_unicast` fails is dropped all the same
(`event_lost`), the daemon takes no events from a `FILEON` message, and `send_func` sets `pos` to 0 while a handler may
write. `Delivers` is the condition on the steps that excludes these, and under it nothing is lost, duplicated or
reordered (`events_conserved`).
-/

namespace Everyfile.Kernel

open Daemon (eventCall)

/-- The events on their way in the socket. -/
def Mem.inFlight (s : Mem) : List NlMsg := s.socket.flatMap (·.events s.file)

/-- The events in the overflow log below `pos` that no `FILEON` message has announced yet. -/
def Mem.inFile (s : Mem) : List NlMsg := s.spilled.drop s.announced

/-! ## The overflow log -/

/-- The part of the log below `pos` is the records of the messages spilled since `pos` was last 0. -/
structure FileOk (s : Mem) : Prop where
  pos_le : s.pos ≤ s.file.length
  pos_eq : s.pos = (records s.spilled).length
  take_eq : s.file.take s.pos = records s.spilled

namespace FileOk

variable {s : Mem}

theorem writeRecord (h : FileOk s) (m : NlMsg) : FileOk (s.writeRecord m) := by
  refine ⟨le_length_kernelWrite h.pos_le, ?_, ?_⟩
  · simp [Mem.writeRecord, records_append, records_singleton, h.pos_eq]
  · simp [Mem.writeRecord, take_kernelWrite h.pos_le, records_append, records_singleton, h.take_eq]

theorem unlink (h : FileOk s) (m : NlMsg) (r : Route) : FileOk (s.unlink m r) := ⟨h.pos_le, h.pos_eq, h.take_eq⟩

theorem insert (h : FileOk s) (m : NlMsg) : FileOk (s.insert m) := by
  have hl : FileOk (s.link m) := ⟨h.pos_le, h.pos_eq, h.take_eq⟩
  unfold Mem.insert Mem.addMsgToFile
  split
  · split
    · exact (hl.unlink _ _).writeRecord _
    · exact ⟨h.pos_le, h.pos_eq, h.take_eq⟩
  · exact hl

theorem sendHead (h : FileOk s) (o : Unicast) : FileOk (s.sendHead o) := by
  unfold Mem.sendHead
  split
  · split
    · cases o <;> exact ⟨h.pos_le, h.pos_eq, h.take_eq⟩
    · exact h
  · exact h

theorem step {s' : Mem} (hs : MemStep s s') (h : FileOk s) : FileOk s' := by
  cases hs with
  | same => exact h
  | insert m => exact h.insert m
  | sendHead o => exact h.sendHead o
  | sendFileOn o => cases o <;> exact ⟨h.pos_le, h.pos_eq, h.take_eq⟩
  | resetPos => exact ⟨Nat.zero_le _, rfl, rfl⟩
  | setFileOn b => exact ⟨h.pos_le, h.pos_eq, h.take_eq⟩
  | takeReady => exact ⟨h.pos_le, h.pos_eq, h.take_eq⟩
  | storeReady v => exact ⟨h.pos_le, h.pos_eq, h.take_eq⟩
  | popSocket => exact ⟨h.pos_le, h.pos_eq, h.take_eq⟩

theorem of_reachable {ι κ : Type*} [DecidableEq ι] [DecidableEq κ] {s : State ι κ} (h : (system ι κ).Reachable s) :
    FileOk s.mem :=
  mem_invariant ⟨Nat.zero_le _, rfl, rfl⟩ (fun _ _ hs hm => hm.step hs) h

/-- Nothing below `pos`, nothing spilled. -/
theorem spilled_eq_nil (h : FileOk s) (hp : s.pos = 0) : s.spilled = [] :=
  records_eq_nil.mp (List.eq_nil_of_length_eq_zero (h.pos_eq.symm.trans hp))

end FileOk

/-! ## Conservation -/

section Delivery

variable {ι κ : Type*} {s s' : State ι κ}

/-- The accepted events, in their order, are those applied, on their way, spilled and waiting; and for each applied one
the daemon has made its database call. -/
def Conserved (s : State ι κ) : Prop :=
  s.mem.accepted = s.applied.map Prod.fst ++ s.mem.inFlight ++ s.mem.inFile ++ s.mem.msgBuf ∧
    s.calls = s.applied.filterMap fun e => eventCall e.1 e.2

/-- The step loses no event. The probes report messages that fit the daemon's buffer (`call`); a message or an
announcement of records that is sent is delivered (`send`); no message is spilled while a `FILEON` message is on its way
or `pos` is about to be reset (`handler`); the daemon does not take a `FILEON` message that announces records
(`recv`). -/
def Delivers (s : State ι κ) : Act ι κ → Prop
  | .call _ m => m.WF
  | .send o =>
    (s.send = .sendBuf → 0 < s.mem.msgBufSize → o = .delivered) ∧ (s.send = .sendOn → 0 < s.mem.pos → o = .delivered)
  | .handler i =>
    ∀ m, s.handler i = .insert m → s.mem.overflows m = true →
      (∀ d ∈ s.mem.socket, d.isFileOn = false) ∧ s.send ≠ .resetPos
  | .recv _ => ∀ pos covered, s.mem.socket.head? = some (.fileOn pos covered) → pos = 0
  | _ => True

/-- The positions of a handler that has spilled a message and not yet set `file_on`. -/
def HandlerPc.spilling : HandlerPc → Bool
  | .lockFile | .setOn => true
  | _ => false

/-- The message a handler has still to link. -/
def HandlerPc.msg? : HandlerPc → Option NlMsg
  | .lockBuf m | .insert m => some m
  | _ => none

structure DeliveryInv (s : State ι κ) : Prop where
  conserved : Conserved s
  wf : ∀ m ∈ s.mem.accepted, m.WF
  wf_handler : ∀ i m, (s.handler i).msg? = some m → m.WF
  announced : s.mem.announced = if s.send = .resetPos then s.mem.spilled.length else 0
  /-- Spilled records are announced by `file_on`, or a handler is about to set it. -/
  flagged : s.mem.inFile ≠ [] →
    s.mem.fileOn = true ∧ s.send ≠ .clearOn ∨ ∃ i, (s.handler i).spilling = true
  fileOn_false : s.send = .lockBuf ∨ s.send = .sendBuf → s.mem.fileOn = false

theorem deliveryInv_start : DeliveryInv (start : State ι κ) := by
  constructor <;> simp [start, Mem.load, Conserved, Mem.inFlight, Mem.inFile, HandlerPc.msg?]

/-- No `FILEON` message in the socket: what it holds does not depend on the log. -/
theorem inFlight_of_noFileOn {socket : List Datagram} (h : ∀ d ∈ socket, d.isFileOn = false) (f f' : List Byte) :
    socket.flatMap (·.events f) = socket.flatMap (·.events f') := by
  refine List.flatMap_congr fun d hd => ?_
  cases d with
  | vfs m => rfl
  | fileOn pos covered => cases h _ hd

/-- A step of the send thread that leaves the memory and the daemon alone and does not pass a position the invariant
speaks about. -/
theorem DeliveryInv.send_moves (h : DeliveryInv s) {p : SendPc} (hm : s'.mem = s.mem) (hp : s'.send = p)
    (hd : s'.applied = s.applied ∧ s'.calls = s.calls) (hh : s'.handler = s.handler)
    (hreset : p = .resetPos ↔ s.send = .resetPos) (hclear : p = .clearOn → s.send = .clearOn)
    (hoff : p = .lockBuf ∨ p = .sendBuf → s.mem.fileOn = false) : DeliveryInv s' := by
  refine ⟨?_, by rw [hm]; exact h.wf, by rw [hh]; exact h.wf_handler, ?_, ?_, by rw [hm, hp]; exact hoff⟩
  · simpa only [Conserved, hm, hd.1, hd.2] using h.conserved
  · simp only [hm, hp, hreset]
    exact h.announced
  · rw [hm, hh, hp]
    exact fun hne => (h.flagged hne).imp_left fun ⟨hon, hc⟩ => ⟨hon, fun hpc => hc (hclear hpc)⟩

/-- The `FILEON` branch sends the announcement of all records below `pos`. -/
theorem DeliveryInv.sendOn (h : DeliveryInv s) (hf : FileOk s.mem) (hpc : s.send = .sendOn) {o : Unicast}
    (ho : 0 < s.mem.pos → o = .delivered) :
    DeliveryInv { s with mem := s.mem.sendFileOn o, send := .resetPos } := by
  have h0 : s.mem.announced = 0 := by simpa [hpc] using h.announced
  cases o with
  | delivered =>
    have hcov : (Datagram.fileOn s.mem.pos s.mem.spilled).events s.mem.file = s.mem.spilled := by
      simp [Datagram.events, hf.take_eq]
    refine ⟨⟨?_, h.conserved.2⟩, h.wf, h.wf_handler, by simp [Mem.sendFileOn], by simp [Mem.sendFileOn, Mem.inFile],
      by simp⟩
    have hc := h.conserved.1
    simp only [Mem.inFile, h0, List.drop_zero] at hc
    simpa [Mem.sendFileOn, Mem.inFlight, Mem.inFile, hcov] using hc
  | _ =>
    -- nothing is below `pos`, so there is nothing to announce
    have hp : s.mem.pos = 0 := by
      by_contra hp
      cases ho (Nat.pos_of_ne_zero hp)
    have hsp := hf.spilled_eq_nil hp
    have hif : s.mem.inFile = [] := by simp [Mem.inFile, hsp]
    refine ⟨h.conserved, h.wf, h.wf_handler, by simp [Mem.sendFileOn, h0, hsp], fun hne => absurd hif hne, by simp⟩

/-- When `pos` is reset, all records below it have been announced. -/
theorem DeliveryInv.resetPos (h : DeliveryInv s) (hpc : s.send = .resetPos) :
    DeliveryInv { s with mem := s.mem.resetPos, send := .clearOn } := by
  have hann : s.mem.announced = s.mem.spilled.length := by simpa [hpc] using h.announced
  have hif : s.mem.inFile = [] := by simp [Mem.inFile, hann]
  refine ⟨⟨?_, h.conserved.2⟩, h.wf, h.wf_handler, by simp [Mem.resetPos], by simp [Mem.resetPos, Mem.inFile],
    by simp⟩
  have hc := h.conserved.1
  rw [hif] at hc
  exact hc

theorem DeliveryInv.clearOn (h : DeliveryInv s) (hpc : s.send = .clearOn) :
    DeliveryInv { s with mem := s.mem.setFileOn false, send := .unlockFile } := by
  have hann := h.announced
  refine ⟨h.conserved, h.wf, h.wf_handler, by simpa [hpc, Mem.setFileOn] using hann, fun hne => ?_, fun _ => rfl⟩
  rcases h.flagged hne with ⟨-, hne⟩ | hsp
  · exact absurd hpc hne
  · exact .inr hsp

/-- The buffer branch sends the head; what was spilled before it has been announced. -/
theorem DeliveryInv.sendBuf (h : DeliveryInv s) (hb : BufferOk s.mem) (hl : LockInv s) (hpc : s.send = .sendBuf)
    {o : Unicast} (ho : 0 < s.mem.msgBufSize → o = .delivered) :
    DeliveryInv { s with mem := s.mem.sendHead o, send := .unlockBuf } := by
  have hoff := h.fileOn_false (.inr hpc)
  have hif : s.mem.inFile = [] := by
    by_contra hne
    rcases h.flagged hne with ⟨hon, -⟩ | ⟨i, hi⟩
    · rw [hoff] at hon; cases hon
    · -- a spilling handler would hold `sl_buf`
      have h1 : s.held .buf = some .send := hl.held_of_inside (by decide) (by simp only [State.inside, hpc]; rfl)
      have h2 : s.held .buf = some (.handler i) := hl.held_of_inside (by decide) (by
        simp only [State.inside]
        cases hi' : s.handler i <;> rw [hi'] at hi <;> cases hi <;> rfl)
      rw [h1] at h2
      cases h2
  have hann : s.mem.announced = 0 := by simpa [hpc] using h.announced
  cases hbuf : s.mem.msgBuf with
  | nil =>
    rw [Mem.sendHead_zero (by rw [hb.size, hbuf]; rfl)]
    exact h.send_moves rfl rfl ⟨rfl, rfl⟩ rfl (by simp [hpc]) (by simp) (by simp)
  | cons m rest =>
    have hpos : 0 < s.mem.msgBufSize := by rw [hb.size, hbuf]; simp
    rw [ho hpos, Mem.sendHead_cons hbuf hpos]
    have hc := h.conserved.1
    rw [hif, hbuf, List.append_nil] at hc
    refine ⟨⟨?_, h.conserved.2⟩, h.wf, h.wf_handler, by simpa [Mem.sendMsg, Mem.unlink] using hann,
      fun hne => absurd hif hne, by simp⟩
    have hif' : ((s.mem.sendMsg m .delivered).unlink m .sent).inFile = [] := hif
    have hfl : ((s.mem.sendMsg m .delivered).unlink m .sent).inFlight = s.mem.inFlight ++ [m] := by
      simp [Mem.sendMsg, Mem.unlink, Mem.inFlight]
    show s.mem.accepted = _ ++ _ ++ _ ++ s.mem.msgBuf.tail
    rw [hif', hfl, hbuf, hc]
    simp

theorem DeliveryInv.sendFunc (h : DeliveryInv s) (hb : BufferOk s.mem) (hf : FileOk s.mem) (hl : LockInv s)
    {o : Unicast} (hok : Delivers s (.send o)) (hs : sendFunc s o = some s') : DeliveryInv s' := by
  cases hpc : s.send with
  | testFileOn =>
    simp only [Kernel.sendFunc, hpc] at hs
    split at hs <;> rename_i hon <;> cases hs
    · exact h.send_moves rfl rfl ⟨rfl, rfl⟩ rfl (by simp [hpc]) (by simp) (by simp)
    · exact h.send_moves rfl rfl ⟨rfl, rfl⟩ rfl (by simp [hpc]) (by simp) (by simpa using hon)
  | sendOn =>
    simp only [Kernel.sendFunc, hpc, Option.some.injEq] at hs
    subst hs
    exact h.sendOn hf hpc (hok.2 hpc)
  | resetPos =>
    simp only [Kernel.sendFunc, hpc, Option.some.injEq] at hs
    subst hs
    exact h.resetPos hpc
  | clearOn =>
    simp only [Kernel.sendFunc, hpc, Option.some.injEq] at hs
    subst hs
    exact h.clearOn hpc
  | lockBuf =>
    simp only [Kernel.sendFunc, hpc] at hs
    obtain ⟨-, hs⟩ := Option.ite_none_right_eq_some.mp hs
    cases hs
    exact h.send_moves rfl rfl ⟨rfl, rfl⟩ rfl (by simp [hpc]) (by simp) fun _ => h.fileOn_false (.inl hpc)
  | sendBuf =>
    simp only [Kernel.sendFunc, hpc, Option.some.injEq] at hs
    subst hs
    exact h.sendBuf hb hl hpc (hok.1 hpc)
  | testReady =>
    simp only [Kernel.sendFunc, hpc] at hs
    split at hs <;> cases hs
    · have hm : DeliveryInv { s with mem := s.mem.takeReady } := ⟨h.conserved, h.wf, h.wf_handler, h.announced,
        h.flagged, h.fileOn_false⟩
      exact hm.send_moves rfl rfl ⟨rfl, rfl⟩ rfl (by simp [hpc]) (by simp) (by simp)
    · exact h.send_moves rfl rfl ⟨rfl, rfl⟩ rfl (by simp [hpc]) (by simp) (by simp)
  | _ =>
    simp only [Kernel.sendFunc, hpc] at hs
    try split at hs
    all_goals
      cases hs
      try exact h.send_moves rfl rfl ⟨rfl, rfl⟩ rfl (by simp [hpc]) (by simp) (by simp)

/-! ## The probe handlers -/

/-- The messages accepted after one more is linked. -/
theorem DeliveryInv.wf_link (h : DeliveryInv s) {m : NlMsg} (hm : m.WF) : ∀ m' ∈ s.mem.accepted ++ [m], m'.WF := by
  refine List.forall_mem_append.mpr ⟨h.wf, ?_⟩
  intro m' hm'
  rw [List.mem_singleton.mp hm']
  exact hm

section Handler

variable [DecidableEq ι] {i : ι}

/-- Moving a handler keeps the pending messages well formed if it takes up no new one. -/
theorem wf_handler_update {p : HandlerPc} (h : ∀ j m, (s.handler j).msg? = some m → m.WF)
    (hp : ∀ m, p.msg? = some m → m.WF) :
    ∀ j m, (Function.update s.handler i p j).msg? = some m → m.WF := by
  intro j m hm
  by_cases hji : j = i
  · subst hji
    exact hp m (by simpa using hm)
  · exact h j m (by simpa [hji] using hm)

/-- A move of a handler that leaves the memory alone. -/
theorem DeliveryInv.handler_moves (h : DeliveryInv s) {p : HandlerPc} (hm : s'.mem = s.mem) (hp : s'.send = s.send)
    (hd : s'.applied = s.applied ∧ s'.calls = s.calls) (hh : s'.handler = Function.update s.handler i p)
    (hmsg : ∀ m, p.msg? = some m → m.WF) (hsp : (s.handler i).spilling = true → p.spilling = true) :
    DeliveryInv s' := by
  refine ⟨?_, by rw [hm]; exact h.wf, by rw [hh]; exact wf_handler_update h.wf_handler hmsg, ?_, ?_,
    by rw [hm, hp]; exact h.fileOn_false⟩
  · simpa only [Conserved, hm, hd.1, hd.2] using h.conserved
  · rw [hm, hp]
    exact h.announced
  · rw [hm, hp]
    refine fun hne => (h.flagged hne).imp_right fun ⟨j, hj⟩ => ⟨j, ?_⟩
    by_cases hji : j = i
    · subst hji
      simpa [hh] using hsp hj
    · simpa [hh, hji] using hj

/-- Linking a message with room in the buffer. -/
theorem DeliveryInv.link (h : DeliveryInv s) {m : NlMsg} (hi : s.handler i = .insert m)
    (ho : s.mem.overflows m = false) :
    DeliveryInv ({ s with mem := s.mem.insert m }.setHandler i .unlockBuf) := by
  have heq : s.mem.insert m = s.mem.link m := by simp [Mem.insert, ho]
  rw [heq]
  refine ⟨⟨?_, h.conserved.2⟩, ?_, wf_handler_update h.wf_handler (by simp [HandlerPc.msg?]), h.announced, ?_,
    h.fileOn_false⟩
  · have hc := h.conserved.1
    show s.mem.accepted ++ [m] = _ ++ s.mem.inFlight ++ s.mem.inFile ++ (s.mem.msgBuf ++ [m])
    rw [hc]
    simp [State.setHandler]
  · exact h.wf_link (h.wf_handler i m (by rw [hi]; rfl))
  · intro hne
    rcases h.flagged hne with hon | ⟨j, hj⟩
    · exact .inl hon
    · have hji : j ≠ i := by rintro rfl; rw [hi] at hj; cases hj
      exact .inr ⟨j, by simpa [State.setHandler, hji] using hj⟩

/-- Linking a message to a full buffer spills the head into the log. -/
theorem DeliveryInv.spill (h : DeliveryInv s) (hb : BufferOk s.mem) {m : NlMsg} (hi : s.handler i = .insert m)
    (ho : s.mem.overflows m = true) (hno : ∀ d ∈ s.mem.socket, d.isFileOn = false) (hpc : s.send ≠ .resetPos) :
    DeliveryInv ({ s with mem := s.mem.insert m }.setHandler i .lockFile) := by
  have hfull := (hb.overflows_iff m).mp ho
  obtain ⟨m₀, rest, hbuf⟩ := List.exists_cons_of_length_pos
    (show 0 < s.mem.msgBuf.length by rw [hfull]; decide)
  have heq : s.mem.insert m = ((s.mem.link m).unlink m₀ .spilled).writeRecord m₀ := by
    have hl : (s.mem.link m).msgBuf = m₀ :: (rest ++ [m]) := by simp [Mem.link, hbuf]
    simp [Mem.insert, ho, Mem.addMsgToFile_cons hl]
  have hann : s.mem.announced = 0 := by simpa [hpc] using h.announced
  rw [heq]
  refine ⟨⟨?_, h.conserved.2⟩, ?_, wf_handler_update h.wf_handler (by simp [HandlerPc.msg?]), ?_, ?_, h.fileOn_false⟩
  · have hc := h.conserved.1
    rw [hbuf] at hc
    have hfl : (((s.mem.link m).unlink m₀ .spilled).writeRecord m₀).inFlight = s.mem.inFlight :=
      inFlight_of_noFileOn hno _ _
    have hif : (((s.mem.link m).unlink m₀ .spilled).writeRecord m₀).inFile = s.mem.inFile ++ [m₀] := by
      simp [Mem.inFile, Mem.writeRecord, Mem.unlink, Mem.link, hann]
    show s.mem.accepted ++ [m] = _ ++ Mem.inFlight _ ++ Mem.inFile _ ++ (s.mem.msgBuf ++ [m]).tail
    rw [hc, hbuf]
    simp only [State.setHandler, hfl, hif]
    simp
  · exact h.wf_link (h.wf_handler i m (by rw [hi]; rfl))
  · simpa [State.setHandler, Mem.writeRecord, Mem.unlink, Mem.link, hpc] using hann
  · exact fun _ => .inr ⟨i, by simp [State.setHandler, HandlerPc.spilling]⟩

/-- A handler raises the flag inside of `sl_file`, so the send thread is outside. -/
theorem DeliveryInv.setOn (h : DeliveryInv s) (hl : LockInv s) (hpc : s.handler i = .setOn) :
    DeliveryInv ({ s with mem := s.mem.setFileOn true }.setHandler i .unlockFile) := by
  have hfile : s.held .file = some (.handler i) :=
    hl.held_of_inside (by decide) (by simp only [State.inside, hpc]; rfl)
  have hout : s.send.inside .file = false := by
    cases hin : s.send.inside .file with
    | false => rfl
    | true =>
      have := hl.held_of_inside (l := .file) (t := .send) (by decide) hin
      rw [hfile] at this
      cases this
  refine ⟨h.conserved, h.wf, wf_handler_update h.wf_handler (by simp [HandlerPc.msg?]), h.announced, fun _ => ?_, ?_⟩
  · exact .inl ⟨rfl, fun hc => by simp [State.setHandler] at hc; rw [hc] at hout; cases hout⟩
  · rintro (hc | hc) <;> simp [State.setHandler] at hc <;> rw [hc] at hout <;> cases hout

theorem DeliveryInv.addVfsChanged (h : DeliveryInv s) (hb : BufferOk s.mem) (hl : LockInv s)
    (hok : ∀ m, s.handler i = .insert m → s.mem.overflows m = true →
      (∀ d ∈ s.mem.socket, d.isFileOn = false) ∧ s.send ≠ .resetPos)
    (hs : addVfsChanged s i = some s') : DeliveryInv s' := by
  cases hpc : s.handler i with
  | insert m =>
    simp only [Kernel.addVfsChanged, hpc] at hs
    split at hs <;> rename_i ho <;> cases hs
    · obtain ⟨hno, hreset⟩ := hok m hpc ho
      exact h.spill hb hpc ho hno hreset
    · exact h.link hpc (by simpa using ho)
  | setOn =>
    simp only [Kernel.addVfsChanged, hpc, Option.some.injEq] at hs
    subst hs
    exact h.setOn hl hpc
  | lockBuf m =>
    simp only [Kernel.addVfsChanged, hpc] at hs
    obtain ⟨-, hs⟩ := Option.ite_none_right_eq_some.mp hs
    cases hs
    refine h.handler_moves rfl rfl ⟨rfl, rfl⟩ rfl (fun m' hm' => ?_) (by simp [hpc, HandlerPc.spilling])
    exact h.wf_handler i m' (by rw [hpc]; exact hm')
  | _ =>
    simp only [Kernel.addVfsChanged, hpc] at hs
    try split at hs
    all_goals
      cases hs
      try exact h.handler_moves rfl rfl ⟨rfl, rfl⟩ rfl (by simp [HandlerPc.msg?]) (by simp [hpc, HandlerPc.spilling])

end Handler

/-! ## The daemon -/

/-- The daemon applies the event of a message it takes. -/
theorem DeliveryInv.recv (h : DeliveryInv s) {now : Int}
    (hok : ∀ pos covered, s.mem.socket.head? = some (.fileOn pos covered) → pos = 0)
    (hs : efKernelConn s now = some s') : DeliveryInv s' := by
  obtain ⟨hc, hcalls⟩ := h.conserved
  cases hsock : s.mem.socket with
  | nil => simp [efKernelConn, hsock] at hs
  | cons d ds =>
    simp only [efKernelConn, hsock, Option.some.injEq, Daemon.dispatch_snd] at hs
    subst hs
    refine ⟨?_, h.wf, h.wf_handler, h.announced, h.flagged, h.fileOn_false⟩
    have hfl : s.mem.inFlight = d.events s.mem.file ++ s.mem.popSocket.inFlight := by
      simp [Mem.inFlight, Mem.popSocket, hsock]
    rw [hfl] at hc
    cases d with
    | vfs m =>
      have hwf : m.WF := h.wf m (by rw [hc]; simp)
      rw [Datagram.events_vfs] at hc
      constructor
      · show s.mem.accepted = _ ++ s.mem.popSocket.inFlight ++ s.mem.inFile ++ s.mem.msgBuf
        simp [Datagram.payload, Daemon.decode_encode hwf, hc]
      · cases he : eventCall m now <;> simp [Datagram.payload, Daemon.decode_encode hwf, hcalls, he]
    | fileOn pos covered =>
      -- an announcement of nothing
      obtain rfl : pos = 0 := hok pos covered (by rw [hsock]; rfl)
      rw [Datagram.events_fileOn_zero, List.nil_append] at hc
      constructor
      · show s.mem.accepted = _ ++ s.mem.popSocket.inFlight ++ s.mem.inFile ++ s.mem.msgBuf
        simp [Daemon.decode_fileOn, hc]
      · simp [Daemon.decode_fileOn, hcalls]

/-! ## The whole run -/

variable [DecidableEq ι] [DecidableEq κ]

theorem DeliveryInv.step {a : Act ι κ} (h : DeliveryInv s) (hb : BufferOk s.mem) (hf : FileOk s.mem) (hl : LockInv s)
    (hok : Delivers s a) (hs : step s a = some s') : DeliveryInv s' := by
  cases a with
  | send o => exact h.sendFunc hb hf hl hok hs
  | call i m =>
    obtain ⟨hidle, hs⟩ := Option.ite_none_right_eq_some.mp hs
    cases hs
    refine h.handler_moves rfl rfl ⟨rfl, rfl⟩ rfl (fun m' hm' => ?_) (by simp [hidle, HandlerPc.spilling])
    obtain rfl : m = m' := Option.some.inj hm'
    exact hok
  | handler i => exact h.addVfsChanged hb hl hok hs
  | arrive k =>
    obtain ⟨-, hs⟩ := Option.ite_none_right_eq_some.mp hs
    cases hs
    exact ⟨h.conserved, h.wf, h.wf_handler, h.announced, h.flagged, h.fileOn_false⟩
  | rcv k =>
    revert hs
    simp only [Kernel.step]
    fun_cases rcvMsg s k <;> intro hs <;> cases hs <;>
      exact ⟨h.conserved, h.wf, h.wf_handler, h.announced, h.flagged, h.fileOn_false⟩
  | timeout =>
    cases hs
    exact ⟨h.conserved, h.wf, h.wf_handler, h.announced, h.flagged, h.fileOn_false⟩
  | recv now => exact h.recv hok hs

/-- **Delivery of the events**: in a run whose steps lose no event, no event is lost, duplicated or reordered. -/
theorem events_conserved (h : (system ι κ).Reach Delivers s) : Conserved s := by
  have hinv : DeliveryInv s := by
    refine h.rec_on_steps (fun s hs => ?_) fun s a s' hr hi hok hs => ?_
    · cases hs
      exact deliveryInv_start
    · exact hi.step (.of_reachable hr.reachable) (.of_reachable hr.reachable) (LockInv.of_reach hr) hok hs
  exact hinv.conserved

end Delivery

/-- The send of the only event fails; `send_func` drops the message, and no place holds the event any more. -/
theorem event_lost : ∃ s : State Unit Unit, (system Unit Unit).Reachable s ∧ ¬Conserved s := by
  obtain ⟨s, hs, hp⟩ := Transition.System.reachable_of_run (system Unit Unit) start rfl
    (submit ⟨1, bytes "/a"⟩ ++ control ++ sends 7 .failed)
    (fun s => decide (s.mem.accepted = [⟨1, bytes "/a"⟩] ∧ s.applied = [] ∧ s.mem.socket = [] ∧
      s.mem.spilled = [] ∧ s.mem.msgBuf = []))
    (by decide)
  obtain ⟨hacc, happ, hsock, hsp, hbuf⟩ := of_decide_eq_true hp
  refine ⟨s, hs, fun h => ?_⟩
  have := h.1
  simp [hacc, happ, Mem.inFlight, hsock, Mem.inFile, hsp, hbuf] at this

/-- An event goes the direct route and the daemon adds its row. -/
theorem events_conserved_direct : ∃ s : State Unit Unit,
    s.calls = [.add ⟨bytes "/a", .EREG, 7⟩] ∧ s.applied = [(⟨1, bytes "/a"⟩, 7)] ∧ Conserved s := by
  obtain ⟨s, hs, hp⟩ := Transition.System.reach_of_runIf (system Unit Unit) start Delivers
    (fun s a => match a with
      | .call _ m => decide m.WF
      | .send o => decide (o = .delivered)
      | .handler i => match s.handler i with
        | .insert m => !s.mem.overflows m
        | _ => true
      | .recv _ => s.mem.socket.all (!·.isFileOn)
      | _ => true)
    (fun s a ht => by
      cases a with
      | call i m => simpa [Delivers] using ht
      | send o => exact ⟨fun _ _ => by simpa using ht, fun _ _ => by simpa using ht⟩
      | handler i => intro m hm ho; simp [hm, ho] at ht
      | recv now =>
        intro pos covered hh
        simp only [List.all_eq_true] at ht
        have := ht _ (List.mem_of_mem_head? hh)
        simp [Datagram.isFileOn] at this
      | _ => trivial)
    rfl
    (submit ⟨1, bytes "/a"⟩ ++ control ++ sends 9 .delivered ++ [.recv 7])
    (fun s => decide (s.calls = [.add ⟨bytes "/a", .EREG, 7⟩] ∧ s.applied = [(⟨1, bytes "/a"⟩, 7)])) (by decide)
  obtain ⟨hcalls, happ⟩ := of_decide_eq_true hp
  exact ⟨s, hcalls, happ, events_conserved hs⟩

end Everyfile.Kernel
