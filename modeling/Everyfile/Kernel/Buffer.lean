import Everyfile.Kernel.Threads

/-!
# The message buffer: conservation and bound

Every step of a thread does one thing to the module's memory (`MemStep`, `step_mem`), so a property of the memory that
each of these keeps holds in every reachable state (`mem_invariant`). The buffer's invariant `BufferOk` says that the
counter is the length of the list and at most `MAX_MSG_BUF_LEN`, that `add_msg_to_file` has never been called on an
empty list, and that the accepted messages are, in order, the removed ones and those still in the buffer, each removed
one having gone one of the two routes.
-/

namespace Everyfile.Kernel

/-- What one step of a thread may do to the memory. -/
inductive MemStep : Mem → Mem → Prop
  | same (s : Mem) : MemStep s s
  | insert (s : Mem) (m : NlMsg) : MemStep s (s.insert m)
  | sendHead (s : Mem) (o : Unicast) : MemStep s (s.sendHead o)
  | sendFileOn (s : Mem) (o : Unicast) : MemStep s (s.sendFileOn o)
  | resetPos (s : Mem) : MemStep s s.resetPos
  | setFileOn (s : Mem) (b : Bool) : MemStep s (s.setFileOn b)
  | takeReady (s : Mem) : MemStep s s.takeReady
  | storeReady (s : Mem) (v : Nat) : MemStep s (s.storeReady v)
  | popSocket (s : Mem) : MemStep s s.popSocket

section Footprint

variable {ι κ : Type*} {s s' : State ι κ}

theorem sendFunc_mem {o : Unicast} (h : sendFunc s o = some s') : MemStep s.mem s'.mem := by
  revert h
  fun_cases sendFunc s o <;> intro h <;> cases h <;> constructor

theorem addVfsChanged_mem [DecidableEq ι] {i : ι} (h : addVfsChanged s i = some s') : MemStep s.mem s'.mem := by
  revert h
  fun_cases addVfsChanged s i <;> intro h <;> cases h <;> constructor

theorem rcvMsg_mem [DecidableEq κ] {k : κ} (h : rcvMsg s k = some s') : MemStep s.mem s'.mem := by
  revert h
  fun_cases rcvMsg s k <;> intro h <;> cases h <;> constructor

theorem efKernelConn_mem {now : Int} (h : efKernelConn s now = some s') : MemStep s.mem s'.mem := by
  revert h
  fun_cases efKernelConn s now <;> intro h <;> cases h
  exact .popSocket _

variable [DecidableEq ι] [DecidableEq κ]

/-- **Each step of a thread does one thing to the memory.** -/
theorem step_mem {a : Act ι κ} (h : step s a = some s') : MemStep s.mem s'.mem := by
  cases a with
  | send o => exact sendFunc_mem h
  | call i m =>
    obtain ⟨-, h⟩ := Option.ite_none_right_eq_some.mp h
    cases h
    exact .same _
  | handler i => exact addVfsChanged_mem h
  | arrive k =>
    obtain ⟨-, h⟩ := Option.ite_none_right_eq_some.mp h
    cases h
    exact .same _
  | rcv k => exact rcvMsg_mem h
  | timeout =>
    cases h
    exact .same _
  | recv now => exact efKernelConn_mem h

/-- A property of the memory that every step of it keeps holds in every reachable state. -/
theorem mem_invariant {P : Mem → Prop} (h0 : P .load) (hs : ∀ m m', MemStep m m' → P m → P m')
    (h : (system ι κ).Reachable s) : P s.mem :=
  system_invariant (P := fun s => P s.mem) h0 (fun _ _ _ hp _ hst => hs _ _ (step_mem hst) hp) h

end Footprint

/-! ## The invariant of the buffer -/

/-- The messages that left by a route. -/
def routed (r : Route) (ms : List (NlMsg × Route)) : List NlMsg := (ms.filter (·.2 = r)).map Prod.fst

@[simp] theorem routed_append_self (r : Route) (ms : List (NlMsg × Route)) (m : NlMsg) :
    routed r (ms ++ [(m, r)]) = routed r ms ++ [m] := by
  simp [routed]

theorem routed_append_ne {r r' : Route} (h : r' ≠ r) (ms : List (NlMsg × Route)) (m : NlMsg) :
    routed r (ms ++ [(m, r')]) = routed r ms := by
  simp [routed, h]

/-- Conservation and bound of the message buffer. -/
structure BufferOk (s : Mem) : Prop where
  size : s.msgBufSize = s.msgBuf.length
  le : s.msgBuf.length ≤ MAX_MSG_BUF_LEN
  fault : s.fault = false
  accepted : s.accepted = s.removed.map Prod.fst ++ s.msgBuf
  passed : s.passed = routed .sent s.removed
  written : s.written = routed .spilled s.removed

theorem bufferOk_load : BufferOk .load := by
  constructor <;> first | rfl | decide

namespace BufferOk

variable {s : Mem}

/-- Room for one more keeps the counter from wrapping. -/
theorem uintInc_size (h : BufferOk s) : uintInc s.msgBufSize = s.msgBuf.length + 1 := by
  have hle := h.le
  rw [h.size]
  exact uintInc_of_lt (by simp only [MAX_MSG_BUF_LEN] at hle; omega)

theorem overflows_iff (h : BufferOk s) (m : NlMsg) : s.overflows m = true ↔ s.msgBuf.length = MAX_MSG_BUF_LEN := by
  have hle := h.le
  simp only [Mem.overflows, Mem.link, h.uintInc_size, decide_eq_true_eq]
  omega

/-- Removing the head keeps the counter and the accepted messages. -/
theorem unlink_head {m : NlMsg} {rest : List NlMsg} (hs : s.msgBufSize = s.msgBuf.length)
    (hle : s.msgBuf.length ≤ MAX_MSG_BUF_LEN + 1) (hb : s.msgBuf = m :: rest)
    (ha : s.accepted = s.removed.map Prod.fst ++ s.msgBuf) (r : Route) :
    (s.unlink m r).msgBufSize = rest.length ∧
      s.accepted = (s.unlink m r).removed.map Prod.fst ++ (s.unlink m r).msgBuf := by
  rw [hb] at hs hle
  simp only [List.length_cons] at hs hle
  refine ⟨?_, by simp [Mem.unlink, ha, hb]⟩
  simp only [Mem.unlink, hs]
  exact uintDec_succ (by simp only [MAX_MSG_BUF_LEN] at hle; omega)

theorem insert (h : BufferOk s) (m : NlMsg) : BufferOk (s.insert m) := by
  have hsize : (s.link m).msgBufSize = (s.link m).msgBuf.length := by simp [Mem.link, h.uintInc_size]
  have hacc : (s.link m).accepted = (s.link m).removed.map Prod.fst ++ (s.link m).msgBuf := by
    simp [Mem.link, h.accepted]
  have hle := h.le
  unfold Mem.insert
  cases ho : s.overflows m with
  | false =>
    have hlt : s.msgBuf.length ≠ MAX_MSG_BUF_LEN := by rw [ne_eq, ← h.overflows_iff m, ho]; simp
    exact ⟨hsize, by simp [Mem.link]; omega, h.fault, hacc, h.passed, h.written⟩
  | true =>
    -- a full buffer has a head, so the spill takes it and leaves room for the new message
    have hfull := (h.overflows_iff m).mp ho
    obtain ⟨m₀, rest, hb⟩ := List.exists_cons_of_length_pos
      (show 0 < s.msgBuf.length by rw [hfull]; decide)
    have hb' : (s.link m).msgBuf = m₀ :: (rest ++ [m]) := by simp [Mem.link, hb]
    have hrest : rest.length + 1 = MAX_MSG_BUF_LEN := by rw [← hfull, hb]; rfl
    obtain ⟨hsz, hac⟩ := unlink_head hsize (by simp [Mem.link]; omega) hb' hacc .spilled
    simp only [↓reduceIte, Mem.addMsgToFile_cons hb']
    refine ⟨?_, ?_, h.fault, hac, ?_, ?_⟩
    · simp only [Mem.writeRecord, hsz]
      simp [Mem.unlink, hb']
    · simp [Mem.writeRecord, Mem.unlink, hb']
      omega
    · simp only [Mem.writeRecord, Mem.unlink, Mem.link]
      rw [routed_append_ne (by decide), h.passed]
    · simp [Mem.writeRecord, Mem.unlink, Mem.link, h.written]

theorem sendHead (h : BufferOk s) (o : Unicast) : BufferOk (s.sendHead o) := by
  cases hb : s.msgBuf with
  | nil =>
    rw [Mem.sendHead_zero (by rw [h.size, hb]; rfl)]
    exact h
  | cons m rest =>
    rw [Mem.sendHead_cons hb (by rw [h.size, hb]; simp)]
    have hle := h.le
    obtain ⟨hsz, hac⟩ := unlink_head h.size (by omega) hb h.accepted .sent
    have hrest : rest.length ≤ MAX_MSG_BUF_LEN := by rw [hb, List.length_cons] at hle; omega
    have hpassed : s.passed ++ [m] = routed .sent (s.removed ++ [(m, .sent)]) := by
      rw [routed_append_self, h.passed]
    have hwritten : s.written = routed .spilled (s.removed ++ [(m, .sent)]) := by
      rw [routed_append_ne (by decide), h.written]
    cases o <;>
      exact ⟨by simpa [Mem.sendMsg, Mem.unlink, hb] using hsz, by simpa [Mem.sendMsg, Mem.unlink, hb] using hrest,
        h.fault, by simpa [Mem.sendMsg, Mem.unlink] using hac, hpassed, hwritten⟩

/-- Every step of the memory keeps the invariant. -/
theorem step {s' : Mem} (hs : MemStep s s') (h : BufferOk s) : BufferOk s' := by
  cases hs with
  | same => exact h
  | insert m => exact h.insert m
  | sendHead o => exact h.sendHead o
  | sendFileOn o => cases o <;> exact ⟨h.size, h.le, h.fault, h.accepted, h.passed, h.written⟩
  | resetPos => exact ⟨h.size, h.le, h.fault, h.accepted, h.passed, h.written⟩
  | setFileOn b => exact ⟨h.size, h.le, h.fault, h.accepted, h.passed, h.written⟩
  | takeReady => exact ⟨h.size, h.le, h.fault, h.accepted, h.passed, h.written⟩
  | storeReady v => exact ⟨h.size, h.le, h.fault, h.accepted, h.passed, h.written⟩
  | popSocket => exact ⟨h.size, h.le, h.fault, h.accepted, h.passed, h.written⟩

/-- The invariant holds in every reachable state. -/
theorem of_reachable {ι κ : Type*} [DecidableEq ι] [DecidableEq κ] {s : State ι κ} (h : (system ι κ).Reachable s) :
    BufferOk s.mem :=
  mem_invariant bufferOk_load (fun _ _ hs hm => hm.step hs) h

end BufferOk

/-- **Conservation and bound of the message buffer**, between any two steps of the threads: the counter is the length of
the list and at most `MAX_MSG_BUF_LEN`, `add_msg_to_file` has never found the list empty, and the accepted messages are
in order the removed ones followed by the buffer, each removed one passed to `send_msg` once or written to the overflow
log once. -/
theorem buffer_conserved {ι κ : Type*} [DecidableEq ι] [DecidableEq κ] {s : State ι κ}
    (h : (system ι κ).Reachable s) :
    s.mem.msgBufSize = s.mem.msgBuf.length ∧ s.mem.msgBufSize ≤ MAX_MSG_BUF_LEN ∧ s.mem.fault = false ∧
      s.mem.accepted = s.mem.removed.map Prod.fst ++ s.mem.msgBuf ∧
      s.mem.passed = routed .sent s.mem.removed ∧ s.mem.written = routed .spilled s.mem.removed := by
  have hb := BufferOk.of_reachable h
  exact ⟨hb.size, by rw [hb.size]; exact hb.le, hb.fault, hb.accepted, hb.passed, hb.written⟩

/-- Two events are accepted and the first is sent. -/
theorem buffer_conserved_two : ∃ s : State Unit Unit, s.mem.accepted = [⟨1, bytes "/a"⟩, ⟨2, bytes "/b"⟩] ∧
    s.mem.msgBuf = [⟨2, bytes "/b"⟩] ∧ s.mem.msgBufSize = s.mem.msgBuf.length ∧ s.mem.msgBufSize ≤ MAX_MSG_BUF_LEN ∧
      s.mem.fault = false ∧ s.mem.accepted = s.mem.removed.map Prod.fst ++ s.mem.msgBuf ∧
      s.mem.passed = routed .sent s.mem.removed ∧ s.mem.written = routed .spilled s.mem.removed := by
  obtain ⟨s, hs, hp⟩ := Transition.System.reachable_of_run (system Unit Unit) start rfl
    (control ++ submit ⟨1, bytes "/a"⟩ ++ submit ⟨2, bytes "/b"⟩ ++ sends 8 .delivered)
    (fun s => decide (s.mem.accepted = [⟨1, bytes "/a"⟩, ⟨2, bytes "/b"⟩] ∧ s.mem.msgBuf = [⟨2, bytes "/b"⟩]))
    (by decide)
  obtain ⟨ha, hb⟩ := of_decide_eq_true hp
  exact ⟨s, ha, hb, buffer_conserved hs⟩

end Everyfile.Kernel
