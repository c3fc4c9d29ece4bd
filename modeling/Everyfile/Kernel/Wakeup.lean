import Everyfile.Kernel.InOrder

/-!
# Starting and waking the send thread

`Threads.lean` lets the send thread run from module load on and lets each of its sleeps end at any time. Here the thread
has a task state. `kthread_create` leaves it off the CPU; each pass sets `TASK_INTERRUPTIBLE` before it tests
`msg_ready`, `schedule_timeout` takes a task in that state off the CPU, its timer or a `wake_up_process` puts it back,
and `rcv_msg` calls `wake_up_process` after its increment where the text of the message is `SYN` or `ACK`. The daemon
writes the three letters `ACK` into a buffer from `malloc` whose next byte it never writes, and the kernel compares up
to a NUL.

Without the task states this is the system of `Threads.lean` (`base_reachable`). If the byte is 0, the thread is never
off the CPU with a message counted and no receiver about to wake it; if it is not 0, the thread is never started and
nothing is ever sent (`wakeup`).
-/

namespace Everyfile.Kernel.Wakeup

open Transition

/-! ## The text of the control message -/

/-- The payload of the daemon's control message: what it copies, and the bytes it found in the buffer. -/
def request (b : Byte) (rest : List Byte) : List Byte := bytes "ACK" ++ b :: rest

/-- The two comparisons of `rcv_msg`. -/
def wakes (umsg : List Byte) : Bool := cstr umsg = bytes "SYN" ∨ cstr umsg = bytes "ACK"

/-- The text is recognised exactly if the byte behind it is 0. -/
theorem wakes_request {b : Byte} {rest : List Byte} : wakes (request b rest) = true ↔ b = 0 := by
  have hack : bytes "ACK" = [65, 67, 75] := by decide
  have hsyn : bytes "SYN" = [83, 89, 78] := by decide
  by_cases hb : b = 0 <;> simp [wakes, request, hack, hsyn, cstr, hb]

/-! ## The threads with the task state -/

/-- `send_kthread`: created and not yet started, `TASK_INTERRUPTIBLE` on the CPU, the same off the CPU, and
`TASK_RUNNING`. -/
inductive Task
  | created | interruptible | asleep | running
  deriving DecidableEq, Repr

structure State (ι κ : Type*) where
  base : Kernel.State ι κ
  task : Task
  /-- The send thread is at the top of its loop, before `set_current_state`. -/
  top : Bool
  /-- The CPU has released `sl_msg` and has still to compare the text. -/
  waking : κ → Bool

inductive Act (ι κ : Type*)
  | send (o : Unicast)
  /-- The timer of `schedule_timeout`. -/
  | timer
  /-- A CPU in `rcv_msg` compares the text, and wakes the thread if it is one of the two. -/
  | wake (k : κ)
  /-- A step of another thread. -/
  | other (a : Kernel.Act ι κ)
  deriving DecidableEq

section Steps

variable {ι κ : Type*} (b : Byte) (rest : List Byte)

/-- `send_func`, where it is on the CPU. -/
def sendFunc (s : State ι κ) (o : Unicast) : Option (State ι κ) :=
  if s.task = .created ∨ s.task = .asleep then none
  else if s.base.send = .lockMsg ∧ s.top then some { s with task := .interruptible, top := false }
  -- `schedule_timeout` in the state `TASK_INTERRUPTIBLE`
  else if s.base.send = .sleep ∧ s.task = .interruptible then some { s with task := .asleep }
  else
    (Kernel.sendFunc s.base o).map fun t =>
      { s with base := t, top := s.base.send = .unlockFile, task := if s.base.send = .sleep then .running else s.task }

variable [DecidableEq ι] [DecidableEq κ]

/-- A step of another thread; a CPU takes the next message when it has compared the last one. -/
def otherStep (s : State ι κ) : Kernel.Act ι κ → Option (State ι κ)
  | .send _ => none
  | .arrive k => if s.waking k then none else (Kernel.step s.base (.arrive k)).map fun t => { s with base := t }
  | .rcv k =>
    (Kernel.step s.base (.rcv k)).map fun t =>
      { s with base := t, waking := if s.base.rcv k = .unlock then Function.update s.waking k true else s.waking }
  | a => (Kernel.step s.base a).map fun t => { s with base := t }

def step (s : State ι κ) : Act ι κ → Option (State ι κ)
  | .send o => sendFunc s o
  | .timer => if s.task = .asleep then some { s with task := .running } else none
  | .wake k =>
    if s.waking k then
      some { s with
        waking := Function.update s.waking k false
        task := if wakes (request b rest) then .running else s.task }
    else none
  | .other a => otherStep s a

/-- Module load and start of the daemon. -/
def start : State ι κ := ⟨Kernel.start, .created, true, fun _ => false⟩

def system (ι κ : Type*) [DecidableEq ι] [DecidableEq κ] : System (State ι κ) (Act ι κ) := ⟨(· = start), step b rest⟩

end Steps

section Wakeup

variable {ι κ : Type*} {b : Byte} {rest : List Byte} {s s' : State ι κ}

/-! ## Steps of the send thread -/

/-- What a step of the send thread does: it sets its state, goes off the CPU, or makes a step of `Threads.lean`. -/
theorem sendFunc_cases {o : Unicast} (hs : sendFunc s o = some s') :
    (s.task ≠ .created ∧ s.task ≠ .asleep) ∧ s'.waking = s.waking ∧
      (s.base.send = .lockMsg ∧ s'.base = s.base ∧ s'.task = .interruptible ∨
        s.base.send = .sleep ∧ s.task = .interruptible ∧ s'.base = s.base ∧ s'.task = .asleep ∨
        Kernel.sendFunc s.base o = some s'.base ∧
          s'.task = if s.base.send = .sleep then .running else s.task) := by
  unfold sendFunc at hs
  split at hs
  · cases hs
  · rename_i hon
    refine ⟨not_or.mp hon, ?_⟩
    split at hs
    · rename_i htop
      cases hs
      exact ⟨rfl, .inl ⟨htop.1, rfl, rfl⟩⟩
    · split at hs
      · rename_i hsleep
        cases hs
        exact ⟨rfl, .inr (.inl ⟨hsleep.1, hsleep.2, rfl, rfl⟩)⟩
      · obtain ⟨t, ht, rfl⟩ := Option.map_eq_some_iff.mp hs
        exact ⟨rfl, .inr (.inr ⟨ht, rfl⟩)⟩

/-- The send thread comes to a sleep only by finding `msg_ready` equal to 0. -/
theorem sendFunc_pause {t u : Kernel.State ι κ} {o : Unicast} (hs : Kernel.sendFunc t o = some u)
    (hp : u.send = .unlockSleep ∨ u.send = .sleep) :
    u.mem = t.mem ∧ u.rcv = t.rcv ∧ (t.mem.msgReady = 0 ∨ t.send = .unlockSleep) := by
  revert hs hp
  fun_cases Kernel.sendFunc t o <;> intro hs hp <;> cases hs <;> simp_all

/-! ## The invariant -/

/-- A CPU has counted a message and has still to wake the thread. -/
def State.covered (s : State ι κ) : Prop := ∃ k, s.base.rcv k = .unlock ∨ s.waking k = true

/-- The thread is off the CPU, or has found `msg_ready` equal to 0 and will go off it unless it is woken. -/
def State.waits (s : State ι κ) : Prop :=
  s.task = .created ∨ s.task ≠ .running ∧ (s.base.send = .unlockSleep ∨ s.base.send = .sleep)

structure Inv (s : State ι κ) : Prop where
  asleep : s.task = .asleep → s.base.send = .sleep
  covered : s.waits → s.base.mem.msgReady ≠ 0 → s.covered

theorem Inv.send {o : Unicast} (h : Inv s) (hs : sendFunc s o = some s') : Inv s' := by
  obtain ⟨⟨hcreated, hasleep⟩, hwaking, hcases⟩ := sendFunc_cases hs
  rcases hcases with ⟨hpc, hb, ht⟩ | ⟨hpc, htask, hb, ht⟩ | ⟨hstep, ht⟩
  · -- at the top of the loop
    refine ⟨fun hx => (by rw [ht] at hx; cases hx), fun hw => ?_⟩
    rcases hw with hw | ⟨-, hw | hw⟩
    · rw [ht] at hw
      cases hw
    · rw [hb, hpc] at hw
      cases hw
    · rw [hb, hpc] at hw
      cases hw
  · -- it goes off the CPU as it was
    refine ⟨fun _ => hb ▸ hpc, fun _ hne => ?_⟩
    rw [hb] at hne
    obtain ⟨k, hk⟩ := h.covered (.inr ⟨by rw [htask]; simp, .inr hpc⟩) hne
    exact ⟨k, by rwa [hb, hwaking]⟩
  · have htask : s'.task = .running ∨ s'.task = s.task := by
      rw [ht]
      split
      · exact .inl rfl
      · exact .inr rfl
    refine ⟨fun hx => ?_, fun hw hne => ?_⟩
    · rw [hx] at htask
      rcases htask with hrun | hsame
      · cases hrun
      · exact absurd hsame.symm hasleep
    · rcases hw with hw | ⟨hoff, hw⟩
      · rw [hw] at htask
        rcases htask with hrun | hsame
        · cases hrun
        · exact absurd hsame.symm hcreated
      · obtain ⟨hmem, hrcv, hprev⟩ := sendFunc_pause hstep hw
        rw [hmem] at hne
        -- it has found the flag 0, or it was past the test before
        have hpc : s.base.send = .unlockSleep := hprev.resolve_left hne
        have hsame : s'.task = s.task := by rw [ht, if_neg (by rw [hpc]; simp)]
        obtain ⟨k, hk⟩ := h.covered (.inr ⟨hsame ▸ hoff, .inl hpc⟩) hne
        exact ⟨k, by rwa [hrcv, hwaking]⟩

/-! ## The system without task states -/

variable [DecidableEq ι] [DecidableEq κ]

/-- A step of another thread is one of `Threads.lean`; it leaves the task alone, and a CPU that releases `sl_msg` is to
wake it. -/
theorem otherStep_base {a : Kernel.Act ι κ} (hs : otherStep s a = some s') :
    Kernel.step s.base a = some s'.base ∧ s'.task = s.task ∧ (∀ o, a ≠ .send o) ∧
      (∀ k, s.waking k = true → s'.waking k = true) ∧
      ∀ k, a = .rcv k → s.base.rcv k = .unlock → s'.waking k = true := by
  cases a with
  | send o => cases hs
  | arrive k =>
    simp only [otherStep] at hs
    split at hs
    · cases hs
    · obtain ⟨t, ht, rfl⟩ := Option.map_eq_some_iff.mp hs
      exact ⟨ht, rfl, fun o h => (by cases h), fun _ hk => hk, fun j h => by cases h⟩
  | rcv j =>
    simp only [otherStep] at hs
    obtain ⟨t, ht, rfl⟩ := Option.map_eq_some_iff.mp hs
    refine ⟨ht, rfl, fun o h => (by cases h), fun k hk => ?_, fun k hkj hunlock => ?_⟩
    · by_cases hkj : k = j <;> by_cases hpc : s.base.rcv j = .unlock <;> simp_all
    · cases hkj
      simp [hunlock]
  | _ =>
    simp only [otherStep] at hs
    obtain ⟨t, ht, rfl⟩ := Option.map_eq_some_iff.mp hs
    exact ⟨ht, rfl, fun o h => (by cases h), fun _ hk => hk, fun k h => by cases h⟩

/-- **The task states only restrict the runs**: without them a run is one of `Threads.lean`. -/
theorem base_reachable (h : (system b rest ι κ).Reachable s) : (Kernel.system ι κ).Reachable s.base := by
  refine h.refines State.base (by rintro _ rfl; rfl) fun s a s' _ _ hs => ?_
  cases a with
  | send o =>
    obtain ⟨-, -, ⟨-, hb, -⟩ | ⟨-, -, hb, -⟩ | ⟨hb, -⟩⟩ := sendFunc_cases hs
    · exact .inl hb
    · exact .inl hb
    · exact .inr ⟨.send o, trivial, hb⟩
  | timer =>
    obtain ⟨-, hs⟩ := Option.ite_none_right_eq_some.mp hs
    cases hs
    exact .inl rfl
  | wake k =>
    obtain ⟨-, hs⟩ := Option.ite_none_right_eq_some.mp hs
    cases hs
    exact .inl rfl
  | other a => exact .inr ⟨a, trivial, (otherStep_base hs).1⟩

/-! ## Steps of the other threads -/

section Frames

variable {t u : Kernel.State ι κ} {a : Kernel.Act ι κ} {k : κ}

/-- Only the other threads' own steps count messages, and a CPU that has counted one goes on to the wake-up. -/
theorem step_ready (ha : ∀ o, a ≠ .send o) (hs : Kernel.step t a = some u) :
    u.send = t.send ∧ (u.mem.msgReady = t.mem.msgReady ∨ ∃ k, u.rcv k = .unlock) := by
  cases a with
  | send o => exact absurd rfl (ha o)
  | call i m =>
    obtain ⟨-, hs⟩ := Option.ite_none_right_eq_some.mp hs
    cases hs
    exact ⟨rfl, .inl rfl⟩
  | handler i =>
    revert hs
    simp only [Kernel.step]
    fun_cases addVfsChanged t i <;> intro hs <;> cases hs <;> refine ⟨rfl, .inl ?_⟩ <;>
      simp [State.setHandler, Mem.setFileOn]
  | arrive k =>
    obtain ⟨-, hs⟩ := Option.ite_none_right_eq_some.mp hs
    cases hs
    exact ⟨rfl, .inl rfl⟩
  | rcv k =>
    cases hpc : t.rcv k with
    | store v =>
      simp only [Kernel.step, rcvMsg, hpc, Option.some.injEq] at hs
      subst hs
      exact ⟨rfl, .inr ⟨k, by simp [State.setRcv]⟩⟩
    | _ =>
      simp only [Kernel.step, rcvMsg, hpc] at hs
      try split at hs
      all_goals
        cases hs
        try exact ⟨rfl, .inl rfl⟩
  | timeout =>
    cases hs
    exact ⟨rfl, .inl rfl⟩
  | recv now =>
    revert hs
    simp only [Kernel.step]
    fun_cases efKernelConn t now <;> intro hs <;> cases hs
    exact ⟨rfl, .inl rfl⟩

/-- A CPU that has counted a message stays there until its own step. -/
theorem step_unlock (hs : Kernel.step t a = some u) (hk : t.rcv k = .unlock) : u.rcv k = .unlock ∨ a = .rcv k := by
  cases a with
  | send o =>
    revert hs
    simp only [Kernel.step]
    fun_cases Kernel.sendFunc t o <;> intro hs <;> cases hs <;> exact .inl hk
  | call i m =>
    obtain ⟨-, hs⟩ := Option.ite_none_right_eq_some.mp hs
    cases hs
    exact .inl hk
  | handler i =>
    revert hs
    simp only [Kernel.step]
    fun_cases addVfsChanged t i <;> intro hs <;> cases hs <;> exact .inl hk
  | arrive j =>
    obtain ⟨⟨hidle, -⟩, hs⟩ := Option.ite_none_right_eq_some.mp hs
    cases hs
    have hkj : k ≠ j := by
      rintro rfl
      rw [hk] at hidle
      cases hidle
    exact .inl (by simpa [State.setRcv, hkj] using hk)
  | rcv j =>
    by_cases hkj : k = j
    · exact .inr (by rw [hkj])
    · left
      revert hs
      simp only [Kernel.step]
      fun_cases rcvMsg t j <;> intro hs <;> cases hs <;> simpa [State.setRcv, hkj] using hk
  | timeout =>
    cases hs
    exact .inl hk
  | recv now =>
    revert hs
    simp only [Kernel.step]
    fun_cases efKernelConn t now <;> intro hs <;> cases hs
    exact .inl hk

end Frames

/-! ## Keeping the invariant -/

/-- A step of another thread leaves a CPU that is about to wake the thread. -/
theorem covered_other {a : Kernel.Act ι κ} (hc : s.covered) (hs : otherStep s a = some s') : s'.covered := by
  obtain ⟨hbase, -, -, hwaking, hrelease⟩ := otherStep_base hs
  obtain ⟨k, hk | hk⟩ := hc
  · rcases step_unlock hbase hk with hstay | hown
    · exact ⟨k, .inl hstay⟩
    · exact ⟨k, .inr (hrelease k hown hk)⟩
  · exact ⟨k, .inr (hwaking k hk)⟩

theorem Inv.other {a : Kernel.Act ι κ} (h : Inv s) (hs : otherStep s a = some s') : Inv s' := by
  obtain ⟨hbase, htask, hsend, -, -⟩ := otherStep_base hs
  obtain ⟨hpc, hready⟩ := step_ready hsend hbase
  refine ⟨fun ht => ?_, fun hw hne => ?_⟩
  · rw [hpc]
    exact h.asleep (htask ▸ ht)
  · rcases hready with hsame | ⟨k, hk⟩
    · have hw' : s.waits := by
        unfold State.waits at hw ⊢
        rwa [htask, hpc] at hw
      exact covered_other (h.covered hw' (hsame ▸ hne)) hs
    · exact ⟨k, .inl hk⟩

/-- Every step keeps the invariant where the text is recognised. -/
theorem Inv.step {a : Act ι κ} (hb : b = 0) (h : Inv s) (hs : step b rest s a = some s') : Inv s' := by
  cases a with
  | send o => exact h.send hs
  | timer =>
    obtain ⟨-, hs⟩ := Option.ite_none_right_eq_some.mp hs
    cases hs
    refine ⟨fun hx => (by cases hx), fun hw => ?_⟩
    rcases hw with hw | ⟨hw, -⟩
    · cases hw
    · exact absurd rfl hw
  | wake k =>
    obtain ⟨-, hs⟩ := Option.ite_none_right_eq_some.mp hs
    simp only [wakes_request.mpr hb, if_true] at hs
    cases hs
    refine ⟨fun hx => (by cases hx), fun hw => ?_⟩
    rcases hw with hw | ⟨hw, -⟩
    · cases hw
    · exact absurd rfl hw
  | other a => exact h.other hs

/-! ## A thread that is never started -/

/-- The thread has not been started, and nothing has been sent. -/
structure Unstarted (s : State ι κ) : Prop where
  task : s.task = .created
  socket : s.base.mem.socket = []
  passed : s.base.mem.passed = []
  unicasts : s.base.mem.unicasts = 0
  calls : s.base.calls = []

/-- The other threads send nothing, and the daemon reads what was sent. -/
theorem step_quiet {t u : Kernel.State ι κ} {a : Kernel.Act ι κ} (ha : ∀ o, a ≠ .send o)
    (hsock : t.mem.socket = []) (hs : Kernel.step t a = some u) :
    u.mem.socket = [] ∧ u.mem.passed = t.mem.passed ∧ u.mem.unicasts = t.mem.unicasts ∧ u.calls = t.calls := by
  cases a with
  | send o => exact absurd rfl (ha o)
  | call i m =>
    obtain ⟨-, hs⟩ := Option.ite_none_right_eq_some.mp hs
    cases hs
    exact ⟨hsock, rfl, rfl, rfl⟩
  | handler i =>
    revert hs
    simp only [Kernel.step]
    fun_cases addVfsChanged t i <;> intro hs <;> cases hs <;>
      simp [State.setHandler, Mem.insert_frame, Mem.setFileOn, hsock]
  | arrive k =>
    obtain ⟨-, hs⟩ := Option.ite_none_right_eq_some.mp hs
    cases hs
    exact ⟨hsock, rfl, rfl, rfl⟩
  | rcv k =>
    revert hs
    simp only [Kernel.step]
    fun_cases rcvMsg t k <;> intro hs <;> cases hs <;> exact ⟨hsock, rfl, rfl, rfl⟩
  | timeout =>
    cases hs
    exact ⟨hsock, rfl, rfl, rfl⟩
  | recv now => simp [Kernel.step, efKernelConn, hsock] at hs

theorem Unstarted.step {a : Act ι κ} (hb : b ≠ 0) (h : Unstarted s) (hs : step b rest s a = some s') :
    Unstarted s' := by
  have hno : wakes (request b rest) = false := by
    rw [Bool.eq_false_iff, ne_eq, wakes_request]
    exact hb
  cases a with
  | send o => exact absurd h.task (sendFunc_cases hs).1.1
  | timer =>
    obtain ⟨hasleep, -⟩ := Option.ite_none_right_eq_some.mp hs
    rw [h.task] at hasleep
    cases hasleep
  | wake k =>
    obtain ⟨-, hs⟩ := Option.ite_none_right_eq_some.mp hs
    simp only [hno] at hs
    cases hs
    exact ⟨h.task, h.socket, h.passed, h.unicasts, h.calls⟩
  | other a =>
    obtain ⟨hbase, htask, hsend, -, -⟩ := otherStep_base hs
    obtain ⟨hsock, hpassed, hunicasts, hcalls⟩ := step_quiet hsend h.socket hbase
    exact ⟨htask.trans h.task, hsock, hpassed.trans h.passed, hunicasts.trans h.unicasts, hcalls.trans h.calls⟩

/-! ## Runs -/

/-- **The wake-ups of the send thread.** A run is one of `Threads.lean` with the task states. If the byte behind the
daemon's text is 0, the thread is never off the CPU with a message counted and no CPU about to wake it. If the byte is
another, the thread is never started, no message is passed to netlink and the daemon makes no call. -/
theorem wakeup (h : (system b rest ι κ).Reachable s) :
    (Kernel.system ι κ).Reachable s.base ∧
    (b = 0 → s.task = .created ∨ s.task = .asleep → s.base.mem.msgReady ≠ 0 →
      ∃ k, s.base.rcv k = .unlock ∨ s.waking k = true) ∧
    (b ≠ 0 → s.task = .created ∧ s.base.mem.passed = [] ∧ s.base.mem.unicasts = 0 ∧ s.base.calls = []) := by
  refine ⟨base_reachable h, fun hb htask hne => ?_, fun hb => ?_⟩
  · have hinv : Inv s := by
      refine h.invariant ?_ fun s a s' hi _ hs => hi.step hb hs
      rintro _ rfl
      exact ⟨fun hx => (by cases hx), fun _ hne => absurd rfl hne⟩
    refine hinv.covered ?_ hne
    rcases htask with hcreated | hasleep
    · exact .inl hcreated
    · exact .inr ⟨by rw [hasleep]; simp, .inr (hinv.asleep hasleep)⟩
  · have hquiet : Unstarted s := by
      refine h.invariant ?_ fun s a s' hi _ hs => hi.step hb hs
      rintro _ rfl
      exact ⟨rfl, rfl, rfl, rfl, rfl⟩
    exact ⟨hquiet.task, hquiet.passed, hquiet.unicasts, hquiet.calls⟩

end Wakeup

/-- The first control message has been counted, and its CPU is about to start the thread. -/
theorem wakeup_first : ∃ s : State Unit Unit, s.task = .created ∧ s.base.mem.msgReady = 1 ∧
    (Kernel.system Unit Unit).Reachable s.base ∧
    ((0 : Byte) = 0 → s.task = .created ∨ s.task = .asleep → s.base.mem.msgReady ≠ 0 →
      ∃ k, s.base.rcv k = .unlock ∨ s.waking k = true) ∧
    ((0 : Byte) ≠ 0 → s.task = .created ∧ s.base.mem.passed = [] ∧ s.base.mem.unicasts = 0 ∧ s.base.calls = []) := by
  obtain ⟨s, hs, hp⟩ := System.reachable_of_run (system 0 [] Unit Unit) start rfl
    [.other (.arrive ()), .other (.rcv ()), .other (.rcv ()), .other (.rcv ())]
    (fun s => decide (s.task = .created ∧ s.base.mem.msgReady = 1)) (by decide)
  obtain ⟨htask, hready⟩ := of_decide_eq_true hp
  exact ⟨s, htask, hready, wakeup hs⟩

end Everyfile.Kernel.Wakeup
