import Everyfile.Kernel.Mem
import Everyfile.Daemon.Dispatch
import Everyfile.Lib.Transition
import Everyfile.Lib.Locking
import Mathlib.Logic.Function.Basic

/-!
# The threads of the kernel module and the daemon

One step of a thread is an acquisition or a release of a spinlock, or the code between two of them; an acquisition is
enabled only while the lock is free, and a release sets it free whoever holds it. There is one send thread, a probe
handler running `add_vfs_changed` for each `i : ι` and a CPU running `rcv_msg` for each `k : κ`. The daemon's loop of
`ef_kernel_conn` sends a control message when its `select` times out and after every message it has received.

A sleep of the send thread may end at any time, by timeout or by `wake_up_process`, so the wake-up is not a step of its
own; `msg_ready++` is a load and a store.
-/

namespace Everyfile.Kernel

open Daemon (DbCall)

inductive Lock
  | msg | file | buf
  deriving DecidableEq, Repr

/-- The position of the send thread in `send_func`. -/
inductive SendPc
  | lockMsg | testReady | unlockSleep | sleep | unlockMsg
  | lockFile | testFileOn | sendOn | resetPos | clearOn
  | lockBuf | sendBuf | unlockBuf | unlockFile
  deriving DecidableEq, Repr

/-- The position of a probe handler in `add_vfs_changed`. -/
inductive HandlerPc
  | idle
  | lockBuf (m : NlMsg)
  | insert (m : NlMsg)
  | lockFile | setOn | unlockFile | unlockBuf
  deriving DecidableEq, Repr

/-- The position of a CPU in `rcv_msg`. -/
inductive RcvPc
  | idle | lockMsg | load
  | store (v : Nat)
  | unlock
  deriving DecidableEq, Repr

inductive Tid (ι κ : Type*)
  | send
  | handler (i : ι)
  | rcv (k : κ)
  deriving DecidableEq

/-- The counts at the moment a pass of `send_func` finds `msg_ready` equal to 0. -/
structure Pause where
  counted : Nat
  unicasts : Nat
  deriving DecidableEq, Repr

structure State (ι κ : Type*) where
  mem : Mem
  slMsg : Option (Tid ι κ)
  slFile : Option (Tid ι κ)
  slBuf : Option (Tid ι κ)
  send : SendPc
  handler : ι → HandlerPc
  rcv : κ → RcvPc
  /-- Control messages of the daemon on their way to `rcv_msg`. -/
  acks : Nat
  /-- The daemon's record variable. -/
  info : FileInfo
  /-- History: the database calls the daemon made. -/
  calls : List DbCall
  /-- History: the events the daemon read, with the time it read them at. -/
  applied : List (NlMsg × Int)
  /-- History: whether the last test of `msg_ready` found it equal to 0, and the counts then. -/
  slept : Option Pause

inductive Act (ι κ : Type*)
  /-- The next step of the send thread; the outcome matters where it sends. -/
  | send (o : Unicast)
  /-- A probe calls `add_vfs_changed`. -/
  | call (i : ι) (m : NlMsg)
  | handler (i : ι)
  /-- A control message gets to `rcv_msg`. -/
  | arrive (k : κ)
  | rcv (k : κ)
  /-- The daemon's `select` times out. -/
  | timeout
  /-- The daemon receives a message at time `now`. -/
  | recv (now : Int)
  deriving DecidableEq

section Steps

variable {ι κ : Type*} [DecidableEq ι] [DecidableEq κ]

/-- `send_func`. -/
def sendFunc (s : State ι κ) (o : Unicast) : Option (State ι κ) :=
  match s.send with
  | .lockMsg => if s.slMsg = none then some { s with slMsg := some .send, send := .testReady } else none
  | .testReady =>
    if s.mem.msgReady ≠ 0 then some { s with mem := s.mem.takeReady, slept := none, send := .unlockMsg }
    else some { s with slept := some ⟨s.mem.counted, s.mem.unicasts⟩, send := .unlockSleep }
  | .unlockSleep => some { s with slMsg := none, send := .sleep }
  | .sleep => some { s with send := .unlockMsg }
  -- both branches come here, the one that has slept without the lock
  | .unlockMsg => some { s with slMsg := none, send := .lockFile }
  | .lockFile => if s.slFile = none then some { s with slFile := some .send, send := .testFileOn } else none
  | .testFileOn => if s.mem.fileOn then some { s with send := .sendOn } else some { s with send := .lockBuf }
  | .sendOn => some { s with mem := s.mem.sendFileOn o, send := .resetPos }
  | .resetPos => some { s with mem := s.mem.resetPos, send := .clearOn }
  | .clearOn => some { s with mem := s.mem.setFileOn false, send := .unlockFile }
  | .lockBuf => if s.slBuf = none then some { s with slBuf := some .send, send := .sendBuf } else none
  | .sendBuf => some { s with mem := s.mem.sendHead o, send := .unlockBuf }
  | .unlockBuf => some { s with slBuf := none, send := .unlockFile }
  | .unlockFile => some { s with slFile := none, send := .lockMsg }

def State.setHandler (s : State ι κ) (i : ι) (p : HandlerPc) : State ι κ :=
  { s with handler := Function.update s.handler i p }

def State.setRcv (s : State ι κ) (k : κ) (p : RcvPc) : State ι κ := { s with rcv := Function.update s.rcv k p }

/-- `add_vfs_changed`, after `kmalloc` has succeeded. -/
def addVfsChanged (s : State ι κ) (i : ι) : Option (State ι κ) :=
  match s.handler i with
  | .idle => none
  | .lockBuf m =>
    if s.slBuf = none then some ({ s with slBuf := some (.handler i) }.setHandler i (.insert m)) else none
  | .insert m =>
    if s.mem.overflows m then some ({ s with mem := s.mem.insert m }.setHandler i .lockFile)
    else some ({ s with mem := s.mem.insert m }.setHandler i .unlockBuf)
  | .lockFile =>
    if s.slFile = none then some ({ s with slFile := some (.handler i) }.setHandler i .setOn) else none
  | .setOn => some ({ s with mem := s.mem.setFileOn true }.setHandler i .unlockFile)
  | .unlockFile => some ({ s with slFile := none }.setHandler i .unlockBuf)
  | .unlockBuf => some ({ s with slBuf := none }.setHandler i .idle)

/-- `rcv_msg`. -/
def rcvMsg (s : State ι κ) (k : κ) : Option (State ι κ) :=
  match s.rcv k with
  | .idle => none
  | .lockMsg => if s.slMsg = none then some ({ s with slMsg := some (.rcv k) }.setRcv k .load) else none
  | .load => some (s.setRcv k (.store s.mem.msgReady))
  | .store v => some ({ s with mem := s.mem.storeReady v }.setRcv k .unlock)
  | .unlock => some ({ s with slMsg := none }.setRcv k .idle)

/-- The pass of `ef_kernel_conn` that receives a message. -/
def efKernelConn (s : State ι κ) (now : Int) : Option (State ι κ) :=
  match s.mem.socket with
  | [] => none
  | d :: _ =>
    let msg := Daemon.userMsg d.payload
    let r := Daemon.dispatch s.info msg now
    some { s with
      mem := s.mem.popSocket
      info := r.1
      calls := s.calls ++ r.2.toList
      applied := s.applied ++ ((Daemon.decode msg).map (·, now)).toList
      acks := s.acks + 1 }

def step (s : State ι κ) : Act ι κ → Option (State ι κ)
  | .send o => sendFunc s o
  | .call i m => if s.handler i = .idle then some (s.setHandler i (.lockBuf m)) else none
  | .handler i => addVfsChanged s i
  | .arrive k =>
    if s.rcv k = .idle ∧ 0 < s.acks then some ({ s with acks := s.acks - 1 }.setRcv k .lockMsg) else none
  | .rcv k => rcvMsg s k
  | .timeout => some { s with acks := s.acks + 1 }
  | .recv now => efKernelConn s now

/-- Module load and start of the daemon, whose first control message is under way. -/
def start : State ι κ where
  mem := .load
  slMsg := none
  slFile := none
  slBuf := none
  send := .lockMsg
  handler _ := .idle
  rcv _ := .idle
  acks := 1
  info := ⟨[], .ERR, 0⟩
  calls := []
  applied := []
  slept := none

/-- The module and the daemon as a transition system. -/
def system (ι κ : Type*) [DecidableEq ι] [DecidableEq κ] : Transition.System (State ι κ) (Act ι κ) where
  init s := s = start
  step := step

/-- What holds at module load and is kept by every step of a run holds along the run. -/
theorem system_invariant {P : State ι κ → Prop} {ok : State ι κ → Act ι κ → Prop} (h0 : P start)
    (hs : ∀ s a s', P s → ok s a → step s a = some s' → P s') {s : State ι κ} (h : (system ι κ).Reach ok s) : P s :=
  h.invariant (fun _ h => h ▸ h0) hs

end Steps

/-! ## Schedules of one handler -/

/-- A call of `add_vfs_changed`, up to the release of `sl_buf`. -/
def submit (m : NlMsg) : List (Act Unit Unit) := [.call () m, .handler (), .handler (), .handler ()]

/-- A control message, and `rcv_msg` on it. -/
def control : List (Act Unit Unit) := [.arrive (), .rcv (), .rcv (), .rcv (), .rcv ()]

/-- Steps of the send thread. -/
def sends (n : Nat) (o : Unicast) : List (Act Unit Unit) := List.replicate n (.send o)

end Everyfile.Kernel
