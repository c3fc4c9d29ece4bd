import Everyfile.Kernel.Msg

/-!
# The memory of the kernel module

The static variables of `vfs_kprobe.c` that its threads share, the overflow log with its position and the netlink
socket, and the code sections that work on them. `unsigned int` counters wrap at `2^32`. The last block of fields is
history: nothing reads it, it only says what has happened.
-/

namespace Everyfile.Kernel

/-- What `nlmsg_new` and `netlink_unicast` make of a message: no buffer, an error (nothing is delivered) or delivery
at the end of the socket's queue. -/
inductive Unicast
  | noBuf | failed | delivered
  deriving DecidableEq, Repr

/-- The two ways a message leaves the buffer. -/
inductive Route
  | sent | spilled
  deriving DecidableEq, Repr

structure Mem where
  msgBuf : List NlMsg
  msgBufSize : Nat
  fileOn : Bool
  msgReady : Nat
  /-- The overflow log `fp`. -/
  file : List Byte
  pos : Nat
  socket : List Datagram
  /-- A null message was dereferenced. -/
  fault : Bool
  /-- Messages linked into the buffer by `add_vfs_changed`. -/
  accepted : List NlMsg
  /-- Messages unlinked from the buffer. -/
  removed : List (NlMsg × Route)
  /-- Messages passed to `send_msg`. -/
  passed : List NlMsg
  /-- Messages written to the overflow log. -/
  written : List NlMsg
  /-- The messages whose records stand below `pos`. -/
  spilled : List NlMsg
  /-- How many of them a `FILEON` message delivered since has announced. -/
  announced : Nat
  /-- Increments of `msg_ready`. -/
  counted : Nat
  /-- Calls of `netlink_unicast`. -/
  unicasts : Nat
  deriving DecidableEq, Repr

/-- `++` and `--` of an `unsigned int`. -/
def uintInc (n : Nat) : Nat := (n + 1) % 4294967296
def uintDec (n : Nat) : Nat := (n + 4294967295) % 4294967296

theorem uintInc_of_lt {n : Nat} (h : n + 1 < 4294967296) : uintInc n = n + 1 := Nat.mod_eq_of_lt h

theorem uintDec_succ {n : Nat} (h : n + 1 < 4294967296) : uintDec (n + 1) = n := by
  unfold uintDec
  omega

namespace Mem

/-- Module load. -/
def load : Mem where
  msgBuf := []
  msgBufSize := 0
  fileOn := false
  msgReady := 0
  file := []
  pos := 0
  socket := []
  fault := false
  accepted := []
  removed := []
  passed := []
  written := []
  spilled := []
  announced := 0
  counted := 0
  unicasts := 0

/-! ## Leaving the buffer -/

def getMsgFromList (s : Mem) : Option NlMsg := s.msgBuf.head?

/-- `list_del(&msg->list); msg_buf_size--`. -/
def unlink (s : Mem) (m : NlMsg) (r : Route) : Mem :=
  { s with
    msgBuf := s.msgBuf.tail
    msgBufSize := uintDec s.msgBufSize
    removed := s.removed ++ [(m, r)] }

/-- `send_msg`; its callers ignore the result. -/
def sendMsg (s : Mem) (m : NlMsg) (o : Unicast) : Mem :=
  let s := { s with passed := s.passed ++ [m] }
  match o with
  | .noBuf => s
  | .failed => { s with unicasts := s.unicasts + 1 }
  | .delivered => { s with unicasts := s.unicasts + 1, socket := s.socket ++ [.vfs m] }

/-- The branch of `send_func` that holds `sl_buf`: send the head of the buffer, whatever comes of it, and drop it. -/
def sendHead (s : Mem) (o : Unicast) : Mem :=
  if 0 < s.msgBufSize then
    match s.getMsgFromList with
    | some m => (s.sendMsg m o).unlink m .sent
    | none => s
  else s

/-- `kernel_write` of a message's record at `pos`. -/
def writeRecord (s : Mem) (m : NlMsg) : Mem :=
  { s with
    file := kernelWrite s.file m.encode s.pos
    pos := s.pos + m.encode.length
    written := s.written ++ [m]
    spilled := s.spilled ++ [m] }

def addMsgToFile (s : Mem) : Mem :=
  match s.getMsgFromList with
  | some m => (s.unlink m .spilled).writeRecord m
  | none => { s with fault := true }  -- `msg->len` with `msg == NULL`

/-! ## Entering the buffer -/

/-- `list_add_tail(&msg->list, &msg_buf); msg_buf_size++`. -/
def link (s : Mem) (m : NlMsg) : Mem :=
  { s with
    msgBuf := s.msgBuf ++ [m]
    msgBufSize := uintInc s.msgBufSize
    accepted := s.accepted ++ [m] }

/-- Whether the message just linked makes the buffer too long. -/
def overflows (s : Mem) (m : NlMsg) : Bool := MAX_MSG_BUF_LEN < (s.link m).msgBufSize

/-- The section of `add_vfs_changed` that works on the buffer. -/
def insert (s : Mem) (m : NlMsg) : Mem := if s.overflows m then (s.link m).addMsgToFile else s.link m

/-! ## The overflow log and the control messages -/

def sendFileOn (s : Mem) (o : Unicast) : Mem :=
  match o with
  | .noBuf => s
  | .failed => { s with unicasts := s.unicasts + 1 }
  | .delivered =>
    { s with
      unicasts := s.unicasts + 1
      socket := s.socket ++ [.fileOn s.pos s.spilled]
      announced := s.spilled.length }

/-- `pos = 0`. -/
def resetPos (s : Mem) : Mem := { s with pos := 0, spilled := [], announced := 0 }

def setFileOn (s : Mem) (b : Bool) : Mem := { s with fileOn := b }

/-- `msg_ready = 0`. -/
def takeReady (s : Mem) : Mem := { s with msgReady := 0 }

/-- The store of `msg_ready++` after a load of `v`. -/
def storeReady (s : Mem) (v : Nat) : Mem := { s with msgReady := uintInc v, counted := s.counted + 1 }

/-- The daemon takes the first message of the socket. -/
def popSocket (s : Mem) : Mem := { s with socket := s.socket.tail }

/-! ## What the sections do to the buffer -/

theorem addMsgToFile_cons {s : Mem} {m : NlMsg} {rest : List NlMsg} (h : s.msgBuf = m :: rest) :
    s.addMsgToFile = (s.unlink m .spilled).writeRecord m := by
  simp [addMsgToFile, getMsgFromList, h]

theorem sendHead_cons {s : Mem} {m : NlMsg} {rest : List NlMsg} (h : s.msgBuf = m :: rest) (hpos : 0 < s.msgBufSize)
    (o : Unicast) : s.sendHead o = (s.sendMsg m o).unlink m .sent := by
  simp [sendHead, getMsgFromList, h, hpos]

theorem sendHead_zero {s : Mem} (h : s.msgBufSize = 0) (o : Unicast) : s.sendHead o = s := by
  simp [sendHead, h]

/-! ## The counters of control messages and of sends -/

section Counters

variable (s : Mem) (m : NlMsg) (o : Unicast)

@[simp] theorem addMsgToFile_counters : s.addMsgToFile.msgReady = s.msgReady ∧ s.addMsgToFile.counted = s.counted ∧
    s.addMsgToFile.unicasts = s.unicasts := by
  unfold addMsgToFile
  split <;> simp [unlink, writeRecord]

@[simp] theorem insert_counters : (s.insert m).msgReady = s.msgReady ∧ (s.insert m).counted = s.counted ∧
    (s.insert m).unicasts = s.unicasts := by
  unfold insert
  split <;> simp [link]

@[simp] theorem sendHead_counters : (s.sendHead o).msgReady = s.msgReady ∧ (s.sendHead o).counted = s.counted := by
  unfold sendHead
  split
  · split
    · cases o <;> simp [sendMsg, unlink]
    · simp
  · simp

@[simp] theorem sendFileOn_counters : (s.sendFileOn o).msgReady = s.msgReady ∧
    (s.sendFileOn o).counted = s.counted := by
  cases o <;> simp [sendFileOn]

/-- The buffer branch calls `netlink_unicast` at most once, and only with a buffer and a message. -/
theorem unicasts_sendHead : (s.sendHead o).unicasts = s.unicasts ∨
    (s.sendHead o).unicasts = s.unicasts + 1 ∧ o ≠ .noBuf ∧ 0 < s.msgBufSize := by
  unfold sendHead
  split
  · split
    · cases o <;> simp_all [sendMsg, unlink]
    · exact .inl rfl
  · exact .inl rfl

theorem unicasts_sendFileOn : (s.sendFileOn o).unicasts = s.unicasts ∨
    (s.sendFileOn o).unicasts = s.unicasts + 1 ∧ o ≠ .noBuf := by
  cases o <;> simp [sendFileOn]

end Counters

end Mem

end Everyfile.Kernel
