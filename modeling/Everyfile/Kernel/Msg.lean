import Everyfile.Bytes

/-!
# The messages of the kernel module

An `nl_msg` holds the event's flag and the reported path. `sendMsg` builds the netlink payload of a message and
`addMsgToFile` the record of the overflow log; both are the flag's digit, a space and the path without terminator. A
`FILEON<pos>` message announces the overflow log below `pos`.
-/

namespace Everyfile.Kernel

/-- `nl_msg`: an event waiting to be reported (`len` is the length of `path`). -/
structure NlMsg where
  flags : Nat
  path : List Byte
  deriving DecidableEq, Repr

def MSG_LEN : Nat := 1024
def MAX_MSG_BUF_LEN : Nat := 128

namespace NlMsg

/-- `flags%10+'0'`. -/
def digit (m : NlMsg) : Byte := UInt8.ofNat (m.flags % 10 + 48)

/-- What `send_msg` hands to `netlink_unicast` and what `add_msg_to_file` writes. -/
def encode (m : NlMsg) : List Byte := m.digit :: 32 :: m.path

/-- A message that a probe can accept and that fits the daemon's receive buffer: one of the six flags of the probes, a
C string as path, at most `MSG_LEN - 2` bytes of it. -/
structure WF (m : NlMsg) : Prop where
  flags_pos : 1 ≤ m.flags
  flags_le : m.flags ≤ 6
  nulFree : NulFree m.path
  length_le : m.path.length ≤ 1022

/-- The digit of a flag of the probes. -/
theorem digit_toNat {m : NlMsg} (h : m.flags ≤ 6) : m.digit.toNat = m.flags + 48 := by
  rw [digit, UInt8.toNat_ofNat']
  omega

instance (m : NlMsg) : Decidable m.WF :=
  decidable_of_iff (1 ≤ m.flags ∧ m.flags ≤ 6 ∧ NulFree m.path ∧ m.path.length ≤ 1022)
    ⟨fun ⟨h1, h2, h3, h4⟩ => ⟨h1, h2, h3, h4⟩, fun h => ⟨h.1, h.2, h.3, h.4⟩⟩

end NlMsg

/-- The records of messages spilled one after the other. -/
def records (ms : List NlMsg) : List Byte := ms.flatMap NlMsg.encode

theorem records_append (ms ns : List NlMsg) : records (ms ++ ns) = records ms ++ records ns := by
  simp [records]

theorem records_singleton (m : NlMsg) : records [m] = m.encode := by simp [records]

/-- Only the empty sequence of messages has no bytes. -/
theorem records_eq_nil {ms : List NlMsg} : records ms = [] ↔ ms = [] := by
  cases ms <;> simp [records, NlMsg.encode]

/-- A message in the netlink socket. A `FILEON` message carries, besides its position, the history of which spilled
messages had their records below it. -/
inductive Datagram
  | vfs (m : NlMsg)
  | fileOn (pos : Nat) (covered : List NlMsg)
  deriving DecidableEq, Repr

namespace Datagram

/-- The bytes that travel. -/
def payload : Datagram → List Byte
  | .vfs m => m.encode
  | .fileOn pos _ => bytes "FILEON" ++ decimal pos

def isFileOn : Datagram → Bool
  | .vfs _ => false
  | .fileOn _ _ => true

/-- The events a message in flight stands for: its own, or those whose records the announced part of the overflow log
still holds. -/
def events (file : List Byte) : Datagram → List NlMsg
  | .vfs m => [m]
  | .fileOn pos covered => if file.take pos = records covered then covered else []

/-- An announcement of nothing stands for no event. -/
@[simp] theorem events_fileOn_zero (file : List Byte) (covered : List NlMsg) :
    (Datagram.fileOn 0 covered).events file = [] := by
  simp only [events, List.take_zero, @eq_comm _ ([] : List Byte), records_eq_nil]
  split <;> simp_all

@[simp] theorem events_vfs (file : List Byte) (m : NlMsg) : (Datagram.vfs m).events file = [m] := rfl

end Datagram

/-- `kernel_write(fp, buf, count, &pos)`: the bytes from `pos` on are overwritten. -/
def kernelWrite (file buf : List Byte) (pos : Nat) : List Byte :=
  file.take pos ++ buf ++ file.drop (pos + buf.length)

/-- The part below the new position is the old part below `pos` and the bytes just written. -/
theorem take_kernelWrite {file buf : List Byte} {pos : Nat} (h : pos ≤ file.length) :
    (kernelWrite file buf pos).take (pos + buf.length) = file.take pos ++ buf := by
  unfold kernelWrite
  rw [List.take_append_of_le_length (by simp; omega)]
  exact List.take_of_length_le (by simp only [List.length_append, List.length_take]; omega)

theorem le_length_kernelWrite {file buf : List Byte} {pos : Nat} (h : pos ≤ file.length) :
    pos + buf.length ≤ (kernelWrite file buf pos).length := by
  simp only [kernelWrite, List.length_append, List.length_take, List.length_drop]
  omega

end Everyfile.Kernel
