import Everyfile.Kernel.Msg

/-!
# The daemon's dispatch of a received message

`ef_kernel_conn` receives each message into a zeroed `user_msg_info` of `MSG_LEN` payload bytes, takes the first byte
minus `'0'` as the case of a switch and, in the cases of events it records, the bytes from offset 2 up to a NUL or the
end of the buffer as file name. `decode` is that reading; it undoes the kernel's encoding (`decode_encode`) and reads
nothing from a `FILEON` message (`decode_fileOn`).
-/

namespace Everyfile

/-- `_file_type`. -/
inductive FileType
  | ELNK | EREG | EDIR | ECHR | EBLK | EFIFO | ESOCK | ERR
  deriving DecidableEq, Repr

/-- The value `%d` prints for an enumerator. -/
def FileType.toNat : FileType → Nat
  | .ELNK => 0 | .EREG => 1 | .EDIR => 2 | .ECHR => 3 | .EBLK => 4 | .EFIFO => 5 | .ESOCK => 6 | .ERR => 7

/-- `_file_info`. -/
structure FileInfo where
  file_name : List Byte
  file_type : FileType
  file_time : Int
  deriving DecidableEq, Repr

namespace Daemon

open Kernel (NlMsg Datagram MSG_LEN)

/-- `u_info.msg` after `recvfrom`: zeroed before, and a longer message is cut. -/
def userMsg (payload : List Byte) : List Byte :=
  payload.take MSG_LEN ++ List.replicate (MSG_LEN - payload.length) 0

/-- `u_info.msg[0]-'0'`, where `char` is signed. -/
def caseOf (msg : List Byte) : Int :=
  let b := (msg.headD 0).toNat
  (if b < 128 then (b : Int) else (b : Int) - 256) - 48

/-- The loop over `u_info.msg[i]` from `i = 2`. -/
def nameOf (msg : List Byte) : List Byte := cstr ((msg.take MSG_LEN).drop 2)

/-- What a pass of the loop asks of the database. -/
inductive DbCall
  | add (info : FileInfo)
  | rm (fname : List Byte)
  deriving DecidableEq, Repr

/-- The switch of `ef_kernel_conn` on a received message: the record variable after it, and the database call made.
`now` is `tv.tv_sec`. -/
def dispatch (info : FileInfo) (msg : List Byte) (now : Int) : FileInfo × Option DbCall :=
  match caseOf msg with
  | 1 =>  -- vfs_create
    let info := { info with file_type := .EREG, file_time := now, file_name := nameOf msg }
    (info, some (.add info))
  | 2 =>  -- vfs_unlink
    let info := { info with file_name := nameOf msg }
    (info, some (.rm info.file_name))
  | 3 =>  -- vfs_mkdir
    let info := { info with file_type := .EDIR, file_time := now, file_name := nameOf msg }
    (info, some (.add info))
  | 4 =>  -- vfs_rmdir
    let info := { info with file_name := nameOf msg }
    (info, some (.rm info.file_name))
  | 5 => (info, none)  -- vfs_symlink
  | 6 =>  -- security_inode_create
    let info := { info with file_type := .EREG, file_time := now, file_name := nameOf msg }
    (info, some (.add info))
  | _ => (info, none)

/-! ## Events -/

/-- The event in a received message, where the switch has a case for it. -/
def decode (msg : List Byte) : Option NlMsg :=
  if 1 ≤ caseOf msg ∧ caseOf msg ≤ 6 then some ⟨(caseOf msg).toNat, nameOf msg⟩ else none

/-- The database call that an event stands for. -/
def eventCall (m : NlMsg) (now : Int) : Option DbCall :=
  match m.flags with
  | 1 | 6 => some (.add ⟨m.path, .EREG, now⟩)
  | 2 | 4 => some (.rm m.path)
  | 3 => some (.add ⟨m.path, .EDIR, now⟩)
  | _ => none

/-- The switch makes the call of the event it reads and none where it reads no event; the record variable left by
earlier messages has no part in it. -/
theorem dispatch_snd (info : FileInfo) (msg : List Byte) (now : Int) :
    (dispatch info msg now).2 = (decode msg).bind (eventCall · now) := by
  unfold dispatch decode
  split <;> rename_i h
  · simp [h, eventCall]
  · simp [h, eventCall]
  · simp [h, eventCall]
  · simp [h, eventCall]
  · simp [h, eventCall]
  · simp [h, eventCall]
  · rw [if_neg (by grind)]
    rfl

/-- The first byte of an event's message. -/
theorem caseOf_encode {m : NlMsg} (h : m.WF) (rest : List Byte) : caseOf (m.digit :: rest) = m.flags := by
  have h1 := h.flags_pos
  have h6 := h.flags_le
  have hd : m.digit.toNat = m.flags + 48 := NlMsg.digit_toNat h6
  simp only [caseOf, List.headD_cons, hd]
  rw [if_pos (by omega)]
  omega

/-- A received message fills the buffer. -/
theorem take_userMsg (payload : List Byte) : (userMsg payload).take MSG_LEN = userMsg payload := by
  apply List.take_of_length_le
  simp only [userMsg, List.length_append, List.length_take, List.length_replicate]
  omega

/-- The loops of the switch read a path that fits. -/
theorem nameOf_cons {a b : Byte} {path : List Byte} (h : NulFree path) (hlen : path.length ≤ 1022) :
    nameOf (userMsg (a :: b :: path)) = path := by
  have hfit : (a :: b :: path).length ≤ MSG_LEN := by
    simp only [List.length_cons, MSG_LEN]
    omega
  have hmsg : userMsg (a :: b :: path) = a :: b :: (path ++ List.replicate (MSG_LEN - (a :: b :: path).length) 0) := by
    rw [userMsg, List.take_of_length_le hfit]
    rfl
  rw [nameOf, take_userMsg, hmsg]
  exact cstr_append_zeros h _

/-- **Decoding undoes encoding.** -/
theorem decode_encode {m : NlMsg} (h : m.WF) : decode (userMsg m.encode) = some m := by
  have hname : nameOf (userMsg m.encode) = m.path := nameOf_cons h.nulFree h.length_le
  have hcase : caseOf (userMsg m.encode) = m.flags := caseOf_encode h _
  have h1 := h.flags_pos
  have h6 := h.flags_le
  rw [decode, hcase, hname, if_pos (by omega)]
  rfl

/-- A `FILEON` message falls to the default of the switch. -/
theorem decode_fileOn (pos : Nat) (covered : List NlMsg) :
    decode (userMsg (Datagram.fileOn pos covered).payload) = none := by
  have hcase : caseOf (userMsg (Datagram.fileOn pos covered).payload) = 22 := by
    have hb : bytes "FILEON" = [70, 73, 76, 69, 79, 78] := by decide
    simp [userMsg, Datagram.payload, hb, MSG_LEN, caseOf]
  rw [decode, hcase]
  rfl

end Daemon

end Everyfile
