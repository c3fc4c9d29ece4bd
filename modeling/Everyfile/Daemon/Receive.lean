import Everyfile.Daemon.Dispatch
import Everyfile.Kernel.Probe

/-!
# The way of a path to the daemon

`post_handler_common` joins a mount point and a dentry's path, `add_vfs_changed` copies as many bytes as its 16-bit
length says, `send_msg` puts the flag before them, netlink pads the message with zeros, and `recvfrom` cuts it to the
`MSG_LEN` bytes of the zeroed buffer.

No length is cut in the kernel (`addVfsChangedMsg_flPath`), and the padding ends the path as the zeroed buffer does
(`userMsg_padded`). So the daemon reads the first `MSG_LEN - 2` bytes of the path (`decode_received`), which are all of
them exactly for paths that short (`decode_received_iff`).
-/

namespace Everyfile

namespace Kernel

/-- The message that `add_vfs_changed` puts into the buffer. `path_len` is a `uint16_t`. -/
def addVfsChangedMsg (flPath : List Byte) (flags : Nat) : NlMsg :=
  let pathLen := flPath.length % 65536
  ⟨flags, flPath.take pathLen⟩

/-- A netlink payload, padded with zeros to the alignment of four bytes. -/
def padded (payload : List Byte) : List Byte := payload ++ List.replicate ((4 - payload.length % 4) % 4) 0

/-- The length of a path that a probe can report passes the 16-bit parameter. -/
theorem addVfsChangedMsg_flPath {root path : List Byte} (flags : Nat) (hroot : root.length ≤ 250)
    (hpath : path.length < 4096) : addVfsChangedMsg (flPath root path) flags = ⟨flags, flPath root path⟩ := by
  have hlen : (flPath root path).length < 65536 := by
    unfold flPath
    split
    · omega
    · rw [List.length_append]
      omega
  rw [addVfsChangedMsg, Nat.mod_eq_of_lt hlen, List.take_length]

theorem nulFree_flPath {root path : List Byte} (hroot : NulFree root) (hpath : NulFree path) :
    NulFree (flPath root path) := by
  unfold flPath
  split
  · exact hpath
  · exact nulFree_append hroot hpath

end Kernel

namespace Daemon

open Kernel (NlMsg MSG_LEN addVfsChangedMsg padded flPath)

/-- The zeroed buffer hides the padding. -/
theorem userMsg_padded (payload : List Byte) : userMsg (padded payload) = userMsg payload := by
  unfold userMsg padded
  by_cases h : payload.length ≤ MSG_LEN
  · -- all of the message arrives; what the padding writes is zero before
    have hzeros : ∀ k, (payload ++ List.replicate k 0).take MSG_LEN ++
        List.replicate (MSG_LEN - (payload ++ List.replicate k 0).length) 0 =
          payload ++ List.replicate (MSG_LEN - payload.length) (0 : Byte) := by
      intro k
      rw [List.take_append, List.take_of_length_le h, List.take_replicate, List.append_assoc,
        List.replicate_append_replicate, List.length_append, List.length_replicate]
      congr 2
      omega
    rw [hzeros, List.take_of_length_le h]
  · -- the message is cut before the padding
    have hle : MSG_LEN ≤ payload.length := by omega
    rw [List.take_append_of_le_length hle, List.length_append, Nat.sub_eq_zero_of_le hle,
      Nat.sub_eq_zero_of_le (by omega)]

/-- The loops of the switch read the path up to the end of the buffer. -/
theorem nameOf_userMsg {m : NlMsg} (h : NulFree m.path) : nameOf (userMsg m.encode) = m.path.take (MSG_LEN - 2) := by
  have hdrop : (userMsg m.encode).drop 2 =
      m.path.take (MSG_LEN - 2) ++ List.replicate (MSG_LEN - m.encode.length) 0 := rfl
  rw [nameOf, take_userMsg, hdrop]
  exact cstr_append_zeros (fun b hb => h b (List.mem_of_mem_take hb)) _

/-- **What the daemon reads** of a probe's message. -/
theorem decode_received {m : NlMsg} (h1 : 1 ≤ m.flags) (h6 : m.flags ≤ 6) (h : NulFree m.path) :
    decode (userMsg (padded m.encode)) = some ⟨m.flags, m.path.take (MSG_LEN - 2)⟩ := by
  -- the flag's byte does not depend on the path
  have hcase : caseOf (userMsg m.encode) = m.flags :=
    caseOf_encode (m := ⟨m.flags, []⟩) ⟨h1, h6, List.forall_mem_nil _, by simp⟩ _
  rw [userMsg_padded, decode, hcase, nameOf_userMsg h, if_pos (by omega)]
  rfl

/-- Only for `vfs_symlink` the call made does not depend on the path. -/
theorem eventCall_eq_iff {flags : Nat} (h1 : 1 ≤ flags) (h6 : flags ≤ 6) {p q : List Byte} {now : Int} :
    eventCall ⟨flags, p⟩ now = eventCall ⟨flags, q⟩ now ↔ flags = 5 ∨ p = q := by
  obtain rfl | rfl | rfl | rfl | rfl | rfl : flags = 1 ∨ flags = 2 ∨ flags = 3 ∨ flags = 4 ∨ flags = 5 ∨ flags = 6 := by
    omega
  all_goals simp [eventCall]

section

variable {flags : Nat} {root path : List Byte}

/-- **When the daemon reads what the kernel sent**: the flag and the path come back exactly for paths that leave two
bytes of the buffer; and the switch makes the call of the event exactly for those, or where it makes none. -/
theorem decode_received_iff (h1 : 1 ≤ flags) (h6 : flags ≤ 6) (hroot : NulFree root) (hpath : NulFree path)
    (hrootLen : root.length ≤ 250) (hpathLen : path.length < 4096) (info : FileInfo) (now : Int) :
    (decode (userMsg (padded (addVfsChangedMsg (flPath root path) flags).encode)) = some ⟨flags, flPath root path⟩ ↔
        (flPath root path).length ≤ MSG_LEN - 2) ∧
      ((dispatch info (userMsg (padded (addVfsChangedMsg (flPath root path) flags).encode)) now).2 =
          eventCall ⟨flags, flPath root path⟩ now ↔ flags = 5 ∨ (flPath root path).length ≤ MSG_LEN - 2) := by
  have hread := decode_received (m := ⟨flags, flPath root path⟩) h1 h6 (Kernel.nulFree_flPath hroot hpath)
  have htake : (flPath root path).take (MSG_LEN - 2) = flPath root path ↔ (flPath root path).length ≤ MSG_LEN - 2 :=
    List.take_eq_self_iff _
  rw [Kernel.addVfsChangedMsg_flPath flags hrootLen hpathLen, dispatch_snd, hread, Option.bind_some]
  refine ⟨?_, ?_⟩
  · simp [htake]
  · rw [eventCall_eq_iff h1 h6, htake]

end

theorem decode_received_home : (1 ≤ 1 ∧ 1 ≤ 6) ∧ (NulFree (bytes "/home") ∧ NulFree (bytes "/x")) ∧
    ((bytes "/home").length ≤ 250 ∧ (bytes "/x").length < 4096) ∧
    decode (userMsg (padded (addVfsChangedMsg (flPath (bytes "/home") (bytes "/x")) 1).encode)) =
      some ⟨1, bytes "/home/x"⟩ :=
  ⟨by decide, by decide, by decide, (decode_received_iff (by decide) (by decide) (by decide) (by decide) (by decide)
    (by decide) ⟨[], .ERR, 0⟩ 0).1.mpr (by decide)⟩

/-- A path through `n` nested directories. -/
def nestedPath (n : Nat) : List Byte := (List.replicate n (bytes "/dd")).flatten

theorem length_nestedPath (n : Nat) : (nestedPath n).length = n * 3 := by
  rw [nestedPath, List.length_flatten, List.map_replicate, List.sum_replicate_nat]
  rfl

theorem nulFree_nestedPath (n : Nat) : NulFree (nestedPath n) := by
  rw [nestedPath, ← List.flatMap_id]
  apply nulFree_flatMap
  intro d hd
  obtain rfl := (List.mem_replicate.mp hd).2
  decide

/-- The last byte of a path of 1023 bytes is lost. -/
theorem nestedPath_cut : (NulFree (nestedPath 341) ∧ (nestedPath 341).length = 1023) ∧
    decode (userMsg (padded (addVfsChangedMsg (flPath (bytes "/") (nestedPath 341)) 1).encode)) =
      some ⟨1, (nestedPath 341).take 1022⟩ ∧
    decode (userMsg (padded (addVfsChangedMsg (flPath (bytes "/") (nestedPath 341)) 1).encode)) ≠
      some ⟨1, nestedPath 341⟩ := by
  have hlen := length_nestedPath 341
  have hnul := nulFree_nestedPath 341
  generalize nestedPath 341 = path at hlen hnul
  have hread := decode_received (m := ⟨1, path⟩) (le_refl 1) (by simp) hnul
  have hmsg : addVfsChangedMsg (flPath (bytes "/") path) 1 = ⟨1, path⟩ :=
    Kernel.addVfsChangedMsg_flPath 1 (by decide) (by omega)
  rw [hmsg, hread]
  refine ⟨⟨hnul, hlen⟩, rfl, fun heq => ?_⟩
  have hcut : (path.take (MSG_LEN - 2)).length = path.length :=
    congrArg List.length (NlMsg.mk.inj (Option.some_inj.mp heq)).2
  rw [List.length_take, hlen] at hcut
  exact absurd hcut (by decide)

end Daemon

end Everyfile
