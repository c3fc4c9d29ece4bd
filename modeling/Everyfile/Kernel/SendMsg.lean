import Everyfile.Kernel.Msg

/-!
# The result of `send_msg`

`netlink_unicast` returns the length of the buffer it has sent, or a negative error number. `send_msg` keeps it in an
`int8_t` and returns that: the low byte, with its sign. The sign is lost where the length has bit 7 set, or the error
number minus one has (`send_msg_neg_iff`).
-/

namespace Everyfile.Kernel

/-- `NLMSG_HDRLEN + NLMSG_ALIGN(payload)`. -/
def nlmsgLength (payload : Nat) : Nat := 16 + (payload + 3) / 4 * 4

/-- What a call of `send_msg` meets: no buffer from `nlmsg_new`, no room for `nlmsg_put`, an error of
`netlink_unicast`, or delivery. -/
inductive SendOutcome
  | noBuf | noRoom
  | failed (errno : Nat)
  | sent
  deriving DecidableEq, Repr

namespace SendOutcome

/-- What `netlink_unicast` returns for a message. -/
def unicast (m : NlMsg) : SendOutcome → Int
  | .failed errno => -errno
  | _ => nlmsgLength (m.path.length + 2)

/-- Error numbers are those of a pointer error. -/
def Valid : SendOutcome → Prop
  | .failed errno => 1 ≤ errno ∧ errno ≤ 4095
  | _ => True

def Failed (o : SendOutcome) : Prop := o ≠ .sent

/-- The low byte keeps the sign. -/
def SignKept (m : NlMsg) : SendOutcome → Prop
  | .sent => nlmsgLength (m.path.length + 2) % 256 < 128
  | .failed errno => (errno - 1) % 256 < 128
  | _ => True

end SendOutcome

/-- `send_msg`. -/
def sendMsg (m : NlMsg) (o : SendOutcome) : Int :=
  match o with
  | .noBuf => -1
  | .noRoom => -1
  | o =>
    let ret : Int8 := Int8.ofInt (o.unicast m)
    ret.toInt

/-- The sign of a value kept in an `int8_t`. -/
theorem toInt8_neg_iff (i : Int) : (Int8.ofInt i).toInt < 0 ↔ 128 ≤ i % 256 := by
  have hsize : ((Int8.size : Nat) : Int) = 256 := rfl
  rw [Int8.toInt_ofInt, Int.bmod_def, hsize]
  omega

/-- **When the result tells failure from success.** -/
theorem send_msg_neg_iff (m : NlMsg) {o : SendOutcome} (ho : o.Valid) :
    (sendMsg m o < 0 ↔ o.Failed) ↔ o.SignKept m := by
  cases o with
  | noBuf | noRoom => simp [sendMsg, SendOutcome.Failed, SendOutcome.SignKept]
  | sent =>
    simp only [sendMsg, SendOutcome.unicast, toInt8_neg_iff, SendOutcome.Failed, SendOutcome.SignKept, ne_eq,
      not_true_eq_false, iff_false]
    omega
  | failed errno =>
    obtain ⟨h1, -⟩ := ho
    simp only [sendMsg, SendOutcome.unicast, toInt8_neg_iff, SendOutcome.Failed, SendOutcome.SignKept, ne_eq,
      reduceCtorEq, not_false_eq_true, iff_true]
    omega

theorem send_msg_neg_iff_refused : (SendOutcome.failed 111).Valid ∧
    (sendMsg ⟨1, bytes "/a"⟩ (.failed 111) < 0 ↔ (SendOutcome.failed 111).Failed) :=
  have hvalid : (SendOutcome.failed 111).Valid := ⟨by decide, by decide⟩
  ⟨hvalid, (send_msg_neg_iff ⟨1, bytes "/a"⟩ hvalid).mpr (by decide : (111 - 1) % 256 < 128)⟩

/-- A path of 110 bytes is sent in a buffer of 128, for which the result is negative; an error 129 gives 127. -/
theorem sign_lost : let m : NlMsg := ⟨1, List.replicate 110 47⟩
    sendMsg m .sent = -128 ∧ sendMsg m (.failed 129) = 127 ∧ (SendOutcome.failed 129).Valid ∧
      ¬(sendMsg m .sent < 0 ↔ SendOutcome.sent.Failed) ∧
      ¬(sendMsg m (.failed 129) < 0 ↔ (SendOutcome.failed 129).Failed) := by
  intro m
  have hsent : sendMsg m .sent = -128 := by decide
  have herr : sendMsg m (.failed 129) = 127 := by decide
  refine ⟨hsent, herr, ⟨by decide, by decide⟩, ?_, ?_⟩
  · rw [hsent]
    simp [SendOutcome.Failed]
  · rw [herr]
    simp [SendOutcome.Failed]

end Everyfile.Kernel
