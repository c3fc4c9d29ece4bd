import Everyfile.Kernel.Mem
import Everyfile.Lib.Loop

/-!
# The message buffer at unload

`kprobe_exit` spills the buffer to the overflow log in a loop over `msg_buf_size`. The loop decrements the counter after
each call of `add_msg_to_file`, which has decremented it already, so that a pass takes one message and counts two. An
even number of messages leaves the second half of them in the buffer (`exit_even`); with an odd number the counter
passes 0 without being 0 at a test, and `add_msg_to_file` comes to the empty list (`exit_odd`).
-/

namespace Everyfile.Kernel

open Looping (run Ends Head)

namespace Mem

/-- The body of the loop: `add_msg_to_file(); msg_buf_size--`. -/
def exitPass (s : Mem) : Mem :=
  let s := s.addMsgToFile
  { s with msgBufSize := uintDec s.msgBufSize }

/-- The loop of `kprobe_exit`. A null dereference leaves it, too. -/
def exitLoop (s : Mem) : Option Mem := if s.msgBufSize = 0 ∨ s.fault = true then none else some s.exitPass

/-- What the loop is for: it is left in `u` with all messages written, in order, and none of its decrements wraps. -/
structure Drained (s u : Mem) : Prop where
  msgBuf : u.msgBuf = []
  size : u.msgBufSize = 0
  fault : u.fault = false
  written : u.written = s.written ++ s.msgBuf
  file : u.file = kernelWrite s.file (records s.msgBuf) s.pos
  falls : ∀ t t', Head exitLoop s t → exitLoop t = some t' → t'.msgBufSize < t.msgBufSize

/-! ## One pass -/

theorem uintDec_two {n : Nat} (h : n + 2 < 4294967296) : uintDec (uintDec (n + 2)) = n := by
  rw [uintDec_succ (by omega), uintDec_succ (by omega)]

theorem uintDec_odd {n : Nat} (h : n % 2 = 1) : uintDec (uintDec n) % 2 = 1 := by
  unfold uintDec
  omega

variable {s u : Mem} {m : NlMsg} {rest : List NlMsg}

theorem exitPass_cons (h : s.msgBuf = m :: rest) : s.exitPass.msgBuf = rest ∧
    s.exitPass.msgBufSize = uintDec (uintDec s.msgBufSize) ∧ s.exitPass.written = s.written ++ [m] ∧
      s.exitPass.fault = s.fault := by
  rw [exitPass, addMsgToFile_cons h]
  simp [writeRecord, unlink, h]

theorem exitPass_nil (h : s.msgBuf = []) : s.exitPass.fault = true := by
  simp [exitPass, addMsgToFile, getMsgFromList, h]

theorem exitLoop_pass (hsize : s.msgBufSize ≠ 0) (hfault : s.fault = false) : exitLoop s = some s.exitPass := by
  simp [exitLoop, hsize, hfault]

/-! ## The loop -/

/-- **An even counter**: half as many messages are written, and the rest stays in the buffer. -/
theorem exit_even {k : Nat} (hsize : s.msgBufSize = 2 * k) (hle : k ≤ s.msgBuf.length) (hlt : 2 * k < 4294967296)
    (hfault : s.fault = false) : ∃ u, Ends exitLoop s u ∧ u.msgBuf = s.msgBuf.drop k ∧ u.msgBufSize = 0 ∧
      u.fault = false ∧ u.written = s.written ++ s.msgBuf.take k := by
  induction k generalizing s with
  | zero =>
    have hexit : exitLoop s = none := by simp [exitLoop, hsize]
    exact ⟨s, .exit hexit, rfl, hsize, hfault, by simp⟩
  | succ k ih =>
    obtain ⟨m, rest, hbuf⟩ := List.exists_cons_of_length_pos (show 0 < s.msgBuf.length by omega)
    obtain ⟨hrest, hdec, hwritten, hfault'⟩ := exitPass_cons hbuf
    rw [hbuf, List.length_cons] at hle
    have hsize' : s.exitPass.msgBufSize = 2 * k := by
      have htwo : 2 * (k + 1) = 2 * k + 2 := by omega
      rw [hdec, hsize, htwo, uintDec_two (by omega)]
    obtain ⟨u, hends, hu, hzero, hok, hw⟩ :=
      ih hsize' (by rw [hrest]; omega) (by omega) (hfault'.trans hfault)
    refine ⟨u, .pass (exitLoop_pass (by omega) hfault) hends, ?_, hzero, hok, ?_⟩
    · rw [hu, hrest, hbuf, List.drop_succ_cons]
    · rw [hw, hwritten, hrest, hbuf, List.take_succ_cons, List.append_assoc]
      rfl

/-- **An odd counter** stays odd: every message is written, and then the list is empty. -/
theorem exit_odd (hsize : s.msgBufSize % 2 = 1) (hfault : s.fault = false) :
    ∃ u, Ends exitLoop s u ∧ u.fault = true := by
  have hpass := exitLoop_pass (s := s) (by omega) hfault
  induction hbuf : s.msgBuf generalizing s with
  | nil =>
    have hnull := exitPass_nil hbuf
    exact ⟨s.exitPass, .pass hpass (.exit (by simp [exitLoop, hnull])), hnull⟩
  | cons m rest ih =>
    obtain ⟨hrest, hdec, -, hfault'⟩ := exitPass_cons hbuf
    have hodd : s.exitPass.msgBufSize % 2 = 1 := by
      rw [hdec]
      exact uintDec_odd hsize
    obtain ⟨u, hends, hu⟩ := ih hodd (hfault'.trans hfault)
      (exitLoop_pass (by omega) (hfault'.trans hfault)) hrest
    exact ⟨u, .pass hpass hends, hu⟩

/-- **When the unload drains the buffer**: only where there is nothing to drain. -/
theorem drained_iff (hsize : s.msgBufSize = s.msgBuf.length) (hlt : s.msgBuf.length < 4294967296)
    (hfault : s.fault = false) :
    (∃ fuel u, run exitLoop fuel s = some u ∧ Drained s u) ↔ s.msgBuf = [] := by
  constructor
  · rintro ⟨fuel, u, hrun, hu⟩
    have hends : Ends exitLoop s u := Looping.ends_iff_run.mpr ⟨fuel, hrun⟩
    rcases Nat.mod_two_eq_zero_or_one s.msgBuf.length with heven | hodd
    · have hhalf : s.msgBufSize = 2 * (s.msgBuf.length / 2) := by omega
      obtain ⟨v, hv, hleft, -⟩ := exit_even hhalf (by omega) (by omega) hfault
      obtain rfl := hends.unique hv
      have hdrop := hu.msgBuf
      rw [hleft, List.drop_eq_nil_iff] at hdrop
      exact List.length_eq_zero_iff.mp (by omega)
    · obtain ⟨v, hv, hnull⟩ := exit_odd (by rw [hsize, hodd]) hfault
      obtain rfl := hends.unique hv
      rw [hu.fault] at hnull
      cases hnull
  · intro hnil
    have hexit : exitLoop s = none := by simp [exitLoop, hsize, hnil]
    have hfalls : ∀ t t', Head exitLoop s t → exitLoop t = some t' → t'.msgBufSize < t.msgBufSize := by
      intro t t' hhead hpass
      rw [hhead.eq_of_exit hexit, hexit] at hpass
      cases hpass
    refine ⟨1, s, by rw [run, hexit], ⟨hnil, by simp [hsize, hnil], hfault, by simp [hnil], ?_, hfalls⟩⟩
    simp [hnil, records, kernelWrite]

/-- Two messages in the buffer, and the buffer when both have been spilled: only the second is drained. -/
theorem drained_iff_spilled :
    let two : Mem := (Mem.load.link ⟨1, bytes "/a"⟩).link ⟨2, bytes "/b"⟩
    let spilled : Mem := two.addMsgToFile.addMsgToFile
    (∃ fuel u, run exitLoop fuel spilled = some u ∧ Drained spilled u) ∧ spilled.file = bytes "1 /a2 /b" ∧
      ¬∃ fuel u, run exitLoop fuel two = some u ∧ Drained two u := by
  intro two spilled
  have htwo : two.msgBuf = [⟨1, bytes "/a"⟩, ⟨2, bytes "/b"⟩] := rfl
  have hnil : spilled.msgBuf = [] := rfl
  refine ⟨(drained_iff (by decide) (by simp [hnil]) (by decide)).mpr hnil, by decide, fun h => ?_⟩
  have hempty := (drained_iff (by decide) (by simp [htwo]) (by decide)).mp h
  exact List.cons_ne_nil _ _ (htwo.symm.trans hempty)

/-- Two messages: the second one is not written. One message: a second pass finds the list empty. -/
theorem half_drained :
    let two : Mem := (Mem.load.link ⟨1, bytes "/a"⟩).link ⟨2, bytes "/b"⟩
    let one : Mem := Mem.load.link ⟨1, bytes "/a"⟩
    (∃ u, run exitLoop 2 two = some u ∧ u.msgBuf = [⟨2, bytes "/b"⟩] ∧ u.file = bytes "1 /a" ∧ u.msgBufSize = 0) ∧
      (∃ u, run exitLoop 3 one = some u ∧ u.fault = true) ∧
      ¬∃ fuel u, run exitLoop fuel two = some u ∧ Drained two u := by
  intro two one
  refine ⟨⟨two.exitPass, by decide, by decide, by decide, by decide⟩,
    ⟨one.exitPass.exitPass, by decide, by decide⟩, ?_⟩
  rintro ⟨fuel, u, hrun, hu⟩
  have hleft : Ends exitLoop two two.exitPass := Looping.ends_iff_run.mpr ⟨2, by decide⟩
  obtain rfl := (Looping.ends_iff_run.mpr ⟨fuel, hrun⟩ : Ends exitLoop two u).unique hleft
  exact absurd hu.msgBuf (by decide)

end Mem

end Everyfile.Kernel
