import Everyfile.Kernel.Threads

/-!
# The spinlocks of the kernel module

`add_vfs_changed` takes `sl_file` while it holds `sl_buf`, `send_func` takes `sl_buf` while it holds `sl_file`.
-/

namespace Everyfile.Kernel

open Locking

/-- The positions between acquisition and release of a lock. -/
def SendPc.inside : SendPc → Lock → Bool
  | .testReady, .msg | .unlockSleep, .msg | .unlockMsg, .msg => true
  | .testFileOn, .file | .sendOn, .file | .resetPos, .file | .clearOn, .file | .lockBuf, .file | .sendBuf, .file
  | .unlockBuf, .file | .unlockFile, .file => true
  | .sendBuf, .buf | .unlockBuf, .buf => true
  | _, _ => false

def HandlerPc.inside : HandlerPc → Lock → Bool
  | .setOn, .file | .unlockFile, .file => true
  | .insert _, .buf | .lockFile, .buf | .setOn, .buf | .unlockFile, .buf | .unlockBuf, .buf => true
  | _, _ => false

def RcvPc.inside : RcvPc → Lock → Bool
  | .load, .msg | .store _, .msg | .unlock, .msg => true
  | _, _ => false

def SendPc.wants : SendPc → Option Lock
  | .lockMsg => some .msg
  | .lockFile => some .file
  | .lockBuf => some .buf
  | _ => none

def HandlerPc.wants : HandlerPc → Option Lock
  | .lockBuf _ => some .buf
  | .lockFile => some .file
  | _ => none

def RcvPc.wants : RcvPc → Option Lock
  | .lockMsg => some .msg
  | _ => none

namespace State

variable {ι κ : Type*}

def inside (s : State ι κ) (l : Lock) : Tid ι κ → Bool
  | .send => s.send.inside l
  | .handler i => (s.handler i).inside l
  | .rcv k => (s.rcv k).inside l

def held (s : State ι κ) : Lock → Option (Tid ι κ)
  | .msg => s.slMsg
  | .file => s.slFile
  | .buf => s.slBuf

/-- The lock at whose acquisition a thread stands. -/
def wants (s : State ι κ) : Tid ι κ → Option Lock
  | .send => s.send.wants
  | .handler i => (s.handler i).wants
  | .rcv k => (s.rcv k).wants

end State

/-- A lock is held by the thread inside it; `send_func` releases `sl_msg` a second time after its sleep, so threads may
be inside `sl_msg` that do not hold it. -/
abbrev LockInv {ι κ : Type*} (s : State ι κ) : Prop := Owned (· ≠ .msg) s.held s.inside

section LockInv

variable {ι κ : Type*} {s s' : State ι κ}

theorem lockInv_start : LockInv (start : State ι κ) := by
  constructor
  · rintro (_ | _ | _) t h <;> cases h
  · rintro (_ | _ | _) (_ | i | k) - h <;> cases h

/-- A step of the send thread keeps the invariant if it treats each lock properly. -/
theorem LockInv.send_moves (h : LockInv s) (hh : s'.handler = s.handler) (hr : s'.rcv = s.rcv)
    (hl : ∀ l, Change (l ≠ .msg) .send (s.held l) (s'.held l) (s.send.inside l) (s'.send.inside l)) : LockInv s' := by
  refine Owned.step h .send ?_ hl
  rintro l (_ | i | k) hne
  · exact absurd rfl hne
  · simp only [State.inside, hh]
  · simp only [State.inside, hr]

theorem LockInv.handler_moves [DecidableEq ι] {i : ι} {p : HandlerPc} (h : LockInv s) (hs : s'.send = s.send)
    (hh : s'.handler = Function.update s.handler i p) (hr : s'.rcv = s.rcv)
    (hl : ∀ l, Change (l ≠ .msg) (.handler i) (s.held l) (s'.held l) ((s.handler i).inside l) (p.inside l)) :
    LockInv s' := by
  refine Owned.step h (.handler i) ?_ fun l => by simpa only [State.inside, hh, Function.update_self] using hl l
  rintro l (_ | j | k) hne
  · simp only [State.inside, hs]
  · have hj : j ≠ i := fun hj => hne (hj ▸ rfl)
    simp only [State.inside, hh, Function.update_of_ne hj]
  · simp only [State.inside, hr]

theorem LockInv.rcv_moves [DecidableEq κ] {k : κ} {p : RcvPc} (h : LockInv s) (hs : s'.send = s.send)
    (hh : s'.handler = s.handler) (hr : s'.rcv = Function.update s.rcv k p)
    (hl : ∀ l, Change (l ≠ .msg) (.rcv k) (s.held l) (s'.held l) ((s.rcv k).inside l) (p.inside l)) :
    LockInv s' := by
  refine Owned.step h (.rcv k) ?_ fun l => by simpa only [State.inside, hr, Function.update_self] using hl l
  rintro l (_ | i | j) hne
  · simp only [State.inside, hs]
  · simp only [State.inside, hh]
  · have hj : j ≠ k := fun hj => hne (hj ▸ rfl)
    simp only [State.inside, hr, Function.update_of_ne hj]

theorem LockInv.sendFunc {o : Unicast} (h : LockInv s) (hs : sendFunc s o = some s') : LockInv s' := by
  revert hs
  fun_cases Kernel.sendFunc s o <;> intro hs <;> cases hs <;> refine h.send_moves rfl rfl ?_ <;>
    rintro (_ | _ | _) <;> simp [Change, State.held, SendPc.inside, *]

theorem LockInv.addVfsChanged [DecidableEq ι] {i : ι} (h : LockInv s) (hs : addVfsChanged s i = some s') :
    LockInv s' := by
  revert hs
  fun_cases Kernel.addVfsChanged s i <;> intro hs <;> cases hs <;> refine h.handler_moves rfl rfl rfl ?_ <;>
    rintro (_ | _ | _) <;> simp [Change, State.held, State.setHandler, HandlerPc.inside, *]

theorem LockInv.rcvMsg [DecidableEq κ] {k : κ} (h : LockInv s) (hs : rcvMsg s k = some s') : LockInv s' := by
  revert hs
  fun_cases Kernel.rcvMsg s k <;> intro hs <;> cases hs <;> refine h.rcv_moves rfl rfl rfl ?_ <;>
    rintro (_ | _ | _) <;> simp [Change, State.held, State.setRcv, RcvPc.inside, *]

variable [DecidableEq ι] [DecidableEq κ]

theorem LockInv.step {a : Act ι κ} (h : LockInv s) (hs : step s a = some s') : LockInv s' := by
  cases a with
  | send o => exact h.sendFunc hs
  | call i m =>
    obtain ⟨hidle, hs⟩ := Option.ite_none_right_eq_some.mp hs
    cases hs
    refine h.handler_moves rfl rfl rfl ?_
    rintro (_ | _ | _) <;> simp [Change, State.held, State.setHandler, HandlerPc.inside, hidle]
  | handler i => exact h.addVfsChanged hs
  | arrive k =>
    obtain ⟨⟨hidle, -⟩, hs⟩ := Option.ite_none_right_eq_some.mp hs
    cases hs
    refine h.rcv_moves rfl rfl rfl ?_
    rintro (_ | _ | _) <;> simp [Change, State.held, State.setRcv, RcvPc.inside, hidle]
  | rcv k => exact h.rcvMsg hs
  | timeout =>
    cases hs
    exact ⟨h.inside_of_held, h.held_of_inside⟩
  | recv now =>
    revert hs
    simp only [Kernel.step]
    fun_cases efKernelConn s now <;> intro hs <;> cases hs
    exact ⟨h.inside_of_held, h.held_of_inside⟩

theorem LockInv.of_reach {ok : State ι κ → Act ι κ → Prop} (h : (system ι κ).Reach ok s) : LockInv s :=
  system_invariant lockInv_start (fun _ _ _ hi _ hs => LockInv.step hi hs) h

end LockInv

end Everyfile.Kernel
