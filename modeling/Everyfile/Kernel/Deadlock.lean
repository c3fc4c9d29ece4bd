import Everyfile.Kernel.Locks

/-!
# Circular wait

`add_vfs_changed` asks for `sl_file` while it holds `sl_buf`, `send_func` asks for `sl_buf` while it holds `sl_file`.
The threads wait for one another in a circle exactly when the two stand at these acquisitions at the same time
(`circularWait_iff_crossed`). A run comes to such a state by the first step that is not `Ordered` and by no other
(`crossed_step_iff`): a handler whose message overflows the buffer while the send thread stands at `sl_buf`, or a send
thread that finds `file_on` clear while a handler stands at `sl_file`. A full buffer is enough for it
(`circular_wait_reachable`).
-/

namespace Everyfile.Kernel

open Locking

section Deadlock

variable {ι κ : Type*} {s s' : State ι κ}

/-- The send thread stands at `sl_buf` and a handler at `sl_file`. -/
def Crossed (s : State ι κ) : Prop := s.send = .lockBuf ∧ ∃ i, s.handler i = .lockFile

/-- The step does not begin the second of the two nested acquisitions while the other is under way. -/
def Ordered (s : State ι κ) : Act ι κ → Prop
  | .send _ => s.send = .testFileOn → s.mem.fileOn = false → ∀ i, s.handler i ≠ .lockFile
  | .handler i => ∀ m, s.handler i = .insert m → s.mem.overflows m = true → s.send ≠ .lockBuf
  | _ => True

/-- The order of the locks that the nested acquisition under way respects. -/
def State.rank (s : State ι κ) : Lock → ℕ
  | .msg => 0
  | .file => if s.send = .lockBuf then 0 else 1
  | .buf => if s.send = .lockBuf then 1 else 0

/-- A thread that stands at an acquisition holds at most one lock, and in one of two places. -/
theorem LockInv.nested (h : LockInv s) {t : Tid ι κ} {l l' : Lock} (hheld : s.held l = some t)
    (hwants : s.wants t = some l') :
    t = .send ∧ s.send = .lockBuf ∧ l = .file ∧ l' = .buf ∨
      ∃ i, t = .handler i ∧ s.handler i = .lockFile ∧ l = .buf ∧ l' = .file := by
  have hin := h.inside_of_held hheld
  cases t with
  | send =>
    left
    simp only [State.inside, State.wants] at hin hwants
    cases hpc : s.send <;> rw [hpc] at hin hwants <;> cases l <;> cases hin <;> cases hwants
    exact ⟨rfl, rfl, rfl, rfl⟩
  | handler i =>
    right
    simp only [State.inside, State.wants] at hin hwants
    cases hpc : s.handler i <;> rw [hpc] at hin hwants <;> cases l <;> cases hin <;> cases hwants
    exact ⟨i, rfl, hpc, rfl, rfl⟩
  | rcv k =>
    simp only [State.inside, State.wants] at hin hwants
    cases hpc : s.rcv k <;> rw [hpc] at hin hwants <;> cases l <;> cases hin <;> cases hwants

/-- Threads wait in a circle exactly when the two nested acquisitions have crossed. -/
theorem circularWait_iff_crossed (h : LockInv s) : CircularWait s.held s.wants ↔ Crossed s := by
  constructor
  · contrapose
    intro hx
    refine no_circularWait_of_rank s.rank (N := 1) ?_ fun t l l' hheld hwants => ?_
    · rintro (_ | _ | _) <;> simp only [State.rank] <;> first | omega | split <;> omega
    · rcases h.nested hheld hwants with ⟨-, hpc, rfl, rfl⟩ | ⟨i, -, hpc, rfl, rfl⟩
      · simp [State.rank, hpc]
      · have hne : s.send ≠ .lockBuf := fun hs => hx ⟨hs, i, hpc⟩
        simp [State.rank, hne]
  · rintro ⟨hs, i, hi⟩
    have hfile : s.held .file = some .send := h.held_of_inside (by decide) (by simp only [State.inside, hs]; rfl)
    have hbuf : s.held .buf = some (.handler i) :=
      h.held_of_inside (by decide) (by simp only [State.inside, hi]; rfl)
    refine circularWait_of_pair (t := .send) (u := .handler i) (by simp) ⟨.buf, ?_, hbuf⟩ ⟨.file, ?_, hfile⟩
    · simp only [State.wants, hs]; rfl
    · simp only [State.wants, hi]; rfl

/-- A step of the send thread crosses the acquisitions exactly when it is not ordered. -/
theorem crossed_sendFunc_iff {o : Unicast} (hs : sendFunc s o = some s') :
    Crossed s' ↔ s.send = .testFileOn ∧ s.mem.fileOn = false ∧ ∃ i, s.handler i = .lockFile := by
  revert hs
  fun_cases sendFunc s o <;> intro hs <;> cases hs <;> simp [Crossed, *]

/-- Moving one handler crosses the acquisitions exactly when it moves to `sl_file` while the send thread stands at
`sl_buf`. -/
theorem crossed_update_iff [DecidableEq ι] {i : ι} {p : HandlerPc} (hx : ¬Crossed s) (hs : s'.send = s.send)
    (hh : s'.handler = Function.update s.handler i p) : Crossed s' ↔ s.send = .lockBuf ∧ p = .lockFile := by
  simp only [Crossed, hs, hh]
  refine and_congr_right fun hb => ⟨?_, fun hp => ⟨i, by simp [hp]⟩⟩
  rintro ⟨j, hj⟩
  by_cases hji : j = i
  · simpa [hji] using hj
  · rw [Function.update_of_ne hji] at hj
    exact absurd ⟨hb, j, hj⟩ hx

theorem crossed_addVfsChanged_iff [DecidableEq ι] {i : ι} (hx : ¬Crossed s) (hs : addVfsChanged s i = some s') :
    Crossed s' ↔ s.send = .lockBuf ∧ ∃ m, s.handler i = .insert m ∧ s.mem.overflows m = true := by
  revert hs
  fun_cases addVfsChanged s i <;> intro hs <;> cases hs <;>
    refine Iff.trans (crossed_update_iff hx (by rfl) (by rfl)) ?_ <;> simp [*]

variable [DecidableEq ι] [DecidableEq κ]

/-- **The step that crosses the acquisitions**: the first one that is not ordered. -/
theorem crossed_step_iff {a : Act ι κ} (hx : ¬Crossed s) (hs : step s a = some s') : Crossed s' ↔ ¬Ordered s a := by
  cases a with
  | send o =>
    rw [crossed_sendFunc_iff hs]
    simp [Ordered]
  | handler i =>
    rw [crossed_addVfsChanged_iff hx hs]
    simp only [Ordered]
    grind
  | call i m =>
    obtain ⟨-, hs⟩ := Option.ite_none_right_eq_some.mp hs
    cases hs
    have hcross : Crossed (s.setHandler i (.lockBuf m)) ↔ _ := crossed_update_iff hx rfl rfl
    rw [hcross]
    simp [Ordered]
  | arrive k =>
    obtain ⟨-, hs⟩ := Option.ite_none_right_eq_some.mp hs
    cases hs
    simpa [Ordered, Crossed, State.setRcv] using hx
  | rcv k =>
    have hsame : s'.send = s.send ∧ s'.handler = s.handler := by
      revert hs
      simp only [step]
      fun_cases rcvMsg s k <;> intro hs <;> cases hs <;> exact ⟨rfl, rfl⟩
    simpa [Ordered, Crossed, hsame] using hx
  | timeout =>
    cases hs
    simpa [Ordered, Crossed] using hx
  | recv now =>
    have hsame : s'.send = s.send ∧ s'.handler = s.handler := by
      revert hs
      simp only [step]
      fun_cases efKernelConn s now <;> intro hs <;> cases hs
      exact ⟨rfl, rfl⟩
    simpa [Ordered, Crossed, hsame] using hx

theorem not_crossed_of_reach (h : (system ι κ).Reach Ordered s) : ¬Crossed s :=
  system_invariant (P := fun s => ¬Crossed s) (by simp [Crossed, start])
    (fun _ _ _ hx hok hs hc => (crossed_step_iff hx hs).mp hc hok) h

/-- **Circular wait.** A run whose steps are ordered meets no circular wait, and its next step leads to one exactly when
it is not ordered. -/
theorem circular_wait_iff_unordered (h : (system ι κ).Reach Ordered s) :
    ¬CircularWait s.held s.wants ∧
      ∀ a s', step s a = some s' → (CircularWait s'.held s'.wants ↔ ¬Ordered s a) := by
  have hx := not_crossed_of_reach h
  have hl := LockInv.of_reach h
  refine ⟨fun hc => hx ((circularWait_iff_crossed hl).mp hc), fun a s' hs => ?_⟩
  rw [circularWait_iff_crossed (hl.step hs), crossed_step_iff hx hs]

end Deadlock

/-- One handler fills the buffer and goes on to link one message more, inside `sl_buf`; the send thread takes `sl_file`
and goes for `sl_buf`. -/
def toNested : List (Act Unit Unit) :=
  (List.replicate 128 (submit ⟨1, bytes "/a"⟩)).flatten ++ [.call () ⟨1, bytes "/a"⟩, .handler ()] ++ control ++
    sends 5 .delivered

/-- The handler finds the buffer full and goes for `sl_file`. -/
theorem circular_wait_reachable : ∃ s : State Unit Unit, (system Unit Unit).Reachable s ∧
    CircularWait s.held s.wants := by
  obtain ⟨s, hs, hp⟩ := Transition.System.reachable_of_run (system Unit Unit) start rfl (toNested ++ [.handler ()])
    (fun s => decide (s.send = .lockBuf ∧ s.handler () = .lockFile)) (by decide +kernel)
  obtain ⟨hsend, hh⟩ := of_decide_eq_true hp
  exact ⟨s, hs, (circularWait_iff_crossed (LockInv.of_reach hs)).mpr ⟨hsend, (), hh⟩⟩

/-- The send thread does not move while the handler stands at `sl_file`, nor the handler while the send thread stands at
`sl_buf`. -/
def keepsOrder (s : State Unit Unit) : Act Unit Unit → Bool
  | .send _ => decide (s.handler () ≠ .lockFile)
  | .handler _ => decide (s.send ≠ .lockBuf)
  | _ => true

theorem ordered_of_keepsOrder {s : State Unit Unit} {a : Act Unit Unit} (h : keepsOrder s a = true) : Ordered s a := by
  cases a with
  | send o => exact fun _ _ _ => of_decide_eq_true h
  | handler i => exact fun _ _ _ => of_decide_eq_true h
  | _ => trivial

/-- Up to the handler's next step the run is ordered: the send thread waits inside `sl_file` for a handler that is still
moving inside `sl_buf`. -/
theorem circular_wait_iff_unordered_nested : ∃ s : State Unit Unit, s.send = .lockBuf ∧ s.slFile = some .send ∧
    s.slBuf = some (.handler ()) ∧ s.mem.msgBufSize = MAX_MSG_BUF_LEN ∧ ¬CircularWait s.held s.wants ∧
      ∀ a s', step s a = some s' → (CircularWait s'.held s'.wants ↔ ¬Ordered s a) := by
  obtain ⟨s, hs, hp⟩ := Transition.System.reach_of_runIf (system Unit Unit) start Ordered keepsOrder
    (fun s a h => ordered_of_keepsOrder h) rfl toNested
    (fun s => decide (s.send = .lockBuf ∧ s.slFile = some .send ∧ s.slBuf = some (.handler ()) ∧
      s.mem.msgBufSize = MAX_MSG_BUF_LEN)) (by decide +kernel)
  obtain ⟨hsend, hfile, hbuf, hfull⟩ := of_decide_eq_true hp
  exact ⟨s, hsend, hfile, hbuf, hfull, circular_wait_iff_unordered hs⟩

end Everyfile.Kernel
