import Everyfile.Kernel.Threads

/-!
# Sending on request

A control message counted in `msg_ready` asks for one message. A pass of `send_func` that finds `msg_ready` equal to 0
sleeps, and then goes on to the sending code all the same: it sends whatever is there, asked or not
(`unasked_send`). In the runs in which a pass that has slept sends only where at least two control messages have been
counted since its test (`Asked`: one for the message it sends, one left for the next pass), the module sends on request
(`send_on_request`).
-/

namespace Everyfile.Kernel

section Request

variable {ι κ : Type*}

/-- At most one message has been sent for each control message counted, and a pass that found `msg_ready` equal to 0
has sent nothing as long as no further control message has been counted. -/
def OnRequest (s : State ι κ) : Prop :=
  s.mem.unicasts ≤ s.mem.counted ∧
    ∀ p, s.slept = some p → s.mem.counted = p.counted → s.mem.unicasts = p.unicasts

/-- The next step of the send thread calls `netlink_unicast`. -/
def SendsNow (s : State ι κ) (o : Unicast) : Prop :=
  o ≠ .noBuf ∧ (s.send = .sendOn ∨ s.send = .sendBuf ∧ 0 < s.mem.msgBufSize)

/-- The step is not a send of a pass that has slept, or two control messages have been counted since its test. -/
def Asked (s : State ι κ) (a : Act ι κ) : Prop :=
  ∀ o p, a = .send o → s.slept = some p → SendsNow s o → p.counted + 2 ≤ s.mem.counted

/-- The positions of a pass between its test of `msg_ready` and its send. -/
def SendPc.beforeSend : SendPc → Bool
  | .unlockSleep | .sleep | .unlockMsg | .lockFile | .testFileOn | .sendOn | .lockBuf | .sendBuf => true
  | _ => false

/-- What a pass that has taken `msg_ready` may still send. -/
def State.credit (s : State ι κ) : Nat := if s.slept = none ∧ s.send.beforeSend then 1 else 0

/-- What `msg_ready` will let a pass send. -/
def Mem.asked (m : Mem) : Nat := if m.msgReady = 0 then 0 else 1

/-- The invariant: messages sent and still to be sent are covered by the control messages counted; a pass that has
slept starts from no debt, and sends only where two control messages have come in since. -/
structure RequestInv (s : State ι κ) : Prop where
  covered : s.mem.unicasts + s.mem.asked + s.credit ≤ s.mem.counted
  paused : ∀ p, s.slept = some p → p.unicasts ≤ p.counted ∧ p.counted ≤ s.mem.counted ∧
    (s.mem.unicasts = p.unicasts ∨ s.mem.unicasts = p.unicasts + 1 ∧ p.counted + 2 ≤ s.mem.counted)
  waiting : ∀ p, s.slept = some p → s.send.beforeSend → s.mem.unicasts = p.unicasts

theorem RequestInv.onRequest {s : State ι κ} (h : RequestInv s) : OnRequest s := by
  refine ⟨by have := h.covered; omega, fun p hp hc => ?_⟩
  rcases (h.paused p hp).2.2 with hu | ⟨-, hu⟩
  · exact hu
  · omega

theorem requestInv_start : RequestInv (start : State ι κ) := by
  constructor <;> simp [start, Mem.load, Mem.asked, State.credit, SendPc.beforeSend]

/-- The invariant reads the counters and whether the send thread is before its send. -/
theorem RequestInv.frame {s s' : State ι κ} (h : RequestInv s) (hu : s'.mem.unicasts = s.mem.unicasts)
    (hc : s'.mem.counted = s.mem.counted) (hr : s'.mem.msgReady = s.mem.msgReady)
    (hs : s'.send.beforeSend = s.send.beforeSend) (hp : s'.slept = s.slept) : RequestInv s' := by
  refine ⟨?_, ?_, ?_⟩
  · simpa only [Mem.asked, State.credit, hu, hc, hr, hs, hp] using h.covered
  · simpa only [hu, hc, hp] using h.paused
  · simpa only [hu, hs, hp] using h.waiting

/-- A step that sends: its pass had credit, or had slept and was asked twice since. -/
theorem RequestInv.sent {s s' : State ι κ} {o : Unicast} (h : RequestInv s) (hok : Asked s (.send o))
    (hpc : s.send = .sendOn ∨ s.send = .sendBuf) (hafter : s'.send.beforeSend = false)
    (hu : s'.mem.unicasts = s.mem.unicasts ∨ s'.mem.unicasts = s.mem.unicasts + 1 ∧ SendsNow s o)
    (hc : s'.mem.counted = s.mem.counted) (hr : s'.mem.msgReady = s.mem.msgReady) (hp : s'.slept = s.slept) :
    RequestInv s' := by
  have hbefore : s.send.beforeSend = true := by rcases hpc with hpc | hpc <;> rw [hpc] <;> rfl
  have hcov := h.covered
  have hasked : s'.mem.asked = s.mem.asked := by simp only [Mem.asked, hr]
  have hcredit : s'.credit = 0 := by simp [State.credit, hafter]
  rcases hu with hu | ⟨hu, hsend⟩
  · refine ⟨by rw [hu, hasked, hcredit, hc]; omega, ?_, by simp [hafter]⟩
    simpa only [hu, hc, hp] using h.paused
  · cases hsl : s.slept with
    | none =>
      have h1 : s.credit = 1 := by simp [State.credit, hsl, hbefore]
      exact ⟨by rw [hu, hasked, hcredit, hc]; omega, by simp [hp, hsl], by simp [hafter]⟩
    | some p =>
      have htwo := hok o p rfl hsl hsend
      obtain ⟨hle, hlt, -⟩ := h.paused p hsl
      have hq := h.waiting p hsl hbefore
      have h1 : s.mem.asked ≤ 1 := by unfold Mem.asked; split <;> omega
      refine ⟨by rw [hu, hasked, hcredit, hc]; omega, fun q hqs => ?_, by simp [hafter]⟩
      obtain rfl : q = p := by rw [hp, hsl] at hqs; exact (Option.some.inj hqs).symm
      exact ⟨hle, by omega, .inr ⟨by omega, by omega⟩⟩

/-- The test of `msg_ready`: what it takes becomes the credit of the pass; where it finds 0 the pass begins a pause. -/
theorem RequestInv.test {s : State ι κ} (h : RequestInv s) :
    (s.mem.msgReady ≠ 0 → RequestInv { s with mem := s.mem.takeReady, slept := none, send := .unlockMsg }) ∧
      RequestInv { s with slept := some ⟨s.mem.counted, s.mem.unicasts⟩, send := .unlockSleep } := by
  have hcov := h.covered
  constructor
  · intro hne
    refine ⟨?_, by simp, by simp⟩
    simp only [Mem.asked, hne, if_false] at hcov
    simp [Mem.takeReady, Mem.asked, State.credit, SendPc.beforeSend]
    omega
  · refine ⟨?_, ?_, ?_⟩
    · simp [Mem.asked, State.credit] at hcov ⊢
      omega
    · rintro p ⟨⟩
      exact ⟨by simp only; omega, le_rfl, .inl rfl⟩
    · rintro p ⟨⟩ -
      rfl

/-- The send thread keeps the invariant. -/
theorem RequestInv.sendFunc {s s' : State ι κ} {o : Unicast} (h : RequestInv s) (hok : Asked s (.send o))
    (hs : sendFunc s o = some s') : RequestInv s' := by
  cases hpc : s.send with
  | testReady =>
    simp only [Kernel.sendFunc, hpc] at hs
    split at hs <;> cases hs
    · exact h.test.1 ‹_›
    · exact h.test.2
  | sendOn =>
    simp only [Kernel.sendFunc, hpc, Option.some.injEq] at hs
    subst hs
    refine h.sent hok (.inl hpc) rfl ?_ (by simp) (by simp) rfl
    exact (s.mem.unicasts_sendFileOn o).imp_right fun ⟨hu, hne⟩ => ⟨hu, hne, .inl hpc⟩
  | sendBuf =>
    simp only [Kernel.sendFunc, hpc, Option.some.injEq] at hs
    subst hs
    refine h.sent hok (.inr hpc) rfl ?_ (by simp) (by simp) rfl
    exact (s.mem.unicasts_sendHead o).imp_right fun ⟨hu, hne, hpos⟩ => ⟨hu, hne, .inr ⟨hpc, hpos⟩⟩
  | _ =>
    -- the other positions neither send nor count, and stay on their side of the send
    simp only [Kernel.sendFunc, hpc] at hs
    try split at hs
    all_goals
      cases hs
      try exact h.frame rfl rfl rfl (by rw [hpc]; rfl) rfl

/-- A probe handler keeps the invariant. -/
theorem RequestInv.addVfsChanged [DecidableEq ι] {s s' : State ι κ} {i : ι} (h : RequestInv s)
    (hs : addVfsChanged s i = some s') : RequestInv s' := by
  revert hs
  fun_cases Kernel.addVfsChanged s i <;> intro hs <;> cases hs <;>
    exact h.frame (by simp [State.setHandler, Mem.setFileOn]) (by simp [State.setHandler, Mem.setFileOn])
      (by simp [State.setHandler, Mem.setFileOn]) rfl rfl

/-- A CPU in `rcv_msg` keeps the invariant: its store counts a control message. -/
theorem RequestInv.rcvMsg [DecidableEq κ] {s s' : State ι κ} {k : κ} (h : RequestInv s)
    (hs : rcvMsg s k = some s') : RequestInv s' := by
  cases hpc : s.rcv k with
  | store v =>
    simp only [Kernel.rcvMsg, hpc, Option.some.injEq] at hs
    subst hs
    have hcov := h.covered
    have h1 : (s.mem.storeReady v).asked ≤ 1 := by unfold Mem.asked; split <;> omega
    refine ⟨?_, fun p hp => ?_, h.waiting⟩
    · show s.mem.unicasts + (s.mem.storeReady v).asked + s.credit ≤ s.mem.counted + 1
      omega
    · obtain ⟨hle, hlt, hu⟩ := h.paused p hp
      exact ⟨hle, Nat.le_succ_of_le hlt, hu.imp_right fun ⟨hu, h2⟩ => ⟨hu, Nat.le_succ_of_le h2⟩⟩
  | _ =>
    simp only [Kernel.rcvMsg, hpc] at hs
    try split at hs
    all_goals
      cases hs
      try exact h.frame rfl rfl rfl rfl rfl

variable [DecidableEq ι] [DecidableEq κ]

theorem RequestInv.step {s s' : State ι κ} {a : Act ι κ} (h : RequestInv s) (hok : Asked s a)
    (hs : step s a = some s') : RequestInv s' := by
  cases a with
  | send o => exact h.sendFunc hok hs
  | call i m =>
    obtain ⟨-, hs⟩ := Option.ite_none_right_eq_some.mp hs
    cases hs
    exact h.frame rfl rfl rfl rfl rfl
  | handler i => exact h.addVfsChanged hs
  | arrive k =>
    obtain ⟨-, hs⟩ := Option.ite_none_right_eq_some.mp hs
    cases hs
    exact h.frame rfl rfl rfl rfl rfl
  | rcv k => exact h.rcvMsg hs
  | timeout =>
    cases hs
    exact h.frame rfl rfl rfl rfl rfl
  | recv now =>
    revert hs
    simp only [Kernel.step]
    fun_cases efKernelConn s now <;> intro hs <;> cases hs
    exact h.frame rfl rfl rfl rfl rfl

/-- **Sending on request**, in the runs in which a pass that has slept does not send unasked. -/
theorem send_on_request {s : State ι κ} (h : (system ι κ).Reach Asked s) : OnRequest s :=
  (system_invariant requestInv_start (fun _ _ _ hi hok hs => RequestInv.step hi hok hs) h).onRequest

end Request

/-- A pass that has taken its control message sends one message. -/
theorem send_on_request_once : ∃ s : State Unit Unit, s.mem.unicasts = 1 ∧ OnRequest s := by
  obtain ⟨s, hs, hp⟩ := Transition.System.reach_of_runIf (system Unit Unit) start Asked
    (fun s _ => s.slept.isNone) (fun s a ht o p _ hp => by simp [hp] at ht) rfl
    (control ++ submit ⟨1, bytes "/a"⟩ ++ sends 9 .delivered)
    (fun s => decide (s.mem.unicasts = 1)) (by decide)
  exact ⟨s, of_decide_eq_true hp, send_on_request hs⟩

/-- One control message has asked for one message; the second pass finds `msg_ready` equal to 0, sleeps ten seconds and
sends the second message. -/
theorem unasked_send : ∃ s : State Unit Unit, (system Unit Unit).Reachable s ∧ ¬OnRequest s := by
  obtain ⟨s, hs, hp⟩ := Transition.System.reachable_of_run (system Unit Unit) start rfl
    (control ++ submit ⟨1, bytes "/a"⟩ ++ submit ⟨2, bytes "/a"⟩ ++ sends 18 .delivered)
    (fun s => decide (s.mem.unicasts = 2 ∧ s.mem.counted = 1)) (by decide)
  obtain ⟨hu, hc⟩ := of_decide_eq_true hp
  exact ⟨s, hs, fun h => by have := h.1; omega⟩

end Everyfile.Kernel
