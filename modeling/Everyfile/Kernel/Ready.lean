import Everyfile.Kernel.Locks

/-!
# Mutual exclusion on `msg_ready`

`send_func` and `rcv_msg` change `msg_ready` inside of `sl_msg`. A pass of `send_func` that finds it equal to 0 releases
the lock, sleeps, and then comes to the release at the end of the test once more: it frees the lock of a receiver, and
two receivers may load the same value (`increment_lost`). In the runs without this second release every release is made
by the holder, at most one thread is inside, and `msg_ready` is the number of increments since its last reset
(`by_holder_iff_awake`).
-/

namespace Everyfile.Kernel

open Locking

section Ready

variable {ι κ : Type*} {s s' : State ι κ}

/-- The positions between the acquisition of `sl_msg` and its release; after a sleep there is a second release ahead,
and no acquisition behind. -/
def SendPc.insideMsg (slept : Option Pause) : SendPc → Bool
  | .testReady | .unlockSleep => true
  | .unlockMsg => slept.isNone
  | _ => false

def State.insideMsg (s : State ι κ) : Tid ι κ → Bool
  | .send => s.send.insideMsg s.slept
  | .handler _ => false
  | .rcv k => (s.rcv k).inside .msg

/-- The step of thread `t` releases `sl_msg`. -/
def Releases (s : State ι κ) (t : Tid ι κ) : Act ι κ → Prop
  | .send _ => t = .send ∧ (s.send = .unlockSleep ∨ s.send = .unlockMsg)
  | .rcv k => t = .rcv k ∧ s.rcv k = .unlock
  | _ => False

def ByHolder (s : State ι κ) (a : Act ι κ) : Prop := ∀ t, Releases s t a → s.slMsg = some t

/-- The step is not the release at the end of the test after a sleep. -/
def Awake (s : State ι κ) (a : Act ι κ) : Prop := ∀ o, a = .send o → s.send = .unlockMsg → s.slept = none

/-- Along a run: the increments of `msg_ready` since its last reset. -/
def sinceReset (s : State ι κ) : Act ι κ → Nat → Nat
  | .send _, n => if s.send = .testReady ∧ s.mem.msgReady ≠ 0 then 0 else n
  | .rcv k, n =>
    match s.rcv k with
    | .store _ => n + 1
    | _ => n
  | _, n => n

/-- The invariant: threads inside hold the lock, a receiver that has loaded `msg_ready` stores one more than it is, and
it counts the increments. -/
structure ReadyInv (s : State ι κ) (n : Nat) : Prop where
  owned : Owned (fun _ : Unit => True) (fun _ => s.slMsg) fun _ => s.insideMsg
  slept : s.send = .unlockSleep ∨ s.send = .sleep → s.slept ≠ none
  loaded : ∀ k v, s.rcv k = .store v → s.mem.msgReady = v
  count : s.mem.msgReady = n % 4294967296

theorem readyInv_start : ReadyInv (start : State ι κ) 0 := by
  refine ⟨⟨?_, ?_⟩, ?_, ?_, rfl⟩
  · rintro - t h
    cases h
  · rintro - (_ | i | k) - h <;> cases h
  · rintro (h | h) <;> cases h
  · intro k v h
    cases h

/-- A thread is alone inside. -/
theorem ReadyInv.alone {n : Nat} (h : ReadyInv s n) {t u : Tid ι κ} (ht : s.insideMsg t = true)
    (hu : s.insideMsg u = true) : t = u :=
  h.owned.exclusive (l := ()) trivial ht hu

/-- While the send thread is inside, no receiver has loaded `msg_ready`. -/
theorem ReadyInv.not_loaded {n : Nat} (h : ReadyInv s n) (hs : s.insideMsg .send = true) (k : κ) (v : Nat) :
    s.rcv k ≠ .store v := by
  intro hk
  have hin : s.insideMsg (.rcv k) = true := by simp only [State.insideMsg, hk]; rfl
  cases h.alone hs hin

/-- A step that changes nothing of it. -/
theorem ReadyInv.frame {n : Nat} (h : ReadyInv s n) (hl : s'.slMsg = s.slMsg) (hp : s'.send = s.send)
    (hr : s'.rcv = s.rcv) (hsl : s'.slept = s.slept) (hm : s'.mem.msgReady = s.mem.msgReady) : ReadyInv s' n := by
  have hin : s'.insideMsg = s.insideMsg := by
    funext t
    cases t <;> simp only [State.insideMsg, hp, hr, hsl]
  refine ⟨?_, ?_, ?_, ?_⟩
  · simpa only [hl, hin] using h.owned
  · simpa only [hp, hsl] using h.slept
  · simpa only [hr, hm] using h.loaded
  · rw [hm, h.count]

/-- The send thread moves. -/
theorem ReadyInv.send_moves {n n' : Nat} (h : ReadyInv s n) (hr : s'.rcv = s.rcv)
    (hl : Change True .send s.slMsg s'.slMsg (s.insideMsg .send) (s'.insideMsg .send))
    (hsl : s'.send = .unlockSleep ∨ s'.send = .sleep → s'.slept ≠ none)
    (hm : s'.mem.msgReady = s.mem.msgReady ∧ n' = n ∨
      s.insideMsg .send = true ∧ s'.mem.msgReady = 0 ∧ n' = 0) : ReadyInv s' n' := by
  refine ⟨h.owned.step .send ?_ fun _ => hl, hsl, ?_, ?_⟩
  · rintro - (_ | i | k) hne
    · exact absurd rfl hne
    · rfl
    · simp only [State.insideMsg, hr]
  · intro k v hk
    rw [hr] at hk
    rcases hm with ⟨hm, -⟩ | ⟨hin, -, -⟩
    · rw [hm, h.loaded k v hk]
    · exact absurd hk (h.not_loaded hin k v)
  · rcases hm with ⟨hm, rfl⟩ | ⟨-, hm, rfl⟩
    · rw [hm, h.count]
    · exact hm

/-- A receiver moves. -/
theorem ReadyInv.rcv_moves [DecidableEq κ] {n n' : Nat} {k : κ} {p : RcvPc} (h : ReadyInv s n) (hp : s'.send = s.send)
    (hr : s'.rcv = Function.update s.rcv k p) (hsl : s'.slept = s.slept)
    (hl : Change True (.rcv k) s.slMsg s'.slMsg ((s.rcv k).inside .msg) (p.inside .msg))
    (hv : ∀ v, p = .store v → s'.mem.msgReady = v)
    (hm : s'.mem.msgReady = s.mem.msgReady ∧ n' = n ∨
      s.insideMsg (.rcv k) = true ∧ s'.mem.msgReady = uintInc s.mem.msgReady ∧ n' = n + 1) : ReadyInv s' n' := by
  have hother : ∀ j, j ≠ k → s'.rcv j = s.rcv j := by
    intro j hj
    rw [hr, Function.update_of_ne hj]
  have hself : s'.rcv k = p := by rw [hr, Function.update_self]
  refine ⟨h.owned.step (.rcv k) ?_ fun _ => by simpa only [State.insideMsg, hself] using hl, ?_, ?_, ?_⟩
  · rintro - (_ | i | j) hne
    · simp only [State.insideMsg, hp, hsl]
    · rfl
    · have hj : j ≠ k := fun hj => hne (hj ▸ rfl)
      simp only [State.insideMsg, hother j hj]
  · simpa only [hp, hsl] using h.slept
  · intro j v hj
    by_cases hjk : j = k
    · exact hv v (by rw [← hself, ← hjk, hj])
    · rw [hother j hjk] at hj
      rcases hm with ⟨hm, -⟩ | ⟨hin, -, -⟩
      · rw [hm, h.loaded j v hj]
      · -- the receiver that stores is alone inside
        have hin' : s.insideMsg (.rcv j) = true := by simp only [State.insideMsg, hj]; rfl
        exact absurd (Tid.rcv.inj (h.alone hin' hin)) hjk
  · rcases hm with ⟨hm, rfl⟩ | ⟨-, hm, rfl⟩
    · rw [hm, h.count]
    · rw [hm, h.count, uintInc]
      omega

theorem ReadyInv.sendFunc {n : Nat} {o : Unicast} (h : ReadyInv s n) (hok : Awake s (.send o))
    (hs : sendFunc s o = some s') : ReadyInv s' (sinceReset s (.send o) n) := by
  have hawake := hok o rfl
  have hsleep := h.slept
  revert hs
  fun_cases Kernel.sendFunc s o <;> intro hs <;> cases hs <;> refine h.send_moves rfl ?_ ?_ ?_ <;>
    simp_all [Change, State.insideMsg, SendPc.insideMsg, sinceReset, Mem.takeReady, Mem.resetPos, Mem.setFileOn,
      Option.isSome_iff_ne_none]

theorem ReadyInv.addVfsChanged [DecidableEq ι] {n : Nat} {i : ι} (h : ReadyInv s n)
    (hs : addVfsChanged s i = some s') : ReadyInv s' n := by
  revert hs
  fun_cases Kernel.addVfsChanged s i <;> intro hs <;> cases hs <;>
    exact h.frame rfl rfl rfl rfl (by simp [State.setHandler, Mem.setFileOn])

theorem ReadyInv.rcvMsg [DecidableEq κ] {n : Nat} {k : κ} (h : ReadyInv s n) (hs : rcvMsg s k = some s') :
    ReadyInv s' (sinceReset s (.rcv k) n) := by
  revert hs
  fun_cases Kernel.rcvMsg s k <;> intro hs <;> cases hs <;> refine h.rcv_moves rfl rfl rfl ?_ ?_ ?_ <;>
    simp_all [Change, State.insideMsg, State.setRcv, RcvPc.inside, sinceReset, Mem.storeReady, h.loaded k]

/-- A step releases as the holder, unless it comes from a sleep. -/
theorem ReadyInv.byHolder_iff {n : Nat} (h : ReadyInv s n) (a : Act ι κ) : ByHolder s a ↔ Awake s a := by
  have hheld : ∀ {t : Tid ι κ}, s.insideMsg t = true → s.slMsg = some t := fun ht =>
    h.owned.held_of_inside (l := ()) trivial ht
  constructor
  · rintro hby o rfl hpc
    -- the holder is inside, so there was no sleep
    have hin : s.insideMsg .send = true := h.owned.inside_of_held (l := ()) (hby .send ⟨rfl, .inr hpc⟩)
    simpa [State.insideMsg, SendPc.insideMsg, hpc] using hin
  · intro hawake t ht
    cases a with
    | send o =>
      obtain ⟨rfl, hpc | hpc⟩ := ht
      · exact hheld (by simp only [State.insideMsg, hpc]; rfl)
      · exact hheld (by simp [State.insideMsg, SendPc.insideMsg, hpc, hawake o rfl hpc])
    | rcv k =>
      obtain ⟨rfl, hpc⟩ := ht
      exact hheld (by simp only [State.insideMsg, hpc]; rfl)
    | call | handler | arrive | timeout | recv => exact ht.elim

variable [DecidableEq ι] [DecidableEq κ]

theorem ReadyInv.step {n : Nat} {a : Act ι κ} (h : ReadyInv s n) (hok : Awake s a) (hs : step s a = some s') :
    ReadyInv s' (sinceReset s a n) := by
  cases a with
  | send o => exact h.sendFunc hok hs
  | call i m =>
    obtain ⟨-, hs⟩ := Option.ite_none_right_eq_some.mp hs
    cases hs
    exact h.frame rfl rfl rfl rfl rfl
  | handler i => exact h.addVfsChanged hs
  | arrive k =>
    obtain ⟨⟨hidle, -⟩, hs⟩ := Option.ite_none_right_eq_some.mp hs
    cases hs
    refine h.rcv_moves rfl rfl rfl ?_ nofun (.inl ⟨rfl, rfl⟩)
    simp [Change, State.setRcv, RcvPc.inside, hidle]
  | rcv k => exact h.rcvMsg hs
  | timeout =>
    cases hs
    exact h.frame rfl rfl rfl rfl rfl
  | recv now =>
    revert hs
    simp only [Kernel.step]
    fun_cases efKernelConn s now <;> intro hs <;> cases hs
    exact h.frame rfl rfl rfl rfl rfl

variable (ι κ) in
/-- The threads with the count of increments. -/
def counting : Transition.System (State ι κ × Nat) (Act ι κ) := (system ι κ).withHistory 0 sinceReset

/-- **Mutual exclusion on `msg_ready`**, in the runs without a release after a sleep: every step so far has released as
the holder, at most one thread is inside, and no increment since the last reset is lost; the next step releases as the
holder exactly if it does not come from a sleep. -/
theorem by_holder_iff_awake {r : State ι κ × Nat} (h : (counting ι κ).Reach (fun r a => Awake r.1 a) r) :
    (∀ t u, r.1.insideMsg t = true → r.1.insideMsg u = true → t = u) ∧ r.1.mem.msgReady = r.2 % 4294967296 ∧
      ∀ a, ByHolder r.1 a ↔ Awake r.1 a := by
  have hinv : ReadyInv r.1 r.2 := by
    refine h.invariant (P := fun r => ReadyInv r.1 r.2) (fun r hr => ?_) fun r a r' hi hok hs => ?_
    · obtain ⟨hstart, hzero⟩ := hr
      rw [show r.1 = start from hstart, hzero]
      exact readyInv_start
    · obtain ⟨s', hs', rfl⟩ := Option.map_eq_some_iff.mp hs
      exact hi.step hok hs'
  exact ⟨fun t u => hinv.alone, hinv.count, hinv.byHolder_iff⟩

end Ready

/-- Two control messages are counted. -/
theorem by_holder_iff_awake_two : ∃ r, (counting Unit Bool).Reach (fun r a => Awake r.1 a) r ∧ r.1.mem.msgReady = 2 ∧
    r.2 = 2 ∧ (∀ t u, r.1.insideMsg t = true → r.1.insideMsg u = true → t = u) ∧
      r.1.mem.msgReady = r.2 % 4294967296 ∧ ∀ a, ByHolder r.1 a ↔ Awake r.1 a := by
  obtain ⟨r, hr, hp⟩ := Transition.System.reach_of_runIf (counting Unit Bool) (start, 0) (fun r a => Awake r.1 a)
    (fun r _ => r.1.slept.isNone) (fun r a ht o _ _ => by simpa using ht) ⟨rfl, rfl⟩
    [.timeout, .arrive true, .rcv true, .rcv true, .rcv true, .rcv true,
      .arrive false, .rcv false, .rcv false, .rcv false, .rcv false]
    (fun r => decide (r.1.mem.msgReady = 2 ∧ r.2 = 2)) (by decide)
  obtain ⟨hready, hcount⟩ := of_decide_eq_true hp
  exact ⟨r, hr, hready, hcount, by_holder_iff_awake hr⟩

/-- The send thread has slept and stands at the second release, which frees the lock of the first receiver; both
receivers have stored 1. -/
theorem increment_lost : (∃ s : State Unit Bool, (system Unit Bool).Reachable s ∧ s.slMsg = some (.rcv true) ∧
      ¬ByHolder s (.send .delivered)) ∧
    ∃ r : State Unit Bool × Nat, (counting Unit Bool).Reachable r ∧ r.1.insideMsg (.rcv true) = true ∧
      r.1.insideMsg (.rcv false) = true ∧ r.2 = 2 ∧ r.1.mem.msgReady = 1 := by
  constructor
  · obtain ⟨s, hs, hp⟩ := Transition.System.reachable_of_run (system Unit Bool) start rfl
      [.timeout, .send .delivered, .send .delivered, .send .delivered, .send .delivered,
        .arrive true, .rcv true, .rcv true]
      (fun s => decide (s.slMsg = some (.rcv true) ∧ s.send = .unlockMsg)) (by decide)
    obtain ⟨hheld, hpc⟩ := of_decide_eq_true hp
    refine ⟨s, hs, hheld, fun h => ?_⟩
    have hsend := h .send ⟨rfl, .inr hpc⟩
    rw [hheld] at hsend
    cases hsend
  · obtain ⟨r, hr, hp⟩ := Transition.System.reachable_of_run (counting Unit Bool) (start, 0) ⟨rfl, rfl⟩
      [.timeout, .send .delivered, .send .delivered, .send .delivered, .send .delivered,
        .arrive true, .rcv true, .rcv true, .send .delivered,
        .arrive false, .rcv false, .rcv false, .rcv true, .rcv false]
      (fun r => decide (r.1.insideMsg (.rcv true) = true ∧ r.1.insideMsg (.rcv false) = true ∧ r.2 = 2 ∧
        r.1.mem.msgReady = 1)) (by decide)
    obtain ⟨htrue, hfalse, hcount, hready⟩ := of_decide_eq_true hp
    exact ⟨r, hr, htrue, hfalse, hcount, hready⟩

end Everyfile.Kernel
