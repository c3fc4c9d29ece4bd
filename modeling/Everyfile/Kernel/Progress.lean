import Everyfile.Kernel.Deadlock
import Everyfile.Kernel.InOrder

/-!
# What can still come through

Once the send thread is inside `sl_file` on its way to `sl_buf` and a handler inside `sl_buf` on its way to `sl_file`,
the two will wait for each other whatever happens in between: the state is `Doomed`. From such a state on no handler
that is inside `add_vfs_changed` ever returns and nothing is passed to netlink any more (`Doomed.forever`). From every
other state each handler can come through (`exists_idle`): the thread that is in its way can always move, and only the
handler inside `sl_buf` or the send thread inside `sl_file` is in its way.
-/

namespace Everyfile.Kernel

open Locking Transition

/-- The send thread is about to ask for `sl_buf` inside `sl_file`. -/
def SendPc.takesBuf (m : Mem) : SendPc → Bool
  | .lockBuf => true
  | .testFileOn => !m.fileOn
  | _ => false

/-- A handler is about to ask for `sl_file` inside `sl_buf`. -/
def HandlerPc.takesFile (m : Mem) : HandlerPc → Bool
  | .lockFile => true
  | .insert n => m.overflows n
  | _ => false

section Progress

variable {ι κ : Type*} {s s' : State ι κ} {i : ι}

/-- The two nested acquisitions cannot be kept apart any more. -/
def Doomed (s : State ι κ) : Prop :=
  s.send.takesBuf s.mem = true ∧ ∃ i, (s.handler i).takesFile s.mem = true

/-! ## Who is where -/

theorem SendPc.inside_of_takesBuf {p : SendPc} {m : Mem} (h : p.takesBuf m = true) : p.inside .file = true := by
  cases p <;> first | rfl | cases h

theorem SendPc.takesBuf_congr {p : SendPc} {m m' : Mem} (h : m'.fileOn = m.fileOn) : p.takesBuf m' = p.takesBuf m := by
  cases p <;> simp [SendPc.takesBuf, h]

theorem HandlerPc.inside_of_takesFile {p : HandlerPc} {m : Mem} (h : p.takesFile m = true) :
    p.inside .buf = true := by
  cases p <;> first | rfl | cases h

/-- A handler is inside `sl_file` only inside `sl_buf`. -/
theorem HandlerPc.inside_buf {p : HandlerPc} {l : Lock} (h : p.inside l = true) : p.inside .buf = true := by
  cases p <;> cases l <;> first | rfl | cases h

theorem LockInv.slBuf_eq (h : LockInv s) (hi : (s.handler i).inside .buf = true) : s.slBuf = some (.handler i) :=
  h.held_of_inside (l := .buf) (by decide) hi

theorem LockInv.slFile_eq (h : LockInv s) (hs : s.send.inside .file = true) : s.slFile = some .send :=
  h.held_of_inside (l := .file) (t := .send) (by decide) hs

/-- Two handlers inside `sl_buf` are the same. -/
theorem LockInv.handler_eq (h : LockInv s) {j : ι} (hi : (s.handler i).inside .buf = true)
    (hj : (s.handler j).inside .buf = true) : j = i := by
  have hsame := (h.slBuf_eq hj).symm.trans (h.slBuf_eq hi)
  injection hsame with hsame
  injection hsame

/-- What a handler inside `sl_buf` waits for is in the hands of the send thread. -/
theorem LockInv.send_inside_of_waiting (h : LockInv s) (hi : s.handler i = .lockFile) (hfile : s.slFile ≠ none) :
    s.send.inside .file = true := by
  obtain ⟨u, hu⟩ := Option.ne_none_iff_exists'.mp hfile
  have hin := h.inside_of_held (l := .file) hu
  cases u with
  | send => exact hin
  | handler k =>
    have hk : (s.handler k).inside .file = true := hin
    have hi' : (s.handler i).inside .buf = true := by rw [hi]; rfl
    obtain rfl := h.handler_eq hi' (HandlerPc.inside_buf hk)
    rw [hi] at hk
    cases hk
  | rcv k =>
    have hk : (s.rcv k).inside .file = true := hin
    cases hpc : s.rcv k <;> rw [hpc] at hk <;> cases hk

/-! ## Distances -/

/-- Steps of the send thread up to its release of `sl_file`. -/
def SendPc.toGo : SendPc → Nat
  | .testFileOn => 5
  | .sendOn | .lockBuf => 4
  | .resetPos | .sendBuf => 3
  | .clearOn | .unlockBuf => 2
  | .unlockFile => 1
  | _ => 0

/-- Steps of a handler up to its return. -/
def HandlerPc.toGo : HandlerPc → Nat
  | .idle => 0
  | .unlockBuf => 1
  | .unlockFile => 2
  | .setOn => 3
  | .lockFile => 4
  | .insert _ => 5
  | .lockBuf _ => 6

variable [DecidableEq ι]

/-- Steps of the handler inside `sl_buf`, if it is not handler `i`. -/
def State.otherToGo (s : State ι κ) (i : ι) : Nat :=
  match s.slBuf with
  | some (.handler j) => if j = i then 0 else (s.handler j).toGo
  | _ => 0

/-- Steps before the return of handler `i`: those of the threads that may be in its way, and its own. -/
def State.rankOf (s : State ι κ) (i : ι) : Nat := s.send.toGo + s.otherToGo i + (s.handler i).toGo

/-- If moving the handler inside `sl_buf` makes a state doomed, it is that handler that asks for `sl_file`. -/
theorem takesFile_of_doomed {t : State ι κ} {j : ι} {p : HandlerPc} (hl : LockInv s)
    (hj : (s.handler j).inside .buf = true) (hh : t.handler = Function.update s.handler j p)
    (hd : Doomed t) : p.takesFile t.mem = true := by
  obtain ⟨-, k, hk⟩ := hd
  rw [hh] at hk
  by_cases hkj : k = j
  · simpa [hkj] using hk
  · rw [Function.update_of_ne hkj] at hk
    exact absurd (hl.handler_eq hj (HandlerPc.inside_of_takesFile hk)) hkj

/-- A move of the handler inside `sl_buf` brings every handler nearer to its return. -/
theorem rankOf_lt {t : State ι κ} {j : ι} {p : HandlerPc} (hsend : t.send = s.send)
    (hh : t.handler = Function.update s.handler j p) (hs : s.slBuf = some (.handler j))
    (ht : t.slBuf = some (.handler j) ∨ t.slBuf = none) (hgo : p.toGo < (s.handler j).toGo) (i : ι) :
    t.rankOf i < s.rankOf i := by
  by_cases hij : i = j
  · subst hij
    rcases ht with ht | ht <;> simp [State.rankOf, State.otherToGo, hsend, hh, hs, ht, hgo]
  · have hji : j ≠ i := fun hji => hij hji.symm
    rcases ht with ht | ht <;> simp [State.rankOf, State.otherToGo, hsend, hh, hs, ht, hij, hji] <;> omega

/-! ## No way out -/

variable [DecidableEq κ]

/-- The threads of a doomed state that are in the way stay there. -/
theorem Doomed.step {a : Act ι κ} (h : Doomed s) (hl : LockInv s) (hs : step s a = some s') :
    Doomed s' ∧ (s'.mem.passed = s.mem.passed ∧ s'.mem.unicasts = s.mem.unicasts) ∧
      ∀ j, s.handler j ≠ .idle → s'.handler j ≠ .idle := by
  obtain ⟨hsend, i, hi⟩ := h
  have hfile := hl.slFile_eq (SendPc.inside_of_takesBuf hsend)
  have hbuf := hl.slBuf_eq (HandlerPc.inside_of_takesFile hi)
  cases a with
  | send o =>
    cases hpc : s.send with
    | testFileOn =>
      have hon : s.mem.fileOn = false := by simpa [hpc, SendPc.takesBuf] using hsend
      simp only [Kernel.step, sendFunc, hpc, hon] at hs
      cases hs
      exact ⟨⟨rfl, i, hi⟩, ⟨rfl, rfl⟩, fun _ hj => hj⟩
    | lockBuf => simp [Kernel.step, sendFunc, hpc, hbuf] at hs
    | _ => simp [hpc, SendPc.takesBuf] at hsend
  | call j m =>
    obtain ⟨hidle, hs⟩ := Option.ite_none_right_eq_some.mp hs
    cases hs
    have hij : i ≠ j := by
      rintro rfl
      simp [hidle, HandlerPc.takesFile] at hi
    refine ⟨⟨hsend, i, by simpa [State.setHandler, hij] using hi⟩, ⟨rfl, rfl⟩, fun k hk => ?_⟩
    by_cases hkj : k = j
    · simp [State.setHandler, hkj]
    · simpa [State.setHandler, hkj] using hk
  | handler j =>
    by_cases hji : j = i
    · subst hji
      cases hpc : s.handler j with
      | insert m =>
        have ho : s.mem.overflows m = true := by simpa [hpc, HandlerPc.takesFile] using hi
        simp only [Kernel.step, addVfsChanged, hpc, ho, if_true, Option.some.injEq] at hs
        subst hs
        refine ⟨⟨?_, j, by simp [State.setHandler, HandlerPc.takesFile]⟩, ?_, fun k hk => ?_⟩
        · rw [← hsend]
          exact SendPc.takesBuf_congr (s.mem.insert_frame m).2.2.2
        · exact ⟨(s.mem.insert_frame m).2.1, (s.mem.insert_counters m).2.2⟩
        · by_cases hkj : k = j
          · simp [State.setHandler, hkj]
          · simpa [State.setHandler, hkj] using hk
      | lockFile => simp [Kernel.step, addVfsChanged, hpc, hfile] at hs
      | _ => simp [hpc, HandlerPc.takesFile] at hi
    · -- another handler is outside of `sl_buf` and cannot enter
      cases hpc : s.handler j with
      | idle => simp [Kernel.step, addVfsChanged, hpc] at hs
      | lockBuf m => simp [Kernel.step, addVfsChanged, hpc, hbuf] at hs
      | _ =>
        have hin : (s.handler j).inside .buf = true := by rw [hpc]; rfl
        exact absurd (hl.handler_eq (HandlerPc.inside_of_takesFile hi) hin) hji
  | arrive k =>
    obtain ⟨-, hs⟩ := Option.ite_none_right_eq_some.mp hs
    cases hs
    exact ⟨⟨hsend, i, hi⟩, ⟨rfl, rfl⟩, fun _ hj => hj⟩
  | rcv k =>
    revert hs
    simp only [Kernel.step]
    fun_cases rcvMsg s k <;> intro hs <;> cases hs <;> exact ⟨⟨hsend, i, hi⟩, ⟨rfl, rfl⟩, fun _ hj => hj⟩
  | timeout =>
    cases hs
    exact ⟨⟨hsend, i, hi⟩, ⟨rfl, rfl⟩, fun _ hj => hj⟩
  | recv now =>
    revert hs
    simp only [Kernel.step]
    fun_cases efKernelConn s now <;> intro hs <;> cases hs
    exact ⟨⟨hsend, i, hi⟩, ⟨rfl, rfl⟩, fun _ hj => hj⟩

/-- **A doomed state stays so**: whatever the threads do, no handler that is inside `add_vfs_changed` returns, and
nothing is passed to netlink. -/
theorem Doomed.forever {as : List (Act ι κ)} (h : Doomed s) (hl : LockInv s)
    (hr : (system ι κ).run s as = some s') :
    Doomed s' ∧ (s'.mem.passed = s.mem.passed ∧ s'.mem.unicasts = s.mem.unicasts) ∧
      ∀ j, s.handler j ≠ .idle → s'.handler j ≠ .idle := by
  have hrun := System.run_invariant (S := system ι κ)
    (P := fun t => LockInv t ∧ Doomed t ∧ (t.mem.passed = s.mem.passed ∧ t.mem.unicasts = s.mem.unicasts) ∧
      ∀ j, s.handler j ≠ .idle → t.handler j ≠ .idle)
    (fun t a t' ht hst => ?_) ⟨hl, h, ⟨rfl, rfl⟩, fun _ hj => hj⟩ hr
  · exact hrun.2
  · obtain ⟨hlt, hd, hp, hj⟩ := ht
    obtain ⟨hd', hp', hj'⟩ := hd.step hlt hst
    exact ⟨hlt.step hst, hd', ⟨hp'.1.trans hp.1, hp'.2.trans hp.2⟩, fun j hne => hj' j (hj j hne)⟩

/-! ## The way out of every other state -/

/-- What is kept on the way out: the locks are held by those inside, and the state is not doomed. -/
def Free (s : State ι κ) : Prop := LockInv s ∧ ¬Doomed s

/-- The send thread inside `sl_file` can move, unless it stands at a taken `sl_buf`. -/
theorem Free.send (h : Free s) (hin : s.send.inside .file = true) (hbuf : s.send = .lockBuf → s.slBuf = none) (i : ι) :
    ∃ a t, step s a = some t ∧ Free t ∧ t.rankOf i < s.rankOf i := by
  obtain ⟨t, ht, hh, hd, hother, hgo⟩ : ∃ t, Kernel.step s (.send .delivered) = some t ∧ t.handler = s.handler ∧
      (Doomed t → Doomed s) ∧ t.otherToGo i ≤ s.otherToGo i ∧ t.send.toGo < s.send.toGo := by
    cases hpc : s.send with
    | testFileOn =>
      by_cases hon : s.mem.fileOn = true
      · refine ⟨{ s with send := .sendOn }, by simp [Kernel.step, sendFunc, hpc, hon], rfl, fun hd => ?_, le_rfl,
          by simp [SendPc.toGo]⟩
        cases hd.1
      · refine ⟨{ s with send := .lockBuf }, by simp [Kernel.step, sendFunc, hpc, hon], rfl, fun hd => ?_, le_rfl,
          by simp [SendPc.toGo]⟩
        exact ⟨by simp [hpc, SendPc.takesBuf, hon], hd.2⟩
    | sendOn =>
      refine ⟨{ s with mem := s.mem.sendFileOn .delivered, send := .resetPos }, by simp [Kernel.step, sendFunc, hpc],
        rfl, fun hd => ?_, le_rfl, by simp [SendPc.toGo]⟩
      cases hd.1
    | resetPos =>
      refine ⟨{ s with mem := s.mem.resetPos, send := .clearOn }, by simp [Kernel.step, sendFunc, hpc], rfl,
        fun hd => ?_, le_rfl, by simp [SendPc.toGo]⟩
      cases hd.1
    | clearOn =>
      refine ⟨{ s with mem := s.mem.setFileOn false, send := .unlockFile }, by simp [Kernel.step, sendFunc, hpc], rfl,
        fun hd => ?_, le_rfl, by simp [SendPc.toGo]⟩
      cases hd.1
    | lockBuf =>
      refine ⟨{ s with slBuf := some .send, send := .sendBuf }, by simp [Kernel.step, sendFunc, hpc, hbuf hpc], rfl,
        fun hd => ?_, Nat.zero_le _, by simp [SendPc.toGo]⟩
      cases hd.1
    | sendBuf =>
      refine ⟨{ s with mem := s.mem.sendHead .delivered, send := .unlockBuf }, by simp [Kernel.step, sendFunc, hpc],
        rfl, fun hd => ?_, le_rfl, by simp [SendPc.toGo]⟩
      cases hd.1
    | unlockBuf =>
      refine ⟨{ s with slBuf := none, send := .unlockFile }, by simp [Kernel.step, sendFunc, hpc], rfl,
        fun hd => ?_, Nat.zero_le _, by simp [SendPc.toGo]⟩
      cases hd.1
    | unlockFile =>
      refine ⟨{ s with slFile := none, send := .lockMsg }, by simp [Kernel.step, sendFunc, hpc], rfl, fun hd => ?_,
        le_rfl, by simp [SendPc.toGo]⟩
      cases hd.1
    | _ =>
      rw [hpc] at hin
      cases hin
  refine ⟨_, t, ht, ⟨h.1.step ht, fun hdt => h.2 (hd hdt)⟩, ?_⟩
  simp only [State.rankOf, hh]
  omega

/-- The handler inside `sl_buf` can move, unless it stands at a taken `sl_file`. -/
theorem Free.handler_moves {j : ι} (h : Free s) (hin : (s.handler j).inside .buf = true)
    (hfile : s.handler j = .lockFile → s.slFile = none) :
    ∃ t p, Kernel.step s (.handler j) = some t ∧ Free t ∧ t.send = s.send ∧
      t.handler = Function.update s.handler j p ∧ (t.slBuf = some (.handler j) ∨ t.slBuf = none) ∧
        p.toGo < (s.handler j).toGo := by
  have hbuf := h.1.slBuf_eq hin
  obtain ⟨t, p, ht, hsend, hh, hslBuf, hd, hgo⟩ : ∃ t p, Kernel.step s (.handler j) = some t ∧ t.send = s.send ∧
      t.handler = Function.update s.handler j p ∧ (t.slBuf = some (.handler j) ∨ t.slBuf = none) ∧
      (Doomed t → Doomed s) ∧ p.toGo < (s.handler j).toGo := by
    cases hpc : s.handler j with
    | insert m =>
      by_cases ho : s.mem.overflows m = true
      · refine ⟨{ s with mem := s.mem.insert m }.setHandler j .lockFile, .lockFile,
          by simp [Kernel.step, addVfsChanged, hpc, ho], rfl, rfl, .inl hbuf, fun hd => ⟨?_, j, ?_⟩,
          by simp [HandlerPc.toGo]⟩
        · rw [← SendPc.takesBuf_congr (s.mem.insert_frame m).2.2.2]
          exact hd.1
        · rw [hpc]
          exact ho
      · refine ⟨{ s with mem := s.mem.insert m }.setHandler j .unlockBuf, .unlockBuf,
          by simp [Kernel.step, addVfsChanged, hpc, ho], rfl, rfl, .inl hbuf, fun hd => ?_, by simp [HandlerPc.toGo]⟩
        cases takesFile_of_doomed h.1 hin rfl hd
    | lockFile =>
      refine ⟨{ s with slFile := some (.handler j) }.setHandler j .setOn, .setOn,
        by simp [Kernel.step, addVfsChanged, hpc, hfile hpc], rfl, rfl, .inl hbuf, fun hd => ?_,
        by simp [HandlerPc.toGo]⟩
      cases takesFile_of_doomed h.1 hin rfl hd
    | unlockBuf =>
      refine ⟨{ s with slBuf := none }.setHandler j .idle, .idle, by simp [Kernel.step, addVfsChanged, hpc], rfl, rfl,
        .inr rfl, fun hd => ?_, by simp [HandlerPc.toGo]⟩
      cases takesFile_of_doomed h.1 hin rfl hd
    | setOn =>
      refine ⟨{ s with mem := s.mem.setFileOn true }.setHandler j .unlockFile, .unlockFile,
        by simp [Kernel.step, addVfsChanged, hpc], rfl, rfl, .inl hbuf, fun hd => ?_, by simp [HandlerPc.toGo]⟩
      cases takesFile_of_doomed h.1 hin rfl hd
    | unlockFile =>
      refine ⟨{ s with slFile := none }.setHandler j .unlockBuf, .unlockBuf,
        by simp [Kernel.step, addVfsChanged, hpc], rfl, rfl, .inl hbuf, fun hd => ?_, by simp [HandlerPc.toGo]⟩
      cases takesFile_of_doomed h.1 hin rfl hd
    | _ =>
      rw [hpc] at hin
      cases hin
  exact ⟨t, p, ht, ⟨h.1.step ht, fun hdt => h.2 (hd hdt)⟩, hsend, hh, hslBuf, hgo⟩

theorem Free.handler {j : ι} (h : Free s) (hin : (s.handler j).inside .buf = true)
    (hfile : s.handler j = .lockFile → s.slFile = none) (i : ι) :
    ∃ a t, step s a = some t ∧ Free t ∧ t.rankOf i < s.rankOf i := by
  obtain ⟨t, p, ht, hf, hsend, hh, hslBuf, hgo⟩ := h.handler_moves hin hfile
  exact ⟨_, t, ht, hf, rankOf_lt hsend hh (h.1.slBuf_eq hin) hslBuf hgo i⟩

/-- With `sl_buf` free and the send thread outside of `sl_file`, a handler can enter. -/
theorem Free.enter {m : NlMsg} (h : Free s) (hi : s.handler i = .lockBuf m) (hbuf : s.slBuf = none)
    (hout : s.send.inside .file = false) : ∃ a t, step s a = some t ∧ Free t ∧ t.rankOf i < s.rankOf i := by
  have hst : Kernel.step s (.handler i) =
      some ({ s with slBuf := some (.handler i) }.setHandler i (.insert m)) := by
    simp [Kernel.step, addVfsChanged, hi, hbuf]
  refine ⟨_, _, hst, ⟨h.1.step hst, fun hd => ?_⟩, ?_⟩
  · have hin : s.send.inside .file = true := SendPc.inside_of_takesBuf hd.1
    rw [hout] at hin
    cases hin
  · simp [State.rankOf, State.otherToGo, State.setHandler, hi, hbuf, HandlerPc.toGo]

/-- **Some thread in the way of a pending handler can move.** -/
theorem Free.step (h : Free s) (hi : s.handler i ≠ .idle) :
    ∃ a t, step s a = some t ∧ Free t ∧ t.rankOf i < s.rankOf i := by
  have hl := h.1
  cases hbuf : s.slBuf with
  | some u =>
    have hin := hl.inside_of_held (l := .buf) hbuf
    cases u with
    | send =>
      -- the send thread is inside `sl_buf`, past the acquisition
      simp only [State.inside] at hin
      refine h.send ?_ (fun hpc => ?_) i
      · cases hpc : s.send <;> rw [hpc] at hin <;> first | rfl | cases hin
      · rw [hpc] at hin
        cases hin
    | handler j =>
      simp only [State.inside] at hin
      by_cases hfile : s.handler j = .lockFile → s.slFile = none
      · exact h.handler hin hfile i
      · -- the handler waits for `sl_file`, whose holder can only be the send thread
        obtain ⟨hj, hne⟩ := Classical.not_imp.mp hfile
        refine h.send (hl.send_inside_of_waiting hj hne) (fun hpc => ?_) i
        exact absurd ⟨by rw [hpc]; rfl, j, by rw [hj]; rfl⟩ h.2
    | rcv k =>
      simp only [State.inside] at hin
      cases hpc : s.rcv k <;> rw [hpc] at hin <;> cases hin
  | none =>
    cases hinf : s.send.inside .file with
    | true => exact h.send hinf (fun _ => hbuf) i
    | false =>
      obtain ⟨m, hm⟩ : ∃ m, s.handler i = .lockBuf m := by
        have hout : (s.handler i).inside .buf ≠ true := fun hin => by rw [hl.slBuf_eq hin] at hbuf; cases hbuf
        cases hpc : s.handler i with
        | idle => exact absurd hpc hi
        | lockBuf m => exact ⟨m, rfl⟩
        | _ => rw [hpc] at hout; exact absurd rfl hout
      exact h.enter hm hbuf hinf

/-- **Which calls can still return**: in a reachable state a handler that is inside `add_vfs_changed` can come through
exactly if the state is not doomed; and from a doomed state on nothing is passed to netlink. -/
theorem pending_returns_iff (h : (system ι κ).Reachable s) (hi : s.handler i ≠ .idle) :
    ((∃ as t, (system ι κ).run s as = some t ∧ t.handler i = .idle) ↔ ¬Doomed s) ∧
      (Doomed s → ∀ as t, (system ι κ).run s as = some t →
        t.mem.passed = s.mem.passed ∧ t.mem.unicasts = s.mem.unicasts) := by
  have hl := LockInv.of_reach h
  refine ⟨⟨?_, fun hd => ?_⟩, fun hd as t hr => (hd.forever hl hr).2.1⟩
  · rintro ⟨as, t, hr, ht⟩ hd
    exact (hd.forever hl hr).2.2 i hi ht
  · obtain ⟨as, t, hr, -, ht⟩ := System.exists_run_of_rank (system ι κ) Free (fun t => t.handler i = .idle)
      (fun t => t.rankOf i) (fun t hf hne => hf.step hne) (show Free s from ⟨hl, hd⟩)
    exact ⟨as, t, hr, ht⟩

end Progress

/-- The buffer is full, the send thread stands at `sl_buf` and the handler is about to spill. -/
theorem pending_returns_iff_doomed : ∃ s : State Unit Unit, s.handler () ≠ .idle ∧ Doomed s ∧
    ((∃ as t, (system Unit Unit).run s as = some t ∧ t.handler () = .idle) ↔ ¬Doomed s) ∧
      (Doomed s → ∀ as t, (system Unit Unit).run s as = some t →
        t.mem.passed = s.mem.passed ∧ t.mem.unicasts = s.mem.unicasts) := by
  obtain ⟨s, hs, hp⟩ := Transition.System.reachable_of_run (system Unit Unit) start rfl toNested
    (fun s => decide (s.handler () ≠ .idle ∧ s.send.takesBuf s.mem = true ∧ (s.handler ()).takesFile s.mem = true))
    (by decide +kernel)
  obtain ⟨hi, hsend, hh⟩ := of_decide_eq_true hp
  exact ⟨s, hi, ⟨hsend, (), hh⟩, pending_returns_iff hs hi⟩

end Everyfile.Kernel
