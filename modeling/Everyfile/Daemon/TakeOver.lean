import Everyfile.Daemon.PidFile

/-!
# A start of the daemon over what others have left

The lock of the pid file belongs to a live process in the part of the code that runs under it (`Held`), wherever
processes were killed before. So a process that comes to `ef_init_lockfile_to_unique`, and whose calls succeed, serves
exactly if no live process is in that part, and then the file names it; otherwise it goes and leaves no trace
(`takes_over`). Where nothing is killed and the owner serves on, a process is turned away only by one that serves or is
about to (`turned_away`).
-/

namespace Everyfile.Daemon

namespace Host

variable {s s' : Host} {p q : Nat} {proc : Process}

/-- A live process past its `F_SETLK`, with the lock. -/
def Owner (s : Host) (p : Nat) : Prop := ∃ proc, s.procs p = some proc ∧ proc.Owns

/-- The lock belongs to such a process. -/
def Held (s : Host) : Prop := ∀ p, s.lock = some p → s.Owner p

theorem Held.owns (h : s.Held) (hp : s.procs p = some proc) (hlock : s.lock = some p) : proc.Owns := by
  obtain ⟨proc', hproc, hown⟩ := h p hlock
  obtain rfl := Option.some_inj.mp (hp.symm.trans hproc)
  exact hown

theorem Held.setProc (h : s.Held) (hp : s.lock = some p → proc.Owns) : (s.setProc p proc).Held := by
  intro q hq
  change s.lock = some q at hq
  by_cases hqp : q = p
  · subst hqp
    exact ⟨proc, by simp [Host.setProc], hp hq⟩
  · obtain ⟨proc', hproc, hown⟩ := h q hq
    exact ⟨proc', by simpa [Host.setProc, hqp] using hproc, hown⟩

/-- A process that is gone has no lock. -/
theorem Held.remove (h : s.Held) (p : Nat) : (s.remove p).Held := by
  intro q hq
  have hne : q ≠ p ∧ s.lock = some q := by
    unfold Host.remove Host.dropLock at hq
    split at hq
    next => cases hq
    next hlock =>
      refine ⟨?_, hq⟩
      rintro rfl
      exact hlock hq
  obtain ⟨proc, hproc, hown⟩ := h q hne.2
  exact ⟨proc, by simpa [Host.remove, hne.1] using hproc, hown⟩

theorem Held.fork (h : s.Held) {c : Nat} {pc : MainPc} (hp : s.lock ≠ some p) (hs : s.fork p proc c pc = some s') :
    s'.Held := by
  unfold Host.fork at hs
  split at hs
  · cases hs
  next hc =>
    cases hs
    refine (h.setProc fun hlock => ?_).setProc fun hlock => absurd hlock hp
    -- the child's pid was free
    obtain ⟨_, hproc, -⟩ := h c hlock
    rw [hc] at hproc
    cases hproc

/-- **The step of a process.** -/
theorem Held.mainStep (h : s.Held) (hok : proc.Ok) (hp : s.procs p = some proc) {answer : Answer}
    (hs : s.mainStep p proc answer = some s') : s'.Held := by
  have hown := h.owns hp
  obtain ⟨pc, result⟩ := proc
  cases pc with
  | fork1 | fork2 =>
    obtain rfl : result = none := hok
    have hlock : s.lock ≠ some p := fun hlock => by simpa [Process.Owns] using hown hlock
    cases answer with
    | done => cases hs
    | child c => exact h.fork hlock hs
    | failed =>
      cases hs
      exact h.setProc fun heq => absurd heq hlock
  | setsid | redirect | openFile =>
    obtain rfl : result = none := hok
    have hlock : s.lock ≠ some p := fun hlock => by simpa [Process.Owns] using hown hlock
    cases answer <;> cases hs <;> exact h.setProc fun heq => absurd heq hlock
  | setlk =>
    obtain rfl : result = none := hok
    have hlock : s.lock ≠ some p := fun hlock => by simpa [Process.Owns] using hown hlock
    cases answer with
    | done =>
      simp only [Host.mainStep] at hs
      split at hs
      next hfree =>
        cases hs
        intro q hq
        obtain rfl : p = q := Option.some_inj.mp hq
        exact ⟨⟨.ftruncate, none⟩, by simp [Host.goto, Host.setProc], .inl rfl⟩
      next =>
        cases hs
        exact h.setProc fun heq => absurd heq hlock
    | child c => cases hs
    | failed =>
      cases hs
      exact h.setProc fun heq => absurd heq hlock
  | closeFile =>
    obtain rfl : result = none := hok
    have hlock : s.lock ≠ some p := fun hlock => by simpa [Process.Owns] using hown hlock
    cases answer <;> cases hs
    rw [Host.dropLock, if_neg hlock]
    exact h.setProc fun heq => absurd heq hlock
  | ftruncate =>
    cases answer <;> cases hs
    have hsame : ({ s with file := [] } : Host).Held := h
    exact hsame.setProc fun _ => .inr (.inl rfl)
  | write =>
    cases answer <;> cases hs
    have hsame : ({ s with file := Kernel.kernelWrite s.file (pidText p) 0 } : Host).Held := h
    exact hsame.setProc fun _ => .inr (.inr rfl)
  | returned ret =>
    obtain rfl : result = some (.returned ret) := hok
    cases answer <;> cases hs
    refine h.setProc fun hlock => ?_
    obtain hpc | hpc | hres := hown hlock
    · cases hpc
    · cases hpc
    · exact .inr (.inr hres)
  | serve =>
    obtain rfl : result = some (.returned 0) := hok
    cases answer <;> cases hs
    exact h.setProc fun _ => .inr (.inr rfl)
  | exit =>
    cases answer <;> cases hs
    exact h.remove p

theorem Held.step (h : s.Held) (hinv : s.Inv) {a : ProcessAct} (hs : s.step a = some s') : s'.Held := by
  cases a with
  | start p =>
    simp only [Host.step] at hs
    split at hs
    · cases hs
    next hp =>
      cases hs
      refine h.setProc fun hlock => ?_
      obtain ⟨_, hproc, -⟩ := h p hlock
      rw [hp] at hproc
      cases hproc
  | run p answer =>
    obtain ⟨proc, hp, hs⟩ := Option.bind_eq_some_iff.mp hs
    exact h.mainStep (hinv p proc hp).ok hp hs
  | kill p =>
    obtain ⟨_, -, rfl⟩ := Option.map_eq_some_iff.mp hs
    exact h.remove p

end Host

/-- Wherever processes were killed, the lock has an owner exactly if a live process is past its `F_SETLK`. -/
theorem held_of_reachable {s : Host} (h : daemons.Reachable s) : s.Held := by
  refine h.rec_on_steps (fun s hs p hp => ?_) fun s a s' hr ih _ hs => ih.step (inv_of_reachable hr) hs
  rw [hs.2] at hp
  cases hp

theorem lock_iff {s : Host} (h : daemons.Reachable s) {p : Nat} : s.lock = some p ↔ s.Owner p := by
  refine ⟨held_of_reachable h p, ?_⟩
  rintro ⟨proc, hp, hown⟩
  exact (inv_of_reachable h p proc hp).owner hown

/-! ## A start by itself -/

/-- The calls of a process from the `open` of the pid file on. -/
def restActs (p : Nat) : List ProcessAct := List.replicate 5 (.run p .done)

namespace Host

variable {s : Host} {p q : Nat}

/-- With the lock free the process comes to the service loop. -/
theorem run_free (hp : s.procs p = some ⟨.openFile, none⟩) (hlock : s.lock = none) :
    daemons.run s (restActs p) =
      some ⟨Function.update s.procs p (some ⟨.serve, some (.returned 0)⟩), some p, pidText p⟩ := by
  simp [Transition.System.run, Transition.System.runIf, restActs, daemons, Host.step, Host.mainStep, Host.goto,
    Host.setProc, Kernel.kernelWrite, hp, hlock]

/-- With the lock elsewhere it goes. -/
theorem run_held (hp : s.procs p = some ⟨.openFile, none⟩) (hlock : s.lock = some q) (hne : q ≠ p) :
    daemons.run s (restActs p) = some { s with procs := Function.update s.procs p none } := by
  simp [Transition.System.run, Transition.System.runIf, restActs, daemons, Host.step, Host.mainStep, Host.goto,
    Host.setProc, Host.dropLock, Host.remove, hp, hlock, hne]

end Host

/-- **A start over what others have left**: whatever was killed where before, the process serves exactly if no live
process is past its `F_SETLK`, and then the file names it; otherwise it goes, and nothing but the process is gone. -/
theorem takes_over {s : Host} {p : Nat} (h : daemons.Reachable s) (hp : s.procs p = some ⟨.openFile, none⟩) :
    ∃ s', daemons.run s (restActs p) = some s' ∧ (s'.Serving p ↔ ∀ q, ¬s.Owner q) ∧
      (s'.Serving p → s'.file = Host.pidText p) ∧
      (¬s'.Serving p → s' = { s with procs := Function.update s.procs p none }) ∧
      ∀ q, q ≠ p → s'.procs q = s.procs q := by
  cases hlock : s.lock with
  | none =>
    have hnone : ∀ q, ¬s.Owner q := by
      intro q hq
      rw [(lock_iff h).mpr hq] at hlock
      cases hlock
    have hserving : Host.Serving ⟨Function.update s.procs p (some ⟨.serve, some (.returned 0)⟩), some p,
        Host.pidText p⟩ p := ⟨⟨.serve, some (.returned 0)⟩, by simp, rfl⟩
    refine ⟨_, Host.run_free hp hlock, iff_of_true hserving hnone, fun _ => rfl, fun hnot => ?_, fun q hq => ?_⟩
    · exact absurd hserving hnot
    · simp [hq]
  | some q =>
    have howner := (lock_iff h).mp hlock
    have hne : q ≠ p := by
      intro hqp
      have hown := (held_of_reachable h).owns hp (hqp ▸ hlock)
      simp [Process.Owns] at hown
    have hgone : ¬({ s with procs := Function.update s.procs p none } : Host).Serving p := by
      rintro ⟨proc, hproc, -⟩
      simp at hproc
    refine ⟨_, Host.run_held hp hlock hne, iff_of_false hgone fun hnone => hnone q howner, fun hserving => ?_,
      fun _ => by rw [hlock], fun q hq => ?_⟩
    · exact absurd hserving hgone
    · simp [hq]

/-- A daemon is killed before it has written its pid; the next one serves, and the file names it. -/
theorem takes_over_killed : ∃ s s', daemons.Reachable s ∧ s.procs 12 = none ∧ s.file = [] ∧
    daemons.run s (restActs 22) = some s' ∧ s'.Serving 22 ∧ s'.file = bytes "22" ++ [0] := by
  obtain ⟨s, hs, hp⟩ := Transition.System.reachable_of_run daemons ⟨fun _ => none, none, bytes "98765"⟩
    ⟨fun _ => rfl, rfl⟩
    (startActs 10 ++ (startActs 20).dropLast ++ [.run 12 .done, .run 12 .done, .kill 12])
    (fun s => decide (s.procs 12 = none ∧ s.file = [] ∧ s.procs 22 = some ⟨.openFile, none⟩ ∧ s.lock = none))
    (by decide)
  obtain ⟨h12, hfile, h22, hlock⟩ := of_decide_eq_true hp
  obtain ⟨s', hrun, hserving, hnamed, -, -⟩ := takes_over hs h22
  have hserves : s'.Serving 22 := by
    refine hserving.mpr fun q hq => ?_
    rw [(lock_iff hs).mpr hq] at hlock
    cases hlock
  exact ⟨s, s', hs, h12, hfile, hrun, hserves, hnamed hserves⟩

/-! ## Runs in which the owner serves on -/

namespace Process

/-- Sent away by `ef_init_lockfile_to_unique`, or about to be. -/
def Refused (proc : Process) : Prop := proc.pc = .closeFile ∨ proc.result = some (.returned 1)

end Process

namespace Host

variable {s s' t : Host} {p q : Nat} {proc : Process}

/-- Nothing is killed, and `ef_kernel_conn` does not come back. -/
def Steady (s : Host) : ProcessAct → Prop
  | .kill _ => False
  | .run p _ => ¬s.Serving p
  | .start _ => True

/-- The owner of the lock does not leave, so there is one once a process was refused. -/
structure Steadfast (s : Host) : Prop where
  stays : ∀ p proc, s.procs p = some proc → proc.Owns → proc.pc ≠ .exit
  refused : ∀ p proc, s.procs p = some proc → proc.Refused → s.lock ≠ none

theorem Steadfast.setProc (h : s.Steadfast) (hprocs : t.procs = s.procs) (hlock : s.lock ≠ none → t.lock ≠ none)
    (hstays : proc.Owns → proc.pc ≠ .exit) (hrefused : proc.Refused → s.lock ≠ none) :
    (t.setProc p proc).Steadfast := by
  constructor
  · intro q proc' hq hown
    by_cases hqp : q = p
    · obtain rfl : proc = proc' := by simpa [Host.setProc, hqp] using hq
      exact hstays hown
    · exact h.stays q proc' (by simpa [Host.setProc, hqp, hprocs] using hq) hown
  · intro q proc' hq href
    by_cases hqp : q = p
    · obtain rfl : proc = proc' := by simpa [Host.setProc, hqp] using hq
      exact hlock (hrefused href)
    · exact hlock (h.refused q proc' (by simpa [Host.setProc, hqp, hprocs] using hq) href)

/-- The process is gone without having been the owner. -/
theorem Steadfast.remove (h : s.Steadfast) (hp : s.lock ≠ some p) : (s.remove p).Steadfast := by
  have hlock : (s.remove p).lock = s.lock := by
    unfold Host.remove Host.dropLock
    exact if_neg hp ▸ rfl
  have hprocs : ∀ q proc, (s.remove p).procs q = some proc → s.procs q = some proc := by
    intro q proc hq
    by_cases hqp : q = p
    · simp [Host.remove, hqp] at hq
    · simpa [Host.remove, hqp] using hq
  exact ⟨fun q proc hq => h.stays q proc (hprocs q proc hq),
    fun q proc hq href => hlock ▸ h.refused q proc (hprocs q proc hq) href⟩

theorem Steadfast.fork (h : s.Steadfast) {c : Nat} {pc : MainPc} (hres : proc.result = none)
    (hpc : pc = .setsid ∨ pc = .redirect) (hs : s.fork p proc c pc = some s') : s'.Steadfast := by
  unfold Host.fork at hs
  split at hs
  · cases hs
  · cases hs
    have hchild : ¬({ proc with pc := pc } : Process).Owns ∧ ¬({ proc with pc := pc } : Process).Refused := by
      rcases hpc with rfl | rfl <;> simp [Process.Owns, Process.Refused, hres]
    have hparent : ¬({ proc with pc := .exit } : Process).Owns ∧ ¬({ proc with pc := .exit } : Process).Refused := by
      simp [Process.Owns, Process.Refused, hres]
    exact (h.setProc rfl id (fun hown => absurd hown hchild.1) fun href => absurd href hchild.2).setProc rfl id
      (fun hown => absurd hown hparent.1) fun href => absurd href hparent.2

/-- **The step of a process** that is not in the service loop. -/
theorem Steadfast.mainStep (h : s.Steadfast) (hheld : s.Held) (hok : proc.Ok) (hp : s.procs p = some proc)
    (hpc : proc.pc ≠ .serve) {answer : Answer} (hs : s.mainStep p proc answer = some s') : s'.Steadfast := by
  have hown := hheld.owns hp
  have hstays := h.stays p proc hp
  have href := h.refused p proc hp
  obtain ⟨pc, result⟩ := proc
  cases pc with
  | fork1 =>
    obtain rfl : result = none := hok
    cases answer with
    | done => cases hs
    | child c => exact h.fork rfl (.inl rfl) hs
    | failed =>
      cases hs
      exact h.setProc rfl id (by simp) (by simp [Process.Refused])
  | fork2 =>
    obtain rfl : result = none := hok
    cases answer with
    | done => cases hs
    | child c => exact h.fork rfl (.inr rfl) hs
    | failed =>
      cases hs
      exact h.setProc rfl id (by simp) (by simp [Process.Refused])
  | setsid | redirect =>
    obtain rfl : result = none := hok
    cases answer <;> cases hs <;> exact h.setProc rfl id (by simp) (by simp [Process.Refused])
  | openFile =>
    obtain rfl : result = none := hok
    cases answer <;> cases hs <;>
      exact h.setProc rfl id (by simp [Process.Owns]) (by simp [Process.Refused])
  | setlk =>
    obtain rfl : result = none := hok
    cases answer with
    | done =>
      simp only [Host.mainStep] at hs
      split at hs
      next => cases hs; exact h.setProc rfl (by simp) (by simp) (by simp [Process.Refused])
      next hfree =>
        cases hs
        exact h.setProc rfl id (by simp) fun _ hnone => hfree (.inl hnone)
    | child c => cases hs
    | failed =>
      cases hs
      exact h.setProc rfl id (by simp [Process.Owns]) (by simp [Process.Refused])
  | closeFile =>
    obtain rfl : result = none := hok
    have hlock : s.lock ≠ some p := fun hlock => by simpa [Process.Owns] using hown hlock
    cases answer <;> cases hs
    rw [Host.dropLock, if_neg hlock]
    exact h.setProc rfl id (by simp) fun _ => href (.inl rfl)
  | ftruncate | write =>
    obtain rfl : result = none := hok
    cases answer <;> cases hs
    exact h.setProc rfl id (by simp) (by simp [Process.Refused])
  | returned ret =>
    obtain rfl : result = some (.returned ret) := hok
    cases answer <;> cases hs
    by_cases hret : ret = 0
    · subst hret
      exact h.setProc rfl id (by simp) (by simp [Process.Refused])
    · rw [if_neg hret]
      exact h.setProc rfl id (by simp [Process.Owns, hret]) fun hnew =>
        href (.inr (by simpa [Process.Refused] using hnew))
  | serve => exact absurd rfl hpc
  | exit =>
    cases answer <;> cases hs
    exact h.remove fun hlock => hstays (hown hlock) rfl

theorem Steadfast.step (h : s.Steadfast) (hheld : s.Held) (hinv : s.Inv) {a : ProcessAct} (ha : s.Steady a)
    (hs : s.step a = some s') : s'.Steadfast := by
  cases a with
  | start p =>
    simp only [Host.step] at hs
    split at hs
    · cases hs
    · cases hs
      exact h.setProc rfl id (by simp) (by simp [Process.Refused])
  | run p answer =>
    obtain ⟨proc, hp, hs⟩ := Option.bind_eq_some_iff.mp hs
    exact h.mainStep hheld (hinv p proc hp).ok hp (fun hpc => ha ⟨proc, hp, hpc⟩) hs
  | kill p => exact ha.elim

/-- The next `n` calls of `q` bring it to the service loop. -/
def ServesIn (s : Host) (q n : Nat) : Prop :=
  ∃ s', daemons.run s (List.replicate n (.run q .done)) = some s' ∧ s'.Serving q

theorem ServesIn.step {n : Nat} (h : t.ServesIn q n) (hs : s.step (.run q .done) = some t) : s.ServesIn q (n + 1) := by
  obtain ⟨s', hrun, hserving⟩ := h
  refine ⟨s', ?_, hserving⟩
  rw [List.replicate_succ, Transition.System.run, Transition.System.runIf, if_pos rfl]
  exact Option.bind_eq_some_iff.mpr ⟨t, hs, hrun⟩

theorem servesIn_of_returned {result : Option InitResult} (hp : s.procs q = some ⟨.returned 0, result⟩) :
    s.ServesIn q 1 := by
  have hserving : (s.goto q ⟨.returned 0, result⟩ .serve).Serving q :=
    ⟨⟨.serve, result⟩, by simp [Host.goto, Host.setProc], rfl⟩
  exact ServesIn.step ⟨_, rfl, hserving⟩ (by simp [Host.step, Host.mainStep, hp])

theorem servesIn_of_write {result : Option InitResult} (hp : s.procs q = some ⟨.write, result⟩) : s.ServesIn q 2 := by
  apply ServesIn.step (t := { s with file := Kernel.kernelWrite s.file (pidText q) 0 }.setProc q
    ⟨.returned 0, some (.returned 0)⟩)
  · exact servesIn_of_returned (Function.update_self q _ s.procs)
  · simp [Host.step, Host.mainStep, hp]

theorem servesIn_of_ftruncate {result : Option InitResult} (hp : s.procs q = some ⟨.ftruncate, result⟩) :
    s.ServesIn q 3 := by
  apply ServesIn.step (t := { s with file := [] }.goto q ⟨.ftruncate, result⟩ .write)
  · exact servesIn_of_write (Function.update_self q _ s.procs)
  · simp [Host.step, Host.mainStep, hp]

/-- An owner that does not leave comes to the service loop with its own calls. -/
theorem Owner.servesIn (hq : s.Owner q) (hinv : s.Inv) (h : s.Steadfast) : ∃ n ≤ 3, s.ServesIn q n := by
  obtain ⟨⟨pc, result⟩, hproc, hown⟩ := hq
  have hok := (hinv q _ hproc).ok
  have hstays := h.stays q _ hproc hown
  cases pc with
  | ftruncate => exact ⟨3, by omega, servesIn_of_ftruncate hproc⟩
  | write => exact ⟨2, by omega, servesIn_of_write hproc⟩
  | returned ret =>
    obtain rfl : result = some (.returned ret) := hok
    obtain rfl : ret = 0 := by simpa [Process.Owns] using hown
    exact ⟨1, by omega, servesIn_of_returned hproc⟩
  | serve => exact ⟨0, by omega, s, rfl, ⟨_, hproc, rfl⟩⟩
  | exit => exact absurd rfl hstays
  | fork1 | setsid | fork2 | redirect | openFile | setlk | closeFile =>
    obtain rfl : result = none := hok
    simp [Process.Owns] at hown

end Host

theorem steadfast_of_reach {s : Host} (h : daemons.Reach Host.Steady s) : s.Steadfast := by
  refine h.rec_on_steps (P := Host.Steadfast) (fun s hs => ⟨fun p proc hp => ?_, fun p proc hp => ?_⟩)
    fun s a s' hr ih ha hs => ?_
  · rw [hs.1 p] at hp
    cases hp
  · rw [hs.1 p] at hp
    cases hp
  · exact ih.step (held_of_reachable hr.reachable) (inv_of_reachable hr.reachable) ha hs

/-- **No start is turned away in vain**: where nothing is killed and the service loop does not end, a process that got
1 is not the only one; another serves, or does so after at most three calls of its own. -/
theorem turned_away {s : Host} {p : Nat} (h : daemons.Reach Host.Steady s) (hp : s.Ended p (.returned 1)) :
    ∃ q, q ≠ p ∧ s.lock = some q ∧ ∃ n ≤ 3, s.ServesIn q n := by
  obtain ⟨proc, hproc, hresult⟩ := hp
  have hsteady := steadfast_of_reach h
  have hlock := hsteady.refused p proc hproc (.inr hresult)
  obtain ⟨q, hq⟩ := Option.ne_none_iff_exists'.mp hlock
  have howner := (lock_iff h.reachable).mp hq
  refine ⟨q, ?_, hq, howner.servesIn (inv_of_reachable h.reachable) hsteady⟩
  intro hqp
  have hown := (held_of_reachable h.reachable).owns hproc (hqp ▸ hq)
  -- the result does not fit a place under the lock
  have hok := (inv_of_reachable h.reachable p proc hproc).ok
  obtain ⟨pc, result⟩ := proc
  obtain rfl : result = some (.returned 1) := hresult
  rcases hown with rfl | rfl | hzero
  · cases hok
  · cases hok
  · cases hzero

/-- Of two daemons the second is turned away while the first has not yet written its pid. -/
theorem turned_away_two : ∃ s, daemons.Reach Host.Steady s ∧ s.Ended 22 (.returned 1) ∧ ¬s.Serving 12 ∧
    ∃ q, q ≠ 22 ∧ s.lock = some q ∧ ∃ n ≤ 3, s.ServesIn q n := by
  obtain ⟨s, hs, hp⟩ := Transition.System.reach_of_runIf daemons ⟨fun _ => none, none, []⟩ Host.Steady
    (fun s a => match a with
      | .kill _ => false
      | .run p _ => decide ((s.procs p).all (·.pc ≠ .serve))
      | .start _ => true)
    (fun s a ht => by
      cases a with
      | start p => trivial
      | kill p => cases ht
      | run p answer =>
        rintro ⟨proc, hproc, hpc⟩
        simp [hproc, hpc] at ht)
    ⟨fun _ => rfl, rfl⟩
    (startActs 10 ++ startActs 20 ++ [.run 12 .done, .run 22 .done, .run 22 .done])
    (fun s => decide (s.procs 12 = some ⟨.ftruncate, none⟩ ∧ s.procs 22 = some ⟨.returned 1, some (.returned 1)⟩))
    (by decide)
  obtain ⟨h12, h22⟩ := of_decide_eq_true hp
  refine ⟨s, hs, ⟨_, h22, rfl⟩, ?_, turned_away hs ⟨_, h22, rfl⟩⟩
  rintro ⟨proc, hproc, hpc⟩
  rw [h12] at hproc
  cases hproc
  cases hpc

end Everyfile.Daemon
