import Everyfile.Kernel.Msg
import Everyfile.Lib.Transition
import Mathlib.Logic.Function.Basic

/-!
# One daemon at a time

Any number of processes run `main` of the daemon: the forks of `start_daemon`, whose failure `main` ignores,
`ef_init_lockfile_to_unique` on the common pid file, and the service loop. Each system call is a step; processes are
started, run and killed in any order, and a pid may be used again after its process is gone. The write lock of the file
has one owner at most, is not inherited by `fork`, and is dropped when its owner exits or closes the file.

The invariant (`Inv`) is about the owner: only it truncates and writes the file, and it keeps the lock from then on. So
at most one live process got 0, only such a process serves, and the file names it (`one_daemon`).
-/

namespace Everyfile.Daemon

/-! ## The processes -/

/-- The next system call of a process. `main` tests what `ef_init_lockfile_to_unique` returned at `returned`. -/
inductive MainPc
  | fork1 | setsid | fork2 | redirect  -- `start_daemon`
  | openFile | setlk | closeFile | ftruncate | write  -- `ef_init_lockfile_to_unique`
  | returned (ret : Nat)
  | serve  -- `ef_kernel_conn`
  | exit
  deriving DecidableEq, Repr

/-- How `ef_init_lockfile_to_unique` ended. -/
inductive InitResult
  | returned (ret : Nat)
  | exited
  deriving DecidableEq, Repr

structure Process where
  pc : MainPc
  /-- The end of `ef_init_lockfile_to_unique`, once it has ended. -/
  result : Option InitResult
  deriving DecidableEq, Repr

/-- The live processes by pid, the owner of the write lock, and the bytes of the pid file. -/
structure Host where
  procs : Nat → Option Process
  lock : Option Nat
  file : List Byte

/-- What a system call meets: `child c` is a fork whose child is `c`, `failed` an error (for `F_SETLK` another one than
that of a lock held elsewhere). -/
inductive Answer
  | done
  | child (c : Nat)
  | failed
  deriving DecidableEq, Repr

inductive ProcessAct
  | start (p : Nat)
  | run (p : Nat) (answer : Answer)
  | kill (p : Nat)
  deriving DecidableEq, Repr

namespace Host

def setProc (s : Host) (p : Nat) (proc : Process) : Host :=
  { s with procs := Function.update s.procs p (some proc) }

/-- The lock without its owner, if that is `p`. -/
def dropLock (s : Host) (p : Nat) : Host := if s.lock = some p then { s with lock := none } else s

/-- The process `p` is gone, with its lock. -/
def remove (s : Host) (p : Nat) : Host := { s with procs := Function.update s.procs p none }.dropLock p

/-- A step of `p` that is local to the process. -/
def goto (s : Host) (p : Nat) (proc : Process) (pc : MainPc) : Host := s.setProc p { proc with pc := pc }

/-- A fork of `p`: the child goes on at `pc`, the parent exits. -/
def fork (s : Host) (p : Nat) (proc : Process) (c : Nat) (pc : MainPc) : Option Host :=
  match s.procs c with
  | some _ => none
  | none => some ((s.setProc c { proc with pc := pc }).setProc p { proc with pc := .exit })

/-- The text that `sprintf` and `write` put into the file; `pid_t` has 31 bits, so it fits the 16 bytes of `buf`. -/
def pidText (p : Nat) : List Byte := decimal p ++ [0]

/-- The next system call of `p`. -/
def mainStep (s : Host) (p : Nat) (proc : Process) (answer : Answer) : Option Host :=
  match proc.pc, answer with
  | .fork1, .child c => s.fork p proc c .setsid
  | .fork1, .failed => some (s.goto p proc .openFile)
  | .setsid, .done => some (s.goto p proc .fork2)
  | .setsid, .failed => some (s.goto p proc .openFile)
  | .fork2, .child c => s.fork p proc c .redirect
  | .fork2, .failed => some (s.goto p proc .openFile)
  | .redirect, .done => some (s.goto p proc .openFile)
  | .redirect, .failed => some (s.goto p proc .openFile)
  | .openFile, .done => some (s.goto p proc .setlk)
  | .openFile, .failed => some (s.setProc p ⟨.exit, some .exited⟩)
  | .setlk, .done =>
    if s.lock = none ∨ s.lock = some p then some ({ s with lock := some p }.goto p proc .ftruncate)
    else some (s.goto p proc .closeFile)
  | .setlk, .failed => some (s.setProc p ⟨.exit, some .exited⟩)
  | .closeFile, .done => some ((s.dropLock p).setProc p ⟨.returned 1, some (.returned 1)⟩)
  | .ftruncate, .done => some ({ s with file := [] }.goto p proc .write)
  | .write, .done =>
    -- the descriptor is new, so its position is 0
    some ({ s with file := Kernel.kernelWrite s.file (pidText p) 0 }.setProc p ⟨.returned 0, some (.returned 0)⟩)
  | .returned ret, .done => some (s.goto p proc (if ret = 0 then .serve else .exit))
  | .serve, .done => some (s.goto p proc .exit)
  | .exit, .done => some (s.remove p)
  | _, _ => none

def step (s : Host) : ProcessAct → Option Host
  | .start p =>
    match s.procs p with
    | some _ => none
    | none => some (s.setProc p ⟨.fork1, none⟩)
  | .run p answer => (s.procs p).bind fun proc => s.mainStep p proc answer
  | .kill p => (s.procs p).map fun _ => s.remove p

end Host

/-- At first there are no processes; the file holds whatever it was left with. -/
def daemons : Transition.System Host ProcessAct where
  init s := (∀ p, s.procs p = none) ∧ s.lock = none
  step := Host.step

/-! ## What is asked of the states -/

namespace Host

/-- A live process whose `ef_init_lockfile_to_unique` ended so. -/
def Ended (s : Host) (p : Nat) (r : InitResult) : Prop := ∃ proc, s.procs p = some proc ∧ proc.result = some r

def Serving (s : Host) (p : Nat) : Prop := ∃ proc, s.procs p = some proc ∧ proc.pc = .serve

/-- At most one process got 0, only such a process is in `ef_kernel_conn`, and the file names it. -/
structure OneDaemon (s : Host) : Prop where
  unique : ∀ p q, s.Ended p (.returned 0) → s.Ended q (.returned 0) → p = q
  serving : ∀ p, s.Serving p → s.Ended p (.returned 0)
  named : ∀ p, s.Ended p (.returned 0) → s.file = pidText p

end Host

/-! ## The invariant -/

namespace Process

/-- The part of the code that runs under the lock. -/
def Owns (proc : Process) : Prop := proc.pc = .ftruncate ∨ proc.pc = .write ∨ proc.result = some (.returned 0)

/-- The result fits the position. -/
def Ok (proc : Process) : Prop :=
  match proc.pc with
  | .returned ret => proc.result = some (.returned ret)
  | .serve => proc.result = some (.returned 0)
  | .exit => True
  | _ => proc.result = none

end Process

namespace Host

variable {s s' : Host} {p : Nat} {proc : Process}

/-- What every process of `s` owes to the lock and the file. -/
structure Sound (s : Host) (p : Nat) (proc : Process) : Prop where
  ok : proc.Ok
  owner : proc.Owns → s.lock = some p
  emptied : proc.pc = .write → s.file = []
  named : proc.result = some (.returned 0) → s.file = pidText p

def Inv (s : Host) : Prop := ∀ p proc, s.procs p = some proc → s.Sound p proc

/-- Setting one process. -/
theorem Inv.setProc (h : s.Inv) (hp : s.Sound p proc) : (s.setProc p proc).Inv := by
  intro q proc' hq
  by_cases hqp : q = p
  · subst hqp
    obtain rfl : proc = proc' := by simpa [Host.setProc] using hq
    exact ⟨hp.ok, hp.owner, hp.emptied, hp.named⟩
  · have hq := h q proc' (by simpa [Host.setProc, hqp] using hq)
    exact ⟨hq.ok, hq.owner, hq.emptied, hq.named⟩

/-- A position that asks nothing of the lock and the file. -/
theorem sound_of_free (hok : proc.Ok) (hown : ¬proc.Owns) : s.Sound p proc :=
  ⟨hok, fun h => (hown h).elim, fun h => (hown (.inr (.inl h))).elim, fun h => (hown (.inr (.inr h))).elim⟩

/-- A process that does not own the lock loses nothing with it. -/
theorem Inv.dropLock (h : s.Inv) (hp : ∀ proc, s.procs p = some proc → ¬proc.Owns) : (s.dropLock p).Inv := by
  unfold Host.dropLock
  split
  next hlock =>
    intro q proc hq
    have hs := h q proc hq
    have hown : ¬proc.Owns := by
      intro hown
      obtain rfl : p = q := Option.some_inj.mp (hlock.symm.trans (hs.owner hown))
      exact hp proc hq hown
    exact sound_of_free hs.ok hown
  next => exact h

theorem Inv.remove (h : s.Inv) (p : Nat) : (s.remove p).Inv := by
  have hsub : ({ s with procs := Function.update s.procs p none } : Host).Inv := by
    intro q proc hq
    by_cases hqp : q = p
    · simp [hqp] at hq
    · have hs := h q proc (by simpa [hqp] using hq)
      exact ⟨hs.ok, hs.owner, hs.emptied, hs.named⟩
  exact hsub.dropLock (by simp)

/-- A lock that is free, or one's own, is taken. -/
theorem Inv.setLock (h : s.Inv) (hfree : s.lock = none ∨ s.lock = some p) : ({ s with lock := some p } : Host).Inv := by
  intro q proc hq
  have hs := h q proc hq
  refine ⟨hs.ok, fun hown => ?_, hs.emptied, hs.named⟩
  rcases hfree with hnone | hself
  · rw [hs.owner hown] at hnone
    cases hnone
  · exact hself.symm.trans (hs.owner hown)

/-- The owner of the lock changes the file: no other process has a claim on it. -/
theorem Inv.setFile (h : s.Inv) (hlock : s.lock = some p) {file : List Byte}
    (hp : ({ s with file := file } : Host).Sound p proc) :
    (({ s with file := file } : Host).setProc p proc).Inv := by
  intro q proc' hq
  by_cases hqp : q = p
  · subst hqp
    obtain rfl : proc = proc' := by simpa [Host.setProc] using hq
    exact ⟨hp.ok, hp.owner, hp.emptied, hp.named⟩
  · have hs := h q proc' (by simpa [Host.setProc, hqp] using hq)
    have hown : ¬proc'.Owns := by
      intro hown
      exact hqp (Option.some_inj.mp ((hs.owner hown).symm.trans hlock))
    exact sound_of_free hs.ok hown

/-- A fork before the lock file is opened. -/
theorem Inv.fork (h : s.Inv) {c : Nat} {pc : MainPc} (hres : proc.result = none)
    (hpc : pc = .setsid ∨ pc = .redirect) (hs : s.fork p proc c pc = some s') : s'.Inv := by
  unfold Host.fork at hs
  split at hs
  · cases hs
  · cases hs
    refine (h.setProc (sound_of_free ?_ ?_)).setProc (sound_of_free ?_ ?_)
    · rcases hpc with rfl | rfl <;> exact hres
    · rcases hpc with rfl | rfl <;> simp [Process.Owns, hres]
    · trivial
    · simp [Process.Owns, hres]

/-- A step to another position before the lock is taken. -/
theorem Inv.goto (h : s.Inv) {pc : MainPc} (hok : ({ proc with pc := pc } : Process).Ok)
    (hown : ¬({ proc with pc := pc } : Process).Owns) : (s.goto p proc pc).Inv := h.setProc (sound_of_free hok hown)

/-- **The step of a process.** -/
theorem Inv.mainStep (h : s.Inv) (hp : s.procs p = some proc) {answer : Answer}
    (hs : s.mainStep p proc answer = some s') : s'.Inv := by
  have hproc := h p proc hp
  obtain ⟨pc, result⟩ := proc
  cases pc with
  | fork1 =>
    obtain rfl : result = none := hproc.ok
    cases answer with
    | done => cases hs
    | child c => exact h.fork rfl (.inl rfl) hs
    | failed =>
      cases hs
      exact h.goto rfl (by simp [Process.Owns])
  | setsid =>
    obtain rfl : result = none := hproc.ok
    cases answer <;> cases hs <;> exact h.goto rfl (by simp [Process.Owns])
  | fork2 =>
    obtain rfl : result = none := hproc.ok
    cases answer with
    | done => cases hs
    | child c => exact h.fork rfl (.inr rfl) hs
    | failed =>
      cases hs
      exact h.goto rfl (by simp [Process.Owns])
  | redirect =>
    obtain rfl : result = none := hproc.ok
    cases answer <;> cases hs <;> exact h.goto rfl (by simp [Process.Owns])
  | openFile =>
    obtain rfl : result = none := hproc.ok
    cases answer <;> cases hs
    · exact h.goto rfl (by simp [Process.Owns])
    · exact h.setProc (sound_of_free trivial (by simp [Process.Owns]))
  | setlk =>
    obtain rfl : result = none := hproc.ok
    cases answer with
    | done =>
      simp only [Host.mainStep] at hs
      split at hs
      next hfree =>
        cases hs
        exact (h.setLock hfree).setProc ⟨rfl, fun _ => rfl, by simp, by simp⟩
      next =>
        cases hs
        exact h.goto rfl (by simp [Process.Owns])
    | child c => cases hs
    | failed =>
      cases hs
      exact h.setProc (sound_of_free trivial (by simp [Process.Owns]))
  | closeFile =>
    obtain rfl : result = none := hproc.ok
    cases answer <;> cases hs
    refine (h.dropLock fun proc hproc => ?_).setProc (sound_of_free rfl (by simp [Process.Owns]))
    obtain rfl := Option.some_inj.mp (hp.symm.trans hproc)
    simp [Process.Owns]
  | ftruncate =>
    obtain rfl : result = none := hproc.ok
    cases answer <;> cases hs
    have hlock := hproc.owner (.inl rfl)
    exact h.setFile hlock ⟨rfl, fun _ => hlock, fun _ => rfl, by simp⟩
  | write =>
    cases answer <;> cases hs
    have hlock := hproc.owner (.inr (.inl rfl))
    have hfile := hproc.emptied rfl
    refine h.setFile hlock ⟨rfl, fun _ => hlock, by simp, fun _ => ?_⟩
    -- the file was empty, so nothing is left after the text
    simp [hfile, Kernel.kernelWrite]
  | returned ret =>
    obtain rfl : result = some (.returned ret) := hproc.ok
    cases answer <;> cases hs
    by_cases hret : ret = 0
    · subst hret
      exact h.setProc ⟨rfl, fun _ => hproc.owner (.inr (.inr rfl)), by simp, fun _ => hproc.named rfl⟩
    · rw [if_neg hret]
      exact h.goto trivial (by simp [Process.Owns, hret])
  | serve =>
    obtain rfl : result = some (.returned 0) := hproc.ok
    cases answer <;> cases hs
    exact h.setProc ⟨trivial, fun _ => hproc.owner (.inr (.inr rfl)), by simp, fun _ => hproc.named rfl⟩
  | exit =>
    cases answer <;> cases hs
    exact h.remove p

theorem Inv.step (h : s.Inv) {a : ProcessAct} (hs : s.step a = some s') : s'.Inv := by
  cases a with
  | start p =>
    simp only [Host.step] at hs
    split at hs
    · cases hs
    · cases hs
      exact h.setProc (sound_of_free rfl (by simp [Process.Owns]))
  | run p answer =>
    obtain ⟨proc, hp, hs⟩ := Option.bind_eq_some_iff.mp hs
    exact h.mainStep hp hs
  | kill p =>
    obtain ⟨_, -, rfl⟩ := Option.map_eq_some_iff.mp hs
    exact h.remove p

theorem Inv.oneDaemon (h : s.Inv) : s.OneDaemon := by
  constructor
  · rintro p q ⟨proc, hp, hgot⟩ ⟨proc', hq, hgot'⟩
    have hp := (h p proc hp).owner (.inr (.inr hgot))
    have hq := (h q proc' hq).owner (.inr (.inr hgot'))
    exact Option.some_inj.mp (hp.symm.trans hq)
  · rintro p ⟨proc, hp, hpc⟩
    have hok := (h p proc hp).ok
    rw [Process.Ok, hpc] at hok
    exact ⟨proc, hp, hok⟩
  · rintro p ⟨proc, hp, hgot⟩
    exact (h p proc hp).named hgot

end Host

/-! ## Results are final -/

namespace Host

variable {s s' : Host} {p q : Nat} {proc : Process} {answer : Answer} {r : InitResult}

@[simp] theorem dropLock_procs : (s.dropLock p).procs = s.procs := by
  unfold Host.dropLock
  split <;> rfl

/-- What a system call does to the processes: the caller forks, is gone, or moves on and keeps a result it has. -/
theorem mainStep_cases (hok : proc.Ok) (hs : s.mainStep p proc answer = some s') :
    (∃ c pc, s.fork p proc c pc = some s') ∨ s' = s.remove p ∨
      ∃ (t : Host) (proc' : Process), t.procs = s.procs ∧ s' = t.setProc p proc' ∧
        ∀ r, proc.result = some r → proc'.result = some r := by
  obtain ⟨pc, result⟩ := proc
  cases pc with
  | fork1 | fork2 =>
    cases answer with
    | done => cases hs
    | child c => exact .inl ⟨c, _, hs⟩
    | failed =>
      cases hs
      exact .inr (.inr ⟨s, _, rfl, rfl, fun _ h => h⟩)
  | setsid | redirect | returned | serve =>
    cases answer <;> cases hs <;> exact .inr (.inr ⟨s, _, rfl, rfl, fun _ h => h⟩)
  | openFile =>
    obtain rfl : result = none := hok
    cases answer <;> cases hs <;> exact .inr (.inr ⟨s, _, rfl, rfl, nofun⟩)
  | setlk =>
    obtain rfl : result = none := hok
    cases answer with
    | done =>
      simp only [Host.mainStep] at hs
      split at hs <;> cases hs
      · exact .inr (.inr ⟨{ s with lock := some p }, _, rfl, rfl, nofun⟩)
      · exact .inr (.inr ⟨s, _, rfl, rfl, nofun⟩)
    | child c => cases hs
    | failed =>
      cases hs
      exact .inr (.inr ⟨s, _, rfl, rfl, nofun⟩)
  | closeFile =>
    obtain rfl : result = none := hok
    cases answer <;> cases hs
    exact .inr (.inr ⟨s.dropLock p, _, dropLock_procs, rfl, nofun⟩)
  | ftruncate =>
    cases answer <;> cases hs
    exact .inr (.inr ⟨{ s with file := [] }, _, rfl, rfl, fun _ h => h⟩)
  | write =>
    obtain rfl : result = none := hok
    cases answer <;> cases hs
    exact .inr (.inr ⟨{ s with file := Kernel.kernelWrite s.file (pidText p) 0 }, _, rfl, rfl, nofun⟩)
  | exit =>
    cases answer <;> cases hs
    exact .inr (.inl rfl)

theorem Ended.remove (h : s.Ended q r) (p : Nat) : (s.remove p).procs q = none ∨ (s.remove p).Ended q r := by
  obtain ⟨proc, hq, hr⟩ := h
  by_cases hqp : q = p
  · exact .inl (by simp [Host.remove, hqp])
  · exact .inr ⟨proc, by simpa [Host.remove, hqp] using hq, hr⟩

/-- A change of one process keeps the results of the others. -/
theorem Ended.setProc (h : s.Ended q r) (hp : q = p → proc.result = some r) : (s.setProc p proc).Ended q r := by
  obtain ⟨proc', hq, hr⟩ := h
  by_cases hqp : q = p
  · exact ⟨proc, by simp [Host.setProc, hqp], hp hqp⟩
  · exact ⟨proc', by simpa [Host.setProc, hqp] using hq, hr⟩

/-- **A result stays** as long as its process lives. -/
theorem Ended.step (h : s.Ended q r) (hinv : s.Inv) {a : ProcessAct} (hs : s.step a = some s') :
    s'.procs q = none ∨ s'.Ended q r := by
  have hlive : s.procs q ≠ none := by
    obtain ⟨proc, hq, -⟩ := h
    simp [hq]
  cases a with
  | start p =>
    simp only [Host.step] at hs
    split at hs
    · cases hs
    next hp =>
      cases hs
      exact .inr (h.setProc fun hqp => (hlive (hqp ▸ hp)).elim)
  | kill p =>
    obtain ⟨_, -, rfl⟩ := Option.map_eq_some_iff.mp hs
    exact h.remove p
  | run p answer =>
    obtain ⟨proc, hp, hs⟩ := Option.bind_eq_some_iff.mp hs
    have hproc : q = p → proc.result = some r := by
      rintro rfl
      obtain ⟨proc', hq, hr⟩ := h
      obtain rfl := Option.some_inj.mp (hp.symm.trans hq)
      exact hr
    rcases mainStep_cases (hinv p proc hp).ok hs with ⟨c, pc, hfork⟩ | rfl | ⟨t, proc', ht, rfl, hkeep⟩
    · unfold Host.fork at hfork
      split at hfork
      · cases hfork
      next hc =>
        cases hfork
        exact .inr ((h.setProc fun hqc => (hlive (hqc ▸ hc)).elim).setProc hproc)
    · exact h.remove p
    · have hended : t.Ended q r := by
        obtain ⟨proc', hq, hr⟩ := h
        exact ⟨proc', by rw [ht, hq], hr⟩
      exact .inr (hended.setProc fun hqp => hkeep r (hproc hqp))

end Host

theorem inv_of_reachable {s : Host} (h : daemons.Reachable s) : s.Inv := by
  refine h.invariant (fun s hs p proc hp => ?_) fun s a s' hi _ hs => hi.step hs
  rw [hs.1 p] at hp
  cases hp

/-- **One daemon**: in every state that is reached at most one live process got 0, only such a process serves, the pid
file names it; and what `ef_init_lockfile_to_unique` gave a process never changes, so none that got 1 or failed serves
later. -/
theorem one_daemon {s : Host} (h : daemons.Reachable s) : s.OneDaemon ∧
    ∀ a s' p r, s.Ended p r → s.step a = some s' → s'.procs p = none ∨ s'.Ended p r := by
  have hinv := inv_of_reachable h
  exact ⟨hinv.oneDaemon, fun a s' p r hp hs => hp.step hinv hs⟩

/-- The start of a daemon by pid `p`, whose forks have the next two pids, up to the open of the pid file. -/
def startActs (p : Nat) : List ProcessAct :=
  [.start p, .run p (.child (p + 1)), .run p .done, .run (p + 1) .done, .run (p + 1) (.child (p + 2)),
    .run (p + 1) .done, .run (p + 2) .done, .run (p + 2) .done]

/-- One daemon serves while another one has found the file locked; an old text in the file is gone. -/
theorem one_daemon_two : ∃ s, daemons.Reachable s ∧ (s.Serving 12 ∧ s.Ended 22 (.returned 1) ∧ s.file = [49, 50, 0]) ∧
    s.OneDaemon := by
  obtain ⟨s, hs, hp⟩ := Transition.System.reachable_of_run daemons ⟨fun _ => none, none, bytes "98765"⟩
    ⟨fun _ => rfl, rfl⟩
    (startActs 10 ++ startActs 20 ++ [.run 12 .done, .run 12 .done, .run 22 .done, .run 12 .done, .run 22 .done,
      .run 12 .done])
    (fun s => decide (s.procs 12 = some ⟨.serve, some (.returned 0)⟩ ∧
      s.procs 22 = some ⟨.returned 1, some (.returned 1)⟩ ∧ s.file = [49, 50, 0])) (by decide)
  obtain ⟨h12, h22, hfile⟩ := of_decide_eq_true hp
  exact ⟨s, hs, ⟨⟨_, h12, rfl⟩, ⟨_, h22, rfl⟩, hfile⟩, (one_daemon hs).1⟩

end Everyfile.Daemon
