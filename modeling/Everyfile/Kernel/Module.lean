import Everyfile.Kernel.MountLoad
import Everyfile.Lib.Transition

/-!
# Loading and unloading the module

`kprobe_init` fills the list of partitions, opens the log, creates the netlink socket and the send thread and registers
the six probes, with early returns that give nothing back; `kprobe_exit` unregisters one probe and stops the thread.
The steps of the system are the loads that return, each with the outcomes of its acquisitions, and the unloads.

Everything is given back where a load fails before it has acquired anything (`Clean`). A load that fails later and every
unload leave resources behind (`kprobeInit_failed`, `not_released_unload`), so the runs in which nothing is left are
those of clean steps (`released_iff_clean`).
-/

namespace Everyfile.Kernel

/-! ## The resources -/

/-- The probed functions of `krp_entrys_kp`. -/
inductive KrpEntry
  | vfs_create | vfs_unlink | vfs_mkdir | vfs_rmdir | vfs_symlink | security_inode_create
  deriving DecidableEq, Repr

def krpEntrysKp : List KrpEntry :=
  [.vfs_create, .vfs_unlink, .vfs_mkdir, .vfs_rmdir, .vfs_symlink, .security_inode_create]

inductive Resource
  | partition (part : KrpPartition)
  | log
  | socket
  | sendKthread
  | probe (entry : KrpEntry)
  deriving DecidableEq, Repr

/-- What the acquisitions of one load meet: the mount table, if its file can be opened; the outcomes of `kmalloc` for
the buffers it is read into and for the partitions of its lines; whether `filp_open`, `netlink_kernel_create` and
`kthread_create` succeed; and what `register_kprobes` returns. -/
structure InitOutcome where
  mounts : Option (List MountRecord)
  kmalloc : Kmalloc
  alloc : Nat → Bool
  filpOpen : Bool
  netlinkKernelCreate : Bool
  kthreadCreate : Bool
  registerKprobes : Int

namespace InitOutcome

/-- The resources at the test of the socket; the thread is created before it. -/
def heldAtTest (o : InitOutcome) (parts : List KrpPartition) : List Resource :=
  parts.map .partition ++ [.log] ++ (if o.netlinkKernelCreate then [.socket] else []) ++
    if o.kthreadCreate then [.sendKthread] else []

/-- `kprobe_init` after `init_mounts_info`. -/
def afterMounts (o : InitOutcome) (parts : List KrpPartition) : Int × List Resource :=
  if o.filpOpen then
    if o.netlinkKernelCreate then
      if o.registerKprobes < 0 then (o.registerKprobes, o.heldAtTest parts)
      else (0, o.heldAtTest parts ++ krpEntrysKp.map .probe)
    else (-1, o.heldAtTest parts)
  else (-1, parts.map .partition)

/-- The lines of the mount table that come to the list of partitions. -/
def entered (o : InitOutcome) : List MountRecord := (o.mounts.map (Kernel.entered o.kmalloc o.alloc)).getD []

end InitOutcome

/-- `kprobe_init`: what it returns, and the resources it has acquired by then. From a mount table that is read for ever
it does not return. -/
def kprobeInit (o : InitOutcome) (fuel : Nat) : Option (Int × List Resource) :=
  (initMountsInfo o.kmalloc o.alloc (o.mounts.map mountinfo) fuel).map o.afterMounts

/-- `kprobe_exit`: what is left of the resources. Where no thread was created, `kthread_stop` of the error pointer does
not return. -/
def kprobeExit (held : List Resource) : Option (List Resource) :=
  if .sendKthread ∈ held then some (held.filter fun r => r ≠ .probe .vfs_mkdir ∧ r ≠ .sendKthread) else none

/-! ## Loads and unloads -/

/-- The resources of the module if it is loaded, and those left by the loads before. -/
structure ModuleState where
  loaded : Option (List Resource)
  left : List Resource
  deriving DecidableEq, Repr

inductive ModuleAct
  /-- A load; the fuel is for the rounds of reading the mount table. -/
  | load (o : InitOutcome) (fuel : Nat)
  | unload

namespace ModuleState

def held (s : ModuleState) : List Resource := s.left ++ s.loaded.getD []

/-- The module is loaded once at a time, and it is unloaded only after a load that returned 0. -/
def step (s : ModuleState) : ModuleAct → Option ModuleState
  | .load o fuel =>
    match s.loaded with
    | some _ => none
    | none => (kprobeInit o fuel).map fun r =>
        if r.1 = 0 then { s with loaded := some r.2 } else { s with left := s.left ++ r.2 }
  | .unload =>
    match s.loaded with
    | none => none
    | some held => (kprobeExit held).map fun rest => ⟨none, s.left ++ rest⟩

end ModuleState

/-- Outside the time from a successful load to the unload nothing is held. -/
def ModuleState.Released (s : ModuleState) : Prop := s.loaded = none → s.held = []

/-- A load that succeeds, or that fails before it has acquired anything: at the open, without a line of the table that
gives a partition. No unload is clean. -/
def Clean (_ : ModuleState) : ModuleAct → Prop
  | .load o _ =>
    if o.filpOpen then o.netlinkKernelCreate = true ∧ 0 ≤ o.registerKprobes
    else ∀ r ∈ o.entered, isSpecialMp r.read = true
  | .unload => False

/-! ## What a load acquires -/

namespace InitOutcome

variable {o : InitOutcome} {parts : List KrpPartition}

theorem heldAtTest_ne_nil : o.heldAtTest parts ≠ [] := by simp [heldAtTest]

theorem afterMounts_eq_zero_iff :
    (o.afterMounts parts).1 = 0 ↔ o.filpOpen = true ∧ o.netlinkKernelCreate = true ∧ 0 ≤ o.registerKprobes := by
  fun_cases afterMounts o parts with
  | case1 _ _ hreg =>
    have hneg : ¬0 ≤ o.registerKprobes := by omega
    simp [hneg, hreg.ne]
  | case2 hopen hsock hreg => simp [hopen, hsock, Int.not_lt.mp hreg]
  | case3 _ hsock => simp [hsock]
  | case4 hopen => simp [hopen]

/-- Nothing is held after a failure exactly if it is one at the open without partitions. -/
theorem afterMounts_failed (h : (o.afterMounts parts).1 ≠ 0) :
    (o.afterMounts parts).2 = [] ↔ o.filpOpen = false ∧ parts = [] := by
  revert h
  fun_cases afterMounts o parts with
  | case1 hopen => simp [hopen, heldAtTest_ne_nil]
  | case2 => simp
  | case3 hopen => simp [hopen, heldAtTest_ne_nil]
  | case4 hopen => simp [hopen]

theorem afterMounts_succeeded (h : (o.afterMounts parts).1 = 0) :
    (o.afterMounts parts).2 = o.heldAtTest parts ++ krpEntrysKp.map .probe := by
  obtain ⟨hopen, hsock, hreg⟩ := afterMounts_eq_zero_iff.mp h
  rw [afterMounts, if_pos hopen, if_pos hsock, if_neg (by omega)]

end InitOutcome

section

variable {o : InitOutcome} {fuel : Nat} {r : Int × List Resource}

/-- A load that returns has gone on with the partitions of the lines entered. -/
theorem kprobeInit_eq (h : kprobeInit o fuel = some r) :
    r = o.afterMounts (load (o.entered.map MountRecord.entry)) := by
  obtain ⟨parts, hparts, rfl⟩ := Option.map_eq_some_iff.mp h
  refine congrArg o.afterMounts ?_
  unfold InitOutcome.entered
  cases hm : o.mounts with
  | none =>
    rw [hm] at hparts
    exact (Option.some_inj.mp hparts).symm
  | some rs =>
    rw [hm] at hparts
    exact parts_of_load hparts

/-- **A load that fails** leaves nothing exactly if it fails at the open without partitions. -/
theorem kprobeInit_failed (h : kprobeInit o fuel = some r) (hret : r.1 ≠ 0) :
    r.2 = [] ↔ o.filpOpen = false ∧ ∀ r ∈ o.entered, isSpecialMp r.read = true := by
  rw [kprobeInit_eq h] at hret ⊢
  rw [InitOutcome.afterMounts_failed hret, load_eq_nil_iff]

theorem kprobeInit_eq_zero_iff (h : kprobeInit o fuel = some r) :
    r.1 = 0 ↔ o.filpOpen = true ∧ o.netlinkKernelCreate = true ∧ 0 ≤ o.registerKprobes := by
  rw [kprobeInit_eq h]
  exact InitOutcome.afterMounts_eq_zero_iff

/-- **A load that succeeds** has registered the probes. -/
theorem kprobeInit_succeeded (h : kprobeInit o fuel = some r) (hret : r.1 = 0) {entry : KrpEntry}
    (hentry : entry ∈ krpEntrysKp) : .probe entry ∈ r.2 := by
  rw [kprobeInit_eq h] at hret ⊢
  rw [InitOutcome.afterMounts_succeeded hret]
  exact List.mem_append_right _ (List.mem_map_of_mem hentry)

end

/-! ## What is given back -/

namespace ModuleState

variable {s s' : ModuleState}

/-- Along clean runs: nothing is left by earlier loads, and a loaded module holds its probes. -/
structure Inv (s : ModuleState) : Prop where
  left : s.left = []
  loaded : ∀ held, s.loaded = some held → .probe .vfs_create ∈ held

/-- The step of a load. -/
theorem step_load {o : InitOutcome} {fuel : Nat} (hs : s.step (.load o fuel) = some s') : s.loaded = none ∧
    ∃ r, kprobeInit o fuel = some r ∧ (r.1 = 0 ∧ s' = { s with loaded := some r.2 } ∨
      r.1 ≠ 0 ∧ s' = { s with left := s.left ++ r.2 }) := by
  simp only [step] at hs
  cases hl : s.loaded with
  | some held => simp [hl] at hs
  | none =>
    simp only [hl] at hs
    obtain ⟨r, hr, hs⟩ := Option.map_eq_some_iff.mp hs
    refine ⟨rfl, r, hr, ?_⟩
    split at hs
    next h => exact .inl ⟨h, hs.symm⟩
    next h => exact .inr ⟨h, hs.symm⟩

/-- A load that gives back everything is clean. -/
theorem clean_load_iff (h : s.Inv) {o : InitOutcome} {fuel : Nat} (hs : s.step (.load o fuel) = some s') :
    s'.Released ↔ Clean s (.load o fuel) := by
  obtain ⟨hl, r, hr, ⟨hret, rfl⟩ | ⟨hret, rfl⟩⟩ := step_load hs
  · obtain ⟨hopen, hsock, hreg⟩ := (kprobeInit_eq_zero_iff hr).mp hret
    simp [Released, Clean, hopen, hsock, hreg]
  · have hfail := kprobeInit_failed hr hret
    rw [Ne, kprobeInit_eq_zero_iff hr] at hret
    simp only [Released, held, h.left, hl, Option.getD_none, List.append_nil, List.nil_append, true_implies, hfail,
      Clean]
    by_cases hopen : o.filpOpen = true
    · simpa [hopen] using hret
    · simp [hopen]

theorem Inv.step (h : s.Inv) {a : ModuleAct} (hc : Clean s a) (hs : s.step a = some s') : s'.Inv := by
  cases a with
  | load o fuel =>
    have hrel := (clean_load_iff h hs).mpr hc
    obtain ⟨hl, r, hr, ⟨hret, rfl⟩ | ⟨hret, rfl⟩⟩ := step_load hs
    · refine ⟨h.left, fun held hheld => ?_⟩
      rw [← Option.some_inj.mp hheld]
      exact kprobeInit_succeeded hr hret (by simp [krpEntrysKp])
    · refine ⟨?_, fun held hheld => ?_⟩
      · simpa [held, hl] using hrel hl
      · rw [hl] at hheld
        cases hheld
  | unload => exact hc.elim

end ModuleState

end Everyfile.Kernel
