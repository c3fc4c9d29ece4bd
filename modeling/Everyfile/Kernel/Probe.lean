import Everyfile.Kernel.Mounts
import Everyfile.Lib.Transition
import Mathlib.Data.Fintype.Basic
import Mathlib.Logic.Function.Basic

/-!
# Concurrent hits of one probe

`pre_handler_common` leaves the arguments of a call in `entry->data`, one slot for each probe, and
`post_handler_common` takes them from there. Both are atomic steps; the calls of the probed function, one for each
`c : ι`, interleave. A second call's pre step between the pre and the post step of a call replaces what the post step
reads (`calls_mixed_up`). In the runs in which each post step finds its own call's record (`Undisturbed`), every call is
reported once under its own path (`calls_reported`).
-/

namespace Everyfile.Kernel

/-- What `pre_handler_common` reads of a dentry: the device of its superblock, if it has one, and the answer of
`dentry_path_raw`. -/
structure Dentry where
  sDev : Option Nat
  path : Option (List Byte)
  deriving DecidableEq, Repr

/-- `MAJOR(dev)` and `MINOR(dev)`. -/
def devMajor (dev : Nat) : Nat := dev / 1048576
def devMinor (dev : Nat) : Nat := dev % 1048576

/-- `vfs_op_args`; `path` may be null. -/
structure VfsOpArgs where
  major : UInt8
  minor : UInt8
  path : Option (List Byte)
  deriving DecidableEq, Repr

/-- `entry->data`: null, a record fresh from `kmalloc`, or a record filled in. -/
inductive Slot
  | null
  | garbage
  | args (a : VfsOpArgs)
  deriving DecidableEq, Repr

/-- `pre_handler_common`: what it leaves in the slot, and whether it returns 0. `alloc` is whether `kmalloc`
succeeds. -/
def preHandlerCommon (de : Option Dentry) (alloc : Bool) : Slot × Bool :=
  if alloc then
    match de with
    | none => (.garbage, false)
    | some d =>
      match d.sDev with
      | none => (.garbage, false)
      | some dev =>
        (.args ⟨UInt8.ofNat (devMajor dev), UInt8.ofNat (devMinor dev), d.path⟩, d.path.isSome)
  else (.null, false)

/-- What `post_handler_common` does: nothing, a call of `add_vfs_changed`, or a read through a null pointer or of a
record never filled in. -/
inductive Outcome
  | dropped
  | event (path : List Byte)
  | badRead
  deriving DecidableEq, Repr

/-- The path reported for a file at `path` of a filesystem mounted at `root`. -/
def flPath (root path : List Byte) : List Byte := if mountedAt root (bytes "/") then path else root ++ path

/-- `post_handler_common`. `success` is `is_syscall_success(regs)`, `alloc` whether `kmalloc` succeeds. A null record
or path is only noted in the log before it is read. -/
def postHandlerCommon (partitions : List KrpPartition) (data : Slot) (success alloc : Bool) : Outcome :=
  if success then
    match data with
    | .null | .garbage => .badRead
    | .args a =>
      let root := getRoot partitions a.major a.minor
      if root = [] then .dropped
      else if isSpecialMp root then .dropped
      else
        match a.path with
        | none => .badRead
        | some path => if alloc then .event (flPath root path) else .dropped
  else .dropped

/-! ## The calls of one probed function -/

/-- The progress of a call. -/
inductive CallPc
  | fresh | running | skipped | finished
  deriving DecidableEq, Repr

/-- The probe: its event flag, the partitions, and the dentry of each call. -/
structure Probe (ι : Type*) where
  flags : Nat
  partitions : List KrpPartition
  dentry : ι → Option Dentry

structure ProbeState (ι : Type*) where
  data : Slot
  pc : ι → CallPc
  /-- The calls of `add_vfs_changed`. -/
  events : List (Nat × List Byte)
  badRead : Bool

inductive ProbeAct (ι : Type*)
  | pre (c : ι) (alloc : Bool)
  | post (c : ι) (success alloc : Bool)

namespace Probe

variable {ι : Type*} [DecidableEq ι]

def step (P : Probe ι) (s : ProbeState ι) : ProbeAct ι → Option (ProbeState ι)
  | .pre c alloc =>
    if s.pc c = .fresh then
      let r := preHandlerCommon (P.dentry c) alloc
      some { s with data := r.1, pc := Function.update s.pc c (if r.2 then .running else .skipped) }
    else none
  | .post c success alloc =>
    if s.pc c = .running then
      let s := { s with pc := Function.update s.pc c .finished }
      match postHandlerCommon P.partitions s.data success alloc with
      | .dropped => some s
      | .event path => some { s with events := s.events ++ [(P.flags, path)] }
      | .badRead => some { s with badRead := true }
    else none

def start : ProbeState ι := ⟨.null, fun _ => .fresh, [], false⟩

def system (P : Probe ι) : Transition.System (ProbeState ι) (ProbeAct ι) where
  init s := s = start
  step := P.step

/-- What the pre step of a call leaves in the slot where it returns 0. -/
def ownSlot (P : Probe ι) (c : ι) : Slot := (preHandlerCommon (P.dentry c) true).1

/-- The event of a call: its dentry's path below the root of its device. -/
def ownEvent (P : Probe ι) (c : ι) : Nat × List Byte :=
  match P.dentry c with
  | some ⟨some dev, some path⟩ =>
    (P.flags, flPath (getRoot P.partitions (UInt8.ofNat (devMajor dev)) (UInt8.ofNat (devMinor dev))) path)
  | _ => (P.flags, [])

/-- All devices are listed, and none is mounted at a special place. -/
def Listed (P : Probe ι) : Prop :=
  ∀ c d dev, P.dentry c = some d → d.sDev = some dev →
    getRoot P.partitions (UInt8.ofNat (devMajor dev)) (UInt8.ofNat (devMinor dev)) ≠ [] ∧
      isSpecialMp (getRoot P.partitions (UInt8.ofNat (devMajor dev)) (UInt8.ofNat (devMinor dev))) = false

/-- No null record or path is read, and once every call is over there is exactly one event for each call whose pre step
returned 0, with its own path. -/
def Reported [Fintype ι] (P : Probe ι) (s : ProbeState ι) : Prop :=
  s.badRead = false ∧
    ((∀ c, s.pc c = .finished ∨ s.pc c = .skipped) →
      (s.events : Multiset (Nat × List Byte)) = (Finset.univ.filter (s.pc · = .finished)).val.map P.ownEvent)

/-- A post step finds in the slot what its own call's pre step left there, its call counts as successful, and the path
can be copied. -/
def Undisturbed (P : Probe ι) (s : ProbeState ι) : ProbeAct ι → Prop
  | .pre _ _ => True
  | .post c success alloc => s.data = P.ownSlot c ∧ success = true ∧ alloc = true

section Steps

omit [DecidableEq ι]

variable {P : Probe ι} {s : ProbeState ι}

/-- A pre step that returns 0 has found a device and a path. -/
theorem preHandlerCommon_ok {de : Option Dentry} {alloc : Bool} (h : (preHandlerCommon de alloc).2 = true) :
    ∃ dev path, de = some ⟨some dev, some path⟩ := by
  unfold preHandlerCommon at h
  split at h
  · match de, h with
    | some ⟨some dev, some path⟩, _ => exact ⟨dev, path, rfl⟩
  · cases h

/-- The post step of a call that finds its own record reports its own event. -/
theorem postHandlerCommon_ownSlot (hP : P.Listed) {c : ι} {dev : Nat} {path : List Byte}
    (hd : P.dentry c = some ⟨some dev, some path⟩) :
    ∃ p, postHandlerCommon P.partitions (P.ownSlot c) true true = .event p ∧ P.ownEvent c = (P.flags, p) := by
  obtain ⟨hne, hsp⟩ := hP c _ dev hd rfl
  refine ⟨_, ?_, by simp only [ownEvent, hd]; rfl⟩
  simp [ownSlot, preHandlerCommon, hd, postHandlerCommon, hne, hsp]

/-- Along a run: no bad read, one event for each finished call, and a device and a path behind each call under way. -/
structure Inv [Fintype ι] (P : Probe ι) (s : ProbeState ι) : Prop where
  badRead : s.badRead = false
  events : (s.events : Multiset (Nat × List Byte)) = (Finset.univ.filter (s.pc · = .finished)).val.map P.ownEvent
  running : ∀ c, s.pc c = .running → ∃ dev path, P.dentry c = some ⟨some dev, some path⟩

theorem inv_start [Fintype ι] : P.Inv start := by
  constructor <;> simp [start]

end Steps

variable [Fintype ι] {P : Probe ι} {s s' : ProbeState ι}

/-- The finished calls after a call's pre step. -/
theorem finished_pre {pc : ι → CallPc} {c : ι} {p : CallPc} (hc : pc c ≠ .finished) (hp : p ≠ .finished) :
    Finset.univ.filter (Function.update pc c p · = .finished) = Finset.univ.filter (pc · = .finished) := by
  ext x
  by_cases hx : x = c
  · subst hx
    simp [hc, hp]
  · simp [hx]

/-- The finished calls after a call's post step. -/
theorem finished_post {pc : ι → CallPc} {c : ι} (hc : pc c ≠ .finished) :
    (Finset.univ.filter (Function.update pc c .finished · = .finished)).val =
      c ::ₘ (Finset.univ.filter (pc · = .finished)).val := by
  have hins : Finset.univ.filter (Function.update pc c .finished · = .finished) =
      insert c (Finset.univ.filter (pc · = .finished)) := by
    ext x
    by_cases hx : x = c
    · subst hx
      simp
    · simp [hx]
  rw [hins, Finset.insert_val_of_notMem (by simpa using hc)]

theorem Inv.pre (h : P.Inv s) {c : ι} {alloc : Bool} (hs : P.step s (.pre c alloc) = some s') : P.Inv s' := by
  obtain ⟨hfresh, hs⟩ := Option.ite_none_right_eq_some.mp hs
  cases hs
  have hne : s.pc c ≠ .finished := by rw [hfresh]; decide
  refine ⟨h.badRead, ?_, fun x hx => ?_⟩
  · show (s.events : Multiset (Nat × List Byte)) = _
    rw [h.events, finished_pre hne (by split <;> decide)]
  · by_cases hxc : x = c
    · subst hxc
      simp only [Function.update_self] at hx
      split at hx
      · exact preHandlerCommon_ok ‹_›
      · cases hx
    · exact h.running x (by simpa [hxc] using hx)

theorem Inv.post (h : P.Inv s) (hP : P.Listed) {c : ι} {success alloc : Bool}
    (hok : P.Undisturbed s (.post c success alloc)) (hs : P.step s (.post c success alloc) = some s') : P.Inv s' := by
  obtain ⟨hdata, rfl, rfl⟩ := hok
  obtain ⟨hrun, hs⟩ := Option.ite_none_right_eq_some.mp hs
  obtain ⟨dev, path, hd⟩ := h.running c hrun
  obtain ⟨p, hp, hown⟩ := postHandlerCommon_ownSlot hP hd
  simp only [hdata, hp, Option.some.injEq] at hs
  subst hs
  refine ⟨h.badRead, ?_, fun x hx => ?_⟩
  · show ((s.events ++ [(P.flags, p)] : List (Nat × List Byte)) : Multiset (Nat × List Byte)) = _
    rw [finished_post (by rw [hrun]; decide), Multiset.map_cons, ← h.events, hown, Multiset.cons_coe]
    exact Multiset.coe_eq_coe.mpr (List.perm_append_singleton _ _)
  · by_cases hxc : x = c
    · subst hxc
      simp at hx
    · exact h.running x (by simpa [hxc] using hx)

/-- **Concurrent hits of one probe**: in a run whose post steps find their own calls' records, each call is reported
once and under its own path. -/
theorem calls_reported (hP : P.Listed) (h : P.system.Reach P.Undisturbed s) : P.Reported s := by
  have hinv : P.Inv s := by
    refine h.invariant (fun s hs => ?_) fun s a s' hi hok hs => ?_
    · cases hs
      exact inv_start
    · cases a with
      | pre c alloc => exact hi.pre hs
      | post c success alloc => exact hi.post hP hok hs
  exact ⟨hinv.badRead, fun _ => hinv.events⟩

end Probe

/-! ## Two calls -/

/-- `vfs_create` of `/a` and of `/b` on device 8:1, mounted at `/`. -/
def twoCreates : Probe Bool where
  flags := 1
  partitions := [⟨8, 1, bytes "/"⟩]
  dentry c := some ⟨some 8388609, some (if c then bytes "/b" else bytes "/a")⟩

/-- The second call's pre step runs between the first call's pre and post steps: `/b` is reported twice. -/
theorem calls_mixed_up : ∃ s, twoCreates.system.Reachable s ∧ s.events = [(1, bytes "/b"), (1, bytes "/b")] ∧
    ¬twoCreates.Reported s := by
  obtain ⟨s, hs, hp⟩ := Transition.System.reachable_of_run twoCreates.system Probe.start rfl
    [.pre false true, .pre true true, .post false true true, .post true true true]
    (fun s => decide (s.events = [(1, bytes "/b"), (1, bytes "/b")] ∧ s.pc true = .finished ∧
      s.pc false = .finished)) (by decide)
  obtain ⟨he, ht, hf⟩ := of_decide_eq_true hp
  refine ⟨s, hs, he, fun h => ?_⟩
  have hover := h.2 (fun c => by cases c <;> simp [ht, hf])
  have hmem : (1, bytes "/a") ∈ (s.events : Multiset _) := by
    rw [hover]
    exact Multiset.mem_map.mpr ⟨false, by simp [hf], by decide⟩
  rw [he] at hmem
  exact absurd hmem (by decide)

/-- The two calls one after the other. -/
theorem calls_reported_in_turn : ∃ s, s.events = [(1, bytes "/a"), (1, bytes "/b")] ∧ twoCreates.Reported s := by
  obtain ⟨s, hs, hp⟩ := Transition.System.reach_of_runIf twoCreates.system Probe.start
    twoCreates.Undisturbed
    (fun s a => match a with
      | .pre _ _ => true
      | .post c success alloc => decide (s.data = twoCreates.ownSlot c ∧ success = true ∧ alloc = true))
    (fun s a ht => by
      cases a with
      | pre c alloc => trivial
      | post c success alloc => simpa [Probe.Undisturbed] using ht)
    rfl [.pre false true, .post false true true, .pre true true, .post true true true]
    (fun s => decide (s.events = [(1, bytes "/a"), (1, bytes "/b")])) (by decide)
  refine ⟨s, of_decide_eq_true hp, Probe.calls_reported (fun c d dev hd hdev => ?_) hs⟩
  cases hd
  cases hdev
  decide

end Everyfile.Kernel
