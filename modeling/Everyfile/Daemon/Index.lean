import Everyfile.Db.Refine

/-!
# The table the daemon builds

A pass of `ef_kernel_conn` makes the database call of the message it has received. For the events of files under plain
absolute names the calls are those of the map: `vfs_create` and `vfs_mkdir` add a row, `vfs_unlink` and `vfs_rmdir`
remove one (`run_add`, `run_rm`).
-/

namespace Everyfile.Daemon

open Db (Sqlite Table)
open Kernel (NlMsg)

/-- The database call, where it comes back. -/
def DbCall.run (E : Sqlite) (t : Table) : DbCall → Option Table
  | .add info => (Db.EfDb.add E info t).bind fun r => if r.2 = .threw then none else some r.1
  | .rm fname => (Db.EfDb.rm E fname t).bind fun r => if r.2 = .threw then none else some r.1

/-- A pass of the loop on a message received at the time `now`: the record variable and the table after it. -/
def pass (E : Sqlite) (s : FileInfo × Table) (payload : List Byte) (now : Int) : Option (FileInfo × Table) :=
  match dispatch s.1 (userMsg payload) now with
  | (info, none) => some (info, s.2)
  | (info, some call) => (call.run E s.2).map (info, ·)

/-- The table after the call of an event. -/
def applyEvent (E : Sqlite) (t : Table) (m : NlMsg) (now : Int) : Option Table :=
  match eventCall m now with
  | none => some t
  | some call => call.run E t

/-- What a pass does to the table: the call of the event it reads. The record variable has no part in it. -/
theorem pass_decode (E : Sqlite) (s : FileInfo × Table) (payload : List Byte) (now : Int) :
    (pass E s payload now).map Prod.snd =
      match (decode (userMsg payload)).bind (eventCall · now) with
      | none => some s.2
      | some call => call.run E s.2 := by
  rw [← dispatch_snd s.1, pass]
  rcases dispatch s.1 (userMsg payload) now with ⟨info, _ | call⟩
  · rfl
  · simp

theorem pass_event (E : Sqlite) (s : FileInfo × Table) {m : NlMsg} (h : m.WF) (now : Int) :
    (pass E s m.encode now).map Prod.snd = applyEvent E s.2 m now := by
  rw [pass_decode, decode_encode h]
  rfl

/-- A name as the kernel reports it: an absolute path that is a key of the database and fits its texts. -/
structure PlainName (n : List Byte) : Prop where
  nulFree : NulFree n
  quoteFree : 34 ∉ n
  length_le : n.length ≤ 1022
  head : n[0]? = some 47
  second : n[1]? ≠ some 47

instance (n : List Byte) : Decidable (PlainName n) :=
  decidable_of_iff ((NulFree n ∧ 34 ∉ n) ∧ n.length ≤ 1022 ∧ n[0]? = some 47 ∧ n[1]? ≠ some 47)
    ⟨fun h => ⟨h.1.1, h.1.2, h.2.1, h.2.2.1, h.2.2.2⟩, fun h => ⟨⟨h.1, h.2⟩, h.3, h.4, h.5⟩⟩

namespace PlainName

variable {E : Sqlite} {t : Table} {n : List Byte}

theorem columnOf_eq_none (h : n[0]? = some 47) : Db.columnOf n = none := by
  obtain ⟨b, n, rfl⟩ : ∃ b n', n = b :: n' := by
    cases n with
    | nil => simp at h
    | cons b n => exact ⟨b, n, rfl⟩
  obtain rfl : b = 47 := by simpa using h
  simp [Db.columnOf, Db.lower, bytes]

theorem run_add (h : PlainName n) (type : FileType) (now : Int64) :
    (DbCall.add ⟨n, type, now.toInt⟩).run E t = some (t.add ⟨n, decimal type.toNat, E.datetime now.toInt⟩) := by
  have hs : ¬(n[0]? = some 47 ∧ n[1]? = some 47) := fun hs => h.second hs.2
  have hfit := Db.length_addText_lt type (h.length_le.trans (by decide)) now
  simp [DbCall.run, Db.add_eq (Db.normalise_eq_self hs) h.nulFree h.quoteFree hfit]

theorem run_rm (h : PlainName n) : (DbCall.rm n).run E t = some (t.erase n) := by
  have hfit := Db.length_rmText_lt (h.length_le.trans (by decide))
  simp [DbCall.run, Db.rm_eq h.nulFree h.quoteFree (columnOf_eq_none h.head) hfit]

end PlainName

end Everyfile.Daemon
