import Everyfile.Daemon.Index
import Mathlib.Data.List.DropRight

/-!
# The table after the loop

`conn` is the loop of `ef_kernel_conn` over the messages it receives, each with the time at which it comes; the record
variable goes from one pass to the next. For messages with a path under a plain name the table follows the history of
each path (`conn_history`): the path has a row if its last event was a creation, and the row is that of the first
creation since the last removal.
-/

namespace Everyfile.Daemon

open Db (Sqlite Table Row)

/-- A message: a flag character, a space and a path, received at the time `now`. -/
structure Received where
  code : Byte
  path : List Byte
  now : Int64
  deriving DecidableEq, Repr

namespace Received

def payload (m : Received) : List Byte := m.code :: 32 :: m.path

/-- The flags `1`, `3` and `6`. -/
def creates (m : Received) : Bool := m.code = 49 ∨ m.code = 51 ∨ m.code = 54

/-- The flags `2` and `4`. -/
def removes (m : Received) : Bool := m.code = 50 ∨ m.code = 52

/-- The row of a creation: the type text is 2, of a directory, for the flag `3`, and 1, of a regular file, otherwise. -/
def row (E : Sqlite) (m : Received) : Row :=
  ⟨m.path, if m.code = 51 then bytes "2" else bytes "1", E.datetime m.now.toInt⟩

end Received

/-- The passes of the loop, one for each message. -/
def conn (E : Sqlite) (s : FileInfo × Table) : List Received → Option (FileInfo × Table)
  | [] => some s
  | m :: ms => (pass E s m.payload m.now.toInt).bind fun s => conn E s ms

/-! ## What is to hold -/

/-- The events of a path, in the order of their messages. -/
def eventsOf (p : List Byte) (ms : List Received) : List Received :=
  ms.filter fun m => m.path = p ∧ (m.creates ∨ m.removes)

/-- The row of `p` follows the events of `p`: it is there if the last one was a creation, and it is that of the first
creation since the last removal, or the one of the initial table where it was not removed. -/
structure Follows (E : Sqlite) (t₀ t : Table) (ms : List Received) (p : List Byte) : Prop where
  present : p ∈ t.names ↔
    match (eventsOf p ms).getLast? with
    | some m => m.creates = true
    | none => p ∈ t₀.names
  row : t.lookup p = (if (eventsOf p ms).all Received.creates then t₀.lookup p else none).or
    (((eventsOf p ms).rtakeWhile Received.creates).head?.map (Received.row E))

/-- A message changes the table only where it is an event, at its own path, and a second creation changes nothing. -/
structure Local (m : Received) (t t' : Table) : Prop where
  other_code : m.creates = false → m.removes = false → t' = t
  other_path : ∀ p, p ≠ m.path → t'.lookup p = t.lookup p
  duplicate : m.creates = true → m.path ∈ t.names → t' = t

/-! ## One pass -/

variable {E : Sqlite} {s : FileInfo × Table} {t t₀ : Table} {m : Received} {ms : List Received} {p : List Byte}

/-- The table after a message. -/
def Received.apply (E : Sqlite) (t : Table) (m : Received) : Table :=
  if m.creates then t.add (m.row E) else if m.removes then t.erase m.path else t

/-- The switch has a case for the flags from `1` to `6`. -/
theorem decode_payload (h : PlainName m.path) : decode (userMsg m.payload) =
    if 49 ≤ m.code.toNat ∧ m.code.toNat ≤ 54 then some ⟨m.code.toNat - 48, m.path⟩ else none := by
  have hcase : caseOf (userMsg m.payload) =
      (if m.code.toNat < 128 then (m.code.toNat : Int) else (m.code.toNat : Int) - 256) - 48 := rfl
  have hname : nameOf (userMsg m.payload) = m.path := nameOf_cons h.nulFree h.length_le
  rw [decode, hcase, hname]
  by_cases hneg : m.code.toNat < 128
  · rw [if_pos hneg]
    by_cases hrange : 49 ≤ m.code.toNat ∧ m.code.toNat ≤ 54
    · rw [if_pos hrange, if_pos (by omega)]
      congr 2
      omega
    · rw [if_neg hrange, if_neg (by omega)]
  · rw [if_neg hneg, if_neg (by have := m.code.toNat_lt; omega), if_neg (by omega)]

/-- **One pass** on a message with a plain path. -/
theorem pass_received (h : PlainName m.path) :
    (pass E s m.payload m.now.toInt).map Prod.snd = some (m.apply E s.2) := by
  rw [pass_decode, decode_payload h]
  obtain ⟨code, path, now⟩ := m
  by_cases hrange : 49 ≤ code.toNat ∧ code.toNat ≤ 54
  · rw [if_pos hrange]
    have hcode : code = 49 ∨ code = 50 ∨ code = 51 ∨ code = 52 ∨ code = 53 ∨ code = 54 := by
      simp only [← UInt8.toNat_inj]
      simp
      omega
    rcases hcode with rfl | rfl | rfl | rfl | rfl | rfl
    · exact h.run_add .EREG now
    · exact h.run_rm
    · exact h.run_add .EDIR now
    · exact h.run_rm
    · rfl
    · exact h.run_add .EREG now
  · rw [if_neg hrange]
    have hcode : ∀ k : Byte, 49 ≤ k.toNat → k.toNat ≤ 54 → code ≠ k := by
      rintro k hlo hhi rfl
      exact hrange ⟨hlo, hhi⟩
    simp [Received.apply, Received.creates, Received.removes, hcode]

/-- **The loop** on messages with plain paths. -/
theorem conn_received (h : ∀ m ∈ ms, PlainName m.path) :
    (conn E s ms).map Prod.snd = some (ms.foldl (Received.apply E) s.2) := by
  induction ms generalizing s with
  | nil => rfl
  | cons m ms ih =>
    obtain ⟨hm, hms⟩ := List.forall_mem_cons.mp h
    obtain ⟨s', hs', htable⟩ := Option.map_eq_some_iff.mp (pass_received (E := E) (s := s) hm)
    rw [conn, hs', Option.bind_some, ih hms, htable, List.foldl_cons]

theorem lookup_apply (m : Received) (t : Table) (p : List Byte) : (m.apply E t).lookup p =
    if p = m.path then
      if m.creates then some ((t.lookup p).getD (m.row E)) else if m.removes then none else t.lookup p
    else t.lookup p := by
  unfold Received.apply
  by_cases hc : m.creates = true
  · rw [if_pos hc, if_pos hc, Table.lookup_add]
    rfl
  · rw [if_neg hc, if_neg hc]
    by_cases hr : m.removes = true
    · rw [if_pos hr, if_pos hr, Table.lookup_erase]
    · simp [hr]

/-- What a message leaves alone. -/
theorem local_apply (m : Received) (t : Table) : Local m t (m.apply E t) where
  other_code hc hr := by simp [Received.apply, hc, hr]
  other_path p hp := by rw [lookup_apply, if_neg hp]
  duplicate hc hmem := by
    rw [Received.apply, if_pos hc]
    exact Table.rows_add_of_mem hmem

/-! ## The loop -/

theorem eventsOf_concat : eventsOf p (ms ++ [m]) =
    eventsOf p ms ++ if m.path = p ∧ (m.creates ∨ m.removes) then [m] else [] := by
  rw [eventsOf, List.filter_append, List.filter_singleton]
  simp [eventsOf]

/-- A creation comes after the events before it. -/
theorem Follows.create (h : Follows E t₀ t ms m.path) (hc : m.creates = true) :
    Follows E t₀ (m.apply E t) (ms ++ [m]) m.path := by
  have hevents : eventsOf m.path (ms ++ [m]) = eventsOf m.path ms ++ [m] := by simp [eventsOf_concat, hc]
  have hlookup : (m.apply E t).lookup m.path = (t.lookup m.path).or (some (m.row E)) := by
    rw [lookup_apply, if_pos rfl, if_pos hc]
    cases t.lookup m.path <;> rfl
  refine ⟨?_, ?_⟩
  · rw [hevents, List.getLast?_concat, Table.names, ← Table.lookup_isSome, hlookup]
    simp [hc]
  · rw [hlookup, h.row, hevents, List.rtakeWhile_concat_pos _ _ _ hc, List.all_append, List.head?_append,
      Option.or_assoc]
    cases ((eventsOf m.path ms).rtakeWhile Received.creates).head? <;> simp [hc]

/-- After a removal nothing is left. -/
theorem Follows.remove (hc : m.creates = false) (hr : m.removes = true) :
    Follows E t₀ (m.apply E t) (ms ++ [m]) m.path := by
  have hevents : eventsOf m.path (ms ++ [m]) = eventsOf m.path ms ++ [m] := by simp [eventsOf_concat, hr]
  have hlookup : (m.apply E t).lookup m.path = none := by
    rw [lookup_apply, if_pos rfl]
    simp [hc, hr]
  refine ⟨?_, ?_⟩
  · rw [hevents, List.getLast?_concat, Table.names, ← Table.lookup_isSome, hlookup]
    simp [hc]
  · rw [hlookup, hevents, List.rtakeWhile_concat_neg _ _ _ (by simp [hc])]
    simp [hc]

/-- Other messages are no events of the path. -/
theorem Follows.other (h : Follows E t₀ t ms p) (hm : ¬(m.path = p ∧ (m.creates = true ∨ m.removes = true))) :
    Follows E t₀ (m.apply E t) (ms ++ [m]) p := by
  have hevents : eventsOf p (ms ++ [m]) = eventsOf p ms := by
    rw [eventsOf_concat, if_neg hm, List.append_nil]
  have hlookup : (m.apply E t).lookup p = t.lookup p := by
    rw [lookup_apply]
    split
    next hp =>
      obtain ⟨hc, hr⟩ := not_or.mp fun hevent => hm ⟨hp.symm, hevent⟩
      rw [if_neg hc, if_neg hr]
    next => rfl
  refine ⟨?_, ?_⟩
  · rw [hevents, Table.names, ← Table.lookup_isSome, hlookup, Table.lookup_isSome]
    exact h.present
  · rw [hlookup, hevents, h.row]

/-- **The table follows the events** of each path. -/
theorem follows_foldl (E : Sqlite) (t₀ : Table) (ms : List Received) (p : List Byte) :
    Follows E t₀ (ms.foldl (Received.apply E) t₀) ms p := by
  induction ms using List.reverseRecOn with
  | nil => exact ⟨by simp [eventsOf], by simp [eventsOf]⟩
  | append_singleton ms m ih =>
    rw [List.foldl_concat]
    by_cases hm : m.path = p ∧ (m.creates = true ∨ m.removes = true)
    · obtain ⟨rfl, hevent⟩ := hm
      by_cases hc : m.creates = true
      · exact ih.create hc
      · exact .remove (Bool.eq_false_iff.mpr hc) (hevent.resolve_left hc)
    · exact ih.other hm

/-- **The index follows the history**: after any messages with plain paths each path has the row that its events give
it, and each message has changed the table only as an event of its own path. -/
theorem conn_history (E : Sqlite) (info : FileInfo) (t₀ : Table) {ms : List Received} (h : ∀ m ∈ ms, PlainName m.path) :
    ∃ r, conn E (info, t₀) ms = some r ∧ (∀ p, Follows E t₀ r.2 ms p) ∧
      ∀ before m after, ms = before ++ m :: after →
        ∃ r r', conn E (info, t₀) before = some r ∧ conn E (info, t₀) (before ++ [m]) = some r' ∧ Local m r.2 r'.2 := by
  obtain ⟨r, hr, htable⟩ := Option.map_eq_some_iff.mp (conn_received (E := E) (s := (info, t₀)) h)
  refine ⟨r, hr, fun p => htable ▸ follows_foldl E t₀ ms p, ?_⟩
  rintro before m after rfl
  have hbefore : ∀ m' ∈ before, PlainName m'.path := fun m' hm' => h m' (by simp [hm'])
  have hm : ∀ m' ∈ before ++ [m], PlainName m'.path := by
    rw [List.forall_mem_append]
    exact ⟨hbefore, by simpa using h m (by simp)⟩
  obtain ⟨s, hs, hs'⟩ := Option.map_eq_some_iff.mp (conn_received (E := E) (s := (info, t₀)) hbefore)
  obtain ⟨s', hs₂, hs₂'⟩ := Option.map_eq_some_iff.mp (conn_received (E := E) (s := (info, t₀)) hm)
  refine ⟨s, s', hs, hs₂, ?_⟩
  rw [hs₂', List.foldl_concat, ← hs']
  exact local_apply m s.2

/-- An engine that writes the seconds themselves. -/
def secondsEngine : Sqlite := { Db.plainEngine with datetime := fun t => some (decimalInt t) }

/-- A file reported by two probes has the time of the first report, and a new directory the type of one; another file,
which was there before, is removed. -/
theorem conn_history_two : ∃ r, conn secondsEngine (⟨[], .ERR, 0⟩, Db.rowY)
      [⟨54, bytes "/a", 5⟩, ⟨49, bytes "/a", 6⟩, ⟨51, bytes "/d", 7⟩, ⟨52, bytes "/y", 8⟩] = some r ∧
    r.2.lookup (bytes "/a") = some ⟨bytes "/a", bytes "1", some (bytes "5")⟩ ∧
      r.2.lookup (bytes "/d") = some ⟨bytes "/d", bytes "2", some (bytes "7")⟩ ∧ bytes "/y" ∉ r.2.names := by
  have hplain : ∀ m ∈ [(⟨54, bytes "/a", 5⟩ : Received), ⟨49, bytes "/a", 6⟩, ⟨51, bytes "/d", 7⟩,
      ⟨52, bytes "/y", 8⟩], PlainName m.path := by decide
  obtain ⟨r, hr, hfollows, -⟩ := conn_history secondsEngine ⟨[], .ERR, 0⟩ Db.rowY hplain
  refine ⟨r, hr, (hfollows _).row.trans (by decide), (hfollows _).row.trans (by decide), fun hmem => ?_⟩
  have hlast : false = true := (hfollows (bytes "/y")).present.mp hmem
  cases hlast

end Everyfile.Daemon
