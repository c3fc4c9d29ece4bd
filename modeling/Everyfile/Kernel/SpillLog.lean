import Everyfile.Kernel.Mem

/-!
# Reading the overflow log back

`add_msg_to_file` appends to the overflow log the digit of the flag, a space and the path; `FILEON<pos>` announces the
records written since the last reset of `pos`. Neither says where a record ends. So two messages can be read as one, and
a path that contains the beginning of a record as two: what can be read back are the logs of at most one message, whose
path has no such place in it (`recoverable_iff`).
-/

namespace Everyfile.Kernel

/-- A message of a probe: one of the six flags, and a C string that is an absolute path. -/
structure Loggable (m : NlMsg) : Prop where
  flags_pos : 1 ≤ m.flags
  flags_le : m.flags ≤ 6
  nulFree : NulFree m.path
  abs : m.path.head? = some 47

/-- What is written to the log for messages spilled after a reset of `pos`, from offset 0 to `pos`. -/
def spillLog (s : Mem) (ms : List NlMsg) : List Byte :=
  let s := ms.foldl Mem.writeRecord s.resetPos
  s.file.take s.pos

/-- No other messages have the same log, whatever the file held before. -/
def Recoverable (ms : List NlMsg) : Prop :=
  ∀ s s' ns, (∀ n ∈ ns, Loggable n) → ns ≠ ms → spillLog s ns ≠ spillLog s' ms

/-- After some bytes of the path there stands what could begin a record: a digit, a space and a slash. -/
def HasRecord (p : List Byte) : Prop := ∃ a d b, a ≠ [] ∧ p = a ++ d :: 32 :: 47 :: b ∧ 49 ≤ d ∧ d ≤ 54

/-! ## What is written -/

/-- The records written at `pos` one after the other. -/
theorem take_foldl_writeRecord (ms : List NlMsg) {s : Mem} (h : s.pos ≤ s.file.length) :
    (ms.foldl Mem.writeRecord s).file.take (ms.foldl Mem.writeRecord s).pos = s.file.take s.pos ++ records ms := by
  induction ms generalizing s with
  | nil => simp [records]
  | cons m ms ih =>
    have hpos : (s.writeRecord m).pos ≤ (s.writeRecord m).file.length := le_length_kernelWrite h
    have htake : (s.writeRecord m).file.take (s.writeRecord m).pos = s.file.take s.pos ++ m.encode :=
      take_kernelWrite h
    rw [List.foldl_cons, ih hpos, htake, List.append_assoc]
    rfl

/-- **The log** is the records, without anything between them. -/
theorem spillLog_eq (s : Mem) (ms : List NlMsg) : spillLog s ms = records ms := by
  have h := take_foldl_writeRecord ms (s := s.resetPos) (Nat.zero_le _)
  rwa [show s.resetPos.pos = 0 from rfl, List.take_zero, List.nil_append] at h

theorem recoverable_iff_records {ms : List NlMsg} :
    Recoverable ms ↔ ∀ ns, (∀ n ∈ ns, Loggable n) → records ns = records ms → ns = ms := by
  simp only [Recoverable, spillLog_eq]
  constructor
  · intro h ns hns heq
    by_contra hne
    exact h .load .load ns hns hne heq
  · exact fun h _ _ ns hns hne heq => hne (h ns hns heq)

/-! ## Records inside of records -/

namespace Loggable

variable {m n : NlMsg}

/-- A record begins with a digit from 1 to 6. -/
theorem digit_range (h : Loggable m) : 49 ≤ m.digit ∧ m.digit ≤ 54 := by
  have h1 := h.flags_pos
  have h6 := h.flags_le
  simp only [UInt8.le_iff_toNat_le, NlMsg.digit_toNat h6]
  exact ⟨by simp; omega, by simp; omega⟩

theorem path_ne_nil (h : Loggable m) : m.path ≠ [] := by
  intro hnil
  have habs := h.abs
  rw [hnil] at habs
  cases habs

/-- A record tells its message. -/
theorem encode_inj (hm : Loggable m) (hn : Loggable n) (h : m.encode = n.encode) : m = n := by
  obtain ⟨hdigit, -, hpath⟩ : m.digit = n.digit ∧ (32 : Byte) = 32 ∧ m.path = n.path := by simpa [NlMsg.encode] using h
  have hflags : m.flags + 48 = n.flags + 48 := by
    rw [← NlMsg.digit_toNat hm.flags_le, ← NlMsg.digit_toNat hn.flags_le, hdigit]
  cases m
  cases n
  simp_all

/-- Two messages as one: the record of the second one in the path of the first. -/
theorem merge (hm : Loggable m) (hn : Loggable n) : Loggable ⟨m.flags, m.path ++ n.encode⟩ where
  flags_pos := hm.flags_pos
  flags_le := hm.flags_le
  nulFree := by
    refine nulFree_append hm.nulFree ?_
    rintro b hb rfl
    have hdigit := hn.digit_range.1
    simp only [NlMsg.encode, List.mem_cons] at hb
    rcases hb with hb | hb | hb
    · rw [← hb] at hdigit
      exact absurd hdigit (by decide)
    · cases hb
    · exact hn.nulFree 0 hb rfl
  abs := by
    rw [List.head?_append, hm.abs]
    rfl

end Loggable

/-- A path with the beginning of a record in it: one message as two. -/
theorem split_record {flags : Nat} {a b : List Byte} {d : Byte} (ha : a ≠ []) (h1 : 49 ≤ d) (h6 : d ≤ 54)
    (h : Loggable ⟨flags, a ++ d :: 32 :: 47 :: b⟩) : Loggable ⟨flags, a⟩ ∧ Loggable ⟨d.toNat - 48, 47 :: b⟩ ∧
      records [⟨flags, a⟩, ⟨d.toNat - 48, 47 :: b⟩] = records [⟨flags, a ++ d :: 32 :: 47 :: b⟩] := by
  have habs : a.head? = some 47 := by
    obtain ⟨x, a, rfl⟩ := List.exists_cons_of_ne_nil ha
    exact h.abs
  have hsuffix : 47 :: b <:+ a ++ d :: 32 :: 47 :: b := ⟨a ++ [d, 32], by simp⟩
  have hnul : NulFree a ∧ NulFree (47 :: b) :=
    ⟨fun x hx => h.nulFree x (by simp [hx]), fun x hx => h.nulFree x (hsuffix.subset hx)⟩
  have hlo : 49 ≤ d.toNat := UInt8.le_iff_toNat_le.mp h1
  have hhi : d.toNat ≤ 54 := UInt8.le_iff_toNat_le.mp h6
  have hdigit : UInt8.ofNat ((d.toNat - 48) % 10 + 48) = d := by
    apply UInt8.toNat.inj
    rw [UInt8.toNat_ofNat']
    omega
  refine ⟨⟨h.flags_pos, h.flags_le, hnul.1, habs⟩, ⟨?_, ?_, hnul.2, rfl⟩, ?_⟩
  · show 1 ≤ d.toNat - 48
    omega
  · show d.toNat - 48 ≤ 6
    omega
  · simp [records, NlMsg.encode, NlMsg.digit, hdigit]

/-! ## What can be read back -/

/-- The beginning of a record in the path: the message is read as two. -/
theorem not_recoverable_of_hasRecord {m : NlMsg} (hm : Loggable m) (h : HasRecord m.path) : ¬Recoverable [m] := by
  obtain ⟨a, d, b, ha, hpath, h1, h6⟩ := h
  obtain ⟨flags, path⟩ := m
  obtain rfl : path = a ++ d :: 32 :: 47 :: b := hpath
  obtain ⟨hl, hr, heq⟩ := split_record ha h1 h6 hm
  rw [recoverable_iff_records]
  intro hrec
  have htwo := hrec [⟨flags, a⟩, ⟨d.toNat - 48, 47 :: b⟩] (by simp [hl, hr]) heq
  exact absurd (congrArg List.length htwo) (by simp)

/-- Without one, the message is read as itself. -/
theorem recoverable_of_not_hasRecord {m : NlMsg} (hm : Loggable m) (h : ¬HasRecord m.path) : Recoverable [m] := by
  rw [recoverable_iff_records]
  intro ns hns heq
  rcases ns with _ | ⟨n, _ | ⟨n', ns⟩⟩
  · exact absurd (records_eq_nil.mp heq.symm) (by simp)
  · rw [records_singleton, records_singleton] at heq
    rw [(hns n (by simp)).encode_inj hm heq]
  · -- the path of `m` goes over the beginning of the second record
    exfalso
    have hn := hns n (by simp)
    have hn' := hns n' (by simp)
    obtain ⟨t, ht⟩ := List.head?_eq_some_iff.mp hn'.abs
    have hrecords : n.encode ++ (n'.encode ++ records ns) = m.encode := by
      rw [records_singleton] at heq
      exact heq
    refine h ⟨n.path, n'.digit, t ++ records ns, hn.path_ne_nil, ?_, hn'.digit_range⟩
    simpa [NlMsg.encode, ht] using (List.cons.inj hrecords).2.symm

/-- Two messages are read as one. -/
theorem not_recoverable_two {m m' : NlMsg} {ms : List NlMsg} (hms : ∀ n ∈ m :: m' :: ms, Loggable n) :
    ¬Recoverable (m :: m' :: ms) := by
  have hm := hms m (by simp)
  have hm' := hms m' (by simp)
  have hlog : ∀ n ∈ (⟨m.flags, m.path ++ m'.encode⟩ :: ms : List NlMsg), Loggable n := by
    rw [List.forall_mem_cons]
    exact ⟨hm.merge hm', fun n hn => hms n (by simp [hn])⟩
  rw [recoverable_iff_records]
  intro h
  have heq := h _ hlog (by simp [records, NlMsg.encode, NlMsg.digit])
  exact absurd (congrArg List.length heq) (by simp)

/-- **When the log can be read back**: there is at most one message in it, and no record in its path. -/
theorem recoverable_iff {ms : List NlMsg} (hms : ∀ m ∈ ms, Loggable m) :
    Recoverable ms ↔ ms.length ≤ 1 ∧ ∀ m ∈ ms, ¬HasRecord m.path := by
  rcases ms with _ | ⟨m, _ | ⟨m', ms⟩⟩
  · rw [recoverable_iff_records]
    exact iff_of_true (fun ns _ h => records_eq_nil.mp h) ⟨Nat.zero_le 1, List.forall_mem_nil _⟩
  · have hm : Loggable m := hms m (by simp)
    simp only [List.length_singleton, le_refl, true_and, List.mem_singleton, forall_eq]
    exact ⟨fun h hrec => not_recoverable_of_hasRecord hm hrec h, recoverable_of_not_hasRecord hm⟩
  · exact iff_of_false (not_recoverable_two hms) (by simp)

theorem recoverable_iff_one : (∀ m ∈ [(⟨1, bytes "/a"⟩ : NlMsg)], Loggable m) ∧
    (Recoverable [⟨1, bytes "/a"⟩] ↔ [(⟨1, bytes "/a"⟩ : NlMsg)].length ≤ 1 ∧
      ∀ m ∈ [(⟨1, bytes "/a"⟩ : NlMsg)], ¬HasRecord m.path) := by
  have h : ∀ m ∈ [(⟨1, bytes "/a"⟩ : NlMsg)], Loggable m := by
    simpa using ⟨by decide, by decide, by decide, by decide⟩
  exact ⟨h, recoverable_iff h⟩

/-- The creation of `/a` and the removal of `/b` have the log of the creation of a file with a long name. -/
theorem log_ambiguous :
    let two : List NlMsg := [⟨1, bytes "/a"⟩, ⟨2, bytes "/b"⟩]
    let one : NlMsg := ⟨1, bytes "/a2 /b"⟩
    spillLog .load two = bytes "1 /a2 /b" ∧ spillLog .load [one] = bytes "1 /a2 /b" ∧ (∀ m ∈ two, Loggable m) ∧
      Loggable one ∧ ¬Recoverable two := by
  intro two one
  have hone : Loggable one := ⟨by decide, by decide, by decide, by decide⟩
  have htwo : ∀ m ∈ two, Loggable m := by
    simp only [two, List.forall_mem_cons]
    exact ⟨⟨by decide, by decide, by decide, by decide⟩, ⟨by decide, by decide, by decide, by decide⟩, nofun⟩
  refine ⟨by decide, by decide, htwo, hone, fun h => ?_⟩
  refine h .load .load [one] (by simpa using hone) (by simp [two]) ?_
  rw [spillLog_eq, spillLog_eq]
  decide

end Everyfile.Kernel
