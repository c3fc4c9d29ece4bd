import Everyfile.Db.Rendering

/-!
# Literals of the text of `rm`

A name with a double quote is longer than every literal of its text (`weight_rmText`): the quote ends the first one, and
each later one needs quotes of its own. A statement can name a row only by a literal, so no run of the statements of
such a text removes the row of that name and leaves that of a longer one (`stuck_runAll`). The name of a column is no
better: as a literal it selects by the column (`rm_ne_erase` covers both).
-/

namespace Everyfile.Db

/-! ## The length of literals

With `k` bytes to come, no literal can become longer than `room`: one that is under way needs a byte for its end.
-/

def Token.weight : Token → ℕ
  | .str _ v => v.length
  | _ => 0

def room : Mode → ℕ → ℕ
  | .quoted _ _, 0 => 0
  | .quoted _ acc, k + 1 => acc.length + k
  | .bracket _, 0 => 0
  | .bracket acc, k + 1 => acc.length + k
  | .quote _ acc, k => acc.length + (k - 1)
  | _, k => k - 1

theorem weight_startToken (b : Byte) : ∀ t ∈ (startToken b).1, t.weight = 0 := by
  unfold startToken
  split_ifs <;> simp [Token.weight]

theorem room_startToken (b : Byte) (k : ℕ) : room (startToken b).2 k ≤ k := by
  unfold startToken
  split_ifs <;> cases k <;> simp [room]

theorem weight_next (m : Mode) (b : Byte) (k : ℕ) : ∀ t ∈ (next m b).1, t.weight ≤ room m (k + 1) := by
  have hstart := weight_startToken b
  have hemit : ∀ t₀ : Token, t₀.weight ≤ room m (k + 1) →
      ∀ t ∈ (emit t₀ (startToken b)).1, t.weight ≤ room m (k + 1) := by
    intro t₀ h₀ t ht
    rcases List.mem_cons.mp ht with rfl | ht
    · exact h₀
    · simp [hstart t ht]
  cases m <;> simp only [next] <;> try split_ifs
  all_goals first
    | exact hemit _ (by simp [Token.weight, room])
    | exact fun t ht => (hstart t ht).le.trans (Nat.zero_le _)
    | simp [Token.weight, room]

theorem room_next (m : Mode) (b : Byte) (k : ℕ) : room (next m b).2 k ≤ room m (k + 1) := by
  have hstart := room_startToken b k
  cases m <;> simp only [next] <;> try split_ifs
  all_goals first
    | (cases k <;> simp [room] <;> omega)
    | (simp only [emit, room, Nat.add_sub_cancel] at *; omega)

theorem weight_flush (m : Mode) : ∀ t ∈ flush m, t.weight ≤ room m 0 := by
  cases m <;> simp [flush, Token.weight, room]

theorem weight_lexFrom (m : Mode) (sql : List Byte) : ∀ t ∈ lexFrom m sql, t.weight ≤ room m sql.length := by
  obtain ⟨htok, hmode⟩ := Scanner.scan_bound next weight_next room_next m sql 0
  intro t ht
  rcases List.mem_append.mp ht with ht | ht
  · exact htok t ht
  · exact (weight_flush _ t ht).trans hmode

/-- A name with a quote is longer than every literal of its text. -/
theorem weight_rmText {n : List Byte} (hz : NulFree n) (hq : 34 ∈ n) :
    ∀ t ∈ lex (EfDb.rmText n), t.weight < n.length := by
  obtain ⟨n₁, n₂, rfl, hn₁⟩ := List.eq_append_cons_of_mem hq
  have hpre : Scanner.scan next .normal (bytes "DELETE FROM files WHERE file_name = \"") =
      (deleteHead, .quoted 34 []) := by decide
  have hquote : Scanner.scan next (.quoted 34 n₁) [34] = ([], .quote 34 n₁) := rfl
  have hlex : lex (EfDb.rmText (n₁ ++ 34 :: n₂)) = deleteHead ++ lexFrom (.quote 34 n₁) (n₂ ++ bytes "\"") := by
    rw [EfDb.rmText, cstr_of_nulFree hz, lex, lexFrom, show n₁ ++ 34 :: n₂ = n₁ ++ [34] ++ n₂ by simp]
    simp only [List.append_assoc]
    rw [Scanner.scan_append_of next hpre, Scanner.scan_append_of next (scan_quoted hn₁),
      Scanner.scan_append_of next hquote]
    simp [lexFrom]
  intro t ht
  rw [hlex] at ht
  rcases List.mem_append.mp ht with ht | ht
  · have h0 : ∀ u ∈ deleteHead, u.weight = 0 := by decide
    rw [h0 t ht]
    exact List.length_pos_of_mem hq
  · have hbound := weight_lexFrom _ _ t ht
    simp [room, bytes] at hbound ⊢
    omega

/-! ## Statements of a text -/

theorem mem_of_mem_splitStatements {ts : List Token} {st : List Token} {t : Token} (hst : st ∈ splitStatements ts)
    (ht : t ∈ st) : t ∈ ts := by
  induction ts generalizing st with
  | nil =>
    simp only [splitStatements, List.mem_singleton] at hst
    simp [hst] at ht
  | cons u ts ih =>
    simp only [splitStatements] at hst
    split at hst
    · rcases List.mem_cons.mp hst with rfl | hst
      · simp at ht
      · exact List.mem_cons_of_mem _ (ih hst ht)
    · split at hst
      · rename_i st₀ sts heq
        rcases List.mem_cons.mp hst with rfl | hst
        · rcases List.mem_cons.mp ht with rfl | ht
          · exact List.mem_cons_self
          · exact List.mem_cons_of_mem _ (ih (heq ▸ List.mem_cons_self) ht)
        · exact List.mem_cons_of_mem _ (ih (heq ▸ List.mem_cons_of_mem _ hst) ht)
      · simp only [List.mem_singleton] at hst
        subst hst
        simpa using Or.inl (List.mem_singleton.mp ht)

theorem str_mem_of_parseOperand {ts : List Token} {v : List Byte} (h : parseOperand ts = some v) : .str 34 v ∈ ts := by
  unfold parseOperand at h
  split at h
  · cases h; simp
  · cases h

theorem str_mem_of_parseValues {ts : List Token} {n ty : List Byte} {k : Int}
    (h : parseValues ts = some (.insert n ty k)) : .str 34 n ∈ ts := by
  unfold parseValues at h
  split at h
  · split at h
    · cases h; simp
    · cases h
  · split at h
    · cases h; simp
    · cases h
  · cases h

theorem parseValues_ne_delete {ts : List Token} {v : List Byte} : parseValues ts ≠ some (.delete v) := by
  unfold parseValues
  split <;> try split
  all_goals simp

theorem mem_of_isPrefixOf {p ts rest : List Token} (h : p.isPrefixOf? ts = some rest) {t : Token} (ht : t ∈ rest) :
    t ∈ ts := by
  rw [← List.isPrefixOf?_eq_some_iff_append_eq.mp h]
  exact List.mem_append_right p ht

/-- The operand of a `DELETE` and the name of an `INSERT` are literals of the statement. -/
theorem str_mem_of_parse (ts : List Token) : ∀ {st : Stmt}, parse ts = st →
    (∀ v, st = .delete v → .str 34 v ∈ ts) ∧ ∀ n ty k, st = .insert n ty k → .str 34 n ∈ ts := by
  have hbind : ∀ {β : Type} {p : List Token} {f : List Token → Option β} {b : β},
      (p.isPrefixOf? ts).bind f = some b → ∃ rest, p.isPrefixOf? ts = some rest ∧ f rest = some b :=
    fun h => Option.bind_eq_some_iff.mp h
  rintro st rfl
  unfold parse
  split_ifs
  · simp
  split
  · rename_i v hv
    obtain ⟨rest, hrest, hv⟩ := hbind hv
    refine ⟨fun w hw => ?_, by simp⟩
    cases hw
    exact mem_of_isPrefixOf hrest (str_mem_of_parseOperand hv)
  split
  · simp
  cases hins : (insertHead.isPrefixOf? ts).bind parseValues with
  | none => simp
  | some st =>
    obtain ⟨rest, hrest, hv⟩ := hbind hins
    refine ⟨fun w hw => ?_, fun n ty k hn => ?_⟩
    · cases hw
      exact absurd hv parseValues_ne_delete
    · cases hn
      exact mem_of_isPrefixOf hrest (str_mem_of_parseValues hv)

/-! ## Names that are not read back -/

/-- An engine in which other statements are errors. -/
def plainEngine : Sqlite := ⟨fun _ => none, fun _ => none, fun _ => false, by simp⟩

/-- A row whose name is neither its type nor its time. -/
def rowOf (n ty : List Byte) : Row := ⟨n, ty, none⟩

/-- The row of `n` is still there, or the row of `m` is gone: not the removal of `n` alone. -/
def Stuck (n m ty : List Byte) (t : Table) : Prop := rowOf n ty ∈ t.rows ∨ m ∉ t.rows.map Row.file_name

variable {n m ty : List Byte}

/-- A literal that does not select the row of `n` by its name. -/
def Harmless (n m : List Byte) (t : Token) : Prop := ∀ v, t = .str 34 v → v ≠ m ∧ (v = n → columnOf v ≠ none)

theorem stuck_delete (hty : n ≠ ty) {t : Table} (h : Stuck n m ty t) {v : List Byte} (hv : v = n → columnOf v ≠ none) :
    Stuck n m ty (t.delete (plainEngine.nameEq v)) := by
  rcases h with h | h
  · have hkeep : plainEngine.nameEq v (rowOf n ty) = false → Stuck n m ty (t.delete (plainEngine.nameEq v)) :=
      fun hk => .inl (List.mem_filter.mpr ⟨h, by simp [hk]⟩)
    cases hc : columnOf v with
    | none =>
      have hne : n ≠ v := fun hnv => hv hnv.symm hc
      exact hkeep (by simp [Sqlite.nameEq, hc, rowOf, hne])
    | some c =>
      cases c with
      | file_name => exact .inr (by simp [Table.delete, Sqlite.nameEq, hc])
      | file_type => exact hkeep (by simp [Sqlite.nameEq, hc, rowOf, hty])
      | file_time => exact hkeep (by simp [Sqlite.nameEq, hc, rowOf])
      | rowid => exact hkeep (by simp [Sqlite.nameEq, hc, plainEngine])
  · exact .inr fun hm => h ((List.filter_sublist.map _).subset hm)

theorem stuck_insert {t t' : Table} {r : Row} (h : Stuck n m ty t) (hr : r.file_name ≠ m)
    (hins : t.insert r = some t') : Stuck n m ty t' := by
  unfold Table.insert at hins
  split at hins
  · cases hins
  · cases hins
    rcases h with h | h
    · exact .inl (List.mem_append_left _ h)
    · refine .inr fun hm => ?_
      rw [List.map_append] at hm
      rcases List.mem_append.mp hm with hm | hm
      · exact h hm
      · exact hr (List.mem_singleton.mp hm).symm

/-- One statement. -/
theorem stuck_run (hty : n ≠ ty) {st : List Token} (hst : ∀ t ∈ st, Harmless n m t) {t t' : Table} {rows : List Row}
    (h : Stuck n m ty t) (hrun : plainEngine.run st t = some (t', rows)) : Stuck n m ty t' := by
  obtain ⟨hdel, hins⟩ := str_mem_of_parse st rfl
  unfold Sqlite.run Sqlite.compile at hrun
  cases hp : parse st with
  | empty => rw [hp] at hrun; cases hrun; exact h
  | select v => rw [hp] at hrun; cases hrun; exact h
  | other ts => rw [hp] at hrun; cases hrun
  | delete v =>
    rw [hp] at hrun
    cases hrun
    exact stuck_delete hty h (hst _ (hdel v hp) v rfl).2
  | insert nm ty' k =>
    rw [hp] at hrun
    obtain ⟨t₁, ht₁, heq⟩ := Option.map_eq_some_iff.mp hrun
    cases heq
    exact stuck_insert h (hst _ (hins nm ty' k hp) nm rfl).1 ht₁

/-- All statements of a text. -/
theorem stuck_runAll (hty : n ≠ ty) {sts : List (List Token)} (hsts : ∀ st ∈ sts, ∀ t ∈ st, Harmless n m t) {t : Table}
    (h : Stuck n m ty t) : Stuck n m ty (plainEngine.runAll sts t).1 := by
  induction sts generalizing t with
  | nil => exact h
  | cons st sts ih =>
    unfold Sqlite.runAll
    split
    · rename_i r hr
      exact ih (fun s hs => hsts s (by simp [hs])) (stuck_run hty (hsts st (by simp)) h hr)
    · exact h

/-- The rows of two names. -/
def pair (n m ty : List Byte) (hne : n ≠ m) : Table := ⟨[rowOf n ty, rowOf m ty], by simpa [rowOf] using hne⟩

/-- **A name whose literals are harmless is not removed alone.** -/
theorem rm_ne_erase (hty : n ≠ ty) (hne : n ≠ m) (hlex : ∀ t ∈ lex (EfDb.rmText n), Harmless n m t)
    (hfit : (EfDb.rmText n).length < 4096) :
    EfDb.rm plainEngine n (pair n m ty hne) ≠ some ((pair n m ty hne).erase n, .returned 0) := by
  intro heq
  have hstuck : Stuck n m ty (plainEngine.exec (EfDb.rmText n) (pair n m ty hne)).1 :=
    stuck_runAll hty (fun st hst t ht => hlex t (mem_of_mem_splitStatements hst ht)) (.inl (by simp [pair]))
  rw [EfDb.rm, sprintf_rmText hfit.le] at heq
  have htab : (plainEngine.exec (EfDb.rmText n) (pair n m ty hne)).1 = (pair n m ty hne).erase n :=
    congrArg Prod.fst (Option.some.inj heq)
  rw [htab] at hstuck
  rcases hstuck with h | h
  · simp [pair, Table.erase, Table.delete, rowOf, hne.symm, hne] at h
  · exact h (by simp [pair, Table.erase, Table.delete, rowOf, hne.symm])

end Everyfile.Db
