import Mathlib.Data.Set.Basic

/-!
# Transition systems whose runs may be restricted

A system is a set of initial states and an executable step function on labelled actions. `Reach ok` collects the
states of the runs all of whose steps meet `ok` (a condition on the state before the step and on the action); with
the trivial condition these are the reachable states.

- the induction rules: `Reach.rec_on_steps` and, for an invariant, `Reach.invariant`;
- runs of a list of actions are computed by `runIf` and `run`, and a computed run is a run (`Reach.runIf`,
  `reach_of_runIf`, `reachable_of_run`); it keeps what every step keeps (`run_invariant`), and there is one to a final
  state where each state before allows a step that makes some rank smaller (`exists_run_of_rank`);
- runs of an infinite sequence of actions up to a state that is final are computed by `runUntil`; they end if some
  measure falls from some point of the sequence on (`exists_runUntil`);
- a map that takes each step to no step or to one step of another system takes runs to runs (`Reach.refines`);
- `withHistory` adds a variable that each step may change and none reads.
-/

namespace Transition

/-- Initial states, and the state an action leads to where it is enabled. -/
structure System (σ α : Type*) where
  init : σ → Prop
  step : σ → α → Option σ

namespace System

variable {σ α : Type*} {S : System σ α} {ok ok' : σ → α → Prop}

/-- The states of the runs all of whose steps meet `ok`. -/
inductive Reach (S : System σ α) (ok : σ → α → Prop) : σ → Prop
  | init {s : σ} : S.init s → Reach S ok s
  | step {s s' : σ} {a : α} : Reach S ok s → ok s a → S.step s a = some s' → Reach S ok s'

/-- The states of all runs. -/
abbrev Reachable (S : System σ α) : σ → Prop := S.Reach fun _ _ => True

/-- A weaker condition on the steps gives more runs. -/
theorem Reach.mono {s : σ} (h : S.Reach ok s) (hw : ∀ s a, ok s a → ok' s a) : S.Reach ok' s := by
  induction h with
  | init h => exact .init h
  | step _ hok hs ih => exact .step ih (hw _ _ hok) hs

theorem Reach.reachable {s : σ} (h : S.Reach ok s) : S.Reachable s := h.mono fun _ _ _ => trivial

/-- What holds at the start and is kept by every step of a run holds along the run; a step may use that its state
was reached. -/
theorem Reach.rec_on_steps {P : σ → Prop} (h0 : ∀ s, S.init s → P s)
    (hs : ∀ s a s', S.Reach ok s → P s → ok s a → S.step s a = some s' → P s') {s : σ} (h : S.Reach ok s) : P s := by
  induction h with
  | init h => exact h0 _ h
  | step hr hok hst ih => exact hs _ _ _ hr ih hok hst

/-- **Invariants.** -/
theorem Reach.invariant {P : σ → Prop} (h0 : ∀ s, S.init s → P s)
    (hs : ∀ s a s', P s → ok s a → S.step s a = some s' → P s') {s : σ} (h : S.Reach ok s) : P s :=
  h.rec_on_steps h0 fun s a s' _ => hs s a s'

/-! ## Computed runs -/

/-- The state after a list of actions, if each of them in turn passes the test and is enabled. -/
def runIf (S : System σ α) (test : σ → α → Bool) : σ → List α → Option σ
  | s, [] => some s
  | s, a :: as => if test s a then (S.step s a).bind (S.runIf test · as) else none

/-- The state after a list of actions, if each of them is enabled in turn. -/
def run (S : System σ α) : σ → List α → Option σ := S.runIf fun _ _ => true

/-- A computed run whose steps pass a test for `ok` is a run that meets `ok`. -/
theorem Reach.runIf {test : σ → α → Bool} (hok : ∀ s a, test s a = true → ok s a) {s s' : σ} (h : S.Reach ok s)
    {as : List α} (hr : S.runIf test s as = some s') : S.Reach ok s' := by
  induction as generalizing s with
  | nil =>
    simp only [System.runIf, Option.some.injEq] at hr
    exact hr ▸ h
  | cons a as ih =>
    simp only [System.runIf] at hr
    obtain ⟨ht, hr⟩ := Option.ite_none_right_eq_some.mp hr
    obtain ⟨t, hs, hr⟩ := Option.bind_eq_some_iff.mp hr
    exact ih (.step h (hok s a ht) hs) hr

/-- A computed run that ends in a state with a property gives such a state among those reached. -/
theorem reach_of_runIf (S : System σ α) (s : σ) (ok : σ → α → Prop) (test : σ → α → Bool)
    (hok : ∀ s a, test s a = true → ok s a) (h : S.init s) (as : List α) (p : σ → Bool)
    (hp : (S.runIf test s as).map p = some true) : ∃ t, S.Reach ok t ∧ p t = true := by
  obtain ⟨t, ht, hpt⟩ := Option.map_eq_some_iff.mp hp
  exact ⟨t, Reach.runIf hok (.init h) ht, hpt⟩

theorem reachable_of_run (S : System σ α) (s : σ) (h : S.init s) (as : List α) (p : σ → Bool)
    (hp : (S.run s as).map p = some true) : ∃ t, S.Reachable t ∧ p t = true :=
  reach_of_runIf S s _ _ (fun _ _ _ => trivial) h as p hp

/-- What every step keeps, a computed run from any state keeps. -/
theorem run_invariant {P : σ → Prop} (hs : ∀ s a s', P s → S.step s a = some s' → P s') {s s' : σ} {as : List α}
    (h : P s) (hr : S.run s as = some s') : P s' := by
  induction as generalizing s with
  | nil =>
    simp only [run, System.runIf, Option.some.injEq] at hr
    exact hr ▸ h
  | cons a as ih =>
    simp only [run, System.runIf, if_true] at hr
    obtain ⟨t, hst, hr⟩ := Option.bind_eq_some_iff.mp hr
    exact ih (hs s a t h hst) hr

/-- **Progress**: if from every state of a kind that is not `done` some step leads to one of the kind with a smaller
rank, then some run leads to one that is `done`. -/
theorem exists_run_of_rank (S : System σ α) (P done : σ → Prop) (rank : σ → Nat)
    (hstep : ∀ s, P s → ¬done s → ∃ a t, S.step s a = some t ∧ P t ∧ rank t < rank s) {s : σ} (h : P s) :
    ∃ as t, S.run s as = some t ∧ P t ∧ done t := by
  generalize hn : rank s = n
  induction n using Nat.strong_induction_on generalizing s with
  | _ n ih =>
    by_cases hd : done s
    · exact ⟨[], s, rfl, h, hd⟩
    · obtain ⟨a, t, hst, ht, hlt⟩ := hstep s h hd
      obtain ⟨as, t', hrun, ht', hdone⟩ := ih (rank t) (hn ▸ hlt) ht rfl
      refine ⟨a :: as, t', ?_, ht', hdone⟩
      rw [run, System.runIf, if_pos rfl, hst]
      exact hrun

/-! ## History variables -/

/-- The system with a further variable that `note` keeps. -/
def withHistory {β : Type*} (S : System σ α) (b : β) (note : σ → α → β → β) : System (σ × β) α where
  init r := S.init r.1 ∧ r.2 = b
  step r a := (S.step r.1 a).map fun t => (t, note r.1 a r.2)

/-! ## Refinement -/

/-- **Refinement maps**: if each step of a run is, through `f`, no step or one step of another system, then `f` takes
the run to a run of that system. -/
theorem Reach.refines {τ β : Type*} {T : System τ β} {okT : τ → β → Prop} (f : σ → τ)
    (hinit : ∀ s, S.init s → T.init (f s))
    (hstep : ∀ s a s', S.Reach ok s → ok s a → S.step s a = some s' →
      f s' = f s ∨ ∃ b, okT (f s) b ∧ T.step (f s) b = some (f s'))
    {s : σ} (h : S.Reach ok s) : T.Reach okT (f s) := by
  refine h.rec_on_steps (P := fun s => T.Reach okT (f s)) (fun s hs => .init (hinit s hs)) fun s a s' hr ih hok hs => ?_
  rcases hstep s a s' hr hok hs with hsame | ⟨b, hb, ht⟩
  · rwa [hsame]
  · exact .step ih hb ht

/-! ## Runs up to a final state -/

/-- The run of the actions `act i`, `act (i + 1)`, … up to the first state that is `done`, with the place reached in the
sequence; `none` if the fuel runs out before or an action is not enabled. -/
def runUntil (S : System σ α) (act : Nat → α) (done : σ → Bool) : Nat → Nat → σ → Option (Nat × σ)
  | 0, _, _ => none
  | fuel + 1, i, s => if done s then some (i, s) else (S.step s (act i)).bind (S.runUntil act done fuel (i + 1))

section RunUntil

variable {act : Nat → α} {done : σ → Bool}

/-- More fuel gives the same run. -/
theorem runUntil_mono {fuel fuel' i : Nat} {s : σ} {r : Nat × σ} (h : S.runUntil act done fuel i s = some r)
    (hle : fuel ≤ fuel') : S.runUntil act done fuel' i s = some r := by
  induction fuel generalizing fuel' i s with
  | zero => cases h
  | succ fuel ih =>
    obtain ⟨fuel', rfl⟩ : ∃ k, fuel' = k + 1 := ⟨fuel' - 1, by omega⟩
    rw [runUntil] at h ⊢
    split at h
    next hd => rw [if_pos hd, h]
    next hd =>
      obtain ⟨t, hs, hr⟩ := Option.bind_eq_some_iff.mp h
      rw [if_neg hd, hs]
      exact ih hr (by omega)

/-- **Termination** where from place `n` on each step makes `rank` smaller; before it any number of steps may be in
vain. -/
theorem exists_runUntil (S : System σ α) (act : Nat → α) (done : σ → Bool) (P : σ → Prop) (rank : σ → Nat) {n : Nat}
    (hstep : ∀ i s, P s → done s = false → ∃ t, S.step s (act i) = some t ∧ P t ∧ (n ≤ i → rank t < rank s)) (i : Nat)
    {s : σ} (h : P s) : ∃ fuel j t, S.runUntil act done fuel i s = some (j, t) ∧ P t ∧ done t = true := by
  -- one step, and the run from there
  have hcons : ∀ {i : Nat} {s : σ}, P s → (∀ t, P t → (n ≤ i → rank t < rank s) →
      ∃ fuel j t', S.runUntil act done fuel (i + 1) t = some (j, t') ∧ P t' ∧ done t' = true) →
      ∃ fuel j t', S.runUntil act done fuel i s = some (j, t') ∧ P t' ∧ done t' = true := by
    intro i s h hrest
    by_cases hd : done s = true
    · exact ⟨1, i, s, by rw [runUntil, if_pos hd], h, hd⟩
    · obtain ⟨t, hs, ht, hrank⟩ := hstep i s h (by simpa using hd)
      obtain ⟨fuel, j, t', hrun, ht', hd'⟩ := hrest t ht hrank
      exact ⟨fuel + 1, j, t', by rw [runUntil, if_neg hd, hs, Option.bind_some, hrun], ht', hd'⟩
  have hlate : ∀ m i s, n ≤ i → rank s ≤ m → P s →
      ∃ fuel j t, S.runUntil act done fuel i s = some (j, t) ∧ P t ∧ done t = true := by
    intro m
    induction m with
    | zero =>
      intro i s hi hm h
      exact hcons h fun t ht hrank => absurd (hrank hi) (by omega)
    | succ m ih =>
      intro i s hi hm h
      refine hcons h fun t ht hrank => ih (i + 1) t (by omega) ?_ ht
      have := hrank hi
      omega
  -- the steps before place `n`
  have hearly : ∀ d i s, n ≤ i + d → P s →
      ∃ fuel j t, S.runUntil act done fuel i s = some (j, t) ∧ P t ∧ done t = true := by
    intro d
    induction d with
    | zero => exact fun i s hi h => hlate _ i s hi le_rfl h
    | succ d ih => exact fun i s hi h => hcons h fun t ht _ => ih (i + 1) t (by omega) ht
  exact hearly n i s (by omega) h

end RunUntil

end System

end Transition
