import Mathlib.Logic.Relation

/-!
# Loops that need not end

A loop is a partial function on states: the state after one pass, or `none` where the loop is left. `run` computes it
with fuel for its passes and tests; `Ends s u` says that from `s` it is left in `u` (`ends_iff_run`), and `Head s t`
that from `s` it comes to its head in `t`.

- a loop is left in one state only (`Ends.unique`);
- what each pass keeps holds at every head (`Head.invariant`), and where it excludes that the loop is left, it runs for
  ever (`not_ends_of_invariant`).
-/

namespace Looping

variable {σ : Type*} (next : σ → Option σ)

def run : Nat → σ → Option σ
  | 0, _ => none
  | fuel + 1, s =>
    match next s with
    | none => some s
    | some t => run fuel t

/-- The loop entered in one state is left in the other. -/
inductive Ends : σ → σ → Prop
  | exit {s : σ} : next s = none → Ends s s
  | pass {s t u : σ} : next s = some t → Ends t u → Ends s u

/-- The states in which the loop comes to its head. -/
def Head : σ → σ → Prop := Relation.ReflTransGen fun s t => next s = some t

variable {next} {s t u v : σ} {P : σ → Prop}

theorem ends_iff_run : Ends next s u ↔ ∃ fuel, run next fuel s = some u := by
  constructor
  · intro h
    induction h with
    | exit hs => exact ⟨1, by rw [run, hs]⟩
    | pass hs _ ih =>
      obtain ⟨fuel, hrun⟩ := ih
      exact ⟨fuel + 1, by rw [run, hs]; exact hrun⟩
  · rintro ⟨fuel, hrun⟩
    induction fuel generalizing s with
    | zero => cases hrun
    | succ fuel ih =>
      rw [run] at hrun
      split at hrun
      next hs =>
        cases hrun
        exact .exit hs
      next t hs => exact .pass hs (ih hrun)

/-- **One result.** -/
theorem Ends.unique (h : Ends next s u) (h' : Ends next s v) : u = v := by
  induction h with
  | exit hs =>
    cases h' with
    | exit _ => rfl
    | pass hs' _ => rw [hs] at hs'; cases hs'
  | pass hs _ ih =>
    cases h' with
    | exit hs' => rw [hs] at hs'; cases hs'
    | pass hs' h' =>
      obtain rfl := Option.some_inj.mp (hs.symm.trans hs')
      exact ih h'

/-- The state in which a loop is left is one at its head. -/
theorem Ends.head (h : Ends next s u) : Head next s u ∧ next u = none := by
  induction h with
  | exit hs => exact ⟨.refl, hs⟩
  | pass hs _ ih => exact ⟨.head hs ih.1, ih.2⟩

/-- **Invariants of a loop.** -/
theorem Head.invariant (hnext : ∀ s t, P s → next s = some t → P t) (hs : P s) (h : Head next s t) : P t := by
  induction h with
  | refl => exact hs
  | tail _ hst ih => exact hnext _ _ ih hst

/-- A loop that is left at once has one head. -/
theorem Head.eq_of_exit (h : Head next s t) (hs : next s = none) : t = s := by
  rcases Relation.ReflTransGen.cases_head h with rfl | ⟨s', hpass, -⟩
  · rfl
  · rw [hs] at hpass
    cases hpass

/-- **A loop that is never left**: under the invariant there is always a next pass. -/
theorem not_ends_of_invariant (hnext : ∀ s, P s → ∃ t, next s = some t ∧ P t) (hs : P s) : ¬Ends next s u := by
  intro h
  obtain ⟨hhead, hexit⟩ := h.head
  have hkeep : ∀ s t, P s → next s = some t → P t := by
    intro s t hp hst
    obtain ⟨t', hst', ht'⟩ := hnext s hp
    rwa [Option.some_inj.mp (hst.symm.trans hst')]
  obtain ⟨t, hst, -⟩ := hnext u (hhead.invariant hkeep hs)
  rw [hexit] at hst
  cases hst

end Looping
