import Mathlib.Data.List.Basic

/-!
# Scanners

A scanner reads its input one symbol at a time in a mode and emits tokens. Reading a concatenation is reading its parts
one after the other (`scan_append`); an input along which the scanner emits nothing only changes its mode
(`scan_silent`); and a bound on the weight of tokens that each step respects holds for all tokens of an input
(`scan_bound`).
-/

namespace Scanner

variable {μ α τ : Type*} (next : μ → α → List τ × μ)

/-- The tokens emitted along an input and the mode after it. -/
def scan : μ → List α → List τ × μ
  | m, [] => ([], m)
  | m, a :: as => ((next m a).1 ++ (scan (next m a).2 as).1, (scan (next m a).2 as).2)

@[simp] theorem scan_nil (m : μ) : scan next m [] = ([], m) := rfl

theorem scan_cons (m : μ) (a : α) (as : List α) :
    scan next m (a :: as) = ((next m a).1 ++ (scan next (next m a).2 as).1, (scan next (next m a).2 as).2) := rfl

theorem scan_append (m : μ) (as bs : List α) :
    scan next m (as ++ bs) = ((scan next m as).1 ++ (scan next (scan next m as).2 bs).1,
      (scan next (scan next m as).2 bs).2) := by
  induction as generalizing m with
  | nil => simp
  | cons a as ih => simp [scan_cons, ih]

/-- A part of the input with known tokens and mode. -/
theorem scan_append_of {m m' : μ} {as : List α} {ts : List τ} (h : scan next m as = (ts, m')) (bs : List α) :
    scan next m (as ++ bs) = (ts ++ (scan next m' bs).1, (scan next m' bs).2) := by
  rw [scan_append, h]

/-- Symbols that emit nothing and are collected by the mode. -/
theorem scan_silent (mode : List α → μ) (p : α → Prop) (hp : ∀ acc a, p a → next (mode acc) a = ([], mode (acc ++ [a])))
    (acc as : List α) (h : ∀ a ∈ as, p a) : scan next (mode acc) as = ([], mode (acc ++ as)) := by
  induction as generalizing acc with
  | nil => simp
  | cons a as ih =>
    rw [scan_cons, hp acc a (h a (by simp)), ih _ fun b hb => h b (by simp [hb])]
    simp

/-- **A bound on tokens.** `room m n` says that a token of weight `n` fits in mode `m` with what is still to come; each
step emits only tokens that fit and leaves no more room than it found. -/
theorem scan_bound {weight : τ → ℕ} {room : μ → ℕ → ℕ}
    (hemit : ∀ m a n, ∀ t ∈ (next m a).1, weight t ≤ room m (n + 1))
    (hroom : ∀ m a n, room (next m a).2 n ≤ room m (n + 1)) (m : μ) (as : List α) (k : ℕ) :
    (∀ t ∈ (scan next m as).1, weight t ≤ room m (as.length + k)) ∧
      room (scan next m as).2 k ≤ room m (as.length + k) := by
  induction as generalizing m with
  | nil => simp
  | cons a as ih =>
    obtain ⟨ht, hr⟩ := ih (next m a).2
    have hstep : room (next m a).2 (as.length + k) ≤ room m ((a :: as).length + k) := by
      have := hroom m a (as.length + k)
      rwa [show as.length + k + 1 = (a :: as).length + k by simp; omega] at this
    refine ⟨fun t hmem => ?_, Nat.le_trans hr hstep⟩
    rcases List.mem_append.mp hmem with hmem | hmem
    · have := hemit m a (as.length + k) t hmem
      rwa [show as.length + k + 1 = (a :: as).length + k by simp; omega] at this
    · exact Nat.le_trans (ht t hmem) hstep

end Scanner
