import Mathlib.Data.Set.Insert

/-!
# Locks, waiting and circular wait

`held l` is the thread that holds lock `l`, `wants t` the lock at whose acquisition thread `t` stands. A circular wait
is a nonempty set of threads each of which stands at a lock held by another thread of the set. Where every thread asks
only for locks of a higher rank than those it holds, there is none (`no_circularWait_of_rank`); a thread that waits for
a thread waiting for it is one (`circularWait_of_pair`).

`Owned` relates the holders to the threads inside the critical sections of the locks. A step of one thread that changes
each lock in one of three ways (`Change`: not at all, acquired, released) keeps it (`Owned.step`). A lock that is not
`strict` may be released by a thread that does not hold it, and entered without being acquired; then threads may be
inside that do not hold it.
-/

namespace Locking

variable {τ κ : Type*} {held : κ → Option τ} {wants : τ → Option κ}

/-- `t` stands at a lock that `u` holds. -/
def WaitsFor (held : κ → Option τ) (wants : τ → Option κ) (t u : τ) : Prop :=
  ∃ l, wants t = some l ∧ held l = some u

/-- A set of threads each of which waits for another thread of the set. -/
def CircularWait (held : κ → Option τ) (wants : τ → Option κ) : Prop :=
  ∃ T : Set τ, T.Nonempty ∧ ∀ t ∈ T, ∃ u ∈ T, u ≠ t ∧ WaitsFor held wants t u

/-- In a set of waiting threads that climbs in rank, some thread stands at a lock of any given rank. -/
theorem exists_rank_ge {T : Set τ} (hne : T.Nonempty) (hT : ∀ t ∈ T, ∃ u ∈ T, u ≠ t ∧ WaitsFor held wants t u)
    {rank : κ → ℕ} (hrank : ∀ t l l', held l = some t → wants t = some l' → rank l < rank l') (n : ℕ) :
    ∃ t ∈ T, ∃ l, wants t = some l ∧ n ≤ rank l := by
  induction n with
  | zero =>
    obtain ⟨t, ht⟩ := hne
    obtain ⟨u, -, -, l, hl, -⟩ := hT t ht
    exact ⟨t, ht, l, hl, Nat.zero_le _⟩
  | succ n ih =>
    obtain ⟨t, ht, l, hl, hn⟩ := ih
    obtain ⟨u, hu, -, l₁, hl₁, hheld⟩ := hT t ht
    obtain rfl : l₁ = l := Option.some.inj (hl₁.symm.trans hl)
    obtain ⟨-, -, -, l₂, hl₂, -⟩ := hT u hu
    have := hrank u l₁ l₂ hheld hl₂
    exact ⟨u, hu, l₂, hl₂, by omega⟩

/-- **Lock order.** If ranks are bounded and every thread asks only for locks above those it holds, no threads wait for
one another in a circle. -/
theorem no_circularWait_of_rank (rank : κ → ℕ) {N : ℕ} (hN : ∀ l, rank l ≤ N)
    (hrank : ∀ t l l', held l = some t → wants t = some l' → rank l < rank l') : ¬CircularWait held wants := by
  rintro ⟨T, hne, hT⟩
  obtain ⟨t, -, l, -, hl⟩ := exists_rank_ge hne hT hrank (N + 1)
  have := hN l
  omega

/-- Two threads that wait for each other. -/
theorem circularWait_of_pair {t u : τ} (hne : t ≠ u) (htu : WaitsFor held wants t u) (hut : WaitsFor held wants u t) :
    CircularWait held wants := by
  refine ⟨{t, u}, ⟨t, by simp⟩, ?_⟩
  rintro v (rfl | rfl)
  · exact ⟨u, by simp, hne.symm, htu⟩
  · exact ⟨t, by simp, hne, hut⟩

/-! ## Who is inside -/

/-- The holder of a lock is inside, and a thread inside a strict lock holds it. -/
structure Owned (strict : κ → Prop) (held : κ → Option τ) (inside : κ → τ → Bool) : Prop where
  inside_of_held : ∀ {l t}, held l = some t → inside l t = true
  held_of_inside : ∀ {l t}, strict l → inside l t = true → held l = some t

/-- **Mutual exclusion**: at most one thread is inside a strict lock. -/
theorem Owned.exclusive {strict : κ → Prop} {inside : κ → τ → Bool} (h : Owned strict held inside) {l : κ} {t u : τ}
    (hl : strict l) (ht : inside l t = true) (hu : inside l u = true) : t = u :=
  Option.some.inj ((h.held_of_inside hl ht).symm.trans (h.held_of_inside hl hu))

/-- What a step of thread `t` does to a lock: nothing, acquire it, or release it. -/
def Change (strict : Prop) (t : τ) (held held' : Option τ) (inside inside' : Bool) : Prop :=
  held' = held ∧ (inside = true → inside' = true) ∧ (strict → inside' = inside) ∨
    held = none ∧ held' = some t ∧ inside' = true ∨
    held' = none ∧ inside' = false ∧ (strict → inside = true)

theorem Owned.step {strict : κ → Prop} {held held' : κ → Option τ} {inside inside' : κ → τ → Bool}
    (h : Owned strict held inside) (t : τ) (hothers : ∀ l u, u ≠ t → inside' l u = inside l u)
    (ht : ∀ l, Change (strict l) t (held l) (held' l) (inside l t) (inside' l t)) : Owned strict held' inside' := by
  constructor
  · intro l u hu
    rcases ht l with ⟨hh, hi, -⟩ | ⟨-, hh, hi⟩ | ⟨hh, -, -⟩
    · by_cases hut : u = t
      · rw [hut]; exact hi (h.inside_of_held (hut ▸ hh ▸ hu))
      · rw [hothers l u hut]; exact h.inside_of_held (hh ▸ hu)
    · obtain rfl : t = u := Option.some.inj (hh.symm.trans hu)
      exact hi
    · rw [hh] at hu; cases hu
  · intro l u hs hu
    by_cases hut : u = t
    · rw [hut] at hu ⊢
      rcases ht l with ⟨hh, -, hi⟩ | ⟨-, hh, -⟩ | ⟨-, hi, -⟩
      · rw [hh]; exact h.held_of_inside hs (hi hs ▸ hu)
      · exact hh
      · rw [hi] at hu; cases hu
    · -- another thread was inside before: it held the lock, so `t` neither acquired nor released it
      rw [hothers l u hut] at hu
      have hold := h.held_of_inside hs hu
      rcases ht l with ⟨hh, -, -⟩ | ⟨hfree, -, -⟩ | ⟨-, -, hin⟩
      · rw [hh]; exact hold
      · rw [hfree] at hold; cases hold
      · exact absurd (Option.some.inj (hold.symm.trans (h.held_of_inside hs (hin hs)))) hut

end Locking
