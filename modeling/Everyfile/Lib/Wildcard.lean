import Mathlib.Data.List.Infix

/-!
# Wildcard patterns

A pattern is a list of items: any sequence of characters, any one character, or a character, compared by a relation
`eq`. A concatenation of patterns fits what is a concatenation of fitting parts (`fits_append`); between two `any`s a
pattern fits the strings with a fitting part (`fits_within`), so one with a single other item fits those with a
character accepted by it (`fits_within_single`).
-/

namespace Wildcard

inductive Item (χ : Type*)
  | any
  | one
  | char (c : χ)
  deriving DecidableEq

variable {χ : Type*}

/-- The characters an item stands for by itself. -/
def Item.accepts (eq : χ → χ → Bool) : Item χ → χ → Bool
  | .char c, d => eq c d
  | _, _ => true

def fits (eq : χ → χ → Bool) : List (Item χ) → List χ → Bool
  | [], s => s.isEmpty
  | .any :: p, s => s.tails.any (fits eq p)
  | _ :: _, [] => false
  | x :: p, c :: s => x.accepts eq c && fits eq p s

def Item.isAny : Item χ → Bool
  | .any => true
  | _ => false

/-- The items other than `any`. -/
def proper (p : List (Item χ)) : List (Item χ) := p.filter (!·.isAny)

variable {eq : χ → χ → Bool} {p q : List (Item χ)} {s : List χ} {x : Item χ}

@[simp] theorem proper_any : proper (.any :: p) = proper p := rfl

@[simp] theorem proper_cons (hx : x.isAny = false) : proper (x :: p) = x :: proper p := by simp [proper, hx]

theorem fits_nil : fits eq [] s = true ↔ s = [] := by simp [fits]

theorem fits_any : fits eq (.any :: p) s = true ↔ ∃ u v, s = u ++ v ∧ fits eq p v = true := by
  simp only [fits, List.any_eq_true, List.mem_tails]
  constructor
  · rintro ⟨v, ⟨u, rfl⟩, hv⟩
    exact ⟨u, v, rfl, hv⟩
  · rintro ⟨u, v, rfl, hv⟩
    exact ⟨v, List.suffix_append u v, hv⟩

theorem fits_cons (hx : x.isAny = false) :
    fits eq (x :: p) s = true ↔ ∃ c v, s = c :: v ∧ x.accepts eq c = true ∧ fits eq p v = true := by
  cases x with
  | any => cases hx
  | one | char =>
    cases s with
    | nil => simp [fits]
    | cons c s => simp [fits]

/-- **Concatenation.** -/
theorem fits_append : fits eq (p ++ q) s = true ↔ ∃ u v, s = u ++ v ∧ fits eq p u = true ∧ fits eq q v = true := by
  induction p generalizing s with
  | nil => simp [fits_nil]
  | cons x p ih =>
    cases x with
    | any =>
      rw [List.cons_append, fits_any]
      constructor
      · rintro ⟨u, v, rfl, hv⟩
        obtain ⟨v, w, rfl, hv, hw⟩ := ih.mp hv
        exact ⟨u ++ v, w, (List.append_assoc ..).symm, fits_any.mpr ⟨u, v, rfl, hv⟩, hw⟩
      · rintro ⟨u, w, rfl, hu, hw⟩
        obtain ⟨u, v, rfl, hv⟩ := fits_any.mp hu
        exact ⟨u, v ++ w, List.append_assoc .., ih.mpr ⟨v, w, rfl, hv, hw⟩⟩
    | one | char =>
      rw [List.cons_append, fits_cons rfl]
      constructor
      · rintro ⟨c, v, rfl, hc, hv⟩
        obtain ⟨v, w, rfl, hv, hw⟩ := ih.mp hv
        exact ⟨c :: v, w, rfl, (fits_cons rfl).mpr ⟨c, v, rfl, hc, hv⟩, hw⟩
      · rintro ⟨u, w, rfl, hu, hw⟩
        obtain ⟨c, v, rfl, hc, hv⟩ := (fits_cons rfl).mp hu
        exact ⟨c, v ++ w, rfl, hc, ih.mpr ⟨v, w, rfl, hv, hw⟩⟩

/-- `any` fits every string. -/
theorem fits_any_nil : fits eq [.any] s = true := fits_any.mpr ⟨s, [], by simp, rfl⟩

/-- **A pattern between two `any`s.** -/
theorem fits_within :
    fits eq (.any :: (p ++ [.any])) s = true ↔ ∃ u v w, s = u ++ v ++ w ∧ fits eq p v = true := by
  rw [fits_any]
  constructor
  · rintro ⟨u, v, rfl, hv⟩
    obtain ⟨v, w, rfl, hv, -⟩ := fits_append.mp hv
    exact ⟨u, v, w, (List.append_assoc ..).symm, hv⟩
  · rintro ⟨u, v, w, rfl, hv⟩
    exact ⟨u, v ++ w, List.append_assoc .., fits_append.mpr ⟨v, w, rfl, hv, fits_any_nil⟩⟩

/-- A fitting string has a character for each item other than `any`. -/
theorem length_proper_le (h : fits eq p s = true) : (proper p).length ≤ s.length := by
  induction p generalizing s with
  | nil => simp [proper]
  | cons x p ih =>
    cases x with
    | any =>
      obtain ⟨u, v, rfl, hv⟩ := fits_any.mp h
      rw [proper_any, List.length_append]
      exact (ih hv).trans (Nat.le_add_left ..)
    | one | char =>
      obtain ⟨c, v, rfl, -, hv⟩ := (fits_cons rfl).mp h
      rw [proper_cons rfl]
      exact Nat.succ_le_succ (ih hv)

/-- A pattern of `any`s alone fits the empty string. -/
theorem fits_nil_of_proper (h : proper p = []) : fits eq p [] = true := by
  induction p with
  | nil => rfl
  | cons x p ih =>
    cases x with
    | any => exact fits_any.mpr ⟨[], [], rfl, ih h⟩
    | one | char =>
      rw [proper_cons rfl] at h
      cases h

/-- A pattern with nothing but `any`s fits every string. -/
theorem fits_within_nil (h : proper p = []) : fits eq (.any :: (p ++ [.any])) s = true :=
  fits_within.mpr ⟨[], [], s, rfl, fits_nil_of_proper h⟩

/-- A pattern with one item other than `any` fits the strings with a character accepted by it. -/
theorem fits_within_single (h : proper p = [x]) :
    fits eq (.any :: (p ++ [.any])) s = true ↔ ∃ c ∈ s, x.accepts eq c = true := by
  have hx : x.isAny = false := by
    have hmem : x ∈ proper p := by simp [h]
    simpa using (List.mem_filter.mp hmem).2
  obtain ⟨a, b, rfl, ha, -, hb⟩ := List.filter_eq_cons_iff.mp h
  have ha : proper a = [] := List.filter_eq_nil_iff.mpr fun y hy => by simpa using ha y hy
  rw [fits_within]
  constructor
  · rintro ⟨u, v, w, rfl, hv⟩
    obtain ⟨v, v', rfl, -, hv'⟩ := fits_append.mp hv
    obtain ⟨c, v', rfl, hc, -⟩ := (fits_cons hx).mp hv'
    exact ⟨c, by simp, hc⟩
  · rintro ⟨c, hc, hacc⟩
    obtain ⟨u, w, rfl⟩ := List.append_of_mem hc
    refine ⟨u, [c], w, by simp, fits_append.mpr ⟨[], [c], rfl, fits_nil_of_proper ha, ?_⟩⟩
    exact (fits_cons hx).mpr ⟨c, [], rfl, hacc, fits_nil_of_proper hb⟩

end Wildcard
