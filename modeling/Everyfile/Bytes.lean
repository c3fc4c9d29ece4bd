import Mathlib.Data.List.TakeWhile

/-!
# Byte strings

Paths, SQL texts and message payloads are C byte strings. `bytes` writes a text literal as bytes, `decimal` and
`decimalInt` are what `%lld` and `%ld` print, `cstr` is the part of a buffer before its first NUL.
-/

namespace Everyfile

abbrev Byte := UInt8

/-- The bytes of a text literal. -/
def bytes (s : String) : List Byte := s.toList.map fun c => UInt8.ofNat c.toNat

/-- A byte string without NUL. -/
def NulFree (p : List Byte) : Prop := ∀ b ∈ p, b ≠ 0

instance (p : List Byte) : Decidable (NulFree p) := List.decidableBAll (fun b => b ≠ 0) p

/-- The C string in a buffer: what stands before the first NUL. -/
def cstr (buf : List Byte) : List Byte := buf.takeWhile (· ≠ 0)

/-- The decimal digits of a number. -/
def decimal (n : Nat) : List Byte := (Nat.toDigits 10 n).map fun c => UInt8.ofNat c.toNat

def decimalInt : Int → List Byte
  | .ofNat n => decimal n
  | .negSucc n => bytes "-" ++ decimal (n + 1)

/-- A C string followed by zero bytes. -/
theorem cstr_append_zeros {p : List Byte} (h : NulFree p) (k : Nat) : cstr (p ++ List.replicate k 0) = p := by
  rw [cstr, List.takeWhile_append_of_pos (by simpa [NulFree] using h)]
  simp

theorem cstr_of_nulFree {p : List Byte} (h : NulFree p) : cstr p = p := by simpa using cstr_append_zeros h 0

theorem nulFree_append {p q : List Byte} (hp : NulFree p) (hq : NulFree q) : NulFree (p ++ q) := fun b hb =>
  (List.mem_append.mp hb).elim (hp b) (hq b)

theorem nulFree_flatMap {α : Type*} {l : List α} {f : α → List Byte} (h : ∀ x ∈ l, NulFree (f x)) :
    NulFree (l.flatMap f) := by
  intro b hb
  obtain ⟨x, hx, hb⟩ := List.mem_flatMap.mp hb
  exact h x hx b hb

/-! ## Digits -/

theorem toNat_digit {n : Nat} {c : Char} (h : c ∈ Nat.toDigits 10 n) : 48 ≤ c.toNat ∧ c.toNat ≤ 57 := by
  have hd := Nat.isDigit_of_mem_toDigits (by decide) (by decide) h
  simpa [Char.isDigit, UInt32.le_iff_toNat_le] using hd

theorem mem_decimal {n : Nat} {b : Byte} (h : b ∈ decimal n) : 48 ≤ b ∧ b ≤ 57 := by
  obtain ⟨c, hc, rfl⟩ := List.mem_map.mp h
  obtain ⟨hlo, hhi⟩ := toNat_digit hc
  have hmod : c.toNat % 256 = c.toNat := Nat.mod_eq_of_lt (by omega)
  simp [UInt8.le_iff_toNat_le, hmod, hlo, hhi]

theorem decimal_ne_nil (n : Nat) : decimal n ≠ [] := by simp [decimal, Nat.toDigits_ne_nil]

/-- The digits as characters again. -/
theorem map_char_decimal (n : Nat) : (decimal n).map (fun b => Char.ofNat b.toNat) = Nat.toDigits 10 n := by
  rw [decimal, List.map_map, List.map_congr_left, List.map_id]
  intro c hc
  obtain ⟨hlo, hhi⟩ := toNat_digit hc
  have hmod : c.toNat % 256 = c.toNat := Nat.mod_eq_of_lt (by omega)
  simp [hmod]

theorem nulFree_decimal (n : Nat) : NulFree (decimal n) := by
  rintro b hb rfl
  exact absurd (mem_decimal hb).1 (by decide)

end Everyfile
