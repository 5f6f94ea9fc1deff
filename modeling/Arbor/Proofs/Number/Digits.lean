import Arbor.Literal.Escape
import Arbor.Number.Integer
import Mathlib.Data.Nat.Digits.Defs

set_option autoImplicit false

/-! # Digits as they are written

A digit of a radix up to sixteen is written as an ASCII digit or, from ten on, as a letter in either case
(`Digit.point`). All readers of digits agree on the positional value: integers in a radix that is large enough for
the digits (`Integer.unsigned?_points`) and the hexadecimal numbers of escapes (`Literal.hexValue_points`). -/

namespace Arbor

/-- A digit of a radix and, if it is a letter, its case. -/
structure Digit (radix : Nat) where
  value : Fin radix
  upper : Bool

/-- What is written for a digit with a value. -/
def Digit.char (value : Nat) (upper : Bool) : Char :=
  if upper then (Nat.digitChar value).toUpper else Nat.digitChar value

/-- How a digit is written. -/
def Digit.point {radix : Nat} (d : Digit radix) : CodePoint := CodePoint.ofChar (Digit.char d.value d.upper)

/-- The number that digits denote in a radix, the most significant digit first. -/
def positional {r : Nat} (radix : Nat) (digits : List (Digit r)) : Nat :=
  Nat.ofDigits radix (digits.map fun d => d.value.val).reverse

namespace Digit

variable {radix : Nat} (hradix : radix ≤ 16) (d : Digit radix)

include hradix

/-- What holds of all digits up to fifteen holds of the digits of a radix. -/
theorem forall_point {P : Nat → CodePoint → Prop}
    (h : ∀ (v : Fin 16) (upper : Bool), P v (CodePoint.ofChar (char v upper))) : P d.value d.point :=
  h ⟨d.value, Nat.lt_of_lt_of_le d.value.isLt hradix⟩ d.upper

/-- A digit is read as its value. -/
theorem alphanumeric?_point : d.point.alphanumeric? = some d.value.val :=
  forall_point (P := fun v c => c.alphanumeric? = some v) hradix d (by decide)

/-- No white space is a digit. -/
theorem isNumberBlank_point : d.point.isNumberBlank = false :=
  forall_point (P := fun _ c => c.isNumberBlank = false) hradix d (by decide)

/-- No digit is written as a character that writes none. -/
theorem point_ne {c : Char} (hc : ∀ (v : Fin 16) (upper : Bool), char v upper ≠ c) :
    d.point ≠ CodePoint.ofChar c := by
  apply forall_point (P := fun _ point => point ≠ CodePoint.ofChar c) hradix d
  intro v upper
  rw [Ne, CodePoint.ofChar_inj]
  exact hc v upper

end Digit

/-! ## Integers -/

namespace Integer

theorem ofDigits_eq (radix : Nat) (values : List Nat) :
    ofDigits radix values = Nat.ofDigits radix values.reverse := by
  rw [Nat.ofDigits_eq_foldr, List.foldr_reverse, ofDigits]
  simp [Nat.add_comm, Nat.mul_comm]

section

variable {r : Nat} (hr : r ≤ 16) {radix : Nat}

include hr

/-- A digit may be read in any radix that it is a digit of. -/
theorem digit?_point {d : Digit r} (hd : d.value.val < radix) : digit? radix d.point = some d.value.val := by
  simp [digit?, Digit.alphanumeric?_point hr, hd]

theorem digits?_points {digits : List (Digit r)} (hdigits : ∀ d ∈ digits, d.value.val < radix) (afterDigit : Bool)
    (hne : afterDigit = true ∨ digits ≠ []) :
    digits? radix afterDigit (digits.map Digit.point) = some (digits.map fun d => d.value.val) := by
  induction digits generalizing afterDigit with
  | nil =>
    obtain rfl : afterDigit = true := by simpa using hne
    rfl
  | cons d digits ih =>
    obtain ⟨hd, hdigits⟩ := List.forall_mem_cons.1 hdigits
    have hunderscore : d.point ≠ CodePoint.ofChar '_' := Digit.point_ne hr d (by decide)
    rw [List.map_cons, digits?, if_neg hunderscore, digit?_point hr hd]
    simp only [ih hdigits true (.inl rfl)]
    rfl

/-- Digits are read as the number that they denote; only in radix ten there may be too many of them. -/
theorem unsigned?_points {digits : List (Digit r)} (hne : digits ≠ []) (hdigits : ∀ d ∈ digits, d.value.val < radix) :
    unsigned? radix (digits.map Digit.point) =
      if radix = 10 ∧ maxDigits < digits.length then none else some (positional radix digits) := by
  rw [unsigned?, digits?_points hr hdigits false (.inr hne), positional, ← ofDigits_eq]
  simp

end

end Integer

/-! ## Numbers of escapes -/

namespace Literal

theorem hexadecimal?_point (d : Digit 16) : d.point.hexadecimal? = some d.value.val := by
  simp [CodePoint.hexadecimal?, Digit.alphanumeric?_point]

@[simp] theorem isHex_point (d : Digit 16) : isHex d.point = true := by
  rw [isHex, hexadecimal?_point, Option.isSome_some]

theorem hexValue_points (digits : List (Digit 16)) : hexValue (digits.map Digit.point) = positional 16 digits := by
  rw [positional, ← Integer.ofDigits_eq, hexValue, Integer.ofDigits, List.foldl_map, List.foldl_map]
  simp only [hexadecimal?_point, Option.getD_some]

/-- No code point from `g` on is a hexadecimal digit. -/
theorem lt_of_isHex {c : CodePoint} (h : isHex c = true) : c.val < 0x67 := by
  by_contra hlarge
  have hnone : c.hexadecimal? = none := by
    simp only [CodePoint.hexadecimal?, CodePoint.alphanumeric?]
    rw [if_neg (by omega), if_neg (by omega)]
    by_cases hletter : 0x61 ≤ c.val ∧ c.val ≤ 0x7A
    · rw [if_pos hletter]
      exact if_neg (by omega)
    · rw [if_neg hletter]
  simp [isHex, hnone] at h

/-- Every hexadecimal digit is written for a value. -/
theorem exists_digit {c : CodePoint} (h : isHex c = true) : ∃ d : Digit 16, d.point = c := by
  have hall : ∀ n : Fin 0x67, isHex ⟨n, by omega⟩ = true →
      ∃ (v : Fin 16) (upper : Bool), (CodePoint.ofChar (Digit.char v upper)).val = n := by decide
  obtain ⟨v, upper, hpoint⟩ := hall ⟨c, lt_of_isHex h⟩ h
  exact ⟨⟨v, upper⟩, Fin.ext hpoint⟩

/-- Hexadecimal digits are written for values. -/
theorem exists_digits {points : List CodePoint} (h : points.all isHex = true) :
    ∃ digits : List (Digit 16), digits.map Digit.point = points := by
  induction points with
  | nil => exact ⟨[], rfl⟩
  | cons c points ih =>
    rw [List.all_cons, Bool.and_eq_true] at h
    obtain ⟨d, rfl⟩ := exists_digit h.1
    obtain ⟨digits, rfl⟩ := ih h.2
    exact ⟨d :: digits, rfl⟩

end Literal

end Arbor
