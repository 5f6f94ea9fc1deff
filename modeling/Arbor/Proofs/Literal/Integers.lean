import Arbor.Literal.Number
import Arbor.Proofs.Number.Digits
import Mathlib.Data.List.DropRight

set_option autoImplicit false

/-! # Integer literals

An integer literal is a mark for its radix and digits of it, or decimal digits only (`IntegerLiteral`); separators
may stand between the digits, and an `n` at the end. Its value is the number that the digits denote in the radix
(`Literal.numberValue_integer`). Decimal digits without an eight or a nine that begin with a zero denote an octal
number, and only decimal numbers are limited in length. -/

namespace Arbor.Literal

/-! ## Literals -/

/-- Digits with any number of separators between them. -/
structure Separated (radix : Nat) where
  first : Digit radix
  /-- The digits after the first one, each with the number of separators before it. -/
  rest : List (Nat × Digit radix)

namespace Separated

variable {radix : Nat}

def digits (s : Separated radix) : List (Digit radix) := s.first :: s.rest.map Prod.snd

theorem digits_ne_nil (s : Separated radix) : s.digits ≠ [] := List.cons_ne_nil _ _

/-- How the digits after the first one are written. -/
def later (rest : List (Nat × Digit radix)) : List CodePoint :=
  rest.flatMap fun entry => List.replicate entry.1 (CodePoint.ofChar '_') ++ [entry.2.point]

def points (s : Separated radix) : List CodePoint := s.first.point :: later s.rest

end Separated

/-- The letters that mark a radix, each with the radix. -/
def radixMarks : List (Char × Nat) := [('x', 16), ('X', 16), ('o', 8), ('O', 8), ('b', 2), ('B', 2)]

/-- An integer literal. -/
inductive IntegerLiteral where
  /-- A zero, a letter for the radix, and digits. -/
  | marked (mark : Char) (radix : Nat) (known : (mark, radix) ∈ radixMarks) (digits : Separated radix)
  /-- Digits only. -/
  | plain (digits : Separated 10)

/-- Whether decimal digits are written in the old way to write an octal number. -/
def IsLegacyOctal (digits : List (Digit 10)) : Prop :=
  2 ≤ digits.length ∧ (∃ d ∈ digits.head?, d.value.val = 0) ∧ ∀ d ∈ digits, d.value.val < 8

instance : DecidablePred IsLegacyOctal := fun _ => inferInstanceAs (Decidable (_ ∧ _ ∧ _))

namespace IntegerLiteral

/-- How a literal is written. -/
def points : IntegerLiteral → List CodePoint
  | marked mark _ _ s => CodePoint.ofChar '0' :: CodePoint.ofChar mark :: s.points
  | plain s => s.points

/-- The mark of an integer of unlimited size at the end of a literal. -/
def suffix (unlimited : Bool) : List CodePoint := if unlimited then [CodePoint.ofChar 'n'] else []

/-- The number that a literal denotes, unless it is a decimal number with too many digits. -/
def value? : IntegerLiteral → Option Nat
  | marked _ radix _ s => some (positional radix s.digits)
  | plain s =>
    if IsLegacyOctal s.digits then some (positional 8 s.digits)
    else if s.digits.length ≤ 4300 then some (positional 10 s.digits)
    else none

end IntegerLiteral

/-! ## Significant characters -/

namespace Separated

variable {radix : Nat} (hradix : radix ≤ 16)

include hradix

/-- Without separators digits are written one after another. -/
theorem filter_points (s : Separated radix) :
    s.points.filter (· != CodePoint.ofChar '_') = s.digits.map Digit.point := by
  have hdigit (d : Digit radix) : d.point ≠ CodePoint.ofChar '_' := Digit.point_ne hradix d (by decide)
  have hlater (rest : List (Nat × Digit radix)) :
      (later rest).filter (· != CodePoint.ofChar '_') = rest.map fun entry => entry.2.point := by
    induction rest with
    | nil => rfl
    | cons entry rest ih =>
      rw [later, List.flatMap_cons, List.filter_append, ← later, ih]
      simp [hdigit]
  rw [points, List.filter_cons_of_pos (by simpa using hdigit s.first), hlater]
  simp [digits]

/-- The last digit is no mark of an integer of unlimited size. -/
theorem last_ne (s : Separated radix) {c : CodePoint} (hc : c ∈ (s.digits.map Digit.point).getLast?) :
    ¬ (c = CodePoint.ofChar 'n' ∨ c = CodePoint.ofChar 'N') := by
  obtain ⟨d, -, rfl⟩ := List.mem_map.1 (List.mem_of_getLast? hc)
  rw [not_or]
  exact ⟨Digit.point_ne hradix d (by decide), Digit.point_ne hradix d (by decide)⟩

end Separated

theorem radix_of_mark {mark : Char} {radix : Nat} (known : (mark, radix) ∈ radixMarks) :
    radix ≤ 16 ∧ radix ≠ 10 ∧ mark ≠ '_' := by
  have hall : ∀ entry ∈ radixMarks, entry.2 ≤ 16 ∧ entry.2 ≠ 10 ∧ entry.1 ≠ '_' := by decide
  exact hall _ known

namespace IntegerLiteral

/-- A literal without separators. -/
def compact : IntegerLiteral → List CodePoint
  | marked mark _ _ s => CodePoint.ofChar '0' :: CodePoint.ofChar mark :: s.digits.map Digit.point
  | plain s => s.digits.map Digit.point

theorem filter_points (l : IntegerLiteral) : l.points.filter (· != CodePoint.ofChar '_') = l.compact := by
  cases l with
  | plain s => exact s.filter_points (by decide)
  | marked mark radix known s =>
    obtain ⟨hradix, -, hmark⟩ := radix_of_mark known
    rw [points, List.filter_cons_of_pos (by decide), List.filter_cons_of_pos (by simp [hmark]),
      s.filter_points hradix]
    rfl

theorem last_ne (l : IntegerLiteral) {c : CodePoint} (hc : c ∈ l.compact.getLast?) :
    ¬ (c = CodePoint.ofChar 'n' ∨ c = CodePoint.ofChar 'N') := by
  cases l with
  | plain s => exact s.last_ne (by decide) hc
  | marked mark radix known s =>
    apply s.last_ne (radix_of_mark known).1
    simpa [compact, Separated.digits] using hc

theorem significant_points (l : IntegerLiteral) (unlimited : Bool) :
    significant ⟨l.points ++ suffix unlimited⟩ = l.compact := by
  have hfilter : (l.points ++ suffix unlimited).filter (· != CodePoint.ofChar '_') =
      l.compact ++ suffix unlimited := by
    rw [List.filter_append, l.filter_points]
    cases unlimited <;> rfl
  simp only [significant, Text.without, hfilter]
  cases unlimited with
  | true => simp [suffix]
  | false =>
    simp only [suffix, Bool.false_eq_true, if_false, List.append_nil]
    cases hlast : l.compact.getLast? with
    | none => rfl
    | some c => exact if_neg (l.last_ne hlast)

end IntegerLiteral

/-! ## Radix and value -/

theorem markedRadix?_mark {mark : Char} {radix : Nat} (known : (mark, radix) ∈ radixMarks) (points : List CodePoint) :
    markedRadix? (CodePoint.ofChar '0' :: CodePoint.ofChar mark :: points) = some radix := by
  simp only [radixMarks, List.mem_cons, Prod.mk.injEq, List.not_mem_nil, or_false] at known
  rcases known with ⟨rfl, rfl⟩ | ⟨rfl, rfl⟩ | ⟨rfl, rfl⟩ | ⟨rfl, rfl⟩ | ⟨rfl, rfl⟩ | ⟨rfl, rfl⟩ <;> rfl

/-- Decimal digits mark no radix. -/
theorem markedRadix?_points (digits : List (Digit 10)) : markedRadix? (digits.map Digit.point) = none := by
  match digits with
  | [] => rfl
  | [d] => rfl
  | zero :: d :: digits =>
    have hmark : ∀ (v : Fin 10) (upper : Bool), ∀ entry ∈ radixMarks, Digit.char v upper ≠ entry.1 := by decide
    have hd := hmark d.value d.upper
    simp only [radixMarks, List.forall_mem_cons, List.not_mem_nil, false_imp_iff, implies_true, and_true] at hd
    simp [markedRadix?, Digit.point, hd]

/-- No white space stands after the digits. -/
theorem trimmed_points {radix : Nat} (hradix : radix ≤ 16) (digits : List (Digit radix)) :
    ((digits.map Digit.point).reverse.dropWhile CodePoint.isNumberBlank).reverse = digits.map Digit.point := by
  apply List.rdropWhile_eq_self_iff.2
  intro hsome
  obtain ⟨d, -, hd⟩ := List.mem_map.1 (List.getLast_mem hsome)
  rw [← hd, Digit.isNumberBlank_point hradix d]
  exact Bool.false_ne_true

/-- How a decimal digit is classified. -/
theorem decimal_point (d : Digit 10) :
    d.point.isDigit = true ∧ (d.point = CodePoint.ofChar '0' ↔ d.value.val = 0) ∧
      (isOctal d.point = true ↔ d.value.val < 8) := by
  have hall : ∀ (v : Fin 10) (upper : Bool),
      (CodePoint.ofChar (Digit.char v upper)).isDigit = true ∧
      (CodePoint.ofChar (Digit.char v upper) = CodePoint.ofChar '0' ↔ v.val = 0) ∧
      (isOctal (CodePoint.ofChar (Digit.char v upper)) = true ↔ v.val < 8) := by decide
  exact hall d.value d.upper

theorem digitsRadix_points (digits : List (Digit 10)) :
    digitsRadix (digits.map Digit.point) = if IsLegacyOctal digits then 8 else 10 := by
  have hzero : (digits.map Digit.point).head? = some (CodePoint.ofChar '0') ↔
      ∃ d ∈ digits.head?, d.value.val = 0 := by
    cases digits with
    | nil => simp
    | cons d digits => simpa using (decimal_point d).2.1
  have hoctal : (digits.map Digit.point).all isOctal = true ↔ ∀ d ∈ digits, d.value.val < 8 := by
    simp [fun d => (decimal_point d).2.2]
  rw [digitsRadix, List.length_map]
  exact if_congr (and_congr Iff.rfl (and_congr hzero hoctal)) rfl rfl

/-- The value of an integer literal is the number that its digits denote, if it has one. -/
theorem numberValue_integer (l : IntegerLiteral) (unlimited : Bool) :
    numberValue ⟨l.points ++ IntegerLiteral.suffix unlimited⟩ = integer l.value? := by
  simp only [numberValue, l.significant_points]
  cases l with
  | marked mark radix known s =>
    -- no mark is one for radix ten, so there may be any number of digits
    obtain ⟨hradix, hten, -⟩ := radix_of_mark known
    have hread : Integer.unsigned? radix (s.digits.map Digit.point) = some (positional radix s.digits) := by
      rw [Integer.unsigned?_points hradix s.digits_ne_nil fun d _ => d.value.isLt, if_neg (by simp [hten])]
    simp only [IntegerLiteral.compact, markedRadix?_mark known, List.drop_succ_cons, List.drop_zero,
      trimmed_points hradix, hread]
    rfl
  | plain s =>
    have hdigits : s.digits.map Digit.point ≠ [] ∧ (s.digits.map Digit.point).all CodePoint.isDigit = true := by
      simp [s.digits_ne_nil, fun d => (decimal_point d).1]
    simp only [IntegerLiteral.compact, markedRadix?_points, if_pos hdigits, digitsRadix_points]
    by_cases hlegacy : IsLegacyOctal s.digits
    · have hread := Integer.unsigned?_points (by decide) s.digits_ne_nil hlegacy.2.2
      rw [if_pos hlegacy, hread, if_neg (by simp), IntegerLiteral.value?, if_pos hlegacy]
    · have hread := Integer.unsigned?_points (by decide) s.digits_ne_nil fun d _ => d.value.isLt
      rw [if_neg hlegacy, hread, IntegerLiteral.value?, if_neg hlegacy]
      by_cases hlong : s.digits.length ≤ 4300
      · rw [if_pos hlong, if_neg (by simp [Integer.maxDigits, hlong])]
      · rw [if_neg hlong, if_pos ⟨rfl, Nat.lt_of_not_le hlong⟩]

-- an eight makes a number decimal that begins with a zero
example : numberValue "0_17n" = .int 15 ∧ numberValue "0_18n" = .int 18 ∧ numberValue "0Xb_en" = .int 190 := by decide

end Arbor.Literal
