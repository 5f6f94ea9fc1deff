import Arbor.Value.Basic

set_option autoImplicit false

/-! # Number literals

The value of a number literal: an integer in the radix that its first characters give, or a
floating-point number. Underscores are separators and have no meaning; an `n` at the end marks an
integer of unlimited size. -/

namespace Arbor.Literal

/-- The literal without separators and without one `n` at its end. -/
def significant (raw : Text) : List CodePoint :=
  let points := (raw.without '_').points
  match points.getLast? with
  | some c => if c = 'n' ∨ c = 'N' then points.dropLast else points
  | none => points

/-- The radix of a literal that starts with `0x`, `0o` or `0b`, in either case. -/
def markedRadix? : List CodePoint → Option Nat
  | zero :: c :: _ =>
    if zero ≠ '0' then none
    else if c = 'x' ∨ c = 'X' then some 16
    else if c = 'o' ∨ c = 'O' then some 8
    else if c = 'b' ∨ c = 'B' then some 2
    else none
  | _ => none

def isOctal (c : CodePoint) : Bool := 0x30 ≤ c.val && c.val ≤ 0x37

/-- The radix of a literal of digits: eight if it has two or more digits, all octal, of which the
    first is zero, else ten. -/
def digitsRadix (points : List CodePoint) : Nat :=
  if 1 < points.length ∧ points.head? = some (CodePoint.ofChar '0') ∧ points.all isOctal then 8
  else 10

/-- A number that could be read, as a scalar. -/
def integer (n : Option Nat) : Scalar :=
  match n with
  | some n => .int n
  | none => .null

/-- The value of a number literal, or null if it cannot be represented. -/
def numberValue (raw : Text) : Scalar :=
  let points := significant raw
  match markedRadix? points with
  | some radix =>
    let digits := ((points.drop 2).reverse.dropWhile CodePoint.isNumberBlank).reverse
    integer (Integer.unsigned? radix digits)
  | none =>
    if points ≠ [] ∧ points.all CodePoint.isDigit then
      integer (Integer.unsigned? (digitsRadix points) points)
    else
      match Binary64.read? ⟨points⟩ with
      | some x => .float x
      | none => .null

end Arbor.Literal
