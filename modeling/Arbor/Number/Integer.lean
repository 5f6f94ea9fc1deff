import Arbor.Fault
import Arbor.Text.Blank
import Arbor.Text.Digit

set_option autoImplicit false

/-! # Integers written as text

An integer may have white space around it and a sign in front of it, and its digits may be of any
script and separated by single underscores. A decimal integer has at most `Integer.maxDigits`
digits, both when it is read and when it is written. -/

namespace Arbor

/-- White space that may stand around a number: all of it except the information separators. -/
def CodePoint.isNumberBlank (c : CodePoint) : Bool :=
  c.isBlank && !(0x1C ≤ c.val && c.val ≤ 0x1F)

namespace Integer

/-- The value of `c` as a digit of a radix. -/
def digit? (radix : Nat) (c : CodePoint) : Option Nat :=
  match c.alphanumeric? with
  | some d => if d < radix then some d else none
  | none =>
    match c.decimal? with
    | some d => if d < radix then some d else none
    | none => none

/-- The digits of a text in which underscores stand between digits only. `afterDigit` tells whether the
    text goes on after a digit, and so may end or hold an underscore. -/
def digits? (radix : Nat) (afterDigit : Bool) : List CodePoint → Option (List Nat)
  | [] => if afterDigit then some [] else none
  | c :: rest =>
    if c = '_' then
      if afterDigit then digits? radix false rest else none
    else
      match digit? radix c with
      | some d => (digits? radix true rest).map (d :: ·)
      | none => none

/-- The number with these digits, the most significant one first. -/
def ofDigits (radix : Nat) (digits : List Nat) : Nat :=
  digits.foldl (fun n d => n * radix + d) 0

/-- The greatest number of digits that a decimal integer may have. -/
def maxDigits : Nat := 4300

/-- The number written by unsigned digits. Only decimal numbers are limited in length. -/
def unsigned? (radix : Nat) (points : List CodePoint) : Option Nat :=
  match digits? radix false points with
  | some digits =>
    if radix = 10 ∧ maxDigits < digits.length then none else some (ofDigits radix digits)
  | none => none

/-- The sign in front of a number, and the rest. -/
def sign : List CodePoint → Bool × List CodePoint
  | [] => (false, [])
  | c :: rest => if c = '-' then (true, rest) else if c = '+' then (false, rest) else (false, c :: rest)

/-- The integer that a text denotes in a radix. -/
def read? (radix : Nat) (t : Text) : Option Int :=
  let (negative, rest) := sign (t.trim CodePoint.isNumberBlank).points
  (unsigned? radix rest).map fun n => if negative then -(n : Int) else n

/-- An integer in decimal digits. One of too many digits has no text. -/
def written (n : Int) : Except Fault Text :=
  if maxDigits < (Nat.toDigits 10 n.natAbs).length then .error .tooManyDigits
  else .ok (Text.ofInt n)

end Integer

end Arbor
