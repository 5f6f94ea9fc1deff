import Arbor.Number.Integer

set_option autoImplicit false

/-! # Binary floating-point numbers of 64 bits

A number is its bit pattern: a sign bit, 11 bits of exponent and 52 bits of fraction. Reading a
decimal number rounds its exact value to the nearest such number, ties to the even pattern. All
arithmetic is on natural numbers. -/

namespace Arbor

/-- A 64-bit floating-point number, given by its bits. -/
structure Binary64 where
  bits : UInt64
  deriving DecidableEq, Inhabited

namespace Binary64

def infinity : Binary64 := ⟨0x7FF0000000000000⟩

def nan : Binary64 := ⟨0x7FF8000000000000⟩

/-- The number with the sign bit set. -/
def negated (x : Binary64) : Binary64 := ⟨x.bits ||| 0x8000000000000000⟩

def isNegative (x : Binary64) : Bool := x.bits &&& 0x8000000000000000 != 0

/-- The bits without the sign. -/
def magnitude (x : Binary64) : Nat := (x.bits &&& 0x7FFFFFFFFFFFFFFF).toNat

def isZero (x : Binary64) : Bool := x.magnitude = 0

def isInfinite (x : Binary64) : Bool := x.magnitude = infinity.magnitude

def isNaN (x : Binary64) : Bool := infinity.magnitude < x.magnitude

/-- The magnitude of a finite number as `m * 2 ^ (q - 1074)`. -/
def parts (x : Binary64) : Nat × Nat :=
  let exponent := x.magnitude / Nat.pow 2 52
  let fraction := x.magnitude % Nat.pow 2 52
  if exponent = 0 then (fraction, 0) else (Nat.pow 2 52 + fraction, exponent - 1)

/-! ## Rounding -/

/-- The quotient rounded to the nearest natural number, a tie to the even one. -/
def roundDiv (num den : Nat) : Nat :=
  let quotient := num / den
  let rest := num % den
  if 2 * rest < den then quotient
  else if den < 2 * rest then quotient + 1
  else quotient + quotient % 2

/-- The number nearest to `num / den`, for a positive `den`: the quotient is scaled by a power of
    two that leaves 53 significant bits, or fewer at the smallest exponent, and then rounded. A
    carry out of the fraction moves into the exponent by itself. -/
def ofRatio (num den : Nat) : Binary64 :=
  if num = 0 then ⟨0⟩
  else
    let guess : Int := (num.log2 : Int) - den.log2 - 52
    let scale (q : Int) : Nat × Nat :=
      if 0 ≤ q then (num, den * Nat.pow 2 q.toNat) else (num * Nat.pow 2 (-q).toNat, den)
    let exact := scale guess
    let q := max (-1074) (if exact.1 / exact.2 < Nat.pow 2 52 then guess - 1 else guess)
    let fitted := scale q
    let bits := (q + 1074).toNat * Nat.pow 2 52 + roundDiv fitted.1 fitted.2
    if infinity.magnitude ≤ bits then infinity else ⟨UInt64.ofNat bits⟩

/-- The number nearest to `m * 10 ^ e`. Exponents beyond the range of the format are cut short. -/
def ofDecimal (m : Nat) (e : Int) : Binary64 :=
  if m = 0 then ⟨0⟩
  else
    let size : Int := e + (m.log2 / 3 : Nat)
    if e > 400 then infinity
    else if size < -400 then ⟨0⟩
    else if 0 ≤ e then ofRatio (m * Nat.pow 10 e.toNat) 1
    else ofRatio m (Nat.pow 10 (-e).toNat)

/-! ## Reading -/

/-- The decimal digits at the start of a text, and the rest. -/
def leadingDigits : List CodePoint → List Nat × List CodePoint
  | [] => ([], [])
  | c :: rest =>
    match c.decimal? with
    | some d => let (digits, after) := leadingDigits rest; (d :: digits, after)
    | none => ([], c :: rest)

/-- The exponent part that ends a decimal number: absent, or `e`, a sign and digits. -/
def exponent? : List CodePoint → Option Int
  | [] => some 0
  | c :: rest =>
    if c = 'e' ∨ c = 'E' then
      let (negative, rest) := Integer.sign rest
      match leadingDigits rest with
      | ([], _) => none
      | (digits, []) =>
        let n := Integer.ofDigits 10 digits
        some (if negative then -(n : Int) else n)
      | (_, _ :: _) => none
    else none

/-- The fraction after the digits of a decimal number, and the rest. -/
def fraction : List CodePoint → List Nat × List CodePoint
  | [] => ([], [])
  | c :: rest => if c = '.' then leadingDigits rest else ([], c :: rest)

/-- An unsigned decimal number, with a point and an exponent if it has them. -/
def decimal? (points : List CodePoint) : Option Binary64 :=
  let (whole, rest) := leadingDigits points
  let (part, rest) := fraction rest
  match whole ++ part, exponent? rest with
  | [], _ => none
  | _, none => none
  | digits, some e => some (ofDecimal (Integer.ofDigits 10 digits) (e - part.length))

/-- ASCII letters in lower case; all other code points as they are. -/
def lower (c : CodePoint) : CodePoint :=
  if h : 0x41 ≤ c.val ∧ c.val ≤ 0x5A then ⟨c.val + 32, by omega⟩ else c

/-- An unsigned number: a word for infinity or for no number, in any case, or a decimal number. -/
def unsigned? (points : List CodePoint) : Option Binary64 :=
  let word : Text := ⟨points.map lower⟩
  if word = "inf" ∨ word = "infinity" then some infinity
  else if word = "nan" then some nan
  else decimal? points

/-- The number that a text denotes. -/
def read? (t : Text) : Option Binary64 :=
  let (negative, rest) := Integer.sign (t.trim CodePoint.isNumberBlank).points
  (unsigned? rest).map fun x => if negative then x.negated else x

end Binary64

end Arbor
