import Arbor.Number.Binary64

set_option autoImplicit false

/-! # The shortest decimal text of a floating-point number

The digits of a number are the fewest that read back as the number; of two candidates with that
many digits the nearer one is taken, of two equally near ones the even one. The search goes through
the decimal grids with 1, 2, … 17 digits and looks at the two neighbours of the number on each.

The layout is positional for numbers from `10 ^ (-4)` on and below `10 ^ 16`, always with a point,
and scientific with an exponent of at least two digits for all others. -/

namespace Arbor.Binary64

/-- The number of decimal digits of `n`. -/
def digitCount (n : Nat) : Nat := (Nat.toDigits 10 n).length

/-- The exponent `k` with `10 ^ k ≤ num / den < 10 ^ (k + 1)`, for positive arguments. -/
def decimalExponent (num den : Nat) : Int :=
  if den ≤ num then (digitCount (num / den) : Int) - 1
  else
    let size := digitCount (den / num)
    if den ≤ num * Nat.pow 10 (size - 1) then -((size : Int) - 1) else -(size : Int)

/-- The neighbours of `num / den` on the grid of the multiples of `10 ^ e`, the better one first. -/
def neighbours (num den : Nat) (e : Int) : List Nat :=
  let (a, b) := if 0 ≤ e then (num, den * Nat.pow 10 e.toNat) else (num * Nat.pow 10 (-e).toNat, den)
  let below := a / b
  let rest := a % b
  if rest = 0 then [below]
  else if 2 * rest < b ∨ (2 * rest = b ∧ below % 2 = 0) then [below, below + 1]
  else [below + 1, below]

/-- The shortest decimal digits `d` and exponent `e` with which `d * 10 ^ e` reads back as `x`. -/
def shortest (x : Binary64) : Nat × Int :=
  let (m, q) := x.parts
  let num := m * Nat.pow 2 q
  let den := Nat.pow 2 1074
  let k := decimalExponent num den
  let onGrid (digits : Nat) : Option (Nat × Int) :=
    let e := k - digits
    ((neighbours num den e).find? fun d => ofDecimal d e = ⟨UInt64.ofNat x.magnitude⟩).map (·, e)
  ((List.range 17).findSome? onGrid).getD (num, 0)

/-- A number without the zeros at its end, and their number. -/
def dropZeros : Nat → Nat → Nat × Nat
  | 0, n => (n, 0)
  | fuel + 1, n =>
    if n % 10 = 0 then
      let (short, zeros) := dropZeros fuel (n / 10)
      (short, zeros + 1)
    else (n, 0)

/-- Text of the number whose digits are `digits` and whose first digit counts `10 ^ k`. -/
def layout (digits : List Char) (k : Int) : List Char :=
  if -4 ≤ k ∧ k < 16 then
    if k < 0 then '0' :: '.' :: (List.replicate (-k - 1).toNat '0' ++ digits)
    else
      let whole := (k + 1).toNat
      let padded := digits ++ List.replicate (whole - digits.length) '0'
      let fraction := padded.drop whole
      padded.take whole ++ '.' :: (if fraction = [] then ['0'] else fraction)
  else
    let exponent := Nat.toDigits 10 k.natAbs
    let exponent := if exponent.length < 2 then '0' :: exponent else exponent
    digits.take 1 ++ (if digits.length = 1 then [] else '.' :: digits.drop 1) ++
      'e' :: (if k < 0 then '-' else '+') :: exponent

/-- The shortest text of a number. -/
def toText (x : Binary64) : Text :=
  if x.isNaN then "nan"
  else
    let sign := if x.isNegative then ['-'] else []
    let body :=
      if x.isInfinite then ['i', 'n', 'f']
      else if x.isZero then ['0', '.', '0']
      else
        let (d, e) := x.shortest
        let (d, zeros) := dropZeros (digitCount d) d
        let digits := Nat.toDigits 10 d
        layout digits (e + zeros + digits.length - 1)
    ⟨(sign ++ body).map CodePoint.ofChar⟩

end Arbor.Binary64
