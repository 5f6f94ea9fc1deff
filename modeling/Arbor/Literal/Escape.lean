import Arbor.Fault
import Arbor.Text.Digit

set_option autoImplicit false

/-! # Escape sequences of string and template literals

The body of a literal is read from left to right. A backslash and what follows it stand for a code
point, for a control character, for nothing (a line continuation) or for the code point after the
backslash; the forms are tried from the longest to the shortest. A backslash at the very end stands
for itself. -/

namespace Arbor.Literal

/-- The greatest number that still fits a machine integer. -/
def maxMachineInteger : Nat := Nat.pow 2 31 - 1

/-- The number written by hexadecimal digits. -/
def hexValue (digits : List CodePoint) : Nat :=
  digits.foldl (fun n c => n * 16 + c.hexadecimal?.getD 0) 0

/-- The code point with a given number. -/
def codePoint (n : Nat) : Except Fault CodePoint :=
  if h : n < 0x110000 then .ok ⟨n, h⟩
  else if n ≤ maxMachineInteger then .error .codePointTooLarge
  else .error .numberTooLarge

def isHex (c : CodePoint) : Bool := c.hexadecimal?.isSome

/-- The digits of `{hex digits}` at the start of a text. -/
def bracedDigits? : List CodePoint → Option (List CodePoint)
  | [] => none
  | c :: rest =>
    let digits := rest.takeWhile isHex
    if c = '\x7b' ∧ digits ≠ [] ∧ (rest.drop digits.length).head? = some (CodePoint.ofChar '\x7d')
    then some digits else none

/-- The first `n` points of a text, if they are hexadecimal digits. -/
def fixedDigits? (n : Nat) (points : List CodePoint) : Option (List CodePoint) :=
  let digits := points.take n
  if digits.length = n ∧ digits.all isHex then some digits else none

/-- The control character that a letter after a backslash stands for. -/
def control? (c : CodePoint) : Option CodePoint :=
  if c = 'n' then some '\n'
  else if c = 't' then some '\t'
  else if c = 'r' then some '\r'
  else if c = 'b' then some '\x08'
  else if c = 'f' then some '\x0c'
  else if c = 'v' then some '\x0b'
  else if c = '0' then some '\x00'
  else none

/-- Whether a backslash before `c` continues the line. -/
def isLineEnd (c : CodePoint) : Bool :=
  c = '\n' || c = '\r' || c = '\u2028' || c = '\u2029'

/-- An escape of one code point after the backslash. -/
def shortEscape (c : CodePoint) : List CodePoint :=
  if isLineEnd c then [] else [(control? c).getD c]

/-- What the escape after a backslash stands for, and how many code points it takes. There is none
    at the end of the text. -/
def escape? : List CodePoint → Option (Except Fault (List CodePoint) × Nat)
  | [] => none
  | c :: rest =>
    let coded (digits : List CodePoint) (width : Nat) :=
      some ((codePoint (hexValue digits)).map ([·]), width)
    let short := some (.ok (shortEscape c), 1)
    if c = 'u' then
      match bracedDigits? rest, fixedDigits? 4 rest with
      | some digits, _ => coded digits (digits.length + 3)
      | none, some digits => coded digits 5
      | none, none => short
    else if c = 'x' then
      match fixedDigits? 2 rest with
      | some digits => coded digits 3
      | none => short
    else if c = '\r' ∧ rest.head? = some (CodePoint.ofChar '\n') then some (.ok [], 2)
    else short

/-- The meaning of a text, of which the first `skip` code points belong to an escape that has been
    read already. -/
def unescapeFrom (skip : Nat) : List CodePoint → Except Fault (List CodePoint)
  | [] => .ok []
  | c :: rest =>
    match skip with
    | skip + 1 => unescapeFrom skip rest
    | 0 =>
      if c = '\\' then
        match escape? rest with
        | some (meaning, width) => do
          let here ← meaning
          let after ← unescapeFrom width rest
          pure (here ++ after)
        | none => do
          let after ← unescapeFrom 0 rest
          pure (c :: after)
      else do
        let after ← unescapeFrom 0 rest
        pure (c :: after)

/-- The text that the body of a string or template literal denotes. -/
def unescape (raw : Text) : Except Fault Text := (unescapeFrom 0 raw.points).map Text.mk

end Arbor.Literal
