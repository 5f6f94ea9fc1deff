import Arbor.Text.Printable

set_option autoImplicit false

/-! # Quoted text

How a text is shown inside a message: between quotes, with a backslash before the quote and before
a backslash, and with what is not printable written as an escape. Single quotes are used unless the
text holds a single quote and no double quote. -/

namespace Arbor.Text

/-- The quote that goes around a text. -/
def quoteFor (t : Text) : CodePoint :=
  if t.points.contains '\'' && !t.points.contains '"' then '"' else '\''

/-- The last `width` hexadecimal digits of a number, in lower case. -/
def hexDigits (width n : Nat) : List CodePoint :=
  (List.range width).reverse.map fun place =>
    CodePoint.ofChar (Nat.digitChar (n / Nat.pow 16 place % 16))

/-- One code point between quotes. -/
def quotedPoint (quote c : CodePoint) : List CodePoint :=
  if c = quote ∨ c = '\\' then ['\\', c]
  else if c = '\n' then ['\\', 'n']
  else if c = '\r' then ['\\', 'r']
  else if c = '\t' then ['\\', 't']
  else if c.isPrintable then [c]
  else if c.val < 0x100 then '\\' :: 'x' :: hexDigits 2 c.val
  else if c.val < 0x10000 then '\\' :: 'u' :: hexDigits 4 c.val
  else '\\' :: 'U' :: hexDigits 8 c.val

/-- A text between quotes. -/
def quoted (t : Text) : Text :=
  let quote := t.quoteFor
  ⟨quote :: t.points.flatMap (quotedPoint quote) ++ [quote]⟩

end Arbor.Text
