import Arbor.Text.Ranges

set_option autoImplicit false

/-! # White space

The code points whose bidirectional class or category makes them white space in Unicode: the
separators, the controls `U+0009` to `U+000D`, the four information separators and `U+0085`. -/

namespace Arbor

/-- The ranges of white space. -/
def CodePoint.blankRanges : List (Nat × Nat) := [
  (0x9, 0xD), (0x1C, 0x20), (0x85, 0x85), (0xA0, 0xA0), (0x1680, 0x1680), (0x2000, 0x200A),
  (0x2028, 0x2029), (0x202F, 0x202F), (0x205F, 0x205F), (0x3000, 0x3000)]

/-- Whether `c` is white space. -/
def CodePoint.isBlank (c : CodePoint) : Bool := c.inRanges blankRanges

namespace Text

/-- Text without the code points in `drop` at its start. -/
def dropStart (drop : CodePoint → Bool) (t : Text) : Text := ⟨t.points.dropWhile drop⟩

/-- Text without the code points in `drop` at either end. -/
def trim (drop : CodePoint → Bool) (t : Text) : Text :=
  ⟨((t.points.dropWhile drop).reverse.dropWhile drop).reverse⟩

end Text

end Arbor
