import Arbor.Text.Basic

set_option autoImplicit false

/-! # UTF-8

Writing text as bytes, and reading bytes that need not be well formed. A reader meets a byte either
between characters or inside one; a byte that cannot go on with the character that has begun drops
what has been read of it and is then read as a first byte. Overlong forms, surrogates and values
above `0x10FFFF` are excluded by the range that the second byte of a character has to lie in. -/

namespace Arbor.Utf8

/-! ## Writing -/

/-- The continuation byte that carries the low six bits of `v`. -/
def continuation (v : Nat) : UInt8 := UInt8.ofNat (0x80 + v % 64)

/-- The bytes of one code point. -/
def encodePoint (c : CodePoint) : List UInt8 :=
  let v := c.val
  if v < 0x80 then [UInt8.ofNat v]
  else if v < 0x800 then [UInt8.ofNat (0xC0 + v / 64), continuation v]
  else if v < 0x10000 then
    [UInt8.ofNat (0xE0 + v / 4096), continuation (v / 64), continuation v]
  else
    [UInt8.ofNat (0xF0 + v / 262144), continuation (v / 4096), continuation (v / 64),
      continuation v]

/-- The bytes of a text. -/
def encode (t : Text) : List UInt8 := t.points.flatMap encodePoint

/-! ## Reading -/

/-- Where a reader stands between two bytes. -/
inductive State where
  /-- Between characters. -/
  | between
  /-- Inside a character: its bits so far, the number of bytes still to come, and the range of the
      next one. -/
  | inside (bits : Nat) (more : Nat) (low high : Nat)
  deriving DecidableEq

/-- A first byte: the character that it is, or the state after it. Bytes that begin no character
    leave the reader between characters. -/
def first (b : Nat) : Option CodePoint × State :=
  if h : b < 0x80 then (some ⟨b, by omega⟩, .between)
  else if b < 0xC2 then (none, .between)
  else if b < 0xE0 then (none, .inside (b - 0xC0) 1 0x80 0xBF)
  else if b = 0xE0 then (none, .inside 0 2 0xA0 0xBF)
  else if b = 0xED then (none, .inside 0xD 2 0x80 0x9F)
  else if b < 0xF0 then (none, .inside (b - 0xE0) 2 0x80 0xBF)
  else if b = 0xF0 then (none, .inside 0 3 0x90 0xBF)
  else if b < 0xF4 then (none, .inside (b - 0xF0) 3 0x80 0xBF)
  else if b = 0xF4 then (none, .inside 4 3 0x80 0x8F)
  else (none, .between)

/-- One byte: the character that it completes, if any, and the state after it. -/
def step (state : State) (b : Nat) : Option CodePoint × State :=
  match state with
  | .between => first b
  | .inside bits more low high =>
    if low ≤ b ∧ b ≤ high then
      let bits := bits * 64 + (b - 0x80)
      if 1 < more then (none, .inside bits (more - 1) 0x80 0xBF)
      else if h : bits < 0x110000 then (some ⟨bits, h⟩, .between)
      else (none, .between)
    else first b

/-- The characters completed by `bytes`, read from `state` on. -/
def decodeFrom (state : State) : List UInt8 → List CodePoint
  | [] => []
  | b :: rest =>
    match step state b.toNat with
    | (some c, next) => c :: decodeFrom next rest
    | (none, next) => decodeFrom next rest

/-- The text of a byte string; what is not well formed is left out. -/
def decode (bytes : List UInt8) : Text := ⟨decodeFrom .between bytes⟩

end Arbor.Utf8
