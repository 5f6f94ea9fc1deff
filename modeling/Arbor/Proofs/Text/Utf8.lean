import Arbor.Text.Utf8

set_option autoImplicit false

/-! # Text read back from its bytes

A reader of bytes is followed through the bytes of one character: the first byte tells how many are to come and in
which range the second one lies, and each further byte adds six bits. So a character is read back from its bytes,
whatever follows them, and a text without surrogates from all of its bytes (`Utf8.decode_encode`). -/

namespace Arbor

/-- A code point is a character unless it is a surrogate. -/
theorem CodePoint.isNone_toChar? (c : CodePoint) :
    c.toChar?.isNone = false ↔ c.val < 0xD800 ∨ 0xDFFF < c.val := by
  have hvalid : c.val.isValidChar ↔ c.val < 0xD800 ∨ 0xDFFF < c.val :=
    or_congr_right (and_iff_left c.isLt)
  rw [← hvalid]
  by_cases h : c.val.isValidChar
  · rw [toChar?, dif_pos h]
    exact iff_of_true rfl h
  · rw [toChar?, dif_neg h]
    exact iff_of_false Bool.true_eq_false.mp h

namespace Utf8

/-! ## One byte -/

theorem toNat_continuation (v : Nat) : (continuation v).toNat = 0x80 + v % 64 := by
  rw [continuation, UInt8.toNat_ofNat']
  omega

section

variable {bits more low high v : Nat} (rest : List UInt8)

/-- A byte that goes on with a character adds six bits to it. -/
theorem decodeFrom_continuation (hlow : low ≤ 0x80 + v % 64) (hhigh : 0x80 + v % 64 ≤ high) (hmore : 1 < more) :
    decodeFrom (.inside bits more low high) (continuation v :: rest) =
      decodeFrom (.inside (bits * 64 + v % 64) (more - 1) 0x80 0xBF) rest := by
  rw [decodeFrom, step, toNat_continuation, if_pos ⟨hlow, hhigh⟩, if_pos hmore, Nat.add_sub_cancel_left]

/-- The last byte of a character completes it. -/
theorem decodeFrom_last (c : CodePoint) (hc : bits * 64 + v % 64 = c.val) :
    decodeFrom (.inside bits 1 0x80 0xBF) (continuation v :: rest) = c :: decodeFrom .between rest := by
  have hrange : 0x80 ≤ 0x80 + v % 64 ∧ 0x80 + v % 64 ≤ 0xBF := by omega
  have hbound : bits * 64 + v % 64 < 0x110000 := hc ▸ c.isLt
  rw [decodeFrom, step, toNat_continuation, if_pos hrange, if_neg (Nat.lt_irrefl 1), Nat.add_sub_cancel_left,
    dif_pos hbound]
  simp only [hc]

/-- The first byte of a character that takes several. -/
theorem decodeFrom_lead {lead : Nat} (hlead : lead < 256) (hfirst : first lead = (none, .inside bits more low high)) :
    decodeFrom .between (UInt8.ofNat lead :: rest) = decodeFrom (.inside bits more low high) rest := by
  rw [decodeFrom, step, UInt8.toNat_ofNat_of_lt' hlead, hfirst]

end

/-! ## First bytes -/

/-- The first of two bytes. -/
theorem first_of_two {v : Nat} (hlow : 0x80 ≤ v) (hhigh : v < 0x800) :
    first (0xC0 + v / 64) = (none, .inside (v / 64) 1 0x80 0xBF) := by
  rw [first, dif_neg (by omega), if_neg (by omega), if_pos (by omega), Nat.add_sub_cancel_left]

/-- After the first of three bytes, the second one lies in the range that keeps out what two bytes can hold, and
    the surrogates. -/
theorem first_of_three {v : Nat} (hlow : 0x800 ≤ v) (hhigh : v < 0x10000) (hplain : v < 0xD800 ∨ 0xDFFF < v) :
    ∃ low high, first (0xE0 + v / 4096) = (none, .inside (v / 4096) 2 low high) ∧
      low ≤ 0x80 + v / 64 % 64 ∧ 0x80 + v / 64 % 64 ≤ high := by
  rw [first, dif_neg (by omega), if_neg (by omega), if_neg (by omega)]
  by_cases hnarrow : v < 0x1000
  · have hzero : v / 4096 = 0 := by omega
    rw [hzero, if_pos rfl]
    exact ⟨_, _, rfl, by omega, by omega⟩
  · rw [if_neg (by omega)]
    by_cases hsurrogates : v / 4096 = 0xD
    · rw [hsurrogates, if_pos rfl]
      exact ⟨_, _, rfl, by omega, by omega⟩
    · rw [if_neg (by omega), if_pos (by omega), Nat.add_sub_cancel_left]
      exact ⟨_, _, rfl, by omega, by omega⟩

/-- After the first of four bytes, the second one lies in the range that keeps out what three bytes can hold, and
    what lies beyond the last code point. -/
theorem first_of_four {v : Nat} (hlow : 0x10000 ≤ v) (hhigh : v < 0x110000) :
    ∃ low high, first (0xF0 + v / 262144) = (none, .inside (v / 262144) 3 low high) ∧
      low ≤ 0x80 + v / 4096 % 64 ∧ 0x80 + v / 4096 % 64 ≤ high := by
  rw [first, dif_neg (by omega), if_neg (by omega), if_neg (by omega), if_neg (by omega), if_neg (by omega),
    if_neg (by omega)]
  by_cases hnarrow : v < 0x40000
  · have hzero : v / 262144 = 0 := by omega
    rw [hzero, if_pos rfl]
    exact ⟨_, _, rfl, by omega, by omega⟩
  · rw [if_neg (by omega)]
    by_cases hlast : v / 262144 = 4
    · rw [hlast, if_neg (by omega), if_pos rfl]
      exact ⟨_, _, rfl, by omega, by omega⟩
    · rw [if_pos (by omega), Nat.add_sub_cancel_left]
      exact ⟨_, _, rfl, by omega, by omega⟩

/-! ## Characters and texts -/

/-- The bytes of a character are read back as the character, whatever follows. -/
theorem decodeFrom_encodePoint {c : CodePoint} (hc : c.toChar?.isNone = false) (rest : List UInt8) :
    decodeFrom .between (encodePoint c ++ rest) = c :: decodeFrom .between rest := by
  have hplain := c.isNone_toChar?.1 hc
  have hbound := c.isLt
  rw [encodePoint]
  by_cases hone : c.val < 0x80
  · have hfirst : first c.val = (some c, .between) := dif_pos hone
    have hbyte : c.val < 256 := by omega
    rw [if_pos hone, List.singleton_append, decodeFrom, step, UInt8.toNat_ofNat_of_lt' hbyte, hfirst]
  rw [if_neg hone]
  by_cases htwo : c.val < 0x800
  · rw [if_pos htwo, List.cons_append, List.singleton_append,
      decodeFrom_lead _ (by omega) (first_of_two (by omega) htwo), decodeFrom_last rest c (by omega)]
  rw [if_neg htwo]
  by_cases hthree : c.val < 0x10000
  · obtain ⟨low, high, hfirst, hlow, hhigh⟩ := first_of_three (by omega) hthree hplain
    rw [if_pos hthree, List.cons_append, List.cons_append, List.singleton_append,
      decodeFrom_lead _ (by omega) hfirst, decodeFrom_continuation _ hlow hhigh (by omega),
      decodeFrom_last rest c (by omega)]
  · obtain ⟨low, high, hfirst, hlow, hhigh⟩ := first_of_four (by omega) hbound
    rw [if_neg hthree, List.cons_append, List.cons_append, List.cons_append, List.singleton_append,
      decodeFrom_lead _ (by omega) hfirst, decodeFrom_continuation _ hlow hhigh (by omega),
      decodeFrom_continuation _ (by omega) (by omega) (by omega), decodeFrom_last rest c (by omega)]

/-- A text without surrogates is what its bytes are read as. -/
theorem decode_encode {t : Text} (ht : t.hasSurrogate = false) : decode (encode t) = t := by
  obtain ⟨points⟩ := t
  rw [Text.hasSurrogate, List.any_eq_false] at ht
  rw [decode, encode]
  congr 1
  induction points with
  | nil => rfl
  | cons c rest ih =>
    obtain ⟨hc, hrest⟩ := List.forall_mem_cons.1 ht
    rw [List.flatMap_cons, decodeFrom_encodePoint (Bool.eq_false_iff.2 hc), ih hrest]

end Utf8

end Arbor
