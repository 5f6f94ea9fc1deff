import Arbor.Proofs.Literal.Escape
import Arbor.Proofs.Number.Digits

set_option autoImplicit false

/-! # The tokens of a literal

The body of a string or template literal is written in tokens, each of which stands for what it stands for
whatever comes before or after it (`BodyToken`). Some texts are no such tokens one after another: a `u` or `x`
after a backslash may begin none of the escapes it could begin, and a backslash may be the last of a text.
With these two (`BodyPiece`) every text can be written, and it is decoded piece by piece
(`Literal.unescape_tokens`). -/

namespace Arbor.Literal

/-! ## Tokens -/

/-- The letters that stand for a control character after a backslash, each with its character. -/
def controls : List (Char × Char) := [
  ('n', '\n'), ('t', '\t'), ('r', '\r'), ('b', '\x08'), ('f', '\x0c'), ('v', '\x0b'), ('0', '\x00')]

/-- The letters that a fixed number of digits follows. -/
def codedLetters : List (Char × Nat) := [('x', 2), ('u', 4)]

/-- The ends of a line. -/
def lineEnds : List (List Char) := [['\n'], ['\r'], ['\r', '\n'], ['\u2028'], ['\u2029']]

/-- Whether a code point after a backslash begins more than an escape of itself. -/
def IsSpecial (c : CodePoint) : Prop :=
  (∃ entry ∈ controls, c = CodePoint.ofChar entry.1) ∨ (∃ entry ∈ codedLetters, c = CodePoint.ofChar entry.1) ∨
    ∃ line ∈ lineEnds, some c = (line.map CodePoint.ofChar).head?

instance : DecidablePred IsSpecial := fun _ => inferInstanceAs (Decidable (_ ∨ _ ∨ _))

/-- A token of the body of a literal. -/
inductive BodyToken where
  /-- A character that is no backslash. -/
  | plain (c : CodePoint) (ordinary : c ≠ CodePoint.ofChar '\\')
  /-- A letter for a control character. -/
  | control (letter meaning : Char) (known : (letter, meaning) ∈ controls)
  /-- A letter and as many digits as it asks for. -/
  | coded (letter : Char) (digits : List (Digit 16)) (known : (letter, digits.length) ∈ codedLetters)
  /-- Digits in braces. -/
  | braced (digits : List (Digit 16)) (some : digits ≠ [])
  /-- The end of a line, which goes on after it. -/
  | continuation (line : List Char) (known : line ∈ lineEnds)
  /-- A character that stands for itself. -/
  | escaped (c : CodePoint) (other : ¬ IsSpecial c)

/-- The code point with a number; nothing if there is none. -/
def pointOf (n : Nat) : List CodePoint := if h : n < 0x110000 then [⟨n, h⟩] else []

namespace BodyToken

/-- How a token is written. -/
def spelling : BodyToken → List CodePoint
  | plain c _ => [c]
  | control letter _ _ => [CodePoint.ofChar '\\', CodePoint.ofChar letter]
  | coded letter digits _ => CodePoint.ofChar '\\' :: CodePoint.ofChar letter :: digits.map Digit.point
  | braced digits _ =>
    CodePoint.ofChar '\\' :: CodePoint.ofChar 'u' :: CodePoint.ofChar '\x7b' ::
      (digits.map Digit.point ++ [CodePoint.ofChar '\x7d'])
  | continuation line _ => CodePoint.ofChar '\\' :: line.map CodePoint.ofChar
  | escaped c _ => [CodePoint.ofChar '\\', c]

/-- What a token stands for. -/
def meaning : BodyToken → List CodePoint
  | plain c _ => [c]
  | control _ meaning _ => [CodePoint.ofChar meaning]
  | coded _ digits _ => pointOf (positional 16 digits)
  | braced digits _ => pointOf (positional 16 digits)
  | continuation _ _ => []
  | escaped c _ => [c]

/-- The number in the braces of a token. -/
def braced? : BodyToken → Option Nat
  | braced digits _ => some (positional 16 digits)
  | _ => none

/-- Whether two tokens may stand next to each other: a line that is continued after a carriage return does not go
    on with a line feed. -/
def Apart (s t : BodyToken) : Prop :=
  s.spelling = [CodePoint.ofChar '\\', CodePoint.ofChar '\r'] → t.spelling ≠ [CodePoint.ofChar '\n']

instance : DecidableRel Apart := fun _ _ => inferInstanceAs (Decidable (_ → _))

theorem spelling_ne_nil (t : BodyToken) : t.spelling ≠ [] := by
  cases t <;> simp [spelling]

/-- A token that begins with no backslash is one character. -/
theorem spelling_eq_of_head? {t : BodyToken} {c : CodePoint} (h : t.spelling.head? = some c)
    (hc : c ≠ CodePoint.ofChar '\\') : t.spelling = [c] := by
  cases t with
  | plain d ordinary =>
    obtain rfl : d = c := by simpa [spelling] using h
    rfl
  | _ => exact absurd (Option.some.inj h).symm hc

end BodyToken

/-! ## Pieces -/

/-- A token, or a backslash that begins none. -/
inductive BodyPiece where
  | token (t : BodyToken)
  /-- A letter after a backslash without the digits it asks for. -/
  | stray (letter : Char) (known : letter = 'u' ∨ letter = 'x')
  /-- A backslash at the end of a text. -/
  | backslash

namespace BodyPiece

def spelling : BodyPiece → List CodePoint
  | token t => t.spelling
  | stray letter _ => [CodePoint.ofChar '\\', CodePoint.ofChar letter]
  | backslash => [CodePoint.ofChar '\\']

/-- A stray letter and a last backslash stand for themselves. -/
def meaning : BodyPiece → List CodePoint
  | token t => t.meaning
  | stray letter _ => [CodePoint.ofChar letter]
  | backslash => [CodePoint.ofChar '\\']

def braced? : BodyPiece → Option Nat
  | token t => t.braced?
  | _ => none

/-- What may come after a piece. A letter is stray only if no token begins there. -/
def Fits (rest : List CodePoint) : BodyPiece → Prop
  | token t =>
    t.spelling = [CodePoint.ofChar '\\', CodePoint.ofChar '\r'] → rest.head? ≠ some (CodePoint.ofChar '\n')
  | stray letter _ =>
    ∀ t : BodyToken, ¬ t.spelling <+: CodePoint.ofChar '\\' :: CodePoint.ofChar letter :: rest
  | backslash => rest = []

theorem spelling_ne_nil (p : BodyPiece) : p.spelling ≠ [] := by
  cases p with
  | token t => exact t.spelling_ne_nil
  | stray letter known => simp [spelling]
  | backslash => simp [spelling]

end BodyPiece

/-- A text is written in these pieces. -/
inductive Written : List BodyPiece → List CodePoint → Prop
  | nil : Written [] []
  | cons {p : BodyPiece} {ps : List BodyPiece} {rest : List CodePoint} (fits : p.Fits rest) (more : Written ps rest) :
      Written (p :: ps) (p.spelling ++ rest)

/-- What pieces denote: what they stand for, one after another, unless braces hold a number beyond the last code
    point. The first such number is the fault. -/
def denoted (ps : List BodyPiece) : Except Fault (List CodePoint) :=
  match (ps.filterMap BodyPiece.braced?).find? fun n => 0x10FFFF < n with
  | none => .ok (ps.flatMap BodyPiece.meaning)
  | some n => .error (if n ≤ 2 ^ 31 - 1 then .codePointTooLarge else .numberTooLarge)

/-! ## Digits after a letter -/

theorem fixedDigits?_points {n : Nat} {digits : List (Digit 16)} (hlength : digits.length = n)
    (rest : List CodePoint) :
    fixedDigits? n (digits.map Digit.point ++ rest) = some (digits.map Digit.point) := by
  have htake : (digits.map Digit.point ++ rest).take n = digits.map Digit.point :=
    List.take_left' (by rw [List.length_map, hlength])
  simp [fixedDigits?, htake, hlength]

theorem exists_of_fixedDigits {n : Nat} {points found : List CodePoint} (h : fixedDigits? n points = some found) :
    ∃ (digits : List (Digit 16)) (rest : List CodePoint),
      found = digits.map Digit.point ∧ digits.length = n ∧ points = digits.map Digit.point ++ rest := by
  simp only [fixedDigits?, Option.ite_none_right_eq_some, Option.some.injEq] at h
  obtain ⟨⟨hlength, hall⟩, rfl⟩ := h
  obtain ⟨digits, hdigits⟩ := exists_digits hall
  refine ⟨digits, points.drop n, hdigits.symm, ?_, ?_⟩
  · rw [← hlength, ← hdigits, List.length_map]
  · rw [hdigits, List.take_append_drop]

theorem bracedDigits?_points {digits : List (Digit 16)} (hsome : digits ≠ []) (rest : List CodePoint) :
    bracedDigits? (CodePoint.ofChar '\x7b' :: (digits.map Digit.point ++ CodePoint.ofChar '\x7d' :: rest)) =
      some (digits.map Digit.point) := by
  have hclose : isHex (CodePoint.ofChar '\x7d') = false := by decide
  have htake : (digits.map Digit.point ++ CodePoint.ofChar '\x7d' :: rest).takeWhile isHex =
      digits.map Digit.point := by
    rw [List.takeWhile_append_of_pos (by simp), List.takeWhile_cons_of_neg (by simp [hclose]),
      List.append_nil]
  simp [bracedDigits?, htake, hsome]

theorem exists_of_bracedDigits {points found : List CodePoint} (h : bracedDigits? points = some found) :
    ∃ (digits : List (Digit 16)) (rest : List CodePoint), found = digits.map Digit.point ∧ digits ≠ [] ∧
      points = CodePoint.ofChar '\x7b' :: (digits.map Digit.point ++ CodePoint.ofChar '\x7d' :: rest) := by
  obtain ⟨rest, rfl, hsome, hall⟩ := eq_of_bracedDigits h
  obtain ⟨digits, rfl⟩ := exists_digits hall
  exact ⟨digits, rest, rfl, by simpa using hsome, rfl⟩

/-- Digits begin with no brace. -/
theorem bracedDigits?_digits {digits : List (Digit 16)} (hsome : digits ≠ []) (rest : List CodePoint) :
    bracedDigits? (digits.map Digit.point ++ rest) = none := by
  cases digits with
  | nil => exact absurd rfl hsome
  | cons d digits =>
    have hbrace : d.point ≠ CodePoint.ofChar '\x7b' := Digit.point_ne (by decide) d (by decide)
    simp [bracedDigits?, hbrace]

/-! ## One escape -/

theorem unescapeFrom_skip (skip : Nat) (points : List CodePoint) :
    unescapeFrom skip points = unescapeFrom 0 (points.drop skip) := by
  induction points generalizing skip with
  | nil => simp [unescapeFrom]
  | cons c rest ih =>
    cases skip with
    | zero => rfl
    | succ skip => rw [unescapeFrom, ih, List.drop_succ_cons]

/-- After an escape the text is decoded as if the escape were not there. -/
theorem unescapeFrom_escape (written : List CodePoint) {rest : List CodePoint}
    {meaning : Except Fault (List CodePoint)}
    (h : escape? (written ++ rest) = some (meaning, written.length)) :
    unescapeFrom 0 (CodePoint.ofChar '\\' :: (written ++ rest)) = (do
      let here ← meaning
      let after ← unescapeFrom 0 rest
      pure (here ++ after)) := by
  rw [unescapeFrom, if_pos rfl, h]
  simp only [unescapeFrom_skip written.length, List.drop_left]

theorem escape?_control {letter meaning : Char} (known : (letter, meaning) ∈ controls) (rest : List CodePoint) :
    escape? (CodePoint.ofChar letter :: rest) = some (.ok [CodePoint.ofChar meaning], 1) := by
  simp only [controls, List.mem_cons, Prod.mk.injEq, List.not_mem_nil, or_false] at known
  rcases known with ⟨rfl, rfl⟩ | ⟨rfl, rfl⟩ | ⟨rfl, rfl⟩ | ⟨rfl, rfl⟩ | ⟨rfl, rfl⟩ | ⟨rfl, rfl⟩ | ⟨rfl, rfl⟩ <;> rfl

theorem escape?_coded {letter : Char} {digits : List (Digit 16)} (known : (letter, digits.length) ∈ codedLetters)
    (rest : List CodePoint) :
    escape? (CodePoint.ofChar letter :: (digits.map Digit.point ++ rest)) =
      some ((codePoint (positional 16 digits)).map ([·]), digits.length + 1) := by
  simp only [codedLetters, List.mem_cons, Prod.mk.injEq, List.not_mem_nil, or_false] at known
  rcases known with ⟨rfl, hlength⟩ | ⟨rfl, hlength⟩
  · simp [escape?, fixedDigits?_points hlength, hexValue_points, hlength]
  · have hsome : digits ≠ [] := by
      rintro rfl
      simp at hlength
    simp [escape?, fixedDigits?_points hlength, bracedDigits?_digits hsome, hexValue_points, hlength]

theorem escape?_braced {digits : List (Digit 16)} (hsome : digits ≠ []) (rest : List CodePoint) :
    escape? (CodePoint.ofChar 'u' :: CodePoint.ofChar '\x7b' ::
        (digits.map Digit.point ++ [CodePoint.ofChar '\x7d']) ++ rest) =
      some ((codePoint (positional 16 digits)).map ([·]), digits.length + 3) := by
  simp [escape?, bracedDigits?_points hsome, hexValue_points]

theorem escape?_continuation {line : List Char} (known : line ∈ lineEnds) {rest : List CodePoint}
    (hrest : line = ['\r'] → rest.head? ≠ some (CodePoint.ofChar '\n')) :
    escape? (line.map CodePoint.ofChar ++ rest) = some (.ok [], line.length) := by
  simp only [lineEnds, List.mem_cons, List.not_mem_nil, or_false] at known
  rcases known with rfl | rfl | rfl | rfl | rfl
  · rfl
  · have hfeed : rest.head? ≠ some (CodePoint.ofChar '\n') := hrest rfl
    simp [escape?, hfeed, shortEscape, isLineEnd]
  · rfl
  · rfl
  · rfl

theorem escape?_escaped {c : CodePoint} (other : ¬ IsSpecial c) (rest : List CodePoint) :
    escape? (c :: rest) = some (.ok [c], 1) := by
  simp only [IsSpecial, controls, codedLetters, lineEnds, List.mem_cons, List.not_mem_nil, or_false,
    exists_eq_or_imp, exists_eq_left, List.map_cons, List.head?_cons, Option.some.injEq, not_or] at other
  simp [escape?, shortEscape, isLineEnd, control?, other]

/-- A letter without the digits it asks for is read as itself. -/
theorem escape?_stray {letter : Char} (known : letter = 'u' ∨ letter = 'x') {rest : List CodePoint}
    (fits : (BodyPiece.stray letter known).Fits rest) :
    escape? (CodePoint.ofChar letter :: rest) = some (.ok [CodePoint.ofChar letter], 1) := by
  -- digits that were found would make a token
  have fixed {n : Nat} (hcoded : (letter, n) ∈ codedLetters) : fixedDigits? n rest = none := by
    by_contra hfound
    obtain ⟨found, hfound⟩ := Option.ne_none_iff_exists'.1 hfound
    obtain ⟨digits, after, -, hlength, rfl⟩ := exists_of_fixedDigits hfound
    apply fits (.coded letter digits (hlength ▸ hcoded))
    simp [BodyToken.spelling]
  rcases known with rfl | rfl
  · have hbraced : bracedDigits? rest = none := by
      by_contra hfound
      obtain ⟨found, hfound⟩ := Option.ne_none_iff_exists'.1 hfound
      obtain ⟨digits, after, -, hsome, rfl⟩ := exists_of_bracedDigits hfound
      apply fits (.braced digits hsome)
      simp [BodyToken.spelling]
    have hfixed : fixedDigits? 4 rest = none := fixed (by decide)
    simp only [escape?, hbraced, hfixed]
    rfl
  · have hfixed : fixedDigits? 2 rest = none := fixed (by decide)
    simp only [escape?, hfixed]
    rfl

/-! ## One piece -/

theorem codePoint_of_le {n : Nat} (h : n ≤ 0x10FFFF) : (codePoint n).map ([·]) = .ok (pointOf n) := by
  have hlt : n < 0x110000 := by omega
  simp [codePoint, pointOf, hlt, Except.map]

theorem codePoint_of_lt {n : Nat} (h : 0x10FFFF < n) :
    (codePoint n).map ([·]) = .error (if n ≤ 2 ^ 31 - 1 then .codePointTooLarge else .numberTooLarge) := by
  have hge : ¬ n < 0x110000 := by omega
  have hmax : maxMachineInteger = 2 ^ 31 - 1 := rfl
  rw [codePoint, dif_neg hge, hmax]
  by_cases hn : n ≤ 2 ^ 31 - 1
  · simp only [if_pos hn, Except.map]
  · simp only [if_neg hn, Except.map]

/-- Few digits denote a code point. -/
theorem coded_le {letter : Char} {digits : List (Digit 16)} (known : (letter, digits.length) ∈ codedLetters) :
    positional 16 digits ≤ 0x10FFFF := by
  have hfew : digits.length ≤ 4 := by
    simp only [codedLetters, List.mem_cons, Prod.mk.injEq, List.not_mem_nil, or_false] at known
    omega
  have hvalue := hexValue_lt (digits.map Digit.point)
  rw [hexValue_points, List.length_map] at hvalue
  have hpow : 16 ^ digits.length ≤ 16 ^ 4 := Nat.pow_le_pow_right (by decide) hfew
  omega

namespace BodyPiece

/-- What a piece is decoded to. -/
def outcome (p : BodyPiece) : Except Fault (List CodePoint) :=
  match p.braced? with
  | some n => (codePoint n).map ([·])
  | none => .ok p.meaning

/-- The rest of a text is decoded as if it stood alone. -/
theorem unescapeFrom_spelling {p : BodyPiece} {rest : List CodePoint} (fits : p.Fits rest) :
    unescapeFrom 0 (p.spelling ++ rest) = (do
      let here ← p.outcome
      let after ← unescapeFrom 0 rest
      pure (here ++ after)) := by
  cases p with
  | backslash =>
    obtain rfl : rest = [] := fits
    rfl
  | stray letter known => exact unescapeFrom_escape [_] (escape?_stray known fits)
  | token t =>
    cases t with
    | plain c ordinary =>
      have hplain : unescapeFrom 0 (c :: rest) = (do
          let after ← unescapeFrom 0 rest
          pure (c :: after)) := by
        rw [unescapeFrom, if_neg ordinary]
      exact hplain
    | control letter meaning known => exact unescapeFrom_escape [_] (escape?_control known rest)
    | coded letter digits known =>
      have hcoded := escape?_coded known rest
      rw [codePoint_of_le (coded_le known)] at hcoded
      have hwidth : (CodePoint.ofChar letter :: digits.map Digit.point).length = digits.length + 1 := by simp
      exact unescapeFrom_escape _ (hwidth ▸ hcoded)
    | braced digits hsome =>
      have hbraced := escape?_braced hsome rest
      have hwidth : (CodePoint.ofChar 'u' :: CodePoint.ofChar '\x7b' ::
          (digits.map Digit.point ++ [CodePoint.ofChar '\x7d'])).length = digits.length + 3 := by simp
      exact unescapeFrom_escape _ (hwidth ▸ hbraced)
    | continuation line known =>
      have hfeed : line = ['\r'] → rest.head? ≠ some (CodePoint.ofChar '\n') := by
        intro hline
        subst hline
        exact fits rfl
      have hline := escape?_continuation known hfeed
      have hwidth : (line.map CodePoint.ofChar).length = line.length := by simp
      exact unescapeFrom_escape _ (hwidth ▸ hline)
    | escaped c other => exact unescapeFrom_escape [_] (escape?_escaped other rest)

theorem meaning_of_braced? {p : BodyPiece} {n : Nat} (h : p.braced? = some n) : p.meaning = pointOf n := by
  cases p with
  | backslash => cases h
  | stray letter known => cases h
  | token t =>
    cases t with
    | braced digits hsome =>
      obtain rfl : positional 16 digits = n := Option.some.inj h
      rfl
    | _ => cases h

end BodyPiece

theorem denoted_cons (p : BodyPiece) (ps : List BodyPiece) :
    denoted (p :: ps) = (do
      let here ← p.outcome
      let after ← denoted ps
      pure (here ++ after)) := by
  cases hp : p.braced? with
  | none =>
    simp only [denoted, List.filterMap_cons_none hp, BodyPiece.outcome, hp]
    cases (ps.filterMap BodyPiece.braced?).find? fun n => 0x10FFFF < n with
    | none => rfl
    | some n => rfl
  | some n =>
    simp only [denoted, List.filterMap_cons_some hp, BodyPiece.outcome, hp, List.find?_cons]
    by_cases hn : n ≤ 0x10FFFF
    · have hmeaning : p.meaning = pointOf n := BodyPiece.meaning_of_braced? hp
      have hfits : decide (0x10FFFF < n) = false := by simpa using hn
      rw [codePoint_of_le hn, hfits, List.flatMap_cons, hmeaning]
      cases (ps.filterMap BodyPiece.braced?).find? fun n => 0x10FFFF < n with
      | none => rfl
      | some m => rfl
    · -- nothing comes after the first number that is no code point
      have hlarge : decide (0x10FFFF < n) = true := by simpa using hn
      rw [codePoint_of_lt (Nat.lt_of_not_le hn), hlarge]
      rfl

/-! ## A text -/

theorem unescapeFrom_written {ps : List BodyPiece} {points : List CodePoint} (h : Written ps points) :
    unescapeFrom 0 points = denoted ps := by
  induction h with
  | nil => rfl
  | cons fits more ih => rw [BodyPiece.unescapeFrom_spelling fits, denoted_cons, ih]

/-- The first code point of a line end is one by itself. -/
theorem singleton_mem_lineEnds {line : List Char} (known : line ∈ lineEnds) {c : CodePoint}
    (hc : some c = (line.map CodePoint.ofChar).head?) : ∃ char, c = CodePoint.ofChar char ∧ [char] ∈ lineEnds := by
  simp only [lineEnds, List.mem_cons, List.not_mem_nil, or_false] at known
  rcases known with rfl | rfl | rfl | rfl | rfl
  all_goals
    obtain rfl := Option.some.inj hc
    exact ⟨_, rfl, by decide⟩

/-- A letter that digits may follow begins a token or is stray. -/
theorem exists_piece_of_letter {letter : Char} (known : letter = 'u' ∨ letter = 'x') (points : List CodePoint) :
    ∃ (p : BodyPiece) (rest : List CodePoint),
      CodePoint.ofChar '\\' :: CodePoint.ofChar letter :: points = p.spelling ++ rest ∧ p.Fits rest := by
  by_cases hfits : (BodyPiece.stray letter known).Fits points
  · exact ⟨.stray letter known, points, rfl, hfits⟩
  · obtain ⟨t, rest, ht⟩ : ∃ t : BodyToken,
        t.spelling <+: CodePoint.ofChar '\\' :: CodePoint.ofChar letter :: points := by
      simpa [BodyPiece.Fits] using hfits
    refine ⟨.token t, rest, ht.symm, ?_⟩
    -- the token begins with the letter, which is no carriage return
    intro hreturn
    rw [hreturn, List.cons_append, List.cons_append, List.cons.injEq, List.cons.injEq] at ht
    obtain rfl : '\r' = letter := CodePoint.ofChar_inj.1 ht.2.1
    simp at known

/-- A text that is not empty begins with a piece. -/
theorem exists_piece (c : CodePoint) (points : List CodePoint) :
    ∃ (p : BodyPiece) (rest : List CodePoint), c :: points = p.spelling ++ rest ∧ p.Fits rest := by
  by_cases hc : c = CodePoint.ofChar '\\'
  · subst hc
    cases points with
    | nil => exact ⟨.backslash, [], rfl, rfl⟩
    | cons d points =>
      by_cases hspecial : IsSpecial d
      · rcases hspecial with ⟨⟨letter, meaning⟩, known, rfl⟩ | ⟨⟨letter, n⟩, known, rfl⟩ | ⟨line, known, hline⟩
        · refine ⟨.token (.control letter meaning known), points, rfl, ?_⟩
          have hletter : ∀ entry ∈ controls, entry.1 ≠ '\r' := by decide
          intro hreturn
          exact absurd (by simpa [BodyToken.spelling] using hreturn) (hletter _ known)
        · have hletter : ∀ entry ∈ codedLetters, entry.1 = 'u' ∨ entry.1 = 'x' := by decide
          exact exists_piece_of_letter (hletter _ known) points
        · obtain ⟨char, rfl, hsingle⟩ := singleton_mem_lineEnds known hline
          by_cases hfeed : char = '\r' ∧ points.head? = some (CodePoint.ofChar '\n')
          · obtain ⟨rfl, hhead⟩ := hfeed
            obtain ⟨rest, rfl⟩ := List.head?_eq_some_iff.1 hhead
            refine ⟨.token (.continuation ['\r', '\n'] (by decide)), rest, rfl, ?_⟩
            simp [BodyPiece.Fits, BodyToken.spelling]
          · refine ⟨.token (.continuation [char] hsingle), points, rfl, ?_⟩
            intro hreturn hhead
            exact hfeed ⟨by simpa [BodyToken.spelling] using hreturn, hhead⟩
      · refine ⟨.token (.escaped d hspecial), points, rfl, ?_⟩
        -- a carriage return is special
        intro hreturn
        obtain rfl : d = CodePoint.ofChar '\r' := by simpa [BodyToken.spelling] using hreturn
        exact absurd (by decide) hspecial
  · exact ⟨.token (.plain c hc), points, rfl, by simp [BodyPiece.Fits, BodyToken.spelling]⟩

/-- Every text can be written in pieces. -/
theorem exists_written (points : List CodePoint) : ∃ ps, Written ps points := by
  induction hlength : points.length using Nat.strong_induction_on generalizing points with
  | _ n ih =>
    cases points with
    | nil => exact ⟨[], .nil⟩
    | cons c points =>
      obtain ⟨p, rest, hpoints, fits⟩ := exists_piece c points
      have hshorter : rest.length < n := by
        have hsome := List.length_pos_of_ne_nil p.spelling_ne_nil
        rw [← hlength, hpoints, List.length_append]
        omega
      obtain ⟨ps, more⟩ := ih rest.length hshorter rest rfl
      exact ⟨p :: ps, hpoints ▸ .cons fits more⟩

/-- Tokens that may stand next to each other are pieces of their text. -/
theorem written_of_isChain {ts : List BodyToken} (h : ts.IsChain BodyToken.Apart) :
    Written (ts.map .token) (ts.flatMap BodyToken.spelling) := by
  induction h with
  | nil => exact .nil
  | singleton t => exact .cons (fun _ hhead => nomatch hhead) .nil
  | @cons_cons t next ts apart hchain ih =>
    apply Written.cons _ ih
    intro hreturn hhead
    rw [List.flatMap_cons, List.head?_append_of_ne_nil _ next.spelling_ne_nil] at hhead
    exact apart hreturn (BodyToken.spelling_eq_of_head? hhead (by decide))

/-- A text written in tokens denotes what they stand for, one after another. Every text is written in pieces, and it
    denotes the same for all the ways to do so: beside its tokens, letters without the digits they ask for and a
    last backslash stand for themselves. -/
theorem unescape_tokens :
    (∀ ts : List BodyToken, ts.IsChain BodyToken.Apart →
      unescape ⟨ts.flatMap BodyToken.spelling⟩ = (denoted (ts.map .token)).map Text.mk) ∧
    ∀ raw : Text, (∃ ps, Written ps raw.points) ∧
      ∀ ps, Written ps raw.points → unescape raw = (denoted ps).map Text.mk := by
  have written (raw : Text) (ps : List BodyPiece) (h : Written ps raw.points) :
      unescape raw = (denoted ps).map Text.mk := by
    rw [unescape, unescapeFrom_written h]
  refine ⟨?_, ?_⟩
  · intro ts apart
    exact written _ _ (written_of_isChain apart)
  · intro raw
    exact ⟨exists_written raw.points, written raw⟩

namespace Sample

/-- The text `a\n\x41\u{1F600}\q` and two ends of a line, of which the second is one more token. -/
def tokens : List BodyToken := [
  .plain 'a' (by decide),
  .control 'n' '\n' (by decide),
  .coded 'x' [⟨4, false⟩, ⟨1, false⟩] (by decide),
  .braced [⟨1, false⟩, ⟨15, true⟩, ⟨6, false⟩, ⟨0, false⟩, ⟨0, false⟩] (by decide),
  .escaped 'q' (by decide),
  .continuation ['\r', '\n'] (by decide),
  .plain '\n' (by decide)]

/-- A letter without digits and a last backslash. -/
def unfinished : Text := "\\u12\\"

theorem unescape_tokens_mixed :
    tokens.IsChain BodyToken.Apart ∧
    unescape ⟨tokens.flatMap BodyToken.spelling⟩ = .ok "a\nA😀q\n" ∧
    ∃ ps, Written ps unfinished.points ∧ unescape unfinished = (denoted ps).map Text.mk := by
  have hchain : tokens.IsChain BodyToken.Apart := by decide
  obtain ⟨ps, hps⟩ := (unescape_tokens.2 unfinished).1
  refine ⟨hchain, ?_, ps, hps, (unescape_tokens.2 unfinished).2 ps hps⟩
  rw [unescape_tokens.1 tokens hchain]
  rfl

end Sample

end Arbor.Literal
