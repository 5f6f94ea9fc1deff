import Arbor.Literal.Escape
import Mathlib.Algebra.Group.Nat.Defs
import Mathlib.Data.List.Basic
import Mathlib.Data.List.TakeWhile

set_option autoImplicit false

/-! # Escapes beyond the last code point

A literal can be decoded unless one of its escapes denotes no code point, and only an escape with braces can
do so: the others have too few digits (`Literal.overlong_of_unescape_eq_error`). -/

namespace Arbor.Literal

/-- A text with an escape in braces whose number is no code point. -/
def Overlong (t : Text) : Prop :=
  ∃ before digits after : List CodePoint,
    t.points = before ++ CodePoint.ofChar '\\' :: CodePoint.ofChar 'u' :: CodePoint.ofChar '\x7b' ::
      digits ++ CodePoint.ofChar '\x7d' :: after ∧
    digits.all isHex = true ∧ 0x110000 ≤ hexValue digits

/-- The faults of an escape that denotes no code point. -/
def TooLarge (f : Fault) : Prop := f = .codePointTooLarge ∨ f = .numberTooLarge

theorem codePoint_eq_error {n : Nat} {f : Fault} (h : codePoint n = .error f) :
    TooLarge f ∧ 0x110000 ≤ n := by
  unfold codePoint at h
  split at h
  · cases h
  · next hn =>
    refine ⟨?_, Nat.le_of_not_lt hn⟩
    split at h
    · exact .inl (Except.error.inj h).symm
    · exact .inr (Except.error.inj h).symm

/-! ## Numbers written by few digits -/

theorem digitValue_lt (c : CodePoint) : c.hexadecimal?.getD 0 < 16 := by
  unfold CodePoint.hexadecimal?
  cases c.alphanumeric? with
  | none => decide
  | some v =>
    by_cases hv : v < 16
    · simp [hv]
    · simp [hv]

theorem hexValue_lt (digits : List CodePoint) : hexValue digits < 16 ^ digits.length := by
  have hfold (n : Nat) : digits.foldl (fun n c => n * 16 + c.hexadecimal?.getD 0) n <
      (n + 1) * 16 ^ digits.length := by
    induction digits generalizing n with
    | nil => simp
    | cons c rest ih =>
      have hc := digitValue_lt c
      have hstep : n * 16 + c.hexadecimal?.getD 0 + 1 ≤ (n + 1) * 16 := by omega
      calc _ < (n * 16 + c.hexadecimal?.getD 0 + 1) * 16 ^ rest.length := ih _
        _ ≤ (n + 1) * 16 * 16 ^ rest.length := Nat.mul_le_mul_right _ hstep
        _ = (n + 1) * 16 ^ (c :: rest).length := by
          rw [List.length_cons, Nat.pow_succ, Nat.mul_assoc, Nat.mul_comm (16 ^ rest.length)]
  have hzero := hfold 0
  rwa [Nat.zero_add, Nat.one_mul] at hzero

/-- A few digits denote a code point. -/
theorem codePoint_of_fixedDigits {n : Nat} (hn : n ≤ 4) {points digits : List CodePoint}
    (h : fixedDigits? n points = some digits) {f : Fault} :
    codePoint (hexValue digits) ≠ .error f := by
  intro herror
  have hlength : digits.length = n := by
    unfold fixedDigits? at h
    simp only [Option.ite_none_right_eq_some, Option.some.injEq] at h
    obtain ⟨⟨hlength, -⟩, rfl⟩ := h
    exact hlength
  have hlarge := (codePoint_eq_error herror).2
  have hsmall : hexValue digits < 16 ^ 4 :=
    Nat.lt_of_lt_of_le (hexValue_lt digits) (Nat.pow_le_pow_right (by decide) (hlength ▸ hn))
  omega

/-- Digits in braces stand at the start of the text. -/
theorem eq_of_bracedDigits {points digits : List CodePoint} (h : bracedDigits? points = some digits) :
    ∃ after, points = CodePoint.ofChar '\x7b' :: digits ++ CodePoint.ofChar '\x7d' :: after ∧
      digits ≠ [] ∧ digits.all isHex = true := by
  cases points with
  | nil => cases h
  | cons c rest =>
    unfold bracedDigits? at h
    simp only [Option.ite_none_right_eq_some, Option.some.injEq] at h
    obtain ⟨⟨rfl, hsome, hclose⟩, rfl⟩ := h
    obtain ⟨after, hafter⟩ := List.head?_eq_some_iff.1 hclose
    refine ⟨after, ?_, hsome, List.all_takeWhile⟩
    rw [List.cons_append, ← hafter, List.prefix_iff_eq_append.1 (List.takeWhile_prefix isHex)]

/-! ## Escapes -/

/-- An escape without a meaning is one in braces. -/
theorem escape_eq_error {points : List CodePoint} {f : Fault} {width : Nat}
    (h : escape? points = some (.error f, width)) :
    TooLarge f ∧ ∃ digits after, points = CodePoint.ofChar 'u' :: CodePoint.ofChar '\x7b' ::
      digits ++ CodePoint.ofChar '\x7d' :: after ∧
      digits.all isHex = true ∧ 0x110000 ≤ hexValue digits := by
  have coded {digits : List CodePoint} (h : (codePoint (hexValue digits)).map (fun c => [c]) = .error f) :
      codePoint (hexValue digits) = .error f := by
    cases hc : codePoint (hexValue digits) with
    | error g =>
      rw [hc] at h
      cases h
      rfl
    | ok c =>
      rw [hc] at h
      cases h
  cases points with
  | nil => cases h
  | cons c rest =>
    simp only [escape?] at h
    split at h
    · next hu =>
      subst hu
      split at h
      · next digits hbraced =>
        simp only [Option.some.injEq, Prod.mk.injEq] at h
        obtain ⟨hfault, hlarge⟩ := codePoint_eq_error (coded h.1)
        obtain ⟨after, hrest, -, hhex⟩ := eq_of_bracedDigits hbraced
        exact ⟨hfault, digits, after, by rw [hrest]; rfl, hhex, hlarge⟩
      · next digits hfixed =>
        simp only [Option.some.injEq, Prod.mk.injEq] at h
        exact absurd (coded h.1) (codePoint_of_fixedDigits (by decide) hfixed)
      · cases h
    · split at h
      · split at h
        · next digits hfixed =>
          simp only [Option.some.injEq, Prod.mk.injEq] at h
          exact absurd (coded h.1) (codePoint_of_fixedDigits (by decide) hfixed)
        · cases h
      · split at h <;> cases h

theorem unescapeFrom_eq_error {points : List CodePoint} {skip : Nat} {f : Fault}
    (h : unescapeFrom skip points = .error f) : TooLarge f ∧ Overlong ⟨points⟩ := by
  -- what is wrong further on is wrong in the whole text
  have later {c : CodePoint} {rest : List CodePoint} (h : TooLarge f ∧ Overlong ⟨rest⟩) :
      TooLarge f ∧ Overlong ⟨c :: rest⟩ := by
    obtain ⟨hfault, before, digits, after, hrest, hdigits⟩ := h
    refine ⟨hfault, c :: before, digits, after, ?_, hdigits⟩
    exact congrArg (c :: ·) hrest
  have rest_error {x : Except Fault (List CodePoint)} {g : List CodePoint → List CodePoint}
      (h : (do let after ← x; pure (g after)) = Except.error f) : x = .error f := by
    cases x with
    | error e => exact h
    | ok a => cases h
  induction points generalizing skip with
  | nil => cases h
  | cons c rest ih =>
    cases skip with
    | succ skip => exact later (ih h)
    | zero =>
      rw [unescapeFrom] at h
      split at h
      · next hc =>
        subst hc
        cases hescape : escape? rest with
        | none =>
          rw [hescape] at h
          exact later (ih (rest_error h))
        | some found =>
          obtain ⟨meaning, width⟩ := found
          rw [hescape] at h
          cases meaning with
          | error e =>
            cases h
            obtain ⟨hfault, digits, after, hrest, hdigits⟩ := escape_eq_error hescape
            refine ⟨hfault, [], digits, after, ?_, hdigits⟩
            rw [hrest]
            rfl
          | ok here => exact later (ih (rest_error h))
      · exact later (ih (rest_error h))

/-- Only an escape beyond the last code point keeps a text from being decoded. -/
theorem overlong_of_unescape_eq_error {raw : Text} {f : Fault} (h : unescape raw = .error f) :
    TooLarge f ∧ Overlong raw := by
  unfold unescape at h
  cases hpoints : unescapeFrom 0 raw.points with
  | error e =>
    rw [hpoints] at h
    cases h
    exact unescapeFrom_eq_error hpoints
  | ok points =>
    rw [hpoints] at h
    cases h

end Arbor.Literal
