import Arbor.Proofs.Text.Pieces
import Arbor.Scope.Path

set_option autoImplicit false

/-! # Keys of scope paths

Decimal digits hold no hyphen, so a key can be split at its hyphens into the digits of the ordinals
again: different paths have different keys (`ScopePath.key_injective`), and a key that can be written is
read as its path (`ScopePath.ofKey_key`). -/

namespace Arbor

namespace Text

/-! ## Decimal digits -/

theorem points_ofNat (n : Nat) :
    (ofInt n).points = (Nat.toDigits 10 n).map CodePoint.ofChar := by
  show (Nat.repr n).toList.map _ = _
  rw [Nat.repr, String.toList_ofList]

theorem ofNat_inj {m n : Nat} : ofInt m = ofInt n ↔ m = n := by
  constructor
  · intro h
    have hpoints := congrArg points h
    rw [points_ofNat, points_ofNat] at hpoints
    have hdigits : Nat.toDigits 10 m = Nat.toDigits 10 n :=
      (List.map_inj_right fun _ _ => CodePoint.ofChar_inj.1).1 hpoints
    rw [← Nat.ofDigitChars_ten_toDigits (n := m), hdigits, Nat.ofDigitChars_ten_toDigits]
  · intro h
    rw [h]

theorem hyphen_not_mem_ofNat (n : Nat) : CodePoint.ofChar '-' ∉ (ofInt n).points := by
  rw [points_ofNat, List.mem_map]
  rintro ⟨c, hc, hhyphen⟩
  rw [CodePoint.ofChar_inj] at hhyphen
  subst hhyphen
  exact absurd (Nat.isDigit_of_mem_toDigits (by decide) (by decide) hc) (by decide)

theorem ofNat_ne_empty (n : Nat) : (ofInt n).points ≠ [] := by
  rw [points_ofNat, Ne, List.map_eq_nil_iff, ← List.length_eq_zero_iff]
  exact Nat.pos_iff_ne_zero.1 Nat.length_toDigits_pos

end Text

namespace ScopePath

/-- The pieces of a key are the ordinals of its path. -/
theorem split_key (path : ScopePath) (hne : path ≠ []) :
    path.key.split '-' = path.map fun n : Nat => Text.ofInt n := by
  refine Text.split_join (by simpa using hne) ?_
  intro piece hpiece
  obtain ⟨n, -, rfl⟩ := List.mem_map.1 hpiece
  exact Text.hyphen_not_mem_ofNat n

theorem key_cons_ne_nil (n : Nat) (path : ScopePath) : key (n :: path) ≠ key [] := by
  intro h
  have hsplit := split_key (n :: path) (List.cons_ne_nil _ _)
  rw [h, List.map_cons] at hsplit
  have hhead : (⟨[]⟩ : Text) = Text.ofInt n := (List.cons.inj hsplit).1
  exact Text.ofNat_ne_empty n (congrArg Text.points hhead.symm)

/-- Different paths have different keys. -/
theorem key_injective : Function.Injective key := by
  intro path path' h
  cases path with
  | nil =>
    cases path' with
    | nil => rfl
    | cons n path' => exact absurd h.symm (key_cons_ne_nil n path')
  | cons m path =>
    cases path' with
    | nil => exact absurd h (key_cons_ne_nil m path)
    | cons n path' =>
      have hsplit := split_key (m :: path) (List.cons_ne_nil _ _)
      rw [h, split_key (n :: path') (List.cons_ne_nil _ _)] at hsplit
      exact ((List.map_inj_right fun _ _ => Text.ofNat_inj.1).1 hsplit).symm

end ScopePath

/-! ## Reading digits -/

section

variable {c : Char} (hc : c.isDigit = true)

include hc

theorem CodePoint.digit_bounds : 48 ≤ (CodePoint.ofChar c).val ∧ (CodePoint.ofChar c).val ≤ 57 :=
  Char.isDigit_iff_toNat.1 hc

theorem CodePoint.not_isNumberBlank_ofChar : (CodePoint.ofChar c).isNumberBlank = false := by
  obtain ⟨hle, hge⟩ := CodePoint.digit_bounds hc
  rw [isNumberBlank, Bool.and_eq_false_iff]
  left
  simp [isBlank, inRanges, blankRanges]
  omega

theorem Integer.digit?_ofChar : digit? 10 (CodePoint.ofChar c) = some (c.toNat - 48) := by
  obtain ⟨hle, hge⟩ := CodePoint.digit_bounds hc
  have hlt : (CodePoint.ofChar c).val - 48 < 10 := by omega
  simp only [digit?, CodePoint.alphanumeric?]
  rw [if_pos ⟨hle, hge⟩]
  exact if_pos hlt

end

/-- A text that holds none of the code points to drop stays as it is. -/
theorem Text.trim_eq_self {drop : CodePoint → Bool} {t : Text}
    (h : ∀ x ∈ t.points, drop x = false) : t.trim drop = t := by
  have hkept : ∀ l : List CodePoint, (∀ x ∈ l, drop x = false) → l.dropWhile drop = l := by
    intro l hl
    cases l with
    | nil => rfl
    | cons x l => exact List.dropWhile_cons_of_neg (by simp [hl])
  rw [trim, hkept _ h, hkept _ (by simpa using h), List.reverse_reverse]

namespace Integer

variable {l : List Char} (hl : ∀ c ∈ l, c.isDigit = true)

include hl

theorem digits?_ofChars (afterDigit : Bool) (hne : afterDigit = true ∨ l ≠ []) :
    digits? 10 afterDigit (l.map CodePoint.ofChar) = some (l.map fun c => c.toNat - 48) := by
  induction l generalizing afterDigit with
  | nil =>
    obtain rfl : afterDigit = true := by simpa using hne
    rfl
  | cons c l ih =>
    obtain ⟨hc, hl⟩ := List.forall_mem_cons.1 hl
    have hunderscore : CodePoint.ofChar c ≠ CodePoint.ofChar '_' := by
      rw [Ne, CodePoint.ofChar_inj]
      rintro rfl
      cases hc
    rw [List.map_cons, digits?, if_neg hunderscore, digit?_ofChar hc]
    simp only [ih hl true (.inl rfl)]
    rfl

theorem sign_ofChars : sign (l.map CodePoint.ofChar) = (false, l.map CodePoint.ofChar) := by
  cases l with
  | nil => rfl
  | cons c l =>
    have hc := hl c (List.mem_cons_self ..)
    have hsign (d : Char) (hd : d.isDigit = false) : CodePoint.ofChar c ≠ CodePoint.ofChar d := by
      rw [Ne, CodePoint.ofChar_inj]
      rintro rfl
      rw [hd] at hc
      cases hc
    rw [List.map_cons, sign, if_neg (hsign '-' (by decide)), if_neg (hsign '+' (by decide))]

omit hl in
/-- The digits of a number are read as the number, if there are not too many. -/
theorem read?_ofNat {n : Nat} (hn : (Nat.toDigits 10 n).length ≤ maxDigits) :
    read? 10 (Text.ofInt n) = some (n : Int) := by
  have hdigits : ∀ c ∈ Nat.toDigits 10 n, c.isDigit = true := fun c hc =>
    Nat.isDigit_of_mem_toDigits (by decide) (by decide) hc
  have hne : Nat.toDigits 10 n ≠ [] := List.length_pos_iff.1 Nat.length_toDigits_pos
  have hblank : ∀ x ∈ (Text.ofInt n).points, x.isNumberBlank = false := by
    intro x hx
    rw [Text.points_ofNat] at hx
    obtain ⟨c, hc, rfl⟩ := List.mem_map.1 hx
    exact CodePoint.not_isNumberBlank_ofChar (hdigits c hc)
  have hvalue : ofDigits 10 ((Nat.toDigits 10 n).map fun c => c.toNat - 48) = n := by
    rw [ofDigits, List.foldl_map]
    have hfold := Nat.ofDigitChars_ten_toDigits (n := n)
    rw [Nat.ofDigitChars_eq_foldl] at hfold
    have hzero : '0'.toNat = 48 := rfl
    simpa only [Nat.mul_comm, hzero] using hfold
  have hread : unsigned? 10 ((Nat.toDigits 10 n).map CodePoint.ofChar) = some n := by
    rw [unsigned?, digits?_ofChars hdigits false (.inr hne)]
    simp only [List.length_map, hvalue]
    rw [if_neg (by omega)]
  rw [read?, Text.trim_eq_self hblank, Text.points_ofNat, sign_ofChars hdigits]
  simp only [hread]
  rfl

end Integer

namespace ScopePath

/-- Ordinals without too many digits. -/
def IsWritable (path : ScopePath) : Prop := ∀ n ∈ path, (Nat.toDigits 10 n).length ≤ Integer.maxDigits

instance (path : ScopePath) : Decidable path.IsWritable :=
  inferInstanceAs (Decidable (∀ n ∈ path, (Nat.toDigits 10 n).length ≤ Integer.maxDigits))

theorem mapM_written {path : ScopePath} {pieces : List Text}
    (h : (path.map fun n : Nat => (n : Int)).mapM Integer.written = .ok pieces) :
    pieces = (path.map fun n : Nat => Text.ofInt n) ∧ path.IsWritable := by
  induction path generalizing pieces with
  | nil =>
    cases h
    exact ⟨rfl, List.forall_mem_nil _⟩
  | cons n path ih =>
    rw [List.map_cons, List.mapM_cons, Integer.written, Int.natAbs_natCast] at h
    split at h
    · cases h
    · next hn =>
      cases hrest : (path.map fun n : Nat => (n : Int)).mapM Integer.written with
      | error f =>
        rw [hrest] at h
        cases h
      | ok rest =>
        rw [hrest] at h
        cases h
        obtain ⟨rfl, hdigits⟩ := ih hrest
        exact ⟨rfl, List.forall_mem_cons.2 ⟨Nat.le_of_not_lt hn, hdigits⟩⟩

/-- A key that can be written is the key of its path. -/
theorem key_of_hyphenated {path : ScopePath} {key : Text}
    (h : hyphenated (path.map fun n : Nat => (n : Int)) = .ok key) : path.key = key ∧ path.IsWritable := by
  unfold hyphenated at h
  cases hpieces : (path.map fun n : Nat => (n : Int)).mapM Integer.written with
  | error f =>
    rw [hpieces] at h
    cases h
  | ok pieces =>
    rw [hpieces] at h
    cases h
    obtain ⟨rfl, hdigits⟩ := mapM_written hpieces
    exact ⟨rfl, hdigits⟩

theorem ordinal_ofNat {n : Nat} (hn : (Nat.toDigits 10 n).length ≤ Integer.maxDigits) :
    ordinal (Text.ofInt n) = .ok n := by
  rw [ordinal, Integer.read?_ofNat hn]
  rfl

theorem mapM_ordinal {path : ScopePath} (h : path.IsWritable) :
    (path.map fun n : Nat => Text.ofInt n).mapM ordinal = .ok path := by
  induction path with
  | nil => rfl
  | cons n path ih =>
    obtain ⟨hn, hpath⟩ := List.forall_mem_cons.1 h
    rw [List.map_cons, List.mapM_cons, ordinal_ofNat hn, ih hpath]
    rfl

/-- A key is read as its path. -/
theorem ofKey_key {path : ScopePath} (h : path.IsWritable) : ofKey path.key = .ok path := by
  cases path with
  | nil => rfl
  | cons n path =>
    have hne : (key (n :: path)).isEmpty = false := by
      rw [Text.isEmpty, List.isEmpty_eq_false_iff]
      intro hempty
      exact key_cons_ne_nil n path (congrArg Text.mk hempty)
    rw [ofKey, if_neg (by simp [hne]), split_key _ (List.cons_ne_nil _ _), mapM_ordinal h]

theorem ofKey_of_hyphenated {path : ScopePath} {key : Text}
    (h : hyphenated (path.map fun n : Nat => (n : Int)) = .ok key) : ofKey key = .ok path := by
  obtain ⟨rfl, hdigits⟩ := key_of_hyphenated h
  exact ofKey_key hdigits

end ScopePath

end Arbor
