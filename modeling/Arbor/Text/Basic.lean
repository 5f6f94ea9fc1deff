set_option autoImplicit false

/-! # Text as a sequence of code points

Escape sequences of the source language may denote the two halves of a surrogate pair separately,
and the two halves are never joined. Text is therefore a sequence of **code points**, surrogates
included, and not a sequence of characters. Text without surrogates is the same as a `String`
(`Text.toString?_ofString`). -/

namespace Arbor

/-- A code point: a character or a surrogate. -/
abbrev CodePoint := Fin 0x110000

namespace CodePoint

/-- The code point of a character. -/
def ofChar (c : Char) : CodePoint :=
  ⟨c.toNat, by
    have h := c.valid
    simp only [UInt32.isValidChar, Nat.isValidChar] at h
    simp only [Char.toNat, UInt32.toNat] at *
    omega⟩

instance : Coe Char CodePoint := ⟨ofChar⟩

/-- The character with this code point, if it is not a surrogate. -/
def toChar? (c : CodePoint) : Option Char :=
  if h : Nat.isValidChar c.val then some (Char.ofNatAux c.val h) else none

theorem toChar?_ofChar (c : Char) : (ofChar c).toChar? = some c := by
  have h : Nat.isValidChar (ofChar c).val := c.valid
  rw [toChar?, dif_pos h]
  exact congrArg some (Char.ext (UInt32.toNat_inj.1 rfl))

@[simp] theorem ofChar_inj {a b : Char} : ofChar a = ofChar b ↔ a = b := by
  constructor
  · intro h
    have := congrArg toChar? h
    simpa [toChar?_ofChar] using this
  · rintro rfl
    rfl

end CodePoint

/-- A sequence of code points. -/
structure Text where
  points : List CodePoint
  deriving DecidableEq, Inhabited

namespace Text

/-- The text of a string. -/
def ofString (s : String) : Text := ⟨s.toList.map CodePoint.ofChar⟩

instance : Coe String Text := ⟨ofString⟩

instance : Append Text := ⟨fun a b => ⟨a.points ++ b.points⟩⟩

/-- The string of a text that holds no surrogate. -/
def toString? (t : Text) : Option String := (t.points.mapM CodePoint.toChar?).map String.ofList

/-- Whether a text holds a surrogate. -/
def hasSurrogate (t : Text) : Bool := t.points.any fun c => c.toChar?.isNone

@[simp] theorem points_append (a b : Text) : (a ++ b).points = a.points ++ b.points := rfl

@[simp] theorem toString?_ofString (s : String) : (ofString s).toString? = some s := by
  have h : ∀ l : List Char, (l.map CodePoint.ofChar).mapM CodePoint.toChar? = some l := by
    intro l
    induction l with
    | nil => rfl
    | cons c r ih => simp [List.mapM_cons, CodePoint.toChar?_ofChar, ih]
  simp [toString?, ofString, h]

@[simp] theorem ofString_inj {a b : String} : ofString a = ofString b ↔ a = b := by
  constructor
  · intro h
    have := congrArg toString? h
    simpa using this
  · rintro rfl
    rfl

/-- The number of code points. -/
def length (t : Text) : Nat := t.points.length

def isEmpty (t : Text) : Bool := t.points.isEmpty

def startsWith (t start : Text) : Bool := start.points.isPrefixOf t.points

def endsWith (t stop : Text) : Bool := stop.points.isSuffixOf t.points

def take (t : Text) (n : Nat) : Text := ⟨t.points.take n⟩

def drop (t : Text) (n : Nat) : Text := ⟨t.points.drop n⟩

/-- All but the last `n` code points. -/
def dropLast (t : Text) (n : Nat) : Text := ⟨t.points.take (t.points.length - n)⟩

/-- All but the code points equal to `c`. -/
def without (t : Text) (c : CodePoint) : Text := ⟨t.points.filter (· != c)⟩

/-- The pieces between the occurrences of `c`, of which there is always at least one. -/
def split (t : Text) (c : CodePoint) : List Text :=
  (go t.points).map Text.mk
where
  go : List CodePoint → List (List CodePoint)
    | [] => [[]]
    | p :: rest =>
      if p = c then [] :: go rest
      else match go rest with
        | [] => [[p]]
        | piece :: more => (p :: piece) :: more

/-- The texts one after another, with `separator` between neighbours. -/
def join (separator : Text) (pieces : List Text) : Text :=
  ⟨(pieces.map Text.points).intersperse separator.points |>.flatten⟩

/-- The decimal digits of a number, with a sign when it is negative. -/
def ofInt (n : Int) : Text := ofString (toString n)

/-- The order by code points, a proper beginning first. -/
def before (a b : Text) : Bool := go a.points b.points
where
  go : List CodePoint → List CodePoint → Bool
    | _, [] => false
    | [], _ :: _ => true
    | x :: xs, y :: ys => if x = y then go xs ys else x.val < y.val

end Text

end Arbor
