import Arbor.Fault
import Arbor.Number.Integer

set_option autoImplicit false

/-! # Scope paths and their keys

A scope is named by its path: the ordinals of the scopes around it and its own, from the outside
inwards. The root has the empty path. The key of a path is its text: the ordinals in decimal digits,
with a hyphen between neighbours. -/

namespace Arbor

/-- The ordinals of a scope and of the scopes around it, the outermost first. -/
abbrev ScopePath := List Nat

namespace ScopePath

/-- The key of a path. -/
def key (path : ScopePath) : Text := Text.join "-" (path.map fun n : Nat => Text.ofInt n)

/-- Numbers of any sign and size, written as the ordinals of a path are in its key. -/
def hyphenated (numbers : List Int) : Except Fault Text := do
  return Text.join "-" (← numbers.mapM Integer.written)

/-- The ordinal that a piece of a key denotes. A piece holds no hyphen and so no negative number. -/
def ordinal (piece : Text) : Except Fault Nat :=
  match Integer.read? 10 piece with
  | some n => .ok n.toNat
  | none => .error .notAnInteger

/-- The path with a given key. -/
def ofKey (key : Text) : Except Fault ScopePath :=
  if key.isEmpty then .ok [] else (key.split '-').mapM ordinal

/-- Whether a scope lies inside another one, to any depth. No scope lies inside itself. -/
def isUnder (inner outer : ScopePath) : Bool :=
  outer.length < inner.length && outer.isPrefixOf inner

/-- One scope lies inside another exactly when its path goes on from that of the other. -/
theorem isUnder_iff (inner outer : ScopePath) :
    inner.isUnder outer = true ↔ ∃ n rest, inner = outer ++ n :: rest := by
  simp only [isUnder, Bool.and_eq_true, decide_eq_true_eq, List.isPrefixOf_iff_prefix]
  constructor
  · rintro ⟨hlt, rest, rfl⟩
    cases rest with
    | nil => simp at hlt
    | cons n rest => exact ⟨n, rest, rfl⟩
  · rintro ⟨n, rest, rfl⟩
    exact ⟨by simp, n :: rest, rfl⟩

theorem not_isUnder_self (path : ScopePath) : path.isUnder path = false := by
  simp [isUnder]

/-- Whether the scope with the first key lies inside the scope with the second one. -/
def keyIsUnder (inner outer : Text) : Except Fault Bool := do
  let inner ← ofKey inner
  let outer ← ofKey outer
  pure (inner.isUnder outer)

/-- The order of paths: by the first ordinal that differs, a proper beginning first. -/
def before : ScopePath → ScopePath → Bool
  | _, [] => false
  | [], _ :: _ => true
  | a :: p, b :: q => if a = b then before p q else a < b

end ScopePath

end Arbor
