import Arbor.Value.Display

set_option autoImplicit false

/-! # Values that can be shown

A value can be shown inside a message unless it holds an integer of too many digits
(`Value.isOk_shown`), be it as a key of one of its records. -/

namespace Arbor

/-- An answer that is put together from a first one and from one that depends on it. -/
theorem isOk_bind {ε α β : Type} (x : Except ε α) {f : α → Except ε β} {b : Bool}
    (h : ∀ a, (f a).isOk = b) : (x >>= f).isOk = (x.isOk && b) := by
  cases x with
  | ok a => exact h a
  | error e => rfl

theorem isOk_bind_pure {ε α β : Type} (x : Except ε α) (f : α → β) :
    (x >>= fun a => pure (f a)).isOk = x.isOk :=
  (isOk_bind x (b := true) fun _ => rfl).trans (Bool.and_true x.isOk)

theorem isOk_map {ε α β : Type} (x : Except ε α) (f : α → β) : (x.map f).isOk = x.isOk := by
  cases x with
  | ok a => rfl
  | error e => rfl

theorem isOk_mapM {ε α β : Type} (f : α → Except ε β) (l : List α) :
    (l.mapM f).isOk = l.all fun a => (f a).isOk := by
  induction l with
  | nil => rfl
  | cons a l ih =>
    rw [List.mapM_cons, List.all_cons, ← ih]
    exact isOk_bind (f a) fun b => isOk_bind_pure (l.mapM f) (b :: ·)

/-- Whether a scalar can be shown: all can except integers of too many digits. -/
def Scalar.isShort : Scalar → Bool
  | .int n => (Nat.toDigits 10 n.natAbs).length ≤ Integer.maxDigits
  | _ => true

theorem Scalar.isOk_shown (s : Scalar) : s.shown.isOk = s.isShort := by
  cases s with
  | int n =>
    by_cases h : Integer.maxDigits < (Nat.toDigits 10 n.natAbs).length
    · simp [Scalar.shown, Scalar.isShort, Integer.written, h, Except.isOk, Except.toBool]
    · simp [Scalar.shown, Scalar.isShort, Integer.written, h, Except.isOk, Except.toBool,
        Nat.le_of_not_lt h]
  | _ => rfl

namespace Value

mutual

/-- The scalars in a value, keys included, in the order in which they are shown. -/
def scalars : Value → List Scalar
  | .scalar s => [s]
  | .list items => itemScalars items
  | .record fields => fieldScalars fields

/-- The scalars in the items of a list. -/
def itemScalars : List Value → List Scalar
  | [] => []
  | v :: rest => scalars v ++ itemScalars rest

/-- The scalars in the fields of a record. -/
def fieldScalars : List (Key × Value) → List Scalar
  | [] => []
  | (k, v) :: rest => k :: (scalars v ++ fieldScalars rest)

end

mutual

/-- A value can be shown if all of its scalars can be. -/
theorem isOk_shown : ∀ v : Value, v.shown.isOk = v.scalars.all Scalar.isShort
  | .scalar s => by
    rw [shown, scalars, s.isOk_shown, List.all_cons, List.all_nil, Bool.and_true]
  | .list items => by
    rw [shown, scalars, ← isOk_shownItems items]
    exact isOk_bind_pure (shownItems items) _
  | .record fields => by
    rw [shown, scalars, ← isOk_shownFields fields]
    exact isOk_bind_pure (shownFields fields) _

theorem isOk_shownItems :
    ∀ items : List Value, (shownItems items).isOk = (itemScalars items).all Scalar.isShort
  | [] => rfl
  | v :: rest => by
    rw [shownItems, itemScalars, List.all_append, ← isOk_shown v, ← isOk_shownItems rest]
    exact isOk_bind _ fun _ => isOk_bind_pure (shownItems rest) _

theorem isOk_shownFields :
    ∀ fields : List (Key × Value), (shownFields fields).isOk = (fieldScalars fields).all Scalar.isShort
  | [] => rfl
  | (k, v) :: rest => by
    rw [shownFields, fieldScalars, List.all_cons, List.all_append, ← k.isOk_shown, ← isOk_shown v,
      ← isOk_shownFields rest]
    exact isOk_bind _ fun _ => isOk_bind _ fun _ => isOk_bind_pure (shownFields rest) _

end

/-- A scalar can stand in a sentence if it can be shown. -/
theorem isOk_plain_scalar (s : Scalar) : (plain (.scalar s)).isOk = s.isShort := by
  cases s with
  | text t => rfl
  | int n => exact Scalar.isOk_shown (.int n)
  | _ => rfl

end Value

end Arbor
