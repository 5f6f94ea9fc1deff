import Arbor.Scope.Path

set_option autoImplicit false

/-! # The order of scope paths

Paths are ordered by the first ordinal that differs, a proper beginning first. In this order a scope
comes before the scopes inside it, and these before the next scope beside it. -/

namespace Arbor.ScopePath

variable {p q r : ScopePath} {m n : Nat}

@[simp] theorem before_nil (p : ScopePath) : p.before [] = false := by
  cases p <;> rfl

@[simp] theorem nil_before_cons : before [] (n :: q) = true := rfl

theorem cons_before_cons : before (m :: p) (n :: q) = true ↔ m < n ∨ m = n ∧ before p q = true := by
  rw [before]
  split
  · next h => simp [h]
  · next h => simp [h]

theorem before_irrefl (p : ScopePath) : p.before p = false := by
  induction p with
  | nil => rfl
  | cons n p ih => simp [before, ih]

theorem before_trans (h : p.before q = true) (h' : q.before r = true) : p.before r = true := by
  induction p generalizing q r with
  | nil =>
    cases r with
    | nil => simp at h'
    | cons n r => rfl
  | cons a p ih =>
    cases q with
    | nil => simp at h
    | cons b q =>
      cases r with
      | nil => simp at h'
      | cons c r =>
        rw [cons_before_cons] at h h' ⊢
        rcases h with h | ⟨rfl, h⟩
        · rcases h' with h' | ⟨rfl, -⟩
          · exact .inl (Nat.lt_trans h h')
          · exact .inl h
        · exact h'.imp id fun h' => ⟨h'.1, ih h h'.2⟩

theorem ne_of_before (h : p.before q = true) : p ≠ q := by
  rintro rfl
  rw [before_irrefl] at h
  cases h

/-- Paths with a common beginning are ordered as they go on. -/
theorem append_before_append (p : ScopePath) : (p ++ q).before (p ++ r) = q.before r := by
  induction p with
  | nil => rfl
  | cons n p ih => simp [before, ih]

/-- A scope comes before the scopes inside it. -/
theorem before_append_cons (p : ScopePath) (n : Nat) (q : ScopePath) :
    p.before (p ++ n :: q) = true := by
  simpa using append_before_append (q := []) (r := n :: q) p

/-- What lies inside a scope comes before the scopes beside it that are opened later. -/
theorem append_cons_before (h : m < n) : (p ++ m :: q).before (p ++ n :: r) = true := by
  rw [append_before_append, cons_before_cons]
  exact .inl h

end Arbor.ScopePath
