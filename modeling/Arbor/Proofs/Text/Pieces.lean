import Arbor.Text.Basic

set_option autoImplicit false

/-! # Pieces of a text

A text can be split at a separator and pieces can be joined by one. Joining goes piece by piece
(`Text.join_append`), as does splitting (`Text.split_append`), and pieces that do not hold the separator are told
apart again (`Text.split_join`). -/

namespace Arbor.Text

/-! ## Joining -/

theorem join_cons_cons (separator piece next : Text) (rest : List Text) :
    (join separator (piece :: next :: rest)).points =
      piece.points ++ (separator.points ++ (join separator (next :: rest)).points) := rfl

theorem points_join_singleton (separator piece : Text) : (join separator [piece]).points = piece.points := by
  simp [join]

/-- Between two parts of the pieces there is one separator. -/
theorem join_append (separator : Text) {pieces more : List Text} (hpieces : pieces ≠ []) (hmore : more ≠ []) :
    (join separator (pieces ++ more)).points =
      (join separator pieces).points ++ (separator.points ++ (join separator more).points) := by
  obtain ⟨next, later, rfl⟩ := List.exists_cons_of_ne_nil hmore
  induction pieces with
  | nil => exact absurd rfl hpieces
  | cons piece rest ih =>
    cases rest with
    | nil => rw [List.singleton_append, join_cons_cons, points_join_singleton]
    | cons second rest =>
      rw [List.cons_append, List.cons_append, join_cons_cons, ← List.cons_append, ih (List.cons_ne_nil _ _),
        join_cons_cons]
      simp only [List.append_assoc]

/-! ## Splitting -/

variable {c : CodePoint}

theorem split_go_ne_nil (points : List CodePoint) : split.go c points ≠ [] := by
  induction points with
  | nil => exact List.cons_ne_nil _ _
  | cons p rest ih =>
    obtain ⟨piece, more, hgo⟩ := List.exists_cons_of_ne_nil ih
    rw [split.go, hgo]
    split
    · exact List.cons_ne_nil _ _
    · exact List.cons_ne_nil _ _

/-- Splitting goes on after each separator. -/
theorem split_go_append (points rest : List CodePoint) :
    split.go c (points ++ c :: rest) = split.go c points ++ split.go c rest := by
  induction points with
  | nil => simp [split.go]
  | cons p points ih =>
    obtain ⟨piece, more, hgo⟩ := List.exists_cons_of_ne_nil (split_go_ne_nil (c := c) points)
    rw [List.cons_append, split.go, split.go, ih, hgo]
    split
    · rfl
    · rfl

theorem split_ne_nil (t : Text) : t.split c ≠ [] := fun h => split_go_ne_nil t.points (List.map_eq_nil_iff.1 h)

theorem split_append {t before after : Text} (h : t.points = before.points ++ c :: after.points) :
    t.split c = before.split c ++ after.split c := by
  rw [split, h, split_go_append, List.map_append, split, split]

theorem split_go_piece {piece : List CodePoint} (h : c ∉ piece) : split.go c piece = [piece] := by
  induction piece with
  | nil => rfl
  | cons p piece ih =>
    rw [List.mem_cons, not_or] at h
    rw [split.go, if_neg (Ne.symm h.1), ih h.2]

/-- No piece holds the separator. -/
theorem not_mem_of_mem_split {t piece : Text} (h : piece ∈ t.split c) : c ∉ piece.points := by
  obtain ⟨points, hpoints, rfl⟩ := List.mem_map.1 h
  suffices hgo : ∀ l : List CodePoint, ∀ points ∈ split.go c l, c ∉ points from hgo _ points hpoints
  intro l
  induction l with
  | nil => simp [split.go]
  | cons p rest ih =>
    obtain ⟨first, more, hgo⟩ := List.exists_cons_of_ne_nil (split_go_ne_nil (c := c) rest)
    rw [hgo, List.forall_mem_cons] at ih
    rw [split.go, hgo]
    split
    · exact List.forall_mem_cons.2 ⟨List.not_mem_nil, List.forall_mem_cons.2 ih⟩
    · next hne =>
      refine List.forall_mem_cons.2 ⟨?_, ih.2⟩
      rw [List.mem_cons, not_or]
      exact ⟨Ne.symm hne, ih.1⟩

/-- Pieces without the separator can be told apart again. -/
theorem split_join {pieces : List Text} (hne : pieces ≠ []) (h : ∀ piece ∈ pieces, c ∉ piece.points) :
    (join ⟨[c]⟩ pieces).split c = pieces := by
  -- without the separator in it, the first piece ends where the first separator stands
  have hgo : split.go c (join ⟨[c]⟩ pieces).points = pieces.map points := by
    induction pieces with
    | nil => exact absurd rfl hne
    | cons piece rest ih =>
      obtain ⟨hpiece, hrest⟩ := List.forall_mem_cons.1 h
      cases rest with
      | nil =>
        rw [points_join_singleton, split_go_piece hpiece]
        rfl
      | cons next rest =>
        rw [join_cons_cons, List.singleton_append, split_go_append, split_go_piece hpiece,
          ih (List.cons_ne_nil _ _) hrest]
        rfl
  rw [split, hgo, List.map_map]
  exact List.map_id _

end Arbor.Text
