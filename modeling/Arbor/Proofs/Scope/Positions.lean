import Arbor.Proofs.Scope.Keys
import Arbor.Proofs.Scope.Order
import Arbor.Proofs.Walk.Tour
import Arbor.Scope.Role

set_option autoImplicit false

/-! # Where scopes lie

Which path a scope has, told from the nodes that are visited alone: the first scope that is opened
directly inside a scope adds the ordinal 0 to its path, the next one the ordinal 1, and so on
(`Forest.positions`). Paths that are given in this way come in increasing order, so that no path and
no key is given twice (`Forest.pairwise_opened`). -/

namespace Arbor

open Scope (Role)

/-- How many scopes a node opens. -/
def Layout.opens (t : Layout) : Nat :=
  match t.type? with
  | some type => (Role.ofType type).opens
  | none => 0

namespace ScopePath

/-- The scope that is current in a node that opens `n` scopes, each directly inside the one before, and
    how many scopes have been opened directly inside it. The node itself lies in the scope `p`, directly
    inside which `k` scopes have been opened. -/
def inside : Nat → ScopePath → Nat → ScopePath × Nat
  | 0, p, k => (p, k)
  | n + 1, p, k => ((inside n p k).1 ++ [(inside n p k).2], 0)

/-- A scope and those around it, `n` of them in all, the outermost first. -/
def innermost : Nat → ScopePath → List ScopePath
  | 0, _ => []
  | n + 1, p => innermost n p.dropLast ++ [p]

variable {p q : ScopePath} {k n : Nat}

/-- The scopes that a node opens lie inside the first one of them. -/
theorem inside_succ (n : Nat) (p : ScopePath) (k : Nat) :
    ∃ rest, (inside (n + 1) p k).1 = p ++ k :: rest := by
  induction n with
  | zero => exact ⟨[], rfl⟩
  | succ n ih =>
    obtain ⟨rest, hrest⟩ := ih
    refine ⟨rest ++ [(inside (n + 1) p k).2], ?_⟩
    rw [inside, hrest, List.append_assoc]
    rfl

theorem innermost_inside (n : Nat) (p : ScopePath) (k : Nat) :
    innermost (n + 1) (inside (n + 1) p k).1 =
      innermost n (inside n p k).1 ++ [(inside (n + 1) p k).1] := by
  rw [innermost, inside, List.dropLast_concat]

theorem exists_of_mem_innermost (h : q ∈ innermost n (inside n p k).1) :
    0 < n ∧ ∃ rest, q = p ++ k :: rest := by
  induction n with
  | zero => cases h
  | succ n ih =>
    rw [innermost_inside, List.mem_append, List.mem_singleton] at h
    rcases h with h | rfl
    · exact ⟨n.succ_pos, (ih h).2⟩
    · exact ⟨n.succ_pos, inside_succ n p k⟩

/-- What lies inside the last scope that a node opens comes after all of these scopes. -/
theorem before_of_mem_innermost (h : q ∈ innermost n (inside n p k).1) (j : Nat)
    (rest : ScopePath) : q.before ((inside n p k).1 ++ j :: rest) = true := by
  induction n generalizing j rest with
  | zero => cases h
  | succ n ih =>
    rw [innermost_inside, List.mem_append, List.mem_singleton] at h
    rcases h with h | rfl
    · rw [inside, List.append_assoc]
      exact ih h _ _
    · exact before_append_cons _ _ _

theorem pairwise_innermost (n : Nat) (p : ScopePath) (k : Nat) :
    (innermost n (inside n p k).1).Pairwise fun q q' => q.before q' = true := by
  induction n with
  | zero => exact .nil
  | succ n ih =>
    rw [innermost_inside, List.pairwise_append]
    refine ⟨ih, List.pairwise_singleton _ _, ?_⟩
    intro q hq q' hq'
    rw [List.mem_singleton.1 hq', inside]
    exact before_of_mem_innermost hq _ _

end ScopePath

/-- The place of a node among the scopes. -/
structure Position where
  node : Ref
  /-- Whether what is below the node is left out. -/
  skipped : Bool
  /-- How many scopes the node opens. -/
  opens : Nat
  /-- The path of the scope that is current in the node. -/
  path : ScopePath
  deriving DecidableEq

/-- The paths of the scopes that are opened at a position. -/
def Position.opened (a : Position) : List ScopePath := ScopePath.innermost a.opens a.path

namespace Forest

open ScopePath

/-- How many scopes are opened directly inside the current scope. -/
def count : Forest → Nat
  | nil => 0
  | node r fields _ below rest =>
    (if (Layout.record r fields).opens = 0 then below.count else 1) + rest.count

/-- The positions of all nodes, in the order in which they are visited. They lie in the scope `p`,
    directly inside which `k` scopes have been opened. -/
def positions (p : ScopePath) (k : Nat) : Forest → List Position
  | nil => []
  | node r fields skipped below rest =>
    let n := (Layout.record r fields).opens
    let (path, opened) := inside n p k
    ⟨r, skipped, n, path⟩ :: (below.positions path opened ++
      rest.positions p (k + if n = 0 then below.count else 1))

/-- The positions of a program, whose scope has the empty path, and of all below it. -/
def programPositions : Forest → List Position
  | nil => []
  | node r fields skipped below _ =>
    ⟨r, skipped, (Layout.record r fields).opens, []⟩ :: below.positions [] 0

theorem positions_node (p : ScopePath) (k : Nat) (r : Ref) (fields : List (Key × Layout))
    (skipped : Bool) (below rest : Forest) {n : Nat} (hn : (Layout.record r fields).opens = n) :
    (node r fields skipped below rest).positions p k =
      ⟨r, skipped, n, (inside n p k).1⟩ :: (below.positions (inside n p k).1 (inside n p k).2 ++
        rest.positions p (k + if n = 0 then below.count else 1)) := by
  subst hn
  rfl

/-- Paths that go on from `p` with an ordinal from `k` on, of which there are `n`. -/
def Within (p : ScopePath) (k n : Nat) (q : ScopePath) : Prop :=
  ∃ j rest, k ≤ j ∧ j < k + n ∧ q = p ++ j :: rest

theorem Within.before {p q q' : ScopePath} {k m n : Nat} (h : Within p k m q)
    (h' : Within p (k + m) n q') : q.before q' = true := by
  obtain ⟨j, rest, -, hlt, rfl⟩ := h
  obtain ⟨j', rest', hle, -, rfl⟩ := h'
  exact append_cons_before (by omega)

/-- The scopes of a node and of what is below it lie directly inside the scope of the node. If the node
    opens any, they lie inside the first one. -/
theorem within_node {n : Nat} {p q : ScopePath} {k : Nat} {below : Forest}
    (h : q ∈ innermost n (inside n p k).1 ∨
      Within (inside n p k).1 (inside n p k).2 below.count q) :
    Within p k (if n = 0 then below.count else 1) q := by
  rcases h with h | ⟨j, tail, hle, hlt, rfl⟩
  · obtain ⟨hpos, tail, rfl⟩ := exists_of_mem_innermost h
    rw [if_neg (Nat.pos_iff_ne_zero.1 hpos)]
    exact ⟨k, tail, Nat.le_refl k, Nat.lt_succ_self k, rfl⟩
  · cases n with
    | zero => exact ⟨j, tail, hle, hlt, rfl⟩
    | succ n =>
      obtain ⟨tail', htail⟩ := inside_succ n p k
      refine ⟨k, tail' ++ j :: tail, Nat.le_refl k, Nat.lt_succ_self k, ?_⟩
      rw [htail, List.append_assoc]
      rfl

/-- The scopes that are opened directly inside a scope take up the ordinals that come next. -/
theorem within_of_mem_opened {f : Forest} {p q : ScopePath} {k : Nat}
    (h : q ∈ (f.positions p k).flatMap Position.opened) : Within p k f.count q := by
  induction f generalizing p k with
  | nil => cases h
  | node r fields skipped below rest ihBelow ihRest =>
    generalize hn : (Layout.record r fields).opens = n
    rw [positions_node p k r fields skipped below rest hn, List.flatMap_cons, List.flatMap_append,
      List.mem_append, List.mem_append] at h
    rw [count, hn]
    -- a scope of the node itself, of what is below it, or of what comes after it
    rcases h with h | h | h
    · have hown : Within p k (if n = 0 then below.count else 1) q := within_node (.inl h)
      obtain ⟨j, tail, hle, hlt, rfl⟩ := hown
      exact ⟨j, tail, hle, by omega, rfl⟩
    · obtain ⟨j, tail, hle, hlt, rfl⟩ := within_node (.inr (ihBelow h))
      exact ⟨j, tail, hle, by omega, rfl⟩
    · obtain ⟨j, tail, hle, hlt, rfl⟩ := ihRest h
      exact ⟨j, tail, by omega, by omega, rfl⟩

/-- The paths of the scopes come in increasing order. -/
theorem pairwise_opened (f : Forest) (p : ScopePath) (k : Nat) :
    ((f.positions p k).flatMap Position.opened).Pairwise fun q q' => q.before q' = true := by
  induction f generalizing p k with
  | nil => exact .nil
  | node r fields skipped below rest ihBelow ihRest =>
    generalize hn : (Layout.record r fields).opens = n
    rw [positions_node p k r fields skipped below rest hn, List.flatMap_cons, List.flatMap_append,
      List.pairwise_append]
    refine ⟨pairwise_innermost n p k, ?_, ?_⟩
    · refine List.pairwise_append.2 ⟨ihBelow _ _, ihRest _ _, ?_⟩
      intro q hq q' hq'
      exact (within_node (.inr (within_of_mem_opened hq))).before (within_of_mem_opened hq')
    · intro q hq q' hq'
      rcases List.mem_append.1 hq' with hq' | hq'
      · obtain ⟨j, tail, -, -, rfl⟩ := within_of_mem_opened hq'
        exact before_of_mem_innermost hq j tail
      · exact (within_node (.inl hq)).before (within_of_mem_opened hq')

/-- So they do in a program, whose own scope comes before all others. -/
theorem pairwise_opened_program {r : Ref} {fields : List (Key × Layout)} (skipped : Bool)
    (below rest : Forest) (hn : (Layout.record r fields).opens = 1) :
    ((node r fields skipped below rest).programPositions.flatMap Position.opened).Pairwise
      fun q q' => q.before q' = true := by
  rw [programPositions, hn, List.flatMap_cons]
  refine List.pairwise_cons.2 ⟨?_, pairwise_opened below [] 0⟩
  intro q hq
  obtain ⟨j, tail, -, -, rfl⟩ := within_of_mem_opened hq
  rfl

end Forest

/-- Paths in increasing order have different keys. -/
theorem ScopePath.nodup_keys {paths : List ScopePath}
    (h : paths.Pairwise fun q q' => q.before q' = true) : (paths.map key).Nodup :=
  List.Pairwise.map _ (fun _ _ hbefore hkey => ne_of_before hbefore (key_injective hkey)) h

end Arbor
