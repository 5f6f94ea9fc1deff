import Arbor.Concrete.Tree

set_option autoImplicit false

/-! # What holds at every node of a tree

Syntax trees are followed from the leaves up (`Tree.induction`). A property of nodes holds everywhere in a
tree when it holds of the tree and everywhere in its children (`Tree.everywhere_node`). A tree is pruned by
taking out, at every depth, the nodes that are left out of programs (`Tree.pruned`): the root stays, and
every other node stays with its token, its note and those of its children that stay. -/

namespace Arbor

/-- The kinds of the nodes that are left out of programs. -/
def Token.skippedKinds : List String := ["comment", "html_comment", "ERROR"]

/-- Whether a node is left out is told by its kind. -/
theorem Token.isSkipped_iff (t : Token) : t.isSkipped = true ↔ t.kind ∈ skippedKinds := by
  simp [isSkipped, isComment, isError, skippedKinds, or_assoc]

/-- A node of a syntax tree that has no children. -/
def Cst.leaf (kind : String) (named : Bool) (start stop : Nat) (field? : Option String) : Cst :=
  .node ⟨kind, named, false, start, stop, field?⟩ () []

/-- A named node of a syntax tree. -/
def Cst.branch (kind : String) (start stop : Nat) (field? : Option String) (children : List Cst) : Cst :=
  .node ⟨kind, true, false, start, stop, field?⟩ () children

namespace Tree

variable {α : Type}

@[simp] theorem token_node (t : Token) (note : α) (children : List (Tree α)) :
    (node t note children).token = t := rfl

@[simp] theorem note_node (t : Token) (note : α) (children : List (Tree α)) :
    (node t note children).note = note := rfl

@[simp] theorem children_node (t : Token) (note : α) (children : List (Tree α)) :
    (node t note children).children = children := rfl

/-- A part of its parent is not left out. -/
theorem not_isSkipped_of_isPart {t : Tree α} (h : t.isPart = true) : t.token.isSkipped = false := by
  simp only [isPart, Bool.and_eq_true, Bool.not_eq_true'] at h
  exact h.2

/-- What holds of a node whenever it holds of its children holds of every tree. -/
@[elab_as_elim]
theorem induction {P : Tree α → Prop}
    (node : ∀ token note children, (∀ t ∈ children, P t) → P (.node token note children))
    (t : Tree α) : P t :=
  @Tree.rec α P (fun children => ∀ t ∈ children, P t) node
    (fun _ ht => absurd ht List.not_mem_nil)
    (fun _ _ head rest => List.forall_mem_cons.2 ⟨head, rest⟩) t

/-! ## Everywhere -/

mutual

/-- A tree and all trees below its root. -/
def nodes : Tree α → List (Tree α)
  | node token note children => node token note children :: nodesOf children

/-- Several trees and all trees below their roots. -/
def nodesOf : List (Tree α) → List (Tree α)
  | [] => []
  | t :: rest => nodes t ++ nodesOf rest

end

theorem nodesOf_eq (ts : List (Tree α)) : nodesOf ts = ts.flatMap nodes := by
  induction ts with
  | nil => rfl
  | cons t rest ih => rw [nodesOf, ih, List.flatMap_cons]

theorem mem_nodes_self (t : Tree α) : t ∈ t.nodes := by
  cases t
  exact List.mem_cons_self ..

/-- The nodes of a child are nodes of the tree. -/
theorem nodes_subset_of_mem {t c : Tree α} (h : c ∈ t.children) : c.nodes ⊆ t.nodes := by
  cases t with
  | node token note children =>
    intro u hu
    rw [nodes, nodesOf_eq]
    exact List.mem_cons_of_mem _ (List.mem_flatMap.2 ⟨c, h, hu⟩)

/-- A property of nodes that holds of a tree and of all nodes below its root. -/
def Everywhere (P : Tree α → Prop) (t : Tree α) : Prop := ∀ u ∈ t.nodes, P u

instance {P : Tree α → Prop} [DecidablePred P] (t : Tree α) : Decidable (t.Everywhere P) :=
  inferInstanceAs (Decidable (∀ u ∈ t.nodes, P u))

theorem everywhere_node {P : Tree α → Prop} {token : Token} {note : α} {children : List (Tree α)} :
    (node token note children).Everywhere P ↔
      P (node token note children) ∧ ∀ t ∈ children, t.Everywhere P := by
  rw [Everywhere, nodes, nodesOf_eq, List.forall_mem_cons, List.forall_mem_flatMap]
  rfl

theorem Everywhere.here {P : Tree α → Prop} {t : Tree α} (h : t.Everywhere P) : P t := by
  cases t with
  | node token note children => exact (everywhere_node.1 h).1

theorem Everywhere.child {P : Tree α → Prop} {t u : Tree α} (h : t.Everywhere P)
    (hu : u ∈ t.children) : u.Everywhere P := by
  cases t with
  | node token note children => exact (everywhere_node.1 h).2 u hu

/-! ## Pruning -/

mutual

/-- A tree without the nodes that are left out of programs. The root stays in any case. -/
def pruned : Tree α → Tree α
  | node token note children => node token note (prunedAll children)

/-- Of several trees those that are not left out, each pruned. -/
def prunedAll : List (Tree α) → List (Tree α)
  | [] => []
  | t :: rest => if t.token.isSkipped then prunedAll rest else pruned t :: prunedAll rest

end

@[simp] theorem token_pruned (t : Tree α) : t.pruned.token = t.token := by
  cases t
  rfl

@[simp] theorem note_pruned (t : Tree α) : t.pruned.note = t.note := by
  cases t
  rfl

@[simp] theorem kind_pruned (t : Tree α) : t.pruned.kind = t.kind := by
  simp [kind]

@[simp] theorem isPart_pruned (t : Tree α) : t.pruned.isPart = t.isPart := by
  simp [isPart]

@[simp] theorem children_pruned (t : Tree α) : t.pruned.children = prunedAll t.children := by
  cases t
  rfl

theorem prunedAll_eq (ts : List (Tree α)) :
    prunedAll ts = (ts.filter fun t => !t.token.isSkipped).map pruned := by
  induction ts with
  | nil => rfl
  | cons t rest ih =>
    rw [prunedAll, ih]
    by_cases h : t.token.isSkipped = true
    · simp [h]
    · simp [h]

/-- Of the trees that stay those with a property are looked for as before. -/
theorem filter_prunedAll (p : Tree α → Bool) (hp : ∀ t, p t.pruned = p t)
    (hs : ∀ t, p t = true → t.token.isSkipped = false) (ts : List (Tree α)) :
    (prunedAll ts).filter p = (ts.filter p).map pruned := by
  have hcomp : p ∘ pruned = p := funext hp
  rw [prunedAll_eq, List.filter_map, hcomp, List.filter_filter]
  congr 1
  refine List.filter_congr fun t _ => ?_
  by_cases h : p t = true
  · simp [h, hs t h]
  · simp [h]

end Tree

end Arbor
