import Arbor.Proofs.Heap.Slot
import Arbor.Walk.Walker

set_option autoImplicit false

/-! # Rewriting a tree by answers

What a walk does to a tree, said without a heap. Each node has two answers, one on entering and one
on leaving (`Answers`). From them `rewrite` tells what becomes of a node: what stands in its place,
and what the node itself looks like afterwards. The parent is rebuilt from what has become of its
fields and elements: a list is the list of what still stands, in order, and a field is dropped with
what it held. A field that is filled again after it has been emptied goes last.

`trace` tells in which order the nodes are shown, and where each of them hangs at that moment.

Replacements bring new nodes, so neither recursion need come to an end; both go down through at most
`depth` nodes, and have no result if these do not suffice. -/

namespace Arbor

/-! ## Answers -/

/-- What a callback asks for at a node. The replacement is the one that is made, none if there is
    none or the node is removed. -/
structure Answer where
  removed : Bool := false
  skipped : Bool := false
  replacement? : Option Layout := none

/-- The answer that a request gives, its replacement read from a heap. -/
def Request.answer (q : Request) (h : Heap) : Answer :=
  ⟨q.removed, q.skipped, q.effective?.map h.layout⟩

/-- What stands in the place of a node after it has been left. -/
inductive Outcome where
  | gone
  /-- The node or its replacement, in the place of the node. -/
  | inPlace (t : Layout)
  /-- A replacement for a node that had left its place. -/
  | putBack (t : Layout)

/-- What stands at the end, if anything does. -/
def Outcome.layout? : Outcome → Option Layout
  | gone => none
  | inPlace t => some t
  | putBack t => some t

/-- What a walk returns for a node, null if nothing stands in its place. -/
def Outcome.datum (o : Outcome) : Datum := (o.layout?.map Layout.datum).getD .null

namespace Answer

/-- What stands in the place of `t` after entering: nothing, a replacement, or the node. -/
def entered (a : Answer) (t : Layout) : Option Layout :=
  if a.removed then none else some (a.replacement?.getD t)

/-- What stands there after leaving, when it was `current?` before. A removal counts for more than a
    replacement. -/
def left (a : Answer) (current? : Option Layout) : Outcome :=
  if a.removed then .gone
  else match a.replacement?, current? with
    | some t, some _ => .inPlace t
    | some t, none => .putBack t
    | none, some t => .inPlace t
    | none, none => .gone

/-- What the node itself looks like, when `current?` stood in its place before it was left: it is as
    it was if something else stood there. -/
def original (a : Answer) (t : Layout) (current? : Option Layout) : Layout :=
  if a.replacement?.isSome then t else current?.getD t

end Answer

/-- The answers for all nodes. A node is shown at most once in each phase. -/
abbrev Answers := Phase → Ref → Answer

/-- What becomes of a node: what stands in its place, and what it looks like itself. -/
structure Fate where
  outcome : Outcome
  original : Layout

/-! ## Rewriting -/

namespace Rewriting

/-- What stands in the place of an element: what has become of it if it is a node, else what stood
    there before. -/
def item (visit : Layout → Option Fate) (t : Layout) : Option Outcome :=
  if t.isNode then (visit t).map Fate.outcome else some (.inPlace t)

/-- What is left of the elements of a list. -/
def items (visit : Layout → Option Fate) : List Layout → Option (List Outcome)
  | [] => some []
  | t :: rest => do return (← item visit t) :: (← items visit rest)

/-- What stands in a field: for a list, the list of what is left of it. -/
def field (visit : Layout → Option Fate) : Layout → Option Outcome
  | .list r ts => do return .inPlace (.list r ((← items visit ts).filterMap Outcome.layout?))
  | t => item visit t

/-- What stands in each field of a record. -/
def fields (visit : Layout → Option Fate) :
    List (Key × Layout) → Option (List (Key × Outcome))
  | [] => some []
  | (key, t) :: rest => do return (key, ← field visit t) :: (← fields visit rest)

/-- The fields that have kept their places. -/
def kept (outcomes : List (Key × Outcome)) : List (Key × Layout) :=
  outcomes.filterMap fun
    | (key, .inPlace t) => some (key, t)
    | _ => none

/-- The fields that have been filled again. -/
def moved (outcomes : List (Key × Outcome)) : List (Key × Layout) :=
  outcomes.filterMap fun
    | (key, .putBack t) => some (key, t)
    | _ => none

theorem kept_cons (key : Key) (o : Outcome) (rest : List (Key × Outcome)) :
    kept ((key, o) :: rest) = kept [(key, o)] ++ kept rest := by
  cases o <;> rfl

theorem moved_cons (key : Key) (o : Outcome) (rest : List (Key × Outcome)) :
    moved ((key, o) :: rest) = moved [(key, o)] ++ moved rest := by
  cases o <;> rfl

theorem mem_keys_kept {k key : Key} {o : Outcome} (h : k ∈ Fields.keys (kept [(key, o)])) :
    k = key := by
  cases o <;> simp_all [kept, Fields.keys]

theorem mem_keys_moved {k key : Key} {o : Outcome} (h : k ∈ Fields.keys (moved [(key, o)])) :
    k = key := by
  cases o <;> simp_all [moved, Fields.keys]

/-- A record with its children rewritten. -/
def below (visit : Layout → Option Fate) : Layout → Option Layout
  | .record r fs => do
    let outcomes ← fields visit fs
    return .record r (kept outcomes ++ moved outcomes)
  | t => some t

/-- What stands in the place of a node before it is left, when `entered?` stood there after
    entering. -/
def current (visit : Layout → Option Fate) (skipped : Bool) (entered? : Option Layout) :
    Option (Option Layout) :=
  match entered? with
  | none => some none
  | some t => if skipped then some (some t) else (below visit t).map some

end Rewriting

/-- What becomes of a node. -/
def rewrite (ask : Answers) : Nat → Layout → Option Fate
  | depth + 1, .record r fields => do
    let a := ask .enter r
    let t := Layout.record r fields
    let current? ← Rewriting.current (rewrite ask depth) a.skipped (a.entered t)
    return ⟨(ask .leave r).left current?, a.original t current?⟩
  | _, _ => none

/-! ## The order of visits -/

/-- A node that is shown to a callback. -/
structure Event where
  phase : Phase
  visit : Visit

namespace Tracing

variable (fate : Layout → Option Fate) (visit : Heap.Slot → Layout → Option (List Event))

/-- What happens at the elements of a list, from the one that now has position `i` on. The position
    counts the elements before it that still stand. -/
def items (parent : Ref) (key : Key) : Nat → List Layout → Option (List Event)
  | _, [] => some []
  | i, t :: rest => do
    if t.isNode then
      let here ← visit ⟨some parent, key, some i⟩ t
      let left := ((← fate t).outcome.layout?.toList).length
      return here ++ (← items parent key (i + left) rest)
    else items parent key (i + 1) rest

/-- What happens in a field. -/
def field (parent : Ref) (key : Key) : Layout → Option (List Event)
  | .list _ ts => items fate visit parent key 0 ts
  | t => if t.isNode then visit ⟨some parent, key, none⟩ t else some []

/-- What happens in the fields of a record, in their order. -/
def fields (parent : Ref) : List (Key × Layout) → Option (List Event)
  | [] => some []
  | (key, t) :: rest => do return (← field fate visit parent key t) ++ (← fields parent rest)

/-- What happens below what stands in the place of a node after entering. -/
def below (skipped : Bool) : Option Layout → Option (List Event)
  | some (.record r fs) => if skipped then some [] else fields fate visit r fs
  | _ => some []

end Tracing

/-- The nodes that are shown in a walk of the tree below a node: the node, the nodes below what
    stands in its place after entering, and the node again. -/
def trace (ask : Answers) (root : Datum) : Nat → Heap.Slot → Layout → Option (List Event)
  | depth + 1, slot, .record r fields => do
    let a := ask .enter r
    let v : Visit := ⟨r, slot, root⟩
    let inner ← Tracing.below (rewrite ask depth) (trace ask root depth) a.skipped
      (a.entered (.record r fields))
    return ⟨.enter, v⟩ :: inner ++ [⟨.leave, v⟩]
  | _, _, _ => none

end Arbor
