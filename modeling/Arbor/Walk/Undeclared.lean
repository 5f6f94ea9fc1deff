import Arbor.Scope.Binding
import Arbor.Walk.Walker

set_option autoImplicit false

/-! # Names that a function uses and does not declare

The function is walked twice. The first walk gathers every declaration, also those that stand after
a use of their name; for the second walk the tracker is frozen, and every identifier that introduces
no name and is declared in no scope around it is reported. The walks change nothing, so their number
of steps is bounded by the size of the heap. -/

namespace Arbor

/-- A number of steps that is enough to walk any tree of the heap without changing it. -/
def Heap.walkSteps (h : Heap) : Nat :=
  h.cells.foldl (fun n c =>
    n + match c with
      | .list items => items.length + 1
      | .record fields => fields.length + 1) 2

namespace Scope

/-- Report an identifier that is used and not declared, once for each name. -/
def reportUse : Callback (List Text) := fun v => do
  let w ← get
  let h := w.heap
  match h.field v.node "type", h.field v.node "name" with
  | .scalar (.text type), .scalar (.text name) =>
    if type = "Identifier" then
      let parent := (v.slot.parent?.map Datum.ref).getD .null
      let binds ← WalkM.ofExcept (isBindingIdentifier h (.ref v.node) parent)
      if !binds && !w.tracker.isDeclared name && !w.user.contains name then
        modify fun w => { w with user := w.user ++ [name] }
  | _, _ => pure ()
  pure .empty

/-- A walk in which a tracker gathers declarations. -/
def gathering : Walker (List Text) := ⟨none, none, true⟩

/-- A walk in which names that are used and not declared are reported. -/
def reporting : Walker (List Text) := ⟨some reportUse, none, true⟩

/-- Gather the declarations of a function, and then report the names that it uses without them. -/
def reportNames (steps : Nat) (function : Datum) : WalkM (List Text) Unit := do
  let _ ← gathering.walk steps function
  modify fun w => { w with tracker := w.tracker.freeze }
  let _ ← reporting.walk steps function

/-- The names that a function uses and does not declare, in order of their first use. -/
def undeclaredNames (h : Heap) (function : Datum) : Except Stop (List Text) :=
  match reportNames h.walkSteps function ⟨h, .fresh true, [], []⟩ with
  | .ok _ w => .ok w.user
  | .error stop _ => .error stop

end Scope

end Arbor
