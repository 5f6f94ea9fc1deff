import Arbor.Heap.Basic

set_option autoImplicit false

/-! # Names bound by patterns -/

namespace Arbor.Scope

/-- The identifiers that a pattern binds, in source order, followed through at most `depth` nodes.
    Identifiers without a name bind nothing. -/
def boundWithin (h : Heap) : Nat → Datum → Except Fault (List Ref)
  | 0, _ => .ok []
  | depth + 1, d =>
    match d, h.nodeType? d with
    | .ref r, some type =>
      if type = "Identifier" then .ok (if (h.name? d).isSome then [r] else [])
      else if type = "AssignmentPattern" then boundWithin h depth (h.field r "left")
      else if type = "RestElement" then boundWithin h depth (h.field r "argument")
      else if type = "ArrayPattern" then do
        let elements ← h.elements (h.field r "elements")
        pure (← elements.mapM (boundWithin h depth)).flatten
      else if type = "ObjectPattern" then do
        let properties ← h.elements (h.field r "properties")
        pure (← properties.mapM fun property =>
          match property, h.nodeType? property with
          | .ref p, some kind =>
            boundWithin h depth (h.field p (if kind = "RestElement" then "argument" else "value"))
          | _, _ => .ok []).flatten
      else .ok []
    | _, _ => .ok []

/-- The identifiers that a pattern binds, in source order. -/
def boundIdentifiers (h : Heap) (pattern : Datum) : Except Fault (List Ref) :=
  boundWithin h (h.cells.size + 1) pattern

end Arbor.Scope
