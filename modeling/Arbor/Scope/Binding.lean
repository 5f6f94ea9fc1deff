import Arbor.Scope.Pattern

set_option autoImplicit false

/-! # Binding identifiers

Whether an identifier introduces a name, rather than using one, is told by its parent and the field
that holds it, and by nothing else. -/

namespace Arbor.Scope

/-- Whether a reference is among the identifiers of one of several patterns. The patterns after it
    are not looked at. -/
def boundByAny (h : Heap) (r : Ref) : List Datum → Except Fault Bool
  | [] => .ok false
  | pattern :: rest => do
    if (← boundIdentifiers h pattern).contains r then pure true else boundByAny h r rest

/-- The types of functions. -/
def functionTypes : List Text :=
  ["FunctionDeclaration", "FunctionExpression", "ArrowFunctionExpression"]

/-- Whether the identifier `r` introduces a name, for a parent of a given type. -/
def bindsUnder (h : Heap) (r parent : Ref) (type : Text) : Except Fault Bool :=
  let holds (field : Text) : Bool := h.field parent field = .ref r
  if functionTypes.contains type then
    if type ≠ "ArrowFunctionExpression" ∧ holds "id" then .ok true
    else do boundByAny h r (← h.elements (h.field parent "params"))
  else if type = "ClassDeclaration" ∨ type = "ClassExpression" then .ok (holds "id")
  else if type = "MethodDefinition" ∨ type = "PropertyDefinition" then .ok (holds "key")
  else if type = "VariableDeclarator" then boundByAny h r [h.field parent "id"]
  else if type = "CatchClause" then boundByAny h r [h.field parent "param"]
  else if type = "Property" then .ok (holds "key" && !holds "value")
  else if type = "MemberExpression" then .ok (holds "property")
  else .ok false

/-- Whether a node is an identifier that introduces a name. A node without a parent is none. -/
def isBindingIdentifier (h : Heap) (node parent : Datum) : Except Fault Bool :=
  if parent.isNull then .ok false
  else do
    let r ← h.asRecord node
    if h.field r "type" ≠ Datum.text "Identifier" then pure false
    else
      let p ← h.asRecord parent
      match h.field p "type" with
      | .scalar (.text type) => bindsUnder h r p type
      | _ => pure false

end Arbor.Scope
