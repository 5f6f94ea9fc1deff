import Arbor.Lowering.Filler

set_option autoImplicit false

/-! # JSX elements -/

namespace Arbor.Lowering

/-! ## Names -/

/-- The name of an element or attribute: an identifier, a name with a namespace, or a member of an
    object. Any other node is what it is as an expression. -/
def jsxNameAt (source : Source) (site : Site) (value : Except Fault Value) :
    Except Fault Value := do
  let kind := site.token.kind
  if kind = "identifier" ∨ kind = "property_identifier" ∨ kind = "jsx_identifier" then
    pure (nodeOf "JSXIdentifier" site.token [("name", .text (site.token.text source))])
  else if kind = "jsx_namespace_name" then
    let space ← jsxNameOf site.first?
    let name ← jsxNameOf (site.parts.drop 1).getLast?
    pure (nodeOf "JSXNamespacedName" site.token [("namespace", space), ("name", name)])
  else if kind = "member_expression" ∨ kind = "nested_identifier" then
    let (object?, property?) := match site.field? "object", site.field? "property" with
      | some object, some property => (some object, some property)
      | _, _ =>
        match (site.parts.drop 1).getLast? with
        | some last => (site.first?, some last)
        | none => (none, none)
    let object ← jsxNameOf object?
    let property ← jsxNameOf property?
    pure (nodeOf "JSXMemberExpression" site.token [("object", object), ("property", property)])
  else value

/-! ## Braces -/

/-- An expression in braces. With a spread inside a tag it is a spread of attributes; without an
    expression the space between the braces stands for it. -/
def jsxExpressionOf (site : Site) (inTag : Bool) : Except Fault Value := do
  match site.parts with
  | [] =>
    let start := site.token.start + 1
    let empty := nodeAt "JSXEmptyExpression" start (max start (site.token.stop - 1) : Nat) []
    pure (nodeOf "JSXExpressionContainer" site.token [("expression", empty)])
  | part :: rest =>
    if part.kind = "spread_element" ∧ inTag then
      pure (nodeOf "JSXSpreadAttribute" site.token [("argument", ← firstOf part.site)])
    else
      pure (nodeOf "JSXExpressionContainer" site.token
        [("expression", ← sequenceOf site.token (part :: rest))])

/-! ## Elements -/

/-- A child of an element. -/
def jsxChildOf (source : Source) (b : Branch) : Except Fault Value :=
  if b.kind = "jsx_text" ∨ b.kind = "html_character_reference" then
    let raw := b.token.text source
    .ok (nodeOf "JSXText" b.token [("value", .text raw), ("raw", .text raw)])
  else if b.kind = "jsx_expression" then
    match b.site.first? with
    | some part =>
      if part.kind = "spread_element" then do
        pure (nodeOf "JSXSpreadChild" b.token [("expression", ← firstOf part.site)])
      else b.value
    | none => b.value
  else b.value

/-- A child together with its position among all children. -/
abbrev Placed := Branch × Nat

/-- The tag of an element: the part under a field, or else a part that has the kind of the tag. -/
def tagOf (parts : List Placed) (field kind : String) (fallback? : Option Placed) :
    Option Placed :=
  match parts.find? fun p => p.1.token.field? = some field with
  | some p => some p
  | none => fallback?.filter fun p => p.1.kind = kind

/-- An element with an opening and a closing tag, or a fragment, whose tags have no name. -/
def jsxElementOf (source : Source) (site : Site) : Except Fault Value := do
  let parts := site.children.zipIdx.filter fun p => p.1.isPart
  let opening? := tagOf parts "open_tag" "jsx_opening_element" parts.head?
  let closing? := tagOf parts "close_tag" "jsx_closing_element" parts.getLast?
  let isTag (p : Placed) : Bool :=
    opening?.map Prod.snd = some p.2 || closing?.map Prod.snd = some p.2
  let inner := parts.filter fun p => !isTag p
  let children ← inner.mapM fun p => jsxChildOf source p.1
  let children := children.filter fun v => !v.isNull
  match opening? with
  | none =>
    let closing ← valueOf (closing?.map Prod.fst)
    pure (nodeOf "JSXElement" site.token [
      ("openingElement", .null), ("children", .list children), ("closingElement", closing)])
  | some (opening, _) =>
    if (opening.site.field? "name").isNone then
      let closing : Value := match closing? with
        | some (b, _) => nodeOf "JSXClosingFragment" b.token []
        | none => .null
      pure (nodeOf "JSXFragment" site.token [
        ("openingFragment", nodeOf "JSXOpeningFragment" opening.token []),
        ("children", .list children), ("closingFragment", closing)])
    else
      let tag ← jsxOpeningOf opening.site false
      let closing ← valueOf (closing?.map Prod.fst)
      pure (nodeOf "JSXElement" site.token [
        ("openingElement", tag), ("children", .list children), ("closingElement", closing)])

end Arbor.Lowering
