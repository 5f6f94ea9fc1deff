import Arbor.Lowering.Filler

set_option autoImplicit false

/-! # Expressions with a rule of their own -/

namespace Arbor.Lowering

/-! ## Literals made of several tokens -/

/-- A stretch of literal text of a template. -/
def templateElement (source : Source) (start stop : Nat) (tail : Bool) : Except Fault Value := do
  let raw := source.slice start stop
  let cooked ← Literal.unescape raw
  pure (nodeAt "TemplateElement" start stop [
    ("value", .record [(.text "raw", .text raw), (.text "cooked", .text cooked)]),
    ("tail", .bool tail)])

/-- The stretches of literal text and the expressions of a template, from the offset `start` on.
    The last stretch goes up to `stop`. -/
def templateParts (source : Source) (start stop : Nat) :
    List Branch → Except Fault (List Value × List Value)
  | [] => do pure ([← templateElement source start (max start stop) true], [])
  | b :: rest =>
    if b.kind = "template_substitution" then do
      let quasi ← templateElement source start b.token.start false
      let expression ← expressionOf b.site
      let (quasis, expressions) ← templateParts source b.token.stop stop rest
      pure (quasi :: quasis, if expression.isNull then expressions else expression :: expressions)
    else templateParts source start stop rest

/-- A template literal. -/
def templateLiteral (source : Source) (site : Site) : Except Fault Value := do
  let (quasis, expressions) ←
    templateParts source (site.token.start + 1) (site.token.stop - 1) site.children
  pure (nodeOf "TemplateLiteral" site.token
    [("quasis", .list quasis), ("expressions", .list expressions)])

/-- A property such as `new.target`: two names around the first point. -/
def metaProperty (source : Source) (site : Site) : Value :=
  let points := (site.token.text source).points
  let name (points : List CodePoint) : Text := Text.trim CodePoint.isBlank ⟨points⟩
  let isPoint (c : CodePoint) : Bool := c = '.'
  let before := name (points.takeWhile (!isPoint ·))
  let after := name ((points.dropWhile (!isPoint ·)).drop 1)
  let start : Int := site.token.start
  let stop : Int := site.token.stop
  nodeOf "MetaProperty" site.token [
    ("meta", nodeAt "Identifier" start (start + before.length) [("name", .text before)]),
    ("property", nodeAt "Identifier" (stop - after.length) stop [("name", .text after)])]

/-! ## Operators -/

/-- The operators that may leave their right side unevaluated. -/
def logicalOperators : List Text := ["&&", "||", "??"]

/-- An expression with an operator between two operands. -/
def binaryExpression (source : Source) (site : Site) : Except Fault Value := do
  let operator := operatorOf source site
  let left ← valueOf (site.field? "left")
  let right ← valueOf (site.field? "right")
  let type : Text :=
    if logicalOperators.contains operator then "LogicalExpression" else "BinaryExpression"
  pure (nodeOf type site.token [("operator", .text operator), ("left", left), ("right", right)])

mutual

/-- The expressions of a sequence, through sequences nested in it. -/
def sequenceLeaves : Branch → List Branch
  | .node token reading children =>
    if token.kind = "sequence_expression" then sequenceLeavesAll children
    else [.node token reading children]

/-- The expressions of the sequences among several nodes. -/
def sequenceLeavesAll : List Branch → List Branch
  | [] => []
  | b :: rest => (if b.isPart then sequenceLeaves b else []) ++ sequenceLeavesAll rest

end

/-- Several expressions, of which the last one is the value. -/
def flatSequence (site : Site) : Except Fault Value := do
  pure (nodeOf "SequenceExpression" site.token
    [("expressions", .list (← valuesOf (sequenceLeavesAll site.children)))])

/-! ## Member accesses and calls

A member access or call is a link of a chain: it hangs on the object or callee below it. If any
link of a chain is optional, the whole chain is wrapped once, at its top. -/

/-- The kinds of nodes that are links of a chain. -/
def isLink (kind : String) : Bool :=
  kind = "member_expression" || kind = "subscript_expression" || kind = "call_expression"

/-- The object or callee that a link hangs on. -/
def linkBelow (b? : Option Branch) : Except Fault (Value × Bool) :=
  match b? with
  | some b => b.note.link
  | none => .ok (.null, false)

/-- The arguments of a call. -/
def argumentsOf (b? : Option Branch) : Except Fault (List Value) :=
  match b? with
  | some b => valuesOf b.site.parts
  | none => .ok []

/-- A call, and whether it is part of an optional chain. Calls of template literals and of `import`
    start a chain of their own. -/
def callLink (site : Site) (optional : Bool) : Except Fault (Value × Bool) := do
  let callee? := site.field? "function"
  let arguments? := site.field? "arguments"
  match arguments?.filter fun b => b.kind = "template_string" with
  | some template =>
    let tag ← valueOf callee?
    let quasi ← template.value
    pure (nodeOf "TaggedTemplateExpression" site.token [("tag", tag), ("quasi", quasi)], false)
  | none =>
    if (callee?.map Tree.kind) = some "import" then
      let arguments ← argumentsOf arguments?
      pure (nodeOf "ImportExpression" site.token [
        ("source", arguments[0]?.getD .null), ("options", arguments[1]?.getD .null)], false)
    else
      let (callee, inChain) ← linkBelow callee?
      let typeArguments : List (String × Value) ← match site.field? "type_arguments" with
        | some b => do pure [("typeArguments", ← b.value)]
        | none => pure []
      let arguments ← argumentsOf arguments?
      let fields := ("callee", callee) :: typeArguments ++
        [("arguments", .list arguments), ("optional", .bool optional)]
      pure (nodeOf "CallExpression" site.token fields, optional || inChain)

/-- A member access, and whether it is part of an optional chain. -/
def memberLink (site : Site) (optional : Bool) : Except Fault (Value × Bool) := do
  let (object, inChain) ← linkBelow (site.field? "object")
  let computed := site.token.kind = "subscript_expression"
  let property ← valueOf (site.field? (if computed then "index" else "property"))
  pure (nodeOf "MemberExpression" site.token [
    ("object", object), ("property", property), ("computed", .bool computed),
    ("optional", .bool optional)], optional || inChain)

/-- A link of a chain, and whether the chain is optional up to here. -/
def linkOf (site : Site) : Except Fault (Value × Bool) :=
  let optional := (site.mark? "optional_chain").isSome
  if site.token.kind = "call_expression" then callLink site optional else memberLink site optional

/-- A chain at its top. -/
def chainOf (site : Site) : Except Fault Value := do
  let (node, inChain) ← linkOf site
  pure (if inChain then nodeOf "ChainExpression" site.token [("expression", node)] else node)

end Arbor.Lowering
