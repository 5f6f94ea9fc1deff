import Arbor.Lowering.Filler

set_option autoImplicit false

/-! # Statements and patterns with a rule of their own

Their fields are filled in another order than they stand in, or depend on each other. -/

namespace Arbor.Lowering

/-- A conditional statement. The alternative is what follows `else`. -/
def ifStatement (site : Site) : Except Fault Value := do
  let alternate ← match site.field? "alternative" with
    | some clause => firstOf clause.site
    | none => pure .null
  let test ← valueOf (site.field? "condition")
  let consequent ← valueOf (site.field? "consequence")
  pure (nodeOf "IfStatement" site.token
    [("test", test), ("consequent", consequent), ("alternate", alternate)])

/-- A statement with a catch clause or a final block. -/
def tryStatement (site : Site) : Except Fault Value := do
  let finalizer ← match site.field? "finalizer" with
    | some clause => valueOf (clause.site.field? "body")
    | none => pure .null
  let block ← valueOf (site.field? "body")
  let handler ← valueOf (site.field? "handler")
  pure (nodeOf "TryStatement" site.token
    [("block", block), ("handler", handler), ("finalizer", finalizer)])

/-- A choice between cases. -/
def switchStatement (site : Site) : Except Fault Value := do
  let cases ← match site.field? "body" with
    | some body => valuesOf body.site.parts
    | none => pure []
  let discriminant ← valueOf (site.field? "value")
  pure (nodeOf "SwitchStatement" site.token
    [("discriminant", discriminant), ("cases", .list cases)])

/-- The variable that a loop head declares with the word `word`, or the pattern it assigns to. -/
def loopVariable (source : Source) (word? left? : Option Branch) : Except Fault Value := do
  let left ← valueOf left?
  match word?, left?, left with
  | some word, some branch, .record fields =>
    let position (name : Text) : Value := (Fields.get? fields (.text name)).getD .null
    let declarator : Value := .record [
      (.text "type", .text "VariableDeclarator"), (.text "start", position "start"),
      (.text "end", position "end"), (.text "id", left), (.text "init", .null)]
    pure (nodeAt "VariableDeclaration" word.token.start branch.token.stop
      [("kind", .text (word.token.text source)), ("declarations", .list [declarator])])
  | some _, some _, .list _ => .error .listInsteadOfRecord
  | _, _, _ => pure left

/-- A loop over the keys or the values of an object. -/
def forInStatement (source : Source) (site : Site) : Except Fault Value := do
  let left ← loopVariable source (site.mark? "kind") (site.field? "left")
  let operator : Text := match site.mark? "operator" with
    | some b => b.token.text source
    | none => "in"
  let right ← valueOf (site.field? "right")
  let body ← valueOf (site.field? "body")
  let fields := [("left", left), ("right", right), ("body", body)]
  if operator = "of" then
    pure (nodeOf "ForOfStatement" site.token (("await", .bool (site.hasToken "await")) :: fields))
  else pure (nodeOf "ForInStatement" site.token fields)

/-- Store the access modifiers among the parts of a parameter in its pattern. -/
def withAccess (source : Source) (pattern : Value) : List Branch → Except Fault Value
  | [] => .ok pattern
  | b :: rest =>
    if b.kind = "accessibility_modifier" then do
      withAccess source (← setField pattern "accessibility" (.text (b.token.text source))) rest
    else withAccess source pattern rest

/-- A parameter with a type, a modifier or a default value; nothing if it has no pattern. -/
def typedParameter (source : Source) (site : Site) (optional : Bool) : Except Fault Value := do
  let pattern ← valueOf (site.field? "pattern")
  if pattern.isNull then pure .null
  else
    let pattern ← if optional then setField pattern "optional" (.bool true) else pure pattern
    let pattern ← withType pattern (site.field? "type") true
    let pattern ← withAccess source pattern site.parts
    let value ← valueOf (site.field? "value")
    if value.isNull then pure pattern
    else pure (nodeOf "AssignmentPattern" site.token [("left", pattern), ("right", value)])

/-- A member of an object pattern with a default value. A shorthand member is a property whose
    value is the name with the default. -/
def defaultedMember (source : Source) (site : Site) : Except Fault Value := do
  let right ← valueOf (site.field? "right")
  match site.field? "left" with
  | none => pure (nodeOf "AssignmentPattern" site.token [("left", .null), ("right", right)])
  | some left =>
    if left.kind = "shorthand_property_identifier_pattern" then
      let name := identifierOf source left.token
      pure (nodeOf "Property" site.token [
        ("kind", .text "init"), ("method", .bool false), ("shorthand", .bool true),
        ("computed", .bool false), ("key", name),
        ("value", nodeOf "AssignmentPattern" site.token [("left", name), ("right", right)])])
    else
      pure (nodeOf "AssignmentPattern" site.token [("left", ← left.value), ("right", right)])

end Arbor.Lowering
