import Arbor.Lowering.Filler

set_option autoImplicit false

/-! # Methods

A method of a class is a definition of its own; a method of an object is a property. Both hold a
function that starts at the parameters, or at the type parameters before them. -/

namespace Arbor.Lowering

/-- The function of a method. -/
def methodValue (source : Source) (site : Site) : Except Fault Value := do
  let params? := site.field? "parameters"
  let typeParameters? := site.field? "type_parameters"
  let start := match params? with
    | some b => b.token.start
    | none => site.token.start
  let start := match typeParameters? with
    | some b => min start b.token.start
    | none => start
  let fields ← fillAll source site [
    ("id", .constant .null), ("async", .token "async"), ("generator", .token "*"),
    ("typeParameters", .childIfAny "type_parameters"), ("params", .params ["parameters"]),
    ("returnType", .childIfAny "return_type"), ("body", .child "body"),
    ("expression", .constant (.bool false))]
  pure (nodeAt "FunctionExpression" start site.token.stop fields)

/-- Whether a method reads, writes or is called. -/
def methodKind (site : Site) (name? : Option Branch) : Text :=
  if site.hasTokenBefore "get" name? then "get"
  else if site.hasTokenBefore "set" name? then "set"
  else "method"

/-- Whether a key spells the name of the constructor. -/
def namesConstructor : Value → Except Fault Bool
  | .record fields =>
    .ok (match Fields.get? fields (.text "name") with
      | some (.scalar s) => s = .text "constructor"
      | _ => false)
  | .scalar .null => .ok false
  | _ => .error .notARecord

/-- A method of an object literal. -/
def objectMethod (source : Source) (site : Site) (kind : Text) (computed : Bool)
    (key : Value) : Except Fault Value := do
  let isMethod := kind = "method"
  let value ← methodValue source site
  pure (nodeOf "Property" site.token [
    ("kind", .text (if isMethod then "init" else kind)), ("method", .bool isMethod),
    ("shorthand", .bool false), ("computed", .bool computed), ("key", key), ("value", value)])

/-- A method of a class. -/
def classMethod (source : Source) (site : Site) (kind : Text) (computed : Bool)
    (key : Value) : Except Fault Value := do
  let isStatic := site.hasTokenBefore "static" (site.field? "name")
  let isConstructor ←
    if kind = "method" ∧ isStatic = false ∧ computed = false then namesConstructor key
    else pure false
  let decorators ← decoratorsOf site
  let value ← methodValue source site
  pure (nodeOf "MethodDefinition" site.token [
    ("decorators", .list decorators), ("static", .bool isStatic), ("computed", .bool computed),
    ("kind", .text (if isConstructor then "constructor" else kind)), ("key", key),
    ("value", value)])

/-- A method; `inObject` tells whether it stands in an object literal. -/
def methodOf (source : Source) (site : Site) (inObject : Bool) : Except Fault Value := do
  let name? := site.field? "name"
  let key ← keyOf name?
  let kind := methodKind site name?
  if inObject then objectMethod source site kind (isComputed name?) key
  else classMethod source site kind (isComputed name?) key

end Arbor.Lowering
