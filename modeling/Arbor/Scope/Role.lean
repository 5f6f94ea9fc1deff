import Arbor.Text.Basic

set_option autoImplicit false

/-! # What a node does to scopes

The type of a node tells which scopes it opens and what it declares. -/

namespace Arbor.Scope

/-- The part that a type of nodes plays in scoping. -/
inductive Role where
  /-- Programs and blocks. -/
  | block
  | functionDeclaration
  | functionExpression
  | arrowFunction
  | variableDeclaration
  | classDeclaration
  | classExpression
  | importDeclaration
  | catchClause
  /-- A loop that declares its variables in the field `head`. -/
  | loop (head : String)
  | other
  deriving DecidableEq

/-- The types that play a part in scoping. -/
def roles : List (Text × Role) := [
  ("Program", .block), ("BlockStatement", .block), ("StaticBlock", .block),
  ("FunctionDeclaration", .functionDeclaration), ("FunctionExpression", .functionExpression),
  ("ArrowFunctionExpression", .arrowFunction), ("VariableDeclaration", .variableDeclaration),
  ("ClassDeclaration", .classDeclaration), ("ClassExpression", .classExpression),
  ("ImportDeclaration", .importDeclaration), ("CatchClause", .catchClause),
  ("ForStatement", .loop "init"), ("ForOfStatement", .loop "left"),
  ("ForInStatement", .loop "left")]

/-- The part that the nodes of a type play. -/
def Role.ofType (type : Text) : Role := (roles.lookup type).getD .other

/-- How many scopes a node opens. The name of a function expression has a scope of its own around
    that of the parameters. -/
def Role.opens : Role → Nat
  | .functionExpression => 2
  | .block | .functionDeclaration | .arrowFunction | .classExpression | .catchClause | .loop _ => 1
  | .variableDeclaration | .classDeclaration | .importDeclaration | .other => 0

end Arbor.Scope
