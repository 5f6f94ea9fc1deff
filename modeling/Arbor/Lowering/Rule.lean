import Arbor.Lowering.Export
import Arbor.Lowering.Expression
import Arbor.Lowering.Jsx
import Arbor.Lowering.Member
import Arbor.Lowering.Statement

set_option autoImplicit false

/-! # The rule of each kind of node

`rules` lists the kinds that a grammar of the language may deliver and the rule by which each is
lowered. A kind that is not listed is lowered by `Rule.generic`. -/

namespace Arbor.Lowering

/-- How a kind of node is lowered. -/
inductive Rule where
  /-- A node of a type with fields. -/
  | node (type : String) (fields : List (String × Filler))
  /-- No node of its own, but what the part is. -/
  | replaced (filler : Filler)
  | ifStatement
  | tryStatement
  | switchStatement
  | forIn
  | typedParameter (optional : Bool)
  | defaultedMember
  | template
  | sequence
  | binary
  | chain
  | metaProperty
  | method
  | exportStatement
  | jsxElement
  | jsxExpression
  | predefinedType
  | generic

/-- The fields of every function, from its name to its result type. -/
def signature : List (String × Filler) := [
  ("id", .child "name"), ("async", .token "async"), ("generator", .token "*"),
  ("typeParameters", .childIfAny "type_parameters"), ("params", .params ["parameters"]),
  ("returnType", .childIfAny "return_type")]

/-- A function with a body. -/
def functionRule (type : String) : Rule :=
  .node type (signature ++ [("body", .child "body"), ("expression", .constant (.bool false))])

/-- A class. -/
def classRule (type : String) (more : List (String × Filler)) : Rule :=
  .node type ([
    ("decorators", .decorators), ("id", .child "name"),
    ("typeParameters", .childIfAny "type_parameters"), ("superClass", .superClass),
    ("implements", .implements), ("body", .child "body")] ++ more)

/-- A field of a class, whose name is held under `name`. -/
def fieldRule (name : String) : Rule :=
  .node "PropertyDefinition" [
    ("decorators", .decorators), ("static", .tokenBefore "static" name),
    ("computed", .computed name), ("key", .key name), ("typeAnnotation", .childIfAny "type"),
    ("value", .child "value")]

/-- A property with a key and a value. -/
def pairRule : Rule :=
  .node "Property" [
    ("kind", .constant (.text "init")), ("method", .constant (.bool false)),
    ("shorthand", .constant (.bool false)), ("computed", .computed "key"), ("key", .key "key"),
    ("value", .child "value")]

def identifierRule : Rule := .node "Identifier" [("name", .source)]

/-- A literal with a fixed value. -/
def constantRule (value : Scalar) (raw : String) : Rule :=
  .node "Literal" [("value", .constant value), ("raw", .constant (.text raw))]

/-- The kinds of statements, clauses and declarations. -/
def statementRules : List (String × Rule) := [
  ("expression_statement", .node "ExpressionStatement" [("expression", .sequence)]),
  ("variable_declaration", .node "VariableDeclaration" [
    ("kind", .constant (.text "var")), ("declarations", .allOf "variable_declarator")]),
  ("lexical_declaration", .node "VariableDeclaration" [
    ("kind", .declarationWord), ("declarations", .allOf "variable_declarator")]),
  ("variable_declarator", .node "VariableDeclarator" [("id", .binding), ("init", .child "value")]),
  ("statement_block", .node "BlockStatement" [("body", .all)]),
  ("if_statement", .ifStatement),
  ("while_statement", .node "WhileStatement" [
    ("test", .child "condition"), ("body", .child "body")]),
  ("do_statement", .node "DoWhileStatement" [
    ("body", .child "body"), ("test", .child "condition")]),
  ("for_statement", .node "ForStatement" [
    ("init", .clause "initializer"), ("test", .clause "condition"),
    ("update", .clause "increment"), ("body", .child "body")]),
  ("for_in_statement", .forIn),
  ("return_statement", .node "ReturnStatement" [("argument", .sequence)]),
  ("throw_statement", .node "ThrowStatement" [("argument", .sequence)]),
  ("break_statement", .node "BreakStatement" [("label", .child "label")]),
  ("continue_statement", .node "ContinueStatement" [("label", .child "label")]),
  ("labeled_statement", .node "LabeledStatement" [
    ("label", .child "label"), ("body", .child "body")]),
  ("empty_statement", .node "EmptyStatement" []),
  ("debugger_statement", .node "DebuggerStatement" []),
  ("with_statement", .node "WithStatement" [("object", .child "object"), ("body", .child "body")]),
  ("try_statement", .tryStatement),
  ("catch_clause", .node "CatchClause" [("param", .caught), ("body", .child "body")]),
  ("switch_statement", .switchStatement),
  ("switch_case", .node "SwitchCase" [
    ("test", .child "value"), ("consequent", .allUnder "body")]),
  ("switch_default", .node "SwitchCase" [
    ("test", .constant .null), ("consequent", .allUnder "body")])]

/-- The kinds of functions, parameters and patterns. -/
def functionRules : List (String × Rule) := [
  ("function_declaration", functionRule "FunctionDeclaration"),
  ("generator_function_declaration", functionRule "FunctionDeclaration"),
  ("function_signature", .node "TSDeclareFunction" (signature ++ [
    ("body", .dropped "body"), ("expression", .constant (.bool false))])),
  ("function_expression", functionRule "FunctionExpression"),
  ("function", functionRule "FunctionExpression"),
  ("generator_function", functionRule "FunctionExpression"),
  ("arrow_function", .node "ArrowFunctionExpression" [
    ("id", .constant .null), ("async", .token "async"), ("generator", .constant (.bool false)),
    ("typeParameters", .childIfAny "type_parameters"),
    ("params", .params ["parameters", "parameter"]), ("returnType", .childIfAny "return_type"),
    ("body", .child "body"), ("expression", .expressionBody)]),
  ("required_parameter", .typedParameter false),
  ("optional_parameter", .typedParameter true),
  ("assignment_pattern", .node "AssignmentPattern" [
    ("left", .child "left"), ("right", .child "right")]),
  ("rest_pattern", .node "RestElement" [("argument", .first)]),
  ("array_pattern", .node "ArrayPattern" [("elements", .elements)]),
  ("object_pattern", .node "ObjectPattern" [("properties", .all)]),
  ("pair_pattern", pairRule),
  ("shorthand_property_identifier_pattern", .node "Property" [
    ("kind", .constant (.text "init")), ("method", .constant (.bool false)),
    ("shorthand", .constant (.bool true)), ("computed", .constant (.bool false)),
    ("key", .identifier), ("value", .identifier)]),
  ("object_assignment_pattern", .defaultedMember)]

/-- The kinds of names, literals and expressions. -/
def expressionRules : List (String × Rule) := [
  ("identifier", identifierRule),
  ("property_identifier", identifierRule),
  ("statement_identifier", identifierRule),
  ("type_identifier", identifierRule),
  ("shorthand_property_identifier", identifierRule),
  ("undefined", identifierRule),
  ("private_property_identifier", .node "PrivateIdentifier" [("name", .privateName)]),
  ("this", .node "ThisExpression" []),
  ("super", .node "Super" []),
  ("number", .node "Literal" [("value", .number), ("raw", .source), ("bigint", .bigint)]),
  ("string", .node "Literal" [("value", .string), ("raw", .source)]),
  ("true", constantRule (.bool true) "true"),
  ("false", constantRule (.bool false) "false"),
  ("null", constantRule .null "null"),
  ("regex", .node "Literal" [("value", .constant .null), ("raw", .source), ("regex", .regex)]),
  ("template_string", .template),
  ("parenthesized_expression", .replaced .sequence),
  ("sequence_expression", .sequence),
  ("assignment_expression", .node "AssignmentExpression" [
    ("operator", .constant (.text "=")), ("left", .child "left"), ("right", .child "right")]),
  ("augmented_assignment_expression", .node "AssignmentExpression" [
    ("operator", .operator), ("left", .child "left"), ("right", .child "right")]),
  ("binary_expression", .binary),
  ("unary_expression", .node "UnaryExpression" [
    ("operator", .operator), ("prefix", .constant (.bool true)), ("argument", .child "argument")]),
  ("update_expression", .node "UpdateExpression" [
    ("operator", .operator), ("prefix", .operatorFirst), ("argument", .child "argument")]),
  ("ternary_expression", .node "ConditionalExpression" [
    ("test", .child "condition"), ("consequent", .child "consequence"),
    ("alternate", .child "alternative")]),
  ("await_expression", .node "AwaitExpression" [("argument", .first)]),
  ("yield_expression", .node "YieldExpression" [("delegate", .token "*"), ("argument", .first)]),
  ("spread_element", .node "SpreadElement" [("argument", .first)]),
  ("arguments", .replaced .all),
  ("call_expression", .chain),
  ("member_expression", .chain),
  ("subscript_expression", .chain),
  ("new_expression", .node "NewExpression" [
    ("callee", .child "constructor"), ("typeArguments", .childIfAny "type_arguments"),
    ("arguments", .arguments)]),
  ("meta_property", .metaProperty),
  ("array", .node "ArrayExpression" [("elements", .elements)]),
  ("object", .node "ObjectExpression" [("properties", .members)]),
  ("pair", pairRule)]

/-- The kinds of classes and modules. -/
def moduleRules : List (String × Rule) := [
  ("method_definition", .method),
  ("field_definition", fieldRule "property"),
  ("public_field_definition", fieldRule "name"),
  ("class_static_block", .node "StaticBlock" [("body", .allWithin "body")]),
  ("class_body", .node "ClassBody" [("body", .all)]),
  ("decorator", .node "Decorator" [("expression", .first)]),
  ("class_declaration", classRule "ClassDeclaration" []),
  ("abstract_class_declaration",
    classRule "ClassDeclaration" [("abstract", .constant (.bool true))]),
  ("class", classRule "ClassExpression" []),
  ("import_statement", .node "ImportDeclaration" [
    ("importKind", .importKind), ("specifiers", .importSpecifiers), ("source", .child "source")]),
  ("export_statement", .exportStatement)]

/-- The kinds of JSX elements. -/
def jsxRules : List (String × Rule) := [
  ("jsx_element", .jsxElement),
  ("jsx_self_closing_element", .node "JSXElement" [
    ("openingElement", .jsxSelfOpening), ("children", .nothing),
    ("closingElement", .constant .null)]),
  ("jsx_opening_element", .node "JSXOpeningElement" [
    ("name", .jsxName "name"), ("typeArguments", .childIfAny "type_arguments"),
    ("attributes", .jsxAttributes), ("selfClosing", .constant (.bool false))]),
  ("jsx_closing_element", .node "JSXClosingElement" [("name", .jsxName "name")]),
  ("jsx_attribute", .node "JSXAttribute" [("name", .jsxAttributeName), ("value", .lastOfMany)]),
  ("jsx_expression", .jsxExpression),
  ("jsx_text", .node "JSXText" [("value", .source), ("raw", .source)])]

/-- The kinds of types. -/
def typeRules : List (String × Rule) := [
  ("type_annotation", .node "TSTypeAnnotation" [("typeAnnotation", .typeAt 0)]),
  ("predefined_type", .predefinedType),
  ("generic_type", .node "TSTypeReference" [
    ("typeName", .child "name"), ("typeArguments", .childIfAny "type_arguments")]),
  ("type_arguments", .node "TSTypeParameterInstantiation" [("params", .types)]),
  ("type_parameters", .node "TSTypeParameterDeclaration" [("params", .all)]),
  ("type_parameter", .node "TSTypeParameter" [
    ("name", .child "name"), ("constraint", .typeWithin "constraint"),
    ("default", .typeWithin "value")]),
  ("as_expression", .node "TSAsExpression" [
    ("expression", .first), ("typeAnnotation", .typeAt 1)]),
  ("satisfies_expression", .node "TSSatisfiesExpression" [
    ("expression", .first), ("typeAnnotation", .typeAt 1)]),
  ("non_null_expression", .node "TSNonNullExpression" [("expression", .first)])]

/-- All kinds that have a rule. -/
def rules : List (String × Rule) :=
  expressionRules ++ statementRules ++ functionRules ++ moduleRules ++ jsxRules ++ typeRules

/-- The rule of a kind. -/
def ruleOf (kind : String) : Rule := (rules.lookup kind).getD .generic

/-- The types that have a keyword, and the types of their nodes. -/
def predefinedTypes : List (Text × Text) := [
  ("any", "TSAnyKeyword"), ("number", "TSNumberKeyword"), ("boolean", "TSBooleanKeyword"),
  ("string", "TSStringKeyword"), ("symbol", "TSSymbolKeyword"), ("void", "TSVoidKeyword"),
  ("unknown", "TSUnknownKeyword"), ("never", "TSNeverKeyword"), ("object", "TSObjectKeyword"),
  ("bigint", "TSBigIntKeyword"), ("undefined", "TSUndefinedKeyword"), ("null", "TSNullKeyword")]

/-- A type with a keyword; a keyword that is not known refers to a type. -/
def predefinedType (source : Source) (site : Site) : Value :=
  nodeOf ((predefinedTypes.lookup (site.token.text source)).getD "TSTypeReference") site.token []

/-- Lower the node at `site`, which stands in a node of kind `parent?`. -/
def Rule.lower (source : Source) (parent? : Option String) (site : Site) :
    Rule → Except Fault Value
  | node type fields => do pure (nodeOf type site.token (← fillAll source site fields))
  | replaced filler => do pure ((← filler.fill source site).getD .null)
  | ifStatement => Lowering.ifStatement site
  | tryStatement => Lowering.tryStatement site
  | switchStatement => Lowering.switchStatement site
  | forIn => forInStatement source site
  | typedParameter optional => Lowering.typedParameter source site optional
  | defaultedMember => Lowering.defaultedMember source site
  | template => templateLiteral source site
  | sequence => flatSequence site
  | binary => binaryExpression source site
  | chain => chainOf site
  | metaProperty => .ok (Lowering.metaProperty source site)
  | method => methodOf source site (parent? = some "object")
  | exportStatement => exportOf source site
  | jsxElement => jsxElementOf source site
  | jsxExpression => jsxExpressionOf site
      (parent? = some "jsx_opening_element" || parent? = some "jsx_self_closing_element")
  | predefinedType => .ok (Lowering.predefinedType source site)
  | generic => genericOf source site

end Arbor.Lowering
