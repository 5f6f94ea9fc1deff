import Arbor.Literal.Escape
import Arbor.Literal.Number
import Arbor.Lowering.Site
import Arbor.Text.Blank

set_option autoImplicit false

/-! # Fields of lowered nodes

Most kinds of nodes are lowered by one rule: the new node has a type and a list of fields, and each
field is filled in one of a few ways. `Filler` lists these ways and `Filler.fill` carries one out. A
filler that yields nothing leaves its field out; fields are filled in the order in which they stand,
so that of two faults the first one wins. -/

namespace Arbor.Lowering

/-- A way to fill a field of a lowered node. -/
inductive Filler where
  /-- A fixed scalar. -/
  | constant (s : Scalar)
  /-- A list without elements. -/
  | nothing
  /-- The text of the node. -/
  | source
  /-- The text of the node as an identifier. -/
  | identifier
  /-- The part under a field. -/
  | child (field : String)
  /-- The part under a field; the field is left out if there is none. -/
  | childIfAny (field : String)
  /-- The part under a field is lowered, and its result left out. -/
  | dropped (field : String)
  /-- The first part. -/
  | first
  /-- The last part, if it is not the first. -/
  | lastOfMany
  /-- All parts, as one expression. -/
  | sequence
  /-- All parts. -/
  | all
  /-- All parts of a kind. -/
  | allOf (kind : String)
  /-- All parts under a field. -/
  | allUnder (field : String)
  /-- All parts of the part under a field. -/
  | allWithin (field : String)
  /-- The elements between commas; a missing element is null. -/
  | elements
  /-- The members of an object. -/
  | members
  /-- Whether the node has this token. -/
  | token (token : String)
  /-- Whether the node has this token before the part under a field. -/
  | tokenBefore (token field : String)
  /-- The operator, or the empty text. -/
  | operator
  /-- Whether the operator stands before the argument. -/
  | operatorFirst
  /-- The word that declares variables. -/
  | declarationWord
  /-- The pattern of a declarator with its type, which extends its range. -/
  | binding
  /-- The parameter of a catch clause with its type. -/
  | caught
  /-- A clause in the head of a loop. -/
  | clause (field : String)
  /-- The parameters under the first of these fields that holds any. -/
  | params (fields : List String)
  /-- Whether the body of an arrow function is an expression. -/
  | expressionBody
  /-- Whether the key under a field is computed. -/
  | computed (field : String)
  /-- The key under a field. -/
  | key (field : String)
  /-- The arguments of a call. -/
  | arguments
  /-- The value of a number literal. -/
  | number
  /-- The digits of an integer literal of unlimited size; left out for other numbers. -/
  | bigint
  /-- The value of a string literal. -/
  | string
  /-- The pattern and flags of a regular expression. -/
  | regex
  /-- The name of a private member. -/
  | privateName
  /-- The decorators. -/
  | decorators
  /-- What a class extends. -/
  | superClass
  /-- What a class implements; left out if that is nothing. -/
  | implements
  /-- Whether a statement imports types or values. -/
  | importKind
  /-- The specifiers of an import. -/
  | importSpecifiers
  /-- The part under a field as the name of a JSX element. -/
  | jsxName (field : String)
  /-- The first part as the name of a JSX attribute. -/
  | jsxAttributeName
  /-- The attributes of a JSX tag. -/
  | jsxAttributes
  /-- The opening tag of a JSX element without children. -/
  | jsxSelfOpening
  /-- The part at a position, as a type. -/
  | typeAt (position : Nat)
  /-- All parts, as types. -/
  | types
  /-- The first part of the part under a field, as a type. -/
  | typeWithin (field : String)

/-! ## Expressions -/

/-- One expression, or several separated by commas as one. -/
def sequenceOf (token : Token) (branches : List Branch) : Except Fault Value :=
  match branches with
  | [b] => b.value
  | _ => do pure (nodeOf "SequenceExpression" token [("expressions", .list (← valuesOf branches))])

/-- The parts of a node as one expression, or null if it has none. -/
def expressionOf (site : Site) : Except Fault Value :=
  match site.parts with
  | [] => .ok .null
  | branches => sequenceOf site.token branches

/-- The first part of a node. -/
def firstOf (site : Site) : Except Fault Value := valueOf site.first?

/-- Elements separated by commas. `pending` tells whether an element has been read since the last
    comma. -/
def elementsOf (pending : Bool) : List Branch → Except Fault (List Value)
  | [] => .ok []
  | b :: rest =>
    if b.kind = "," then do
      let after ← elementsOf false rest
      pure (if pending then after else .null :: after)
    else if b.isPart then do
      let v ← b.value
      let after ← elementsOf true rest
      pure (v :: after)
    else elementsOf pending rest

/-- The operator of an expression, or the empty text. -/
def operatorOf (source : Source) (site : Site) : Text :=
  match site.mark? "operator" with
  | some b => b.token.text source
  | none => ""

/-- A clause of a loop head, which some grammars wrap into a statement. -/
def clauseOf (b? : Option Branch) : Except Fault Value :=
  match b? with
  | none => .ok .null
  | some b =>
    if b.kind = "empty_statement" then .ok .null
    else if b.kind = "expression_statement" then expressionOf b.site
    else b.value

/-! ## Properties -/

def isComputed (key? : Option Branch) : Bool :=
  match key? with
  | some b => b.kind = "computed_property_name"
  | none => false

/-- The key of a property or member. -/
def keyOf (key? : Option Branch) : Except Fault Value :=
  match key? with
  | some b => if b.kind = "computed_property_name" then expressionOf b.site else b.value
  | none => .ok .null

/-- The identifier that a token spells. -/
def identifierOf (source : Source) (token : Token) : Value :=
  nodeOf "Identifier" token [("name", .text (token.text source))]

/-- A property that stands for its name and its value at once. The two are nodes of their own. -/
def shorthandOf (source : Source) (token : Token) : Value :=
  nodeOf "Property" token [
    ("kind", .text "init"), ("method", .bool false), ("shorthand", .bool true),
    ("computed", .bool false), ("key", identifierOf source token),
    ("value", identifierOf source token)]

/-- The members of an object. -/
def membersOf (source : Source) (branches : List Branch) : Except Fault (List Value) := do
  let values ← branches.mapM fun b =>
    if b.kind = "shorthand_property_identifier" then .ok (shorthandOf source b.token) else b.value
  pure (values.filter fun v => !v.isNull)

/-! ## Functions and classes -/

/-- The parameters of a function; an arrow function may have one without parentheses. -/
def paramsOf (b? : Option Branch) : Except Fault (List Value) :=
  match b? with
  | none => .ok []
  | some b =>
    if b.kind = "formal_parameters" then valuesOf b.site.parts else valuesOf [b]

/-- The decorators of a class or member, which some grammars hold without a field. -/
def decoratorsOf (site : Site) : Except Fault (List Value) :=
  match site.fieldAll "decorator" with
  | [] => valuesOf (site.partsOf "decorator")
  | decorators => valuesOf decorators

/-- What a class extends and implements, gathered from the clauses of its heritage. -/
def heritageClauses (superClass : Value) (implemented : List Value) :
    List Branch → Except Fault (Value × List Value)
  | [] => .ok (superClass, implemented)
  | clause :: rest =>
    if clause.kind = "extends_clause" then do
      let base ← valueOf (clause.site.field? "value" <|> clause.site.first?)
      heritageClauses base implemented rest
    else if clause.kind = "implements_clause" then do
      let more ← valuesOf clause.site.parts
      heritageClauses superClass (implemented ++ more) rest
    else if superClass.isNull then do
      let base ← clause.value
      heritageClauses base implemented rest
    else heritageClauses superClass implemented rest

/-- What a class extends and implements. -/
def heritageOf (site : Site) : Except Fault (Value × List Value) :=
  match (site.partsOf "class_heritage").getLast? with
  | some heritage => heritageClauses .null [] heritage.site.parts
  | none => .ok (.null, [])

/-! ## Imports -/

/-- One specifier of a list of imported names. -/
def importSpecifierOf (specifier : Branch) : Except Fault Value := do
  let name? := specifier.site.field? "name"
  let imported ← valueOf name?
  let localName ← valueOf (specifier.site.field? "alias" <|> name?)
  pure (nodeOf "ImportSpecifier" specifier.token [("imported", imported), ("local", localName)])

/-- The specifiers of one part of an import clause. -/
def clauseSpecifiers (clause : Branch) : Except Fault (List Value) :=
  if clause.kind = "identifier" then do
    pure [nodeOf "ImportDefaultSpecifier" clause.token [("local", ← clause.value)]]
  else if clause.kind = "namespace_import" then do
    pure [nodeOf "ImportNamespaceSpecifier" clause.token [("local", ← firstOf clause.site)]]
  else if clause.kind = "named_imports" then
    (clause.site.partsOf "import_specifier").mapM importSpecifierOf
  else .ok []

/-- The specifiers of an import. -/
def importSpecifiersOf (site : Site) : Except Fault (List Value) := do
  let clauses := (site.partsOf "import_clause").flatMap fun clause => clause.site.parts
  pure (← clauses.mapM clauseSpecifiers).flatten

/-! ## JSX -/

/-- The attributes of a tag, which some grammars hold without a field. -/
def jsxAttributesOf (site : Site) : Except Fault (List Value) :=
  match site.fieldAll "attribute" with
  | [] => valuesOf (site.parts.filter fun b => b.kind = "jsx_attribute" || b.kind = "jsx_expression")
  | attributes => valuesOf attributes

/-- What a part becomes as the name of an element; nothing if there is no part. -/
def jsxNameOf (b? : Option Branch) : Except Fault Value :=
  match b? with
  | some b => b.note.jsxName
  | none => .ok .null

/-- The opening tag of an element. -/
def jsxOpeningOf (site : Site) (selfClosing : Bool) : Except Fault Value := do
  let name ← jsxNameOf (site.field? "name")
  let typeArguments : List (String × Value) ← match site.field? "type_arguments" with
    | some b => do pure [("typeArguments", ← b.value)]
    | none => pure []
  let attributes ← jsxAttributesOf site
  let closing : List (String × Value) :=
    [("attributes", .list attributes), ("selfClosing", .bool selfClosing)]
  pure (nodeOf "JSXOpeningElement" site.token (("name", name) :: typeArguments ++ closing))

/-! ## Types -/

/-- A part as a type: a bare name refers to a type. -/
def typeOf (source : Source) (b? : Option Branch) : Except Fault Value :=
  match b? with
  | some b =>
    if b.kind = "type_identifier" then
      .ok (nodeOf "TSTypeReference" b.token [("typeName", identifierOf source b.token)])
    else b.value
  | none => .ok .null

/-! ## Filling fields -/

/-- Store a type in a pattern that has one. -/
def withType (pattern : Value) (type? : Option Branch) (extend : Bool) : Except Fault Value :=
  match type? with
  | none => .ok pattern
  | some type =>
    if pattern.isNull then .ok pattern
    else do
      let typed ← setField pattern "typeAnnotation" (← type.value)
      if extend then setField typed "end" (.int type.token.stop) else pure typed

/-- Fill a field of the node at `site`. -/
def Filler.fill (source : Source) (site : Site) : Filler → Except Fault (Option Value)
  | constant s => .ok (some s)
  | nothing => .ok (some (.list []))
  | Filler.source => .ok (some (.text (site.token.text source)))
  | identifier => .ok (some (identifierOf source site.token))
  | child field => some <$> valueOf (site.field? field)
  | childIfAny field =>
    match site.field? field with
    | some b => some <$> b.value
    | none => .ok none
  | dropped field => do
    let _ ← valueOf (site.field? field)
    pure none
  | first => some <$> firstOf site
  | lastOfMany => some <$> valueOf (site.parts.drop 1).getLast?
  | sequence => some <$> expressionOf site
  | all => (some ∘ .list) <$> valuesOf site.parts
  | allOf kind => (some ∘ .list) <$> valuesOf (site.partsOf kind)
  | allUnder field => (some ∘ .list) <$> valuesOf (site.fieldAll field)
  | allWithin field =>
    match site.field? field with
    | some b => (some ∘ .list) <$> valuesOf b.site.parts
    | none => .ok (some (.list []))
  | elements => (some ∘ .list) <$> elementsOf false site.children
  | members => (some ∘ .list) <$> membersOf source site.parts
  | token t => .ok (some (.bool (site.hasToken t)))
  | tokenBefore t field => .ok (some (.bool (site.hasTokenBefore t (site.field? field))))
  | operator => .ok (some (.text (operatorOf source site)))
  | operatorFirst =>
    .ok (some (.bool (match site.mark? "operator", site.field? "argument" with
      | some op, some argument => op.token.start < argument.token.start
      | _, _ => false)))
  | declarationWord =>
    match site.mark? "kind", site.children with
    | some word, _ => .ok (some (.text (word.token.text source)))
    | none, b :: _ => .ok (some (.text b.kind))
    | none, [] => .error .noSuchElement
  | binding => do
    let pattern ← valueOf (site.field? "name")
    some <$> withType pattern (site.field? "type") true
  | caught => do
    let pattern ← valueOf (site.field? "parameter")
    some <$> withType pattern (site.field? "type") false
  | clause field => some <$> clauseOf (site.field? field)
  | params fields => (some ∘ .list) <$> paramsOf (fields.findSome? site.field?)
  | expressionBody =>
    .ok (some (.bool (match site.field? "body" with
      | some b => b.kind ≠ "statement_block"
      | none => false)))
  | computed field => .ok (some (.bool (isComputed (site.field? field))))
  | key field => some <$> keyOf (site.field? field)
  | arguments =>
    match site.field? "arguments" with
    | some b => (some ∘ .list) <$> valuesOf b.site.parts
    | none => .ok (some (.list []))
  | number => .ok (some (Literal.numberValue (site.token.text source)))
  | bigint =>
    let raw := site.token.text source
    .ok (if raw.endsWith "n" then some (.text ((raw.dropLast 1).without '_')) else none)
  | string => do
    let body ← Literal.unescape (((site.token.text source).dropLast 1).drop 1)
    pure (some (.text body))
  | regex =>
    let textOf (b? : Option Branch) : Value :=
      .text (match b? with
        | some b => b.token.text source
        | none => "")
    .ok (some (.record [
      (.text "pattern", textOf (site.field? "pattern")),
      (.text "flags", textOf (site.field? "flags"))]))
  | privateName => .ok (some (.text ((site.token.text source).dropStart (· = '#'))))
  | decorators => (some ∘ .list) <$> decoratorsOf site
  | superClass => do
    let (base, _) ← heritageOf site
    pure (some base)
  | implements => do
    let (_, implemented) ← heritageOf site
    pure (if implemented.isEmpty then none else some (.list implemented))
  | importKind => .ok (some (.text (if site.hasToken "type" then "type" else "value")))
  | importSpecifiers => (some ∘ .list) <$> importSpecifiersOf site
  | jsxName field => some <$> jsxNameOf (site.field? field)
  | jsxAttributeName => some <$> jsxNameOf site.first?
  | jsxAttributes => (some ∘ .list) <$> jsxAttributesOf site
  | jsxSelfOpening => some <$> jsxOpeningOf site true
  | typeAt position => some <$> typeOf source site.parts[position]?
  | types => (some ∘ .list) <$> site.parts.mapM fun b => typeOf source (some b)
  | typeWithin field =>
    some <$> typeOf source ((site.field? field).bind fun b => b.site.first?)

/-- Fill several fields, in order. -/
def fillAll (source : Source) (site : Site) :
    List (String × Filler) → Except Fault (List (String × Value))
  | [] => .ok []
  | (name, filler) :: rest => do
    let value? ← filler.fill source site
    let more ← fillAll source site rest
    pure (match value? with
      | some value => (name, value) :: more
      | none => more)

end Arbor.Lowering
