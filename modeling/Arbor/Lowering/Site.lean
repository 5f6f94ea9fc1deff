import Arbor.Concrete.Tree
import Arbor.Fault
import Arbor.Value.Basic

set_option autoImplicit false

/-! # Places of a syntax tree

Lowering goes from the leaves to the root: when a node is lowered, its children have been lowered
already, and each child carries what it may become (`Reading`). This module holds the ways to pick
children: by field, by position among the parts, by token. Comments and `ERROR` nodes are no parts
and are never picked. -/

namespace Arbor.Lowering

/-- What a node becomes, depending on where it stands. Null stands for nothing. -/
structure Reading where
  /-- As an expression, statement, pattern or type. -/
  value : Except Fault Value
  /-- As the object or callee of a member access or call, and whether it is part of an optional
      chain. -/
  link : Except Fault (Value × Bool)
  /-- As the name of a JSX element or attribute. -/
  jsxName : Except Fault Value

/-- A tree that has been lowered. -/
abbrev Branch := Tree Reading

/-- A node whose children have been lowered. -/
structure Site where
  token : Token
  children : List Branch

/-- What a branch becomes as an expression, statement, pattern or type. -/
def Branch.value (b : Branch) : Except Fault Value := b.note.value

def Branch.site (b : Branch) : Site := ⟨b.token, b.children⟩

namespace Site

/-- The children that are parts of the node. -/
def parts (site : Site) : List Branch := site.children.filter Tree.isPart

/-- The parts of a given kind. -/
def partsOf (site : Site) (kind : String) : List Branch :=
  site.parts.filter fun b => b.kind = kind

/-- The parts held under a field. -/
def fieldAll (site : Site) (field : String) : List Branch :=
  site.parts.filter fun b => b.token.field? = some field

/-- The first part held under a field. -/
def field? (site : Site) (field : String) : Option Branch := (site.fieldAll field).head?

/-- The first child held under a field, whatever it is. -/
def mark? (site : Site) (field : String) : Option Branch :=
  site.children.find? fun b => b.token.field? = some field

def first? (site : Site) : Option Branch := site.parts.head?

/-- Whether an anonymous child is this token. -/
def hasToken (site : Site) (token : String) : Bool :=
  site.children.any fun b => !b.token.named && b.kind = token

/-- Whether an anonymous child is this token and starts before the boundary, or before the end of
    the node when there is no boundary. -/
def hasTokenBefore (site : Site) (token : String) (boundary? : Option Branch) : Bool :=
  let limit := match boundary? with
    | some b => b.token.start
    | none => site.token.stop
  site.children.any fun b => !b.token.named && b.kind = token && b.token.start < limit

end Site

/-! ## Lowered children -/

/-- What a child becomes; nothing if there is no child. -/
def valueOf (b? : Option Branch) : Except Fault Value :=
  match b? with
  | some b => b.value
  | none => .ok .null

/-- What several children become, without those that become nothing. -/
def valuesOf (branches : List Branch) : Except Fault (List Value) := do
  let values ← branches.mapM Branch.value
  pure (values.filter fun v => !v.isNull)

/-! ## Nodes of the lowered tree -/

/-- A node with a given type and range. -/
def nodeAt (type : Text) (start stop : Int) (fields : List (String × Value)) : Value :=
  .record (
    (.text "type", .text type) :: (.text "start", .int start) :: (.text "end", .int stop) ::
    fields.map fun (name, value) => (.text (name : Text), value))

/-- A node that covers the range of a token. -/
def nodeOf (type : Text) (token : Token) (fields : List (String × Value)) : Value :=
  nodeAt type token.start token.stop fields

/-- Store a field in a node. -/
def setField (v : Value) (name : Text) (value : Value) : Except Fault Value :=
  match v with
  | .record fields => .ok (.record (Fields.set fields (.text name) value))
  | _ => .error .listInsteadOfRecord

end Arbor.Lowering
