import Arbor.Lowering.Site
import Arbor.Text.Uppercase

set_option autoImplicit false

/-! # Kinds without a rule

A node of a kind that has no rule keeps its parts under their field names, in order of their first
occurrence; parts without a field name go to `children`, and a node without parts keeps its text
under `raw`. The fields that would collide with the type and range of a node all become
`typeAnnotation`. -/

namespace Arbor.Lowering

/-- Kinds of the type level whose names do not end in `_type`. -/
def typeLevelKinds : List String := [
  "interface_declaration", "type_alias_declaration", "enum_declaration", "enum_body",
  "enum_assignment", "module", "internal_module", "ambient_declaration",
  "abstract_method_signature", "method_signature", "property_signature", "index_signature",
  "call_signature", "construct_signature", "type_predicate", "type_predicate_annotation",
  "asserts", "asserts_annotation", "type_query", "implements_clause", "extends_type_clause",
  "accessibility_modifier", "override_modifier", "mapped_type_clause",
  "omitting_type_annotation", "opting_type_annotation", "adding_type_annotation",
  "type_assertion", "import_require_clause", "instantiation_expression", "constraint"]

/-- The words of a kind, each with a capital, without the underscores between them. -/
def camelCase (kind : Text) : Text :=
  Text.join "" ((kind.split '_').map Text.capitalize)

/-- The type of a node whose kind has no rule. -/
def genericType (kind : String) : Text :=
  if typeLevelKinds.contains kind || (kind : Text).endsWith "_type" then
    "TS" ++ camelCase kind
  else camelCase kind

/-- The name under which a part is kept. -/
def genericKey (field : String) : Text :=
  if field = "type" ∨ field = "start" ∨ field = "end" then "typeAnnotation" else field

/-- Add a value to a field: the first value stands alone, further ones make a list. -/
def addToField (fields : List (Key × Value)) (name : Text) (value : Value) : List (Key × Value) :=
  Fields.set fields (.text name) (match Fields.get? fields (.text name) with
    | none => value
    | some (.list items) => .list (items ++ [value])
    | some other => .list [other, value])

/-- The fields of a node with the given parts added, and the parts without a field. -/
def genericFields (fields : List (Key × Value)) (unnamed : List Value) :
    List Branch → Except Fault (List (Key × Value) × List Value)
  | [] => .ok (fields, unnamed)
  | b :: rest => do
    let v ← b.value
    if v.isNull then genericFields fields unnamed rest
    else match b.token.field? with
      | none => genericFields fields (unnamed ++ [v]) rest
      | some field => genericFields (addToField fields (genericKey field) v) unnamed rest

/-- A node of a kind without a rule. -/
def genericOf (source : Source) (site : Site) : Except Fault Value := do
  let start : List (Key × Value) := [
    (.text "type", .text (genericType site.token.kind)),
    (.text "start", .int site.token.start), (.text "end", .int site.token.stop)]
  if site.parts.isEmpty then
    pure (.record (Fields.set start (.text "raw") (.text (site.token.text source))))
  else
    let (fields, unnamed) ← genericFields start [] site.parts
    pure (.record (if unnamed.isEmpty then fields
      else Fields.set fields (.text "children") (.list unnamed)))

end Arbor.Lowering
