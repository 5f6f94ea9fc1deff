import Arbor.Lowering.Generic
import Arbor.Lowering.Filler

set_option autoImplicit false

/-! # Exports -/

namespace Arbor.Lowering

/-- The kinds of function expressions. -/
def functionKinds : List String := ["function_expression", "function", "generator_function"]

/-- The kinds of class expressions. -/
def classKinds : List String := ["class"]

/-- A default export. A function or class that is exported declares its name, even if it has
    none. -/
def defaultExport (site : Site) : Except Fault Value := do
  let target? := site.field? "declaration" <|> site.field? "value"
  let declaration ← valueOf target?
  let kind := (target?.map Tree.kind).getD ""
  let declaration ←
    if declaration.isNull then pure declaration
    else if functionKinds.contains kind then
      setField declaration "type" (.text "FunctionDeclaration")
    else if classKinds.contains kind then setField declaration "type" (.text "ClassDeclaration")
    else pure declaration
  pure (nodeOf "ExportDefaultDeclaration" site.token [("declaration", declaration)])

/-- One specifier of a list of exported names. -/
def exportSpecifierOf (specifier : Branch) : Except Fault Value := do
  let name? := specifier.site.field? "name"
  let localName ← valueOf name?
  let exported ← valueOf (specifier.site.field? "alias" <|> name?)
  pure (nodeOf "ExportSpecifier" specifier.token [("local", localName), ("exported", exported)])

/-- An export: of a default, of a declaration, of a namespace, of a list of names or of all. -/
def exportOf (source : Source) (site : Site) : Except Fault Value := do
  let origin ← valueOf (site.field? "source")
  if site.hasToken "default" then defaultExport site
  else match site.field? "declaration" with
    | some declaration =>
      pure (nodeOf "ExportNamedDeclaration" site.token [
        ("declaration", ← declaration.value), ("specifiers", .list []), ("source", .null)])
    | none =>
      let clause? := site.parts.find? fun b => b.kind = "namespace_export" || b.kind = "export_clause"
      match clause? with
      | some clause =>
        if clause.kind = "namespace_export" then
          pure (nodeOf "ExportAllDeclaration" site.token [
            ("exported", ← firstOf clause.site), ("source", origin)])
        else
          let specifiers ← (clause.site.partsOf "export_specifier").mapM exportSpecifierOf
          pure (nodeOf "ExportNamedDeclaration" site.token [
            ("declaration", .null), ("specifiers", .list specifiers), ("source", origin)])
      | none =>
        if site.hasToken "*" then
          pure (nodeOf "ExportAllDeclaration" site.token [("exported", .null), ("source", origin)])
        else genericOf source site

end Arbor.Lowering
