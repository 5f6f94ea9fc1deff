import Arbor.Lowering.Rule

set_option autoImplicit false

/-! # Lowering a tree

`Tree.lowered` carries every node of a syntax tree, from the leaves up, to what it becomes, and
`programOf` puts the program of a source together. -/

namespace Arbor.Lowering

/-- What a node becomes. Comments and `ERROR` nodes become nothing. -/
def readingOf (source : Source) (parent? : Option String) (site : Site) : Reading :=
  if site.token.isSkipped then ⟨.ok .null, .ok (.null, false), .ok .null⟩
  else
    let value := (ruleOf site.token.kind).lower source parent? site
    ⟨value,
      if isLink site.token.kind then linkOf site else value.map (·, false),
      jsxNameAt source site value⟩

mutual

/-- A tree with what each node becomes; `parent?` is the kind of the node around it. -/
def lowered (source : Source) (parent? : Option String) : Cst → Branch
  | .node token _ children =>
    let branches := loweredAll source (some token.kind) children
    .node token (readingOf source parent? ⟨token, branches⟩) branches

/-- Several trees with what their nodes become. -/
def loweredAll (source : Source) (parent? : Option String) : List Cst → List Branch
  | [] => []
  | t :: rest => lowered source parent? t :: loweredAll source parent? rest

end

/-- What a syntax tree becomes inside a node of kind `parent?`. -/
def lower (source : Source) (parent? : Option String) (tree : Cst) : Except Fault Value :=
  (lowered source parent? tree).value

/-- The interpreter line at the start of a script. -/
def hashbangOf (source : Source) (b : Branch) : Value :=
  nodeOf "Hashbang" b.token [("value", .text ((b.token.text source).drop 2))]

/-- The program of a source. Its range is the whole source. -/
def programOf (source : Source) (sourceType : Value) (root : Cst) : Except Fault Value := do
  let branches := loweredAll source (some root.kind) root.children
  let parts := branches.filter Tree.isPart
  let (lines, statements) := parts.partition fun b => b.kind = "hash_bang_line"
  let hashbang := (lines.getLast?.map (hashbangOf source)).getD .null
  let body ← valuesOf statements
  pure (nodeAt "Program" 0 source.size [
    ("sourceType", sourceType), ("hashbang", hashbang), ("body", .list body)])

end Arbor.Lowering
