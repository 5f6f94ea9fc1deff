import Arbor.Concrete.Tree
import Arbor.Text.Quoted
import Arbor.Value.Basic

set_option autoImplicit false

/-! # Comments and diagnostics of a source

Both are collected in one pass over the tree, in document order. Nothing inside a comment is
looked at; an `ERROR` node is reported unless it lies inside a reported one; missing nodes are
reported wherever they stand. -/

namespace Arbor

/-- A comment, with the text between its delimiters. -/
structure Comment where
  isBlock : Bool
  value : Text
  start : Nat
  stop : Nat
  deriving DecidableEq

/-- What is wrong at a place of a source. -/
inductive Problem where
  /-- The grammar expected a node of this kind. -/
  | missing (kind : String)
  /-- The grammar could not place this text. -/
  | unexpected (text : Text)
  deriving DecidableEq

/-- A problem and the range it was found at. -/
structure Diagnostic where
  problem : Problem
  start : Nat
  stop : Nat
  deriving DecidableEq

namespace Comment

/-- The comment that `text` spells. -/
def ofText (text : Text) (start stop : Nat) : Comment :=
  if text.startsWith "/*" then ⟨true, (text.dropLast 2).drop 2, start, stop⟩
  else if text.startsWith "<!--" then ⟨false, text.drop 4, start, stop⟩
  else ⟨false, text.drop 2, start, stop⟩

/-- A comment as a record. -/
def toValue (c : Comment) : Value :=
  .record [
    (.text "type", .text (if c.isBlock then "Block" else "Line")),
    (.text "value", .text c.value),
    (.text "start", .int c.start),
    (.text "end", .int c.stop)]

end Comment

/-- The wording of a problem. Of a long text only the first twenty code points are shown. -/
def Problem.message : Problem → Text
  | missing kind => "Expected " ++ (kind : Text).quoted
  | unexpected text =>
    let snippet := if 20 < text.length then text.take 20 ++ "..." else text
    "Unexpected token " ++ snippet.quoted

/-- What a pass over a tree finds. -/
inductive Finding where
  | comment (c : Comment)
  | diagnostic (d : Diagnostic)
  deriving DecidableEq

namespace Finding

/-- What is found at a node itself, comments apart. -/
def atToken (source : Source) (inError : Bool) (t : Token) : List Finding :=
  if t.missing then [diagnostic ⟨.missing t.kind, t.start, t.stop⟩]
  else if t.isError && !inError then
    [diagnostic ⟨.unexpected (t.text source), t.start, t.stop⟩]
  else []

mutual

/-- What is found in a tree, in document order. -/
def ofTree {α : Type} (source : Source) (inError : Bool) : Tree α → List Finding
  | .node t _ children =>
    if t.isComment then [comment (.ofText (t.text source) t.start t.stop)]
    else
      atToken source inError t ++
        ofTrees source (inError || (t.isError && !t.missing)) children

/-- What is found in several trees. -/
def ofTrees {α : Type} (source : Source) (inError : Bool) : List (Tree α) → List Finding
  | [] => []
  | t :: rest => ofTree source inError t ++ ofTrees source inError rest

end

end Finding

/-- The comments of a source, in document order. -/
def comments (source : Source) (root : Cst) : List Comment :=
  (Finding.ofTree source false root).filterMap fun
    | .comment c => some c
    | .diagnostic _ => none

/-- The problems of a source, in document order. -/
def diagnostics (source : Source) (root : Cst) : List Diagnostic :=
  (Finding.ofTree source false root).filterMap fun
    | .comment _ => none
    | .diagnostic d => some d

end Arbor
