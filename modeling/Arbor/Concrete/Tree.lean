import Arbor.Text.Utf8

set_option autoImplicit false

/-! # Concrete syntax trees

A grammar delivers the syntax of a source as a tree in which every token is a node. Nodes have a
kind, may be named or anonymous, cover a range of bytes of the source, and may be held by their
parent under a field name. A tree may be damaged: `ERROR` nodes hold what the grammar could not
place, and missing nodes stand for what it expected. Ranges need not make sense in a damaged tree.

Trees carry a note at every node, so that what has been computed about a subtree stays with it. -/

namespace Arbor

/-! ## Sources -/

/-- The bytes of a source file. -/
structure Source where
  bytes : Array UInt8

namespace Source

def size (source : Source) : Nat := source.bytes.size

/-- The text of the bytes from `start` up to `stop`, cut to the bytes that exist. -/
def slice (source : Source) (start stop : Nat) : Text :=
  Utf8.decode (source.bytes.extract start stop).toList

/-- The source with a given text. -/
def ofText (t : Text) : Source := ⟨(Utf8.encode t).toArray⟩

/-- The text of the whole source. -/
def toText (source : Source) : Text := Utf8.decode source.bytes.toList

end Source

/-! ## Trees -/

/-- What a node is, apart from its children. -/
structure Token where
  kind : String
  named : Bool
  missing : Bool
  start : Nat
  stop : Nat
  field? : Option String
  deriving DecidableEq, Inhabited

/-- A syntax tree with a note of type `α` at every node. -/
inductive Tree (α : Type) where
  | node (token : Token) (note : α) (children : List (Tree α))
  deriving Inhabited

/-- A syntax tree as a grammar delivers it. -/
abbrev Cst := Tree Unit

namespace Token

def isComment (t : Token) : Bool := t.kind = "comment" || t.kind = "html_comment"

def isError (t : Token) : Bool := t.kind = "ERROR"

/-- Comments and what the grammar could not place are left out of a program. -/
def isSkipped (t : Token) : Bool := t.isComment || t.isError

/-- The text that a node covers. -/
def text (t : Token) (source : Source) : Text := source.slice t.start t.stop

end Token

namespace Tree

variable {α : Type}

def token : Tree α → Token
  | node t _ _ => t

def note : Tree α → α
  | node _ n _ => n

def children : Tree α → List (Tree α)
  | node _ _ cs => cs

def kind (t : Tree α) : String := t.token.kind

/-- Whether a node counts as a part of its parent: it is named and not skipped. -/
def isPart (t : Tree α) : Bool := t.token.named && !t.token.isSkipped

end Tree

end Arbor
