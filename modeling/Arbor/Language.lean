import Arbor.Fault
import Arbor.Value.Display

set_option autoImplicit false

/-! # Languages

The variants of the language and how one is chosen: by the end of a file name, or by name. -/

namespace Arbor

/-- A variant of the language. -/
inductive Language where
  | js
  | jsx
  | ts
  | tsx
  deriving DecidableEq, Inhabited

/-- A grammar. One grammar covers both variants without types. -/
inductive Grammar where
  | javascript
  | typescript
  | tsx
  deriving DecidableEq

namespace Language

/-- The languages in the order in which messages list them. -/
def all : List Language := [js, jsx, ts, tsx]

def name : Language → String
  | js => "js"
  | jsx => "jsx"
  | ts => "ts"
  | tsx => "tsx"

def grammar : Language → Grammar
  | js => .javascript
  | jsx => .javascript
  | ts => .typescript
  | tsx => .tsx

/-- The languages that share the grammar of a language. -/
def sharing (language : Language) : List Language :=
  all.filter fun other => other.grammar = language.grammar

/-- The language that a value names. -/
def named? : Value → Option Language
  | .scalar (.text t) => all.find? fun language => t = language.name
  | _ => none

/-- The language that a value names, or the fault that it names none. -/
def named (v : Value) : Except Fault Language :=
  match named? v with
  | some language => .ok language
  | none => do throw (.unsupportedLanguage (← v.shown))

/-- Whether a file name ends in the extension of a language, or in one of its forms for the two
    kinds of modules. -/
def hasExtension (filename : Text) (language : Language) : Bool :=
  [".", ".c", ".m"].any fun mark => filename.endsWith ((mark : Text) ++ language.name)

/-- The language that a file name tells by its extension. One line end after it is overlooked. -/
def ofFilename? (filename : Text) : Option Language :=
  let filename := if filename.endsWith "\n" then filename.dropLast 1 else filename
  all.find? (hasExtension filename)

end Language

end Arbor
