import Arbor.Concrete.Diagnostics
import Arbor.Language
import Arbor.Lowering.Program

set_option autoImplicit false

/-! # Parsed sources

What is known of a source after parsing: its program, its comments, and what is wrong with it. The
syntax tree comes from a grammar, which reads bytes. What is wrong with the syntax of a source is no
fault; but a language that does not exist is refused, and so is a text that has no bytes. -/

namespace Arbor

/-- A source that has been parsed. -/
structure Parsed where
  program : Value
  comments : List Comment
  diagnostics : List Diagnostic
  language : Language
  sourceType : Value
  text : Text

namespace Parsed

def hasErrors (p : Parsed) : Bool := !p.diagnostics.isEmpty

/-- The language that is asked for, or else the one that the file name tells. -/
def chooseLanguage (filename : Text) (wanted : Value) : Except Fault Language :=
  if wanted.isNull then .ok ((Language.ofFilename? filename).getD .js)
  else Language.named wanted

/-- Parse a source, of which `text` is the text and `tree` the syntax tree. -/
def ofSource (language : Language) (source : Source) (text : Text) (sourceType : Value)
    (tree : Cst) : Except Fault Parsed := do
  let program ← Lowering.programOf source sourceType tree
  pure {
    program, language, sourceType, text
    comments := Arbor.comments source tree
    diagnostics := Arbor.diagnostics source tree }

/-- Parse a text. -/
def ofText (filename text : Text) (wanted sourceType : Value) (tree : Cst) :
    Except Fault Parsed := do
  let language ← chooseLanguage filename wanted
  if text.hasSurrogate then throw .loneSurrogate
  ofSource language (.ofText text) text sourceType tree

/-- Parse the bytes of a file. -/
def ofBytes (filename : Text) (source : Source) (wanted sourceType : Value) (tree : Cst) :
    Except Fault Parsed := do
  ofSource (← chooseLanguage filename wanted) source source.toText sourceType tree

end Parsed

end Arbor
