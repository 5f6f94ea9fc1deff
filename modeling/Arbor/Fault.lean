import Arbor.Text.Quoted

set_option autoImplicit false

/-! # Faults

Why an operation gives no answer. Syntax errors of a parsed source are no faults: they are data
(`Arbor.Diagnostic`). Each constructor is a cause; a cause that the library words itself has its
wording in `Fault.message?`. -/

namespace Arbor

/-- A cause for which an operation gives no answer. -/
inductive Fault where
  /-- A field was asked for in a value that is not a record. -/
  | notARecord
  /-- The elements were asked for of a value that has none. -/
  | notIterable
  /-- A list or record was looked up in a set or used as a key. -/
  | unhashable
  /-- Keys of different kinds were to be sorted. -/
  | incomparable
  /-- A list stands where the fields of a record are read or stored. -/
  | listInsteadOfRecord
  /-- A value that is no callback was called. -/
  | notCallable
  /-- An argument of a call does not exist or has the wrong kind. -/
  | badArgument
  /-- A text does not denote an integer. -/
  | notAnInteger
  /-- An integer has more digits than may be written. -/
  | tooManyDigits
  /-- A text that holds a surrogate was to be written as bytes. -/
  | loneSurrogate
  /-- An escape denotes a number beyond the last code point. -/
  | codePointTooLarge
  /-- An escape denotes a number beyond the machine integers. -/
  | numberTooLarge
  /-- A position beyond the end of a list was asked for. -/
  | noSuchElement
  /-- A field that a record does not have was asked for. -/
  | noSuchField
  /-- A directory was to be written as a file. -/
  | isADirectory
  /-- A path goes on from something that is no directory. -/
  | notADirectory
  /-- A directory was to be made where something else is. -/
  | alreadyExists
  /-- A name holds the code point zero. -/
  | badFileName
  /-- A name is longer than a file system takes. -/
  | nameTooLong
  /-- A leave callback asked for something that only an enter callback can have. -/
  | onlyOnEnter
  /-- A language was asked for that is not supported; the text is the value as shown. -/
  | unsupportedLanguage (shown : Text)
  /-- A declaration has a kind that is none of the six kinds. -/
  | unknownDeclaration (kind : Text)
  /-- Options were given that do not exist. -/
  | unknownOptions (names : List Text)
  /-- The third argument of a walk is neither a callback nor options. -/
  | neitherCallbackNorOptions
  deriving DecidableEq

namespace Fault

/-- The wording of the faults that the library words itself. -/
def message? : Fault → Option Text
  | unsupportedLanguage shown =>
    some ("Unsupported language: " ++ shown ++ ". Expected one of js, jsx, ts, tsx")
  | unknownDeclaration kind => some ("Unknown declaration type: " ++ kind)
  | unknownOptions names => some ("Unknown walk options: " ++ Text.join ", " names)
  | neitherCallbackNorOptions => some "Expected an enter callback or a dict of walk options"
  | _ => none

end Fault

end Arbor
