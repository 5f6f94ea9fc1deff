import Arbor.Parsed
import Arbor.Settings.Basic
import Arbor.Walk.Walker

set_option autoImplicit false

/-! # Parsing a source and walking its program

The callbacks, the tracker and the choices for parsing may be given one by one, or together as
options, which then count instead; a callback alone is an enter callback. What is chosen neither way
comes from the settings. -/

namespace Arbor

open Scope (Tracker)

/-- Options of a walk. An option that is absent leaves the choice open; one that is there and empty
    chooses that there is nothing. -/
structure WalkOptions (σ : Type) where
  enter? : Option (Option (Callback σ)) := none
  leave? : Option (Option (Callback σ)) := none
  tracker? : Option (Option Tracker) := none
  parse? : Option Value := none
  /-- The names of options that do not exist. -/
  unknown : List Key := []

/-- What the choices of a walk are given as. -/
inductive WalkArgument (σ : Type) where
  | absent
  | callback (enter : Callback σ)
  | options (o : WalkOptions σ)
  | other

namespace WalkOptions

variable {σ : Type}

/-- The names of options in order. -/
def sortedNames (names : List Text) : List Text :=
  names.mergeSort fun a b => !b.before a

/-- The fault that options do not exist. They are listed, each one once, only if all their names are
    texts. -/
def unknownFault (names : List Key) : Fault :=
  let text? : Key → Option Text
    | .text t => some t
    | _ => none
  match names.mapM text? with
  | some names => .unknownOptions (sortedNames names.eraseDups)
  | none => .badArgument

/-- The choices made by an argument, and by `single` where the argument leaves them open. -/
def settle (single : WalkOptions σ) : WalkArgument σ → Except Fault (WalkOptions σ)
  | .absent => .ok single
  | .callback enter => .ok { single with enter? := some (some enter) }
  | .options o =>
    if o.unknown ≠ [] then .error (unknownFault o.unknown)
    else .ok {
      enter? := o.enter? <|> single.enter?
      leave? := o.leave? <|> single.leave?
      tracker? := o.tracker? <|> single.tracker?
      parse? := o.parse? <|> single.parse? }
  | .other => .error .neitherCallbackNorOptions

/-- The fields of the choices for parsing; choices that are not given have none. -/
def parseFields (o : WalkOptions σ) : Except Fault (List (Key × Value)) :=
  let v := o.parse?.getD .null
  if !v.isTruthy then .ok []
  else match v with
    | .record fields => .ok fields
    | _ => .error .notARecord

/-- The choice under a name, if it is given. -/
def choice? (fields : List (Key × Value)) (name : Text) : Option Value :=
  (Fields.get? fields (.text name)).filter Value.isTruthy

/-- The language to parse a file in: the one that is chosen, or that the file name tells, or that
    is set. -/
def wantedLanguage (fields : List (Key × Value)) (filename : Text) (settings : Settings) : Value :=
  (choice? fields "lang").getD (match Language.ofFilename? filename with
    | some language => .text language.name
    | none => settings.defaultLanguage)

end WalkOptions

/-- Parse a source and walk its program. The result is the parsed source, with its program as it is
    after the walk, and the state of the walk. -/
def parseAndWalk {σ : Type} (steps : Nat) (settings : Settings) (filename code : Text) (tree : Cst)
    (argument : WalkArgument σ) (single : WalkOptions σ) (user : σ) :
    Except Stop (Parsed × World σ) :=
  let prepared : Except Fault (WalkOptions σ × Parsed) := do
    let o ← single.settle argument
    let fields ← o.parseFields
    let wanted := WalkOptions.wantedLanguage fields filename settings
    let sourceType := (WalkOptions.choice? fields "source_type").getD settings.sourceType
    pure (o, ← Parsed.ofText filename code wanted sourceType tree)
  match prepared with
  | .error f => .error (.fault f)
  | .ok (o, parsed) =>
    let (root, heap) := Heap.empty.load parsed.program
    let sourceType : Datum := match root with
      | .ref r => heap.field r "sourceType"
      | .scalar _ => .null
    let tracker? := o.tracker?.getD none
    let walker : Walker σ := ⟨o.enter?.getD none, o.leave?.getD none, tracker?.isSome⟩
    match walker.walk steps root ⟨heap, tracker?.getD (.fresh false), [], user⟩ with
    | .error stop _ => .error stop
    | .ok result w =>
      let program := w.heap.read (if result.isNull then root else result)
      .ok ({ parsed with program, sourceType := w.heap.read sourceType }, w)

end Arbor
